import AnnotationCodec.Proofs.Annotation.Encoding
import AnnotationCodec.Proofs.Annotation.Reading
import AnnotationCodec.Proofs.Json.Nesting

/-!
How decoding fails. Whatever is stored, a failure can be reported unless the reader gave up: what the reader returns has a
text, because it reads no integer beyond the digit limit.
-/
namespace AnnotationCodec

namespace Json

variable {t rest : Text} {v : Value} {vs : List Value} {fuel depth : Nat}

theorem isDescribed_of_scalar (h : scalar t = .ok (v, rest)) : v.IsDescribed := by
  have hplain := plain_of_scalar h
  cases v with
  | int n =>
    obtain ⟨x, hx, -⟩ := signed_of_scalar h
    have hb : Blank [] := by simp [Blank]
    obtain ⟨m, hm, hlt⟩ := fits_of_denotes (.integer hb hx hb)
    cases hm
    exact hlt
  | null | bool b | float x => trivial
  | _ => exact hplain.elim

/-- What is read has a description: only numbers would have to be shown. -/
theorem isDescribed_of_value (h : value fuel depth t = .ok (v, rest)) : v.IsDescribed := by
  rcases value_cases h with ⟨q, s, -, -, rfl⟩ | ⟨q, k, d, -, -, -, hlist⟩ | ⟨es, rfl⟩ | hs
  · trivial
  · rcases hlist with ⟨-, rfl⟩ | ⟨vs, -, rfl⟩ <;> trivial
  · trivial
  · exact isDescribed_of_scalar hs

theorem isDescribed_of_elements (h : elements fuel depth t = .ok (vs, rest)) : ∀ u ∈ vs, u.IsDescribed := by
  induction fuel generalizing t vs rest with
  | zero => cases h
  | succ k ih =>
    unfold elements at h
    split at h
    · cases h
    next v r hv =>
    have hdescribed := isDescribed_of_value hv
    split at h
    · cases h
    split_ifs at h
    · cases h
      simpa using hdescribed
    · obtain ⟨⟨ws, rest'⟩, hws, heq⟩ := map_eq_ok_iff.mp h
      cases heq
      exact List.forall_mem_cons.mpr ⟨hdescribed, ih hws⟩
    · cases h

/-- Whatever in JSON is a misfit for a shape can be described. -/
theorem isDescribed_of_misfit {shape : Shape} {u : Value} (h : read t = .ok v) (hu : shape.misfit? v = some u) :
    u.IsDescribed := by
  obtain ⟨a, r, b, -, -, -, fuel, depth, hv⟩ := exists_of_read h
  have hself := isDescribed_of_value hv
  unfold Shape.misfit? at hu
  split at hu
  · cases hu
  · cases hu
  · next vs =>
    rcases value_cases hv with ⟨q, s, -, -, heq⟩ | ⟨q, k, d, -, -, -, hlist⟩ | ⟨es, heq⟩ | hs
    · cases heq
    · rcases hlist with ⟨-, heq⟩ | ⟨ws, hws, heq⟩
      · cases heq
        cases hu
      · cases heq
        exact isDescribed_of_elements hws u (List.mem_of_find?_eq_some hu)
    · cases heq
    · exact (plain_of_scalar hs).elim
  · cases hu
    exact hself

end Json

/-- What is stored is no text, or a text that is not nested deeper than the reader goes. -/
def Value.IsReachable (v : Value) : Prop :=
  ∀ t, v = .str t → Json.nesting t ≤ Json.depthLimit

namespace Codec

variable {key v w : Value} {shape : Shape} {e : Failure}

theorem fits_of_decode (h : decode key shape v = .ok w) : w.Fits shape := by
  cases v with
  | str t => exact Json.fits_of_denotes (decode_eq_ok_iff.mp h)
  | _ => cases h

/-- What is stored is read as JSON, or refused for a reason that can be told, or too deep. -/
theorem stored_cases (key v : Value) :
    (∃ t w, v = .str t ∧ Json.read t = .ok w ∧ stored key v = .ok w) ∨
    (∃ reason : Reason, reason.IsTold ∧ stored key v = .error (Failure.decoding key reason).raised) ∨
    (∃ t, v = .str t ∧ Json.read t = .error .tooDeep ∧ stored key v = .error .tooDeep) := by
  cases v with
  | str t =>
    unfold stored
    dsimp only
    cases hread : Json.read t with
    | ok w => exact .inl ⟨t, w, rfl, hread, rfl⟩
    | error e =>
      cases e with
      | malformed problem left => exact .inr (.inl ⟨.json t problem left, trivial, rfl⟩)
      | tooManyDigits count => exact .inr (.inl ⟨.digits count, trivial, rfl⟩)
      | tooDeep => exact .inr (.inr ⟨t, rfl, hread, rfl⟩)
  | _ => exact .inr (.inl ⟨.notText _, trivial, rfl⟩)

/-- Decoding comes to its end, or fails for a reason that can be told, or gives up on a text. -/
theorem decode_cases (key : Value) (shape : Shape) (v : Value) :
    (∃ w, decode key shape v = .ok w) ∨
    (∃ reason : Reason, reason.IsTold ∧ decode key shape v = .error (Failure.decoding key reason).raised) ∨
    (∃ t, v = .str t ∧ Json.read t = .error .tooDeep ∧ decode key shape v = .error .tooDeep) := by
  unfold decode
  rcases stored_cases key v with ⟨t, w, rfl, hread, hs⟩ | ⟨reason, htold, hs⟩ | ⟨t, rfl, hread, hs⟩
  · rw [hs]
    rcases Content.ofValue_cases shape w with ⟨-, c, hc⟩ | ⟨u, reason, hu, hc, htold⟩
    · refine .inl ⟨c.toValue, ?_⟩
      simp only [bind, Except.bind, hc]
      rfl
    · refine .inr (.inl ⟨reason, htold.mpr (Json.isDescribed_of_misfit hread hu), ?_⟩)
      simp only [bind, Except.bind, hc, decodingError]
  · exact .inr (.inl ⟨reason, htold, by rw [hs]; rfl⟩)
  · exact .inr (.inr ⟨t, rfl, hread, by rw [hs]; rfl⟩)

/-- Under a key that has a text, what can be reached is decoded or refused with the key. -/
theorem decode_of_reachable (key : Value) (hk : key.IsBounded) (hv : v.IsReachable) (shape : Shape) :
    (∃ w, decode key shape v = .ok w) ∨ ∃ reason, decode key shape v = .error (.decoding key reason) := by
  rcases decode_cases key shape v with hok | ⟨reason, htold, he⟩ | ⟨t, rfl, hread, -⟩
  · exact .inl hok
  · rcases Failure.raised_keyed_cases (f := .decoding key reason) rfl with ⟨-, -, hraised⟩ | ⟨hn, -⟩
    · exact .inr ⟨reason, by rw [he, hraised]⟩
    · exact (hn ⟨htold, hk⟩).elim
  · have hle := hv t rfl
    have hlt := Json.nesting_of_tooDeep hread
    omega

theorem decode_of_tooDeep {t : Text} (h : Json.read t = .error .tooDeep) : decode key shape (.str t) = .error .tooDeep := by
  have hs : stored key (.str t) = .error .tooDeep := by
    simp only [stored, h]
  rw [decode, hs]
  rfl

/-- No failure names a key that has no text. -/
theorem decode_of_not_bounded (hk : ¬ key.IsBounded) (h : decode key shape v = .error e) : e = .unwritable ∨ e = .tooDeep := by
  rcases decode_cases key shape v with ⟨w, hok⟩ | ⟨reason, -, he⟩ | ⟨t, -, -, he⟩
  · cases hok.symm.trans h
  · rcases Failure.raised_keyed_cases (f := .decoding key reason) rfl with ⟨-, hb, -⟩ | ⟨-, hraised⟩
    · exact (hk hb).elim
    · rw [hraised] at he
      exact .inl (Except.error.inj (h.symm.trans he))
  · exact .inr (Except.error.inj (h.symm.trans he))

end Codec

namespace Schema

variable {s : Schema} {m : Entries} {family : Family}

/-- From a map that holds nothing out of reach, a descriptor is read or the key of one of its fields is reported. -/
theorem getEntries_of_reachable (h : ∀ f ∈ family.fields, ∀ v, s.held? m f = some v → v.IsReachable) :
    (∃ d, s.getEntries family m = .ok d) ∨
      ∃ f ∈ family.fields, ∃ reason, s.getEntries family m = .error (.decoding (.str (s.key f)) reason) := by
  by_cases hall : ∀ f ∈ family.fields, s.Decodes m f
  · obtain ⟨d, hd, -⟩ := getEntries_of_decodes hall
    exact .inl ⟨d, hd⟩
  · obtain ⟨before, f, after, hfields, hb, hf⟩ := exists_first hall
    obtain ⟨v, e, hheld, hdecode, hread⟩ := held_of_not_decodes hf
    have hmem : f ∈ family.fields := by
      rw [hfields]
      exact List.mem_append_right before List.mem_cons_self
    rcases Codec.decode_of_reachable (.str (s.key f)) trivial (h f hmem v hheld) f.shape with ⟨w, hw⟩ | ⟨reason, hr⟩
    · cases hw.symm.trans hdecode
    · rw [hdecode] at hr
      obtain rfl := Except.error.inj hr
      exact .inr ⟨f, hmem, reason, getEntries_of_error hfields hb hread⟩

end Schema

end AnnotationCodec
