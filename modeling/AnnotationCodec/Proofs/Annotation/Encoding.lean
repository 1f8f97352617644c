import AnnotationCodec.Proofs.Annotation.Codec
import AnnotationCodec.Proofs.Value.Display

/-!
How encoding and decoding fail. A failure is reported with the key and the reason, unless the report would show an integer
beyond the digit limit: then it cannot be written, and that is what is met instead.
-/
namespace AnnotationCodec

/-- A reason has a text unless it describes a value that has none. -/
def Reason.IsTold : Reason → Prop
  | .shape _ found | .item _ found => found.IsDescribed
  | _ => True

theorem Reason.exists_message_iff (r : Reason) : (∃ t, r.message = .ok t) ↔ r.IsTold := by
  cases r with
  | shape expected found | item index found =>
    rw [message, exists_map_ok_iff]
    exact found.exists_describe_iff
  | _ => simp [message, IsTold]

namespace Failure

variable {key : Value} {reason : Reason} {start : Text}

theorem exists_keyed_iff : (∃ m, keyed start key reason = .ok m) ↔ reason.IsTold ∧ key.IsBounded := by
  simp only [keyed, exists_bind_ok_iff, exists_pure_ok_iff, and_true, exists_and_right]
  exact and_congr reason.exists_message_iff key.exists_display_iff

theorem raised_of_message (f : Failure) (h : ¬ ∃ m, f.message? = .ok m) : f.raised = .unwritable := by
  unfold raised
  split
  · next m hm => exact (h ⟨m, hm⟩).elim
  · rfl

/-- A failure with a key and a reason is reported as it is if both can be written. -/
theorem raised_keyed_cases {f : Failure} (hf : f.message? = keyed start key reason) :
    (reason.IsTold ∧ key.IsBounded ∧ f.raised = f) ∨ (¬ (reason.IsTold ∧ key.IsBounded) ∧ f.raised = .unwritable) := by
  by_cases h : reason.IsTold ∧ key.IsBounded
  · obtain ⟨m, hm⟩ := exists_keyed_iff.mpr h
    exact .inl ⟨h.1, h.2, raised_eq_self (hf.trans hm)⟩
  · refine .inr ⟨h, raised_of_message f fun ⟨m, hm⟩ => h ?_⟩
    exact exists_keyed_iff.mp ⟨m, hf.symm.trans hm⟩

end Failure

/-- What is of the wrong kind for a shape and is described for it: the value itself, or the first item of a list that is no
text. -/
def Shape.misfit? : Shape → Value → Option Value
  | .string, .str _ | .integer, .int _ => none
  | .list, .list vs => vs.find? fun w => w.kind ≠ .str
  | _, v => some v

namespace Content

variable {shape : Shape} {v u : Value}

theorem textsFrom_cases (index : Nat) (vs : List Value) :
    (vs.find? (fun w => w.kind ≠ .str) = none ∧ ∃ ts, textsFrom index vs = .ok ts) ∨
      ∃ u i, vs.find? (fun w => w.kind ≠ .str) = some u ∧ textsFrom index vs = .error (.item i u) := by
  induction vs generalizing index with
  | nil => exact .inl ⟨rfl, [], rfl⟩
  | cons v vs ih =>
    cases v with
    | str t =>
      rw [List.find?_cons_of_neg (by simp [Value.kind])]
      rcases ih (index + 1) with ⟨hnone, ts, hts⟩ | ⟨u, i, hu, hts⟩
      · exact .inl ⟨hnone, t :: ts, by rw [textsFrom, hts]; rfl⟩
      · exact .inr ⟨u, i, hu, by rw [textsFrom, hts]; rfl⟩
    | _ => exact .inr ⟨_, index, List.find?_cons_of_pos (by simp [Value.kind]), rfl⟩

/-- A value is a content of the shape, or there is a misfit that the reason describes. -/
theorem ofValue_cases (shape : Shape) (v : Value) :
    (shape.misfit? v = none ∧ ∃ c, ofValue shape v = .ok c) ∨
      ∃ u reason, shape.misfit? v = some u ∧ ofValue shape v = .error reason ∧ (reason.IsTold ↔ u.IsDescribed) := by
  unfold ofValue
  split
  · exact .inl ⟨rfl, _, rfl⟩
  · next vs =>
    rcases textsFrom_cases 0 vs with ⟨hnone, ts, hts⟩ | ⟨u, i, hu, hts⟩
    · exact .inl ⟨hnone, .list ts, by rw [hts]; rfl⟩
    · exact .inr ⟨u, .item i u, hu, by rw [hts]; rfl, Iff.rfl⟩
  · exact .inl ⟨rfl, _, rfl⟩
  · next hstring hlist hinteger =>
    refine .inr ⟨v, .shape shape v, ?_, rfl, Iff.rfl⟩
    unfold Shape.misfit?
    split
    · exact (hstring _ rfl rfl).elim
    · exact (hinteger _ rfl rfl).elim
    · exact (hlist _ rfl rfl).elim
    · rfl

end Content

namespace Codec

variable {key v : Value} {shape : Shape}

/-- What is wrong with a value of another shape can be reported under the key: both have a text. A misfit that is a list or a
map always has one. -/
def Reports (key : Value) (shape : Shape) (v : Value) : Prop :=
  key.IsBounded ∧ ∀ u, shape.misfit? v = some u → u.IsDescribed

theorem exists_encode_iff (key v : Value) (shape : Shape) : (∃ t, encode key shape v = .ok t) ↔ v.Fits shape := by
  constructor
  · rintro ⟨t, h⟩
    obtain ⟨c, hs, hv, ht⟩ := encode_eq_ok_iff.mp h
    exact Content.fits_iff.mpr ⟨c, t, hs, hv, ht⟩
  · intro h
    obtain ⟨t, ht⟩ := exists_encode h
    exact ⟨t, (ht key).1⟩

/-- What is not encoded is refused for a reason that can be told unless it describes a misfit without a text. -/
theorem encode_of_not_fits (key : Value) (hv : v ≠ .null) (h : ¬ v.Fits shape) :
    ∃ reason : Reason, encode key shape v = .error (Failure.encoding key reason).raised ∧
      (reason.IsTold ↔ ∀ u, shape.misfit? v = some u → u.IsDescribed) := by
  have hnull : v.isNull = false := by
    cases v with
    | null => exact (hv rfl).elim
    | _ => rfl
  unfold encode
  rw [if_neg (by simp [hnull])]
  rcases Content.ofValue_cases shape v with ⟨hnone, c, hc⟩ | ⟨u, reason, hu, hc, htold⟩
  · refine ⟨.unwritable, ?_, by simp [Reason.IsTold, hnone]⟩
    obtain ⟨hs, hv⟩ := Content.toValue_of_ofValue hc
    cases hw : c.write with
    | ok t => exact (h (Content.fits_iff.mpr ⟨c, t, hs, hv.symm, hw⟩)).elim
    | error e => simp [hc, hw, encodingError]
  · refine ⟨reason, by simp [hc, encodingError], ?_⟩
    simp [hu, htold]

/-- What is not encoded is reported with its key, or the report is one that cannot be written. -/
theorem encode_error_cases (key : Value) (hv : v ≠ .null) (h : ¬ v.Fits shape) :
    (Reports key shape v ∧ ∃ reason, encode key shape v = .error (.encoding key reason)) ∨
      (¬ Reports key shape v ∧ encode key shape v = .error .unwritable) := by
  obtain ⟨reason, hencode, htold⟩ := encode_of_not_fits key hv h
  unfold Reports
  rw [← htold, hencode]
  rcases Failure.raised_keyed_cases (f := .encoding key reason) rfl with ⟨hr, hk, hraised⟩ | ⟨hn, hraised⟩
  · exact .inl ⟨⟨hk, hr⟩, reason, congrArg _ hraised⟩
  · exact .inr ⟨fun hb => hn ⟨hb.2, hb.1⟩, congrArg _ hraised⟩

/-- A value that is not null is encoded if it fits the shape. Any other one is refused, and the failure names the key if it can
be reported under it. Nothing else is met but that a report cannot be written. -/
theorem encode_names_key_iff (key v : Value) (shape : Shape) (hv : v ≠ .null) :
    ((∃ t, encode key shape v = .ok t) ↔ v.Fits shape) ∧
    ((∃ reason, encode key shape v = .error (.encoding key reason)) ↔ ¬ v.Fits shape ∧ Reports key shape v) ∧
    (encode key shape v = .error .unwritable ↔ ¬ v.Fits shape ∧ ¬ Reports key shape v) := by
  refine ⟨exists_encode_iff key v shape, ?_⟩
  by_cases h : v.Fits shape
  · obtain ⟨t, ht⟩ := (exists_encode_iff key v shape).mpr h
    simp [h, ht]
  · rcases encode_error_cases key hv h with ⟨hr, reason, hencode⟩ | ⟨hr, hencode⟩
    · simp [h, hr, hencode]
    · simp [h, hr, hencode]

/-- An integer that has no text. -/
def beyondLimit : Value :=
  .int (10 ^ digitLimit)

theorem not_isBounded_beyondLimit : ¬ beyondLimit.IsBounded := by
  simp [beyondLimit, Value.IsBounded, Int.natAbs_pow]

/-- The integer is inside an item that is a list, which is described without it; as an item it would have to be shown. -/
theorem encode_names_key_nested :
    (∃ reason, encode (.str (text "k")) .list (.list [.str [], .list [beyondLimit]]) = .error (.encoding (.str (text "k")) reason)) ∧
    encode (.str (text "k")) .list (.list [.str [], .tuple [beyondLimit]]) = .error .unwritable := by
  constructor
  · refine (encode_names_key_iff _ _ _ (by simp)).2.1.mpr ⟨?_, trivial, ?_⟩
    · rintro ⟨vs, ⟨⟩, h⟩
      simpa using h (.list [beyondLimit])
    · rintro u ⟨⟩
      trivial
  · refine (encode_names_key_iff _ _ _ (by simp)).2.2.mpr ⟨?_, fun h => ?_⟩
    · rintro ⟨vs, ⟨⟩, h⟩
      simpa using h (.tuple [beyondLimit])
    · exact not_isBounded_beyondLimit (h.2 (.tuple [beyondLimit]) rfl).1

/-- The integer is no text, and the message that says so would have to show it. -/
theorem encode_shows_beyond_limit :
    encode (.str (text "k")) .string beyondLimit = .error .unwritable ∧
    ¬ ((∃ t, encode (.str (text "k")) .string beyondLimit = .ok t) ∨
      ∃ reason, encode (.str (text "k")) .string beyondLimit = .error (.encoding (.str (text "k")) reason)) := by
  have hfits : ¬ beyondLimit.Fits .string := by
    rintro ⟨t, ⟨⟩⟩
  have h : encode (.str (text "k")) .string beyondLimit = .error .unwritable := by
    rcases encode_error_cases (.str (text "k")) (by simp [beyondLimit]) hfits with ⟨hr, -⟩ | ⟨-, h⟩
    · exact (not_isBounded_beyondLimit (hr.2 beyondLimit rfl)).elim
    · exact h
  refine ⟨h, ?_⟩
  rw [h]
  rintro (⟨t, ⟨⟩⟩ | ⟨reason, ⟨⟩⟩)

end Codec

end AnnotationCodec
