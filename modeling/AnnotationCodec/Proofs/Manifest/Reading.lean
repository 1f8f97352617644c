import AnnotationCodec.Manifest.Target
import AnnotationCodec.Proofs.Annotation.Reading
import AnnotationCodec.Proofs.Manifest.Resource

/-!
What a descriptor that is read depends on: the values at the keys of its family in the annotations of the manifest itself.
Nothing else in the annotations or in the manifest is looked at, and all of those values have to be decoded.
-/
namespace AnnotationCodec

variable {s : Schema} {family : Family}

namespace Manifest

variable {m : Manifest} {a : Entries}

/-- Missing metadata, missing annotations and empty ones are read alike. -/
theorem readAnnotations_of_annotations? (h : m.entries.annotations? = some a) : m.readAnnotations = .ok (.map a) := by
  unfold Entries.annotations? at h
  unfold readAnnotations
  split at h
  · next hm =>
    cases h
    rw [hm]
    rfl
  · next md hm =>
    rw [hm]
    split at h
    · next ha =>
      cases h
      cases md with
      | nil => rfl
      | cons e md => simp only [Value.isTruthy, List.isEmpty_cons, Bool.not_false, if_true, ha, Bool.false_eq_true, if_false]
    · next ha =>
      cases h
      cases md with
      | nil => cases ha
      | cons e md => cases a <;> simp [Value.isTruthy, ha]
    · cases h
  · cases h

end Manifest

namespace Target

/-- The annotations that a target is read from, an empty map where they or the metadata are missing or null. There are none
where another value than a map stands for either. -/
def own? : Target → Option Entries
  | .manifest m => m.entries.annotations?
  | .object (.map a) _ => some a
  | .object _ _ | .plain _ => none

variable {t : Target} {a : Entries}

theorem get_of_own? (h : t.own? = some a) (s : Schema) (family : Family) : t.get s family = s.getEntries family a := by
  cases t with
  | manifest m =>
    rw [get, readAnnotations, Manifest.readAnnotations_of_annotations? h]
    rfl
  | object annotations templates =>
    cases annotations with
    | map es =>
      cases h
      rfl
    | _ => cases h
  | plain v => cases h

end Target

namespace Schema

/-- A descriptor is read alike from maps that hold the same at the keys of its family, and from manifests whose own
annotations do. From a map in which everything that is held for the family is decoded, the descriptor has what was decoded,
and null for what is not held. From any other map nothing is read: the failure is the one of the first field, in the order
of the schema, that is held and not decoded. -/
theorem reading_depends_on_family (s : Schema) (family : Family) :
    (∀ m m' : Entries, (∀ f ∈ family.fields, m.get? (s.key f) = m'.get? (s.key f)) →
      s.get family (.map m) = s.get family (.map m')) ∧
    (∀ (t t' : Target) (a a' : Entries), t.own? = some a → t'.own? = some a' →
      (∀ f ∈ family.fields, a.get? (s.key f) = a'.get? (s.key f)) → t.get s family = t'.get s family) ∧
    (∀ m : Entries, (∀ f ∈ family.fields, s.Decodes m f) → ∃ c, s.get family (.map m) = .ok c ∧ c.family = family ∧
      ∀ f ∈ family.fields, (s.held? m f = none → c.value? f = some .null) ∧
        ∀ v, s.held? m f = some v → ∃ w, Codec.decode (.str (s.key f)) f.shape v = .ok w ∧ c.value? f = some w) ∧
    (∀ m : Entries, (¬ ∀ f ∈ family.fields, s.Decodes m f) → ∃ before f after v e,
      family.fields = before ++ f :: after ∧ (∀ g ∈ before, s.Decodes m g) ∧ s.held? m f = some v ∧
      Codec.decode (.str (s.key f)) f.shape v = .error e ∧ s.get family (.map m) = .error e ∧
      ∀ key reason, e = .decoding key reason → key = .str (s.key f)) := by
  refine ⟨?_, ?_, ?_, ?_⟩
  · intro m m' h
    exact getEntries_congr h
  · intro t t' a a' ht ht' h
    rw [Target.get_of_own? ht, Target.get_of_own? ht', getEntries_congr h]
  · intro m h
    obtain ⟨c, hget, hfamily, hvalue⟩ := getEntries_of_decodes h
    refine ⟨c, hget, hfamily, fun f hf => ?_⟩
    obtain ⟨w, hread, hw⟩ := hvalue f hf
    constructor
    · intro hnone
      rw [hw, ← Except.ok.inj (hread.symm.trans (readField_of_none hnone))]
    · intro v hv
      exact ⟨w, (readField_of_some hv).symm.trans hread, hw⟩
  · intro m h
    obtain ⟨before, f, after, hfields, hb, hf⟩ := exists_first h
    obtain ⟨v, e, hheld, hdecode, hread⟩ := held_of_not_decodes hf
    refine ⟨before, f, after, v, e, hfields, hb, hheld, hdecode, getEntries_of_error hfields hb hread, ?_⟩
    rintro key reason rfl
    exact Codec.key_of_decode hdecode

/-- Annotations that hold the cluster of a moniker, and null for its sequence. -/
def clustered : Entries :=
  [(.str (default.key .cluster), .str (text "\"c\"")), (.str (default.key .sequence), .null)]

/-- Annotations that are malformed, at the keys of other families and of another domain. -/
def foreign : Entries :=
  [(.str (default.key .version), .int 3), (.str (text "moniker.example.org/cluster"), .str (text "["))]

/-- Annotations with two fields of a moniker that cannot be decoded. -/
def spoiled : Entries :=
  [(.str (default.key .sequence), .str (text "\"7\"")), (.str (default.key .app), .int 3)]

/-- A manifest with annotations, and with a pod template that has other ones. -/
def templated (a : Entries) : Manifest :=
  .ofEntries [(.str (text "metadata"), .map [(.str (text "annotations"), .map a)]),
    (.str (text "spec"), .map [(.str (text "template"), .map [(.str (text "metadata"), .map
      [(.str (text "annotations"), .map spoiled)])])])]

theorem reading_depends_on_family_spoiled :
    default.get .moniker (.map clustered) = default.get .moniker (.map (foreign ++ clustered)) ∧
    (Target.manifest (templated (foreign ++ clustered))).get default .moniker =
      (Target.object (.map clustered) []).get default .moniker ∧
    (∃ c, default.get .moniker (.map clustered) = .ok c ∧ c.value? .sequence = some .null) ∧
    default.get .moniker (.map spoiled) = .error (.decoding (.str (default.key .app)) (.notText .int)) := by
  obtain ⟨hmaps, htargets, hread, hrefused⟩ := reading_depends_on_family default .moniker
  have hsame : ∀ f ∈ Family.moniker.fields, Entries.get? (default.key f) clustered = Entries.get? (default.key f) (foreign ++ clustered) := by
    intro f hf
    cases f <;> cases family_of_mem_fields hf <;> rfl
  have hdecodes : ∀ f ∈ Family.moniker.fields, default.Decodes clustered f := by
    intro f hf
    refine decodes_iff.mpr ?_
    cases f <;> cases family_of_mem_fields hf <;> exact ⟨_, rfl⟩
  have happ : Codec.decode (.str (default.key .app)) Field.app.shape (.int 3) =
    .error (.decoding (.str (default.key .app)) (.notText .int)) := rfl
  have hspoiled : ¬ default.Decodes spoiled .app := by
    intro h
    obtain ⟨w, hw⟩ := h (.int 3) rfl
    cases happ.symm.trans hw
  refine ⟨hmaps _ _ hsame, htargets _ _ _ _ rfl rfl fun f hf => (hsame f hf).symm, ?_, ?_⟩
  · obtain ⟨c, hget, -, hvalue⟩ := hread clustered hdecodes
    exact ⟨c, hget, (hvalue .sequence (by decide)).1 rfl⟩
  · obtain ⟨before, f, after, v, e, hfields, hb, hheld, hdecode, hget, -⟩ :=
      hrefused spoiled fun h => hspoiled (h .app (by decide))
    -- Nothing is held for the cluster, so the application is the first.
    rcases before with _ | ⟨g, _ | ⟨g', before⟩⟩
    · obtain ⟨rfl, -⟩ := List.cons.inj hfields
      cases hheld
    · obtain ⟨rfl, -⟩ := List.cons.inj (List.cons.inj hfields).2
      obtain rfl : Value.int 3 = v := Option.some.inj hheld
      rw [hget, Except.error.inj (hdecode.symm.trans happ)]
    · obtain ⟨rfl, -⟩ := List.cons.inj (List.cons.inj hfields).2
      exact (hspoiled (hb .app (by simp))).elim

end Schema

end AnnotationCodec
