import AnnotationCodec.Proofs.Annotation.Isolation
import AnnotationCodec.Proofs.Annotation.Record

/-!
Reading a descriptor from a map. All that counts is what the map holds at the keys of the family, and the first field that
cannot be decoded is the one that is reported.
-/
namespace AnnotationCodec

/-- A descriptor has for every field of its family the value that it is made of. -/
theorem Descriptor.value?_ofFields {α : Type} {family : Family} {f : Field} (value : Field → α) (h : f.family = family) :
    (ofFields family value).value? f = some (value f) := by
  subst h
  cases f <;> rfl

theorem Family.collect_ok (family : Family) (value : Field → Value) :
    family.collect (fun f => .ok (value f)) = .ok (.ofFields family value) := by
  cases family <;> rfl

namespace Schema

/-- What a map holds for a field: the value at its key, unless it is missing or null. -/
def held? (s : Schema) (m : Entries) (f : Field) : Option Value :=
  (m.get? (s.key f)).filter fun v => !v.isNull

/-- Whether what a map holds for a field is decoded, if it holds anything. -/
def Decodes (s : Schema) (m : Entries) (f : Field) : Prop :=
  ∀ v, s.held? m f = some v → ∃ w, Codec.decode (.str (s.key f)) f.shape v = .ok w

variable {s : Schema} {m m' : Entries} {family : Family} {f : Field} {fs before after : List Field} {v w : Value} {e : Failure}

theorem readField_of_none (h : s.held? m f = none) : s.readField m f = .ok .null := by
  unfold readField
  split
  · rfl
  · rfl
  · next v hnull hv =>
    have hheld : s.held? m f = some v := by
      rw [held?, hv]
      cases v <;> first | rfl | exact (hnull rfl).elim
    rw [hheld] at h
    cases h

theorem readField_of_some (h : s.held? m f = some v) : s.readField m f = Codec.decode (.str (s.key f)) f.shape v := by
  obtain ⟨hv, hnull⟩ := Option.filter_eq_some_iff.mp h
  rw [readField, hv]
  cases v <;> first | rfl | cases hnull

theorem decodes_iff : s.Decodes m f ↔ ∃ w, s.readField m f = .ok w := by
  unfold Decodes
  cases h : s.held? m f with
  | none => simp [readField_of_none h]
  | some v => simp [readField_of_some h]

/-- A field that cannot be read is held, and what is held is not decoded. -/
theorem held_of_not_decodes (h : ¬ s.Decodes m f) :
    ∃ v e, s.held? m f = some v ∧ Codec.decode (.str (s.key f)) f.shape v = .error e ∧ s.readField m f = .error e := by
  unfold Decodes at h
  push Not at h
  obtain ⟨v, hv, hdecode⟩ := h
  cases he : Codec.decode (.str (s.key f)) f.shape v with
  | ok w => exact (hdecode w he).elim
  | error e => exact ⟨v, e, hv, he, (readField_of_some hv).trans he⟩

/-- Fields are read up to the first that cannot be. -/
theorem readFields_of_error (hb : ∀ g ∈ before, s.Decodes m g) (he : s.readField m f = .error e) :
    s.readFields m (before ++ f :: after) = .error e := by
  induction before with
  | nil =>
    rw [List.nil_append, readFields, he]
    rfl
  | cons g before ih =>
    rw [List.forall_mem_cons] at hb
    obtain ⟨w, hw⟩ := decodes_iff.mp hb.1
    rw [List.cons_append, readFields, hw, ih hb.2]
    rfl

theorem getEntries_of_error (hfields : family.fields = before ++ f :: after) (hb : ∀ g ∈ before, s.Decodes m g)
    (he : s.readField m f = .error e) : s.getEntries family m = .error e := by
  rw [getEntries, hfields, readFields_of_error hb he]
  rfl

theorem mem_fields_iff : f ∈ family.fields ↔ f.family = family :=
  ⟨family_of_mem_fields, fun h => h ▸ f.mem_fields_family⟩

/-- A descriptor is read if every field is, and has their values. -/
theorem getEntries_of_decodes (h : ∀ f ∈ family.fields, s.Decodes m f) :
    ∃ c, s.getEntries family m = .ok c ∧ c.family = family ∧
      ∀ f ∈ family.fields, ∃ w, s.readField m f = .ok w ∧ c.value? f = some w := by
  let value (f : Field) : Value := (s.readField m f).toOption.getD .null
  have hvalue : ∀ f, f.family = family → s.readField m f = .ok (value f) := by
    intro f hf
    obtain ⟨w, hw⟩ := decodes_iff.mp (h f (mem_fields_iff.mpr hf))
    simp only [value, hw]
    rfl
  refine ⟨.ofFields family value, ?_, Descriptor.family_ofFields family value, fun f hf => ?_⟩
  · rw [getEntries_eq_collect, Family.collect_congr hvalue, Family.collect_ok]
  · have hfamily := mem_fields_iff.mp hf
    exact ⟨value f, hvalue f hfamily, Descriptor.value?_ofFields value hfamily⟩

/-- Maps that hold the same at the keys of a family are read alike. -/
theorem getEntries_congr (h : ∀ f ∈ family.fields, m.get? (s.key f) = m'.get? (s.key f)) :
    s.getEntries family m = s.getEntries family m' := by
  rw [getEntries_eq_collect, getEntries_eq_collect]
  refine Family.collect_congr fun f hf => ?_
  rw [readField, readField, h f (mem_fields_iff.mpr hf)]

end Schema

end AnnotationCodec
