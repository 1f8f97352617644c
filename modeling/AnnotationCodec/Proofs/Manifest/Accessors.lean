import AnnotationCodec.Proofs.Manifest.Opening

/-!
Two ways to the annotations of a manifest: one to read them, which makes nothing, and one to write to them. A descriptor is
read alike on both unless a value stands for a map on the way that the first takes for missing and the second does not.
-/
namespace AnnotationCodec

/-- A value that counts as false, but is neither null nor a map. -/
def Value.IsStray (v : Value) : Prop :=
  v.isTruthy = false ∧ v ≠ .null ∧ ∀ es, v ≠ .map es

namespace Manifest

/-- A stray value stands for the metadata or the annotations. -/
def Strays (m : Manifest) : Prop :=
  (m.entries.lookup "metadata").IsStray ∨
    ∃ md, m.entries.lookup "metadata" = .map md ∧ (Entries.lookup md "annotations").IsStray

variable {m : Manifest} {md : Entries} {s : Schema} {family : Family}

theorem get_eq_bind (m : Manifest) (s : Schema) (family : Family) :
    m.get s family = m.readAnnotations.bind (s.get family) :=
  rfl

theorem get_empty (s : Schema) (family : Family) : s.get family (.map []) = .ok (.ofFields family fun _ => .null) := by
  cases family <;> rfl

theorem get_of_not_map {v : Value} (h : ∀ es, v ≠ .map es) (s : Schema) (family : Family) :
    s.get family v = .error .noAttribute := by
  cases v with
  | map es => exact (h es rfl).elim
  | _ => rfl

/-- What is neither null nor a map cannot be opened as metadata. -/
theorem entries?_eq_none_iff : Slot.entries? (m.entries.get? (text "metadata")) = none ↔
    m.entries.lookup "metadata" ≠ .null ∧ ∀ md, m.entries.lookup "metadata" ≠ .map md := by
  unfold Entries.lookup
  cases m.entries.get? (text "metadata") with
  | none => simp [Slot.entries?]
  | some v => cases v <;> simp [Slot.entries?]

theorem lookup_of_open (hmd : Slot.entries? (m.entries.get? (text "metadata")) = some md)
    (hne : md.lookup "annotations" ≠ .null) : m.entries.lookup "metadata" = .map md :=
  Entries.lookup_of_get? (get?_metadata hmd rfl hne)

/-- Where a stray value is met, reading finds nothing and opening fails, at once or when its annotations are read. -/
theorem get_of_strays (h : m.Coherent) (hs : m.Strays) (s : Schema) (family : Family) :
    m.get s family = .ok (.ofFields family fun _ => .null) ∧
      (Target.manifest m).openAnnotations.2.bind (s.get family) = .error .noAttribute := by
  rw [get_eq_bind]
  rcases hs with ⟨hfalse, hnull, hmap⟩ | ⟨md, hmd, hfalse, hnull, hmap⟩
  · have hclosed := entries?_eq_none_iff.mpr ⟨hnull, hmap⟩
    rw [readAnnotations_of_closed hclosed, hfalse, openAnnotations_of_closed h hclosed]
    exact ⟨get_empty s family, rfl⟩
  · have hopen : Slot.entries? (m.entries.get? (text "metadata")) = some md := by
      rw [Entries.get?_of_lookup_map hmd]
      rfl
    rw [readAnnotations_of_open hopen, hfalse, openAnnotations_of_present h hopen rfl hnull]
    exact ⟨get_empty s family, get_of_not_map hmap s family⟩

/-- Where none is met, both ways lead to the same. -/
theorem get_of_not_strays (h : m.Coherent) (hs : ¬ m.Strays) (s : Schema) (family : Family) :
    m.get s family = (Target.manifest m).openAnnotations.2.bind (s.get family) := by
  rw [get_eq_bind]
  cases hopen : Slot.entries? (m.entries.get? (text "metadata")) with
  | none =>
    obtain ⟨hnull, hmap⟩ := entries?_eq_none_iff.mp hopen
    have htrue : (m.entries.lookup "metadata").isTruthy = true := by
      by_contra hfalse
      exact hs (.inl ⟨by simpa using hfalse, hnull, hmap⟩)
    rw [readAnnotations_of_closed hopen, htrue, openAnnotations_of_closed h hopen]
    rfl
  | some md =>
    rw [readAnnotations_of_open hopen]
    by_cases hnull : md.lookup "annotations" = .null
    · obtain ⟨m', hm', -⟩ := openAnnotations_of_missing h hopen hnull
      rw [hnull, hm']
      rfl
    · rw [openAnnotations_of_present h hopen rfl hnull]
      by_cases htrue : (md.lookup "annotations").isTruthy = true
      · rw [if_pos htrue]
      · -- Annotations that count as false and do not stray are the empty map.
        rw [if_neg htrue]
        have hempty : md.lookup "annotations" = .map [] := by
          by_contra hne
          refine hs (.inr ⟨md, lookup_of_open hopen hnull, by simpa using htrue, hnull, fun es hes => ?_⟩)
          cases es with
          | nil => exact hne hes
          | cons e es =>
            rw [hes] at htrue
            exact htrue rfl
        rw [hempty]

/-- A descriptor is read from a manifest with the same outcome as from the annotations that are opened for writing, for
every family, exactly if no stray value stands for the metadata or the annotations. If one does, the first reads null for
every field, and the second fails. -/
theorem accessors_agree_iff (s : Schema) (family : Family) (m : Manifest) (h : m.Coherent) :
    (m.get s family = (Target.manifest m).openAnnotations.2.bind (s.get family) ↔ ¬ m.Strays) ∧
    (m.Strays → m.get s family = .ok (.ofFields family fun _ => .null) ∧
      (Target.manifest m).openAnnotations.2.bind (s.get family) = .error .noAttribute) := by
  refine ⟨⟨fun heq hs => ?_, fun hs => get_of_not_strays h hs s family⟩, fun hs => get_of_strays h hs s family⟩
  obtain ⟨hread, hopen⟩ := get_of_strays h hs s family
  rw [hread, hopen] at heq
  cases heq

/-- A manifest with the given metadata. -/
def ofMetadata (v : Value) : Manifest :=
  .ofEntries [(.str (text "metadata"), v)]

theorem coherent_ofEntries (es : Entries) : (ofEntries es).Coherent :=
  coherent_of_shared_eq_nil rfl

/-- Annotations whose sequence is no integer are refused alike on both ways; an empty list for the annotations is read as
nothing, but cannot be opened as a map. -/
theorem accessors_agree_malformed :
    (ofMetadata (.map [(.str (text "annotations"), .map [(.str (Schema.default.key .sequence), .str (text "\"1\""))])])).get
        Schema.default .moniker =
      (Target.manifest (ofMetadata (.map [(.str (text "annotations"),
        .map [(.str (Schema.default.key .sequence), .str (text "\"1\""))])]))).openAnnotations.2.bind
          (Schema.default.get .moniker) ∧
    (ofMetadata (.map [(.str (text "annotations"), .list [])])).get Schema.default .moniker ≠
      (Target.manifest (ofMetadata (.map [(.str (text "annotations"), .list [])]))).openAnnotations.2.bind
        (Schema.default.get .moniker) := by
  constructor
  · refine (accessors_agree_iff Schema.default .moniker _ (coherent_ofEntries _)).1.mpr ?_
    rintro (⟨-, -, hmap⟩ | ⟨md, ⟨⟩, -, -, hmap⟩)
    · exact hmap _ rfl
    · exact hmap _ rfl
  · intro heq
    refine (accessors_agree_iff Schema.default .moniker _ (coherent_ofEntries _)).1.mp heq ?_
    exact .inr ⟨_, rfl, rfl, by rintro ⟨⟩, by rintro es ⟨⟩⟩

/-- An empty text for the metadata is read as nothing, but cannot be opened as a map. -/
theorem accessors_differ_on_empty_text :
    (ofMetadata (.str [])).get Schema.default .moniker = .ok (.ofFields .moniker fun _ => .null) ∧
    (Target.manifest (ofMetadata (.str []))).openAnnotations.2.bind (Schema.default.get .moniker) = .error .noAttribute ∧
    ¬ ∀ (s : Schema) (family : Family) (m : Manifest), m.get s family =
      (Target.manifest m).openAnnotations.2.bind (s.get family) := by
  have hread : (ofMetadata (.str [])).get Schema.default .moniker = .ok (.ofFields .moniker fun _ => .null) := rfl
  have hopen : (Target.manifest (ofMetadata (.str []))).openAnnotations.2.bind (Schema.default.get .moniker) =
    .error .noAttribute := rfl
  refine ⟨hread, hopen, fun h => ?_⟩
  have heq := h Schema.default .moniker (ofMetadata (.str []))
  rw [hread, hopen] at heq
  cases heq

end Manifest

end AnnotationCodec
