import AnnotationCodec.Proofs.Manifest.Alias
import AnnotationCodec.Proofs.Manifest.Cut
import AnnotationCodec.Proofs.Manifest.Reading

/-!
Opening the annotations of a manifest. The maps that are missing are made, and nothing else changes but that metadata which
are found at other places too are the same there. What can be read is the same before and behind it, unless a value stands
for a map that is neither truthy nor null.
-/
namespace AnnotationCodec.Manifest

open Entries (annotationsPath)
open Value (Grown)

variable {m : Manifest} {md md' : Entries} {w : List Text} {i : Nat} {x y : Place} {g : List Place}

/-- The manifest with other metadata of its own. -/
def withMetadata (m : Manifest) (md : Entries) : Manifest :=
  { m with entries := m.entries.set (text "metadata") (.map md) }

/-- The metadata of a manifest are found at no other place. -/
def OwnsMetadata (m : Manifest) : Prop :=
  ∀ g ∈ m.shared, ∀ i, m.entries.index? (text "metadata") = some i → [i] ∈ g → ∀ y ∈ g, y = [i]

theorem withMetadata_self (h : m.entries.get? (text "metadata") = some (.map md)) : m.withMetadata md = m := by
  rw [withMetadata, Entries.set_of_get? h]

/-- A manifest is not found in itself. -/
theorem Coherent.eq_nil (h : m.Coherent) (hg : g ∈ m.shared) (hnil : [] ∈ g) (hy : y ∈ g) : y = [] := by
  obtain ⟨es, hes⟩ := h g hg
  by_contra hne
  exact Value.not_prefix_of_at? (hes [] hnil) (hes y hy) (Ne.symm hne) y.nil_prefix

/-- Where else metadata are found is in another entry of the manifest. -/
theorem Coherent.exists_cons (h : m.Coherent) (hg : g ∈ m.shared) (hi : [i] ∈ g) (hy : y ∈ g) (hne : y ≠ [i]) :
    ∃ j z, y = j :: z ∧ j ≠ i := by
  obtain ⟨es, hes⟩ := h g hg
  cases y with
  | nil => exact (Value.not_prefix_of_at? (hes [] hy) (hes [i] hi) hne List.nil_prefix).elim
  | cons j z =>
    refine ⟨j, z, rfl, ?_⟩
    rintro rfl
    exact Value.not_prefix_of_at? (hes [j] hi) (hes _ hy) hne.symm ((List.prefix_cons_inj j).mpr z.nil_prefix)

/-- A value has the metadata in its entry number `i`. -/
def HasMetadata (i : Nat) (md : Entries) (v : Value) : Prop :=
  ∃ es : Entries, v = .map es ∧ es.index? (text "metadata") = some i ∧ es.get? (text "metadata") = some (.map md)

/-- What is put into another entry leaves the metadata alone. -/
theorem HasMetadata.putAt {v : Value} {j : Nat} (h : HasMetadata i md v) (hj : j ≠ i) (z : Place) (u : Value) :
    HasMetadata i md (Value.putAt (j :: z) u v) := by
  obtain ⟨es, rfl, hindex, hget⟩ := h
  cases hc : (Value.map es).children[j]? with
  | none =>
    rw [Value.putAt, hc]
    exact ⟨es, rfl, hindex, hget⟩
  | some c =>
    have hne : es.index? (text "metadata") ≠ some j := by
      rw [hindex]
      rintro ⟨⟩
      exact hj rfl
    refine ⟨_, Entries.putAt_map hc z u, ?_, ?_⟩
    · rw [Entries.index?_congr (Entries.keys_modify es j _), hindex]
    · rw [Entries.get?_modify, if_neg hne, hget]

theorem exists_hasMetadata (m : Manifest) (md : Entries) : ∃ i, HasMetadata i md (m.withMetadata md).toValue := by
  have hget : Entries.get? (text "metadata") (m.withMetadata md).entries = some (.map md) := Entries.get?_set_self _ _ _
  rw [Entries.get?_eq_index?] at hget
  obtain ⟨i, hi, -⟩ := Option.bind_eq_some_iff.mp hget
  exact ⟨i, _, rfl, hi, Entries.get?_set_self _ _ _⟩

theorem HasMetadata.placeAlong? {es : Entries} (h : HasMetadata i md (.map es)) :
    es.placeAlong? [text "metadata"] = some [i] ∧
      es.placeAlong? annotationsPath = (md.placeAlong? [text "annotations"]).map (i :: ·) := by
  obtain ⟨_, heq, hindex, hget⟩ := h
  cases heq
  constructor
  · simp only [Entries.placeAlong?, hindex, hget, Option.map_some]
  · simp only [annotationsPath, Entries.placeAlong?, hindex, hget]

theorem HasMetadata.get?_eq {m' : Manifest} (h : HasMetadata i md m'.toValue) :
    m'.entries.get? (text "metadata") = some (.map md) := by
  obtain ⟨_, heq, -, hget⟩ := h
  rw [Value.map.inj heq, hget]

theorem spreadAlong_nil (h : m.Coherent) (md : Entries) : spreadAlong [] (m.withMetadata md) = m.withMetadata md := by
  refine spread_eq_self fun g hg hnil y hy => ?_
  rw [h.eq_nil hg hnil hy]

/-- Metadata that are found at other places have the number that they had. -/
theorem Coherent.index?_metadata (h : m.Coherent) (hg : g ∈ m.shared) (hmem : [i] ∈ g)
    (hi : HasMetadata i md (m.withMetadata md).toValue) : m.entries.index? (text "metadata") = some i := by
  obtain ⟨es, hes⟩ := h g hg
  obtain ⟨c, hc, -⟩ := Option.bind_eq_some_iff.mp (hes [i] hmem)
  have hlt : i < m.entries.length := by
    simpa [toValue, Value.children] using (List.getElem?_eq_some_iff.mp hc).1
  obtain ⟨_, heq, hindex, -⟩ := hi
  cases heq
  exact (Entries.keeps_set (text "metadata") (text "metadata") (.map md) m.entries).index?_of_lt hindex hlt

/-- Spreading new metadata changes nothing in the entry for them, and nothing at all if they are found at no other place. -/
theorem spreadAlong_metadata (h : m.Coherent) (hi : HasMetadata i md (m.withMetadata md).toValue) :
    (HasMetadata i md (spreadAlong [text "metadata"] (m.withMetadata md)).toValue ∧
      (spreadAlong [text "metadata"] (m.withMetadata md)).shared = m.shared) ∧
    (m.OwnsMetadata → spreadAlong [text "metadata"] (m.withMetadata md) = m.withMetadata md) := by
  rw [spreadAlong, hi.placeAlong?.1]
  constructor
  · refine spread_preserves hi ?_
    intro g hg hmem y hy hne source u hsource hu v hv
    obtain ⟨j, z, rfl, hj⟩ := h.exists_cons hg hmem hy hne
    exact hv.putAt hj z u
  · intro howns
    refine spread_eq_self fun g hg hmem y hy => ?_
    rw [howns g hg i (h.index?_metadata hg hmem hi) hmem y hy]

/-- Spreading new metadata reaches nothing outside of the manifest's own annotations. -/
theorem keptBut_spreadAlong_metadata (h : m.Coherent) (hi : HasMetadata i md (m.withMetadata md).toValue)
    (hkept : m.KeptBut [[]] (m.withMetadata md)) : m.KeptBut [[]] (spreadAlong [text "metadata"] (m.withMetadata md)) := by
  rw [spreadAlong, hi.placeAlong?.1]
  refine hkept.spread fun q hq g hg hmem y hy hne => ?_
  obtain ⟨es, hes⟩ := h g hg
  have hindex := h.index?_metadata hg hmem hi
  obtain ⟨v, hv, hchild⟩ := Entries.exists_get?_of_index? hindex
  have hplace : m.entries.placeAlong? ([] ++ [text "metadata"]) = some [i] := by
    have hat : m.toValue.at? [i] = some v := by
      rw [Value.at?, toValue, hchild]
      rfl
    obtain rfl : v = .map es := Option.some.inj (hat.symm.trans (hes [i] hmem))
    simp only [List.nil_append, Entries.placeAlong?, hindex, hv, Option.map_some]
  exact (hq [] List.mem_cons_self).2 g hg [text "metadata"] (by decide) [i] hmem hplace y hy hne

/-- After spreading, new metadata are in all places where the metadata are found. -/
theorem at?_spreadAlong_metadata (h : m.Coherent) (hi : HasMetadata i md (m.withMetadata md).toValue) (hg : g ∈ m.shared)
    (hmem : [i] ∈ g) (hy : y ∈ g) : (spreadAlong [text "metadata"] (m.withMetadata md)).toValue.at? y = some (.map md) := by
  obtain ⟨old, hold⟩ := h g hg
  -- All places that share the metadata held the old ones, so that none of them lies in another one.
  have hplaces : ∀ z, (m.withMetadata md).Together [i] z → m.toValue.at? z = some (.map old) := by
    rintro z ⟨g', hg', hmem', hz⟩
    obtain ⟨es, hes⟩ := h g' hg'
    rw [hes z hz, ← hes [i] hmem', hold [i] hmem]
  have hapart : ∀ z z', (m.withMetadata md).Together [i] z → (m.withMetadata md).Together [i] z' → z ≠ z' → ¬ z <+: z' :=
    fun z z' hz hz' => Value.not_prefix_of_at? (hplaces z hz) (hplaces z' hz')
  have hself : (m.withMetadata md).Together [i] [i] := ⟨g, hg, hmem, hmem⟩
  have hput : (m.withMetadata md).toValue = Value.putAt [i] (.map md) m.toValue :=
    (Entries.putAt_of_index? (h.index?_metadata hg hmem hi) _).symm
  have hown : (m.withMetadata md).toValue.at? [i] = some (.map md) := by
    rw [hput, Value.at?_putAt_self (hold [i] hmem)]
  rw [spreadAlong, hi.placeAlong?.1]
  refine at?_spread hapart (fun z hz => ?_) hown ⟨g, hg, hmem, hy⟩
  by_cases hne : z = [i]
  · exact ⟨md, hne ▸ hown⟩
  · rw [hput, Value.at?_putAt_of_not_prefix (hapart z [i] hz hself hne) (hapart [i] z hself hz (Ne.symm hne))]
    exact ⟨old, hplaces z hz⟩

/-- New annotations are not shared. -/
theorem spreadAlong_made (h : m.Coherent) (hmd : Slot.entries? (m.entries.get? (text "metadata")) = some md)
    (hnull : md.lookup "annotations" = .null) {m' : Manifest}
    (hi : HasMetadata i (md.set (text "annotations") (.map [])) (m.withMetadata (md.set (text "annotations") (.map []))).toValue)
    (hi' : HasMetadata i (md.set (text "annotations") (.map [])) m'.toValue) (hshared : m'.shared = m.shared) :
    spreadAlong annotationsPath m' = m' := by
  have hmade : text "metadata" ∈ annotationsPath ∧ text "annotations" ∈ annotationsPath := by decide
  have hgrown : Grown annotationsPath annotationsPath m.toValue
      (m.withMetadata (md.set (text "annotations") (.map []))).toValue := by
    refine Grown.set fun r hr => ⟨fun hn => (hn hmade.1).elim, fun u hu => ?_⟩
    rw [hu] at hmd
    cases u with
    | null => exact Grown.of_null _ _ _
    | map es =>
      cases hmd
      refine Grown.set fun r hr => ⟨fun hn => (hn hmade.2).elim, fun u hu => ?_⟩
      rw [Entries.lookup_of_get? hu] at hnull
      rw [hnull]
      exact Grown.of_null _ _ _
    | _ => cases hmd
  unfold spreadAlong
  split
  · rfl
  next x hx =>
  refine spread_eq_self fun g hg hmem => ?_
  rw [hshared] at hg
  obtain ⟨es, hes⟩ := h g hg
  rw [hi'.placeAlong?.2, ← hi.placeAlong?.2] at hx
  have hx₀ := Entries.placeAlong?_of_grown hgrown hx (hes x hmem)
  have hd := Entries.descend?_of_placeAlong? hx₀ (hes x hmem)
  obtain ⟨md₀, hget, hd⟩ := Entries.descend?_cons_eq_some hd
  obtain ⟨a, hget', -⟩ := Entries.descend?_cons_eq_some hd
  rw [hget] at hmd
  cases hmd
  rw [Entries.lookup_of_get? hget'] at hnull
  cases hnull

/-- A manifest has other metadata, in all places where they are found, and nothing else has changed. -/
structure Remade (m : Manifest) (md : Entries) (m' : Manifest) : Prop where
  found : m'.entries.get? (text "metadata") = some (.map md)
  copies : ∀ g ∈ m.shared, ∀ i, m.entries.index? (text "metadata") = some i → [i] ∈ g →
    ∀ y ∈ g, m'.toValue.at? y = some (.map md)
  kept : m.KeptBut [[]] m'
  owned : m.OwnsMetadata → m' = m.withMetadata md

/-- Making the annotations of a manifest leaves them in its metadata, and changes nothing else. -/
theorem spreadResource_made (h : m.Coherent) (hmd : Slot.entries? (m.entries.get? (text "metadata")) = some md)
    (hnull : md.lookup "annotations" = .null) : m.Remade (md.set (text "annotations") (.map []))
      ((m.withMetadata (md.set (text "annotations") (.map []))).spreadResource []) := by
  obtain ⟨i, hi⟩ := exists_hasMetadata m (md.set (text "annotations") (.map []))
  obtain ⟨⟨hi', hshared⟩, howns⟩ := spreadAlong_metadata h hi
  have hspread : (m.withMetadata (md.set (text "annotations") (.map []))).spreadResource [] =
      spreadAlong [text "metadata"] (m.withMetadata (md.set (text "annotations") (.map []))) := by
    rw [spreadResource_eq, List.nil_append, List.nil_append, List.nil_append, spreadAlong_nil h,
      spreadAlong_made h hmd hnull hi hi' hshared]
  rw [hspread]
  refine ⟨hi'.get?_eq, fun g hg j hj hmem y hy => ?_, ?_, howns⟩
  · obtain ⟨_, heq, hindex, -⟩ := id hi
    cases heq
    obtain rfl : i = j := Option.some.inj (hindex.symm.trans ((Entries.keeps_set _ _ _ _).stays j hj))
    exact at?_spreadAlong_metadata h hi hg hmem hy
  · exact keptBut_spreadAlong_metadata h hi ((KeptBut.refl m [[]]).graft (p := []) List.mem_cons_self rfl hmd rfl)

/-! What is opened -/

theorem updateResource_of_closed (h : m.Coherent) (hmd : Slot.entries? (m.entries.get? (text "metadata")) = none)
    (change : Value → Outcome Value) : m.updateResource change [] = .fail m .noAttribute := by
  rw [updateResource_eq, Entries.updateAlong, Entries.updateAnnotations_of_closed hmd]
  simp only [Outcome.map, Outcome.fail, spreadResource_self h]

theorem updateResource_of_open (hmd : Slot.entries? (m.entries.get? (text "metadata")) = some md)
    (change : Value → Outcome Value) :
    m.updateResource change [] = (change (Slot.made (md.lookup "annotations"))).map fun u =>
      (m.withMetadata (md.set (text "annotations") u)).spreadResource [] := by
  rw [updateResource_eq, Entries.updateAlong, Entries.updateAnnotations_of_open hmd]
  rfl

/-- Metadata that can be opened are there as a map, or are missing or null and opened as an empty one. -/
theorem metadata_cases (hmd : Slot.entries? (m.entries.get? (text "metadata")) = some md) :
    (m.entries.lookup "metadata" = .null ∧ md = []) ∨ m.entries.get? (text "metadata") = some (.map md) := by
  unfold Entries.lookup
  cases hg : m.entries.get? (text "metadata") with
  | none =>
    rw [hg] at hmd
    cases hmd
    exact .inl ⟨rfl, rfl⟩
  | some v =>
    rw [hg] at hmd
    cases v with
    | null =>
      cases hmd
      exact .inl ⟨rfl, rfl⟩
    | map md₀ =>
      cases hmd
      exact .inr rfl
    | _ => cases hmd

theorem get?_metadata {a : Value} (hmd : Slot.entries? (m.entries.get? (text "metadata")) = some md)
    (ha : md.lookup "annotations" = a) (hne : a ≠ .null) : m.entries.get? (text "metadata") = some (.map md) := by
  rcases metadata_cases hmd with ⟨-, rfl⟩ | hget
  · exact (hne ha.symm).elim
  · exact hget

theorem openAnnotations_of_closed (h : m.Coherent) (hmd : Slot.entries? (m.entries.get? (text "metadata")) = none) :
    (Target.manifest m).openAnnotations = (.manifest m, .error .noAttribute) := by
  rw [Target.openAnnotations, openAnnotations, updateResource_of_closed h hmd]
  rfl

theorem withMetadata_of_present {a : Value} (hmd : Slot.entries? (m.entries.get? (text "metadata")) = some md)
    (ha : md.lookup "annotations" = a) (hne : a ≠ .null) : m.withMetadata (md.set (text "annotations") a) = m := by
  rw [Entries.set_of_get? (Entries.get?_of_lookup ha hne), withMetadata_self (get?_metadata hmd ha hne)]

/-- Annotations that are there are found as they are. -/
theorem openAnnotations_of_present {a : Value} (h : m.Coherent)
    (hmd : Slot.entries? (m.entries.get? (text "metadata")) = some md) (ha : md.lookup "annotations" = a) (hne : a ≠ .null) :
    (Target.manifest m).openAnnotations = (.manifest m, .ok a) := by
  have hmade : Slot.made a = a := by
    cases a with
    | null => exact (hne rfl).elim
    | _ => rfl
  have hupdate : m.updateResource .done [] = .done m := by
    rw [updateResource_of_open hmd, ha, hmade]
    simp only [Outcome.map, Outcome.done, withMetadata_of_present hmd ha hne, spreadResource_self h]
  have hopen : m.entries.openAnnotations = .ok (m.entries, a) := by
    unfold Entries.openAnnotations
    rw [Entries.lookup_of_get? (get?_metadata hmd ha hne)]
    cases a with
    | null => exact (hne rfl).elim
    | _ => simp only [ha]
  rw [Target.openAnnotations, openAnnotations, hupdate]
  simp only [Outcome.done, hopen]
  rfl

/-- Annotations that are missing or null are made. -/
theorem openAnnotations_of_missing (h : m.Coherent) (hmd : Slot.entries? (m.entries.get? (text "metadata")) = some md)
    (hnull : md.lookup "annotations" = .null) :
    ∃ m', (Target.manifest m).openAnnotations = (.manifest m', .ok (.map [])) ∧
      m.Remade (md.set (text "annotations") (.map [])) m' := by
  have hmade := spreadResource_made h hmd hnull
  refine ⟨_, ?_, hmade⟩
  have hupdate : m.updateResource .done [] = .done ((m.withMetadata (md.set (text "annotations") (.map []))).spreadResource []) := by
    rw [updateResource_of_open hmd, hnull]
    rfl
  have hopen : ((m.withMetadata (md.set (text "annotations") (.map []))).spreadResource []).entries.openAnnotations =
      .ok (((m.withMetadata (md.set (text "annotations") (.map []))).spreadResource []).entries, .map []) := by
    rw [Entries.openAnnotations, Entries.lookup_of_get? hmade.found]
    simp only [Entries.lookup_set_self]
  rw [Target.openAnnotations, openAnnotations, hupdate]
  simp only [Outcome.done, hopen]
  rfl

/-! What is read -/

theorem readAnnotations_of_closed (hmd : Slot.entries? (m.entries.get? (text "metadata")) = none) :
    m.readAnnotations = if (m.entries.lookup "metadata").isTruthy then .error .noAttribute else .ok (.map []) := by
  unfold readAnnotations Entries.lookup
  cases hg : m.entries.get? (text "metadata") with
  | none =>
    rw [hg] at hmd
    cases hmd
  | some v =>
    rw [hg] at hmd
    cases v with
    | null | map md => cases hmd
    | _ => rfl

theorem readAnnotations_of_open (hmd : Slot.entries? (m.entries.get? (text "metadata")) = some md) :
    m.readAnnotations = .ok (if (md.lookup "annotations").isTruthy then md.lookup "annotations" else .map []) := by
  unfold readAnnotations
  rcases metadata_cases hmd with ⟨hlookup, rfl⟩ | hget
  · rw [hlookup]
    rfl
  · rw [Entries.lookup_of_get? hget]
    cases md with
    | nil => rfl
    | cons e md => rfl

end AnnotationCodec.Manifest
