import AnnotationCodec.Proofs.Manifest.Reached

/-!
One write at one resource of a manifest, before its maps are spread: what is seen along trails changes at the metadata, at
the annotations and at the keys that the write gives texts for, and nowhere else.
-/
namespace AnnotationCodec

open Entries (annotationsPath trail)
open Value (Face Replaced Step Tracked Trail)

namespace Schema

variable {s : Schema} {a a' : Entries} {family : Family} {v : Value}

/-- What setting texts preserves, storing preserves. -/
theorem store_preserves {P : Entries → Prop} (hset : ∀ es k t, P es → P (es.set k (.str t))) (h : P a)
    (hstore : s.store family v (.map a) = .done (.map a')) : P a' := by
  have hfields : ∀ (fs : List (Field × Value)) es, P es → P (s.storeFields fs es).value := by
    intro fs
    induction fs with
    | nil => exact fun es hes => hes
    | cons e fs ih =>
      obtain ⟨f, v⟩ := e
      intro es hes
      rw [storeFields]
      split
      · exact ih es hes
      · split
        · exact hes
        · exact ih _ (hset es _ _ hes)
  obtain rfl : (s.storeEntries family v a).value = a' := Value.map.inj (congrArg Outcome.value hstore)
  unfold storeEntries
  split
  · exact h
  · exact h
  · exact hfields _ a h

end Schema

namespace Entries

variable {es md a a' sub : Entries} {k : Text} {key : String} {r : Trail} {u v : Value}

/-- What metadata or annotations look like that can be opened: they are missing, or null, or a map. -/
def CanOpen (o : Option Face) : Prop :=
  o = none ∨ o = some (.leaf .null) ∨ o = some .map

theorem canOpen_iff : CanOpen ((Value.map es).look [.key k]) ↔ ∃ md, Slot.entries? (es.get? k) = some md := by
  rw [Value.look_map_key]
  cases es.get? k with
  | none => simp [CanOpen, Slot.entries?]
  | some v => cases v <;> simp [CanOpen, Slot.entries?, Value.look_nil, Value.face]

/-- Behind what can be opened, the same is seen as in the map that is opened. -/
theorem look_of_entries? (h : Slot.entries? (es.get? k) = some md) (hr : r ≠ []) :
    (Value.map es).look (.key k :: r) = (Value.map md).look r := by
  obtain ⟨s, r, rfl⟩ := List.exists_cons_of_ne_nil hr
  have hempty : ∀ s : Step, (Value.map []).look (s :: r) = none := by
    rintro (j | i) <;> rfl
  rw [Value.look_map_key]
  cases hg : es.get? k with
  | none =>
    rw [hg] at h
    cases h
    exact (hempty s).symm
  | some v =>
    rw [hg] at h
    cases v with
    | null =>
      cases h
      cases s <;> rfl
    | map es =>
      cases h
      rfl
    | _ => cases h

theorem isData_of_entries? (h : (Value.map es).IsData) (hmd : Slot.entries? (es.get? k) = some md) : (Value.map md).IsData := by
  cases hg : es.get? k with
  | none =>
    rw [hg] at hmd
    cases hmd
    exact Value.isData_map_nil
  | some v =>
    rw [hg] at hmd
    cases v with
    | null =>
      cases hmd
      exact Value.isData_map_nil
    | map es =>
      cases hmd
      exact h.get? hg
    | _ => cases hmd

theorem tracked_of_entries? (h : Slot.entries? (es.get? k) = some md) (hu : Tracked (.map md) u) :
    Tracked (.map es) (.map (es.set k u)) := by
  refine Tracked.set fun c hc => ?_
  rw [hc] at h
  cases c with
  | null => exact Value.tracked_null u
  | map es =>
    cases h
    exact hu
  | _ => cases h

theorem made_of_entries? (h : Slot.entries? (es.get? (text key)) = some a) : Slot.made (es.lookup key) = .map a := by
  unfold lookup
  cases hg : es.get? (text key) with
  | none =>
    rw [hg] at h
    cases h
    rfl
  | some v =>
    rw [hg] at h
    cases v <;> cases h
    · rfl
    · rfl

theorem entries?_of_annotations? (h : es.annotations?.isSome) : ∃ md a, Slot.entries? (es.get? (text "metadata")) = some md ∧
    Slot.entries? (md.get? (text "annotations")) = some a := by
  unfold annotations? lookup at h
  cases hmd : es.get? (text "metadata") with
  | none => exact ⟨[], [], rfl, rfl⟩
  | some v =>
    rw [hmd] at h
    cases v with
    | null => exact ⟨[], [], rfl, rfl⟩
    | map md =>
      refine ⟨md, ?_⟩
      cases ha : Entries.get? (text "annotations") md with
      | none => exact ⟨[], rfl, rfl⟩
      | some v =>
        simp only [Option.getD_some, ha] at h
        cases v with
        | null => exact ⟨[], rfl, rfl⟩
        | map a => exact ⟨a, rfl, rfl⟩
        | _ => cases h
    | _ => cases h

end Entries

namespace Value

variable {es sub new : Entries} {p : List Text}

theorem IsData.descend? (h : (map es).IsData) (hd : es.descend? p = some sub) : (map sub).IsData := by
  induction p generalizing es with
  | nil =>
    cases hd
    exact h
  | cons k p ih =>
    obtain ⟨inner, hg, hd⟩ := Entries.descend?_cons_eq_some hd
    exact ih (h.get? hg) hd

theorem IsData.graft (h : (map es).IsData) (hd : es.descend? p = some sub) (hnew : (map new).IsData) :
    (map (Entries.graft p new es)).IsData := by
  induction p generalizing es with
  | nil => exact hnew
  | cons k p ih =>
    obtain ⟨inner, hg, hd⟩ := Entries.descend?_cons_eq_some hd
    rw [Entries.graft, hg]
    exact h.set (ih (h.get? hg) hd) k

end Value

namespace Write

variable {w : Write} {a a' : Entries} {k t : Text}

theorem Wrote.get?_of_gives (h : Wrote w.given? a a') (hk : w.Gives k t) : a'.get? k = some (.str t) := by
  obtain ⟨d, f, v, hv, rfl, hencode⟩ := hk
  obtain ⟨t', ht', hget⟩ := h.written d f v hv
  obtain rfl := Except.ok.inj ((hencode .null).symm.trans (ht' .null).1)
  exact hget

theorem Wrote.get?_of_not_gives (h : Wrote w.given? a a') (hk : ∀ t, ¬ w.Gives k t) : a'.get? k = a.get? k := by
  rw [← Entries.valueAt?_str, ← Entries.valueAt?_str]
  refine h.kept _ fun d f heq => Option.eq_none_iff_forall_ne_some.mpr fun v hv => ?_
  obtain ⟨t, ht, -⟩ := h.written d f v hv
  exact hk t ⟨d, f, v, hv, Value.str.inj heq, fun key => (ht key).1⟩

end Write

namespace Manifest

variable {m₀ : Manifest} {ws : List Write} {done : List Text → Write → Prop} {p : List Text} {w : Write}
  {es sub md a a' : Entries}

/-- A write at a resource shows as it should. -/
theorem updated_graft (hd : es.descend? p = some sub) (hmd : Slot.entries? (sub.get? (text "metadata")) = some md)
    (ha : Slot.entries? (md.get? (text "annotations")) = some a) (hw : Write.Wrote w.given? a a') :
    Updated p w (.map es) (.map (Entries.graft p
      (sub.set (text "metadata") (.map (md.set (text "annotations") (.map a')))) es)) := by
  have hgraft := Entries.replaced_graft hd (sub.set (text "metadata") (.map (Entries.set (text "annotations") (.map a') md)))
  have hsub := Replaced.set (text "metadata") (.map (Entries.set (text "annotations") (.map a') md)) sub
  have hmetadata := Replaced.set (text "annotations") (.map a') md
  generalize hv : Value.map (Entries.graft p _ es) = v at hgraft ⊢
  generalize Value.map (sub.set _ _) = v₁ at hgraft hsub
  generalize Value.map (Entries.set _ _ md) = v₂ at hsub hmetadata
  have hin : ∀ r, v.look (metadataTrail p ++ r) = v₂.look r := by
    intro r
    rw [metadataTrail_eq, List.append_assoc, hgraft.inside, hsub.inside]
  have hannotations : ∀ r, v.look (annotationsTrail p ++ r) = (Value.map a').look r := by
    intro r
    rw [annotationsTrail_eq, List.append_assoc, hin, hmetadata.inside]
  refine ⟨⟨?_, fun k t hk => ?_⟩, ?_, fun q hq hq' hgiven => ?_⟩
  · have hnil := hannotations []
    rwa [List.append_nil] at hnil
  · rw [hannotations, Value.look_map_key, hw.get?_of_gives hk]
    rfl
  · have hkey := hannotations []
    rw [List.append_nil, annotationsTrail_eq] at hkey
    refine Value.look_eq_map_of_key (k := text "annotations") (r := []) ?_
    rw [hkey]
    simp [Value.look_nil]
  -- Where the trail leads away from the annotations, it leads out of what was set.
  · by_cases hp : trail p <+: q
    · obtain ⟨r, rfl⟩ := hp
      rw [hgraft.inside, Value.look_append (Entries.part?_trail_iff.mpr hd)]
      by_cases hr : [.key (text "metadata")] <+: r
      · obtain ⟨r, rfl⟩ := hr
        rw [← List.append_assoc, ← metadataTrail_eq] at hq hq' hgiven
        have hne : r ≠ [] := by
          rintro rfl
          exact hq (List.append_nil _)
        rw [hsub.inside, List.singleton_append, Entries.look_of_entries? hmd hne]
        by_cases hr : [.key (text "annotations")] <+: r
        · obtain ⟨r, rfl⟩ := hr
          rw [← List.append_assoc, ← annotationsTrail_eq] at hq' hgiven
          have hne : r ≠ [] := by
            rintro rfl
            exact hq' (List.append_nil _)
          rw [hmetadata.inside, List.singleton_append, Entries.look_of_entries? ha hne]
          obtain ⟨s, r, rfl⟩ := List.exists_cons_of_ne_nil hne
          cases s with
          | key k =>
            have hnot : ∀ t, ¬ w.Gives k t := by
              intro t hk
              refine hgiven k t hk ((List.prefix_append_right_inj _).mpr ?_)
              exact List.prefix_append [_] r
            rw [Value.look_map_key, Value.look_map_key, hw.get?_of_not_gives hnot]
          | item i => rfl
        · exact hmetadata.outside r hr
      · exact hsub.outside r hr
    · exact hgraft.outside q hp

/-- What can be opened in a resource, others have not made impossible to open. -/
theorem Reached.exists_open (h : m₀.Reached ws done (.map es)) (hp : p ∈ m₀.targets) (hopen : (m₀.annotationsAt? p).isSome) :
    ∃ sub md a, es.descend? p = some sub ∧ Slot.entries? (sub.get? (text "metadata")) = some md ∧
      Slot.entries? (md.get? (text "annotations")) = some a := by
  obtain ⟨b, hb⟩ := Option.isSome_iff_exists.mp hopen
  obtain ⟨sub₀, hd₀, hb⟩ := Option.bind_eq_some_iff.mp hb
  obtain ⟨md₀, a₀, hmd₀, ha₀⟩ := Entries.entries?_of_annotations? (by rw [hb]; rfl)
  have hpart₀ : m₀.toValue.part? (trail p) = some (.map sub₀) := Entries.part?_trail_iff.mpr hd₀
  have hframe : ∀ q, q <+: annotationsTrail p → (Value.map es).look q = m₀.toValue.look q ∨ (Value.map es).look q = some .map := by
    intro q hq
    obtain hsame | ⟨-, hmap⟩ := h.frame q (not_touched_on_way (mem_resourcePaths hp) hq)
    · exact .inl hsame
    · exact .inr hmap
  have hcan : ∀ q, q <+: annotationsTrail p → Entries.CanOpen (m₀.toValue.look q) → Entries.CanOpen ((Value.map es).look q) := by
    intro q hq hcan
    obtain hsame | hmap := hframe q hq
    · rwa [hsame]
    · exact .inr (.inr hmap)
  have hpre : metadataTrail p <+: annotationsTrail p := by
    rw [annotationsTrail_eq]
    exact List.prefix_append _ _
  obtain ⟨sub, hpart⟩ : ∃ sub, (Value.map es).part? (trail p) = some (.map sub) := by
    refine Value.look_eq_map_iff.mp ?_
    have hway : trail p <+: annotationsTrail p := by
      refine List.IsPrefix.trans ?_ hpre
      rw [metadataTrail_eq]
      exact List.prefix_append _ _
    obtain hsame | hmap := hframe _ hway
    · rw [hsame]
      exact Value.look_eq_map_iff.mpr ⟨sub₀, hpart₀⟩
    · exact hmap
  have hmetadata := hcan _ hpre
  have hannotations := hcan _ (List.prefix_refl _)
  rw [metadataTrail_eq, Value.look_append hpart₀, Value.look_append hpart] at hmetadata
  obtain ⟨md, hmd⟩ := Entries.canOpen_iff.mp (hmetadata (Entries.canOpen_iff.mpr ⟨md₀, hmd₀⟩))
  have hne : [Step.key (text "annotations")] ≠ [] := List.cons_ne_nil _ _
  rw [annotationsTrail_eq, metadataTrail_eq, List.append_assoc, Value.look_append hpart₀, Value.look_append hpart,
    List.singleton_append, Entries.look_of_entries? hmd₀ hne, Entries.look_of_entries? hmd hne] at hannotations
  obtain ⟨a, ha⟩ := Entries.canOpen_iff.mp (hannotations (Entries.canOpen_iff.mpr ⟨a₀, ha₀⟩))
  exact ⟨sub, md, a, Entries.part?_trail_iff.mp hpart, hmd, ha⟩

/-- A resource of which metadata and annotations are missing, null or maps can be written to, whatever other writes have made
of the manifest. -/
theorem Reached.exists_update (h : m₀.Reached ws done (.map es)) (hp : p ∈ m₀.targets) (hopen : (m₀.annotationsAt? p).isSome) (w : Write) :
    ∃ es', (es.updateAlong p fun es => es.updateAnnotations (w.domain.schema.store w.family w.descriptor)) = .done es' ∧
      Updated p w (.map es) (.map es') ∧ (Value.map es').IsData ∧ Tracked (.map es) (.map es') := by
  obtain ⟨sub, md, a, hd, hmd, ha⟩ := h.exists_open hp hopen
  obtain ⟨a', hstore, hwrote⟩ := w.store_map a
  rw [Write.store, Write.under_eq] at hstore
  have hsub : (Value.map sub).IsData := h.data.descend? hd
  have hmdData := Entries.isData_of_entries? hsub hmd
  have haData := Entries.isData_of_entries? hmdData ha
  obtain ⟨ha'Data, ha'Tracked⟩ : (Value.map a').IsData ∧ Tracked (.map a) (.map a') := by
    refine Schema.store_preserves (P := fun b => (Value.map b).IsData ∧ Tracked (.map a) (.map b)) ?_
      ⟨haData, .refl _⟩ hstore
    rintro b k t ⟨hdata, htracked⟩
    exact ⟨hdata.set (u := .str t) trivial k, htracked.trans (Tracked.set fun c _ => Value.tracked_str c t)⟩
  refine ⟨_, ?_, updated_graft hd hmd ha hwrote, ?_, ?_⟩
  · rw [Entries.updateAlong_of_some _ hd, Entries.updateAnnotations_of_open hmd, Entries.made_of_entries? ha, hstore]
    rfl
  · exact h.data.graft hd (hsub.set (hmdData.set ha'Data _) _)
  · exact Entries.tracked_graft hd (Entries.tracked_of_entries? hmd (Entries.tracked_of_entries? ha ha'Tracked))

end Manifest

end AnnotationCodec
