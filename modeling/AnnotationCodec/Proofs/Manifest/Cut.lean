import AnnotationCodec.Proofs.Annotation.Failure
import AnnotationCodec.Proofs.Manifest.Frame

/-!
Writes that fail on their way through a target. They leave a clean cut: what comes before the slot where the write
failed is written to in full, and what comes after it is as it was, and so is all that lies outside of the resources.
-/
namespace AnnotationCodec

open Entries (annotationsPath entryAlong?)
open Value (Grown)

namespace Slot

variable {k : Slot} {v : Value}

/-- Annotations that stand there are written to as they are. -/
theorem opened?_of_annotations? (h : k.annotations? = some v) (hv : v.isNull = false) :
    k.opened? = some v ∧ k.put v = k := by
  cases k with
  | resource md =>
    cases md with
    | none => cases h
    | some metadata =>
      cases metadata with
      | map es =>
        have hget : Entries.get? (text "annotations") es = some v := h
        constructor
        · simp only [opened?, entries?, Option.map_some, Entries.lookup_of_get? hget, made, hv]
          rfl
        · simp only [put, entries?, Entries.set_of_get? hget]
      | _ => cases h
  | annotations w =>
    obtain rfl := Option.some.inj h
    exact ⟨rfl, rfl⟩

/-- What a change of its annotations makes of a slot, and the result. A slot that cannot be opened stays as it is. In
one that can, the annotations are what the change makes of them, and if it fails and leaves them as they were, no more
happens than that the slot is opened. -/
inductive Changes (change : Value → Outcome Value) : Slot → Slot → Except Failure Unit → Prop
  | closed {k : Slot} (h : k.opened? = none) : Changes change k k (.error .noAttribute)
  | opened {k k' : Slot} {v : Value} (h : k.opened? = some v) (hv : k'.annotations? = some (change v).value)
    (hsame : ∀ e, (change v).result = .error e → (change v).value = v → k' = k.opened) :
    Changes change k k' (change v).result

variable {change : Value → Outcome Value} {k' : Slot} {e : Failure}

theorem Changes.of_ok (h : Changes change k k' (.ok ())) :
    ∃ v, k.opened? = some v ∧ (change v).result = .ok () ∧ k'.annotations? = some (change v).value := by
  generalize hr : Except.ok () = r at h
  cases h with
  | closed => cases hr
  | opened h hv => exact ⟨_, h, rfl, hv⟩

theorem Changes.of_error (h : Changes change k k' (.error e)) :
    (k.opened? = none ∧ e = .noAttribute ∧ k' = k) ∨ ∃ v, k.opened? = some v ∧ (change v).result = .error e ∧
      k'.annotations? = some (change v).value ∧ ((change v).value = v → k' = k.opened) := by
  generalize hr : Except.error e = r at h
  cases h with
  | closed h =>
    cases hr
    exact .inl ⟨h, rfl, rfl⟩
  | opened h hv hsame => exact .inr ⟨_, h, rfl, hv, hsame e hr.symm⟩

/-- A run over slots is cut by a failure in slot number `n`, from one: those before it are changed in full, and those after
it are as they were. -/
inductive Cut (R : Slot → Slot → Except Failure Unit → Prop) (e : Failure) : Nat → List Slot → List Slot → Prop
  | here {k k' : Slot} (h : R k k' (.error e)) (ks : List Slot) : Cut R e 1 (k :: ks) (k' :: ks)
  | later {n : Nat} {k k' : Slot} {ks ks' : List Slot} (h : R k k' (.ok ())) (hs : Cut R e n ks ks') :
    Cut R e (n + 1) (k :: ks) (k' :: ks')

theorem Cut.split {R : Slot → Slot → Except Failure Unit → Prop} {e : Failure} {n : Nat} {ks ks' : List Slot}
    (h : Cut R e n ks ks') : ∃ before k after before' k', n = before.length + 1 ∧ ks = before ++ k :: after ∧
      ks' = before' ++ k' :: after ∧ List.Forall₂ (fun k k' => R k k' (.ok ())) before before' ∧ R k k' (.error e) := by
  induction h with
  | here h ks => exact ⟨[], _, ks, [], _, rfl, rfl, rfl, .nil, h⟩
  | later h _ ih =>
    obtain ⟨before, k, after, before', k', rfl, rfl, rfl, hbefore, hk⟩ := ih
    exact ⟨_ :: before, k, after, _ :: before', k', rfl, rfl, rfl, .cons h hbefore, hk⟩

end Slot

namespace Manifest

variable {m₀ m : Manifest} {p q : List Text} {k : Slot} {v : Value} {change : Value → Outcome Value}

/-- The annotations of a slot are what is found at their path. -/
theorem annotations?_slot? (p : List Text) (m : Manifest) : (m.slot? p).bind Slot.annotations? =
    (entryAlong? (p ++ [text "metadata"]) (text "annotations") m.entries).join := by
  rw [slot?, entryAlong?, Entries.descend?_append]
  cases m.entries.descend? p with
  | none => rfl
  | some sub =>
    simp only [Option.map_some, Option.bind_some, Entries.slot, Entries.descend?]
    cases sub.get? (text "metadata") with
    | none => rfl
    | some v => cases v <;> rfl

theorem not_prefix_path : ∀ p ∈ resourcePaths, ∀ q ∈ resourcePaths, q ≠ p → ¬ q ++ [text "metadata"] <+: p := by
  decide

/-- The way on from one resource to another does not lead through its metadata. -/
theorem head?_drop_path : ∀ p ∈ resourcePaths, ∀ q ∈ resourcePaths, q ≠ p →
    (q.drop p.length).head? ≠ some (text "metadata") := by
  decide

/-- What is left of a way behind the annotations of a resource. -/
theorem subset_wayKeys_of_append_eq {s r w : List Text} (hq : q ∈ resourcePaths) (hs : s ∈ ownPaths)
    (hr : r ⊆ wayKeys) (h : q ++ s ++ r = p ++ (annotationsPath ++ w)) : w ⊆ wayKeys := by
  have hmetadata : text "metadata" ∉ wayKeys := by decide
  have hannotations : text "annotations" ∉ wayKeys := by decide
  have hnotq : text "metadata" ∉ q := fun hmem => hmetadata (subset_wayKeys hq hmem)
  have hnotr : text "metadata" ∉ r := fun hmem => hmetadata (hr hmem)
  have hmem : text "metadata" ∈ q ++ s ++ r := by
    rw [h]
    simp [annotationsPath]
  rw [List.append_assoc] at h
  obtain rfl | rfl | rfl : s = [] ∨ s = [text "metadata"] ∨ s = annotationsPath := by
    simpa [ownPaths] using hs
  · simp [hnotq, hnotr] at hmem
  · obtain ⟨-, -, rfl⟩ := (List.append_cons_inj_of_notMem hnotq hnotr).mp h
    exact (hannotations (hr List.mem_cons_self)).elim
  · have hne : text "metadata" ≠ text "annotations" := by decide
    have hnottail : text "metadata" ∉ text "annotations" :: r := by simp [hne, hnotr]
    obtain ⟨-, -, htail⟩ := (List.append_cons_inj_of_notMem hnotq hnottail).mp h
    obtain rfl : r = w := (List.cons.inj htail).2
    exact hr

/-- A change of annotations that leaves alone what may be on ways to resources. -/
def LeavesWays (change : Value → Outcome Value) : Prop :=
  ∀ v, ∀ r ⊆ wayKeys, Grown annotationsPath r v (change v).value

theorem LeavesWays.made (h : LeavesWays change) {md : Entries} {u : Value}
    (hu : md.get? (text "annotations") = some u) {r : List Text} (hr : r ⊆ wayKeys) :
    Grown annotationsPath r u (change (Slot.made (md.lookup "annotations"))).value := by
  rw [Entries.lookup_of_get? hu]
  cases u with
  | null => exact Grown.of_null _ _ _
  | _ => exact h _ r hr

/-- Other annotations in the resource along `p` change its slot and no other one, and everything grows. -/
theorem graft_annotations {sub md : Entries} (hp : p ∈ resourcePaths) (hd : m.entries.descend? p = some sub)
    (hmd : Slot.entries? (sub.get? (text "metadata")) = some md) {v : Value}
    (hv : ∀ u, md.get? (text "annotations") = some u → ∀ r ⊆ wayKeys, Grown annotationsPath r u v) {m₁ : Manifest}
    (hm₁ : m₁.entries = Entries.graft p
      (sub.set (text "metadata") (.map (Entries.set (text "annotations") v md))) m.entries) :
    m₁.slot? p = some (sub.slot.put v) ∧ (∀ q ∈ resourcePaths, q ≠ p → m₁.slot? q = m.slot? q) ∧
      ∀ q ∈ resourcePaths, ∀ s ∈ ownPaths, ∀ r ⊆ wayKeys,
        Grown annotationsPath (q ++ s ++ r) m.toValue m₁.toValue := by
  refine ⟨?_, fun q hq hqp => ?_, fun q hq s hs r hr => ?_⟩
  · simp only [slot?, hm₁, Entries.descend?_graft hd, Option.map_some, Entries.slot, Entries.get?_set_self, Slot.put,
      hmd]
  · rw [slot?_eq, slot?_eq, hm₁]
    refine congrArg _ (Entries.entryAlong?_graft hd (not_prefix_path p hp q hq hqp) fun r hr => ?_)
    cases r with
    | nil => exact (hqp (by rw [hr, List.append_nil])).elim
    | cons k r =>
      have hk : k ≠ text "metadata" := by
        have hhead := head?_drop_path p hp q hq hqp
        rw [hr, List.drop_left] at hhead
        rintro rfl
        exact hhead rfl
      simp only [entryAlong?, Entries.descend?, Entries.get?_set_of_ne hk]
  · have hmade : text "metadata" ∈ annotationsPath ∧ text "annotations" ∈ annotationsPath := by decide
    rw [toValue, toValue, hm₁]
    refine Entries.grown_graft hd fun w hw => Grown.set ?_
    rintro w rfl
    refine ⟨fun h => (h hmade.1).elim, fun u hu => ?_⟩
    rw [hu] at hmd
    cases u with
    | null => exact Grown.of_null _ _ _
    | map es =>
      cases hmd
      refine Grown.set ?_
      rintro w rfl
      refine ⟨fun h => (h hmade.2).elim, fun u hu => ?_⟩
      exact hv u hu w (subset_wayKeys_of_append_eq hq hs hr hw)
    | _ => cases hmd

theorem updateResource_eq (m : Manifest) (change : Value → Outcome Value) (p : List Text) :
    m.updateResource change p = (m.entries.updateAlong p fun es => es.updateAnnotations change).map fun es =>
      spreadResource { m with entries := es } p := by
  rw [updateResource]
  refine congrArg (fun f => Outcome.map f _) (funext fun es => ?_)
  split
  · next hnone =>
    have hshared : ({ m with entries := es } : Manifest).shared = [] := List.isEmpty_iff.mp hnone
    exact (spreadResource_self (coherent_of_shared_eq_nil hshared) p).symm
  · rfl

/-- Where there is no resource, nothing is written to. -/
theorem updateResource_of_none (h : m₀.Aligned) (hf : Follows m₀ m) (hp : p ∈ resourcePaths)
    (hk₀ : m₀.slot? p = none) (change : Value → Outcome Value) : m.updateResource change p = .done m := by
  have hd₀ : m₀.entries.descend? p = none := Option.map_eq_none_iff.mp hk₀
  rw [updateResource_eq, Entries.updateAlong_of_none _ (hf.descend?_eq_none hp hd₀)]
  exact congrArg Outcome.done (spreadResource_of_absent h hf hp hd₀)

/-- Where a slot can be opened, what a change makes of its annotations is put into it and into no other slot, and then
the maps of the resource are spread. -/
theorem updateResource_of_opened (hways : LeavesWays change) (hf : Follows m₀ m) (hp : p ∈ resourcePaths)
    (hk : m.slot? p = some k) (hopen : k.opened? = some v) :
    ∃ m₁, m.updateResource change p = ⟨m₁.spreadResource p, (change v).result⟩ ∧ Follows m₀ m₁ ∧
      m₁.slot? p = some (k.put (change v).value) ∧ (∀ q ∈ resourcePaths, q ≠ p → m₁.slot? q = m.slot? q) ∧
      (k.put (change v).value = k → m₁ = m) ∧ ∀ written, p ∈ written → m₀.KeptBut written m → m₀.KeptBut written m₁ := by
  obtain ⟨sub, hd, rfl⟩ := Option.map_eq_some_iff.mp hk
  obtain ⟨md, hmd, rfl⟩ := Option.map_eq_some_iff.mp hopen
  have hnew : ∀ u, md.get? (text "annotations") = some u → ∀ r ⊆ wayKeys, Grown annotationsPath r u
      (change (Slot.made (Entries.lookup md "annotations"))).value := fun _ hu _ hr => hways.made hu hr
  rw [updateResource_eq, Entries.updateAlong_of_some _ hd, Entries.updateAnnotations_of_open hmd]
  generalize Slot.made (Entries.lookup md "annotations") = v at hnew ⊢
  obtain ⟨hslot, hothers, hgrown⟩ := graft_annotations hp hd hmd hnew
    (rfl : ({ m with entries := _ } : Manifest).entries = _)
  refine ⟨_, rfl, ⟨hf.shared, fun q hq s hs r hr => ?_⟩, hslot, hothers, fun hput => ?_, fun written hmem hkept => ?_⟩
  · exact (hf.grown q hq s hs r hr).trans (hgrown q (mem_resourcePaths hq) s hs r hr)
  · simp only [Entries.slot, Slot.put, hmd] at hput
    simp only [Outcome.map]
    rw [Entries.set_of_get? (Slot.resource.inj hput.symm), Entries.graft_self hd]
  · exact hkept.graft hmem hd hmd rfl

/-- One step of a write: the slot of the resource is changed, and no other one, nor anything outside of the resource. -/
theorem updateResource_of_some (h : m₀.Separate) (hways : LeavesWays change) (hf : Follows m₀ m)
    (hp : p ∈ resourcePaths) (hk : m.slot? p = some k) (hk₀ : m₀.slot? p = some k)
    (hfirst : m = m₀ ∨ ∀ v e, (change v).result = .error e → ∀ es, v ≠ .map es) :
    Follows m₀ (m.updateResource change p).value ∧
      (∀ q ∈ resourcePaths, q ≠ p → (m.updateResource change p).value.slot? q = m.slot? q) ∧
      (∀ written, p ∈ written → m₀.KeptBut written m → m₀.KeptBut written (m.updateResource change p).value) ∧
      ∃ k', (m.updateResource change p).value.slot? p = some k' ∧
        Slot.Changes change k k' (m.updateResource change p).result := by
  have ht : p ∈ m₀.targets := by
    obtain ⟨sub₀, hd₀, -⟩ := Option.map_eq_some_iff.mp hk₀
    exact mem_targets_iff.mpr ⟨hp, by rw [hd₀]; rfl⟩
  -- Unless the annotations were a map, the slot is not reached when it is spread.
  have hspread : ∀ {m₁ : Manifest}, Follows m₀ m₁ → (∀ es, k.annotations? ≠ some (.map es)) →
      (m₁.spreadResource p).slot? p = m₁.slot? p := by
    intro m₁ hf₁ hmap
    refine slot?_spreadResource h hf₁ ht fun es hes => hmap es ?_
    have := annotations?_slot? p m₀
    rwa [hk₀, hes] at this
  cases hopen : k.opened? with
  | none =>
    obtain ⟨sub, hd, rfl⟩ := Option.map_eq_some_iff.mp hk
    have hmap : ∀ es, sub.slot.annotations? ≠ some (.map es) := by
      intro es hes
      rw [(Slot.opened?_of_annotations? hes rfl).1] at hopen
      cases hopen
    obtain ⟨hfollows, hothers, -⟩ := spared_spreadResource h hf ht
    rw [updateResource_eq, Entries.updateAlong_of_some _ hd,
      Entries.updateAnnotations_of_closed (Option.map_eq_none_iff.mp hopen)]
    simp only [Outcome.map, Outcome.fail, Entries.graft_self hd]
    refine ⟨hfollows, hothers, fun written hmem hkept => ?_, sub.slot, (hspread hf hmap).trans hk, .closed hopen⟩
    exact hkept.spreadResource h.aligned hf ht hmem
  | some v =>
    obtain ⟨m₁, heq, hf₁, hslot, hothers₁, hsame₁, hkept₁⟩ := updateResource_of_opened hways hf hp hk hopen
    obtain ⟨hfollows, hothers, hown⟩ := spared_spreadResource h hf₁ ht
    have hannotations : ((m₁.spreadResource p).slot? p).bind Slot.annotations? = some (change v).value := by
      rw [annotations?_slot?, hown, ← annotations?_slot?, hslot]
      exact Slot.annotations?_put hopen _
    obtain ⟨k', hk', hv⟩ := Option.bind_eq_some_iff.mp hannotations
    rw [heq]
    refine ⟨hfollows, fun q hq hqp => (hothers q hq hqp).trans (hothers₁ q hq hqp), fun written hmem hkept => ?_, k', hk',
      .opened hopen hv ?_⟩
    · exact (hkept₁ written hmem hkept).spreadResource h.aligned hf₁ ht hmem
    intro e he hsame
    have hopened : k.opened = k.put v := by rw [Slot.opened, hopen]
    by_cases hmap : ∃ es, k.annotations? = some (.map es)
    · obtain ⟨es, hes⟩ := hmap
      obtain ⟨hopen', hput⟩ := Slot.opened?_of_annotations? hes rfl
      obtain rfl := Option.some.inj (hopen.symm.trans hopen')
      -- Nothing was changed, in a manifest that is as it was in the beginning.
      obtain rfl : m = m₀ := hfirst.resolve_right fun hmap => hmap _ e he es rfl
      obtain rfl := hsame₁ (by rw [hsame, hput])
      rw [spreadResource_self h.same, hk] at hk'
      rw [hopened, hput]
      exact (Option.some.inj hk').symm
    · rw [hspread hf₁ (not_exists.mp hmap), hslot, hsame] at hk'
      exact (Option.some.inj hk').symm.trans hopened.symm

theorem updateResources_cons_of_ok (h : (m.updateResource change p).result = .ok ()) (paths : List (List Text)) :
    updateResources change (p :: paths) m = updateResources change paths (m.updateResource change p).value := by
  rw [updateResources, Outcome.andThen, h]

theorem updateResources_cons_of_error {e : Failure} (h : (m.updateResource change p).result = .error e)
    (paths : List (List Text)) :
    updateResources change (p :: paths) m = .fail (m.updateResource change p).value e := by
  rw [updateResources, Outcome.andThen, h]

/-- The resources of a list of paths that a manifest has. -/
def present (m : Manifest) (paths : List (List Text)) : List (List Text) :=
  paths.filter fun p => (m.entries.descend? p).isSome

theorem present_cons_of_none (hk : m.slot? p = none) (paths : List (List Text)) : m.present (p :: paths) = m.present paths := by
  have hd : m.entries.descend? p = none := Option.map_eq_none_iff.mp hk
  rw [present, List.filter_cons_of_neg (by simp [hd]), present]

theorem present_cons_of_some (hk : m.slot? p = some k) (paths : List (List Text)) :
    m.present (p :: paths) = p :: m.present paths := by
  obtain ⟨sub, hd, -⟩ := Option.map_eq_some_iff.mp hk
  rw [present, List.filter_cons_of_pos (by rw [hd]; rfl), present]

/-- A run over resources reaches no other slots, and when it fails, it is cut there. It reaches nothing outside of the
resources up to the cut. -/
theorem updateResources_cut (h : m₀.Separate) (hways : LeavesWays change) {paths : List (List Text)}
    (hpaths : paths ⊆ resourcePaths) (hn : paths.Nodup) (hf : Follows m₀ m)
    (hsame : ∀ p ∈ paths, m.slot? p = m₀.slot? p)
    (hlater : ∀ v e, (change v).result = .error e → ∀ es, v ≠ .map es) :
    (∀ q ∈ resourcePaths, q ∉ paths → (updateResources change paths m).value.slot? q = m.slot? q) ∧
      ∀ e, (updateResources change paths m).result = .error e →
        ∃ n, Slot.Cut (Slot.Changes change) e n (paths.filterMap m.slot?)
            (paths.filterMap (updateResources change paths m).value.slot?) ∧
          ∀ written, (m₀.present paths).take n ⊆ written → m₀.KeptBut written m →
            m₀.KeptBut written (updateResources change paths m).value := by
  induction paths generalizing m with
  | nil => exact ⟨fun _ _ _ => rfl, fun e he => by cases he⟩
  | cons p paths ih =>
    rw [List.cons_subset] at hpaths
    rw [List.nodup_cons] at hn
    rw [List.forall_mem_cons] at hsame
    have hne : ∀ q ∈ paths, q ≠ p := fun q hq hqp => hn.1 (hqp ▸ hq)
    cases hk : m.slot? p with
    | none =>
      have hk₀ : m₀.slot? p = none := hsame.1.symm.trans hk
      have hdone := updateResource_of_none h.aligned hf hpaths.1 hk₀ change
      obtain ⟨hkept, hcut⟩ := ih hpaths.2 hn.2 hf hsame.2
      rw [updateResources_cons_of_ok (by rw [hdone]; rfl), hdone, Outcome.done]
      refine ⟨fun q hq hqp => hkept q hq (List.not_mem_of_not_mem_cons hqp), fun e he => ?_⟩
      rw [List.filterMap_cons_none hk, List.filterMap_cons_none ((hkept p hpaths.1 hn.1).trans hk),
        present_cons_of_none hk₀]
      exact hcut e he
    | some k =>
      have hk₀ : m₀.slot? p = some k := hsame.1.symm.trans hk
      obtain ⟨hfollows, hothers, hframe, k', hk', hchanges⟩ :=
        updateResource_of_some h hways hf hpaths.1 hk hk₀ (.inr hlater)
      have hslots : ∀ q ∈ paths, (m.updateResource change p).value.slot? q = m.slot? q := fun q hq =>
        hothers q (hpaths.2 hq) (hne q hq)
      rw [present_cons_of_some hk₀]
      cases hr : (m.updateResource change p).result with
      | error e =>
        rw [updateResources_cons_of_error hr]
        refine ⟨fun q hq hqp => hothers q hq (List.ne_of_not_mem_cons hqp), fun e' he => ?_⟩
        cases he
        rw [hr] at hchanges
        rw [Outcome.fail, List.filterMap_cons_some hk, List.filterMap_cons_some hk', List.filterMap_congr hslots]
        refine ⟨1, .here hchanges _, fun written hmem => hframe written ?_⟩
        exact hmem List.mem_cons_self
      | ok u =>
        obtain ⟨hkept, hcut⟩ := ih hpaths.2 hn.2 hfollows fun q hq => (hslots q hq).trans (hsame.2 q hq)
        rw [updateResources_cons_of_ok hr]
        refine ⟨fun q hq hqp => ?_, fun e he => ?_⟩
        · rw [hkept q hq (List.not_mem_of_not_mem_cons hqp), hothers q hq (List.ne_of_not_mem_cons hqp)]
        · have hp := (hkept p hpaths.1 hn.1).trans hk'
          obtain ⟨n, htail, hrest⟩ := hcut e he
          rw [List.filterMap_congr hslots] at htail
          rw [hr] at hchanges
          rw [List.filterMap_cons_some hk, List.filterMap_cons_some hp]
          refine ⟨n + 1, .later hchanges htail, fun written hmem hm => ?_⟩
          rw [List.take_succ_cons, List.cons_subset] at hmem
          exact hrest written hmem.2 (hframe written hmem.1 hm)

/-- A run over all resources is cut where it fails, and reaches nothing outside of those up to the cut. What changes
annotations once must fail nowhere later but in values that are no maps. -/
theorem updateResources_all_cut (h : m.Separate) (hways : LeavesWays change)
    (hlater : ∀ v, (change v).result = .ok () → ∀ u e, (change u).result = .error e → ∀ es, u ≠ .map es)
    {e : Failure} (he : (updateResources change resourcePaths m).result = .error e) :
    ∃ n, Slot.Cut (Slot.Changes change) e n m.slots (updateResources change resourcePaths m).value.slots ∧
      m.KeptBut (m.targets.take n) (updateResources change resourcePaths m).value := by
  have hk : m.slot? [] = some m.entries.slot := rfl
  obtain ⟨hfollows, hothers, hframe, k', hk', hchanges⟩ :=
    updateResource_of_some h hways (Follows.refl m) List.mem_cons_self hk hk
      (.inl rfl : m = m ∨ ∀ v e, (change v).result = .error e → ∀ es, v ≠ .map es)
  have hne : ∀ q ∈ templatePaths, q ≠ [] := by decide
  have hslots : ∀ q ∈ templatePaths, (m.updateResource change []).value.slot? q = m.slot? q := fun q hq =>
    hothers q (List.mem_cons_of_mem _ hq) (hne q hq)
  have htargets : m.targets = [] :: m.present templatePaths := rfl
  rw [slots, resourcePaths, List.filterMap_cons_some hk, htargets]
  rw [resourcePaths] at he
  cases hr : (m.updateResource change []).result with
  | error e' =>
    rw [updateResources_cons_of_error hr] at he ⊢
    cases he
    rw [hr] at hchanges
    rw [slots, resourcePaths, Outcome.fail, List.filterMap_cons_some hk', List.filterMap_congr hslots]
    exact ⟨1, .here hchanges _, hframe _ List.mem_cons_self (.refl m _)⟩
  | ok u =>
    rw [updateResources_cons_of_ok hr] at he ⊢
    rw [hr] at hchanges
    obtain ⟨v, -, hv, -⟩ := hchanges.of_ok
    obtain ⟨hkept, hcut⟩ :=
      updateResources_cut h hways (List.subset_cons_self _ _) (by decide) hfollows hslots (hlater v hv)
    have hp := (hkept [] List.mem_cons_self (by decide)).trans hk'
    obtain ⟨n, htail, hrest⟩ := hcut e he
    rw [List.filterMap_congr hslots] at htail
    rw [slots, resourcePaths, List.filterMap_cons_some hp]
    refine ⟨n + 1, .later hchanges htail, hrest _ ?_ (hframe _ List.mem_cons_self (.refl m _))⟩
    rw [List.take_succ_cons]
    exact List.subset_cons_self _ _

end Manifest

end AnnotationCodec
