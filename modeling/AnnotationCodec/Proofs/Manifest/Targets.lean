import AnnotationCodec.Manifest.Target
import AnnotationCodec.Proofs.Manifest.Resource

/-!
The resources of a manifest. A change of annotations takes place in the manifest itself and in each template that it
has, once in each, and leaves everything around them as it was.
-/
namespace AnnotationCodec

open Entries (annotationsPath)

namespace Manifest

/-- The paths of the resources that annotations are written to. -/
def targets (m : Manifest) : List (List Text) :=
  [] :: m.templates

/-- The annotations of the resource along a path. -/
def annotationsAt? (m : Manifest) (p : List Text) : Option Entries :=
  (m.entries.descend? p).bind Entries.annotations?

/-- A change of the annotations along `p` does not touch what is along `q`. -/
def Clear (p q : List Text) : Prop :=
  ¬ q <+: p ++ annotationsPath ∧ ¬ p ++ annotationsPath <+: q

instance (p q : List Text) : Decidable (Clear p q) :=
  inferInstanceAs (Decidable (_ ∧ _))

/-- In one manifest the annotations along some paths are what a function makes of those in another one, and the rest
is the same. -/
structure Changed (g : Entries → Entries) (paths : List (List Text)) (m m' : Manifest) : Prop where
  shared : m'.shared = m.shared
  found : ∀ p ∈ paths, ∀ a, m.annotationsAt? p = some a →
    m'.toValue.along? (keys (p ++ annotationsPath)) = some (.map (g a))
  kept : ∀ q, (∀ p ∈ paths, Apart q (keys (p ++ annotationsPath))) → m'.toValue.along? q = m.toValue.along? q

variable {m m' m'' : Manifest} {p q : List Text} {paths : List (List Text)} {a : Entries} {g g' : Entries → Entries}
  {change : Value → Outcome Value}

theorem clear_targets : ∀ p ∈ [] :: templatePaths, ∀ q ∈ templatePaths, p ≠ q → Clear p q := by
  decide

theorem pairwise_clear_targets : ([] :: templatePaths).Pairwise Clear := by
  decide

theorem targets_eq_filter (m : Manifest) :
    m.targets = ([] :: templatePaths).filter fun p => (m.entries.descend? p).isSome :=
  rfl

theorem Clear.apart (h : Clear p q) : Apart (keys q) (keys (p ++ annotationsPath)) :=
  apart_keys_iff.mpr h

theorem annotationsAt?_congr (h : m'.toValue.along? (keys p) = m.toValue.along? (keys p)) :
    m'.annotationsAt? p = m.annotationsAt? p := by
  rw [annotationsAt?, Entries.descend?_congr h, annotationsAt?]

theorem annotationsAt?_of_found (h : m.toValue.along? (keys (p ++ annotationsPath)) = some (.map a)) :
    m.annotationsAt? p = some a := by
  rw [keys_append, Value.along?_append, Option.bind_eq_some_iff] at h
  obtain ⟨v, hv, h⟩ := h
  cases v with
  | map sub =>
    rw [annotationsAt?, Entries.descend?_eq_some_iff.mpr hv]
    exact Entries.annotations?_of_found h
  | _ => cases h

theorem updateResource_of_absent (hs : m.shared = []) (hp : m.entries.descend? p = none) :
    m.updateResource change p = .done m := by
  have hempty : m.shared.isEmpty = true := by
    rw [hs]
    rfl
  rw [updateResource, Entries.updateAlong_of_none _ hp]
  simp only [Outcome.map, Outcome.done, hempty, if_true]

theorem updateResource_of_done (hs : m.shared = []) (ha : m.annotationsAt? p = some a)
    (hc : ∀ a, change (.map a) = .done (.map (g a))) :
    ∃ m', m.updateResource change p = .done m' ∧ Changed g [p] m m' := by
  obtain ⟨sub, hsub, hsa⟩ := Option.bind_eq_some_iff.mp ha
  obtain ⟨sub', hdone, hput⟩ := Entries.updateAnnotations_of_done hsa (hc a)
  obtain ⟨es', hes, hput⟩ :=
    Entries.updateAlong_of_done (fun es => es.updateAnnotations change) hsub hdone hput
  refine ⟨{ m with entries := es' }, ?_, rfl, ?_, ?_⟩
  · rw [updateResource, hes]
    simp [Outcome.map, Outcome.done, hs]
  · intro q hq b hb
    obtain rfl := List.mem_singleton.mp hq
    rw [ha] at hb
    obtain rfl := Option.some.inj hb
    exact hput.found
  · intro q hq
    exact hput.kept q (hq p (List.mem_singleton_self p))

theorem Changed.trans (h : Changed g paths m m') (h' : Changed g' paths m' m'') :
    Changed (fun a => g' (g a)) paths m m'' := by
  refine ⟨h'.shared.trans h.shared, ?_, fun q hq => (h'.kept q hq).trans (h.kept q hq)⟩
  intro p hp a hpa
  exact h'.found p hp (g a) (annotationsAt?_of_found (h.found p hp a hpa))

theorem Changed.isSome_annotationsAt? (h : Changed g paths m m') (ha : ∀ p ∈ paths, (m.annotationsAt? p).isSome) :
    ∀ p ∈ paths, (m'.annotationsAt? p).isSome := by
  intro p hp
  obtain ⟨a, hpa⟩ := Option.isSome_iff_exists.mp (ha p hp)
  rw [annotationsAt?_of_found (h.found p hp a hpa)]
  rfl

/-- The resources of a manifest stay where they are. -/
theorem Changed.targets_eq (h : Changed g m.targets m m') (ha : ∀ p ∈ m.targets, (m.annotationsAt? p).isSome) :
    m'.targets = m.targets := by
  refine congrArg (List.cons []) (List.filter_congr fun p hp => ?_)
  by_cases hm : p ∈ m.targets
  · obtain ⟨a, hpa⟩ := Option.isSome_iff_exists.mp (ha p hm)
    have hpa' := annotationsAt?_of_found (h.found p hm a hpa)
    rw [annotationsAt?, Option.bind_eq_some_iff] at hpa hpa'
    obtain ⟨sub, hsub, _⟩ := hpa
    obtain ⟨sub', hsub', _⟩ := hpa'
    rw [hsub, hsub']
    rfl
  · have hkept := h.kept (keys p) fun q hq => by
      refine (clear_targets q ?_ p hp ?_).apart
      · exact List.cons_subset_cons [] (List.filter_subset_self _) hq
      · rintro rfl
        exact hm hq
    rw [Entries.descend?_congr hkept]

/-- What is along a path that is clear of the one with a change stays. -/
theorem Changed.along?_keys (h : Changed g [p] m m') (hc : Clear p q) :
    m'.toValue.along? (keys q) = m.toValue.along? (keys q) := by
  refine h.kept _ fun r hr => ?_
  obtain rfl := List.mem_singleton.mp hr
  exact hc.apart

/-- Changes along a path and then along others that it is clear of. -/
theorem Changed.cons (h : Changed g [p] m m') (h' : Changed g paths m' m'') (hc : ∀ q ∈ paths, Clear p q) :
    Changed g (p :: paths) m m'' := by
  refine ⟨h'.shared.trans h.shared, ?_, ?_⟩
  · intro q hq a ha
    rcases List.mem_cons.mp hq with rfl | hq
    · rw [h'.kept _ fun r hr => ?_]
      · exact h.found q (List.mem_singleton_self q) a ha
      · rw [keys_append r]
        exact ((hc r hr).apart.append _).symm
    · rw [← annotationsAt?_congr (h.along?_keys (hc q hq))] at ha
      exact h'.found q hq a ha
  · intro q hq
    rw [List.forall_mem_cons] at hq
    rw [h'.kept q hq.2]
    refine h.kept q fun r hr => ?_
    obtain rfl := List.mem_singleton.mp hr
    exact hq.1

/-- A change along paths that are clear of each other takes place at each that leads to a resource. -/
theorem updateResources_of_done (hs : m.shared = []) (hp : paths.Pairwise Clear)
    (ha : ∀ p ∈ paths, (m.entries.descend? p).isSome → (m.annotationsAt? p).isSome)
    (hc : ∀ a, change (.map a) = .done (.map (g a))) :
    ∃ m', updateResources change paths m = .done m' ∧
      Changed g (paths.filter fun p => (m.entries.descend? p).isSome) m m' := by
  induction paths generalizing m with
  | nil => exact ⟨m, rfl, rfl, by simp, fun _ _ => rfl⟩
  | cons p paths ih =>
    rw [List.pairwise_cons] at hp
    rw [List.forall_mem_cons] at ha
    cases hd : m.entries.descend? p with
    | none =>
      obtain ⟨m', hdone, hm'⟩ := ih hs hp.2 ha.2
      refine ⟨m', ?_, ?_⟩
      · rw [updateResources, updateResource_of_absent hs hd]
        exact hdone
      · rw [List.filter_cons_of_neg (by simp [hd])]
        exact hm'
    | some sub =>
      obtain ⟨a, hpa⟩ := Option.isSome_iff_exists.mp (ha.1 (by rw [hd]; rfl))
      obtain ⟨m₁, hone, h₁⟩ := updateResource_of_done hs hpa hc
      -- The paths that are left lead to the same resources after the change.
      have hsame : ∀ q ∈ paths, m₁.entries.descend? q = m.entries.descend? q := fun q hq =>
        Entries.descend?_congr (h₁.along?_keys (hp.1 q hq))
      obtain ⟨m', hdone, h'⟩ := ih (h₁.shared.trans hs) hp.2 fun q hq hsome => by
        rw [annotationsAt?, hsame q hq]
        rw [hsame q hq] at hsome
        exact ha.2 q hq hsome
      rw [List.filter_congr fun q hq => congrArg Option.isSome (hsame q hq)] at h'
      refine ⟨m', ?_, ?_⟩
      · rw [updateResources, hone]
        exact hdone
      · rw [List.filter_cons_of_pos (by rw [hd]; rfl)]
        exact h₁.cons h' fun q hq => hp.1 q (List.mem_of_mem_filter hq)

end Manifest

end AnnotationCodec
