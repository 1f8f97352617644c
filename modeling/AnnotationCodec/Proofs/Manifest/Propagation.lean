import AnnotationCodec.Proofs.Annotation.Writes
import AnnotationCodec.Proofs.Manifest.Targets

/-!
Runs of writes to whole targets. A run does to the annotations of every resource what it does to a single map.
-/
namespace AnnotationCodec.Write

open Entries (annotationsPath)
open Manifest (Changed)

/-- Writes the step's descriptor to a target. -/
def annotate (w : Write) : Target → Outcome Target :=
  w.under fun s t => t.annotate s w.family w.descriptor

variable {w : Write} {ws : List Write} {m : Manifest} {g : Entries → Entries}

theorem annotate_manifest (hg : ∀ a, w.store (.map a) = .done (.map (g a))) (hs : m.shared = [])
    (ha : ∀ p ∈ m.targets, (m.annotationsAt? p).isSome) :
    ∃ m', w.annotate (.manifest m) = .done (.manifest m') ∧ Changed g m.targets m m' := by
  have hc : ∀ a, w.domain.schema.store w.family w.descriptor (.map a) = .done (.map (g a)) := by
    intro a
    rw [← hg a, store, under_eq]
  rw [Manifest.targets_eq_filter] at ha ⊢
  obtain ⟨m', hdone, hm'⟩ := Manifest.updateResources_of_done hs Manifest.pairwise_clear_targets
    (fun p hp hsome => ha p (List.mem_filter.mpr ⟨hp, hsome⟩)) hc
  refine ⟨m', ?_, hm'⟩
  rw [annotate, under_eq, Target.annotate, Manifest.annotate, hdone]
  rfl

theorem storeEach_of_done {store : Value → Outcome Value} (hg : ∀ a, store (.map a) = .done (.map (g a)))
    (ts : List Entries) : Target.storeEach store (ts.map .map) = .done ((ts.map g).map .map) := by
  induction ts with
  | nil => rfl
  | cons a ts ih =>
    rw [List.map_cons, Target.storeEach, hg a]
    simp only [Outcome.done] at ih ⊢
    rw [ih]
    rfl

theorem annotate_object (hg : ∀ a, w.store (.map a) = .done (.map (g a))) (a : Entries) (ts : List Entries) :
    w.annotate (.object (.map a) (ts.map .map)) = .done (.object (.map (g a)) ((ts.map g).map .map)) := by
  have hc : ∀ a, w.domain.schema.store w.family w.descriptor (.map a) = .done (.map (g a)) := by
    intro a
    rw [← hg a, store, under_eq]
  rw [annotate, under_eq, Target.annotate, hc a, storeEach_of_done hc ts]
  rfl

theorem eq_of_done {a b : Entries} (h : Outcome.done (Value.map a) = .done (.map b)) : a = b :=
  Value.map.inj (congrArg Outcome.value h)

/-- A run makes of a map what its other steps make of what its first step makes of it. -/
theorem eq_comp_of_done {h k : Entries → Entries} (hg : ∀ a, run store (w :: ws) (.map a) = .done (.map (g a)))
    (hh : ∀ a, w.store (.map a) = .done (.map (h a))) (hk : ∀ a, run store ws (.map a) = .done (.map (k a))) :
    g = fun a => k (h a) := by
  funext a
  have hga := hg a
  rw [run, hh a] at hga
  exact eq_of_done (hga.symm.trans (hk (h a)))

/-- A run that takes a step changes the annotations of every resource as it changes a map. -/
theorem run_annotate_manifest (hws : ws ≠ []) (hg : ∀ a, run store ws (.map a) = .done (.map (g a)))
    (hs : m.shared = []) (ha : ∀ p ∈ m.targets, (m.annotationsAt? p).isSome) :
    ∃ m', run annotate ws (.manifest m) = .done (.manifest m') ∧ Changed g m.targets m m' := by
  induction ws generalizing m g with
  | nil => exact (hws rfl).elim
  | cons w ws ih =>
    choose h hh _ using w.store_map
    choose k hk _ using run_store_map ws
    obtain rfl := eq_comp_of_done hg hh hk
    obtain ⟨m₁, hone, h₁⟩ := annotate_manifest hh hs ha
    have hstep : run annotate (w :: ws) (.manifest m) = run annotate ws (.manifest m₁) := by
      rw [run, hone]
      rfl
    by_cases hnil : ws = []
    · subst hnil
      have hk' : k = id := by
        funext a
        exact (eq_of_done (hk a)).symm
      exact ⟨m₁, hstep, hk' ▸ h₁⟩
    · have htargets := h₁.targets_eq ha
      obtain ⟨m', hdone, h'⟩ := ih hnil hk (h₁.shared.trans hs) (htargets ▸ h₁.isSome_annotationsAt? ha)
      rw [htargets] at h'
      exact ⟨m', hstep.trans hdone, h₁.trans h'⟩

theorem run_annotate_object (hg : ∀ a, run store ws (.map a) = .done (.map (g a))) (a : Entries)
    (ts : List Entries) : run annotate ws (.object (.map a) (ts.map .map)) =
      .done (.object (.map (g a)) ((ts.map g).map .map)) := by
  induction ws generalizing g a ts with
  | nil =>
    have hid : g = id := by
      funext a
      exact (eq_of_done (hg a)).symm
    rw [hid, List.map_id]
    rfl
  | cons w ws ih =>
    choose h hh _ using w.store_map
    choose k hk _ using run_store_map ws
    obtain rfl := eq_comp_of_done hg hh hk
    have hts : (ts.map h).map k = ts.map fun a => k (h a) := List.map_map
    rw [run, annotate_object hh a ts, ← hts]
    exact ih hk (h a) (ts.map h)

/-- Every run on a target comes to its end, and it makes of all annotations in it what it makes of a single map. In a
manifest the resources that are written to stay the same, and what is apart from their annotations is kept. -/
theorem run_annotate_propagates (ws : List Write) : ∃ stored : Entries → Entries,
    (∀ a, run store ws (.map a) = .done (.map (stored a))) ∧
    (∀ d f v, last? ws d f = some v → ∃ t, ∀ a, (stored a).get? (d.schema.key f) = some (.str t)) ∧
    (∀ m : Manifest, m.shared = [] → (∀ p ∈ m.targets, (m.annotationsAt? p).isSome) →
      ∃ m', run annotate ws (.manifest m) = .done (.manifest m') ∧ m'.targets = m.targets ∧
        (ws = [] → m' = m) ∧
        (ws ≠ [] → ∀ p ∈ m.targets, ∀ a, m.annotationsAt? p = some a →
          m'.toValue.along? (keys (p ++ annotationsPath)) = some (.map (stored a))) ∧
        (∀ q, (∀ p ∈ m.targets, Apart q (keys (p ++ annotationsPath))) →
          m'.toValue.along? q = m.toValue.along? q)) ∧
    (∀ (a : Entries) (ts : List Entries), run annotate ws (.object (.map a) (ts.map .map)) =
      .done (.object (.map (stored a)) ((ts.map stored).map .map))) := by
  choose g hg hw using run_store_map ws
  refine ⟨g, hg, ?_, ?_, run_annotate_object hg⟩
  · intro d f v hv
    obtain ⟨t, ht, _⟩ := (hw []).written d f v hv
    refine ⟨t, fun a => ?_⟩
    obtain ⟨u, hu, hget⟩ := (hw a).written d f v hv
    have heq : u = t := Except.ok.inj ((hu .null).1.symm.trans (ht .null).1)
    rw [hget, heq]
  · intro m hs ha
    by_cases hnil : ws = []
    · subst hnil
      exact ⟨m, rfl, rfl, fun _ => rfl, fun h => (h rfl).elim, fun _ _ => rfl⟩
    · obtain ⟨m', hdone, hm'⟩ := run_annotate_manifest hnil hg hs ha
      exact ⟨m', hdone, hm'.targets_eq ha, fun h => (hnil h).elim, fun _ => hm'.found, hm'.kept⟩

/-- A deployment whose template has no metadata, and whose own annotations are null. -/
def deployment : Manifest :=
  .ofEntries [(.str (text "metadata"), .map [(.str (text "annotations"), .null)]),
    (.str (text "spec"), .map [(.str (text "replicas"), .int 2), (.str (text "template"), .map [])])]

/-- A step that names the application of a resource. -/
def naming : Write where
  domain := .default
  family := .moniker
  descriptor := .descriptor (.moniker ⟨.str (text "a"), .null, .null, .null, .null⟩)
  fits := by
    refine .inr ⟨_, rfl, rfl, fun f w h => ?_⟩
    cases f <;> cases h
    all_goals first | exact .inl rfl | exact .inr ⟨_, rfl⟩

theorem run_annotate_deployment : ∃ m' a, run annotate [naming] (.manifest deployment) = .done (.manifest m') ∧
    m'.toValue.along? (keys [text "metadata", text "annotations"]) = some (.map a) ∧
    m'.toValue.along? (keys [text "spec", text "template", text "metadata", text "annotations"]) = some (.map a) ∧
    m'.toValue.along? (keys [text "spec", text "replicas"]) = some (.int 2) := by
  obtain ⟨stored, _, _, hm, _⟩ := run_annotate_propagates [naming]
  have htargets : deployment.targets = [[], [text "spec", text "template"]] := by
    decide
  obtain ⟨m', hrun, _, _, hfound, hkept⟩ := hm deployment rfl (by rw [htargets]; decide)
  rw [htargets] at hfound hkept
  refine ⟨m', stored [], hrun, ?_, ?_, ?_⟩
  · exact hfound (List.cons_ne_nil _ _) [] (by simp) [] rfl
  · exact hfound (List.cons_ne_nil _ _) [text "spec", text "template"] (by simp) [] rfl
  · rw [hkept]
    · rfl
    · intro p hp
      exact apart_keys_iff.mpr (by revert p; decide)

end AnnotationCodec.Write
