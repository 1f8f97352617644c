import AnnotationCodec.Proofs.Annotation.Writes
import AnnotationCodec.Proofs.Manifest.CleanCut
import AnnotationCodec.Proofs.Manifest.Linked

/-!
Writes that succeed, in a manifest in which maps may be found at several places. The annotations of every resource are
written to, those that several resources share once for each of them, which makes no difference.
-/
namespace AnnotationCodec.Manifest

variable {m₀ m : Manifest} {p : List Text} {a a' : Entries} {g : Entries → Entries} {change : Value → Outcome Value}

/-- The annotations of a resource are what its slot opens to. -/
theorem annotationsAt?_eq_some_iff :
    m.annotationsAt? p = some a ↔ ∃ k, m.slot? p = some k ∧ k.opened? = some (.map a) := by
  have hnone : some [] = some a ↔ some (Value.map []) = some (.map a) := by simp
  have hone (es : Entries) : es.annotations? = some a ↔ es.slot.opened? = some (.map a) := by
    unfold Entries.annotations? Entries.slot Slot.opened? Entries.lookup
    cases es.get? (text "metadata") with
    | none => exact hnone
    | some v =>
      cases v with
      | null => exact hnone
      | map md =>
        simp only [Slot.entries?, Slot.made, Option.getD_some, Option.map_some]
        cases (Entries.get? (text "annotations") md).getD .null <;> simp [Value.isNull]
      | _ => simp [Slot.entries?]
  simp only [annotationsAt?, slot?, Option.bind_eq_some_iff, Option.map_eq_some_iff, hone]
  constructor
  · rintro ⟨sub, hsub, hopen⟩
    exact ⟨_, ⟨sub, hsub, rfl⟩, hopen⟩
  · rintro ⟨_, ⟨sub, hsub, rfl⟩, hopen⟩
    exact ⟨sub, hsub, hopen⟩

theorem annotationsAt?_congr_slot {m' : Manifest} (h : m'.slot? p = m.slot? p) :
    m'.annotationsAt? p = m.annotationsAt? p := by
  refine Option.ext fun a => ?_
  rw [annotationsAt?_eq_some_iff, annotationsAt?_eq_some_iff, h]

/-- One step of a write that succeeds: the annotations of the resource are changed, and with them those of resources that
share a part with it. -/
theorem updateResource_of_map (h : m₀.Aligned) (hways : LeavesWays change) (hf : Follows m₀ m) (hp : p ∈ m₀.targets)
    (ha : m.annotationsAt? p = some a) (hc : change (.map a) = .done (.map a')) :
    ∃ m', m.updateResource change p = .done m' ∧ Follows m₀ m' ∧ Reaches m₀ p (some a') m m' := by
  obtain ⟨k, hk, hopen⟩ := annotationsAt?_eq_some_iff.mp ha
  obtain ⟨m₁, heq, hf₁, hslot, hothers, -⟩ := updateResource_of_opened hways hf (mem_resourcePaths hp) hk hopen
  obtain ⟨hfollows, hreaches⟩ := spreadResource_reaches h hf₁ hp
  rw [hc] at heq hslot
  have hown : m₁.annotationsAt? p = some a' :=
    annotationsAt?_eq_some_iff.mpr ⟨_, hslot, (Slot.opened?_of_annotations? (Slot.annotations?_put hopen _) rfl).1⟩
  rw [hown] at hreaches
  refine ⟨_, heq, hfollows, hreaches.own, fun q hq hqp => ?_⟩
  rw [← annotationsAt?_congr_slot (hothers q (mem_resourcePaths hq) hqp)]
  exact hreaches.others q hq hqp

/-- How far a write has come: the resources along the paths in `done` are as they are after it, and others may be, too. -/
def Halfway (before after : List Text → Entries → Prop) (done : List (List Text)) (m₀ m : Manifest) : Prop :=
  ∀ p ∈ m₀.targets, ∃ a, m.annotationsAt? p = some a ∧ (after p a ∨ p ∉ done ∧ before p a)

variable {before after : List Text → Entries → Prop} {done : List (List Text)}

/-- A change of annotations that leads to what is after the write, also where it has been before. -/
theorem Halfway.step (hb : Halfway before after done m₀ m) (hlink : ∀ p q a, Linked m₀ p q → after p a → after q a)
    (hp : p ∈ m₀.targets) (ha : after p a') (hr : Reaches m₀ p (some a') m m') : Halfway before after (p :: done) m₀ m' := by
  intro q hq
  by_cases hqp : q = p
  · subst hqp
    exact ⟨a', hr.own, .inl ha⟩
  obtain hsame | ⟨hlinked, hnew⟩ := hr.others q hq hqp
  · obtain ⟨b, hqb, hstate⟩ := hb q hq
    exact ⟨b, hsame.trans hqb, hstate.imp_right (And.imp_left (List.not_mem_cons_of_ne_of_not_mem hqp))⟩
  · exact ⟨a', hnew, .inl (hlink p q a' hlinked ha)⟩

/-- A change along some paths reaches the resources there. -/
theorem updateResources_of_maps (h : m₀.Aligned) (hways : LeavesWays change) (hc : ∀ a, change (.map a) = .done (.map (g a)))
    (hstep : ∀ p a, before p a ∨ after p a → after p (g a)) (hlink : ∀ p q a, Linked m₀ p q → after p a → after q a)
    {paths : List (List Text)} (hpaths : paths ⊆ resourcePaths) (hf : Follows m₀ m) (hb : Halfway before after done m₀ m) :
    ∃ m', updateResources change paths m = .done m' ∧ Follows m₀ m' ∧ Halfway before after (paths.reverse ++ done) m₀ m' := by
  induction paths generalizing m done with
  | nil => exact ⟨m, rfl, hf, hb⟩
  | cons p paths ih =>
    rw [List.cons_subset] at hpaths
    obtain ⟨m₁, hone, hf₁, hb₁⟩ : ∃ m₁, m.updateResource change p = .done m₁ ∧ Follows m₀ m₁ ∧
        Halfway before after (p :: done) m₀ m₁ := by
      by_cases hp : p ∈ m₀.targets
      · obtain ⟨a, ha, hstate⟩ := hb p hp
        obtain ⟨m₁, hone, hf₁, hr⟩ := updateResource_of_map h hways hf hp ha (hc a)
        exact ⟨m₁, hone, hf₁, hb.step hlink hp (hstep p a (hstate.symm.imp_left And.right)) hr⟩
      · have hnone : m₀.slot? p = none := Option.map_eq_none_iff.mpr (by simpa [mem_targets_iff, hpaths.1] using hp)
        refine ⟨m, updateResource_of_none h hf hpaths.1 hnone change, hf, fun q hq => ?_⟩
        obtain ⟨a, ha, hstate⟩ := hb q hq
        have hqp : q ≠ p := fun hqp => hp (hqp ▸ hq)
        exact ⟨a, ha, hstate.imp_right (And.imp_left (List.not_mem_cons_of_ne_of_not_mem hqp))⟩
    obtain ⟨m', hdone, hf', hb'⟩ := ih hpaths.2 hf₁ hb₁
    refine ⟨m', ?_, hf', ?_⟩
    · rw [updateResources, hone]
      exact hdone
    · rwa [List.reverse_cons, List.append_assoc]

/-- The annotations of every resource of a manifest have become what `R` allows them to become. -/
def Became (R : Entries → Entries → Prop) (m₀ m : Manifest) : Prop :=
  ∀ p ∈ m₀.targets, ∃ a₀ a, m₀.annotationsAt? p = some a₀ ∧ m.annotationsAt? p = some a ∧ R a₀ a

theorem Became.refl (h : ∀ p ∈ m₀.targets, (m₀.annotationsAt? p).isSome) : Became (Write.Wrote fun _ _ => none) m₀ m₀ := by
  intro p hp
  obtain ⟨a, ha⟩ := Option.isSome_iff_exists.mp (h p hp)
  exact ⟨a, a, ha, ha, .refl a⟩

/-- A descriptor that can be stored is written to every resource, whatever was written to it before. -/
theorem annotate_of_maps (h : m₀.Aligned) (hf : Follows m₀ m) {given : Domain → Field → Option Value}
    (hb : Became (Write.Wrote given) m₀ m) (w : Write) :
    ∃ m', m.annotate w.domain.schema w.family w.descriptor = .done m' ∧ Follows m₀ m' ∧
      Became (Write.Wrote fun d f => (w.given? d f).or (given d f)) m₀ m' := by
  choose g hg hw using w.store_map
  have hc : ∀ a, w.domain.schema.store w.family w.descriptor (.map a) = .done (.map (g a)) := fun a => by
    rw [← hg a, Write.store, Write.under_eq]
  let state (given : Domain → Field → Option Value) (p : List Text) (a : Entries) : Prop :=
    ∃ a₀, m₀.annotationsAt? p = some a₀ ∧ Write.Wrote given a₀ a
  have hstep : ∀ p a, state given p a ∨ state (fun d f => (w.given? d f).or (given d f)) p a →
      state (fun d f => (w.given? d f).or (given d f)) p (g a) := by
    rintro p a (⟨a₀, ha₀, hwrote⟩ | ⟨a₀, ha₀, hwrote⟩)
    · exact ⟨a₀, ha₀, hwrote.trans (hw a)⟩
    · have htwice := hwrote.trans (hw a)
      simp only [← Option.or_assoc, Option.or_self] at htwice
      exact ⟨a₀, ha₀, htwice⟩
  have hlink : ∀ p q a, Linked m₀ p q → state (fun d f => (w.given? d f).or (given d f)) p a →
      state (fun d f => (w.given? d f).or (given d f)) q a := by
    rintro p q a hlinked ⟨a₀, ha₀, hwrote⟩
    exact ⟨a₀, hlinked.annotationsAt?_eq.symm.trans ha₀, hwrote⟩
  have hstart : Halfway (state given) (state fun d f => (w.given? d f).or (given d f)) [] m₀ m := by
    intro p hp
    obtain ⟨a₀, a, ha₀, ha, hwrote⟩ := hb p hp
    exact ⟨a, ha, .inr ⟨List.not_mem_nil, a₀, ha₀, hwrote⟩⟩
  obtain ⟨m', hdone, hf', hend⟩ := updateResources_of_maps h (w.domain.leavesWays_store w.family w.descriptor) hc hstep hlink
    (List.Subset.refl resourcePaths) hf hstart
  refine ⟨m', hdone, hf', fun p hp => ?_⟩
  obtain ⟨a, ha, ⟨a₀, ha₀, hwrote⟩ | ⟨hnot, -⟩⟩ := hend p hp
  · exact ⟨a₀, a, ha₀, ha, hwrote⟩
  · exact (hnot (by simpa using mem_resourcePaths hp)).elim

end AnnotationCodec.Manifest
