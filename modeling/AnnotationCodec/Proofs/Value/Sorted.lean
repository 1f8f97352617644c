import AnnotationCodec.Proofs.Value.Order
import Mathlib.Data.List.Basic
import Mathlib.Data.List.Perm.Basic

/-!
Sorting forgets the order of entries whose keys are different texts: only one order of them is ascending.
-/
namespace AnnotationCodec

namespace Text

variable {s t u : Text}

theorem less_irrefl (t : Text) : t.less t = false := by
  induction t with
  | nil => rfl
  | cons c t ih => simp [less, ih]

theorem less_trans (h : s.less t = true) (h' : t.less u = true) : s.less u = true := by
  induction u generalizing s t with
  | nil => simp [less] at h'
  | cons c u ih =>
    cases t with
    | nil => simp [less] at h
    | cons b t =>
      cases s with
      | nil => rfl
      | cons a s =>
        simp only [less, Bool.or_eq_true, Bool.and_eq_true, decide_eq_true_eq] at h h' ⊢
        rcases h with h | ⟨rfl, h⟩
        · rcases h' with h' | ⟨rfl, -⟩
          · exact .inl (Nat.lt_trans h h')
          · exact .inl h
        · exact h'.imp_right fun ⟨heq, h'⟩ => ⟨heq, ih h h'⟩

/-- Of two different texts one comes before the other. -/
theorem less_of_ne (hne : s ≠ t) (h : s.less t = false) : t.less s = true := by
  induction t generalizing s with
  | nil =>
    cases s with
    | nil => exact (hne rfl).elim
    | cons a s => rfl
  | cons b t ih =>
    cases s with
    | nil => simp [less] at h
    | cons a s =>
      simp only [less, Bool.or_eq_true, Bool.and_eq_true, decide_eq_true_eq, Bool.or_eq_false_iff,
        Bool.and_eq_false_iff, decide_eq_false_iff_not] at h ⊢
      by_cases hab : a = b
      · subst hab
        refine .inr ⟨rfl, ih (fun hst => hne (by rw [hst])) ?_⟩
        simpa using h.2
      · have hval : a.val ≠ b.val := fun hv => hab (Fin.ext hv)
        exact .inl (by omega)

end Text

namespace Entries

variable {α : Type} {es fs : List (Value × α)} {e : Value × α}

/-- The keys of entries are texts, none of them twice. -/
structure TextKeys (es : List (Value × α)) : Prop where
  texts : ∀ e ∈ es, ∃ t, e.1 = .str t
  nodup : (es.map Prod.fst).Nodup

/-- Whether the key of an entry comes before the key of another one. -/
def Before (e f : Value × α) : Prop :=
  e.1.less? f.1 = some true

theorem Before.trans {f g : Value × α} (h : Before e f) (h' : Before f g) (he : ∃ t, e.1 = .str t)
    (hf : ∃ t, f.1 = .str t) (hg : ∃ t, g.1 = .str t) : Before e g := by
  obtain ⟨s, hs⟩ := he
  obtain ⟨t, ht⟩ := hf
  obtain ⟨u, hu⟩ := hg
  rw [Before, hs, ht] at h
  rw [Before, ht, hu] at h'
  rw [Before, hs, hu]
  exact congrArg some (Text.less_trans (Option.some.inj h) (Option.some.inj h'))

theorem before_of_ne {f : Value × α} (he : ∃ t, e.1 = .str t) (hf : ∃ t, f.1 = .str t) (hne : e.1 ≠ f.1)
    (h : ¬ Before e f) : Before f e := by
  obtain ⟨s, hs⟩ := he
  obtain ⟨t, ht⟩ := hf
  rw [hs, ht] at hne
  rw [Before, hs, ht] at h
  rw [Before, hs, ht]
  refine congrArg some (Text.less_of_ne (fun hst => hne (congrArg Value.str hst)) ?_)
  simpa [Value.less?] using h

theorem TextKeys.cons_iff : TextKeys (e :: es) ↔ (∃ t, e.1 = .str t) ∧ (∀ f ∈ es, e.1 ≠ f.1) ∧ TextKeys es := by
  constructor
  · rintro ⟨htexts, hnodup⟩
    rw [List.forall_mem_cons] at htexts
    rw [List.map_cons, List.nodup_cons] at hnodup
    exact ⟨htexts.1, fun f hf heq => hnodup.1 (heq ▸ List.mem_map_of_mem hf), htexts.2, hnodup.2⟩
  · rintro ⟨htext, hne, htexts, hnodup⟩
    refine ⟨List.forall_mem_cons.mpr ⟨htext, htexts⟩, ?_⟩
    rw [List.map_cons, List.nodup_cons]
    refine ⟨fun hmem => ?_, hnodup⟩
    obtain ⟨f, hf, heq⟩ := List.mem_map.mp hmem
    exact hne f hf heq.symm

theorem TextKeys.perm (h : TextKeys es) (hp : es.Perm fs) : TextKeys fs :=
  ⟨fun e he => h.texts e (hp.mem_iff.mpr he), ((hp.map Prod.fst).nodup_iff).mp h.nodup⟩

theorem TextKeys.sublist (h : TextKeys es) (hs : fs.Sublist es) : TextKeys fs :=
  ⟨fun e he => h.texts e (hs.mem he), h.nodup.sublist (hs.map Prod.fst)⟩

/-- An entry is put where it belongs. -/
theorem pairwise_insertSorted (h : TextKeys (e :: es)) (hs : es.Pairwise Before) : (insertSorted e es).Pairwise Before := by
  induction es with
  | nil => exact List.pairwise_singleton _ _
  | cons f es ih =>
    obtain ⟨htext, hne, htail⟩ := TextKeys.cons_iff.mp h
    obtain ⟨hftext, hfne, hrest⟩ := TextKeys.cons_iff.mp htail
    rw [List.forall_mem_cons] at hne
    rw [List.pairwise_cons] at hs
    unfold insertSorted
    split
    next hbefore =>
      refine List.pairwise_cons.mpr ⟨List.forall_mem_cons.mpr ⟨hbefore, fun g hg => ?_⟩, List.pairwise_cons.mpr hs⟩
      exact Before.trans hbefore (hs.1 g hg) htext hftext (hrest.texts g hg)
    next hbehind =>
      have hinner := ih (TextKeys.cons_iff.mpr ⟨htext, hne.2, hrest⟩) hs.2
      refine List.pairwise_cons.mpr ⟨fun g hg => ?_, hinner⟩
      rcases List.mem_cons.mp ((insertSorted_perm e es).mem_iff.mp hg) with rfl | hg
      · exact before_of_ne htext hftext hne.1 hbehind
      · exact hs.1 g hg

theorem pairwise_foldl_insertSorted {acc : List (Value × α)} (h : TextKeys (acc ++ es)) (hs : acc.Pairwise Before) :
    (es.foldl (fun acc e => insertSorted e acc) acc).Pairwise Before := by
  induction es generalizing acc with
  | nil => exact hs
  | cons e es ih =>
    have hkeys : TextKeys (e :: acc ++ es) := h.perm List.perm_middle
    have hown : TextKeys (e :: acc) := hkeys.sublist (List.sublist_append_left _ es)
    exact ih (hkeys.perm ((insertSorted_perm e acc).symm.append_right es)) (pairwise_insertSorted hown hs)

theorem keysComparable_of_texts (h : ∀ e ∈ es, ∃ t, e.1 = .str t) : keysComparable es = true := by
  induction es with
  | nil => rfl
  | cons e es ih =>
    rw [List.forall_mem_cons] at h
    obtain ⟨⟨t, ht⟩, hes⟩ := h
    rw [keysComparable, ih hes, Bool.and_true, List.all_eq_true]
    intro f hf
    obtain ⟨u, hu⟩ := hes f hf
    rw [ht, hu]
    rfl

theorem pairwise_sorted (h : TextKeys es) : (sorted es).Pairwise Before := by
  rw [sorted, if_pos (keysComparable_of_texts h.texts)]
  exact pairwise_foldl_insertSorted h List.Pairwise.nil

/-- Entries with different texts for keys are sorted alike, in whatever order they come. -/
theorem sorted_eq_of_perm (h : TextKeys es) (hp : es.Perm fs) : sorted es = sorted fs := by
  have hfs := h.perm hp
  have hperm : (sorted es).Perm (sorted fs) := ((sorted_perm es).trans hp).trans (sorted_perm fs).symm
  refine hperm.eq_of_pairwise ?_ (pairwise_sorted h) (pairwise_sorted hfs)
  intro e f he hf hef hfe
  obtain ⟨t, ht⟩ := h.texts e ((sorted_perm es).mem_iff.mp he)
  obtain ⟨u, hu⟩ := hfs.texts f ((sorted_perm fs).mem_iff.mp hf)
  have hself := hef.trans hfe ⟨t, ht⟩ ⟨u, hu⟩ ⟨t, ht⟩
  rw [Before, ht] at hself
  simp [Value.less?, Text.less_irrefl] at hself

end Entries

end AnnotationCodec
