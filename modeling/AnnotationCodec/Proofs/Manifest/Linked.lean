import AnnotationCodec.Proofs.Manifest.Sharing

/-!
Resources that share a part. What is written to one of them is in the other one as well, since the part is copied to it,
and the annotations of a resource that shares no part with it are left alone.
-/
namespace AnnotationCodec

open Entries (annotationsPath)
open Value (Off Grown)

namespace Entries

variable {es es' sub sub' new : Entries} {s : List Text} {y : Place} {u : Value}

theorem annotations?_of_descend? (h : es.descend? annotationsPath = some new) : es.annotations? = some new := by
  obtain ⟨md, hmd, h⟩ := descend?_cons_eq_some h
  obtain ⟨a, ha, h⟩ := descend?_cons_eq_some h
  cases h
  simp only [annotations?, lookup, hmd, ha, Option.getD_some]

theorem annotations?_eq_none (hnull : es.lookup "metadata" ≠ .null) (hmap : ∀ md, es.lookup "metadata" ≠ .map md) :
    es.annotations? = none := by
  unfold annotations?
  split
  · next h => exact (hnull h).elim
  · next md h => exact (hmap md h).elim
  · rfl

/-- Resources of which a part is the same have the same annotations. -/
theorem annotations?_congr_part (hs : s ∈ Manifest.ownPaths) (h : es.descend? s = some new) (h' : es'.descend? s = some new) :
    es.annotations? = es'.annotations? := by
  obtain rfl | rfl | rfl : s = [] ∨ s = [text "metadata"] ∨ s = annotationsPath := by simpa [Manifest.ownPaths] using hs
  · rw [Option.some.inj h, Option.some.inj h']
  · obtain ⟨md, hmd, h⟩ := descend?_cons_eq_some h
    obtain ⟨md', hmd', h'⟩ := descend?_cons_eq_some h'
    cases h
    cases h'
    simp only [annotations?, lookup, hmd, hmd']
  · rw [annotations?_of_descend? h, annotations?_of_descend? h']

/-- What is put somewhere in a resource off its annotations leaves them as they were. -/
theorem annotations?_putAt (h : Off annotationsPath y (.map es)) (hput : Value.putAt y u (.map es) = .map es') :
    es'.annotations? = es.annotations? := by
  cases y with
  | nil => exact (Value.not_off_nil _ _ h).elim
  | cons i y =>
    cases hc : (Value.map es).children[i]? with
    | none =>
      rw [Value.putAt, hc] at hput
      rw [Value.map.inj hput]
    | some c =>
      rw [putAt_map hc] at hput
      obtain rfl := Value.map.inj hput
      by_cases hi : es.index? (text "metadata") = some i
      · obtain ⟨v, hv, hchild⟩ := exists_get?_of_index? hi
        obtain rfl := Option.some.inj (hc.symm.trans hchild)
        have hoff := Value.off_cons_iff.mp h hi c hv
        have hy : y ≠ [] := by
          rintro rfl
          exact Value.not_off_nil _ _ hoff
        by_cases hmap : ∃ md, c = .map md
        · obtain ⟨md, rfl⟩ := hmap
          obtain ⟨md', hmd'⟩ := (exists_putAt_eq_map_iff hy u).mpr ⟨md, rfl⟩
          simp only [annotations?, lookup, get?_modify, if_pos hi, hv, Option.getD_some, hmd', get?_putAt_of_off hoff hmd']
        · by_cases hnull : c = .null
          · obtain ⟨j, y, rfl⟩ := List.exists_cons_of_ne_nil hy
            subst hnull
            simp only [annotations?, lookup, get?_modify, if_pos hi, hv, Option.getD_some, Value.putAt, Value.children, List.getElem?_nil]
          · have hnone : annotations? es = none := by
              refine annotations?_eq_none ?_ fun md => ?_ <;> simp only [lookup, hv, Option.getD_some]
              · exact hnull
              · exact not_exists.mp hmap md
            rw [hnone]
            refine annotations?_eq_none ?_ fun md => ?_ <;> simp only [lookup, get?_modify, if_pos hi, hv, Option.getD_some]
            · exact putAt_ne_null hnull hy u
            · exact putAt_ne_map (not_exists.mp hmap) hy u md
      · simp only [annotations?, lookup, get?_modify, if_neg hi]

end Entries

namespace Manifest

variable {m₀ m m' m'' : Manifest} {p q s : List Text} {y : Place} {u : Value} {a : Option Entries} {new : Entries}

/-- Two resources of which the same part is the same map. -/
def Linked (m : Manifest) (p q : List Text) : Prop :=
  ∃ s ∈ ownPaths, ∃ es, m.entries.descend? (p ++ s) = some es ∧ m.entries.descend? (q ++ s) = some es

/-- Resources of which a part is the same have the same annotations, in one manifest or in two. -/
theorem annotationsAt?_congr_part (hs : s ∈ ownPaths) (h : m.entries.descend? (p ++ s) = some new)
    (h' : m'.entries.descend? (q ++ s) = some new) : m.annotationsAt? p = m'.annotationsAt? q := by
  rw [Entries.descend?_append, Option.bind_eq_some_iff] at h h'
  obtain ⟨sub, hsub, h⟩ := h
  obtain ⟨sub', hsub', h'⟩ := h'
  rw [annotationsAt?, annotationsAt?, hsub, hsub']
  exact Entries.annotations?_congr_part hs h h'

theorem Linked.annotationsAt?_eq (h : Linked m p q) : m.annotationsAt? p = m.annotationsAt? q := by
  obtain ⟨s, hs, es, hp, hq⟩ := h
  exact annotationsAt?_congr_part hs hp hq

/-- What is put at a place off the annotations of a resource leaves them as they were. -/
theorem annotationsAt?_putAt (h : Off (q ++ annotationsPath) y m.toValue) (u : Value) :
    ∃ es', Value.putAt y u m.toValue = .map es' ∧ (ofEntries es').annotationsAt? q = m.annotationsAt? q := by
  obtain ⟨es', hput, hsame | ⟨sub, sub', z, hsub, hsub', hoff, hput'⟩⟩ := Entries.descend?_putAt_of_off h u
  · exact ⟨es', hput, congrArg (Option.bind · Entries.annotations?) hsame⟩
  · refine ⟨es', hput, ?_⟩
    have hafter : (ofEntries es').entries.descend? q = some sub' := hsub'
    rw [annotationsAt?, annotationsAt?, hsub, hafter]
    exact Entries.annotations?_putAt hoff hput'

/-- What happens to annotations when the resource along `p` is written to: its own become `a`, and those of another one
stay as they were, or become the same if the two share a part. -/
structure Reaches (m₀ : Manifest) (p : List Text) (a : Option Entries) (m m' : Manifest) : Prop where
  own : m'.annotationsAt? p = a
  others : ∀ q ∈ m₀.targets, q ≠ p →
    m'.annotationsAt? q = m.annotationsAt? q ∨ Linked m₀ p q ∧ m'.annotationsAt? q = a

theorem Reaches.trans (h : Reaches m₀ p a m m') (h' : Reaches m₀ p a m' m'') : Reaches m₀ p a m m'' := by
  refine ⟨h'.own, fun q hq hqp => ?_⟩
  obtain hsame | hlinked := h'.others q hq hqp
  · rw [hsame]
    exact h.others q hq hqp
  · exact .inr hlinked

/-- A part of a resource stays at its place while the manifest grows. -/
theorem GrowsTo.placeAlong? {es old : Entries} (hv : m₀.GrowsTo (.map es)) (hq : q ∈ m₀.targets) (hs : s ∈ ownPaths)
    (hplace : m₀.entries.placeAlong? (q ++ s) = some y) (hold : m₀.toValue.at? y = some (.map old)) :
    Entries.placeAlong? (q ++ s) es = some y ∧
      ∃ sub, (Value.map es).at? y = some (.map sub) ∧ Entries.descend? (q ++ s) es = some sub := by
  obtain ⟨hplace', sub, hsub⟩ := Entries.placeAlong?_grown (hv q hq s hs [text "spec"] (by decide)) hplace hold
  exact ⟨hplace', sub, hsub, Entries.descend?_of_placeAlong? hplace' hsub⟩

/-- Spreading a part of a resource reaches the resources that share it. -/
theorem spreadAlong_reaches (h : m₀.Aligned) (hf : Follows m₀ m) (hp : p ∈ m₀.targets) (hs : s ∈ ownPaths) :
    Follows m₀ (spreadAlong (p ++ s) m) ∧ Reaches m₀ p (m.annotationsAt? p) m (spreadAlong (p ++ s) m) := by
  have hspread := spreadAlong_preserves (m := m)
    (P := fun v => ∃ es, v = .map es ∧ Reaches m₀ p (m.annotationsAt? p) m (ofEntries es))
    h hf hp hs ⟨m.entries, rfl, rfl, fun _ _ _ => .inl rfl⟩ ?_
  · obtain ⟨hfollows, es, hes, hreaches⟩ := hspread
    cases hes
    exact ⟨hfollows, hreaches.own, hreaches.others⟩
  rintro g hg x hxg hx y hy hne source u v hsource ⟨es, rfl, hreaches⟩ hu hgrown ⟨now, rfl, hnow⟩
  obtain ⟨old, hold⟩ := h.same g hg
  have hcopied := h.copied hp hs hx hg hxg hy hne
  obtain ⟨-, sub, hsub, hsource⟩ := hsource.placeAlong? hp hs hx (hold x hxg)
  obtain rfl : u = .map sub := Option.some.inj (hu.symm.trans hsub)
  have hsome : (m₀.toValue.at? y).isSome := by
    rw [hold y hy]
    rfl
  have hkeep : ∀ q ∈ m₀.targets, Off (q ++ annotationsPath) y m₀.toValue → ∃ es',
      Value.putAt y (.map sub) (.map now) = .map es' ∧
        (ofEntries es').annotationsAt? q = (ofEntries now).annotationsAt? q := by
    intro q hq hoff
    have hway : Grown annotationsPath (q ++ annotationsPath) m₀.toValue (.map now) := hgrown.own hq (by decide)
    exact annotationsAt?_putAt (m := ofEntries now) (hoff.grown hsome hway) _
  obtain ⟨es', hput, hown⟩ := hkeep p hp hcopied.own
  refine ⟨es', hput, hown.trans hnow.own, fun q hq hqp => ?_⟩
  obtain hplace | hoff := hcopied.others q hq hqp
  · have hlinked : Linked m₀ p q :=
      ⟨s, hs, old, Entries.descend?_of_placeAlong? hx (hold x hxg), Entries.descend?_of_placeAlong? hplace (hold y hy)⟩
    obtain ⟨hplace', sub', hsub', -⟩ := hgrown.placeAlong? hq hs hplace (hold y hy)
    obtain ⟨es'', hput', hdescend⟩ := Entries.descend?_putAt hplace' hsub' sub
    obtain rfl := Value.map.inj (hput.symm.trans hput')
    refine .inr ⟨hlinked, ?_⟩
    rw [← hreaches.own]
    exact annotationsAt?_congr_part hs hdescend hsource
  · obtain ⟨es'', hput', hsame⟩ := hkeep q hq hoff
    obtain rfl := Value.map.inj (hput.symm.trans hput')
    rw [hsame]
    exact hnow.others q hq hqp

/-- Spreading all maps of a resource reaches the resources that share a part with it. -/
theorem spreadResource_reaches (h : m₀.Aligned) (hf : Follows m₀ m) (hp : p ∈ m₀.targets) :
    Follows m₀ (m.spreadResource p) ∧ Reaches m₀ p (m.annotationsAt? p) m (m.spreadResource p) := by
  obtain ⟨hf₁, h₁⟩ := spreadAlong_reaches (s := []) h hf hp (by decide)
  obtain ⟨hf₂, h₂⟩ := spreadAlong_reaches (s := [text "metadata"]) h hf₁ hp (by decide)
  obtain ⟨hf₃, h₃⟩ := spreadAlong_reaches (s := annotationsPath) h hf₂ hp (by decide)
  rw [h₂.own, h₁.own] at h₃
  rw [h₁.own] at h₂
  rw [spreadResource_eq]
  exact ⟨hf₃, (h₁.trans h₂).trans h₃⟩

end Manifest

end AnnotationCodec
