import AnnotationCodec.Proofs.Manifest.Sharing
import AnnotationCodec.Proofs.Value.Frame

/-!
What writing annotations leaves alone in a manifest: all that lies outside the annotations that are written to, and outside
the other places where the maps that hold them are found.
-/
namespace AnnotationCodec

open Entries (annotationsPath)
open Value (Beside Unmoved)

namespace Entries

variable {es sub new md : Entries} {p w : List Text} {q : List Value}

/-- Other annotations in a resource do not show apart from them, also where the metadata are made for them. -/
theorem unmoved_annotations (hmd : Slot.entries? (sub.get? (text "metadata")) = some md)
    (hq : Apart q (keys annotationsPath)) (v : Value) :
    Unmoved q (.map sub) (.map (sub.set (text "metadata") (.map (Entries.set (text "annotations") v md)))) := by
  obtain ⟨k, r, rfl⟩ := List.exists_cons_of_ne_nil hq.ne_nil
  by_cases hk : k = .str (text "metadata")
  · subst hk
    have hr : Apart r (keys [text "annotations"]) := Apart.tail hq
    obtain ⟨k, r, rfl⟩ := List.exists_cons_of_ne_nil hr.ne_nil
    have hk : k ≠ .str (text "annotations") := by
      rintro rfl
      exact hr.2 (by simp [keys])
    -- In metadata that are made nothing is found but the annotations.
    have hmade : (Value.map (Entries.set (text "annotations") v [])).inside? (k :: r) = none := by
      rw [Value.inside?_map, Entries.valueAt?_set_of_ne hk]
      rfl
    refine Unmoved.set_self (fun c hc => ?_) fun hnone => ?_
    · rw [hc] at hmd
      cases c with
      | null =>
        cases hmd
        exact .of_none rfl (List.cons_ne_nil k r) hmade
      | map md =>
        cases hmd
        exact .set_of_ne hk v r md
      | _ => cases hmd
    · rw [hnone] at hmd
      cases hmd
      exact hmade
  · exact .set_of_ne hk _ r sub

/-- Another map along a path does not show apart from what is new in it. -/
theorem unmoved_graft (hd : es.descend? p = some sub) (hq : Apart q (keys (p ++ w)))
    (hnew : ∀ r, Apart r (keys w) → Unmoved r (.map sub) (.map new)) :
    Unmoved q (.map es) (.map (graft p new es)) := by
  induction p generalizing es q with
  | nil =>
    cases hd
    exact hnew q hq
  | cons k p ih =>
    obtain ⟨inner, hg, hd⟩ := descend?_cons_eq_some hd
    obtain ⟨x, q, rfl⟩ := List.exists_cons_of_ne_nil hq.ne_nil
    simp only [graft, hg]
    by_cases hx : x = .str k
    · subst hx
      refine Unmoved.set_self (fun c hc => ?_) fun hnone => ?_
      · obtain rfl := Option.some.inj (hg.symm.trans hc)
        exact ih hd (Apart.tail hq)
      · rw [hg] at hnone
        cases hnone
    · exact .set_of_ne hx _ q es

end Entries

namespace Manifest

/-- Subscripts lead outside what a write to the resource along `p` reaches: apart from its annotations, and beside the other
places where the resource itself, its metadata or its annotations are found. -/
def Outside (m : Manifest) (p : List Text) (q : List Value) : Prop :=
  Apart q (keys (p ++ annotationsPath)) ∧ ∀ g ∈ m.shared, ∀ s ∈ ownPaths, ∀ x ∈ g, m.entries.placeAlong? (p ++ s) = some x →
    ∀ y ∈ g, y ≠ x → Beside q y m.toValue

/-- A manifest is as it was but for what writes to the resources along `paths` reach. -/
structure KeptBut (m : Manifest) (paths : List (List Text)) (m' : Manifest) : Prop where
  shared : m'.shared = m.shared
  endless : m'.endless = m.endless
  kept : ∀ q, (∀ p ∈ paths, m.Outside p q) → Unmoved q m.toValue m'.toValue

variable {m₀ m : Manifest} {paths : List (List Text)} {p : List Text} {x : Place}

theorem KeptBut.refl (m : Manifest) (paths : List (List Text)) : m.KeptBut paths m :=
  ⟨rfl, rfl, fun q _ => .refl q _⟩

/-- Annotations that are set in a resource are not outside of it. -/
theorem KeptBut.graft {sub md es : Entries} {v : Value} (h : m₀.KeptBut paths m) (hp : p ∈ paths)
    (hd : m.entries.descend? p = some sub) (hmd : Slot.entries? (sub.get? (text "metadata")) = some md)
    (hes : es = Entries.graft p (sub.set (text "metadata") (.map (Entries.set (text "annotations") v md))) m.entries) :
    m₀.KeptBut paths { m with entries := es } := by
  refine ⟨h.shared, h.endless, fun q hq => (h.kept q hq).trans ?_⟩
  subst hes
  exact Entries.unmoved_graft hd (hq p hp).1 fun r hr => Entries.unmoved_annotations hmd hr v

theorem endless_spread (m : Manifest) (x : Place) : (m.spread x).endless = m.endless := by
  refine List.foldlRecOn m.shared _ (motive := fun m' : Manifest => m'.endless = m.endless) rfl fun m' hm' g _ => ?_
  split
  · split
    · exact hm'
    · exact hm'
  · exact hm'

/-- Spreading reaches no other places than those of the map. -/
theorem KeptBut.spread (h : m₀.KeptBut paths m) (hx : ∀ q, (∀ p ∈ paths, m₀.Outside p q) → ∀ g ∈ m.shared, x ∈ g →
    ∀ y ∈ g, y ≠ x → Beside q y m₀.toValue) : m₀.KeptBut paths (m.spread x) := by
  have hspread := spread_preserves (m := m) (x := x)
    (P := fun v => ∀ q, (∀ p ∈ paths, m₀.Outside p q) → Unmoved q m₀.toValue v) h.kept ?_
  · exact ⟨hspread.2.trans h.shared, (endless_spread m x).trans h.endless, hspread.1⟩
  intro g hg hxg y hy hne source u _ _ v hv q hq
  exact (hv q hq).trans (Value.unmoved_putAt ((hv q hq).beside y (hx q hq g hg hxg y hy hne)) u)

theorem Follows.spreadAlong {s : List Text} (h : Follows m₀ m) (ha : m₀.Aligned) (hp : p ∈ m₀.targets) (hs : s ∈ ownPaths) :
    Follows m₀ (Manifest.spreadAlong (p ++ s) m) := by
  refine (spreadAlong_preserves (P := fun _ => True) ha h hp hs trivial ?_).1
  intros
  trivial

theorem KeptBut.spreadAlong {s : List Text} (h : m₀.KeptBut paths m) (ha : m₀.Aligned) (hf : Follows m₀ m)
    (hp : p ∈ m₀.targets) (hmem : p ∈ paths) (hs : s ∈ ownPaths) : m₀.KeptBut paths (Manifest.spreadAlong (p ++ s) m) := by
  unfold Manifest.spreadAlong
  split
  · exact h
  next x hx =>
  refine h.spread fun q hq g hg hxg y hy hne => ?_
  rw [hf.shared] at hg
  obtain ⟨es, hes⟩ := ha.same g hg
  have hx₀ := Entries.placeAlong?_of_grown (hf.grown.own hp hs) hx (hes x hxg)
  exact (hq p hmem).2 g hg s hs x hxg hx₀ y hy hne

/-- Spreading the maps of a resource reaches nothing outside of it. -/
theorem KeptBut.spreadResource (h : m₀.KeptBut paths m) (ha : m₀.Aligned) (hf : Follows m₀ m) (hp : p ∈ m₀.targets)
    (hmem : p ∈ paths) : m₀.KeptBut paths (m.spreadResource p) := by
  have hf₁ := hf.spreadAlong (s := []) ha hp (by decide)
  have hf₂ := hf₁.spreadAlong (s := [text "metadata"]) ha hp (by decide)
  have h₁ := h.spreadAlong (s := []) ha hf hp hmem (by decide)
  have h₂ := h₁.spreadAlong (s := [text "metadata"]) ha hf₁ hp hmem (by decide)
  exact h₂.spreadAlong (s := annotationsPath) ha hf₂ hp hmem (by decide)

end Manifest

end AnnotationCodec
