import AnnotationCodec.Proofs.Manifest.Sharing
import AnnotationCodec.Proofs.Value.Track

/-!
Maps that are found at several places of a manifest, seen along trails. What lies in such a map is found from each of its
places, and after spreading a map, the places that still hold one hold the same.
-/
namespace AnnotationCodec

namespace Entries

open Value (Replaced Tracked Tracks)

variable {es sub new : Entries} {x : Place} {q : Value.Trail} {path : List Text}

/-- A path of keys as a trail. -/
def trail (path : List Text) : Value.Trail :=
  path.map .key

theorem trail_append (path path' : List Text) : trail (path ++ path') = trail path ++ trail path' :=
  List.map_append

theorem part?_trail_iff : (Value.map es).part? (trail path) = some (.map sub) ↔ es.descend? path = some sub := by
  induction path generalizing es with
  | nil => simp [trail, Value.part?, descend?]
  | cons k path ih =>
    rw [trail, List.map_cons, Value.part?, descend?]
    cases es.get? k with
    | none => simp
    | some u =>
      cases u with
      | map inner => exact ih
      | _ => cases path <;> simp [Value.part?]

/-- On the way along keys to a map there are maps. -/
theorem look_trail_of_append {v : Value} {path' : List Text} (h : v.look (trail (path ++ path')) = some .map) :
    v.look (trail path) = some .map := by
  cases path' with
  | nil => rwa [List.append_nil] at h
  | cons k path' =>
    refine Value.look_eq_map_of_key (k := k) (r := trail path') ?_
    rw [trail_append] at h
    intro hnone
    rw [show trail (k :: path') = .key k :: trail path' from rfl, hnone] at h
    cases h

/-- The place of a path is that of its trail. -/
theorem trail_of_placeAlong? (h : Tracks x q (.map es)) (hx : es.placeAlong? path = some x) : q = trail path := by
  induction path generalizing es x q with
  | nil =>
    cases hx
    cases h
    rfl
  | cons k path ih =>
    obtain ⟨i, v, hi, hv, ⟨sub, z, rfl, hz, rfl⟩ | ⟨-, rfl, rfl⟩⟩ := placeAlong?_cons_eq_some hx
    · cases h with
      | key hj hu h =>
        obtain rfl := index?_inj hi hj
        obtain rfl := Option.some.inj (hv.symm.trans hu)
        rw [ih h hz]
        rfl
    · cases h with
      | key hj hu h =>
        obtain rfl := index?_inj hi hj
        cases h
        rfl

theorem placeAlong?_of_tracks (h : Tracks x (trail path) (.map es)) (hd : es.descend? path = some sub) :
    es.placeAlong? path = some x := by
  induction path generalizing es x with
  | nil =>
    cases h
    rfl
  | cons k path ih =>
    obtain ⟨inner, hg, hd⟩ := descend?_cons_eq_some hd
    cases h with
    | key hi hu h =>
      obtain rfl := Option.some.inj (hg.symm.trans hu)
      simp only [placeAlong?, hi, hg, ih h hd, Option.map_some]

/-- The map along a path is what its trail leads to. -/
theorem replaced_graft (hd : es.descend? path = some sub) (new : Entries) :
    Replaced (trail path) (.map new) (.map es) (.map (graft path new es)) := by
  induction path generalizing es with
  | nil => exact .nil _ _
  | cons k path ih =>
    obtain ⟨inner, hg, hd⟩ := descend?_cons_eq_some hd
    have hpart : (Value.map es).part? [.key k] = some (.map inner) := by
      rw [Value.part?, hg]
      rfl
    rw [graft, hg]
    exact Replaced.within hpart (ih hd) (.set k _ es)

theorem tracked_graft (hd : es.descend? path = some sub) (h : Tracked (.map sub) (.map new)) :
    Tracked (.map es) (.map (graft path new es)) := by
  induction path generalizing es with
  | nil =>
    cases hd
    exact h
  | cons k path ih =>
    obtain ⟨inner, hg, hd⟩ := descend?_cons_eq_some hd
    rw [graft, hg]
    refine Tracked.set fun c hc => ?_
    obtain rfl := Option.some.inj (hg.symm.trans hc)
    exact ih hd

end Entries

namespace Manifest

open Value (Tracks Trail)

/-- Two places of the same map. -/
def Together (m : Manifest) (x y : Place) : Prop :=
  ∃ g ∈ m.shared, x ∈ g ∧ y ∈ g

/-- The places that are listed are those of maps with more than one: they hold the same map, no other place belongs to some
of them only, and the maps in it have a place from each of them. -/
structure IsGraph (m : Manifest) : Prop where
  same : ∀ g ∈ m.shared, ∃ es, ∀ x ∈ g, m.toValue.at? x = some (.map es)
  trans : ∀ x y z, m.Together x y → m.Together x z → m.Together y z
  inner : ∀ x y s es, m.Together x y → m.toValue.at? (x ++ s) = some (.map es) → m.Together (x ++ s) (y ++ s)

/-- Two trails to the same map. -/
def Twins (m : Manifest) (a b : Trail) : Prop :=
  ∃ x y, m.Together x y ∧ Tracks x a m.toValue ∧ Tracks y b m.toValue

/-- A trail that leads to where another one leads: it is the same, or it parts from it on the way to a map that both lead
through. -/
def Home (m : Manifest) (a q : Trail) : Prop :=
  q = a ∨ ∃ b c s, m.Twins b c ∧ a = b ++ s ∧ q = c ++ s

variable {m : Manifest} {x y z : Place} {a b c q s : Trail} {u v : Value} {es : Entries}

theorem Together.symm (h : m.Together x y) : m.Together y x := by
  obtain ⟨g, hg, hx, hy⟩ := h
  exact ⟨g, hg, hy, hx⟩

theorem IsGraph.exists_map (h : m.IsGraph) (hxy : m.Together x y) :
    ∃ es, m.toValue.at? x = some (.map es) ∧ m.toValue.at? y = some (.map es) := by
  obtain ⟨g, hg, hx, hy⟩ := hxy
  obtain ⟨es, hes⟩ := h.same g hg
  exact ⟨es, hes x hx, hes y hy⟩

theorem IsGraph.not_prefix (h : m.IsGraph) (hxy : m.Together x y) (hne : x ≠ y) : ¬ x <+: y := by
  obtain ⟨es, hx, hy⟩ := h.exists_map hxy
  exact Value.not_prefix_of_at? hx hy hne

theorem Twins.symm (h : m.Twins a b) : m.Twins b a := by
  obtain ⟨x, y, hxy, hx, hy⟩ := h
  exact ⟨y, x, hxy.symm, hy, hx⟩

theorem Twins.exists_map (h : m.IsGraph) (hab : m.Twins a b) :
    ∃ es, m.toValue.part? a = some (.map es) ∧ m.toValue.part? b = some (.map es) := by
  obtain ⟨x, y, hxy, hx, hy⟩ := hab
  obtain ⟨es, hes, hes'⟩ := h.exists_map hxy
  exact ⟨es, hx.at?_eq.symm.trans hes, hy.at?_eq.symm.trans hes'⟩

/-- The same is seen behind trails to the same map. -/
theorem Twins.look_eq (h : m.IsGraph) (hab : m.Twins a b) (s : Trail) : m.toValue.look (a ++ s) = m.toValue.look (b ++ s) := by
  obtain ⟨es, ha, hb⟩ := hab.exists_map h
  rw [Value.look_append ha, Value.look_append hb]

theorem Twins.look_eq_map (h : m.IsGraph) (hab : m.Twins a b) : m.toValue.look a = some .map := by
  obtain ⟨es, ha, -⟩ := hab.exists_map h
  exact Value.look_eq_map_iff.mpr ⟨es, ha⟩

theorem Twins.trans (h : m.IsGraph) (hab : m.Twins a b) (hac : m.Twins a c) : m.Twins b c := by
  obtain ⟨es, ha, -⟩ := hab.exists_map h
  obtain ⟨x, y, hxy, hx, hy⟩ := hab
  obtain ⟨x', z, hxz, hx', hz⟩ := hac
  obtain rfl := hx.eq_of_part? hx' ha
  exact ⟨y, z, h.trans x y z hxy hxz, hy, hz⟩

/-- A map inside of one that two trails lead to is found from both. -/
theorem Twins.inner (h : m.IsGraph) (hab : m.Twins a b) (hs : m.toValue.look (a ++ s) = some .map) : m.Twins (a ++ s) (b ++ s) := by
  obtain ⟨es, ha, hb⟩ := hab.exists_map h
  obtain ⟨x, y, hxy, hx, hy⟩ := hab
  obtain ⟨sub, hsub⟩ := Value.look_eq_map_iff.mp hs
  rw [Value.part?_append, ha, Option.bind_some] at hsub
  obtain ⟨z, hz⟩ := Value.exists_place hsub
  rw [← hx.at?_eq] at ha
  rw [← hy.at?_eq] at hb
  refine ⟨x ++ z, y ++ z, h.inner x y z sub hxy ?_, (hx.append_iff ha).mpr hz, (hy.append_iff hb).mpr hz⟩
  rw [Value.at?_append, ha, Option.bind_some, hz.at?_eq, hsub]

/-- A map is not found again inside of itself. -/
theorem Twins.not_prefix (h : m.IsGraph) (hab : m.Twins a b) (hne : a ≠ b) : ¬ a <+: b := by
  rintro ⟨s, rfl⟩
  obtain ⟨es, ha, hb⟩ := hab.exists_map h
  rw [Value.part?_append, ha, Option.bind_some] at hb
  obtain ⟨z, hz⟩ := Value.exists_place hb
  obtain rfl := Value.eq_nil_of_at? (hz.at?_eq.trans hb) (Nat.le_refl _)
  cases hz
  exact hne a.append_nil.symm

namespace Home

theorem refl (m : Manifest) (a : Trail) : m.Home a a :=
  .inl rfl

theorem append (h : m.Home a q) (s : Trail) : m.Home (a ++ s) (q ++ s) := by
  obtain rfl | ⟨b, c, t, hbc, rfl, rfl⟩ := h
  · exact .inl rfl
  · exact .inr ⟨b, c, t ++ s, hbc, List.append_assoc .., List.append_assoc ..⟩

/-- Through another place of a map on the way, a trail still leads where it led. -/
theorem twin (h : m.IsGraph) (hq : m.Home a (b ++ s)) (hbc : m.Twins b c) : m.Home a (c ++ s) := by
  obtain rfl | ⟨d, e, t, hde, rfl, heq⟩ := hq
  · exact .inr ⟨b, c, s, hbc, rfl, rfl⟩
  -- Of the two maps on the way, the outer one has the inner one inside.
  obtain ⟨r, rfl, rfl⟩ | ⟨r, rfl, rfl⟩ := List.append_eq_append_iff.mp heq
  · have hin : m.Twins (b ++ r) (c ++ r) := hbc.inner h (hde.symm.look_eq_map h)
    have hd : m.Twins d (c ++ r) := Twins.trans h hde.symm hin
    exact .inr ⟨d, c ++ r, t, hd, rfl, (List.append_assoc ..).symm⟩
  · have hin : m.Twins (e ++ r) (d ++ r) := hde.symm.inner h (hbc.look_eq_map h)
    have hd : m.Twins (d ++ r) c := Twins.trans h hin hbc
    exact .inr ⟨d ++ r, c, s, hd, (List.append_assoc ..).symm, rfl⟩

/-- Trails that lead to the same that is no map end in the same step. -/
theorem getLast?_eq (h : m.IsGraph) (hq : m.Home a q) (hmap : m.toValue.look q ≠ some .map) : q.getLast? = a.getLast? := by
  obtain rfl | ⟨b, c, t, hbc, rfl, rfl⟩ := hq
  · rfl
  have ht : t ≠ [] := by
    rintro rfl
    rw [List.append_nil] at hmap
    exact hmap (hbc.symm.look_eq_map h)
  rw [List.getLast?_append_of_ne_nil _ ht, List.getLast?_append_of_ne_nil _ ht]

end Home

/-! Spreading -/

/-- What each step of a fold makes hold for its element, and no step takes away, holds of all elements in the end. -/
theorem foldl_reaches {α β γ : Type} {f : β → α → β} {P : β → Prop} {Q : γ → β → Prop} {R : α → γ → Prop} {l : List α} {s : β}
    (hs : P s) (hstep : ∀ a ∈ l, ∀ s, P s → P (f s a) ∧ (∀ c, R a c → Q c (f s a)) ∧ ∀ c, Q c s → Q c (f s a)) :
    P (l.foldl f s) ∧ (∀ c, Q c s → Q c (l.foldl f s)) ∧ ∀ a ∈ l, ∀ c, R a c → Q c (l.foldl f s) := by
  induction l generalizing s with
  | nil => exact ⟨hs, fun _ h => h, fun a ha => absurd ha List.not_mem_nil⟩
  | cons a l ih =>
    rw [List.forall_mem_cons] at hstep
    obtain ⟨hnext, hmeets, hkeeps⟩ := hstep.1 s hs
    obtain ⟨hend, hkept, hall⟩ := ih hnext hstep.2
    refine ⟨hend, fun c hc => hkept c (hkeeps c hc), List.forall_mem_cons.mpr ⟨fun c hc => ?_, hall⟩⟩
    exact hkept c (hmeets c hc)

/-- A place that still holds a map holds what is at `x`. -/
def Agrees (x y : Place) (v : Value) : Prop :=
  ∀ old, v.at? y = some (.map old) → v.at? x = some (.map old)

section

variable {P : Value → Prop} {g : List Place}
  (hapart : ∀ y z, m.Together x y → m.Together x z → y ≠ z → ¬ y <+: z)
  (hput : ∀ y, m.Together x y → y ≠ x → ∀ v u old, P v → v.at? x = some u → v.at? y = some (.map old) → P (Value.putAt y u v))

include hapart hput

/-- A map that is copied to another place is there, and the places that agreed with it still do. -/
theorem agrees_putAt (hxy : m.Together x y) (hne : y ≠ x) {old : Entries} (hv : P v) (hu : v.at? x = some u)
    (hold : v.at? y = some (.map old)) : P (Value.putAt y u v) ∧ (Value.putAt y u v).at? x = some u ∧
      Agrees x y (Value.putAt y u v) ∧ ∀ z, m.Together x z → Agrees x z v → Agrees x z (Value.putAt y u v) := by
  have hxx : m.Together x x := by
    obtain ⟨g, hg, hx, -⟩ := hxy
    exact ⟨g, hg, hx, hx⟩
  have hx : (Value.putAt y u v).at? x = some u := by
    rw [Value.at?_putAt_of_not_prefix (hapart x y hxx hxy hne.symm) (hapart y x hxy hxx hne), hu]
  have hy : (Value.putAt y u v).at? y = some u := Value.at?_putAt_self hold u
  have hown : Agrees x y (Value.putAt y u v) := by
    intro old hold
    rw [hx, ← hy, hold]
  refine ⟨hput y hxy hne v u old hv hu hold, hx, hown, fun z hxz hz => ?_⟩
  by_cases hzy : z = y
  · subst hzy
    exact hown
  · intro old hold
    rw [Value.at?_putAt_of_not_prefix (hapart z y hxz hxy hzy) (hapart y z hxy hxz (Ne.symm hzy))] at hold
    rw [hx, ← hu]
    exact hz old hold

theorem agrees_copyTo (hg : g ∈ m.shared) (hxg : x ∈ g) (hv : P v) (hu : v.at? x = some u) :
    (P (v.copyTo x g) ∧ (v.copyTo x g).at? x = some u) ∧
      (∀ y, (m.Together x y → Agrees x y v) → m.Together x y → Agrees x y (v.copyTo x g)) ∧
      ∀ y ∈ g, ∀ z, y = z → m.Together x z → Agrees x z (v.copyTo x g) := by
  rw [Value.copyTo, hu]
  refine foldl_reaches (P := fun w : Value => P w ∧ w.at? x = some u) (Q := fun z w => m.Together x z → Agrees x z w)
    (R := fun y z => y = z) ⟨hv, hu⟩ ?_
  rintro y hy w ⟨hw, hwu⟩
  have hxy : m.Together x y := ⟨g, hg, hxg, hy⟩
  split
  · next old hold =>
    split
    · next heq =>
      subst heq
      exact ⟨⟨hw, hwu⟩, fun z hz _ old hold => hz ▸ hold, fun z hz => hz⟩
    · next hne =>
      obtain ⟨hput, hx, hown, hothers⟩ := agrees_putAt hapart hput hxy hne hw hwu hold
      exact ⟨⟨hput, hx⟩, fun z hz _ => hz ▸ hown, fun z hz hxz => hothers z hxz (hz hxz)⟩
  · next hdead => exact ⟨⟨hw, hwu⟩, fun z hz _ old hold => absurd (hz ▸ hold) (hdead old), fun z hz => hz⟩

/-- After spreading, every place of the map that still holds one agrees with it. -/
theorem agrees_spread (hmap : ∀ v, P v → ∃ es, v = .map es) (hm : P m.toValue) (hu : m.toValue.at? x = some u) :
    (P (m.spread x).toValue ∧ (m.spread x).toValue.at? x = some u ∧ (m.spread x).shared = m.shared ∧
      (m.spread x).endless = m.endless) ∧ ∀ y, m.Together x y → Agrees x y (m.spread x).toValue := by
  have hfold : (P (m.spread x).toValue ∧ (m.spread x).toValue.at? x = some u ∧ (m.spread x).shared = m.shared ∧
      (m.spread x).endless = m.endless) ∧
      (∀ y, (m.Together x y → Agrees x y m.toValue) → m.Together x y → Agrees x y (m.spread x).toValue) ∧
      ∀ g ∈ m.shared, ∀ y, x ∈ g ∧ y ∈ g → m.Together x y → Agrees x y (m.spread x).toValue := by
    refine foldl_reaches (P := fun m' : Manifest => P m'.toValue ∧ m'.toValue.at? x = some u ∧ m'.shared = m.shared ∧
      m'.endless = m.endless) (Q := fun y m' => m.Together x y → Agrees x y m'.toValue) (R := fun g y => x ∈ g ∧ y ∈ g)
      ⟨hm, hu, rfl, rfl⟩ ?_
    rintro g hg m' ⟨hv, hu', hshared, hendless⟩
    by_cases hxg : g.contains x = true
    · rw [if_pos hxg]
      rw [List.contains_iff_mem] at hxg
      obtain ⟨⟨hcopied, hx⟩, hkept, hall⟩ := agrees_copyTo hapart hput hg hxg hv hu'
      obtain ⟨es, hes⟩ := hmap _ hcopied
      rw [hes] at hcopied hx hkept hall ⊢
      exact ⟨⟨hcopied, hx, hshared, hendless⟩, fun y hy => hall y hy.2 y rfl, hkept⟩
    · rw [if_neg hxg]
      exact ⟨⟨hv, hu', hshared, hendless⟩, fun y hy => absurd (List.contains_iff_mem.mpr hy.1) hxg, fun y hy => hy⟩
  refine ⟨hfold.1, fun y hxy => ?_⟩
  obtain ⟨g, hg, hx, hy⟩ := hxy
  exact hfold.2.2 g hg y ⟨hx, hy⟩ ⟨g, hg, hx, hy⟩

end

/-- If all places of a map hold maps, and none of them lies in another one, they hold the same after spreading. -/
theorem at?_spread (hapart : ∀ y z, m.Together x y → m.Together x z → y ≠ z → ¬ y <+: z)
    (hmaps : ∀ y, m.Together x y → ∃ sub, m.toValue.at? y = some (.map sub)) (hx : m.toValue.at? x = some (.map es))
    (hxy : m.Together x y) : (m.spread x).toValue.at? y = some (.map es) := by
  have hself : ∀ z, m.Together x z → m.Together x x := fun z ⟨g, hg, hx, _⟩ => ⟨g, hg, hx, hx⟩
  have hspread := agrees_spread (m := m) (x := x) (P := fun v => (∃ es, v = .map es) ∧
      ∀ z, m.Together x z → ∃ sub, v.at? z = some (.map sub)) hapart ?_ (fun v hv => hv.1) ⟨⟨_, rfl⟩, hmaps⟩ hx
  · obtain ⟨⟨⟨-, hmaps'⟩, hx', -⟩, hagrees⟩ := hspread
    obtain ⟨sub, hsub⟩ := hmaps' y hxy
    rw [hsub, ← hagrees y hxy sub hsub, hx']
  · rintro z hz hne v u old ⟨⟨vs, rfl⟩, hv⟩ hu hold
    obtain ⟨sub, hsub⟩ := hv x (hself z hz)
    obtain rfl := Option.some.inj (hsub.symm.trans hu)
    constructor
    · by_cases hnil : z = []
      · exact ⟨sub, by rw [hnil, Value.putAt]⟩
      · exact (Entries.exists_putAt_eq_map_iff hnil _).mpr ⟨vs, rfl⟩
    · intro z' hz'
      by_cases heq : z' = z
      · exact ⟨sub, by rw [heq, Value.at?_putAt_self hold]⟩
      · rw [Value.at?_putAt_of_not_prefix (hapart z' z hz' hz heq) (hapart z z' hz hz' (Ne.symm heq))]
        exact hv z' hz'

end Manifest

end AnnotationCodec
