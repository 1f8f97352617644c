import AnnotationCodec.Proofs.Value.Place
import Mathlib.Data.List.Infix

/-!
Changes off a path. What is put at a place off a path does not show along it, and while a value grows along a path,
places that are off it stay off it.
-/
namespace AnnotationCodec.Value

/-- A place lies off a path if it is neither on the way along the path nor beyond its end. -/
def Off : List Text → Place → Value → Prop
  | k :: w, i :: y, .map es => Entries.index? es k = some i → ∀ v, Entries.get? k es = some v → Off w y v
  | _ :: _, _ :: _, _ => True
  | _, _, _ => False

/-- A value grows along a path: the keys of the maps on the way keep their numbers, new ones come behind them, and what
is neither null nor a map does not become either. No other keys than those in `made` come new or get a map. -/
def Grown (made : List Text) : List Text → Value → Value → Prop
  | [], _, _ => True
  | k :: w, .map es, v' => ∃ es', v' = .map es' ∧ Entries.Keeps k es es' ∧ (k ∉ made → Entries.Rests k es es') ∧
      ∀ v, Entries.get? k es = some v → ∃ u, Entries.get? k es' = some u ∧ Grown made w v u
  | _ :: _, .null, _ => True
  | _ :: _, _, v' => v' ≠ .null ∧ ∀ es', v' ≠ .map es'

variable {made w r : List Text} {k : Text} {v v' v'' u : Value} {x y : Place} {i : Nat} {es es' sub : Entries}

theorem off_cons_iff : Off (k :: w) (i :: y) (.map es) ↔
    (es.index? k = some i → ∀ v, es.get? k = some v → Off w y v) :=
  Iff.rfl

theorem off_of_not_map (h : ∀ es, v ≠ .map es) : Off (k :: w) (i :: y) v := by
  cases v with
  | map es => exact (h es rfl).elim
  | _ => trivial

theorem not_off_nil (w : List Text) (v : Value) : ¬ Off w [] v := by
  cases w <;> cases v <;> exact id

theorem not_nil_off (y : Place) (v : Value) : ¬ Off [] y v := by
  cases y <;> cases v <;> exact id

/-- A place that is off a path is off every longer one. -/
theorem Off.append (h : Off w y v) (r : List Text) : Off (w ++ r) y v := by
  induction w generalizing y v with
  | nil => exact (not_nil_off y v h).elim
  | cons k w ih =>
    cases y with
    | nil => exact (not_off_nil _ v h).elim
    | cons i y =>
      cases v with
      | map es =>
        rw [List.cons_append, off_cons_iff]
        intro hi u hu
        exact ih (off_cons_iff.mp h hi u hu)
      | _ => exact off_of_not_map (by simp)

namespace Grown

theorem nil (made : List Text) (v v' : Value) : Grown made [] v v' := by
  cases v <;> trivial

theorem cons_map_iff : Grown made (k :: w) (.map es) (.map es') ↔
    Entries.Keeps k es es' ∧ (k ∉ made → Entries.Rests k es es') ∧
      ∀ v, es.get? k = some v → ∃ u, es'.get? k = some u ∧ Grown made w v u := by
  constructor
  · rintro ⟨_, ⟨⟩, h⟩
    exact h
  · exact fun h => ⟨es', rfl, h⟩

theorem of_not_map (hv : ∀ es, v ≠ .map es) (hv' : v' ≠ .null ∧ ∀ es', v' ≠ .map es') : Grown made w v v' := by
  cases w with
  | nil => exact nil made v v'
  | cons k w =>
    cases v with
    | null => trivial
    | map es => exact (hv es rfl).elim
    | _ => exact hv'

theorem of_null (made w : List Text) (v' : Value) : Grown made w .null v' := by
  cases w <;> trivial

theorem refl (made w : List Text) (v : Value) : Grown made w v v := by
  induction w generalizing v with
  | nil => exact nil made v v
  | cons k w ih =>
    cases v with
    | map es => exact cons_map_iff.mpr ⟨.refl k es, fun _ => .refl k es, fun v hv => ⟨v, hv, ih v⟩⟩
    | null => exact of_null _ _ _
    | _ => exact of_not_map (by simp) (by simp)

theorem trans (h : Grown made w v v') (h' : Grown made w v' v'') : Grown made w v v'' := by
  induction w generalizing v v' v'' with
  | nil => exact nil made v v''
  | cons k w ih =>
    cases v with
    | map es =>
      obtain ⟨es', rfl, hk, hrests, hsub⟩ := h
      obtain ⟨es'', rfl, hk', hrests', hsub'⟩ := h'
      refine cons_map_iff.mpr ⟨hk.trans hk', fun hmade => (hrests hmade).trans (hrests' hmade), fun v hv => ?_⟩
      obtain ⟨v', hv', hg⟩ := hsub v hv
      obtain ⟨v'', hv'', hg'⟩ := hsub' v' hv'
      exact ⟨v'', hv'', ih hg hg'⟩
    | null => exact of_null _ _ _
    | _ =>
      obtain ⟨hnull, hmap⟩ := h
      refine of_not_map (by simp) ?_
      cases v' with
      | null => exact (hnull rfl).elim
      | map es => exact (hmap es rfl).elim
      | _ => exact h'

/-- A value that grows along a path grows along the way. -/
theorem of_append (h : Grown made (w ++ r) v v') : Grown made w v v' := by
  induction w generalizing v v' with
  | nil => exact nil made v v'
  | cons k w ih =>
    cases v with
    | map es =>
      obtain ⟨es', rfl, hk, hrests, hsub⟩ := h
      refine cons_map_iff.mpr ⟨hk, hrests, fun v hv => ?_⟩
      obtain ⟨u, hu, hg⟩ := hsub v hv
      exact ⟨u, hu, ih hg⟩
    | null => exact of_null _ _ _
    | _ => exact of_not_map (by simp) h

/-- Setting a key grows a map along every path, if it does so at the key. -/
theorem set (h : ∀ r, w = k :: r → (k ∉ made → Entries.Rests k es (es.set k v)) ∧
    ∀ u, es.get? k = some u → Grown made r u v) : Grown made w (.map es) (.map (es.set k v)) := by
  cases w with
  | nil => exact nil made _ _
  | cons j r =>
    by_cases hj : j = k
    · subst hj
      obtain ⟨hrests, hsub⟩ := h r rfl
      refine cons_map_iff.mpr ⟨Entries.keeps_set j j v es, hrests, fun u hu => ?_⟩
      exact ⟨v, Entries.get?_set_self j v es, hsub u hu⟩
    · refine cons_map_iff.mpr ⟨Entries.keeps_set j k v es, fun _ => .set hj v es, fun u hu => ?_⟩
      exact ⟨u, (Entries.get?_set_of_ne hj v es).trans hu, refl made r u⟩

end Grown

/-- A place that is off a path stays off it while the value grows. -/
theorem Off.grown (h : Off w y v) (hy : (v.at? y).isSome) (hg : Grown made w v v') : Off w y v' := by
  induction w generalizing y v v' with
  | nil => exact (not_nil_off y v h).elim
  | cons k w ih =>
    cases y with
    | nil => exact (not_off_nil _ v h).elim
    | cons i y =>
      cases v with
      | map es =>
        obtain ⟨es', rfl, hk, -, hsub⟩ := hg
        obtain ⟨u, hu⟩ := Option.isSome_iff_exists.mp hy
        obtain ⟨c, hc, hcu⟩ := Option.bind_eq_some_iff.mp hu
        have hlt : i < es.length := by
          simpa [children] using (List.getElem?_eq_some_iff.mp hc).1
        refine off_cons_iff.mpr fun hi u' hu' => ?_
        have hold := hk.index?_of_lt hi hlt
        obtain ⟨b, hb, hbc⟩ := Entries.exists_get?_of_index? hold
        rw [hc] at hbc
        obtain rfl := Option.some.inj hbc
        obtain ⟨b', hb', hgb⟩ := hsub c hb
        rw [hu'] at hb'
        obtain rfl := Option.some.inj hb'
        exact ih (off_cons_iff.mp h hold c hb) (by rw [hcu]; rfl) hgb
      | null => simp [at?, children] at hy
      | _ => exact off_of_not_map hg.2

end AnnotationCodec.Value

namespace AnnotationCodec.Entries

open Value (Off Grown)

variable {made w q : List Text} {k : Text} {c u v : Value} {x y : Place} {i : Nat} {es es' sub new : Entries}

theorem placeAlong?_cons_eq_some (h : es.placeAlong? (k :: w) = some x) : ∃ i v, es.index? k = some i ∧
    es.get? k = some v ∧ ((∃ sub z, v = .map sub ∧ placeAlong? w sub = some z ∧ x = i :: z) ∨
      ((∀ sub, v ≠ .map sub) ∧ w = [] ∧ x = [i])) := by
  rw [placeAlong?] at h
  split at h
  · next i sub hi hsub =>
    obtain ⟨z, hz, rfl⟩ := Option.map_eq_some_iff.mp h
    exact ⟨i, .map sub, hi, hsub, .inl ⟨sub, z, rfl, hz, rfl⟩⟩
  · next i v hv hi hget =>
    split at h
    · next hw =>
      obtain rfl := List.isEmpty_iff.mp hw
      exact ⟨i, v, hi, hget, .inr ⟨fun sub hsub => hv sub hsub, rfl, (Option.some.inj h).symm⟩⟩
    · cases h
  · cases h

/-- The place of a path, if there is a map, is the one it had before the value grew. -/
theorem placeAlong?_of_grown (hg : Grown made w (.map es) (.map es')) (hx : es'.placeAlong? w = some x)
    (hmap : (Value.map es).at? x = some (.map sub)) : es.placeAlong? w = some x := by
  induction w generalizing es es' x with
  | nil => exact hx
  | cons k w ih =>
    obtain ⟨hk, -, hsub⟩ := Grown.cons_map_iff.mp hg
    obtain ⟨i, v', hi, hv', hx⟩ := placeAlong?_cons_eq_some hx
    have hhead : ∃ z, x = i :: z := by
      rcases hx with ⟨_, z, -, -, rfl⟩ | ⟨-, -, rfl⟩
      · exact ⟨z, rfl⟩
      · exact ⟨[], rfl⟩
    obtain ⟨z, rfl⟩ := hhead
    obtain ⟨c, hc, hcz⟩ := Option.bind_eq_some_iff.mp hmap
    have hlt : i < es.length := by
      simpa [Value.children] using (List.getElem?_eq_some_iff.mp hc).1
    have hold := hk.index?_of_lt hi hlt
    obtain ⟨v, hv, hvc⟩ := exists_get?_of_index? hold
    rw [hc] at hvc
    obtain rfl := Option.some.inj hvc
    obtain ⟨u, hu, hgu⟩ := hsub c hv
    rw [hv'] at hu
    obtain rfl := Option.some.inj hu
    rcases hx with ⟨sub', z', rfl, hz, heq⟩ | ⟨-, rfl, heq⟩
    · obtain rfl := (List.cons.inj heq).2
      cases c with
      | map inner => simp only [placeAlong?, hold, hv, ih hgu hz hcz, Option.map_some]
      | _ =>
        cases w with
        | nil =>
          cases hz
          cases hcz
        | cons k' w =>
          first
          | exact (hgu.2 sub' rfl).elim
          | cases z <;> simp [Value.at?, Value.children] at hcz
    · obtain rfl := (List.cons.inj heq).2
      cases hcz
      simp only [placeAlong?, hold, hv, Option.map_some]

/-- The map at the place of a path is the one that the path leads to. -/
theorem descend?_of_placeAlong? (hx : es.placeAlong? w = some x) (hmap : (Value.map es).at? x = some (.map sub)) :
    es.descend? w = some sub := by
  induction w generalizing es x with
  | nil =>
    cases hx
    cases hmap
    rfl
  | cons k w ih =>
    obtain ⟨i, v, hi, hv, hx⟩ := placeAlong?_cons_eq_some hx
    obtain ⟨v', hv', hchild⟩ := exists_get?_of_index? hi
    rw [hv] at hv'
    obtain rfl := Option.some.inj hv'
    rcases hx with ⟨inner, z, rfl, hz, rfl⟩ | ⟨hother, rfl, rfl⟩
    · rw [Value.at?, hchild, Option.bind_some] at hmap
      rw [descend?, hv]
      exact ih hz hmap
    · rw [Value.at?, hchild, Option.bind_some] at hmap
      cases hmap
      exact (hother sub rfl).elim

/-- On the way of a path that has a place there are maps. -/
theorem isSome_descend?_of_placeAlong? (hx : es.placeAlong? (w ++ k :: q) = some x) : (es.descend? w).isSome := by
  induction w generalizing es x with
  | nil => rfl
  | cons j w ih =>
    obtain ⟨i, v, -, hv, hx⟩ := placeAlong?_cons_eq_some hx
    rcases hx with ⟨sub, z, rfl, hz, -⟩ | ⟨-, hnil, -⟩
    · rw [descend?, hv]
      exact ih hz
    · simp at hnil

/-- A place that neither lies inside the place of a path nor holds it is off the path. -/
theorem off_of_placeAlong? (hx : es.placeAlong? w = some x) (hxy : ¬ x <+: y) (hyx : ¬ y <+: x) :
    Off w y (.map es) := by
  induction w generalizing es x y with
  | nil =>
    cases hx
    exact (hxy y.nil_prefix).elim
  | cons k w ih =>
    obtain ⟨i, v, hi, hv, hx⟩ := placeAlong?_cons_eq_some hx
    cases y with
    | nil => exact (hyx x.nil_prefix).elim
    | cons j y =>
      refine Value.off_cons_iff.mpr fun hj u hu => ?_
      rw [hi] at hj
      obtain rfl := Option.some.inj hj
      rw [hv] at hu
      obtain rfl := Option.some.inj hu
      rcases hx with ⟨sub, z, rfl, hz, rfl⟩ | ⟨-, -, rfl⟩
      · refine ih hz (fun h => hxy ?_) fun h => hyx ?_
        · exact (List.prefix_cons_inj i).mpr h
        · exact (List.prefix_cons_inj i).mpr h
      · exact (hxy ((List.prefix_cons_inj i).mpr y.nil_prefix)).elim

theorem putAt_map (hc : (Value.map es).children[i]? = some c) (y : Place) (u : Value) :
    Value.putAt (i :: y) u (.map es) = .map (es.modify i fun e => (e.1, Value.putAt y u c)) := by
  rw [Value.putAt, hc]
  rfl

/-- Setting a key that is there replaces the value of its entry. -/
theorem set_eq_modify (hi : es.index? k = some i) (u : Value) : es.set k u = es.modify i fun e => (e.1, u) := by
  induction es generalizing i with
  | nil => cases hi
  | cons e es ih =>
    obtain ⟨key, v⟩ := e
    by_cases hkey : key = .str k
    · rw [hkey, index?_cons_self] at hi
      obtain rfl := Option.some.inj hi
      rw [hkey, set_cons_self]
      rfl
    · rw [index?_cons_of_ne hkey] at hi
      obtain ⟨j, hj, rfl⟩ := Option.map_eq_some_iff.mp hi
      rw [set_cons_of_ne hkey, ih hj, List.modify_succ_cons]

theorem putAt_of_index? (hi : es.index? k = some i) (u : Value) : Value.putAt [i] u (.map es) = .map (es.set k u) := by
  obtain ⟨c, -, hc⟩ := exists_get?_of_index? hi
  rw [putAt_map hc, set_eq_modify hi]
  rfl
theorem keys_modify (es : Entries) (i : Nat) (u : Value) :
    (es.modify i fun e => (e.1, u)).map Prod.fst = es.map Prod.fst := by
  refine List.ext_getElem? fun j => ?_
  simp only [List.getElem?_map, List.getElem?_modify]
  cases es[j]? <;> split <;> rfl

theorem get?_modify (k : Text) (es : Entries) (i : Nat) (u : Value) :
    get? k (es.modify i fun e => (e.1, u)) = if es.index? k = some i then some u else es.get? k := by
  have hchildren : ∀ j, (Value.map (es.modify i fun e => (e.1, u))).children[j]? =
      (Value.map es).children[j]?.map fun v => if i = j then u else v := by
    intro j
    simp only [Value.children, List.getElem?_map, List.getElem?_modify]
    cases es[j]? <;> split <;> rfl
  rw [get?_eq_index?, index?_congr (keys_modify es i u)]
  cases hj : es.index? k with
  | none => simp [get?_of_index?_eq_none hj]
  | some j =>
    obtain ⟨v, hv, hchild⟩ := exists_get?_of_index? hj
    rw [Option.bind_some, hchildren, hchild, hv]
    by_cases hij : i = j
    · simp [hij]
    · simp [hij, Ne.symm hij]

/-- What is put somewhere inside another value than a map makes no map of it. -/
theorem putAt_ne_map (hv : ∀ sub, v ≠ .map sub) (hy : y ≠ []) (u : Value) (sub : Entries) :
    Value.putAt y u v ≠ .map sub := by
  cases y with
  | nil => exact (hy rfl).elim
  | cons i y =>
    rw [Value.putAt]
    split
    · exact hv sub
    · cases v <;> simp_all [Value.setChild]

theorem putAt_ne_null (hv : v ≠ .null) (hy : y ≠ []) (u : Value) : Value.putAt y u v ≠ .null := by
  cases y with
  | nil => exact (hy rfl).elim
  | cons i y =>
    rw [Value.putAt]
    split
    · exact hv
    · cases v <;> simp_all [Value.setChild]

theorem exists_putAt_eq_map_iff (hy : y ≠ []) (u : Value) :
    (∃ sub, Value.putAt y u v = .map sub) ↔ ∃ sub, v = .map sub := by
  constructor
  · intro h
    by_contra hv
    exact putAt_ne_map (not_exists.mp hv) hy u _ h.choose_spec
  · rintro ⟨es, rfl⟩
    cases y with
    | nil => exact (hy rfl).elim
    | cons i y =>
      rw [Value.putAt]
      split
      · exact ⟨es, rfl⟩
      · exact ⟨_, rfl⟩

/-- A map that is put at a place where one was lets the value grow along a path, if on the way the path leads to the
place and the new map has grown from the old one along what is left of the path. -/
theorem grown_putAt (hg : Grown made w v v') (hy : v.at? y = some (.map sub))
    (h : ∀ es : Entries, v = .map es → ∀ w₁ w₂, w = w₁ ++ w₂ → es.placeAlong? w₁ = some y →
      Grown made w₂ (.map sub) (.map new)) :
    Grown made w v (Value.putAt y (.map new) v') := by
  induction w generalizing v v' y with
  | nil => exact .nil made v _
  | cons k w ih =>
    cases y with
    | nil =>
      cases hy
      exact h sub rfl [] (k :: w) rfl rfl
    | cons i y =>
      cases v with
      | null => exact .of_null made _ _
      | map es =>
        obtain ⟨es', rfl, hk, hrests, hsub⟩ := hg
        obtain ⟨c, hc, hcy⟩ := Option.bind_eq_some_iff.mp hy
        have hlt : i < es.length := by
          simpa [Value.children] using (List.getElem?_eq_some_iff.mp hc).1
        cases hc' : (Value.map es').children[i]? with
        | none =>
          rw [Value.putAt, hc']
          exact Grown.cons_map_iff.mpr ⟨hk, hrests, hsub⟩
        | some c' =>
          rw [putAt_map hc']
          have hkeys := keys_modify es' i (Value.putAt y (.map new) c')
          have hindex := index?_congr hkeys k
          refine Grown.cons_map_iff.mpr ⟨hk.trans (.of_keys hkeys.symm), ?_⟩
          rw [get?_modify]
          by_cases hi : index? es' k = some i
          · have hold := hk.index?_of_lt hi hlt
            obtain ⟨_, hv, hchild⟩ := exists_get?_of_index? hold
            obtain rfl := Option.some.inj (hchild.symm.trans hc)
            obtain ⟨_, hu, hchild'⟩ := exists_get?_of_index? hi
            obtain rfl := Option.some.inj (hchild'.symm.trans hc')
            rw [if_pos hi]
            constructor
            · intro hmade
              have hmap := (hrests hmade).map
              refine ⟨hindex.trans (hrests hmade).index, ?_⟩
              rw [get?_modify, if_pos hi, hv]
              rw [hu, hv] at hmap
              cases y with
              | nil =>
                cases hcy
                simp [Value.putAt]
              | cons j y => simpa [exists_putAt_eq_map_iff] using hmap
            · intro v hv'
              obtain rfl := Option.some.inj (hv.symm.trans hv')
              obtain ⟨_, hu', hg⟩ := hsub _ hv
              obtain rfl := Option.some.inj (hu.symm.trans hu')
              refine ⟨_, rfl, ih hg hcy ?_⟩
              rintro inner rfl w₁ w₂ rfl hplace
              refine h es rfl (k :: w₁) w₂ rfl ?_
              simp only [placeAlong?, hold, hv, hplace, Option.map_some]
          · rw [if_neg hi]
            refine ⟨fun hmade => (hrests hmade).trans ⟨hindex, ?_⟩, hsub⟩
            rw [get?_modify, if_neg hi]
      | _ =>
        refine .of_not_map (by simp) ⟨putAt_ne_null hg.1 (by simp) _, fun sub => ?_⟩
        exact putAt_ne_map hg.2 (by simp) _ sub

/-- What is at the place of a path grows along what is left of a longer path. -/
theorem grown_at? (hg : Grown made (w ++ q) (.map es) (.map es')) (hx : es.placeAlong? w = some x)
    (hmap : (Value.map es).at? x = some (.map sub)) (hu : (Value.map es').at? x = some u) :
    Grown made q (.map sub) u := by
  induction w generalizing es es' x with
  | nil =>
    cases hx
    cases hmap
    cases hu
    exact hg
  | cons k w ih =>
    obtain ⟨hk, -, hsub⟩ := Grown.cons_map_iff.mp hg
    obtain ⟨i, v, hi, hv, hx⟩ := placeAlong?_cons_eq_some hx
    obtain ⟨v', hv', hgrown⟩ := hsub v hv
    obtain ⟨_, h, hchild⟩ := exists_get?_of_index? hi
    obtain rfl := Option.some.inj (hv.symm.trans h)
    obtain ⟨_, h', hchild'⟩ := exists_get?_of_index? (hk.stays i hi)
    obtain rfl := Option.some.inj (hv'.symm.trans h')
    rcases hx with ⟨inner, z, rfl, hz, rfl⟩ | ⟨hother, -, rfl⟩
    · rw [Value.at?, hchild, Option.bind_some] at hmap
      rw [Value.at?, hchild', Option.bind_some] at hu
      cases w with
      | nil =>
        cases hz
        cases hmap
        cases hu
        exact hgrown
      | cons j w =>
        obtain ⟨inner', rfl⟩ : ∃ inner', v' = .map inner' := hgrown.imp fun _ h => h.1
        exact ih hgrown hz hmap hu
    · rw [Value.at?, hchild, Option.bind_some] at hmap
      cases hmap
      exact (hother sub rfl).elim

/-- Where a path of keys that are not made led to no map, it does not lead to one later. -/
theorem descend?_of_grown (hg : Grown made w (.map es) (.map es')) (hw : ∀ k ∈ w, k ∉ made)
    (h : es.descend? w = none) : es'.descend? w = none := by
  induction w generalizing es es' with
  | nil => cases h
  | cons k w ih =>
    rw [List.forall_mem_cons] at hw
    obtain ⟨-, hrests, hsub⟩ := Grown.cons_map_iff.mp hg
    rw [descend?]
    split
    · next sub' hsub' =>
      obtain ⟨sub, hv⟩ := (hrests hw.1).map.mp ⟨sub', hsub'⟩
      obtain ⟨u, hu, hg⟩ := hsub _ hv
      obtain rfl := Option.some.inj (hsub'.symm.trans hu)
      simp only [descend?, hv] at h
      exact ih hg hw.2 h
    · rfl

/-- A path that a place is off does not lead to the place on its way. -/
theorem placeAlong?_ne_of_off {w' : List Text} (h : Off (w ++ w') y (.map es)) : es.placeAlong? w ≠ some y := by
  induction w generalizing es y with
  | nil =>
    rintro hy
    cases hy
    exact Value.not_off_nil _ _ h
  | cons k w ih =>
    intro hy
    obtain ⟨i, v, hi, hv, hx⟩ := placeAlong?_cons_eq_some hy
    rcases hx with ⟨sub, z, rfl, hz, rfl⟩ | ⟨-, rfl, rfl⟩
    · exact ih (Value.off_cons_iff.mp h hi _ hv) hz
    · exact Value.not_off_nil _ _ (Value.off_cons_iff.mp h hi _ hv)

/-- The value at a key of the map along a path, if there is a map. -/
def entryAlong? (w : List Text) (k : Text) (es : Entries) : Option (Option Value) :=
  (es.descend? w).map fun sub => sub.get? k

theorem descend?_append (w r : List Text) (es : Entries) :
    es.descend? (w ++ r) = (es.descend? w).bind (descend? r) := by
  induction w generalizing es with
  | nil => rfl
  | cons j w ih =>
    rw [List.cons_append, descend?, descend?]
    split
    · exact ih _
    · rfl

theorem entryAlong?_of_descend? (h : es.descend? (w ++ [k]) = some sub) :
    es.entryAlong? w k = some (some (.map sub)) := by
  rw [descend?_append, Option.bind_eq_some_iff] at h
  obtain ⟨outer, hw, h⟩ := h
  rw [descend?] at h
  split at h
  · next inner hinner =>
    cases h
    rw [entryAlong?, hw, Option.map_some, hinner]
  · cases h

theorem descend?_of_get? {w : List Text} (h : ∀ sub, es.get? k ≠ some (.map sub)) : es.descend? (k :: w) = none := by
  rw [descend?]
  split
  · next sub hsub => exact (h sub hsub).elim
  · rfl

/-- What is put at a place off a path is met by the map on the way only off the rest of the path. -/
theorem descend?_putAt_of_off (h : Off (w ++ q) y (.map es)) (u : Value) :
    ∃ es' : Entries, Value.putAt y u (.map es) = .map es' ∧ (es'.descend? w = es.descend? w ∨
      ∃ sub sub' z, es.descend? w = some sub ∧ es'.descend? w = some sub' ∧ Off q z (.map sub) ∧
        Value.putAt z u (.map sub) = .map sub') := by
  induction w generalizing es y with
  | nil =>
    have hy : y ≠ [] := by
      rintro rfl
      exact Value.not_off_nil _ _ h
    obtain ⟨es', hput⟩ := (exists_putAt_eq_map_iff hy u).mpr ⟨es, rfl⟩
    exact ⟨es', hput, .inr ⟨es, es', y, rfl, rfl, h, hput⟩⟩
  | cons j w ih =>
    cases y with
    | nil => exact (Value.not_off_nil _ _ h).elim
    | cons i y =>
      cases hc : (Value.map es).children[i]? with
      | none => exact ⟨es, by rw [Value.putAt, hc], .inl rfl⟩
      | some c =>
        refine ⟨_, putAt_map hc y u, ?_⟩
        by_cases hi : es.index? j = some i
        · obtain ⟨v, hv, hchild⟩ := exists_get?_of_index? hi
          rw [hc] at hchild
          obtain rfl := Option.some.inj hchild
          have hoff := Value.off_cons_iff.mp h hi c hv
          by_cases hmap : ∃ sub, c = .map sub
          · obtain ⟨sub, rfl⟩ := hmap
            obtain ⟨sub', hput, hsub'⟩ := ih hoff
            simp only [descend?, get?_modify, if_pos hi, hv, hput]
            exact hsub'
          · have hy : y ≠ [] := by
              rintro rfl
              exact Value.not_off_nil _ c hoff
            have hput := putAt_ne_map (not_exists.mp hmap) hy u
            have hbefore : es.descend? (j :: w) = none := descend?_of_get? fun sub heq => by
              rw [hv] at heq
              exact hmap ⟨sub, Option.some.inj heq⟩
            have hafter : descend? (j :: w) (es.modify i fun e => (e.1, Value.putAt y u c)) = none :=
              descend?_of_get? fun sub heq => by
                rw [get?_modify, if_pos hi] at heq
                exact hput sub (Option.some.inj heq)
            exact .inl (hafter.trans hbefore.symm)
        · simp only [descend?, get?_modify, if_neg hi, true_or]

theorem get?_putAt_of_off (h : Off [k] y (.map es)) (hput : Value.putAt y u (.map es) = .map es') :
    es'.get? k = es.get? k := by
  cases y with
  | nil => exact (Value.not_off_nil _ _ h).elim
  | cons i y =>
    cases hc : (Value.map es).children[i]? with
    | none =>
      rw [Value.putAt, hc] at hput
      rw [Value.map.inj hput]
    | some c =>
      have hi : es.index? k ≠ some i := by
        intro hi
        obtain ⟨v, hv, -⟩ := exists_get?_of_index? hi
        exact Value.not_nil_off y v (Value.off_cons_iff.mp h hi v hv)
      rw [putAt_map hc] at hput
      rw [← Value.map.inj hput, get?_modify, if_neg hi]

/-- What is put at a place off a key changes nothing at the key. -/
theorem entryAlong?_putAt (h : Off (w ++ [k]) y (.map es)) (u : Value) :
    ∃ es' : Entries, Value.putAt y u (.map es) = .map es' ∧ es'.entryAlong? w k = es.entryAlong? w k := by
  obtain ⟨es', hput, hsame | ⟨sub, sub', z, hsub, hsub', hoff, hput'⟩⟩ := descend?_putAt_of_off h u
  · exact ⟨es', hput, by rw [entryAlong?, hsame, entryAlong?]⟩
  · refine ⟨es', hput, ?_⟩
    rw [entryAlong?, entryAlong?, hsub, hsub', Option.map_some, Option.map_some, get?_putAt_of_off hoff hput']

/-- A map that is put at the place of a path is what the path leads to. -/
theorem descend?_putAt (hx : es.placeAlong? w = some x) (hmap : (Value.map es).at? x = some (.map sub)) (new : Entries) :
    ∃ es' : Entries, Value.putAt x (.map new) (.map es) = .map es' ∧ es'.descend? w = some new := by
  induction w generalizing es x with
  | nil =>
    cases hx
    exact ⟨new, rfl, rfl⟩
  | cons k w ih =>
    obtain ⟨i, v, hi, hv, hx⟩ := placeAlong?_cons_eq_some hx
    obtain ⟨_, hv', hchild⟩ := exists_get?_of_index? hi
    obtain rfl := Option.some.inj (hv.symm.trans hv')
    rcases hx with ⟨inner, z, rfl, hz, rfl⟩ | ⟨hother, -, rfl⟩
    · rw [Value.at?, hchild, Option.bind_some] at hmap
      obtain ⟨inner', hput, hdescend⟩ := ih hz hmap
      refine ⟨_, putAt_map hchild z _, ?_⟩
      rw [descend?, get?_modify, if_pos hi, hput]
      exact hdescend
    · rw [Value.at?, hchild, Option.bind_some] at hmap
      cases hmap
      exact (hother sub rfl).elim

/-- A path that leads to a map leads to its place still when the value has grown. -/
theorem placeAlong?_grown (hg : Grown made (w ++ k :: q) (.map es) (.map es')) (hx : es.placeAlong? w = some x)
    (hmap : (Value.map es).at? x = some (.map sub)) :
    es'.placeAlong? w = some x ∧ ∃ sub', (Value.map es').at? x = some (.map sub') := by
  induction w generalizing es es' x with
  | nil =>
    cases hx
    exact ⟨rfl, es', rfl⟩
  | cons j w ih =>
    obtain ⟨hk, -, hsub⟩ := Grown.cons_map_iff.mp hg
    obtain ⟨i, v, hi, hv, hx⟩ := placeAlong?_cons_eq_some hx
    obtain ⟨_, hv', hchild⟩ := exists_get?_of_index? hi
    obtain rfl := Option.some.inj (hv.symm.trans hv')
    obtain ⟨v', hv', hgrown⟩ := hsub v hv
    have hi' := hk.stays i hi
    obtain ⟨_, h', hchild'⟩ := exists_get?_of_index? hi'
    obtain rfl := Option.some.inj (hv'.symm.trans h')
    rcases hx with ⟨inner, z, rfl, hz, rfl⟩ | ⟨hother, -, rfl⟩
    · rw [Value.at?, hchild, Option.bind_some] at hmap
      obtain ⟨inner', rfl⟩ : ∃ inner', v' = .map inner' := by
        obtain ⟨j', r, hr⟩ := List.exists_cons_of_ne_nil (List.append_ne_nil_of_right_ne_nil w (List.cons_ne_nil k q))
        rw [List.append_eq, hr] at hgrown
        exact hgrown.imp fun _ h => h.1
      obtain ⟨hplace, hsome⟩ := ih hgrown hz hmap
      refine ⟨by simp only [placeAlong?, hi', hv', hplace, Option.map_some], ?_⟩
      rwa [Value.at?, hchild', Option.bind_some]
    · rw [Value.at?, hchild, Option.bind_some] at hmap
      cases hmap
      exact (hother sub rfl).elim

theorem length_placeAlong? (hx : es.placeAlong? w = some x) : x.length = w.length := by
  induction w generalizing es x with
  | nil =>
    cases hx
    rfl
  | cons k w ih =>
    obtain ⟨i, v, -, -, ⟨sub, z, rfl, hz, rfl⟩ | ⟨-, rfl, rfl⟩⟩ := placeAlong?_cons_eq_some hx
    · rw [List.length_cons, List.length_cons, ih hz]
    · rfl

end AnnotationCodec.Entries
