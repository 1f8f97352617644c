import AnnotationCodec.Manifest.Basic
import AnnotationCodec.Proofs.Value.Entries

/-!
Places and paths. A place lies off a path when what is put there does not show along the path, and a value grows along
a path when what had a place on it keeps that place.
-/
namespace AnnotationCodec

namespace Entries

variable {es es' : Entries} {k key : Text} {i : Nat} {v : Value}

theorem index?_cons_self (k : Text) (v : Value) (es : Entries) : index? ((.str k, v) :: es) k = some 0 := by
  simp [index?, List.findIdx?_cons]

theorem index?_cons_of_ne {x : Value} (h : x ≠ .str k) (v : Value) (es : Entries) :
    index? ((x, v) :: es) k = (es.index? k).map (· + 1) := by
  cases x <;> simp_all [index?, List.findIdx?_cons]

/-- A key has the value with its number. -/
theorem get?_eq_index? (k : Text) (es : Entries) :
    es.get? k = (es.index? k).bind fun i => (Value.map es).children[i]? := by
  induction es with
  | nil => rfl
  | cons e es ih =>
    obtain ⟨key, v⟩ := e
    by_cases hkey : key = .str k
    · rw [hkey, get?_cons_self, index?_cons_self]
      rfl
    · rw [get?_cons_of_ne hkey, index?_cons_of_ne hkey, ih, Option.bind_map]
      rfl

/-- Which number a key has depends on the keys alone. -/
theorem index?_congr (h : es.map Prod.fst = es'.map Prod.fst) (k : Text) : es.index? k = es'.index? k := by
  induction es generalizing es' with
  | nil =>
    cases es' with
    | nil => rfl
    | cons e es' => simp at h
  | cons e es ih =>
    cases es' with
    | nil => simp at h
    | cons e' es' =>
      obtain ⟨x, u⟩ := e
      obtain ⟨x', u'⟩ := e'
      obtain ⟨rfl, htail⟩ : x = x' ∧ es.map Prod.fst = es'.map Prod.fst := by simpa using h
      by_cases hx : x = .str k
      · rw [hx, index?_cons_self, index?_cons_self]
      · rw [index?_cons_of_ne hx, index?_cons_of_ne hx, ih htail]

theorem index?_lt (h : es.index? k = some i) : i < es.length :=
  (List.findIdx?_eq_some_iff_findIdx_eq.mp h).1

theorem exists_get?_of_index? (h : es.index? k = some i) :
    ∃ v, es.get? k = some v ∧ (Value.map es).children[i]? = some v := by
  have hi : i < (Value.map es).children.length := by
    simpa [Value.children] using index?_lt h
  refine ⟨(Value.map es).children[i], ?_, List.getElem?_eq_getElem hi⟩
  rw [get?_eq_index?, h, Option.bind_some, List.getElem?_eq_getElem hi]

theorem get?_of_index?_eq_none (h : es.index? k = none) : es.get? k = none := by
  rw [get?_eq_index?, h]
  rfl

/-- What a key keeps while a map grows: its number, or the room for a number at the end. -/
structure Keeps (k : Text) (es es' : Entries) : Prop where
  length : es.length ≤ es'.length
  stays : ∀ i, es.index? k = some i → es'.index? k = some i
  fresh : es.index? k = none → ∀ i, es'.index? k = some i → es.length ≤ i

namespace Keeps

variable {es'' : Entries}

theorem refl (k : Text) (es : Entries) : Keeps k es es :=
  ⟨Nat.le_refl _, fun _ => id, fun hn i hi => by rw [hn] at hi; cases hi⟩

theorem trans (h : Keeps k es es') (h' : Keeps k es' es'') : Keeps k es es'' := by
  refine ⟨Nat.le_trans h.length h'.length, fun i hi => h'.stays i (h.stays i hi), fun hn i hi => ?_⟩
  cases hj : es'.index? k with
  | none => exact Nat.le_trans h.length (h'.fresh hj i hi)
  | some j =>
    rw [h'.stays j hj] at hi
    cases hi
    exact h.fresh hn i hj

theorem of_keys (h : es.map Prod.fst = es'.map Prod.fst) : Keeps k es es' := by
  have hindex := index?_congr h k
  refine ⟨?_, fun i hi => hindex ▸ hi, fun hn i hi => ?_⟩
  · have := congrArg List.length h
    simp only [List.length_map] at this
    exact Nat.le_of_eq this
  · rw [← hindex, hn] at hi
    cases hi

/-- A number that is none of those behind the old keys belonged to the key before. -/
theorem index?_of_lt (h : Keeps k es es') (hi : es'.index? k = some i) (hlt : i < es.length) :
    es.index? k = some i := by
  cases hj : es.index? k with
  | none =>
    have := h.fresh hj i hi
    omega
  | some j => rw [← hi, h.stays j hj]

end Keeps

theorem keys_set_of_get? (h : es.get? key = some v) (w : Value) :
    (es.set key w).map Prod.fst = es.map Prod.fst := by
  induction es with
  | nil => cases h
  | cons e es ih =>
    obtain ⟨x, u⟩ := e
    by_cases hx : x = .str key
    · rw [hx, set_cons_self, List.map_cons, List.map_cons]
    · rw [get?_cons_of_ne hx] at h
      rw [set_cons_of_ne hx, List.map_cons, List.map_cons, ih h]

theorem set_of_get?_eq_none (h : es.get? key = none) (v : Value) : es.set key v = es ++ [(.str key, v)] := by
  induction es with
  | nil => rfl
  | cons e es ih =>
    obtain ⟨x, u⟩ := e
    by_cases hx : x = .str key
    · rw [hx, get?_cons_self] at h
      cases h
    · rw [get?_cons_of_ne hx] at h
      rw [set_cons_of_ne hx, List.cons_append, ih h]

/-- A key that is set where it was missing gets the number behind the others. -/
theorem index?_set_of_get?_eq_none (h : es.get? key = none) (v : Value) (k : Text) :
    (es.set key v).index? k = (es.index? k).or (if key = k then some es.length else none) := by
  have happend : index? (es ++ [(Value.str key, v)]) k =
      (es.index? k).or ((index? [(Value.str key, v)] k).map fun i => i + es.length) :=
    List.findIdx?_append
  rw [set_of_get?_eq_none h, happend]
  by_cases hkey : key = k
  · rw [hkey, index?_cons_self, if_pos rfl, Option.map_some, Nat.zero_add]
  · rw [index?_cons_of_ne (by simpa using hkey), if_neg hkey]
    rfl

theorem keeps_set (k key : Text) (v : Value) (es : Entries) : Keeps k es (es.set key v) := by
  cases hg : es.get? key with
  | some w => exact .of_keys (keys_set_of_get? hg v).symm
  | none =>
    have hindex := index?_set_of_get?_eq_none hg v k
    refine ⟨by simp [set_of_get?_eq_none hg], fun i hi => ?_, fun hn i hi => ?_⟩
    · rw [hindex, hi, Option.some_or]
    · rw [hindex, hn, Option.none_or] at hi
      split at hi
      · exact Nat.le_of_eq (Option.some.inj hi)
      · cases hi

theorem get?_set_of_ne (h : k ≠ key) (v : Value) (es : Entries) : get? k (es.set key v) = es.get? k := by
  rw [← valueAt?_str, valueAt?_set_of_ne (by simpa using h), valueAt?_str]

theorem index?_set_of_ne (h : k ≠ key) (v : Value) (es : Entries) : (es.set key v).index? k = es.index? k := by
  cases hg : es.get? key with
  | some w => exact index?_congr (keys_set_of_get? hg v) k
  | none => rw [index?_set_of_get?_eq_none hg, if_neg h.symm, Option.or_none]

/-- What else a key keeps that rests: it does not come new, and it has a map exactly if it had one. -/
structure Rests (k : Text) (es es' : Entries) : Prop where
  index : es'.index? k = es.index? k
  map : (∃ sub, es'.get? k = some (.map sub)) ↔ ∃ sub, es.get? k = some (.map sub)

namespace Rests

variable {es'' sub : Entries}

theorem refl (k : Text) (es : Entries) : Rests k es es :=
  ⟨rfl, .rfl⟩

theorem trans (h : Rests k es es') (h' : Rests k es' es'') : Rests k es es'' :=
  ⟨h'.index.trans h.index, h'.map.trans h.map⟩

theorem set (h : k ≠ key) (v : Value) (es : Entries) : Rests k es (es.set key v) :=
  ⟨index?_set_of_ne h v es, by rw [get?_set_of_ne h]⟩

theorem set_map (h : es.get? k = some (.map sub)) (new : Entries) : Rests k es (es.set k (.map new)) := by
  refine ⟨index?_congr (keys_set_of_get? h _) k, ?_⟩
  rw [get?_set_self, h]
  simp

end Rests

end Entries

namespace Value

variable {v u : Value} {es : Entries} {x y : Place} {i : Nat}

theorem sizeOf_child (h : v.children[i]? = some u) : sizeOf u < sizeOf v := by
  have hmem := List.mem_of_getElem? h
  cases v with
  | list vs =>
    have := List.sizeOf_lt_of_mem hmem
    simp only [children] at this
    simp only [list.sizeOf_spec]
    omega
  | tuple vs =>
    have := List.sizeOf_lt_of_mem hmem
    simp only [children] at this
    simp only [tuple.sizeOf_spec]
    omega
  | map es =>
    obtain ⟨e, he, rfl⟩ := List.mem_map.mp hmem
    have := List.sizeOf_lt_of_mem he
    obtain ⟨k, w⟩ := e
    simp only [map.sizeOf_spec, Prod.mk.sizeOf_spec] at *
    omega
  | _ => simp [children] at hmem

/-- A value is not to be found inside itself. -/
theorem eq_nil_of_at? (h : v.at? y = some u) (hv : sizeOf v ≤ sizeOf u) : y = [] := by
  induction y generalizing v with
  | nil => rfl
  | cons i y ih =>
    obtain ⟨w, hw, h⟩ := Option.bind_eq_some_iff.mp h
    have := sizeOf_child hw
    have hnil := ih h (by omega)
    subst hnil
    cases h
    omega

theorem at?_append (x y : Place) (v : Value) : v.at? (x ++ y) = (v.at? x).bind (at? y) := by
  induction x generalizing v with
  | nil => rfl
  | cons i x ih =>
    rw [List.cons_append, at?, at?, Option.bind_assoc]
    exact congrArg _ (funext ih)

/-- Of two different places of the same value, neither lies inside the other. -/
theorem not_prefix_of_at? (hx : v.at? x = some u) (hy : v.at? y = some u) (hne : x ≠ y) : ¬ x <+: y := by
  rintro ⟨z, rfl⟩
  rw [at?_append, hx, Option.bind_some] at hy
  rw [eq_nil_of_at? hy (Nat.le_refl _), List.append_nil] at hne
  exact hne rfl

theorem setChild_self (h : v.children[i]? = some u) : v.setChild i u = v := by
  cases v with
  | list vs =>
    obtain ⟨hi, rfl⟩ := List.getElem?_eq_some_iff.mp h
    exact congrArg Value.list (List.set_getElem_self hi)
  | tuple vs =>
    obtain ⟨hi, rfl⟩ := List.getElem?_eq_some_iff.mp h
    exact congrArg Value.tuple (List.set_getElem_self hi)
  | map es =>
    refine congrArg Value.map (List.ext_getElem? fun j => ?_)
    rw [List.getElem?_modify]
    simp only [children, List.getElem?_map] at h
    split
    · next hij =>
      subst hij
      obtain ⟨e, he, rfl⟩ := Option.map_eq_some_iff.mp h
      simp [he]
    · simp
  | _ => simp [children] at h

/-- Nothing changes where a value is put that is there already. -/
theorem putAt_of_at? (h : v.at? y = some u) : putAt y u v = v := by
  induction y generalizing v with
  | nil => exact (Option.some.inj h).symm
  | cons i y ih =>
    obtain ⟨c, hc, h⟩ := Option.bind_eq_some_iff.mp h
    rw [putAt, hc]
    simp only [ih h]
    exact setChild_self hc

end Value

end AnnotationCodec
