import AnnotationCodec.Proofs.Value.Path
import AnnotationCodec.Proofs.Value.Track

/-!
What a change leaves alone. Subscripts lead from a value to its parts, keys in maps and numbers in lists. What is set at
another key, or put at a place beside them, does not show along them.
-/
namespace AnnotationCodec

namespace Value

/-- The number of the part that a subscript leads to. -/
def subscript? (v k : Value) : Option Nat :=
  match v with
  | .map es => es.findIdx? fun e => e.1.sameKey k
  | .list _ | .tuple _ =>
    match k with
    | .int (.ofNat i) => some i
    | _ => none
  | _ => none

/-- What is found by subscripts, one after the other. -/
def inside? : List Value → Value → Option Value
  | [], v => some v
  | k :: q, v => (v.subscript? k).bind fun i => v.children[i]?.bind (inside? q)

/-- A place lies beside the parts that subscripts lead to: the way to it turns off to another part, which is there. -/
def Beside : List Value → Place → Value → Prop
  | k :: q, i :: y, v => ∃ c, v.children[i]? = some c ∧ (v.subscript? k = some i → Beside q y c)
  | _, _, _ => False

/-- A change does not show along subscripts: the same is found by them, and places that lay beside them still do. -/
structure Unmoved (q : List Value) (v v' : Value) : Prop where
  inside : v'.inside? q = v.inside? q
  beside : ∀ y, Beside q y v → Beside q y v'

end Value

namespace Entries

open Value (inside? subscript?)

variable {es : Entries} {k u : Value} {t : Text} {i : Nat}

theorem valueAt?_eq_subscript? (k : Value) (es : Entries) :
    es.valueAt? k = (subscript? (.map es) k).bind fun i => (Value.map es).children[i]? := by
  rw [valueAt?, List.find?_eq_bind_findIdx?_getElem?, Option.map_bind]
  refine congrArg _ (funext fun i => ?_)
  rw [Function.comp, Value.children, List.getElem?_map]

theorem subscript?_str (t : Text) (es : Entries) : subscript? (.map es) (.str t) = es.index? t := by
  refine congrArg (fun p => List.findIdx? p es) (funext fun e => ?_)
  obtain ⟨key, v⟩ := e
  cases key <;> simp [Value.sameKey, Value.amount?, beq_eq_decide]

/-- Where a subscript leads in a map depends on the keys alone. -/
theorem subscript?_eq_findIdx? (k : Value) (es : Entries) :
    subscript? (.map es) k = (es.map Prod.fst).findIdx? fun x => x.sameKey k := by
  rw [List.findIdx?_map]
  rfl

theorem subscript?_set_of_ne (h : k ≠ .str t) (u : Value) (es : Entries) :
    subscript? (.map (es.set t u)) k = subscript? (.map es) k := by
  rw [subscript?_eq_findIdx?, subscript?_eq_findIdx?]
  rcases keys_set t u es with hsame | ⟨hnew, -⟩
  · rw [hsame]
  · have hother : (Value.str t).sameKey k = false := by
      rw [← Bool.not_eq_true, Value.str_sameKey]
      exact h
    rw [hnew, List.findIdx?_append]
    simp [List.findIdx?_cons, hother]

/-- A part that is there stays there, perhaps as another one, when a key is set. -/
theorem exists_child_set (t : Text) (u : Value) {c : Value} (hc : (Value.map es).children[i]? = some c) :
    ∃ c', (Value.map (es.set t u)).children[i]? = some c' := by
  have hlength : (Value.map es).children.length ≤ (Value.map (es.set t u)).children.length := by
    simpa [Value.children] using (keeps_set t t u es).length
  have hlt : i < (Value.map es).children.length := (List.getElem?_eq_some_iff.mp hc).1
  exact ⟨_, List.getElem?_eq_getElem (hlt.trans_le hlength)⟩

end Entries

namespace Value

variable {v v' v'' u c : Value} {k : Value} {q : List Value} {x y z : Place} {t : Text} {es : Entries} {i : Nat}

theorem inside?_map (k : Value) (q : List Value) (es : Entries) :
    inside? (k :: q) (.map es) = (es.valueAt? k).bind (inside? q) := by
  rw [inside?, Entries.valueAt?_eq_subscript?, Option.bind_assoc]

theorem not_beside_nil (y : Place) (v : Value) : ¬ Beside [] y v := by
  cases y <;> exact id

theorem beside_cons_iff : Beside (k :: q) (i :: y) v ↔
    ∃ c, v.children[i]? = some c ∧ (v.subscript? k = some i → Beside q y c) :=
  Iff.rfl

theorem Beside.exists_cons (h : Beside q y v) : ∃ k r i z, q = k :: r ∧ y = i :: z := by
  cases q with
  | nil => exact (not_beside_nil y v h).elim
  | cons k r =>
    cases y with
    | nil => exact h.elim
    | cons i z => exact ⟨k, r, i, z, rfl, rfl⟩

namespace Unmoved

theorem refl (q : List Value) (v : Value) : Unmoved q v v :=
  ⟨rfl, fun _ => id⟩

theorem trans (h : Unmoved q v v') (h' : Unmoved q v' v'') : Unmoved q v v'' :=
  ⟨h'.inside.trans h.inside, fun y hy => h'.beside y (h.beside y hy)⟩

/-- Where there is nothing, nothing comes. -/
theorem of_none (hv : v.children = []) (hq : q ≠ []) (hnone : v'.inside? q = none) : Unmoved q v v' := by
  obtain ⟨k, r, rfl⟩ := List.exists_cons_of_ne_nil hq
  constructor
  · rw [hnone, inside?, hv]
    simp
  · intro y hy
    obtain ⟨_, _, i, z, -, rfl⟩ := hy.exists_cons
    obtain ⟨c, hc, -⟩ := beside_cons_iff.mp hy
    rw [hv] at hc
    cases hc

/-- Setting a key does not show along a chain that starts with another one. -/
theorem set_of_ne (h : k ≠ .str t) (u : Value) (q : List Value) (es : Entries) :
    Unmoved (k :: q) (.map es) (.map (es.set t u)) := by
  constructor
  · rw [inside?_map, inside?_map, Entries.valueAt?_set_of_ne h]
  · intro y hy
    obtain ⟨_, _, i, z, -, rfl⟩ := hy.exists_cons
    obtain ⟨c, hc, hz⟩ := beside_cons_iff.mp hy
    obtain ⟨c', hc'⟩ := Entries.exists_child_set t u hc
    refine beside_cons_iff.mpr ⟨c', hc', fun hi => ?_⟩
    -- What the key leads to is the same part as before.
    have hsame := Entries.valueAt?_set_of_ne h u es
    rw [Entries.valueAt?_eq_subscript?, Entries.valueAt?_eq_subscript?, Entries.subscript?_set_of_ne h] at hsame
    rw [Entries.subscript?_set_of_ne h] at hi
    rw [hi, Option.bind_some, Option.bind_some, hc, hc'] at hsame
    rw [Option.some.inj hsame]
    exact hz hi

/-- Setting a key does not show along a chain through it, if what is set there does not. -/
theorem set_self (hold : ∀ c, es.get? t = some c → Unmoved q c u) (hnew : es.get? t = none → u.inside? q = none) :
    Unmoved (.str t :: q) (.map es) (.map (es.set t u)) := by
  constructor
  · rw [inside?_map, inside?_map, Entries.valueAt?_str, Entries.valueAt?_str, Entries.get?_set_self, Option.bind_some]
    cases hg : es.get? t with
    | none => exact hnew hg
    | some c => exact (hold c hg).inside
  · intro y hy
    obtain ⟨_, _, i, z, -, rfl⟩ := hy.exists_cons
    obtain ⟨c, hc, hz⟩ := beside_cons_iff.mp hy
    rw [Entries.subscript?_str] at hz
    have hlt : i < (map es).children.length := (List.getElem?_eq_some_iff.mp hc).1
    obtain ⟨c', hc'⟩ := Entries.exists_child_set t u hc
    refine beside_cons_iff.mpr ⟨c', hc', fun hi => ?_⟩
    rw [Entries.subscript?_str] at hi
    -- A place that was there is not the one of a new key.
    have hindex := (Entries.keeps_set t t u es).index?_of_lt hi (by simpa [children] using hlt)
    obtain ⟨_, hg, hchild⟩ := Entries.exists_get?_of_index? hindex
    obtain rfl := Option.some.inj (hchild.symm.trans hc)
    obtain ⟨_, hg', hchild'⟩ := Entries.exists_get?_of_index? hi
    obtain rfl := Option.some.inj (hchild'.symm.trans hc')
    obtain rfl := Option.some.inj ((Entries.get?_set_self t u es).symm.trans hg')
    exact (hold _ hg).beside z (hz hindex)

end Unmoved

theorem subscript?_setChild (v u k : Value) (i : Nat) : (v.setChild i u).subscript? k = v.subscript? k := by
  cases v with
  | map es => rw [setChild, Entries.subscript?_eq_findIdx?, Entries.subscript?_eq_findIdx?, Entries.keys_modify]
  | _ => rfl

/-- What is put at a place beside a chain of subscripts does not show along it. -/
theorem unmoved_putAt (h : Beside q y v) (u : Value) : Unmoved q v (putAt y u v) := by
  induction q generalizing y v with
  | nil => exact (not_beside_nil y v h).elim
  | cons k q ih =>
    obtain ⟨_, _, i, y, -, rfl⟩ := h.exists_cons
    obtain ⟨c, hc, hy⟩ := beside_cons_iff.mp h
    have hlt : i < v.children.length := (List.getElem?_eq_some_iff.mp hc).1
    rw [putAt, hc]
    constructor
    · rw [inside?, inside?, subscript?_setChild]
      cases hj : v.subscript? k with
      | none => rfl
      | some j =>
        rw [Option.bind_some, Option.bind_some, children_setChild]
        by_cases hij : i = j
        · subst hij
          rw [List.getElem?_set_self hlt, hc, Option.bind_some, Option.bind_some, (ih (hy hj)).inside]
        · rw [List.getElem?_set_ne hij]
    · intro z hz
      obtain ⟨_, _, j, z, -, rfl⟩ := hz.exists_cons
      obtain ⟨d, hd, hz⟩ := beside_cons_iff.mp hz
      rw [beside_cons_iff, subscript?_setChild, children_setChild]
      by_cases hij : i = j
      · subst hij
        obtain rfl := Option.some.inj (hc.symm.trans hd)
        exact ⟨_, List.getElem?_set_self hlt, fun hi => (ih (hy hi)).beside z (hz hi)⟩
      · exact ⟨d, (List.getElem?_set_ne hij).trans hd, hz⟩

end Value

end AnnotationCodec
