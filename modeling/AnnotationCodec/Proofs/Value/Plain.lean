import AnnotationCodec.Number.Integer
import AnnotationCodec.Proofs.Value.Order
import Mathlib.Algebra.Group.Nat.Defs

/-!
Plain data: null, truth values, integers within the digit limit, texts, and lists and maps of them. Two values of plain data
are the same if their maps have the same entries, in whatever order.
-/
namespace AnnotationCodec

namespace Entries

variable {α β : Type}

theorem insertSorted_map (f : Value × α → β) (e : Value × α) (es : List (Value × α)) :
    insertSorted (e.1, f e) (es.map fun e => (e.1, f e)) = (insertSorted e es).map fun e => (e.1, f e) := by
  induction es with
  | nil => rfl
  | cons g es ih =>
    simp only [List.map_cons, insertSorted, ih]
    split <;> rfl

theorem keysComparable_map (f : Value × α → β) (es : List (Value × α)) :
    keysComparable (es.map fun e => (e.1, f e)) = keysComparable es := by
  induction es with
  | nil => rfl
  | cons e es ih =>
    rw [List.map_cons, keysComparable, keysComparable, ih, List.all_map]
    rfl

theorem foldl_insertSorted_map (f : Value × α → β) (es acc : List (Value × α)) :
    (es.map fun e => (e.1, f e)).foldl (fun acc e => insertSorted e acc) (acc.map fun e => (e.1, f e)) =
      (es.foldl (fun acc e => insertSorted e acc) acc).map fun e => (e.1, f e) := by
  induction es generalizing acc with
  | nil => rfl
  | cons e es ih => rw [List.map_cons, List.foldl_cons, List.foldl_cons, insertSorted_map, ih]

/-- Entries are sorted by their keys alone. -/
theorem sorted_map (f : Value × α → β) (es : List (Value × α)) :
    sorted (es.map fun e => (e.1, f e)) = (sorted es).map fun e => (e.1, f e) := by
  have hfold := foldl_insertSorted_map f es []
  unfold sorted
  rw [keysComparable_map]
  split
  · exact hfold
  · rfl

end Entries

namespace Value

/-- Plain data. The keys of its maps are texts, and none is there twice. -/
def IsPlain : Value → Prop
  | .null | .bool _ | .str _ => True
  | .int n => n.natAbs < 10 ^ digitLimit
  | .list vs => all vs
  | .map es => (es.map Prod.fst).Nodup ∧ entries es
  | _ => False
where
  all : List Value → Prop
    | [] => True
    | v :: vs => v.IsPlain ∧ all vs
  entries : List (Value × Value) → Prop
    | [] => True
    | (k, v) :: es => (∃ t, k = .str t) ∧ v.IsPlain ∧ entries es

/-- A value with the entries of its maps by ascending keys, as they are written. -/
def arranged : Value → Value
  | .list vs => .list (items vs)
  | .map es => .map (Entries.sorted (entries es))
  | v => v
where
  items : List Value → List Value
    | [] => []
    | v :: vs => v.arranged :: items vs
  entries : List (Value × Value) → List (Value × Value)
    | [] => []
    | (k, v) :: es => (k, v.arranged) :: entries es

/-- Whether two values are the same, with maps taken as maps: equally many entries, and what is in one is in the other. -/
def Same : Value → Value → Prop
  | .list vs, w => ∃ ws, w = .list ws ∧ all vs ws
  | .map es, w => ∃ fs, w = .map fs ∧ es.length = fs.length ∧ entries es fs
  | v, w => v = w
where
  all : List Value → List Value → Prop
    | [], ws => ws = []
    | v :: vs, ws => ∃ x xs, ws = x :: xs ∧ v.Same x ∧ all vs xs
  entries : List (Value × Value) → List (Value × Value) → Prop
    | [], _ => True
    | (k, v) :: es, fs => (∃ w, (k, w) ∈ fs ∧ v.Same w) ∧ entries es fs

theorem entries_eq_map (es : List (Value × Value)) : arranged.entries es = es.map fun e => (e.1, e.2.arranged) := by
  induction es with
  | nil => rfl
  | cons e es ih => rw [arranged.entries, ih, List.map_cons]

mutual

/-- Arranging the entries of its maps leaves a value the same. -/
theorem same_arranged (v : Value) : v.Same v.arranged := by
  cases v with
  | list vs => exact ⟨_, rfl, all_arranged vs⟩
  | map es =>
    have hperm := Entries.sorted_perm (arranged.entries es)
    have hlength : (arranged.entries es).length = es.length := by rw [entries_eq_map, List.length_map]
    exact ⟨_, rfl, (hperm.length_eq.trans hlength).symm, entries_arranged es fun e he => hperm.mem_iff.mpr he⟩
  | _ => rfl

theorem all_arranged (vs : List Value) : Same.all vs (arranged.items vs) := by
  cases vs with
  | nil => rfl
  | cons v vs => exact ⟨_, _, rfl, same_arranged v, all_arranged vs⟩

theorem entries_arranged {fs : List (Value × Value)} (es : List (Value × Value)) (h : ∀ e ∈ arranged.entries es, e ∈ fs) :
    Same.entries es fs := by
  cases es with
  | nil => trivial
  | cons e es =>
    obtain ⟨k, v⟩ := e
    rw [arranged.entries, List.forall_mem_cons] at h
    exact ⟨⟨_, h.1, same_arranged v⟩, entries_arranged es h.2⟩

end

end Value

end AnnotationCodec
