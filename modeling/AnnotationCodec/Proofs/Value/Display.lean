import AnnotationCodec.Failure
import AnnotationCodec.Proofs.Except
import Mathlib.Algebra.Group.Nat.Defs

/-!
Which values have a text. Only an integer beyond the digit limit has none, and with it everything that holds it: a message
that would show such a value cannot be written.
-/
namespace AnnotationCodec

namespace Value

/-- Every integer in a value is within the digit limit, however deep it is found. -/
def IsBounded : Value → Prop
  | .int n => n.natAbs < 10 ^ digitLimit
  | .list vs | .tuple vs | .set vs => all vs
  | .map es => entries es
  | .descriptor (.moniker ⟨a, c, s, d, q⟩) => a.IsBounded ∧ c.IsBounded ∧ s.IsBounded ∧ d.IsBounded ∧ q.IsBounded
  | .descriptor (.artifact ⟨t, n, l, v⟩) => t.IsBounded ∧ n.IsBounded ∧ l.IsBounded ∧ v.IsBounded
  | .descriptor (.relationships ⟨l, s⟩) => l.IsBounded ∧ s.IsBounded
  | _ => True
where
  all : List Value → Prop
    | [] => True
    | v :: vs => v.IsBounded ∧ all vs
  entries : List (Value × Value) → Prop
    | [] => True
    | (k, v) :: es => k.IsBounded ∧ v.IsBounded ∧ entries es

/-- A description names the type of a list or a map, and shows any other value. -/
def IsDescribed : Value → Prop
  | .list _ | .map _ => True
  | v => v.IsBounded

theorem exists_write_iff {n : Int} : (∃ t, Integer.write n = .ok t) ↔ n.natAbs < 10 ^ digitLimit := by
  rw [Integer.write, Nat.pow_eq]
  by_cases h : n.natAbs < 10 ^ digitLimit
  · simp [h]
  · simp [h]

mutual

/-- A value has a text as it would be typed in exactly if every integer in it has one. -/
theorem exists_literal_iff (v : Value) : (∃ t, v.literal = .ok t) ↔ v.IsBounded := by
  cases v with
  | int n =>
    rw [literal, IsBounded]
    exact exists_write_iff
  | list vs | tuple vs =>
    simp only [literal, IsBounded, exists_bind_ok_iff, exists_pure_ok_iff, and_true]
    exact exists_all_iff vs
  | set vs =>
    cases vs with
    | nil => simp [literal, IsBounded, IsBounded.all]
    | cons v vs =>
      simp only [literal, IsBounded, IsBounded.all, exists_bind_ok_iff, exists_pure_ok_iff, and_true, exists_and_right]
      exact and_congr (exists_literal_iff v) (exists_all_iff vs)
  | map es =>
    simp only [literal, IsBounded, exists_bind_ok_iff, exists_pure_ok_iff, and_true]
    exact exists_pairs_iff es
  | descriptor d =>
    rcases d with ⟨a, c, s, d, q⟩ | ⟨t, n, l, v⟩ | ⟨l, s⟩
    · simp only [literal, IsBounded, exists_bind_ok_iff, exists_pure_ok_iff, and_true, exists_and_right]
      exact and_congr (exists_literal_iff a) (and_congr (exists_literal_iff c) (and_congr (exists_literal_iff s)
        (and_congr (exists_literal_iff d) (exists_literal_iff q))))
    · simp only [literal, IsBounded, exists_bind_ok_iff, exists_pure_ok_iff, and_true, exists_and_right]
      exact and_congr (exists_literal_iff t) (and_congr (exists_literal_iff n) (and_congr (exists_literal_iff l)
        (exists_literal_iff v)))
    · simp only [literal, IsBounded, exists_bind_ok_iff, exists_pure_ok_iff, and_true, exists_and_right]
      exact and_congr (exists_literal_iff l) (exists_literal_iff s)
  | _ => simp [literal, IsBounded]

theorem exists_all_iff (vs : List Value) : (∃ ts, literal.all vs = .ok ts) ↔ IsBounded.all vs := by
  cases vs with
  | nil => simp [literal.all, IsBounded.all]
  | cons v vs =>
    simp only [literal.all, IsBounded.all, exists_bind_ok_iff, exists_pure_ok_iff, and_true, exists_and_right]
    exact and_congr (exists_literal_iff v) (exists_all_iff vs)

theorem exists_pairs_iff (es : List (Value × Value)) : (∃ ts, literal.pairs es = .ok ts) ↔ IsBounded.entries es := by
  cases es with
  | nil => simp [literal.pairs, IsBounded.entries]
  | cons e es =>
    obtain ⟨k, v⟩ := e
    simp only [literal.pairs, IsBounded.entries, exists_bind_ok_iff, exists_pure_ok_iff, and_true, exists_and_right]
    exact and_congr (exists_literal_iff k) (and_congr (exists_literal_iff v) (exists_pairs_iff es))

end

/-- A text and a date stand for themselves in a message, and hold no integers. -/
theorem exists_display_iff (v : Value) : (∃ t, v.display = .ok t) ↔ v.IsBounded := by
  rw [← exists_literal_iff]
  cases v with
  | str t | date d | dateTime t => simp [display, literal]
  | _ => simp only [display]

theorem exists_describe_iff (v : Value) : (∃ t, v.describe = .ok t) ↔ v.IsDescribed := by
  cases v with
  | null => simp [describe, IsDescribed, IsBounded]
  | list vs | map es => simp [describe, IsDescribed]
  | _ => simp only [describe, IsDescribed, exists_map_ok_iff, exists_literal_iff]

end Value

end AnnotationCodec
