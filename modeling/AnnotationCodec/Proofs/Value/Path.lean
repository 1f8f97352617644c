import AnnotationCodec.Proofs.Value.Entries
import Mathlib.Data.List.Infix

/-!
Paths of keys through nested maps. A change at the end of a path shows at the paths that it is a start of and at its
own starts, and nowhere else.
-/
namespace AnnotationCodec

namespace Value

/-- What is found along keys that lead from map to map. -/
def along? : List Value → Value → Option Value
  | [], v => some v
  | k :: ks, .map es => (Entries.valueAt? k es).bind (along? ks)
  | _ :: _, _ => none

variable {k : Value} {ks p : List Value} {t : Text} {v : Value} {es sub : Entries}

theorem along?_cons_str (t : Text) (ks : List Value) (es : Entries) :
    along? (.str t :: ks) (.map es) = (es.get? t).bind (along? ks) := by
  rw [along?, Entries.valueAt?_str]

theorem along?_append (p ks : List Value) (v : Value) : along? (p ++ ks) v = (along? p v).bind (along? ks) := by
  induction p generalizing v with
  | nil => rfl
  | cons k p ih =>
    cases v with
    | map es =>
      simp only [List.cons_append, along?, Option.bind_assoc]
      exact congrArg _ (funext ih)
    | _ => rfl

theorem along?_map_nil (h : ks ≠ []) : along? ks (.map []) = none := by
  cases ks with
  | nil => exact (h rfl).elim
  | cons k ks => rfl

/-- What lies deeper than a key lies in the map that is there. -/
theorem along?_of_get? (h : es.get? t = some (.map sub)) (ks : List Value) :
    along? (.str t :: ks) (.map es) = along? ks (.map sub) := by
  rw [along?_cons_str, h, Option.bind_some]

theorem along?_set_self (t : Text) (v : Value) (ks : List Value) (es : Entries) :
    along? (.str t :: ks) (.map (es.set t v)) = along? ks v := by
  rw [along?_cons_str, Entries.get?_set_self, Option.bind_some]

theorem along?_set_of_ne (h : k ≠ .str t) (v : Value) (ks : List Value) (es : Entries) :
    along? (k :: ks) (.map (es.set t v)) = along? (k :: ks) (.map es) := by
  rw [along?, along?, Entries.valueAt?_set_of_ne h]

end Value

/-- Two paths part: neither is a start of the other. -/
def Apart (p q : List Value) : Prop :=
  ¬ p <+: q ∧ ¬ q <+: p

/-- The keys of a path, as values. -/
def keys (p : List Text) : List Value :=
  p.map .str

section

variable {k : Value} {p q : List Value} {w x : List Text}

theorem not_apart_nil : ¬ Apart [] q :=
  fun h => h.1 q.nil_prefix

theorem Apart.symm (h : Apart p q) : Apart q p :=
  ⟨h.2, h.1⟩

theorem Apart.tail (h : Apart (k :: p) (k :: q)) : Apart p q := by
  constructor
  · intro hp
    exact h.1 ((List.prefix_cons_inj k).mpr hp)
  · intro hq
    exact h.2 ((List.prefix_cons_inj k).mpr hq)

theorem Apart.ne_nil (h : Apart p q) : p ≠ [] := by
  rintro rfl
  exact not_apart_nil h

/-- What lies beyond the end of a path that parts from another one parts from it, too. -/
theorem Apart.append (h : Apart p q) (r : List Value) : Apart (p ++ r) q := by
  constructor
  · intro hp
    exact h.1 ((List.prefix_append p r).trans hp)
  · intro hq
    rcases List.prefix_or_prefix_of_prefix (List.prefix_append p r) hq with hpq | hqp
    · exact h.1 hpq
    · exact h.2 hqp

theorem keys_append (w x : List Text) : keys (w ++ x) = keys w ++ keys x :=
  List.map_append

theorem keys_prefix_iff : keys w <+: keys x ↔ w <+: x :=
  List.prefix_map_iff_of_injective fun _ _ h => Value.str.inj h

theorem apart_keys_iff : Apart (keys w) (keys x) ↔ ¬ w <+: x ∧ ¬ x <+: w := by
  rw [Apart, keys_prefix_iff, keys_prefix_iff]

end

namespace Entries

/-- A map has `v` at the end of a path, and apart from the path what another one has. -/
structure Put (w : List Text) (v : Value) (es es' : Entries) : Prop where
  found : (Value.map es').along? (keys w) = some v
  kept : ∀ q, Apart q (keys w) → (Value.map es').along? q = (Value.map es).along? q

variable {w : List Text} {k : Text} {v : Value} {es sub sub' : Entries}

theorem put_set (k : Text) (v : Value) (es : Entries) : Put [k] v es (es.set k v) := by
  constructor
  · exact Value.along?_set_self k v [] es
  · intro q hq
    cases q with
    | nil => exact (not_apart_nil hq).elim
    | cons x q =>
      refine Value.along?_set_of_ne ?_ v q es
      rintro rfl
      exact hq.2 (by simp [keys])

/-- A change in the map at a key, or in an empty one where there is none. -/
theorem Put.within (h : Put w v sub sub')
    (hsub : ∀ ks, ks ≠ [] → (Value.map es).along? (.str k :: ks) = (Value.map sub).along? ks) :
    Put (k :: w) v es (es.set k (.map sub')) := by
  constructor
  · exact (Value.along?_set_self k _ (keys w) es).trans h.found
  · intro q hq
    cases q with
    | nil => exact (not_apart_nil hq).elim
    | cons x q =>
      by_cases hx : x = .str k
      · subst hx
        have hq' : Apart q (keys w) := Apart.tail hq
        rw [Value.along?_set_self, h.kept q hq', hsub q hq'.ne_nil]
      · exact Value.along?_set_of_ne hx _ q es

end Entries

end AnnotationCodec
