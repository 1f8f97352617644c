import AnnotationCodec.Proofs.Except
import AnnotationCodec.Proofs.Value.Order
import AnnotationCodec.Yaml.Tree
import Mathlib.Algebra.Group.Nat.Defs

/-!
Which values have trees: all those without descriptors and without integers beyond the digit limit, wherever in them.
-/
namespace AnnotationCodec

/-- Whether everything in a value can be written. -/
def Value.isWritable : Value → Bool
  | .int n => n.natAbs < 10 ^ digitLimit
  | .list vs | .tuple vs | .set vs => all vs
  | .map es => entries es
  | .descriptor _ => false
  | _ => true
where
  all : List Value → Bool
    | [] => true
    | v :: vs => v.isWritable && all vs
  entries : List (Value × Value) → Bool
    | [] => true
    | (k, v) :: es => k.isWritable && v.isWritable && entries es

namespace Yaml.Tree

variable {α : Type} {rs : List (Except Failure α)} {as : List α}

theorem collect_eq_ok_iff : collect rs = .ok as ↔ rs = as.map .ok := by
  induction rs generalizing as with
  | nil => cases as <;> simp [collect]
  | cons r rs ih =>
    cases r with
    | error f => cases as <;> simp [collect, bind, Except.bind]
    | ok a =>
      cases hc : collect rs with
      | error f =>
        cases as with
        | nil => simp [collect, hc, bind, Except.bind]
        | cons b bs => simp [collect, hc, bind, Except.bind, ← @ih bs]
      | ok bs =>
        cases as with
        | nil => simp [collect, hc, bind, Except.bind, pure, Except.pure]
        | cons b cs =>
          have hbs := @ih cs
          simp only [hc, Except.ok.injEq] at hbs
          simp [collect, hc, bind, Except.bind, pure, Except.pure, hbs]

theorem exists_collect_iff : (∃ as, collect rs = .ok as) ↔ ∀ r ∈ rs, ∃ a, r = .ok a := by
  simp only [collect_eq_ok_iff]
  induction rs with
  | nil => simp
  | cons r rs ih =>
    rw [List.forall_mem_cons, ← ih]
    constructor
    · rintro ⟨as, h⟩
      cases as with
      | nil => cases h
      | cons a as =>
        injection h with hr hrs
        exact ⟨⟨a, hr⟩, as, hrs⟩
    · rintro ⟨⟨a, rfl⟩, as, rfl⟩
      exact ⟨a :: as, rfl⟩

theorem exists_collect_sorted_iff {es : List (Value × Except Failure α)} :
    (∃ as, collect ((Entries.sorted es).map Prod.snd) = .ok as) ↔ ∀ r ∈ es.map Prod.snd, ∃ a, r = .ok a := by
  rw [exists_collect_iff]
  have hperm := (Entries.sorted_perm es).map Prod.snd
  exact forall_congr' fun r => imp_congr_left hperm.mem_iff

variable (d : Dialect)

theorem map_snd_zip_items (vs : List Value) : (vs.zip (ofValue.items d vs)).map Prod.snd = ofValue.items d vs := by
  refine List.map_snd_zip (Nat.le_of_eq ?_)
  induction vs with
  | nil => rfl
  | cons v vs ih => simpa [ofValue.items] using ih

mutual

/-- A value has a tree exactly if everything in it can be written. -/
theorem exists_ofValue_iff (v : Value) : (∃ t, ofValue d v = .ok t) ↔ v.isWritable = true := by
  cases v with
  | int n =>
    rw [ofValue, Value.isWritable, Integer.write, Nat.pow_eq, decide_eq_true_iff]
    by_cases h : n.natAbs < 10 ^ digitLimit
    · rw [if_pos h]
      exact iff_of_true ⟨_, rfl⟩ h
    · rw [if_neg h]
      exact iff_of_false (by rintro ⟨t, ⟨⟩⟩) h
  | list vs | tuple vs =>
    simp only [ofValue, Value.isWritable, exists_map_ok_iff, exists_collect_iff]
    exact exists_items_iff vs
  | set vs =>
    simp only [ofValue, Value.isWritable, exists_map_ok_iff, exists_collect_sorted_iff, map_snd_zip_items]
    exact exists_items_iff vs
  | map es =>
    simp only [ofValue, Value.isWritable, exists_map_ok_iff, exists_collect_sorted_iff]
    exact exists_entries_iff es
  | _ => simp [ofValue, Value.isWritable]

theorem exists_items_iff (vs : List Value) :
    (∀ r ∈ ofValue.items d vs, ∃ t, r = .ok t) ↔ Value.isWritable.all vs = true := by
  cases vs with
  | nil => simp [ofValue.items, Value.isWritable.all]
  | cons v vs =>
    simp only [ofValue.items, Value.isWritable.all, List.forall_mem_cons, Bool.and_eq_true]
    exact and_congr (exists_ofValue_iff v) (exists_items_iff vs)

theorem exists_entries_iff (es : List (Value × Value)) :
    (∀ r ∈ (ofValue.entries d es).map Prod.snd, ∃ t, r = .ok t) ↔ Value.isWritable.entries es = true := by
  cases es with
  | nil => simp [ofValue.entries, Value.isWritable.entries]
  | cons e es =>
    obtain ⟨k, v⟩ := e
    simp only [ofValue.entries, Value.isWritable.entries, List.map_cons, List.forall_mem_cons, Bool.and_eq_true]
    refine and_congr ?_ (exists_entries_iff es)
    rw [← exists_ofValue_iff k, ← exists_ofValue_iff v]
    cases ofValue d k <;> cases ofValue d v <;> simp [bind, Except.bind, pure, Except.pure]

end

end Yaml.Tree

end AnnotationCodec
