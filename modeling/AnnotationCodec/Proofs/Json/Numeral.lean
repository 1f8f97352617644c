import AnnotationCodec.Json.Reader
import AnnotationCodec.Proofs.Except
import AnnotationCodec.Proofs.Json.Grammar
import Mathlib.Algebra.Group.Nat.Defs
import Mathlib.Tactic.Common
import Mathlib.Data.List.Induction
import Mathlib.Data.List.TakeDrop
import Mathlib.Data.List.TakeWhile

/-! Decimal digits of integers, and the integers that the number reader reads. -/
namespace AnnotationCodec

namespace Decimal

variable {n k : Nat} {t : Text} {c : CodePoint}

theorem digitsOnto_eq (n : Nat) (acc : Text) : digitsOnto n acc = digits n ++ acc := by
  unfold digits
  induction n using Nat.strongRecOn generalizing acc with
  | _ n ih =>
    rw [digitsOnto, digitsOnto.eq_def n []]
    split
    · rfl
    · rw [ih (n / 10) (by omega), ih (n / 10) (by omega) [_], List.append_assoc]
      rfl

theorem digits_of_lt (h : n < 10) : digits n = [CodePoint.ofDigit n] := by
  rw [digits, digitsOnto, if_pos h]

theorem digits_of_le (h : 10 ≤ n) : digits n = digits (n / 10) ++ [CodePoint.ofDigit n] := by
  rw [digits, digitsOnto, if_neg (by omega), digitsOnto_eq]
  simp [CodePoint.ofDigit]

theorem val_ofDigit (n : Nat) : (CodePoint.ofDigit n).val = 0x30 + n % 10 := by
  simp [CodePoint.ofDigit, CodePoint.ofNat, show 0x30 + n % 10 < 0x110000 by omega]

theorem ofDigits_concat (t : Text) (c : CodePoint) :
    ofDigits (t ++ [c]) = ofDigits t * 10 + c.digitValue := by
  simp [ofDigits, value]

theorem ofDigits_digits (n : Nat) : ofDigits (digits n) = n := by
  induction n using Nat.strongRecOn with
  | _ n ih =>
    by_cases h : n < 10
    · rw [digits_of_lt h]
      simp [ofDigits, value, CodePoint.digitValue, val_ofDigit, Nat.mod_eq_of_lt h]
    · rw [digits_of_le (by omega), ofDigits_concat, ih (n / 10) (by omega)]
      simp only [CodePoint.digitValue, val_ofDigit]
      omega

theorem length_digits_pos (n : Nat) : 0 < (digits n).length := by
  by_cases h : n < 10
  · simp [digits_of_lt h]
  · simp [digits_of_le (Nat.not_lt.mp h)]

theorem length_digits_le_iff (n : Nat) (hk : 0 < k) : (digits n).length ≤ k ↔ n < 10 ^ k := by
  induction k generalizing n with
  | zero => omega
  | succ k ih =>
    have hle : 10 ^ 1 ≤ 10 ^ (k + 1) := Nat.pow_le_pow_right (by omega) (by omega)
    by_cases h : n < 10
    · simp only [digits_of_lt h, List.length_singleton]
      omega
    · rw [digits_of_le (by omega), List.length_append, List.length_singleton, Nat.add_le_add_iff_right]
      rcases Nat.eq_zero_or_pos k with rfl | hk
      · have := length_digits_pos (n / 10)
        omega
      · rw [ih _ hk, Nat.div_lt_iff_lt_mul (by omega), Nat.pow_succ]

theorem ofDigits_lt (h : ∀ c ∈ t, 0x30 ≤ c.val ∧ c.val ≤ 0x39) : ofDigits t < 10 ^ t.length := by
  induction t using List.reverseRecOn with
  | nil => simp [ofDigits, value]
  | append_singleton t c ih =>
    have hc := h c (by simp)
    have ht := ih (fun d hd => h d (by simp [hd]))
    rw [ofDigits_concat, List.length_append, List.length_singleton, Nat.pow_succ]
    simp only [CodePoint.digitValue]
    omega

theorem isDigit_iff : c.isDigit = true ↔ 0x30 ≤ c.val ∧ c.val ≤ 0x39 := by
  simp [CodePoint.isDigit]

/-- The digits of a number above zero start with none. -/
theorem digits_of_pos (h : 0 < n) :
    ∃ d r, digits n = d :: r ∧ 0x31 ≤ d.val ∧ d.val ≤ 0x39 ∧ ∀ c ∈ r, 0x30 ≤ c.val ∧ c.val ≤ 0x39 := by
  induction n using Nat.strongRecOn with
  | _ n ih =>
    by_cases hn : n < 10
    · refine ⟨_, [], digits_of_lt hn, ?_, ?_, by simp⟩ <;> rw [val_ofDigit] <;> omega
    · obtain ⟨d, r, hd, h1, h2, hr⟩ := ih (n / 10) (by omega) (by omega)
      refine ⟨d, r ++ [CodePoint.ofDigit n], by rw [digits_of_le (by omega), hd]; rfl, h1, h2, ?_⟩
      intro c hc
      rcases List.mem_append.mp hc with hc | hc
      · exact hr c hc
      · rw [List.mem_singleton.mp hc, val_ofDigit]
        omega

end Decimal

namespace Json

open Decimal

variable {n : Int} {t r x ds rest : Text} {c : CodePoint} {negative : Bool}

theorem numeral_digits (n : Nat) : Numeral (digits n) := by
  rcases Nat.eq_zero_or_pos n with rfl | h
  · exact Or.inl (digits_of_lt (by omega))
  · exact Or.inr (digits_of_pos h)

theorem digit_of_numeral (h : Numeral ds) : ∀ c ∈ ds, c.isDigit := by
  rcases h with rfl | ⟨d, r, rfl, h1, h2, hr⟩
  · intro c hc
    rw [List.mem_singleton.mp hc]
    decide
  · simpa [isDigit_iff] using ⟨⟨by omega, h2⟩, hr⟩

theorem ne_nil_of_numeral (h : Numeral ds) : ds ≠ [] := by
  rcases h with rfl | ⟨d, r, rfl, _⟩
  · decide
  · simp

/-- The text does not start with what satisfies `p`. -/
def Stops (p : CodePoint → Bool) (t : Text) : Prop :=
  ∀ c ∈ t.head?, p c = false

theorem dropWhile_append_of_stops {p : CodePoint → Bool} (hx : ∀ c ∈ x, p c) (hr : Stops p r) :
    (x ++ r).dropWhile p = r := by
  rw [List.dropWhile_append_of_pos hx]
  cases r with
  | nil => rfl
  | cons c r => simp [hr c rfl]

theorem takeWhile_append_of_stops {p : CodePoint → Bool} (hx : ∀ c ∈ x, p c) (hr : Stops p r) :
    (x ++ r).takeWhile p = x := by
  rw [List.takeWhile_append_of_pos hx]
  cases r with
  | nil => simp
  | cons c r => simp [hr c rfl]

theorem digitSpan_append (hx : ∀ c ∈ x, c.isDigit) (hr : Stops CodePoint.isDigit r) :
    digitSpan (x ++ r) = (x, r) := by
  rw [digitSpan, List.span_eq_takeWhile_dropWhile, takeWhile_append_of_stops hx hr,
    dropWhile_append_of_stops hx hr]

theorem digitSpan_eq (h : digitSpan t = (x, r)) : t = x ++ r ∧ ∀ c ∈ x, c.isDigit := by
  rw [digitSpan, List.span_eq_takeWhile_dropWhile] at h
  obtain ⟨rfl, rfl⟩ := Prod.mk.inj h
  exact ⟨List.takeWhile_append_dropWhile.symm, fun c hc => List.mem_takeWhile_imp hc⟩

theorem wholeSpan_append (h : Numeral ds) (hr : Stops CodePoint.isDigit r) :
    wholeSpan (ds ++ r) = (ds, r) := by
  have hs := digitSpan_append (digit_of_numeral h) hr
  rcases h with rfl | ⟨d, q, rfl, h1, h2, hq⟩
  · rfl
  · have hd : d ≠ '0' := by
      intro hd
      rw [hd] at h1
      exact absurd h1 (by decide)
    simpa [wholeSpan, hd] using hs

theorem numeral_of_wholeSpan (h : wholeSpan t = (ds, rest)) (hne : ds ≠ []) :
    Numeral ds ∧ t = ds ++ rest := by
  unfold wholeSpan at h
  split at h
  · next c r =>
    split at h
    · next hc =>
      cases h
      exact ⟨Or.inl (by rw [hc]; rfl), rfl⟩
    · next hc =>
      obtain ⟨ht, hd⟩ := digitSpan_eq h
      refine ⟨Or.inr ?_, ht⟩
      cases ds with
      | nil => exact (hne rfl).elim
      | cons d q =>
        obtain ⟨rfl, rfl⟩ := List.cons.inj ht
        simp only [List.mem_cons, forall_eq_or_imp, isDigit_iff] at hd
        have h0 : c.val ≠ 0x30 := fun h0 => hc (Fin.ext h0)
        exact ⟨c, q, rfl, by omega, hd.1.2, hd.2⟩
  · cases h
    exact (hne rfl).elim

theorem fractionSpan_eq_nil (h : fractionSpan t = ([], r)) : r = t := by
  unfold fractionSpan at h
  split at h
  · split at h
    · split at h
      · cases h
        rfl
      · next ds rest hne hs =>
        cases h
        exact (hne rfl).elim
    · cases h
      rfl
  · cases h
    rfl

theorem exponentSpan_eq_none (h : exponentSpan t = (none, r)) : r = t := by
  unfold exponentSpan at h
  split at h
  · split at h
    · split at h
      split at h
      · cases h
        rfl
      · cases h
    · cases h
      rfl
  · cases h
    rfl

theorem fractionSpan_of_stops (h : Stops (· = '.') t) : fractionSpan t = ([], t) := by
  cases t with
  | nil => rfl
  | cons c r =>
    have hc : c ≠ '.' := by simpa using h c rfl
    simp [fractionSpan, hc]

theorem exponentSpan_of_stops (h : Stops (fun c => c = 'e' || c = 'E') t) : exponentSpan t = (none, t) := by
  cases t with
  | nil => rfl
  | cons c r =>
    have hc := h c rfl
    simp only [Bool.or_eq_false_iff, decide_eq_false_iff_not] at hc
    simp [exponentSpan, hc.1, hc.2]

/-- What cannot go on a number. -/
def EndsNumber (t : Text) : Prop :=
  ∀ c ∈ t.head?, ¬ c.isDigit ∧ c ≠ '.' ∧ c ≠ 'e' ∧ c ≠ 'E'

theorem unsignedNumber_append (negative : Bool) (h : Numeral ds) (hl : ds.length ≤ digitLimit) (hr : EndsNumber rest) :
    unsignedNumber negative (ds ++ rest) =
      some (.ok (.int (if negative then -(ofDigits ds : Int) else ofDigits ds), rest)) := by
  have hw := wholeSpan_append h (r := rest) (fun c hc => by simpa using (hr c hc).1)
  have hf := fractionSpan_of_stops (t := rest) (fun c hc => by simpa using (hr c hc).2.1)
  have he := exponentSpan_of_stops (t := rest) (fun c hc => by simpa using (hr c hc).2.2)
  unfold unsignedNumber
  rw [hw]
  split
  · next hds => exact (ne_nil_of_numeral h (Prod.mk.inj hds).1).elim
  · next hds =>
    cases hds
    simp [hf, he, Nat.not_lt.mpr hl]

theorem numeral_of_unsignedNumber (h : unsignedNumber negative t = some (.ok (.int n, rest))) :
    ∃ ds, Numeral ds ∧ ds.length ≤ digitLimit ∧ t = ds ++ rest ∧
      n = if negative then -(ofDigits ds : Int) else ofDigits ds := by
  unfold unsignedNumber at h
  split at h
  · cases h
  · next whole r hne hw =>
    obtain ⟨hn, rfl⟩ := numeral_of_wholeSpan hw (fun he => hne (by simp [he]))
    split at h
    · next fraction q hf =>
      split at h
      · next exponent p he =>
        split at h
        · next hs =>
          simp only [Bool.and_eq_true, List.isEmpty_iff, Option.isNone_iff_eq_none] at hs
          obtain ⟨rfl, rfl⟩ := hs
          rw [exponentSpan_eq_none he, fractionSpan_eq_nil hf] at h
          split at h
          · cases h
          · next hl =>
            cases h
            exact ⟨whole, hn, Nat.not_lt.mp hl, rfl, rfl⟩
        · cases h

/-- There is no digit at the start of a word. -/
theorem word_start : ∀ w ∈ words, 2 ≤ w.1.length ∧ ∀ c ∈ w.1.take 2, c.isDigit = false := by
  intro w hw
  simp only [words, List.mem_cons, List.not_mem_nil, or_false] at hw
  rcases hw with rfl | rfl | rfl | rfl | rfl | rfl <;> simp [text] <;> decide

theorem no_word (hc : c ∈ t.take 2) (hd : c.isDigit) :
    words.find? (fun w => w.1.isPrefixOf t) = none := by
  rw [List.find?_eq_none]
  intro w hw hp
  obtain ⟨hl, hn⟩ := word_start w hw
  have ht := List.prefix_iff_eq_take.mp (List.isPrefixOf_iff_prefix.mp hp)
  have h2 : w.1.take 2 = t.take 2 := by
    rw [ht, List.take_take, Nat.min_eq_left hl]
  rw [← h2] at hc
  simp [hn c hc] at hd

theorem word_not_int : ∀ w ∈ words, ∀ n, w.2 ≠ .int n := by
  simp [words]

theorem getD_fail_eq_ok {o : Option (Except Error (Value × Text))} {p : Problem} {found : Value × Text}
    (h : o.getD (fail p t) = .ok found) : o = some (.ok found) := by
  cases o with
  | none => cases h
  | some y => rw [← h, Option.getD_some]

theorem scalar_signed (h : Signed x n) (hr : EndsNumber rest) : scalar (x ++ rest) = .ok (.int n, rest) := by
  cases h with
  | plain hn hl =>
    have hu := unsignedNumber_append false hn hl hr
    obtain ⟨d, q, rfl⟩ := List.exists_cons_of_ne_nil (ne_nil_of_numeral hn)
    have hd := digit_of_numeral hn d (by simp)
    have hm : d ≠ '-' := by
      rintro rfl
      exact absurd hd (by decide)
    unfold scalar
    rw [no_word (c := d) (by simp) hd]
    simp only [List.cons_append] at hu ⊢
    simp [hm, hu]
  | minus hn hl =>
    have hu := unsignedNumber_append true hn hl hr
    obtain ⟨d, q, rfl⟩ := List.exists_cons_of_ne_nil (ne_nil_of_numeral hn)
    unfold scalar
    rw [no_word (c := d) (by simp [text]) (digit_of_numeral hn d (by simp))]
    simp only [text, List.cons_append] at hu ⊢
    simp [hu]

theorem signed_of_scalar (h : scalar t = .ok (.int n, rest)) : ∃ x, Signed x n ∧ t = x ++ rest := by
  unfold scalar at h
  split at h
  · next w v hw =>
    cases h
    exact (word_not_int _ (List.mem_of_find?_eq_some hw) n rfl).elim
  · have hu := getD_fail_eq_ok h
    split at hu
    · next c r _ =>
      split at hu
      · next hc =>
        obtain ⟨ds, hn, hl, rfl, rfl⟩ := numeral_of_unsignedNumber hu
        exact ⟨_, .minus hn hl, by rw [hc]; rfl⟩
      · obtain ⟨ds, hn, hl, ht, rfl⟩ := numeral_of_unsignedNumber hu
        exact ⟨ds, .plain hn hl, ht⟩
    · cases hu

end Json

end AnnotationCodec
