import AnnotationCodec.Json.Reader
import AnnotationCodec.Proofs.Except
import AnnotationCodec.Proofs.Json.Grammar
import Mathlib.Tactic.Common

/-! The string reader reads exactly the literals, up to their closing quote. -/
namespace AnnotationCodec.Json

variable {c a b d e : CodePoint} {t r x s : Text} {m : Mark} {ms : List Mark} {left n : Nat}

theorem hexValue?_eq_some_iff : c.hexValue? = some n ↔ HexDigit c n := by
  unfold CodePoint.hexValue? HexDigit CodePoint.isDigit
  split
  · simp_all
    omega
  · split
    · simp_all
      omega
    · split <;> simp_all <;> omega

theorem hexFour?_eq_some_iff : hexFour? a b c d = some n ↔
    ∃ i j k l, HexDigit a i ∧ HexDigit b j ∧ HexDigit c k ∧ HexDigit d l ∧
      n = ((i * 16 + j) * 16 + k) * 16 + l := by
  simp only [← hexValue?_eq_some_iff]
  unfold hexFour?
  constructor
  · intro h
    split at h
    · rename_i i j k l hi hj hk hl
      exact ⟨i, j, k, l, hi, hj, hk, hl, by simpa using h.symm⟩
    · simp at h
  · rintro ⟨i, j, k, l, hi, hj, hk, hl, rfl⟩
    simp [hi, hj, hk, hl]

theorem hexDigit_lt (h : HexDigit c n) : n < 16 := by
  unfold HexDigit at h
  omega

theorem unescape?_eq_some_iff : unescape? e = some c ↔ (e, c) ∈ shortEscapes := by
  simp only [shortEscapes, List.mem_cons, Prod.mk.injEq, List.not_mem_nil, or_false]
  constructor
  · intro h
    unfold unescape? at h
    split_ifs at h <;> simp_all
    tauto
  · intro h
    rcases h with h | h | h | h | h | h | h | h <;> obtain ⟨rfl, rfl⟩ := h <;> decide

theorem isHighUnit_iff (hn : n < 0x10000) : (CodePoint.ofNat n).isHighSurrogate = true ↔ IsHighUnit n := by
  simp [CodePoint.isHighSurrogate, CodePoint.ofNat, IsHighUnit, show n < 0x110000 by omega]

theorem isLowUnit_iff (hn : n < 0x10000) : (CodePoint.ofNat n).isLowSurrogate = true ↔ IsLowUnit n := by
  simp [CodePoint.isLowSurrogate, CodePoint.ofNat, IsLowUnit, show n < 0x110000 by omega]

/-- Code points that belong to an item are passed over. -/
theorem stringFrom_skip (x r : Text) : stringFrom left x.length (x ++ r) = stringFrom left 0 r := by
  induction x with
  | nil => rfl
  | cons c x ih => simpa [stringFrom] using ih

theorem stringFrom_point (h : item (x ++ r) = .point c x.length) (hx : x ≠ []) :
    stringFrom left 0 (x ++ r) = (stringFrom left 0 r).map fun (s, rest) => (c :: s, rest) := by
  cases x with
  | nil => exact (hx rfl).elim
  | cons y x =>
    simp only [List.cons_append, List.length_cons] at h ⊢
    rw [stringFrom, h]
    simp only [Nat.add_sub_cancel, stringFrom_skip]

theorem shortEscape_ne_u (h : (e, c) ∈ shortEscapes) : e ≠ 'u' := by
  simp only [shortEscapes, List.mem_cons, Prod.mk.injEq, List.not_mem_nil, or_false] at h
  rcases h with h | h | h | h | h | h | h | h <;> rw [h.1] <;> decide

theorem unit_lt (h : Spells x (.unit n)) : n < 0x10000 := by
  cases h with
  | numbered ha hb hc hd =>
    have := hexDigit_lt ha
    have := hexDigit_lt hb
    have := hexDigit_lt hc
    have := hexDigit_lt hd
    omega

theorem length_unit (h : Spells x (.unit n)) : x.length = 6 := by
  cases h
  rfl

theorem item_plain (hc : 0x20 ≤ c.val) (hq : c ≠ '"') (hb : c ≠ '\\') :
    item (c :: r) = .point c 1 := by
  simp [item, hq, hb, show ¬ c.val < 0x20 by omega]

theorem item_short (h : (e, c) ∈ shortEscapes) : item ('\\' :: e :: r) = .point c 2 := by
  have hu := shortEscape_ne_u h
  rw [← unescape?_eq_some_iff] at h
  rw [item, if_neg (by decide), if_pos rfl]
  simp [hu, h]

theorem item_unit (h : Spells x (.unit n)) (hr : r ≠ []) :
    item (x ++ r) = if IsHighUnit n then highItem n r else .point (CodePoint.ofNat n) 6 := by
  have hn := unit_lt h
  cases h with
  | numbered ha hb hc hd =>
    obtain ⟨e, q, rfl⟩ := List.exists_cons_of_ne_nil hr
    have hf := hexFour?_eq_some_iff.mpr ⟨_, _, _, _, ha, hb, hc, hd, rfl⟩
    simp only [List.cons_append, List.nil_append]
    rw [item, if_neg (by decide), if_pos rfl]
    simp only [if_true, numberedItem, hf, isHighUnit_iff hn]

theorem highItem_unit (h : Spells x (.unit n)) (hr : r ≠ []) (high : Nat) :
    highItem high (x ++ r) =
      if IsLowUnit n then .point (joinSurrogates high n) 12 else .point (CodePoint.ofNat high) 6 := by
  have hn := unit_lt h
  cases h with
  | numbered ha hb hc hd =>
    obtain ⟨e, q, rfl⟩ := List.exists_cons_of_ne_nil hr
    have hf := hexFour?_eq_some_iff.mpr ⟨_, _, _, _, ha, hb, hc, hd, rfl⟩
    simp [highItem, hf, isLowUnit_iff hn]

theorem highItem_single {high : Nat} (h : ∀ q, t ≠ text "\\u" ++ q) :
    highItem high t = .point (CodePoint.ofNat high) 6 := by
  unfold highItem
  split
  · next b u e f g i j q =>
    have hbu : ¬ (b = '\\' ∧ u = 'u') := by
      rintro ⟨rfl, rfl⟩
      exact h _ rfl
    simp [hbu]
  · rfl

/-- A high unit stands alone unless a low unit follows. -/
theorem highItem_alone {y : Text} (hy : Body y ms) (hm : ∀ l ns, ms = .unit l :: ns → ¬ IsLowUnit l)
    (high : Nat) : highItem high (y ++ text "\"" ++ r) = .point (CodePoint.ofNat high) 6 := by
  cases hy with
  | nil =>
    apply highItem_single
    intro q hq
    exact absurd (List.cons.inj hq).1 (by decide)
  | @cons x y m ms hx ht =>
    cases m with
    | unit l =>
      rw [List.append_assoc, List.append_assoc, highItem_unit hx (by simp [text]), if_neg (hm l ms rfl)]
    | point c =>
      apply highItem_single
      intro q hq
      cases hx with
      | plain _ _ hb => exact hb (List.cons.inj hq).1
      | short h => exact shortEscape_ne_u h (List.cons.inj (List.cons.inj hq).2).1

theorem ne_nil_of_spells (h : Spells x m) : x ≠ [] := by
  cases h <;> simp

theorem item_point (h : Spells x (.point c)) : item (x ++ r) = .point c x.length := by
  cases h with
  | plain hc hq hb => exact item_plain hc hq hb
  | short h => exact item_short h

/-- A unit that does not join with what follows is a code point of its own. -/
theorem item_unit_alone {y : Text} (hx : Spells x (.unit n)) (hy : Body y ms)
    (hm : ∀ l ns, ms = .unit l :: ns → ¬ (IsHighUnit n ∧ IsLowUnit l)) :
    item (x ++ (y ++ text "\"" ++ r)) = .point (CodePoint.ofNat n) x.length := by
  rw [item_unit hx (by simp [text]), length_unit hx]
  split
  · next hh => exact highItem_alone hy (fun l ns he hl => hm l ns he ⟨hh, hl⟩) n
  · rfl

theorem item_pair {z : Text} {h l : Nat} (hx : Spells x (.unit h)) (hz : Spells z (.unit l))
    (hh : IsHighUnit h) (hl : IsLowUnit l) (hr : r ≠ []) :
    item ((x ++ z) ++ r) = .point (joinSurrogates h l) (x ++ z).length := by
  rw [List.append_assoc, item_unit hx (by simp [hr]), if_pos hh, highItem_unit hz hr, if_pos hl,
    List.length_append, length_unit hx, length_unit hz]

theorem stringFrom_item {rest : Text} (h : item (x ++ r) = .point c x.length) (hx : x ≠ [])
    (hr : stringFrom left 0 r = .ok (s, rest)) : stringFrom left 0 (x ++ r) = .ok (c :: s, rest) := by
  rw [stringFrom_point h hx, hr]
  rfl

/-- Between quotes, what is spelled is read as what it denotes. -/
theorem stringFrom_body {y : Text} (hy : Body y ms) (rest : Text) :
    stringFrom left 0 (y ++ text "\"" ++ rest) = .ok (denote ms, rest) := by
  fun_induction denote ms generalizing y with
  | case1 =>
    cases hy
    rfl
  | case2 h l ms hs ih =>
    cases hy with
    | @cons x _ _ _ hx hy =>
      cases hy with
      | @cons z y _ _ hz hy =>
        have hi := item_pair hx hz hs.1 hs.2 (r := y ++ text "\"" ++ rest) (by simp [text])
        have hp := stringFrom_item hi (by simp [ne_nil_of_spells hx]) (ih hy)
        simpa only [List.append_assoc, joinSurrogates] using hp
  | case3 h l ms hs ih =>
    cases hy with
    | cons hx hy =>
      have hi := item_unit_alone (r := rest) hx hy (by rintro l' ns ⟨⟩; exact hs)
      have hp := stringFrom_item hi (ne_nil_of_spells hx) (ih hy)
      simpa only [List.append_assoc] using hp
  | case4 n ms hn ih =>
    cases hy with
    | cons hx hy =>
      have hi := item_unit_alone (r := rest) hx hy (by rintro l ns rfl; exact (hn l ns rfl).elim)
      have hp := stringFrom_item hi (ne_nil_of_spells hx) (ih hy)
      simpa only [List.append_assoc] using hp
  | case5 c ms ih =>
    cases hy with
    | cons hx hy =>
      have hp := stringFrom_item (item_point hx) (ne_nil_of_spells hx) (ih hy)
      simpa only [List.append_assoc] using hp

theorem spells_of_hexFour {e f g h : CodePoint} (hn : hexFour? e f g h = some n) :
    Spells ['\\', 'u', e, f, g, h] (.unit n) := by
  obtain ⟨i, j, k, l, hi, hj, hk, hl, rfl⟩ := hexFour?_eq_some_iff.mp hn
  exact .numbered hi hj hk hl

theorem body_of_highItem {high w : Nat} (h : highItem high t = .point c w) :
    w = 6 ∨ w = 12 ∧ ∃ x l r, Spells x (.unit l) ∧ t = x ++ r := by
  unfold highItem at h
  split at h
  · next b u e f g i j q =>
    split at h
    · next hbu =>
      simp only [Bool.and_eq_true, decide_eq_true_eq] at hbu
      obtain ⟨rfl, rfl⟩ := hbu
      split at h
      · cases h
      · next l hl =>
        split at h
        · injection h with _ hw
          exact Or.inr ⟨hw.symm, _, l, j :: q, spells_of_hexFour hl, rfl⟩
        · cases h
          exact Or.inl rfl
    · cases h
      exact Or.inl rfl
  · cases h
    exact Or.inl rfl

theorem body_of_numberedItem {w : Nat} (h : numberedItem t = .point c w) :
    ∃ y ms r, Body y ms ∧ text "\\u" ++ t = y ++ r ∧ y.length = w ∧ y ≠ [] := by
  unfold numberedItem at h
  split at h
  · next a b c' d e q =>
    split at h
    · cases h
    · next n hn =>
      have hx := spells_of_hexFour hn
      split at h
      · rcases body_of_highItem h with rfl | ⟨rfl, z, l, r, hz, hr⟩
        · exact ⟨_, _, e :: q, .cons hx .nil, rfl, rfl, by simp⟩
        · refine ⟨_, _, r, .cons hx (.cons hz .nil), ?_, ?_, by simp⟩
          · simp [text, hr]
          · simp [length_unit hz]
      · cases h
        exact ⟨_, _, e :: q, .cons hx .nil, rfl, rfl, by simp⟩
  · cases h

/-- What is read as an item is spelled by one mark, or by two units that join. -/
theorem body_of_item {w : Nat} (h : item t = .point c w) :
    ∃ y ms r, Body y ms ∧ t = y ++ r ∧ y.length = w ∧ y ≠ [] := by
  unfold item at h
  split at h
  · cases h
  · next b q =>
    split_ifs at h with hq hb hc
    · subst hb
      split at h
      · cases h
      · next e q =>
        split at h
        · next he =>
          subst he
          exact body_of_numberedItem h
        · split at h
          · next p hp =>
            cases h
            exact ⟨_, _, q, .cons (.short (unescape?_eq_some_iff.mp hp)) .nil, rfl, rfl, by simp⟩
          · cases h
    · cases h
      exact ⟨_, _, q, .cons (.plain (by omega) hq hb) .nil, rfl, rfl, by simp⟩

theorem body_append {x y : Text} {ns : List Mark} (hx : Body x ms) (hy : Body y ns) :
    Body (x ++ y) (ms ++ ns) := by
  induction hx with
  | nil => exact hy
  | cons hx _ ih => simpa using Body.cons hx ih

theorem highItem_ne_close (high : Nat) (t : Text) : highItem high t ≠ .close := by
  unfold highItem
  repeat' split
  all_goals simp

theorem numberedItem_ne_close (t : Text) : numberedItem t ≠ .close := by
  unfold numberedItem
  repeat' split
  all_goals simp [highItem_ne_close]

theorem eq_quote_of_item (h : item t = .close) : ∃ r, t = text "\"" ++ r := by
  unfold item at h
  split at h
  · cases h
  · next b q =>
    split_ifs at h with hq hb hc
    · exact ⟨q, by rw [hq]; rfl⟩
    · split at h
      · cases h
      · split at h
        · exact (numberedItem_ne_close _ h).elim
        · split at h <;> cases h

/-- Whatever is read as the rest of a string is spelled by marks up to a quote. -/
theorem body_of_stringFrom {rest : Text} (h : stringFrom left 0 t = .ok (s, rest)) :
    ∃ y ms, Body y ms ∧ t = y ++ text "\"" ++ rest := by
  induction hl : t.length using Nat.strongRecOn generalizing t s with
  | _ k ih =>
    cases t with
    | nil => cases h
    | cons b q =>
      have hs := h
      rw [stringFrom] at h
      split at h
      · next hi =>
        obtain ⟨r, hr⟩ := eq_quote_of_item hi
        cases h
        exact ⟨[], [], .nil, by rw [(List.cons.inj hr).1]; rfl⟩
      · next p w hi =>
        obtain ⟨y, ms, r, hy, hr, rfl, hne⟩ := body_of_item hi
        rw [hr] at hi hs hl
        rw [stringFrom_point hi hne] at hs
        obtain ⟨found, hf, hs⟩ := map_eq_ok_iff.mp hs
        cases hs
        have hlt : r.length < k := by
          have := List.length_pos_iff.mpr hne
          rw [← hl, List.length_append]
          omega
        obtain ⟨z, ns, hz, hrz⟩ := ih _ hlt hf rfl
        exact ⟨_, _, body_append hy hz, by rw [hr, hrz]; simp⟩
      · cases h
      · cases h

/-- The string reader accepts the literals, with whatever stands behind them. -/
theorem string_eq_ok_iff {rest : Text} :
    string t = .ok (s, rest) ↔ ∃ l, Literal l s ∧ text "\"" ++ t = l ++ rest := by
  unfold string
  constructor
  · intro h
    obtain ⟨y, ms, hy, rfl⟩ := body_of_stringFrom h
    rw [stringFrom_body hy rest] at h
    cases h
    exact ⟨_, ⟨y, ms, hy, rfl, rfl⟩, by simp only [List.append_assoc]⟩
  · rintro ⟨_, ⟨y, ms, hy, rfl, rfl⟩, ht⟩
    simp only [List.append_assoc, List.append_cancel_left_eq] at ht
    rw [ht, ← List.append_assoc]
    exact stringFrom_body hy rest

end AnnotationCodec.Json
