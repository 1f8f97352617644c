import AnnotationCodec.Json.Writer
import AnnotationCodec.Proofs.Json.Shape

/-! What the writer writes denotes what was written. -/
namespace AnnotationCodec

namespace Json

variable {c : CodePoint} {t s : Text} {ts : List Text} {n : Nat}

/-- How a written code point is marked: by its number if it is a control character without a letter. -/
def markOf (c : CodePoint) : Mark :=
  if c.val < 0x20 ∧ ∀ e, (e, c) ∉ shortEscapes then .unit c.val else .point c

theorem hexDigit_ofNat (h : n < 16) :
    HexDigit (CodePoint.ofNat (if n < 10 then 0x30 + n else if false then 0x37 + n else 0x57 + n)) n := by
  unfold HexDigit
  by_cases hn : n < 10
  · simp [CodePoint.ofNat, hn, show 0x30 + n < 0x110000 by omega]
  · simp [CodePoint.ofNat, hn, show 0x57 + n < 0x110000 by omega]
    omega

/-- Four hexadecimal digits spell a number of sixteen bits. -/
theorem spells_hex (h : n < 0x10000) : Spells (text "\\u" ++ Text.hex false 4 n) (.unit n) := by
  have hs := Spells.numbered (hexDigit_ofNat (n := n / 16 / 16 / 16 % 16) (by omega))
    (hexDigit_ofNat (n := n / 16 / 16 % 16) (by omega)) (hexDigit_ofNat (n := n / 16 % 16) (by omega))
    (hexDigit_ofNat (n := n % 16) (by omega))
  rw [show ((n / 16 / 16 / 16 % 16 * 16 + n / 16 / 16 % 16) * 16 + n / 16 % 16) * 16 + n % 16 = n by omega] at hs
  exact hs

/-- A code point with a letter may be written by it. -/
theorem spells_short {e : CodePoint} (h : (e, c) ∈ shortEscapes) : Spells ['\\', e] (markOf c) := by
  rw [markOf, if_neg (fun hn => hn.2 e h)]
  exact .short h

theorem no_letter (hb : c ≠ '\x08') (hf : c ≠ '\x0C') (hn : c ≠ '\n') (hr : c ≠ '\r') (ht : c ≠ '\t')
    (hc : c.val < 0x20) (e : CodePoint) : (e, c) ∉ shortEscapes := by
  simp only [shortEscapes, List.mem_cons, Prod.mk.injEq, List.not_mem_nil, or_false]
  rintro (h | h | h | h | h | h | h | h)
  · exact absurd (h.2 ▸ hc) (by decide)
  · exact absurd (h.2 ▸ hc) (by decide)
  · exact absurd (h.2 ▸ hc) (by decide)
  · exact hb h.2
  · exact hf h.2
  · exact hn h.2
  · exact hr h.2
  · exact ht h.2

theorem spells_escape (c : CodePoint) : Spells (escape c) (markOf c) := by
  unfold escape
  split_ifs with hq hs hb hf hn hr ht hc
  · exact hq ▸ spells_short (e := '"') (by decide)
  · exact hs ▸ spells_short (e := '\\') (by decide)
  · exact hb ▸ spells_short (e := 'b') (by decide)
  · exact hf ▸ spells_short (e := 'f') (by decide)
  · exact hn ▸ spells_short (e := 'n') (by decide)
  · exact hr ▸ spells_short (e := 'r') (by decide)
  · exact ht ▸ spells_short (e := 't') (by decide)
  · rw [markOf, if_pos ⟨hc, no_letter hb hf hn hr ht hc⟩]
    exact spells_hex (by omega)
  · rw [markOf, if_neg (fun h => hc h.1)]
    exact .plain (by omega) hq hs

theorem body_escape (t : Text) : Body (t.flatMap escape) (t.map markOf) := by
  induction t with
  | nil => exact .nil
  | cons c t ih => exact .cons (spells_escape c) ih

theorem denote_unit {ms : List Mark} (h : ¬ IsHighUnit n) :
    denote (.unit n :: ms) = CodePoint.ofNat n :: denote ms := by
  cases ms with
  | nil => rfl
  | cons m ms =>
    cases m with
    | point p => rfl
    | unit l => rw [denote, if_neg (fun hs => h hs.1)]

theorem markOf_cases (c : CodePoint) :
    markOf c = .point c ∨ markOf c = .unit c.val ∧ c.val < 0x20 := by
  unfold markOf
  split
  · next h => exact Or.inr ⟨rfl, h.1⟩
  · exact Or.inl rfl

/-- No unit that is written is half of a code point, so nothing joins. -/
theorem denote_markOf (t : Text) : denote (t.map markOf) = t := by
  induction t with
  | nil => rfl
  | cons c t ih =>
    rw [List.map_cons]
    rcases markOf_cases c with hm | ⟨hm, hc⟩
    · rw [hm, denote, ih]
    · have hh : ¬ IsHighUnit c.val := by
        unfold IsHighUnit
        omega
      rw [hm, denote_unit hh, ih]
      simp [CodePoint.ofNat]

theorem literal_writeString (t : Text) : Literal (writeString t) t :=
  ⟨_, _, body_escape t, rfl, (denote_markOf t).symm⟩

theorem padded_writeString (t : Text) : Padded (writeString t) t :=
  ⟨[], _, [], by simp [Blank], literal_writeString t, by simp [Blank], by simp⟩

theorem series_joinWith (t : Text) (ts : List Text) :
    Series (Text.joinWith (text ", ") ((t :: ts).map writeString)) (t :: ts) := by
  induction ts generalizing t with
  | nil => exact .one (padded_writeString t)
  | cons u ts ih =>
    have hb : Blank (text " ") := by simp [Blank, text]
    have h := Series.more (padded_writeString t) (series_prepend hb (ih u))
    simp only [List.map_cons, Text.joinWith, List.append_assoc] at h ⊢
    exact h

theorem bracketed_writeStrings (ts : List Text) : Bracketed (writeStrings ts) ts := by
  cases ts with
  | nil => exact .empty (b := []) (by simp [Blank])
  | cons t ts => exact .series (series_joinWith t ts)

theorem length_digits_le (h : n < 10 ^ digitLimit) : (Decimal.digits n).length ≤ digitLimit :=
  (Decimal.length_digits_le_iff n (by decide)).mpr h

/-- An integer within the digit limit is written as a text that denotes it. -/
theorem signed_decimal {n : Int} (h : n.natAbs < 10 ^ digitLimit) : Signed (Integer.decimal n) n := by
  cases n with
  | ofNat n =>
    have hs := Signed.plain (numeral_digits n) (length_digits_le h)
    rwa [Decimal.ofDigits_digits] at hs
  | negSucc n =>
    have hs := Signed.minus (numeral_digits (n + 1)) (length_digits_le h)
    rwa [Decimal.ofDigits_digits] at hs

end Json

end AnnotationCodec
