import AnnotationCodec.Proofs.Json.Numeral
import AnnotationCodec.Proofs.Value.Display

/-!
Slashes in the text of a value. No number, date or mark of a collection is written with one, so that a slash in the
text of a value was in a text or in bytes of the value.
-/
namespace AnnotationCodec

variable {t : Text} {c : CodePoint}

theorem slash_not_mem_digits (n : Nat) : ('/' : CodePoint) ∉ Decimal.digits n := by
  intro h
  have hdigit := Json.digit_of_numeral (Json.numeral_digits n) _ h
  exact absurd hdigit (by decide)

theorem slash_not_mem_decimal (n : Int) : ('/' : CodePoint) ∉ Integer.decimal n := by
  cases n with
  | ofNat n => exact slash_not_mem_digits n
  | negSucc n =>
    rw [Integer.decimal, List.mem_cons, not_or]
    exact ⟨by decide, slash_not_mem_digits (n + 1)⟩

theorem slash_not_mem_zeros (n : Nat) : ('/' : CodePoint) ∉ Text.replicate n '0' := by
  intro h
  exact absurd (List.eq_of_mem_replicate h) (by decide)

theorem slash_not_mem_padded (width n : Nat) : ('/' : CodePoint) ∉ padded width n := by
  rw [padded, List.mem_append, not_or]
  exact ⟨slash_not_mem_zeros _, slash_not_mem_digits n⟩

theorem slash_not_mem_hex (width n : Nat) : ('/' : CodePoint) ∉ Text.hex false width n := by
  have hdigits : ∀ d < 16, ('/' : CodePoint) ≠ CodePoint.ofNat (if d < 10 then 0x30 + d else 0x57 + d) := by
    decide
  induction width generalizing n with
  | zero => exact List.not_mem_nil
  | succ w ih =>
    rw [Text.hex, List.mem_append, not_or]
    exact ⟨ih (n / 16), fun h => hdigits (n % 16) (Nat.mod_lt _ (by decide)) (List.mem_singleton.mp h)⟩

theorem slash_mem_joinWith_iff {sep : Text} (hsep : ('/' : CodePoint) ∉ sep) (ts : List Text) :
    ('/' : CodePoint) ∈ Text.joinWith sep ts ↔ ∃ t ∈ ts, ('/' : CodePoint) ∈ t := by
  induction ts with
  | nil => simp [Text.joinWith]
  | cons t ts ih =>
    cases ts with
    | nil => simp [Text.joinWith]
    | cons u ts => simp [Text.joinWith, ih, hsep]

namespace Text

/-- Of all code points only the slash itself is shown with a slash. -/
theorem slash_mem_literalPoint_iff {q : CodePoint} : ('/' : CodePoint) ∈ literalPoint q c ↔ c = '/' := by
  have hprintable : CodePoint.isPrintable '/' = true := by decide
  have hnumbered {mark : Text} (w n : Nat) (hc : ¬ c.isPrintable = true) (h : ('/' : CodePoint) ∉ mark) :
      ('/' : CodePoint) ∈ mark ++ hex false w n ↔ c = '/' := by
    have hne : c ≠ '/' := fun he => hc (he ▸ hprintable)
    simp [h, slash_not_mem_hex, hne]
  unfold literalPoint
  split_ifs with hmark hline hreturn htab hshown
  · have hne : ('/' : CodePoint) ≠ '\\' := by decide
    simp [hne, eq_comm]
  · rw [hline]
    decide
  · rw [hreturn]
    decide
  · rw [htab]
    decide
  · simp [eq_comm]
  · exact hnumbered 2 _ hshown (by decide)
  · exact hnumbered 4 _ hshown (by decide)
  · exact hnumbered 8 _ hshown (by decide)

theorem slash_mem_literal_iff : ('/' : CodePoint) ∈ t.literal ↔ ('/' : CodePoint) ∈ t := by
  have hquote : ('/' : CodePoint) ≠ preferredQuote t := by
    unfold preferredQuote
    split <;> decide
  simp only [literal, List.mem_append, List.mem_cons, List.mem_flatMap, slash_mem_literalPoint_iff, hquote,
    List.not_mem_nil, or_false, false_or]
  exact ⟨fun ⟨c, hc, h⟩ => h ▸ hc, fun h => ⟨_, h, rfl⟩⟩

end Text

namespace Binary64

theorem slash_not_mem_exponentText (e : Int) : ('/' : CodePoint) ∉ exponentText e := by
  have hsign : ('/' : CodePoint) ≠ (if e < 0 then ('-' : CodePoint) else ('+' : CodePoint)) := by
    split <;> decide
  have hzero (b : Prop) [Decidable b] : ('/' : CodePoint) ∉ (if b then text "0" else []) := by
    split <;> decide
  simp only [exponentText, List.mem_cons, List.mem_append, hsign, hzero, slash_not_mem_digits, or_false]
  decide

/-- Digits stay without a slash wherever the point is put. -/
theorem slash_not_mem_layout {ds : Text} (h : ('/' : CodePoint) ∉ ds) (point : Int) :
    ('/' : CodePoint) ∉ layout ds point := by
  unfold layout
  split_ifs
  · rw [List.mem_append, not_or]
    refine ⟨?_, slash_not_mem_exponentText _⟩
    match ds with
    | [] => exact h
    | [d] => exact h
    | d :: e :: r =>
      have hpoint : ('/' : CodePoint) ≠ '.' := by decide
      simpa [hpoint] using h
  · simp only [List.mem_append, h, slash_not_mem_zeros, or_false]
    decide
  · simp only [List.mem_append, h, slash_not_mem_zeros, false_or]
    decide
  · have htake : ('/' : CodePoint) ∉ ds.take point.toNat := fun hm => h (List.mem_of_mem_take hm)
    have hdrop : ('/' : CodePoint) ∉ ds.drop point.toNat := fun hm => h (List.mem_of_mem_drop hm)
    simp only [List.mem_append, htake, hdrop, or_false, false_or]
    decide

theorem slash_not_mem_shortestDigits (m : Nat) (e : Int) : ('/' : CodePoint) ∉ (shortestDigits m e).1 := by
  have hkept (c : Nat) : ('/' : CodePoint) ∉ Text.dropEndWhile (Decimal.digits c) (· = '0') := by
    rw [Text.dropEndWhile, List.mem_reverse]
    intro h
    exact slash_not_mem_digits c (List.mem_reverse.mp ((List.dropWhile_sublist _).mem h))
  unfold shortestDigits
  extract_lets low
  exact hkept _

theorem slash_not_mem_write (x : Binary64) : ('/' : CodePoint) ∉ x.write := by
  cases x with
  | nan => decide
  | infinity s => cases s <;> decide
  | finite s m e =>
    have hbody : ('/' : CodePoint) ∉ (if m = 0 then text "0.0" else
        layout (shortestDigits m e).1 (shortestDigits m e).2) := by
      split
      · decide
      · exact slash_not_mem_layout (slash_not_mem_shortestDigits m e) _
    cases s with
    | false => exact hbody
    | true =>
      show ('/' : CodePoint) ∉ ('-' : CodePoint) :: _
      rw [List.mem_cons, not_or]
      exact ⟨by decide, hbody⟩

end Binary64

namespace Date

theorem slash_not_mem_iso (d : Date) : ('/' : CodePoint) ∉ d.iso := by
  simp only [iso, List.mem_append, slash_not_mem_padded, or_false, false_or]
  decide

theorem slash_not_mem_literal (d : Date) : ('/' : CodePoint) ∉ d.literal := by
  have hmarks : ('/' : CodePoint) ∉ text "datetime.date(" ∧ ('/' : CodePoint) ∉ text ")" := by decide
  have hcomma : ('/' : CodePoint) ∉ text ", " := by decide
  simp only [literal, List.mem_append, slash_mem_joinWith_iff hcomma, hmarks]
  simp [slash_not_mem_digits]

end Date

theorem slash_not_mem_spanText (n : Int) : ('/' : CodePoint) ∉ CalendarError.spanText n := by
  have hpart (b : Prop) [Decidable b] (name : Text) (h : ('/' : CodePoint) ∉ name) (k : Int) :
      ('/' : CodePoint) ∉ (if b then [] else name ++ Integer.decimal k) := by
    split
    · exact List.not_mem_nil
    · simp [h, slash_not_mem_decimal]
  have hdays := hpart (n.fdiv 86400 = 0) (text "days=") (by decide) (n.fdiv 86400)
  have hrest := hpart (n.fmod 86400 = 0) (text "seconds=") (by decide) (n.fmod 86400)
  have hmarks : ('/' : CodePoint) ∉ text "datetime.timedelta(" ∧ ('/' : CodePoint) ∉ text ")" := by decide
  simp only [CalendarError.spanText, List.mem_append, hmarks, or_false, false_or]
  generalize (if n.fdiv 86400 = 0 then _ else _) = days at hdays ⊢
  generalize (if n.fmod 86400 = 0 then _ else _) = rest at hrest ⊢
  split
  · decide
  · rw [slash_mem_joinWith_iff (by decide)]
    rintro ⟨t, ht, hslash⟩
    have hmem := (List.mem_filter.mp ht).1
    simp only [List.mem_cons, List.not_mem_nil, or_false] at hmem
    rcases hmem with rfl | rfl
    · exact hdays hslash
    · exact hrest hslash

namespace DateTime

theorem slash_not_mem_iso (t : DateTime) : ('/' : CodePoint) ∉ t.iso ' ' := by
  have hoffset (o : Int) : ('/' : CodePoint) ∉ offsetText o := by
    simp only [offsetText, List.mem_append, slash_not_mem_padded, or_false]
    split <;> split <;> simp [slash_not_mem_padded] <;> decide
  have hfraction : ('/' : CodePoint) ∉
      (if t.microsecond = 0 then [] else text "." ++ padded 6 t.microsecond) := by
    split
    · exact List.not_mem_nil
    · simp only [List.mem_append, slash_not_mem_padded, or_false]
      decide
  simp only [iso, List.mem_append, slash_not_mem_padded, Date.slash_not_mem_iso, hfraction, or_false, false_or]
  cases t.offset with
  | none => decide
  | some o =>
    simp only [hoffset, or_false]
    decide

theorem slash_not_mem_offsetLiteral (o : Int) : ('/' : CodePoint) ∉ offsetLiteral o := by
  unfold offsetLiteral
  split
  · decide
  · simp only [List.mem_append, slash_not_mem_spanText, or_false]
    decide

theorem slash_not_mem_literal (t : DateTime) : ('/' : CodePoint) ∉ t.literal := by
  have hmarks : ('/' : CodePoint) ∉ text "datetime.datetime(" ∧ ('/' : CodePoint) ∉ text ")" := by decide
  have hcomma : ('/' : CodePoint) ∉ text ", " := by decide
  simp only [literal, List.mem_append, hmarks, slash_mem_joinWith_iff hcomma, List.mem_map,
    or_false, false_or]
  rintro ⟨u, ⟨n, -, rfl⟩ | hzone, hslash⟩
  · exact slash_not_mem_digits n hslash
  · cases ho : t.offset with
    | none => simp [ho] at hzone
    | some o =>
      simp only [ho, List.mem_singleton] at hzone
      have hname : ('/' : CodePoint) ∉ text "tzinfo=" := by decide
      simp [hzone, hname, slash_not_mem_offsetLiteral] at hslash

end DateTime

namespace Value

/-- A slash is in a text or in bytes of a value, however deep they are found. -/
def HoldsSlash : Value → Prop
  | .str t => ('/' : CodePoint) ∈ t
  | .bytes bs => 0x2F ∈ bs
  | .list vs | .tuple vs | .set vs => all vs
  | .map es => entries es
  | .descriptor (.moniker ⟨a, c, s, d, q⟩) =>
    a.HoldsSlash ∨ c.HoldsSlash ∨ s.HoldsSlash ∨ d.HoldsSlash ∨ q.HoldsSlash
  | .descriptor (.artifact ⟨t, n, l, v⟩) => t.HoldsSlash ∨ n.HoldsSlash ∨ l.HoldsSlash ∨ v.HoldsSlash
  | .descriptor (.relationships ⟨l, s⟩) => l.HoldsSlash ∨ s.HoldsSlash
  | _ => False
where
  all : List Value → Prop
    | [] => False
    | v :: vs => v.HoldsSlash ∨ all vs
  entries : List (Value × Value) → Prop
    | [] => False
    | (k, v) :: es => k.HoldsSlash ∨ v.HoldsSlash ∨ entries es

theorem slash_mem_bytePoint_iff {q : CodePoint} {b : UInt8} : ('/' : CodePoint) ∈ bytePoint q b ↔ b = 0x2F := by
  have hval : (CodePoint.ofNat b.toNat).val = b.toNat := by
    have := b.toNat_lt
    rw [CodePoint.ofNat, dif_pos (by omega)]
  have hslash : CodePoint.ofNat b.toNat = '/' ↔ b = 0x2F := by
    rw [Fin.ext_iff, hval, ← UInt8.toNat_inj]
    rfl
  unfold bytePoint
  simp only [hval]
  split
  · rw [Text.slash_mem_literalPoint_iff, hslash]
  · have hne : b ≠ 0x2F := by
      rintro rfl
      contradiction
    have hmark : ('/' : CodePoint) ∉ text "\\x" := by decide
    simp [hmark, slash_not_mem_hex, hne]

theorem slash_mem_bytesLiteral_iff {bs : List UInt8} : ('/' : CodePoint) ∈ bytesLiteral bs ↔ 0x2F ∈ bs := by
  have hquote : ('/' : CodePoint) ≠ Text.preferredQuote (bs.map fun b => CodePoint.ofNat b.toNat) := by
    unfold Text.preferredQuote
    split <;> decide
  have hmark : ('/' : CodePoint) ∉ text "b" := by decide
  simp [bytesLiteral, slash_mem_bytePoint_iff, hquote, hmark]

theorem slash_mem_commaList_iff {ts : List Text} :
    ('/' : CodePoint) ∈ commaList ts ↔ ∃ t ∈ ts, ('/' : CodePoint) ∈ t :=
  slash_mem_joinWith_iff (by decide) ts

/-- A descriptor is shown with the names of its attributes, which have no slash. -/
theorem slash_mem_attributeList_iff {d : Descriptor Text} :
    ('/' : CodePoint) ∈ literal.attributeList d ↔ ∃ a ∈ d.attributes, ('/' : CodePoint) ∈ a.2 := by
  have htype : ('/' : CodePoint) ∉ d.family.typeName := by
    cases d.family <;> decide
  have hname : ∀ a ∈ d.attributes, ('/' : CodePoint) ∉ a.1 := by
    cases d <;> simp only [Descriptor.attributes, List.forall_mem_cons] <;> decide
  have hmarks : ('/' : CodePoint) ∉ text "(" ∧ ('/' : CodePoint) ∉ text ")" ∧ ('/' : CodePoint) ∉ text "=" := by
    decide
  simp only [literal.attributeList, List.mem_append, slash_mem_commaList_iff, List.mem_map, htype, hmarks, or_false,
    false_or]
  constructor
  · rintro ⟨t, ⟨a, ha, rfl⟩, hslash⟩
    refine ⟨a, ha, ?_⟩
    simpa [hname a ha, hmarks] using hslash
  · rintro ⟨a, ha, hslash⟩
    exact ⟨_, ⟨a, ha, rfl⟩, by simp [hslash]⟩

mutual

/-- A slash in the text of a value is one of a text or of bytes in the value. -/
theorem slash_mem_literal_iff {v : Value} {t : Text} (h : v.literal = .ok t) :
    ('/' : CodePoint) ∈ t ↔ v.HoldsSlash := by
  have hlist : ('/' : CodePoint) ∉ text "[" ∧ ('/' : CodePoint) ∉ text "]" := by decide
  have hbraces : ('/' : CodePoint) ∉ text "\x7b" ∧ ('/' : CodePoint) ∉ text "\x7d" := by decide
  cases v with
  | null =>
    obtain rfl := Except.ok.inj h
    simp only [HoldsSlash, iff_false]
    decide
  | bool b =>
    obtain rfl := Except.ok.inj h
    simp only [HoldsSlash, iff_false]
    cases b <;> decide
  | int n =>
    rw [literal, Integer.write] at h
    split at h
    · obtain rfl := Except.ok.inj h
      simp only [HoldsSlash, slash_not_mem_decimal]
    · contradiction
  | float x =>
    obtain rfl := Except.ok.inj h
    simp only [HoldsSlash, x.slash_not_mem_write]
  | str t =>
    obtain rfl := Except.ok.inj h
    exact Text.slash_mem_literal_iff
  | bytes bs =>
    obtain rfl := Except.ok.inj h
    exact slash_mem_bytesLiteral_iff
  | date d =>
    obtain rfl := Except.ok.inj h
    simp only [HoldsSlash, d.slash_not_mem_literal]
  | dateTime t =>
    obtain rfl := Except.ok.inj h
    simp only [HoldsSlash, t.slash_not_mem_literal]
  | list vs =>
    obtain ⟨ts, hts, h⟩ := bind_eq_ok_iff.mp h
    obtain rfl := Except.ok.inj h
    simp [slash_mem_commaList_iff, slash_mem_all_iff hts, hlist, HoldsSlash]
  | tuple vs =>
    obtain ⟨ts, hts, h⟩ := bind_eq_ok_iff.mp h
    obtain rfl := Except.ok.inj h
    have hmarks : ('/' : CodePoint) ∉ text "(" ∧ ('/' : CodePoint) ∉ text ",)" ∧ ('/' : CodePoint) ∉ text ")" := by
      decide
    rw [HoldsSlash, ← slash_mem_all_iff hts]
    split <;> simp [slash_mem_commaList_iff, hmarks]
  | set vs =>
    cases vs with
    | nil =>
      obtain rfl := Except.ok.inj h
      simp only [HoldsSlash, HoldsSlash.all, iff_false]
      decide
    | cons v vs =>
      obtain ⟨t, ht, h⟩ := bind_eq_ok_iff.mp h
      obtain ⟨ts, hts, h⟩ := bind_eq_ok_iff.mp h
      obtain rfl := Except.ok.inj h
      have hitems : (∃ u ∈ t :: ts, ('/' : CodePoint) ∈ u) ↔ HoldsSlash (.set (v :: vs)) := by
        simp only [List.mem_cons, exists_eq_or_imp, slash_mem_literal_iff ht, slash_mem_all_iff hts, HoldsSlash,
          HoldsSlash.all]
      rw [← hitems]
      simp [slash_mem_commaList_iff, hbraces]
  | map es =>
    obtain ⟨ts, hts, h⟩ := bind_eq_ok_iff.mp h
    obtain rfl := Except.ok.inj h
    simp [slash_mem_commaList_iff, slash_mem_pairs_iff hts, hbraces, HoldsSlash]
  | descriptor d =>
    rcases d with ⟨a, c, s, d, q⟩ | ⟨t, n, l, v⟩ | ⟨l, s⟩
    · obtain ⟨ta, ha, h⟩ := bind_eq_ok_iff.mp h
      obtain ⟨tc, hc, h⟩ := bind_eq_ok_iff.mp h
      obtain ⟨ts, hs, h⟩ := bind_eq_ok_iff.mp h
      obtain ⟨td, hd, h⟩ := bind_eq_ok_iff.mp h
      obtain ⟨tq, hq, h⟩ := bind_eq_ok_iff.mp h
      obtain rfl := Except.ok.inj h
      simp [slash_mem_attributeList_iff, Descriptor.attributes, HoldsSlash, slash_mem_literal_iff ha,
        slash_mem_literal_iff hc, slash_mem_literal_iff hs, slash_mem_literal_iff hd, slash_mem_literal_iff hq]
    · obtain ⟨tt, ht, h⟩ := bind_eq_ok_iff.mp h
      obtain ⟨tn, hn, h⟩ := bind_eq_ok_iff.mp h
      obtain ⟨tl, hl, h⟩ := bind_eq_ok_iff.mp h
      obtain ⟨tv, hv, h⟩ := bind_eq_ok_iff.mp h
      obtain rfl := Except.ok.inj h
      simp [slash_mem_attributeList_iff, Descriptor.attributes, HoldsSlash, slash_mem_literal_iff ht,
        slash_mem_literal_iff hn, slash_mem_literal_iff hl, slash_mem_literal_iff hv]
    · obtain ⟨tl, hl, h⟩ := bind_eq_ok_iff.mp h
      obtain ⟨ts, hs, h⟩ := bind_eq_ok_iff.mp h
      obtain rfl := Except.ok.inj h
      simp [slash_mem_attributeList_iff, Descriptor.attributes, HoldsSlash, slash_mem_literal_iff hl,
        slash_mem_literal_iff hs]

theorem slash_mem_all_iff {vs : List Value} {ts : List Text} (h : literal.all vs = .ok ts) :
    (∃ t ∈ ts, ('/' : CodePoint) ∈ t) ↔ HoldsSlash.all vs := by
  cases vs with
  | nil =>
    obtain rfl := Except.ok.inj h
    simp [HoldsSlash.all]
  | cons v vs =>
    obtain ⟨t, ht, h⟩ := bind_eq_ok_iff.mp h
    obtain ⟨ts, hts, h⟩ := bind_eq_ok_iff.mp h
    obtain rfl := Except.ok.inj h
    simp only [List.mem_cons, exists_eq_or_imp, slash_mem_literal_iff ht, slash_mem_all_iff hts, HoldsSlash.all]

theorem slash_mem_pairs_iff {es : List (Value × Value)} {ts : List Text} (h : literal.pairs es = .ok ts) :
    (∃ t ∈ ts, ('/' : CodePoint) ∈ t) ↔ HoldsSlash.entries es := by
  cases es with
  | nil =>
    obtain rfl := Except.ok.inj h
    simp [HoldsSlash.entries]
  | cons e es =>
    obtain ⟨k, v⟩ := e
    obtain ⟨tk, hk, h⟩ := bind_eq_ok_iff.mp h
    obtain ⟨tv, hv, h⟩ := bind_eq_ok_iff.mp h
    obtain ⟨ts, hts, h⟩ := bind_eq_ok_iff.mp h
    obtain rfl := Except.ok.inj h
    have hcolon : ('/' : CodePoint) ∉ text ": " := by decide
    simp only [List.mem_cons, exists_eq_or_imp, List.mem_append, hcolon, or_false, slash_mem_literal_iff hk,
      slash_mem_literal_iff hv, slash_mem_pairs_iff hts, HoldsSlash.entries, or_assoc]

end

/-- A text and a date stand for themselves in a message. -/
theorem slash_mem_display_iff {v : Value} {t : Text} (h : v.display = .ok t) :
    ('/' : CodePoint) ∈ t ↔ v.HoldsSlash := by
  cases v with
  | str t =>
    obtain rfl := Except.ok.inj h
    rfl
  | date d =>
    obtain rfl := Except.ok.inj h
    simp only [HoldsSlash, d.slash_not_mem_iso]
  | dateTime t =>
    obtain rfl := Except.ok.inj h
    simp only [HoldsSlash, t.slash_not_mem_iso]
  | _ => exact slash_mem_literal_iff h

end Value

end AnnotationCodec
