import AnnotationCodec.Proofs.Json.Writer
import AnnotationCodec.Proofs.Yaml.Style.Scalar
import AnnotationCodec.Yaml.Scalar
import AnnotationCodec.Yaml.Style

/-!
The scalars of words and of integers. The decimal text of an integer is a plain scalar, is taken for an integer, and is read
as the integer that it was written from.
-/
namespace AnnotationCodec.Yaml

open Json

variable {t ds : Text} {c : CodePoint} {n : Int}

/-- A digit or a minus sign comes first. -/
def StartsNumber (t : Text) : Prop :=
  ∃ c r, t = c :: r ∧ (c.isDigit = true ∨ c = '-')

theorem startsNumber_of_numeral (h : Numeral ds) : StartsNumber ds := by
  obtain ⟨c, r, rfl⟩ := List.exists_cons_of_ne_nil (ne_nil_of_numeral h)
  exact ⟨c, r, rfl, .inl (digit_of_numeral h c List.mem_cons_self)⟩

theorem startsNumber_minus (ds : Text) : StartsNumber (text "-" ++ ds) :=
  ⟨_, ds, rfl, .inr rfl⟩

/-- A word that starts with neither is another text. -/
theorem isOneOf_eq_false {words : List String} (h : StartsNumber t)
    (hwords : words.all (fun w => (text w).head?.all fun (c : CodePoint) => !(c.isDigit || c = '-')) = true) : isOneOf words t = false := by
  obtain ⟨c, r, rfl, hc⟩ := h
  refine List.any_eq_false.mpr fun w hw => ?_
  have hword := List.all_eq_true.mp hwords w hw
  rw [decide_eq_true_eq]
  intro heq
  rw [← heq] at hword
  simp only [List.head?_cons, Option.all_some, Bool.not_eq_true', Bool.or_eq_false_iff, decide_eq_false_iff_not] at hword
  rcases hc with hc | hc
  · exact absurd hc (by simp [hword.1])
  · exact hword.2 hc

/-! The unsigned part -/

theorem ne_of_isDigit {d : CodePoint} (hc : c.isDigit = true) (hd : d.isDigit = false) : c ≠ d := by
  rintro rfl
  exact absurd hc (by simp [hd])

theorem isDigitOrLine_of_isDigit (h : c.isDigit = true) : isDigitOrLine c = true := by
  simp [isDigitOrLine, h]

theorem splitAt_of_forall {sep : CodePoint} (h : ∀ c ∈ t, c ≠ sep) : Text.splitAt sep t = [t] := by
  induction t with
  | nil => rfl
  | cons c t ih =>
    rw [List.forall_mem_cons] at h
    rw [Text.splitAt, if_neg h.1, ih h.2]

theorem dropSign_of_numeral (h : Numeral ds) : dropSign ds = ds := by
  obtain ⟨c, r, rfl⟩ := List.exists_cons_of_ne_nil (ne_nil_of_numeral h)
  have hc := digit_of_numeral h c List.mem_cons_self
  have hplus : c ≠ '+' := ne_of_isDigit hc (by decide)
  have hminus : c ≠ '-' := ne_of_isDigit hc (by decide)
  simp [dropSign, hplus, hminus]

theorem isFixedFloat_numeral (h : Numeral ds) : isFixedFloat false ds = false := by
  have hrest : ds.dropWhile isDigitOrLine = [] :=
    List.dropWhile_eq_nil_iff.mpr fun c hc => isDigitOrLine_of_isDigit (digit_of_numeral h c hc)
  simp [isFixedFloat, hrest]

theorem isSexagesimalFloat_numeral (h : Numeral ds) : isSexagesimalFloat (Text.splitAt ':' ds) = false := by
  have hsplit : Text.splitAt ':' ds = [ds] := splitAt_of_forall fun c hc => ne_of_isDigit (digit_of_numeral h c hc) (by decide)
  have hrest : ds.dropWhile CodePoint.isDigit = [] := List.dropWhile_eq_nil_iff.mpr (digit_of_numeral h)
  simp [isSexagesimalFloat, hsplit, hrest, isPointRun]

theorem isPointFloat_eq_false (h : StartsNumber t) : isPointFloat t = false := by
  obtain ⟨c, r, rfl, hc⟩ := h
  have hpoint : c ≠ '.' := by
    rcases hc with hc | rfl
    · exact ne_of_isDigit hc (by decide)
    · decide
  simp [isPointFloat, hpoint]

theorem isFloat_eq_false (h : Numeral ds) (ht : StartsNumber t) (hsign : dropSign t = ds) : isFloat t = false := by
  have hinfinite : isNonFinite t = false := by
    rw [isNonFinite, hsign, isOneOf_eq_false (startsNumber_of_numeral h) (by decide), isOneOf_eq_false ht (by decide)]
    rfl
  rw [isFloat, hsign, isFixedFloat_numeral h, isPointFloat_eq_false ht, hinfinite, isSexagesimalFloat_numeral h]
  rfl

theorem isInt_eq_true (h : Numeral ds) (hsign : dropSign t = ds) : isInt t = true := by
  unfold isInt
  simp only [hsign]
  rcases h with rfl | ⟨d, r, rfl, hlow, hhigh, hr⟩
  · decide
  · have hzero : d ≠ '0' := by
      rintro rfl
      exact absurd hlow (by decide)
    have hdigit : d.isDigit = true := Decimal.isDigit_iff.mpr ⟨by omega, hhigh⟩
    have hall : r.all isDigitOrLine = true :=
      List.all_eq_true.mpr fun c hc => isDigitOrLine_of_isDigit (Decimal.isDigit_iff.mpr (hr c hc))
    simp [hzero, isDigitRun, hdigit, hall]

theorem ofPlain_eq_int (h : Numeral ds) (ht : StartsNumber t) (hsign : dropSign t = ds) : Tag.ofPlain t = .int := by
  have hbool : isOneOf Tag.boolWords t = false := isOneOf_eq_false ht (by decide)
  simp [Tag.ofPlain, hbool, isFloat_eq_false h ht hsign, isInt_eq_true h hsign]

/-- The text of an integer is taken for one. -/
theorem ofPlain_signed (h : Signed t n) : Tag.ofPlain t = .int := by
  cases h with
  | plain hds _ => exact ofPlain_eq_int hds (startsNumber_of_numeral hds) (dropSign_of_numeral hds)
  | @minus ds hds _ => exact ofPlain_eq_int hds (startsNumber_minus ds) rfl

/-! The text of an integer is plain -/

theorem forall_mem_signed (h : Signed t n) : ∀ c ∈ t, 0x2D ≤ c.val ∧ c.val ≤ 0x39 := by
  have hdigit {ds : Text} (hds : Numeral ds) : ∀ c ∈ ds, 0x2D ≤ c.val ∧ c.val ≤ 0x39 := by
    intro c hc
    have hdigit := Decimal.isDigit_iff.mp (digit_of_numeral hds c hc)
    omega
  cases h with
  | plain hds _ => exact hdigit hds
  | @minus ds hds _ => exact List.forall_mem_cons.mpr ⟨by decide, hdigit hds⟩

theorem anyPair_of_forall {p : CodePoint → CodePoint → Bool} (h : ∀ a ∈ t, ∀ b, p a b = false) : anyPair p t = false := by
  induction t with
  | nil => rfl
  | cons a t ih =>
    rw [List.forall_mem_cons] at h
    cases t with
    | nil => rfl
    | cons b t => rw [anyPair, h.1, ih h.2, Bool.or_false]

section

variable (hc : 0x2D ≤ c.val ∧ c.val ≤ 0x39)

include hc

theorem isKeptBreak_numeric : isKeptBreak c = false := by
  have hbreak : c.isLineBreak = false := by
    simp only [CodePoint.isLineBreak, Bool.or_eq_false_iff, decide_eq_false_iff_not]
    omega
  rw [isKeptBreak, hbreak, Bool.false_and]

theorem ne_numeric {d : CodePoint} (hd : d.val < 0x2D ∨ 0x39 < d.val) : c ≠ d := by
  rintro rfl
  omega

theorem isGap_numeric : c.isGap = false :=
  CodePoint.isGap_eq_false ⟨by omega, by omega⟩ (ne_numeric hc (by decide))

theorem isSpecial_numeric : isSpecial false c = false := by
  simp only [isSpecial, Bool.false_and, Bool.not_false, Bool.and_true, Bool.not_eq_false', Bool.or_eq_true, Bool.and_eq_true,
    decide_eq_true_eq]
  omega

theorem isIn_numeric {s : String} (hs : (text s).all (fun d => d.val < 0x2D || 0x39 < d.val) = true) : c.isIn s = false := by
  rw [CodePoint.isIn, ← Bool.not_eq_true, List.contains_iff_mem]
  intro hmem
  have hval := List.all_eq_true.mp hs c hmem
  simp only [Bool.or_eq_true, decide_eq_true_eq] at hval
  omega

end

/-- No mark comes first: behind a minus sign there is a digit. -/
theorem startsWithIndicator_signed (h : Signed t n) : startsWithIndicator t = false := by
  have hall := forall_mem_signed h
  cases h with
  | plain hds _ =>
    obtain ⟨c, r, rfl⟩ := List.exists_cons_of_ne_nil (ne_nil_of_numeral hds)
    have hdigit := digit_of_numeral hds c List.mem_cons_self
    have hindicator := isIn_numeric (hall c List.mem_cons_self) (s := "#,[]\x7b\x7d&*!|>'\"%@\x60") (by decide)
    have hquestion : c ≠ '?' := ne_of_isDigit hdigit (by decide)
    have hcolon : c ≠ ':' := ne_of_isDigit hdigit (by decide)
    have hminus : c ≠ '-' := ne_of_isDigit hdigit (by decide)
    have hpoint : c ≠ '.' := ne_of_isDigit hdigit (by decide)
    simp [startsWithIndicator, hindicator, hquestion, hcolon, hminus, hpoint.symm, hminus.symm, text, List.isPrefixOf_cons_cons]
  | @minus ds hds _ =>
    obtain ⟨d, r, rfl⟩ := List.exists_cons_of_ne_nil (ne_nil_of_numeral hds)
    have hdigit := digit_of_numeral hds d List.mem_cons_self
    have hindicator : CodePoint.isIn '-' "#,[]\x7b\x7d&*!|>'\"%@\x60" = false := by decide
    have hgap := isGap_numeric (hall d (List.mem_cons_of_mem _ List.mem_cons_self))
    have hminus : d ≠ '-' := ne_of_isDigit hdigit (by decide)
    simp +decide [startsWithIndicator, hindicator, hgap, hminus.symm, text, Text.startsWithGap, List.isPrefixOf_cons_cons]

/-- The text of an integer can stand without quotes. -/
theorem allowsPlain_signed (h : Signed t n) : allowsPlain t false = true := by
  have hall := forall_mem_signed h
  have hloose {o : Option CodePoint} (ho : ∀ c ∈ o, c ∈ t) : (o.any fun (c : CodePoint) => c = ' ' || isKeptBreak c) = false := by
    cases o with
    | none => rfl
    | some c =>
      have hc := hall c (ho c rfl)
      have hspace : c ≠ ' ' := ne_numeric hc (by decide)
      simp [hspace, isKeptBreak_numeric hc]
  have hmultiline : isMultiline t = false :=
    List.any_eq_false.mpr fun c hc => by simp [isKeptBreak_numeric (hall c hc)]
  have hends : hasLooseEnd t = false := by
    unfold hasLooseEnd
    exact Bool.or_eq_false_iff.mpr ⟨hloose fun c hc => List.mem_of_mem_head? hc, hloose fun c hc => List.mem_of_getLast? hc⟩
  have hinner : hasInnerIndicator t = false := by
    have hpair : anyPair (fun a b => (a = ':' && b.isGap) || (a.isGap && b = '#')) t = false := by
      refine anyPair_of_forall fun a ha b => ?_
      have hcolon : a ≠ ':' := ne_numeric (hall a ha) (by decide)
      simp [hcolon, isGap_numeric (hall a ha)]
    have hlast : t.getLast? ≠ some (':' : CodePoint) := by
      intro hlast
      have hcolon := hall _ (List.mem_of_getLast? hlast)
      exact absurd hcolon (by decide)
    simp [hasInnerIndicator, hpair, hlast]
  have hspecial : t.any (isSpecial false) = false :=
    List.any_eq_false.mpr fun c hc => by simp [isSpecial_numeric (hall c hc)]
  rw [allowsPlain, hmultiline, hends, startsWithIndicator_signed h, hinner, hspecial]
  rfl

theorem isImplied_signed (h : Signed t n) : IsImplied .int t := by
  refine .inr ⟨(ofPlain_signed h).symm, allowsPlain_signed h, ?_⟩
  cases h with
  | plain hds _ => exact ne_nil_of_numeral hds
  | minus _ _ => exact List.cons_ne_nil _ _

/-! Reading an integer -/

theorem digitRun_of_forall (h : ∀ c ∈ ds, c.isDigit = true) (after : Bool) :
    Integer.digitRun 10 after ds = (ds.map CodePoint.digitValue, []) := by
  induction ds generalizing after with
  | nil => rfl
  | cons c ds ih =>
    rw [List.forall_mem_cons] at h
    have hdigit : Integer.digitOf? 10 c = some c.digitValue := by
      have hval := Decimal.isDigit_iff.mp h.1
      have hlt : c.digitValue < 10 := by
        unfold CodePoint.digitValue
        omega
      simp [Integer.digitOf?, Integer.digitValue?, CodePoint.decimalValue?, h.1, Option.filter, hlt]
    rw [Integer.digitRun]
    simp [hdigit, ih h.2]

theorem dropBase_of_forall (h : ∀ c ∈ ds, c.isDigit = true) : Integer.dropBase 10 ds = ds := by
  unfold Integer.dropBase
  split
  · simp [Integer.baseLetter]
  · rfl

theorem isPadding_of_isDigit (h : c.isDigit = true) : Integer.isPadding c = false := by
  have hval := Decimal.isDigit_iff.mp h
  have hspace : c ≠ ' ' := ne_of_isDigit h (by decide)
  simp only [Integer.isPadding, hspace, decide_false, Bool.false_or, Bool.or_eq_false_iff, Bool.and_eq_false_iff,
    decide_eq_false_iff_not]
  omega

theorem trim_of_forall (h : ∀ c ∈ ds, c.isDigit = true) : Text.trim ds Integer.isPadding = ds := by
  have hdrop {t : Text} (ht : ∀ c ∈ t, c.isDigit = true) : t.dropWhile Integer.isPadding = t := by
    cases t with
    | nil => rfl
    | cons c t => rw [List.dropWhile_cons, isPadding_of_isDigit (ht c List.mem_cons_self)]; rfl
  rw [Text.trim, Text.dropEndWhile, hdrop h, hdrop (t := ds.reverse) (fun c hc => h c (List.mem_reverse.mp hc)), List.reverse_reverse]

theorem read_numeral (h : Numeral ds) (hl : ds.length ≤ digitLimit) : Integer.read 10 ds = .ok (Decimal.ofDigits ds) := by
  have hall := digit_of_numeral h
  obtain ⟨c, r, rfl⟩ := List.exists_cons_of_ne_nil (ne_nil_of_numeral h)
  have hdigit := hall c List.mem_cons_self
  have hminus : c ≠ '-' := ne_of_isDigit hdigit (by decide)
  have hplus : c ≠ '+' := ne_of_isDigit hdigit (by decide)
  have hlimit : ¬ digitLimit < (c :: r).length := Nat.not_lt.mpr hl
  unfold Integer.read
  simp only [trim_of_forall hall, hminus, hplus, if_false, dropBase_of_forall hall, digitRun_of_forall hall, List.length_map, hlimit]
  rfl

theorem unsignedInt_numeral (h : Numeral ds) (hl : ds.length ≤ digitLimit) :
    Scalar.unsignedInt ds = .ok (Decimal.ofDigits ds) := by
  have hread : Scalar.readInt 10 ds = .ok (Decimal.ofDigits ds) := by
    rw [Scalar.readInt, read_numeral h hl]
    rfl
  have hcolon : (':' : CodePoint) ∉ ds := fun hmem => absurd (digit_of_numeral h _ hmem) (by decide)
  rcases h with rfl | ⟨d, r, rfl, hlow, -, -⟩
  · rfl
  · have hzero : d ≠ '0' := by
      rintro rfl
      exact absurd hlow (by decide)
    rw [List.mem_cons, not_or] at hcolon
    simp [Scalar.unsignedInt, text, hzero, hzero.symm, List.isPrefixOf_cons_cons, hcolon, hread]

theorem withoutUnderscores_signed (h : Signed t n) : Scalar.withoutUnderscores t = t := by
  refine List.filter_eq_self.mpr fun c hc => ?_
  have hline : c ≠ '_' := ne_numeric (forall_mem_signed h c hc) (by decide)
  simp [hline]

/-- An integer is read back from its text. -/
theorem int_signed (h : Signed t n) : Scalar.int t = .ok n := by
  rw [Scalar.int, withoutUnderscores_signed h]
  cases h with
  | plain hds hl =>
    have hunsigned := unsignedInt_numeral hds hl
    obtain ⟨c, r, rfl⟩ := List.exists_cons_of_ne_nil (ne_nil_of_numeral hds)
    have hdigit := digit_of_numeral hds c List.mem_cons_self
    have hminus : c ≠ '-' := ne_of_isDigit hdigit (by decide)
    have hplus : c ≠ '+' := ne_of_isDigit hdigit (by decide)
    simp [Scalar.takeSign, hminus, hplus, bind, Except.bind, hunsigned, pure, Except.pure]
  | @minus ds hds hl =>
    have hsign : Scalar.takeSign (text "-" ++ ds) = .ok (true, ds) := rfl
    rw [hsign]
    simp [bind, Except.bind, unsignedInt_numeral hds hl, pure, Except.pure]

end AnnotationCodec.Yaml
