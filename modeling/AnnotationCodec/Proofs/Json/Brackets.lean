import AnnotationCodec.Proofs.Json.Truncation

/-!
The brackets of a text, without those in strings. Literals, words and numbers have none, and leave the level where it is.
-/
namespace AnnotationCodec.Json

/-- Whether a text goes on outside of strings, in one, or behind a backslash in one. -/
inductive Ground
  | outside
  | inside
  | escaped

def isOpening (c : CodePoint) : Bool :=
  c = '[' || c = '\x7b'

def isClosing (c : CodePoint) : Bool :=
  c = ']' || c = '\x7d'

/-- The deepest level of brackets in a text that starts at `level`. -/
def deepest : Ground → (level : Nat) → Text → Nat
  | _, level, [] => level
  | .outside, level, c :: t =>
    if c = '"' then deepest .inside level t
    else if isOpening c then deepest .outside (level + 1) t
    else if isClosing c then max level (deepest .outside (level - 1) t)
    else deepest .outside level t
  | .inside, level, c :: t =>
    if c = '\\' then deepest .escaped level t
    else if c = '"' then deepest .outside level t
    else deepest .inside level t
  | .escaped, level, _ :: t => deepest .inside level t

/-- How deep the brackets of a text are nested. Those in strings do not count. -/
def nesting (t : Text) : Nat :=
  deepest .outside 0 t

example : nesting (text "[[], \x7b\"]]\": [\"\\\"[\"]\x7d]") = 3 := by
  decide

variable {t x y b r rest s : Text} {v : Value} {depth up : Nat}

theorem le_deepest (g : Ground) (level : Nat) (t : Text) : level ≤ deepest g level t := by
  fun_induction deepest g level t <;> omega

/-! What is passed over -/

/-- A text that ends `up` levels below where it starts, and in between goes no more than `depth` levels above it. -/
def Spans (up depth : Nat) (x : Text) : Prop :=
  ∀ level r, deepest .outside level r ≤ deepest .outside (level + up) (x ++ r) ∧
    deepest .outside (level + up) (x ++ r) ≤ max (level + up + depth) (deepest .outside level r)

/-- A character that is no quote and no bracket. -/
def isQuiet (c : CodePoint) : Bool :=
  c ≠ '"' && !isOpening c && !isClosing c

theorem deepest_quiet {c : CodePoint} (h : isQuiet c = true) (level : Nat) (r : Text) :
    deepest .outside level (c :: r) = deepest .outside level r := by
  simp only [isQuiet, Bool.and_eq_true, decide_eq_true_iff, Bool.not_eq_true'] at h
  simp [deepest, h]

theorem spans_of_eq (h : ∀ level r, deepest .outside level (x ++ r) = deepest .outside level r) : Spans 0 depth x := by
  intro level r
  rw [Nat.add_zero, h level r]
  omega

theorem spans_quiet (h : ∀ c ∈ x, isQuiet c = true) : Spans 0 depth x := by
  refine spans_of_eq fun level r => ?_
  induction x with
  | nil => rfl
  | cons c x ih =>
    rw [List.forall_mem_cons] at h
    rw [List.cons_append, deepest_quiet h.1, ih h.2]

theorem isQuiet_of_blank (hb : Blank b) : ∀ c ∈ b, isQuiet c = true := by
  intro c hc
  rcases hb c hc with rfl | rfl | rfl | rfl <;> decide

theorem Spans.append (hx : Spans 0 depth x) (hy : Spans up depth y) : Spans up depth (x ++ y) := by
  intro level r
  have h := hx (level + up) (y ++ r)
  have h' := hy level r
  rw [List.append_assoc]
  rw [Nat.add_zero] at h
  omega

theorem deepest_opening {c : CodePoint} (hc : isOpening c = true) (level : Nat) (t : Text) :
    deepest .outside level (c :: t) = deepest .outside (level + 1) t := by
  have hquote : c ≠ '"' := by
    rintro rfl
    cases hc
  simp [deepest, hc, hquote]

/-- Behind an opening bracket a text has to come back by one level. -/
theorem Spans.opening {c : CodePoint} (hc : isOpening c = true) (hx : Spans 1 depth x) : Spans 0 (depth + 1) (c :: x) := by
  intro level r
  have h := hx level r
  rw [Nat.add_zero, List.cons_append, deepest_opening hc]
  omega

theorem deepest_closing {c : CodePoint} (hc : isClosing c = true) (level : Nat) (t : Text) :
    deepest .outside level (c :: t) = max level (deepest .outside (level - 1) t) := by
  have hquote : c ≠ '"' := by
    rintro rfl
    cases hc
  have hopen : isOpening c = false := by
    simp only [isClosing, Bool.or_eq_true, decide_eq_true_iff] at hc
    rcases hc with rfl | rfl <;> rfl
  simp [deepest, hc, hquote, hopen]

theorem spans_closing {c : CodePoint} (hc : isClosing c = true) : Spans 1 depth [c] := by
  intro level r
  have hle := le_deepest .outside level r
  rw [List.singleton_append, deepest_closing hc, Nat.add_sub_cancel]
  omega

/-! Strings -/

theorem deepest_body {ms : List Mark} (h : Body b ms) (level : Nat) (r : Text) :
    deepest .inside level (b ++ r) = deepest .inside level r := by
  induction h with
  | nil => rfl
  | @cons x t m ms hx ht ih =>
    rw [List.append_assoc, ← ih]
    cases hx with
    | plain hc hq hb => simp [deepest, hq, hb]
    | short h => simp [deepest]
    | @numbered a b c d i j k l ha hb hc hd =>
      have hdigit : ∀ {c : CodePoint} {n : Nat}, HexDigit c n → c ≠ '\\' ∧ c ≠ '"' := by
        intro c n h
        unfold HexDigit at h
        constructor
        · rintro rfl
          have hval : (('\\' : CodePoint)).val = 0x5C := rfl
          omega
        · rintro rfl
          have hval : (('"' : CodePoint)).val = 0x22 := rfl
          omega
      simp [deepest, hdigit ha, hdigit hb, hdigit hc, hdigit hd]

theorem spans_literal (h : Literal x s) : Spans 0 depth x := by
  obtain ⟨b, ms, hb, rfl, -⟩ := h
  refine spans_of_eq fun level r => ?_
  calc deepest .outside level (text "\"" ++ b ++ text "\"" ++ r)
      = deepest .inside level (b ++ (text "\"" ++ r)) := by simp [deepest, text]
    _ = deepest .inside level (text "\"" ++ r) := deepest_body hb level _
    _ = deepest .outside level r := rfl

/-! Words and numbers -/

theorem isQuiet_of_isDigit {c : CodePoint} (h : c.isDigit = true) : isQuiet c = true := by
  rw [Decimal.isDigit_iff] at h
  have hne (d : CodePoint) (hd : d.val < 0x30 ∨ 0x39 < d.val) : c ≠ d := by
    rintro rfl
    omega
  simp [isQuiet, isOpening, isClosing, hne '"' (by decide), hne '[' (by decide), hne '\x7b' (by decide),
    hne ']' (by decide), hne '\x7d' (by decide)]

/-- A reader that passes over quiet characters. -/
def Quietly (t rest : Text) : Prop :=
  ∃ x, t = x ++ rest ∧ ∀ c ∈ x, isQuiet c = true

theorem Quietly.refl (t : Text) : Quietly t t :=
  ⟨[], rfl, by simp⟩

theorem Quietly.trans (h : Quietly t r) (h' : Quietly r rest) : Quietly t rest := by
  obtain ⟨x, rfl, hx⟩ := h
  obtain ⟨y, rfl, hy⟩ := h'
  refine ⟨x ++ y, (List.append_assoc x y rest).symm, ?_⟩
  intro c hc
  rcases List.mem_append.mp hc with hc | hc
  · exact hx c hc
  · exact hy c hc

theorem Quietly.cons {c : CodePoint} (hc : isQuiet c = true) (h : Quietly t rest) : Quietly (c :: t) rest := by
  obtain ⟨x, rfl, hx⟩ := h
  exact ⟨c :: x, rfl, List.forall_mem_cons.mpr ⟨hc, hx⟩⟩

theorem quietly_digitSpan {ds : Text} (h : digitSpan t = (ds, rest)) : Quietly t rest := by
  obtain ⟨rfl, hds⟩ := digitSpan_eq h
  exact ⟨ds, rfl, fun c hc => isQuiet_of_isDigit (hds c hc)⟩

theorem quietly_fractionSpan {ds : Text} (h : fractionSpan t = (ds, rest)) : Quietly t rest := by
  unfold fractionSpan at h
  split at h
  · next c r =>
    split_ifs at h with hc
    · subst hc
      split at h
      · cases h
        exact .refl _
      · next ds rest hs hne =>
        cases h
        exact .cons (by decide) (quietly_digitSpan hne)
    · cases h
      exact .refl _
  · cases h
    exact .refl _

theorem quietly_exponentSpan {e : Option Int} (h : exponentSpan t = (e, rest)) : Quietly t rest := by
  unfold exponentSpan at h
  split at h
  · next c r =>
    split_ifs at h with hc
    · have hquiet : isQuiet c = true := by
        simp only [Bool.or_eq_true, decide_eq_true_iff] at hc
        rcases hc with rfl | rfl <;> decide
      split at h
      next negative q hsign =>
      have hq : Quietly r q := by
        split at hsign
        · next d q' =>
          split_ifs at hsign with hminus hplus
          · cases hsign
            subst hminus
            exact .cons (by decide) (.refl _)
          · cases hsign
            subst hplus
            exact .cons (by decide) (.refl _)
          · cases hsign
            exact .refl _
        · cases hsign
          exact .refl _
      split at h
      · cases h
        exact .refl _
      · next ds rest' _ hs =>
        cases h
        exact .cons hquiet (hq.trans (quietly_digitSpan hs))
    · cases h
      exact .refl _
  · cases h
    exact .refl _

theorem quietly_unsignedNumber {negative : Bool} {found : Value × Text}
    (h : unsignedNumber negative t = some (.ok found)) : Quietly t found.2 ∧ found.2.length < t.length := by
  unfold unsignedNumber at h
  split at h
  · cases h
  · next whole r hne hw =>
    have hwhole : whole ≠ [] := fun he => hne (by simp [he])
    obtain ⟨hn, rfl⟩ := numeral_of_wholeSpan hw hwhole
    split at h
    next fraction q hf =>
    split at h
    next exponent p he =>
    have hrest : Quietly r p := (quietly_fractionSpan hf).trans (quietly_exponentSpan he)
    have hall : Quietly (whole ++ r) p :=
      .trans ⟨whole, rfl, fun c hc => isQuiet_of_isDigit (digit_of_numeral hn c hc)⟩ hrest
    have hlength : p.length < (whole ++ r).length := by
      obtain ⟨x, rfl, -⟩ := hrest
      have hpos := List.length_pos_iff.mpr hwhole
      simp only [List.length_append]
      omega
    have hfound : found.2 = p := by
      split_ifs at h <;> cases h <;> rfl
    rw [hfound]
    exact ⟨hall, hlength⟩

theorem isQuiet_of_mem_words : ∀ w ∈ words, ∀ c ∈ w.1, isQuiet c = true := by
  intro w hw
  simp only [words, List.mem_cons, List.not_mem_nil, or_false] at hw
  rcases hw with rfl | rfl | rfl | rfl | rfl | rfl <;> simp [text] <;> decide

/-- A word or a number that was read has at least one character, and no bracket. -/
theorem quietly_scalar (h : scalar t = .ok (v, rest)) : Quietly t rest ∧ rest.length < t.length := by
  unfold scalar at h
  split at h
  · next w u hw =>
    cases h
    have hm := List.mem_of_find?_eq_some hw
    have hpos : 2 ≤ w.length := (word_start _ hm).1
    have hprefix : w.isPrefixOf t = true := by simpa using List.find?_some hw
    obtain ⟨r, rfl⟩ := List.isPrefixOf_iff_prefix.mp hprefix
    rw [List.drop_left]
    refine ⟨⟨w, rfl, isQuiet_of_mem_words _ hm⟩, ?_⟩
    simp only [List.length_append]
    omega
  · have hu := getD_fail_eq_ok h
    split at hu
    · next c r _ =>
      split_ifs at hu with hc
      · subst hc
        obtain ⟨hq, hl⟩ := quietly_unsignedNumber hu
        exact ⟨.cons (by decide) hq, Nat.lt_succ_of_lt hl⟩
      · exact quietly_unsignedNumber hu
    · cases hu

theorem unsignedNumber_ne_tooDeep (negative : Bool) (t : Text) : unsignedNumber negative t ≠ some (.error .tooDeep) := by
  intro h
  unfold unsignedNumber at h
  split at h
  · cases h
  · split at h
    split at h
    split_ifs at h
    all_goals cases h

theorem scalar_ne_tooDeep (t : Text) : scalar t ≠ .error .tooDeep := by
  have hgetD {o : Option (Except Error (Value × Text))} (ho : o ≠ some (.error .tooDeep)) :
      o.getD (fail .expectingValue t) ≠ .error .tooDeep := by
    intro h
    cases o with
    | none => cases h
    | some u => exact ho (congrArg some h)
  unfold scalar
  split
  · simp
  · refine hgetD ?_
    split
    · split
      · exact unsignedNumber_ne_tooDeep _ _
      · exact unsignedNumber_ne_tooDeep _ _
    · simp

theorem string_ne_tooDeep (t : Text) : string t ≠ .error .tooDeep := by
  intro h
  rcases stringFrom_cases (t.length + 1) 0 t with ⟨u, hu⟩ | ⟨problem, left, hp⟩
  · cases hu.symm.trans h
  · cases hp.symm.trans h

end AnnotationCodec.Json
