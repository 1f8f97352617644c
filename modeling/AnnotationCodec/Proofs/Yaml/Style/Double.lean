import AnnotationCodec.Proofs.Yaml.Style.Single

/-!
Texts as they are written in double quotes. A line may be broken in front of a space and next to an escape, with a mark on
both sides of the break where the next line starts with a space.
-/
namespace AnnotationCodec.Yaml

open Quoted

variable {m : Margin} {c : CodePoint} {t r : Text} {before : Option CodePoint}

theorem isPrintable_of_isQuotable (h : isQuotable false c = true) : c.IsPrintable ∧ c ≠ '"' ∧ c ≠ '\\' := by
  simp only [isQuotable, Bool.false_and, Bool.or_false, Bool.and_eq_true, decide_eq_true_eq] at h
  exact ⟨h.2, h.1.1, h.1.2⟩

theorem isBare_of_isQuotable (h : isQuotable false c = true) (hspace : c ≠ ' ') : IsBare true c := by
  obtain ⟨hprint, hquote, hmark⟩ := isPrintable_of_isQuotable h
  exact ⟨CodePoint.isGap_eq_false hprint hspace, hquote, hmark⟩

theorem marksBreak_of_loose (hm : m.tight = false) (before : Option CodePoint) (t : Text) : marksBreak m before t = true := by
  simp [marksBreak, hm]

/-- A character that needs no escape is written as it is, perhaps on a new line. A space is marked there. -/
theorem exists_writeDoubleFrom_quotable (hm : m.tight = false) (hc : isQuotable false c = true) (column : Nat)
    (before : Option CodePoint) (run : Bool) (r : Text) :
    ∃ column', writeDoubleFrom m false column before run (c :: r) = c :: writeDoubleFrom m false column' (some c) true r ∨
      m.folds ∧
        (c = ' ' ∧ writeDoubleFrom m false column before run (c :: r) = ('\\' : CodePoint) :: ('\n' : CodePoint) ::
            (Text.spaces m.indent ++
              ('\\' : CodePoint) :: (' ' : CodePoint) :: writeDoubleFrom m false column' (some c) true r) ∨
          c ≠ ' ' ∧ writeDoubleFrom m false column before run (c :: r) = ('\\' : CodePoint) :: ('\n' : CodePoint) ::
            (Text.spaces m.indent ++ c :: writeDoubleFrom m false column' (some c) true r)) := by
  have hmarks := marksBreak_of_loose hm
  cases hbreak : (m.folds && before.isSome && !r.isEmpty && (decide (c = ' ') || !run) && decide (lineWidth < column)) with
  | false =>
    refine ⟨column + 1, .inl ?_⟩
    rw [writeDoubleFrom]
    simp only [hc, hbreak, if_true, Bool.false_eq_true, if_false]
  | true =>
    have hfolds : m.folds := by
      simp only [Bool.and_eq_true] at hbreak
      exact hbreak.1.1.1.1
    by_cases hspace : c = ' '
    · refine ⟨m.indent + 2, .inr ⟨hfolds, .inl ⟨hspace, ?_⟩⟩⟩
      rw [writeDoubleFrom]
      simp only [hc, hbreak, if_true, hmarks]
      simp [breakQuoted, hspace, Margin.newLine, text]
    · refine ⟨m.indent + 1, .inr ⟨hfolds, .inr ⟨hspace, ?_⟩⟩⟩
      rw [writeDoubleFrom]
      simp only [hc, hbreak, if_true, hmarks]
      simp [breakQuoted, hspace, Margin.newLine, text]

/-- Behind an escape a line may be broken. A space on the new line is marked before it is written. -/
theorem exists_writeDoubleFrom_escape (hm : m.tight = false) (hc : isQuotable false c = false) (column : Nat)
    (before : Option CodePoint) (run : Bool) (r : Text) :
    ∃ column', writeDoubleFrom m false column before run (c :: r) = escapePoint c ++ writeDoubleFrom m false column' (some c) false r ∨
      (m.folds ∧ before.isSome ∧ r ≠ []) ∧
        (r.head? ≠ some (' ' : CodePoint) ∧ writeDoubleFrom m false column before run (c :: r) =
            escapePoint c ++ ('\\' : CodePoint) :: ('\n' : CodePoint) ::
              (Text.spaces m.indent ++ writeDoubleFrom m false m.indent (some c) false r) ∨
          r.head? = some (' ' : CodePoint) ∧ writeDoubleFrom m false column before run (c :: r) =
            escapePoint c ++ ('\\' : CodePoint) :: ('\n' : CodePoint) ::
              (Text.spaces m.indent ++ ('\\' : CodePoint) :: writeDoubleFrom m false (m.indent + 1) (some c) false r)) := by
  have hmarks := marksBreak_of_loose hm
  refine ⟨column + (escapePoint c).length, ?_⟩
  cases hbreak : (m.folds && before.isSome && !r.isEmpty && decide (lineWidth + 1 < column + (escapePoint c).length)) with
  | false =>
    left
    rw [writeDoubleFrom]
    simp only [hc, hbreak, Bool.false_eq_true, if_false]
  | true =>
    right
    have hmay : m.folds ∧ before.isSome ∧ r ≠ [] := by
      simp only [Bool.and_eq_true, Bool.not_eq_true', List.isEmpty_eq_false_iff] at hbreak
      exact ⟨hbreak.1.1.1, hbreak.1.1.2, hbreak.1.2⟩
    refine ⟨hmay, ?_⟩
    by_cases hspace : r.head? = some (' ' : CodePoint)
    · refine .inr ⟨hspace, ?_⟩
      rw [writeDoubleFrom]
      simp only [hc, hbreak, Bool.false_eq_true, if_false, if_true, hmarks, hspace]
      simp [breakQuoted, Margin.newLine, text]
    · refine .inl ⟨hspace, ?_⟩
      rw [writeDoubleFrom]
      simp only [hc, hbreak, Bool.false_eq_true, if_false, if_true, hmarks]
      simp [breakQuoted, hspace, Margin.newLine, text]

/-- An escape in front of a space. -/
def isSplit (c d : CodePoint) : Bool :=
  !isQuotable false c && d = ' '

/-- Where the writer may break a line: not behind the first character and not in front of the last one. -/
def breakable (before : Option CodePoint) (t : Text) : Text :=
  (if before.isSome then t else t.tail).dropLast

theorem anyPair_breakable {p : CodePoint → CodePoint → Bool} (h : anyPair p (breakable before (c :: r)) = false) :
    anyPair p (breakable (some c) r) = false := by
  cases before with
  | none => exact h
  | some b =>
    cases r with
    | nil => rfl
    | cons d r => exact anyPair_cons (c := c) h

/-- An escape in front of a space that is not the last character is a place to break a line at. -/
theorem eq_nil_of_breakable (hbefore : before.isSome) (hc : isQuotable false c = false)
    (h : anyPair isSplit (breakable before (c :: (' ' : CodePoint) :: r)) = false) : r = [] := by
  by_contra hr
  obtain ⟨e, r, rfl⟩ := List.exists_cons_of_ne_nil hr
  rw [breakable, if_pos hbefore] at h
  have hsplit : isSplit c ((' ' : Char) : CodePoint) = false := anyPair_head (t := (e :: r).dropLast) h
  simp [isSplit, hc] at hsplit

/-- Neither a gap nor nothing is written at the start of a text that does not start with a space. -/
theorem starts_writeDoubleFrom (hm : m.tight = false) (hne : t ≠ []) (hspace : t.head? ≠ some (' ' : CodePoint)) (column : Nat)
    (before : Option CodePoint) (run : Bool) :
    Text.StartsSolid (writeDoubleFrom m false column before run t) ∧ writeDoubleFrom m false column before run t ≠ [] := by
  obtain ⟨c, r, rfl⟩ := List.exists_cons_of_ne_nil hne
  have hc : c ≠ ' ' := fun heq => hspace (by rw [heq]; rfl)
  have hmark : CodePoint.isGap (('\\' : Char) : CodePoint) = false := by decide
  cases hquote : isQuotable false c with
  | true =>
    obtain ⟨column', hwrite | ⟨-, ⟨hblank, -⟩ | ⟨-, hwrite⟩⟩⟩ := exists_writeDoubleFrom_quotable hm hquote column before run r
    · rw [hwrite]
      exact ⟨Text.startsSolid_cons (CodePoint.isGap_eq_false (isPrintable_of_isQuotable hquote).1 hc) _, List.cons_ne_nil _ _⟩
    · exact absurd hblank hc
    · rw [hwrite]
      exact ⟨Text.startsSolid_cons hmark _, List.cons_ne_nil _ _⟩
  | false =>
    have hescape : ∃ s, escapePoint c = ('\\' : CodePoint) :: s := by
      obtain ⟨e, _, _, heq⟩ | ⟨e, _, w, _, _, heq⟩ := escapePoint_cases c <;> exact ⟨_, heq⟩
    obtain ⟨s, hs⟩ := hescape
    obtain ⟨column', hwrite | ⟨-, ⟨-, hwrite⟩ | ⟨-, hwrite⟩⟩⟩ := exists_writeDoubleFrom_escape hm hquote column before run r <;>
    · rw [hwrite, hs]
      exact ⟨Text.startsSolid_cons hmark _, List.cons_ne_nil _ _⟩

theorem head_writeDoubleFrom (hm : m.tight = false) (t : Text) (column : Nat) (before : Option CodePoint) (run : Bool) :
    (writeDoubleFrom m false column before run t).head? ≠ some ('\n' : CodePoint) := by
  by_cases hspace : t.head? = some (' ' : CodePoint)
  · cases t with
    | nil => cases hspace
    | cons c r =>
      obtain rfl := Option.some.inj hspace
      have hquote : isQuotable false ((' ' : Char) : CodePoint) = true := by decide
      obtain ⟨column', hwrite | ⟨-, ⟨-, hwrite⟩ | ⟨hne, -⟩⟩⟩ := exists_writeDoubleFrom_quotable hm hquote column before run r
      · rw [hwrite, List.head?_cons, Ne, Option.some.injEq]
        decide
      · rw [hwrite, List.head?_cons, Ne, Option.some.injEq]
        decide
      · exact absurd rfl hne
  · by_cases hne : t = []
    · subst hne
      simp [writeDoubleFrom]
    · exact fun hhead => absurd ((starts_writeDoubleFrom hm hne hspace column before run).1 _ hhead) (by decide)

/-- Behind a mark a space is written on the same line, as long as the indentation is below the width. -/
theorem writeDoubleFrom_marked (hsafe : m.indent < lineWidth ∨ r = []) (before : Option CodePoint) (run : Bool) :
    writeDoubleFrom m false (m.indent + 1) before run ((' ' : CodePoint) :: r) =
      (' ' : CodePoint) :: writeDoubleFrom m false (m.indent + 2) (some (' ' : CodePoint)) true r := by
  have hquote : isQuotable false ((' ' : Char) : CodePoint) = true := by decide
  have hstay (b : Bool) : (m.folds && before.isSome && !r.isEmpty && b && decide (lineWidth < m.indent + 1)) = false := by
    obtain hlow | rfl := hsafe
    · have hno : ¬ lineWidth < m.indent + 1 := by omega
      simp [hno]
    · simp
  rw [writeDoubleFrom]
  simp only [hquote, hstay, if_true, Bool.false_eq_true, if_false]

/-- What double quotes hold stands for the text. A line must not be broken between the mark and the space of a blank that
is marked, which happens behind an escape if the indentation reaches the width. -/
theorem body_writeDoubleFrom (hm : m.tight = false) (hpos : 0 < m.indent) :
    ∀ (t : Text) (column : Nat) (before : Option CodePoint) (run : Bool),
      (m.folds → m.indent < lineWidth ∨ anyPair isSplit (breakable before t) = false) →
      Body true (writeDoubleFrom m false column before run t) t
  | [], _, _, _, _ => .last .nil
  | c :: r, column, before, run, hsafe => by
    have hsafe' : m.folds → m.indent < lineWidth ∨ anyPair isSplit (breakable (some c) r) = false :=
      fun hfolds => (hsafe hfolds).imp_right anyPair_breakable
    have hbody (column : Nat) (run : Bool) := body_writeDoubleFrom hm hpos r column (some c) run hsafe'
    have hmark (s : Text) : Text.StartsSolid (('\\' : CodePoint) :: s) := Text.startsSolid_cons (by decide) s
    cases hc : isQuotable false c with
    | true =>
      obtain ⟨column', hwrite | ⟨-, ⟨rfl, hwrite⟩ | ⟨hspace, hwrite⟩⟩⟩ := exists_writeDoubleFrom_quotable hm hc column before run r
      · rw [hwrite]
        by_cases hspace : c = ' '
        · subst hspace
          exact body_space (hbody column' true) (head_writeDoubleFrom hm r column' _ true)
        · exact body_bare (isBare_of_isQuotable hc hspace) (hbody column' true)
      · rw [hwrite]
        exact body_continuation hpos (hmark _) (List.cons_ne_nil _ _) (body_blank (hbody column' true))
      · have hbare := isBare_of_isQuotable hc hspace
        rw [hwrite]
        exact body_continuation hpos (Text.startsSolid_cons hbare.1 _) (List.cons_ne_nil _ _)
          (body_bare hbare (hbody column' true))
    | false =>
      obtain ⟨column', hwrite | ⟨⟨hfolds, hbefore, hne⟩, ⟨hspace, hwrite⟩ | ⟨hspace, hwrite⟩⟩⟩ :=
        exists_writeDoubleFrom_escape hm hc column before run r
      · rw [hwrite]
        exact body_escape c (hbody column' false)
      · obtain ⟨hstarts, hne'⟩ := starts_writeDoubleFrom hm hne hspace m.indent (some c) false
        rw [hwrite]
        exact body_escape c (body_continuation hpos hstarts hne' (hbody m.indent false))
      · match r, hspace, hsafe, hsafe' with
        | d :: r, hspace, hsafe, hsafe' =>
          obtain rfl := Option.some.inj hspace
          have hlow := (hsafe hfolds).imp_right (eq_nil_of_breakable hbefore hc)
          have hsafe'' : m.folds → m.indent < lineWidth ∨ anyPair isSplit (breakable (some (' ' : CodePoint)) r) = false :=
            fun hfolds => (hsafe' hfolds).imp_right anyPair_breakable
          have hinner := body_writeDoubleFrom hm hpos r (m.indent + 2) (some (' ' : CodePoint)) true hsafe''
          rw [hwrite, writeDoubleFrom_marked hlow]
          exact body_escape c (body_continuation hpos (hmark _) (List.cons_ne_nil _ _) (body_blank hinner))
termination_by t => t.length

theorem isPrintable_hex (w n : Nat) : ∀ c ∈ Text.hex true w n, c.IsPrintable := by
  have hdigits : ∀ d < 16, 0x20 ≤ (CodePoint.ofNat (if d < 10 then 0x30 + d else 0x37 + d)).val ∧
      (CodePoint.ofNat (if d < 10 then 0x30 + d else 0x37 + d)).val ≤ 0x7E := by
    decide
  induction w generalizing n with
  | zero => exact fun c hc => absurd hc List.not_mem_nil
  | succ w ih =>
    intro c hc
    obtain hc | hc := List.mem_append.mp hc
    · exact ih (n / 16) c hc
    · obtain rfl := List.mem_singleton.mp hc
      exact hdigits (n % 16) (Nat.mod_lt _ (by decide))

theorem isPrintable_escapePoint (p : CodePoint) : ∀ c ∈ escapePoint p, c.IsPrintable := by
  have hmark : CodePoint.IsPrintable (('\\' : Char) : CodePoint) := by unfold CodePoint.IsPrintable; decide
  obtain ⟨e, he, _, hescape⟩ | ⟨e, he, w, _, _, hescape⟩ := escapePoint_cases p
  · have hletter : ∀ e ∈ shortEscapes, 0x20 ≤ (CodePoint.ofChar e.2).val ∧ (CodePoint.ofChar e.2).val ≤ 0x7E := by decide
    rw [hescape, List.forall_mem_cons, List.forall_mem_singleton]
    exact ⟨hmark, hletter e he⟩
  · have hletter : CodePoint.IsPrintable (e : CodePoint) := by
      simp only [List.mem_cons, List.not_mem_nil, or_false] at he
      unfold CodePoint.IsPrintable
      rcases he with rfl | rfl | rfl <;> decide
    rw [hescape, List.forall_mem_cons, List.forall_mem_cons]
    exact ⟨hmark, hletter, isPrintable_hex w p.val⟩

/-- Nothing but characters that can be printed and the line feeds of folds is written in double quotes. -/
theorem forall_mem_writeDoubleFrom {q : CodePoint → Prop} (hm : m.tight = false) (hprint : ∀ c, c.IsPrintable → q c)
    (hbreak : m.folds → q '\n') (t : Text) (column : Nat) (before : Option CodePoint) (run : Bool) :
    ∀ c ∈ writeDoubleFrom m false column before run t, q c := by
  have hmark : q '\\' := hprint _ (by unfold CodePoint.IsPrintable; decide)
  have hblank : q ' ' := hprint _ (by unfold CodePoint.IsPrintable; decide)
  have hspaces : ∀ c ∈ Text.spaces m.indent, q c := by
    intro c hc
    obtain rfl := List.eq_of_mem_replicate hc
    exact hblank
  induction t generalizing column before run with
  | nil => exact fun c hc => absurd hc List.not_mem_nil
  | cons d r ih =>
    cases hquote : isQuotable false d with
    | true =>
      have hd : q d := hprint d (isPrintable_of_isQuotable hquote).1
      obtain ⟨column', hwrite | ⟨hfolds, ⟨-, hwrite⟩ | ⟨-, hwrite⟩⟩⟩ := exists_writeDoubleFrom_quotable hm hquote column before run r
      · rw [hwrite, List.forall_mem_cons]
        exact ⟨hd, ih _ _ _⟩
      · simp only [hwrite, List.forall_mem_cons, List.forall_mem_append]
        exact ⟨hmark, hbreak hfolds, hspaces, hmark, hblank, ih _ _ _⟩
      · simp only [hwrite, List.forall_mem_cons, List.forall_mem_append]
        exact ⟨hmark, hbreak hfolds, hspaces, hd, ih _ _ _⟩
    | false =>
      have hescape : ∀ c ∈ escapePoint d, q c := fun c hc => hprint c (isPrintable_escapePoint d c hc)
      obtain ⟨column', hwrite | ⟨⟨hfolds, -, -⟩, ⟨-, hwrite⟩ | ⟨-, hwrite⟩⟩⟩ := exists_writeDoubleFrom_escape hm hquote column before run r
      · rw [hwrite, List.forall_mem_append]
        exact ⟨hescape, ih _ _ _⟩
      · simp only [hwrite, List.forall_mem_cons, List.forall_mem_append]
        exact ⟨hescape, hmark, hbreak hfolds, hspaces, ih _ _ _⟩
      · simp only [hwrite, List.forall_mem_cons, List.forall_mem_append]
        exact ⟨hescape, hmark, hbreak hfolds, hspaces, hmark, ih _ _ _⟩

/-- Where no line is folded, each character is written as it is or as its escape. -/
theorem writeDoubleFrom_unfolded (hm : m.tight = false) (hfolds : m.folds = false) (column : Nat) (before : Option CodePoint)
    (run : Bool) (t : Text) :
    writeDoubleFrom m false column before run t = t.flatMap fun c => if isQuotable false c then [c] else escapePoint c := by
  have hno : ¬ m.folds := by simp [hfolds]
  induction t generalizing column before run with
  | nil => rfl
  | cons c r ih =>
    cases hquote : isQuotable false c with
    | true =>
      obtain ⟨column', hwrite | ⟨hyes, -⟩⟩ := exists_writeDoubleFrom_quotable hm hquote column before run r
      · rw [hwrite, ih, List.flatMap_cons, if_pos hquote, List.singleton_append]
      · exact absurd hyes hno
    | false =>
      obtain ⟨column', hwrite | ⟨⟨hyes, -⟩, -⟩⟩ := exists_writeDoubleFrom_escape hm hquote column before run r
      · rw [hwrite, ih, List.flatMap_cons, if_neg (by simp [hquote])]
      · exact absurd hyes hno

theorem length_escapePoint_le (c : CodePoint) : (escapePoint c).length ≤ if c.val ≤ 0xFFFF then 6 else 10 := by
  unfold escapePoint
  split
  · simp only [List.length_cons, List.length_nil]
    split <;> decide
  · simp only [apply_ite List.length, List.length_append, Text.length_hex]
    split_ifs <;> first | omega | decide

end AnnotationCodec.Yaml
