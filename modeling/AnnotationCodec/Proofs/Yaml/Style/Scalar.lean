import AnnotationCodec.Proofs.Yaml.Style.Double
import AnnotationCodec.Yaml.Printer

/-!
Scalars as documents hold them. Whatever style a text is written in, what is written spells the text, and the style tells
the tag.
-/
namespace AnnotationCodec.Yaml

/-- A text, what it stands for as a scalar, and whether it is plain. -/
inductive Spells (column : Nat) : Text → Text → Bool → Prop
  | plain {u t} : Plain.Phrase column u t → Plain.Opens u → Spells column u t true
  | quoted {double u t} : Quoted.Body double u t →
      Spells column (Quoted.mark double :: (u ++ [Quoted.mark double])) t false

/-- A scalar whose tag is known from its text and its style. -/
def IsImplied (tag : Tag) (t : Text) : Prop :=
  tag = .str ∨ tag = Tag.ofPlain t ∧ allowsPlain t false = true ∧ t ≠ []

/-- The style of a scalar in a document. -/
def documentStyle (isKey : Bool) (tag : Tag) (t : Text) : Style :=
  chooseStyle .document isKey tag t false

variable {tag : Tag} {t u : Text} {isKey : Bool} {k indent : Nat} {o : Opening}

theorem documentStyle_eq (isKey : Bool) (tag : Tag) (t : Text) :
    documentStyle isKey tag t =
      if Tag.ofPlain t = tag ∧ (isKey = false ∨ t ≠ [] ∧ isMultiline t = false) ∧ allowsPlain t false = true then .plain
      else if allowsSingle t false = true ∧ (isKey = false ∨ isMultiline t = false) then .single
      else .double := by
  have htag : Dialect.document.plainTag t = Tag.ofPlain t := rfl
  have hunicode : Dialect.document.unicode = false := rfl
  have hdouble : Dialect.document.prefersDouble = false := rfl
  unfold documentStyle chooseStyle
  rw [htag, hunicode, hdouble]
  simp [and_assoc]

theorem documentStyle_cases (isKey : Bool) (tag : Tag) (t : Text) :
    documentStyle isKey tag t = .plain ∧ Tag.ofPlain t = tag ∧ allowsPlain t false = true ∨
      documentStyle isKey tag t = .single ∧ allowsSingle t false = true ∧ (isKey = false ∨ isMultiline t = false) ∨
      documentStyle isKey tag t = .double := by
  rw [documentStyle_eq]
  split
  · next h => exact .inl ⟨rfl, h.1, h.2.2⟩
  · split
    · next h => exact .inr (.inl ⟨rfl, h⟩)
    · exact .inr (.inr rfl)

/-- The style tells the tag of a scalar. -/
theorem tag_of_documentStyle (h : IsImplied tag t) (hkey : isKey = true → tag = .str) :
    (if documentStyle isKey tag t = .plain then Tag.ofPlain t else .str) = tag := by
  by_cases hplain : documentStyle isKey tag t = .plain
  · rw [if_pos hplain]
    obtain ⟨-, htag, -⟩ | ⟨hsingle, -⟩ | hdouble := documentStyle_cases isKey tag t
    · exact htag
    · exact absurd (hplain.symm.trans hsingle) (by decide)
    · exact absurd (hplain.symm.trans hdouble) (by decide)
  · rw [if_neg hplain]
    obtain rfl | ⟨rfl, hallows, -⟩ := h
    · rfl
    · cases isKey with
      | true => exact (hkey rfl).symm
      | false =>
        rw [documentStyle_eq] at hplain
        simp [hallows] at hplain

theorem ne_nil_of_isImplied (h : IsImplied tag t) (hplain : Tag.ofPlain t = tag) : t ≠ [] := by
  rintro rfl
  obtain rfl | ⟨-, -, hne⟩ := h
  · exact absurd hplain (by decide)
  · exact hne rfl

/-- Where a line of the scalar may be broken, it is not broken inside of a marked blank. -/
def FoldsWell (indent : Nat) (tag : Tag) (t : Text) : Prop :=
  documentStyle false tag t = .double → indent < lineWidth ∨ anyPair isSplit (breakable none t) = false

/-- A scalar is written in its style, and its tag is left out. -/
theorem exists_margin (h : IsImplied tag t) (hkey : isKey = true → tag = .str) (o : Opening) (indent : Nat) :
    ∃ m : Margin, m.indent = indent ∧ m.folds = !isKey ∧ m.tight = false ∧
      writeScalar .document isKey o indent tag t false = o.space ++ writeStyled (documentStyle isKey tag t) m false t := by
  have hstyle : chooseStyle .document isKey tag t false = documentStyle isKey tag t := rfl
  have htag : Dialect.document.plainTag t = Tag.ofPlain t := rfl
  have himplied : (if documentStyle isKey tag t = .plain then Tag.ofPlain t = tag else tag = .str) := by
    have htags := tag_of_documentStyle h hkey
    split
    · next hplain => rwa [if_pos hplain] at htags
    · next hplain => rw [if_neg hplain] at htags; exact htags.symm
  refine ⟨⟨o.column + (o.space ++ []).length, indent, !isKey, false⟩, rfl, rfl, rfl, ?_⟩
  unfold writeScalar
  simp only [hstyle, htag, himplied, if_true, List.append_nil]
  rfl

/-- What is written of a scalar can be printed, but for the line feeds that fold it or are in it. -/
theorem forall_mem_writeStyled {m : Margin} {q : CodePoint → Prop} (h : IsImplied tag t) (hm : m.tight = false)
    (hfolds : m.folds = !isKey) (hprint : ∀ c, c.IsPrintable → q c) (hbreak : isKey = false → q '\n') :
    ∀ c ∈ writeStyled (documentStyle isKey tag t) m false t, q c := by
  have hline (hf : m.folds) : q '\n' := hbreak (by simpa [hfolds] using hf)
  have hspace : q ' ' := hprint _ (by unfold CodePoint.IsPrintable; decide)
  have hmark (double : Bool) : q (Quoted.mark double) :=
    hprint _ (by unfold CodePoint.IsPrintable; cases double <;> decide)
  have hquoted (double : Bool) {u : Text} (hu : ∀ c ∈ u, q c) : ∀ c ∈ Quoted.mark double :: (u ++ [Quoted.mark double]), q c :=
    List.forall_mem_cons.mpr ⟨hmark double, List.forall_mem_append.mpr ⟨hu, List.forall_mem_singleton.mpr (hmark double)⟩⟩
  obtain ⟨hstyle, htag, hallows⟩ | ⟨hstyle, hallows, hlines⟩ | hstyle := documentStyle_cases isKey tag t
  · obtain ⟨-, -, hchars⟩ := words_of_allowsPlain hallows (ne_nil_of_isImplied h htag)
    rw [hstyle]
    exact forall_mem_writePlainFrom hm hspace hline (fun c hc => hprint c (hchars c hc)) m.column none
  · have hlined := lined_of_allowsSingle hallows
    have ht : ∀ c ∈ t, q c := by
      intro c hc
      obtain rfl | hchar := hlined.chars c hc
      · refine hbreak (hlines.resolve_right fun hno => ?_)
        exact absurd (List.any_eq_false.mp hno _ hc) (by decide)
      · exact hprint c hchar
    rw [hstyle]
    exact hquoted false (forall_mem_writeSingleFrom hspace hline ht hlined.chars (m.column + 1) none)
  · rw [hstyle]
    exact hquoted true (forall_mem_writeDoubleFrom hm hprint hline t (m.column + 1) none true)

/-- What is written of a scalar spells its text. -/
theorem spells_writeStyled {m : Margin} (h : IsImplied tag t) (hm : m.tight = false) (hfolds : m.folds = !isKey)
    (hpos : 0 < m.indent) (hwell : isKey = false → FoldsWell m.indent tag t) (hk : k ≤ m.indent) :
    Spells k (writeStyled (documentStyle isKey tag t) m false t) t (documentStyle isKey tag t = .plain) := by
  obtain ⟨hstyle, htag, hallows⟩ | ⟨hstyle, hallows, -⟩ | hstyle := documentStyle_cases isKey tag t
  · obtain ⟨hwords, hstart, -⟩ := words_of_allowsPlain hallows (ne_nil_of_isImplied h htag)
    rw [hstyle]
    exact .plain (phrase_writePlainFrom hm hwords hpos hk m.column none) (opens_writePlainFrom hm hwords hstart m.column none)
  · have hbody := (body_writeSingleFrom hpos t).1 (m.column + 1) none (lined_of_allowsSingle hallows) (.inl (by simp))
    rw [hstyle]
    exact .quoted hbody
  · have hsafe : m.folds → m.indent < lineWidth ∨ anyPair isSplit (breakable none t) = false :=
      fun hf => hwell (by simpa [hfolds] using hf) (by rwa [show isKey = false by simpa [hfolds] using hf] at hstyle)
    rw [hstyle]
    exact .quoted (body_writeDoubleFrom hm hpos t (m.column + 1) none true hsafe)

/-- A scalar in its place: behind the space that may come first, its text is spelt. -/
theorem exists_spells_writeScalar (h : IsImplied tag t) (hkey : isKey = true → tag = .str) (hpos : 0 < indent)
    (hwell : isKey = false → FoldsWell indent tag t) (o : Opening) :
    ∃ u, writeScalar .document isKey o indent tag t false = o.space ++ u ∧
      (∀ k ≤ indent, Spells k u t (documentStyle isKey tag t = .plain)) ∧
      (isKey = true → ∀ c ∈ u, c.IsPrintable) := by
  obtain ⟨m, rfl, hfolds, hm, hwrite⟩ := exists_margin h hkey o indent
  refine ⟨_, hwrite, fun k hk => spells_writeStyled h hm hfolds hpos hwell hk, fun hk => ?_⟩
  exact forall_mem_writeStyled h hm hfolds (fun _ hc => hc) fun hno => absurd (hk.symm.trans hno) (by decide)

theorem isLined_writeScalar (h : IsImplied tag t) (hkey : isKey = true → tag = .str) (o : Opening) (indent : Nat) :
    ∀ c ∈ writeScalar .document isKey o indent tag t false, IsLined c := by
  obtain ⟨m, -, hfolds, hm, hwrite⟩ := exists_margin h hkey o indent
  have hstyled := forall_mem_writeStyled (q := IsLined) h hm hfolds (fun _ hc => .inr hc) fun _ => .inl rfl
  rw [hwrite, List.forall_mem_append]
  refine ⟨fun c hc => ?_, hstyled⟩
  unfold Opening.space at hc
  split at hc
  · obtain rfl : c = ((' ' : Char) : CodePoint) := by simpa [text] using hc
    exact .inr (by unfold CodePoint.IsPrintable; decide)
  · exact absurd hc List.not_mem_nil

end AnnotationCodec.Yaml
