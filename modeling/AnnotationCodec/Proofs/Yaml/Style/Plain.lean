import AnnotationCodec.Proofs.Yaml.Plain
import AnnotationCodec.Yaml.Style

/-!
Plain texts as they are written. A text that may be plain consists of words with spaces between them, and wherever its
lines are folded, what is written is a phrase that stands for the text.
-/
namespace AnnotationCodec.Yaml

/-- Words with spaces between them. -/
inductive Plain.Words : Text → Prop
  | word {w} : Plain.IsWord w → Plain.Words w
  | spaces {w n y} : Plain.IsWord w → 0 < n → Plain.StartsWord y → Plain.Words y →
      Plain.Words (w ++ (Text.spaces n ++ y))

variable {m : Margin} {c d : CodePoint} {t u w y r : Text} {n column : Nat} {before : Option CodePoint}
  {p : CodePoint → CodePoint → Bool}

/-! Neighbours -/

theorem anyPair_cons (h : anyPair p (c :: t) = false) : anyPair p t = false := by
  cases t with
  | nil => rfl
  | cons d t =>
    rw [anyPair, Bool.or_eq_false_iff] at h
    exact h.2

theorem anyPair_head (h : anyPair p (c :: d :: t) = false) : p c d = false := by
  rw [anyPair, Bool.or_eq_false_iff] at h
  exact h.1

/-! Texts of words -/

namespace Plain

theorem isWord_single (hc : c.IsPrintable) (hspace : c ≠ (' ' : CodePoint)) (hcolon : c ≠ (':' : CodePoint)) :
    IsWord [c] where
  nonempty := List.cons_ne_nil c []
  solid := by
    intro d hd
    obtain rfl := List.mem_singleton.mp hd
    exact CodePoint.isGap_eq_false hc hspace
  ink := by
    intro d hd
    obtain rfl := List.mem_singleton.mp hd
    exact CodePoint.isInk_of_isPrintable hc
  last := by
    rw [List.getLast?_singleton]
    exact fun h => hcolon (Option.some.inj h)

theorem isWord_cons (hc : c.IsPrintable) (hspace : c ≠ (' ' : CodePoint)) (hw : IsWord w) : IsWord (c :: w) where
  nonempty := List.cons_ne_nil c w
  solid := by
    intro d hd
    obtain rfl | hd := List.mem_cons.mp hd
    · exact CodePoint.isGap_eq_false hc hspace
    · exact hw.solid d hd
  ink := by
    intro d hd
    obtain rfl | hd := List.mem_cons.mp hd
    · exact CodePoint.isInk_of_isPrintable hc
    · exact hw.ink d hd
  last := by
    obtain ⟨d, w, rfl⟩ := List.exists_cons_of_ne_nil hw.nonempty
    rw [List.getLast?_cons_cons]
    exact hw.last

theorem words_cons (hc : c.IsPrintable) (hspace : c ≠ (' ' : CodePoint)) (h : Words t) : Words (c :: t) := by
  cases h with
  | word hw => exact .word (isWord_cons hc hspace hw)
  | spaces hw hn hstart hy => exact .spaces (isWord_cons hc hspace hw) hn hstart hy

/-- What ends a plain scalar inside of a text. -/
def isInner (c d : CodePoint) : Bool :=
  (c = ':' && d.isGap) || (c.isGap && d = '#')

/-- A text with no stop in it and none at its end is words, perhaps behind spaces. -/
theorem words_of_inner (hprint : ∀ c ∈ t, c.IsPrintable) (hinner : anyPair isInner t = false)
    (hspace : t.getLast? ≠ some (' ' : CodePoint)) (hcolon : t.getLast? ≠ some (':' : CodePoint)) :
    t = [] ∨ Words t ∨ ∃ n y, 0 < n ∧ t = Text.spaces n ++ y ∧ Words y ∧ StartsWord y := by
  induction t with
  | nil => exact .inl rfl
  | cons c r ih =>
    have hc := hprint c List.mem_cons_self
    cases r with
    | nil =>
      have hc1 : c ≠ (' ' : CodePoint) := fun h => hspace (by rw [h]; rfl)
      have hc2 : c ≠ (':' : CodePoint) := fun h => hcolon (by rw [h]; rfl)
      exact .inr (.inl (.word (isWord_single hc hc1 hc2)))
    | cons d r =>
      rw [List.getLast?_cons_cons] at hspace hcolon
      have hrest := ih (fun e he => hprint e (List.mem_cons_of_mem c he)) (anyPair_cons hinner) hspace hcolon
      have hpair := anyPair_head hinner
      simp only [isInner, Bool.or_eq_false_iff, Bool.and_eq_false_iff, decide_eq_false_iff_not] at hpair
      right
      by_cases hblank : c = (' ' : CodePoint)
      · subst hblank
        have hgap : CodePoint.isGap ((' ' : Char) : CodePoint) = true := by decide
        have hstart : StartsWord (d :: r) := fun h => by
          obtain h' | h' := hpair.2
          · exact absurd (hgap.symm.trans h') (by decide)
          · exact h' (Option.some.inj h)
        right
        obtain hnil | hwords | ⟨n, y, hn, heq, hy, hstarty⟩ := hrest
        · exact absurd hnil (List.cons_ne_nil d r)
        · exact ⟨1, d :: r, Nat.one_pos, rfl, hwords, hstart⟩
        · exact ⟨n + 1, y, Nat.succ_pos n, by rw [heq]; rfl, hy, hstarty⟩
      · left
        obtain hnil | hwords | ⟨n, y, hn, heq, hy, hstarty⟩ := hrest
        · exact absurd hnil (List.cons_ne_nil d r)
        · exact words_cons hc hblank hwords
        · have hd : d = (' ' : CodePoint) := by
            have hhead := Text.head?_spaces hn y
            rw [← heq] at hhead
            exact Option.some.inj hhead
          have hne : c ≠ (':' : CodePoint) := fun h => by
            obtain h' | h' := hpair.1
            · exact h' h
            · rw [hd] at h'
              exact absurd h' (by decide)
          rw [heq]
          exact .spaces (isWord_single hc hblank hne) hn hstarty hy

/-- Three equal characters at the start of a word and more are at the start of the word. -/
theorem prefix_word {s : Text} (hs : ∀ d ∈ s.head?, d ≠ c) (h : [c, c, c] <+: w ++ s) : [c, c, c] <+: w := by
  obtain ⟨r, hr⟩ := h
  have hhead (t : Text) (heq : c :: t = s) : False := hs c (by rw [← heq]; rfl) rfl
  match w with
  | [] => exact absurd hr (hhead _)
  | [a] =>
    obtain ⟨-, hr⟩ := List.cons.inj hr
    exact absurd hr (hhead _)
  | [a, b] =>
    obtain ⟨-, hr⟩ := List.cons.inj hr
    obtain ⟨-, hr⟩ := List.cons.inj hr
    exact absurd hr (hhead _)
  | a :: b :: e :: w =>
    simp only [List.cons_append, List.nil_append, List.cons.injEq] at hr
    obtain ⟨rfl, rfl, rfl, -⟩ := hr
    exact ⟨w, rfl⟩

/-- What comes behind a word has no part in what its start is taken for. -/
theorem startsWithIndicator_word {s x : Text} (hw : IsWord w) (hx : Text.startsWithGap x)
    (h : startsWithIndicator (w ++ x) = false) (hs : EndsWord s) : startsWithIndicator (w ++ s) = false := by
  have hgap : CodePoint.isGap (('-' : Char) : CodePoint) = false ∧ CodePoint.isGap (('.' : Char) : CodePoint) = false := by
    decide
  have hhead : ∀ d ∈ s.head?, d ≠ ('-' : CodePoint) ∧ d ≠ ('.' : CodePoint) := by
    intro d hd
    cases s with
    | nil => exact absurd hd (by simp)
    | cons e s =>
      obtain rfl := Option.mem_some.mp hd
      obtain hstart | ⟨r, hcolon, -⟩ := hs
      · have he : e.isGap = true := hstart
        constructor
        · rintro rfl
          exact absurd (he.symm.trans hgap.1) (by decide)
        · rintro rfl
          exact absurd (he.symm.trans hgap.2) (by decide)
      · obtain ⟨rfl, -⟩ := List.cons.inj hcolon
        decide
  have hmark (e : CodePoint) (he : ∀ d ∈ s.head?, d ≠ e) (h : List.isPrefixOf [e, e, e] (w ++ x) = false) :
      List.isPrefixOf [e, e, e] (w ++ s) = false := by
    rw [Bool.eq_false_iff, Ne, List.isPrefixOf_iff_prefix] at h ⊢
    exact fun hpre => h ((prefix_word he hpre).trans (List.prefix_append w x))
  obtain ⟨c, w, rfl⟩ := List.exists_cons_of_ne_nil hw.nonempty
  have hbehind : Text.startsWithGap (w ++ s) = true → Text.startsWithGap (w ++ x) = true := by
    cases w with
    | nil => exact fun _ => hx
    | cons d w => exact id
  simp only [List.cons_append, startsWithIndicator, Bool.or_eq_false_iff, Bool.and_eq_false_iff] at h ⊢
  obtain ⟨⟨⟨hin, hgap'⟩, hdash⟩, hpoint⟩ := h
  refine ⟨⟨⟨hin, hgap'.imp_right fun hno => ?_⟩, ?_⟩, ?_⟩
  · exact Bool.eq_false_iff.mpr fun hyes => absurd (hbehind hyes) (by simp [hno])
  · exact hmark '-' (fun d hd => (hhead d hd).1) hdash
  · exact hmark '.' (fun d hd => (hhead d hd).2) hpoint

/-- The start of a text is taken for nothing but the start of a plain scalar. -/
def Opens (u : Text) : Prop :=
  Text.StartsSolid u ∧ u ≠ [] ∧ ∀ s, EndsWord s → startsWithIndicator (u ++ s) = false

end Plain

/-! Writing -/

/-- Behind a space no further space is a fold. -/
theorem writePlainFrom_spaces (m : Margin) (n column : Nat) (r : Text) :
    writePlainFrom m column (some (' ' : CodePoint)) (Text.spaces n ++ r) =
      Text.spaces n ++ writePlainFrom m (column + n) (some (' ' : CodePoint)) r := by
  induction n generalizing column with
  | zero => rfl
  | succ n ih =>
    have hspaces : Text.spaces (n + 1) = (' ' : CodePoint) :: Text.spaces n := rfl
    have hrest := ih (column + 1)
    rw [hspaces, List.cons_append, writePlainFrom]
    simp [foldsPlainAt, foldsAt, isLoneSpace, hrest, Nat.add_assoc, Nat.add_comm 1 n]

/-- Spaces between two words are written as they are, or a single one as a new line. -/
theorem exists_writePlainFrom_gap (m : Margin) (hn : 0 < n) (column : Nat) (before : Option CodePoint) (y : Text) :
    ∃ column', writePlainFrom m column before (Text.spaces n ++ y) =
        Text.spaces n ++ writePlainFrom m column' (some (' ' : CodePoint)) y ∨
      n = 1 ∧ writePlainFrom m column before (Text.spaces n ++ y) =
        m.newLine ++ writePlainFrom m column' (some (' ' : CodePoint)) y := by
  obtain ⟨n, rfl⟩ := Nat.exists_eq_add_of_le' hn
  have hspaces : Text.spaces (n + 1) = (' ' : CodePoint) :: Text.spaces n := rfl
  cases hfold : foldsPlainAt m column before (Text.spaces n ++ y) with
  | false =>
    refine ⟨column + 1 + n, .inl ?_⟩
    rw [hspaces, List.cons_append, writePlainFrom]
    simp [hfold, writePlainFrom_spaces]
  | true =>
    obtain rfl : n = 0 := by
      by_contra hpos
      have hhead := Text.head?_spaces (Nat.pos_of_ne_zero hpos) y
      simp [foldsPlainAt, foldsAt, isLoneSpace, hhead] at hfold
    refine ⟨m.indent, .inr ⟨rfl, ?_⟩⟩
    have hfold' : foldsPlainAt m column before y = true := hfold
    have hone : Text.spaces 1 = [(' ' : CodePoint)] := rfl
    rw [hone, List.singleton_append, writePlainFrom]
    simp [hfold']

section

variable (hm : m.tight = false)

include hm

theorem writePlainFrom_solid (hc : c ≠ (' ' : CodePoint)) (column : Nat) (before : Option CodePoint) (r : Text) :
    writePlainFrom m column before (c :: r) = c :: writePlainFrom m (column + 1) (some c) r := by
  simp [writePlainFrom, hc, movesWord, hm]

/-- A word is written as it is. -/
theorem exists_writePlainFrom_word (hw : Plain.IsWord w) (r : Text) (column : Nat) (before : Option CodePoint) :
    ∃ column' before', writePlainFrom m column before (w ++ r) = w ++ writePlainFrom m column' before' r := by
  have hsolid : ∀ d ∈ w, d ≠ (' ' : CodePoint) := by
    rintro d hd rfl
    exact absurd (hw.solid _ hd) (by decide)
  clear hw
  induction w generalizing column before with
  | nil => exact ⟨column, before, rfl⟩
  | cons d w ih =>
    have hwrite := writePlainFrom_solid hm (hsolid d List.mem_cons_self) column before (w ++ r)
    obtain ⟨column', before', hrest⟩ := ih (column + 1) (some d) fun a ha => hsolid a (List.mem_cons_of_mem d ha)
    rw [hrest] at hwrite
    exact ⟨column', before', hwrite⟩

/-- The first word of a text is the first word of what is written. -/
theorem exists_first_word (h : Plain.Words t) (column : Nat) (before : Option CodePoint) :
    ∃ w s v, Plain.IsWord w ∧ t = w ++ s ∧ Text.startsWithGap s ∧ writePlainFrom m column before t = w ++ v ∧
      Text.startsWithGap v := by
  cases h with
  | @word w hw =>
    obtain ⟨column', before', hwrite⟩ := exists_writePlainFrom_word hm hw [] column before
    rw [List.append_nil] at hwrite
    exact ⟨t, [], _, hw, (List.append_nil t).symm, rfl, hwrite, rfl⟩
  | @spaces w n y hw hn hstart hy =>
    obtain ⟨column', before', hwrite⟩ := exists_writePlainFrom_word hm hw (Text.spaces n ++ y) column before
    obtain ⟨column'', hgap⟩ := exists_writePlainFrom_gap m hn column' before' y
    obtain ⟨n, rfl⟩ := Nat.exists_eq_add_of_le' hn
    refine ⟨w, _, _, hw, rfl, (by decide : CodePoint.isGap ((' ' : Char) : CodePoint) = true), hwrite, ?_⟩
    obtain hgap | ⟨-, hgap⟩ := hgap
    · rw [hgap]
      exact (by decide : CodePoint.isGap ((' ' : Char) : CodePoint) = true)
    · rw [hgap]
      exact (by decide : CodePoint.isGap (('\n' : Char) : CodePoint) = true)

theorem startsWord_writePlainFrom (h : Plain.Words t) (hstart : Plain.StartsWord t) (column : Nat)
    (before : Option CodePoint) : Plain.StartsWord (writePlainFrom m column before t) := by
  obtain ⟨w, s, v, hw, rfl, -, hwrite, -⟩ := exists_first_word hm h column before
  obtain ⟨d, w, rfl⟩ := List.exists_cons_of_ne_nil hw.nonempty
  rw [hwrite]
  exact hstart

/-- What is written of words stands for them. -/
theorem phrase_writePlainFrom (h : Plain.Words t) {k : Nat} (hpos : 0 < m.indent) (hk : k ≤ m.indent) (column : Nat)
    (before : Option CodePoint) : Plain.Phrase k (writePlainFrom m column before t) t := by
  induction h generalizing column before with
  | @word w hw =>
    obtain ⟨column', before', hwrite⟩ := exists_writePlainFrom_word hm hw [] column before
    have hnil : writePlainFrom m column' before' [] = [] := rfl
    rw [List.append_nil, hnil, List.append_nil] at hwrite
    rw [hwrite]
    exact .word hw
  | @spaces w n y hw hn hstart hy ih =>
    obtain ⟨column', before', hwrite⟩ := exists_writePlainFrom_word hm hw (Text.spaces n ++ y) column before
    obtain ⟨column'', hgap | ⟨rfl, hgap⟩⟩ := exists_writePlainFrom_gap m hn column' before' y
    · rw [hwrite, hgap]
      exact .spaces hw hn (startsWord_writePlainFrom hm hy hstart _ _) (ih _ _)
    · rw [hwrite, hgap]
      exact .fold hw hpos hk (startsWord_writePlainFrom hm hy hstart _ _) (ih _ _)

/-- What is written of a text that may be plain starts nothing else, either. -/
theorem opens_writePlainFrom (h : Plain.Words t) (hstart : startsWithIndicator t = false) (column : Nat)
    (before : Option CodePoint) : Plain.Opens (writePlainFrom m column before t) := by
  obtain ⟨w, s, v, hw, rfl, hs, hwrite, hv⟩ := exists_first_word hm h column before
  rw [hwrite]
  obtain ⟨d, w', hcons⟩ := List.exists_cons_of_ne_nil hw.nonempty
  refine ⟨?_, by simp [hcons], fun x hx => ?_⟩
  · rw [hcons]
    exact Text.startsSolid_cons (hw.solid d (by simp [hcons])) _
  · have hends : Plain.EndsWord (v ++ x) := by
      cases v with
      | nil => exact hx
      | cons e v => exact .inl hv
    rw [List.append_assoc]
    exact Plain.startsWithIndicator_word hw hs hstart hends

end

/-! Characters -/

theorem forall_mem_newLine {q : CodePoint → Prop} (hspace : q ' ') (hbreak : q '\n') (m : Margin) :
    ∀ c ∈ m.newLine, q c := by
  intro c hc
  obtain hc | hc := List.mem_append.mp hc
  · obtain rfl : c = ('\n' : CodePoint) := by simpa [text] using hc
    exact hbreak
  · obtain rfl := List.eq_of_mem_replicate hc
    exact hspace

/-- Nothing but spaces, line feeds and the text itself is written of a text. -/
theorem forall_mem_writePlainFrom {q : CodePoint → Prop} (hm : m.tight = false) (hspace : q ' ') (hbreak : m.folds → q '\n')
    (ht : ∀ c ∈ t, q c) (column : Nat) (before : Option CodePoint) : ∀ c ∈ writePlainFrom m column before t, q c := by
  induction t generalizing column before with
  | nil => exact fun c hc => absurd hc List.not_mem_nil
  | cons d r ih =>
    have hrest := ih fun c hc => ht c (List.mem_cons_of_mem d hc)
    have hd : q d := ht d List.mem_cons_self
    by_cases hblank : d = (' ' : CodePoint)
    · cases hfold : foldsPlainAt m column before r with
      | true =>
        have hfolds : m.folds := by
          simp only [foldsPlainAt, foldsAt, Bool.and_eq_true] at hfold
          exact hfold.1.1
        simp only [writePlainFrom, hblank, hfold, if_true, List.forall_mem_append]
        exact ⟨forall_mem_newLine hspace (hbreak hfolds) m, hrest _ _⟩
      | false =>
        simp only [writePlainFrom, hblank, hfold, if_true, Bool.false_eq_true, if_false, List.forall_mem_cons]
        exact ⟨hspace, hrest _ _⟩
    · rw [writePlainFrom_solid hm hblank, List.forall_mem_cons]
      exact ⟨hd, hrest _ _⟩

/-- Where no line is folded, a text is written as it is. -/
theorem writePlainFrom_unfolded (hm : m.tight = false) (hfolds : m.folds = false) (column : Nat) (before : Option CodePoint)
    (t : Text) : writePlainFrom m column before t = t := by
  induction t generalizing column before with
  | nil => rfl
  | cons d r ih => simp [writePlainFrom, foldsPlainAt, foldsAt, movesWord, hm, hfolds, ih]

/-! Which texts may be plain -/

theorem isPrintable_of_isSpecial (h : isSpecial false c = false) (hne : c ≠ '\n') : c.IsPrintable := by
  simpa [isSpecial, hne, CodePoint.IsPrintable] using h

/-- A text that may be plain consists of words, and its start is taken for nothing else. -/
theorem words_of_allowsPlain (h : allowsPlain t false = true) (hne : t ≠ []) :
    Plain.Words t ∧ startsWithIndicator t = false ∧ ∀ c ∈ t, c.IsPrintable := by
  simp only [allowsPlain, Bool.not_eq_true', Bool.or_eq_false_iff] at h
  obtain ⟨⟨⟨⟨hlines, hloose⟩, hstart⟩, hinner⟩, hspecial⟩ := h
  have hprint : ∀ c ∈ t, c.IsPrintable := by
    intro c hc
    have hnone : isSpecial false c = false := by simpa using List.any_eq_false.mp hspecial c hc
    refine isPrintable_of_isSpecial hnone ?_
    rintro rfl
    exact absurd (List.any_eq_false.mp hlines _ hc) (by decide)
  simp only [hasLooseEnd, Bool.or_eq_false_iff] at hloose
  simp only [hasInnerIndicator, Bool.or_eq_false_iff, decide_eq_false_iff_not] at hinner
  have hspace : t.getLast? ≠ some (' ' : CodePoint) := by
    intro hlast
    rw [hlast] at hloose
    exact absurd hloose.2 (by decide)
  refine ⟨?_, hstart, hprint⟩
  obtain hnil | hwords | ⟨n, y, hn, heq, -, -⟩ := Plain.words_of_inner hprint hinner.1 hspace hinner.2
  · exact absurd hnil hne
  · exact hwords
  · have hhead := Text.head?_spaces hn y
    rw [← heq] at hhead
    rw [hhead] at hloose
    exact absurd hloose.1 (by decide)

theorem startsWord_of_indicator (h : startsWithIndicator t = false) : Plain.StartsWord t := by
  intro hhead
  cases t with
  | nil => cases hhead
  | cons c r =>
    obtain rfl := Option.some.inj hhead
    simp only [startsWithIndicator, Bool.or_eq_false_iff] at h
    exact absurd h.1.1.1 (by decide)

end AnnotationCodec.Yaml
