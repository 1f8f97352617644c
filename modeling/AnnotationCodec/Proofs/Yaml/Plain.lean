import AnnotationCodec.Proofs.Yaml.Cursor
import AnnotationCodec.Yaml.Plain

/-!
What a plain text stands for. `Phrase` says it by words and what is between them, and the reader reads a phrase as what
it stands for, up to a colon or to a line that is indented by less.
-/
namespace AnnotationCodec.Yaml.Plain

/-- A text that a plain scalar goes over without a stop. -/
structure IsWord (w : Text) : Prop where
  nonempty : w ≠ []
  solid : ∀ d ∈ w, d.isGap = false
  ink : Text.IsInk w
  last : w.getLast? ≠ some (':' : CodePoint)

/-- A text that is no comment behind a gap. -/
def StartsWord (t : Text) : Prop :=
  t.head? ≠ some ('#' : CodePoint)

/-- Words and what they stand for. A line break between two of them stands for a space; behind it the line is
indented by `column` at least. -/
inductive Phrase (column : Nat) : Text → Text → Prop
  | word {w} : IsWord w → Phrase column w w
  | spaces {w n v y} : IsWord w → 0 < n → StartsWord v → Phrase column v y →
      Phrase column (w ++ (Text.spaces n ++ v)) (w ++ (Text.spaces n ++ y))
  | fold {w n v y} : IsWord w → 0 < n → column ≤ n → StartsWord v → Phrase column v y →
      Phrase column (w ++ (('\n' : CodePoint) :: (Text.spaces n ++ v))) (w ++ (Text.spaces 1 ++ y))

/-- What a word does not go over: a gap or the end, or a colon in front of one. -/
def EndsWord (s : Text) : Prop :=
  Text.startsWithGap s ∨ ∃ r, s = (':' : CodePoint) :: r ∧ Text.startsWithGap r

variable {c : Cursor} {u t v w r s y : Text} {column fuel i j k n col : Nat} {d : CodePoint}

theorem wordLength_ends (h : EndsWord s) : wordLength false s = 0 := by
  cases s with
  | nil => rfl
  | cons d s =>
    obtain h | ⟨r, h, hr⟩ := h
    · have hd : d.isGap := h
      simp [wordLength, hd]
    · obtain ⟨rfl, rfl⟩ := List.cons.inj h
      simp [wordLength, hr]

theorem wordLength_append (hw : IsWord w) (hs : EndsWord s) : wordLength false (w ++ s) = w.length := by
  obtain ⟨-, hsolid, -, hlast⟩ := hw
  induction w with
  | nil => exact wordLength_ends hs
  | cons d w ih =>
    have hd : d.isGap = false := hsolid d List.mem_cons_self
    have hcolon : (d = (':' : CodePoint) && Text.startsWithGap (w ++ s)) = false := by
      cases w with
      | nil =>
        have hne : d ≠ (':' : CodePoint) := fun h => hlast (by rw [h]; rfl)
        simp [hne]
      | cons e w =>
        have he : e.isGap = false := hsolid e (by simp)
        simp [Text.startsWithGap, he]
    have hinner : wordLength false (w ++ s) = w.length := by
      cases w with
      | nil => exact wordLength_ends hs
      | cons e w =>
        refine ih (fun a ha => hsolid a (List.mem_cons_of_mem d ha)) ?_
        rwa [List.getLast?_cons_cons] at hlast
    simp [wordLength, hd, hcolon, hinner]

/-! Gaps -/

theorem breaks_line (hr : Text.StartsSolid r) (fuel i j k : Nat) :
    breaks (fuel + 1) ⟨Text.spaces j ++ r, i, k, 0⟩ = (some [], ⟨r, i + j, k, j⟩) := by
  have hskip := Cursor.skipSpaces_spaces hr j i k 0
  have hnone : (Cursor.mk r (i + j) k j).lineBreak? = none := Cursor.lineBreak?_solid hr
  rw [Nat.zero_add] at hskip
  simp [breaks, hskip, hnone]

/-- No mark between documents is indented. -/
theorem seesSeparator_indented (hj : 0 < j) (r : Text) (i k col : Nat) :
    (Cursor.mk (Text.spaces j ++ r) i k col).seesSeparator = false := by
  refine Cursor.seesSeparator_of_head fun d hd => ?_
  have hhead := Text.head?_spaces hj r
  rw [hhead] at hd
  obtain rfl := Option.mem_some.mp hd
  decide

/-- Behind a line break the reader gets to the first character of the next line. -/
theorem exists_gap_line (hr : Text.StartsSolid r) (i j k col : Nat) :
    ∃ content, gap ⟨('\n' : CodePoint) :: (Text.spaces j ++ r), i, k, col⟩ = ⟨content, ⟨r, i + 1 + j, k + 1, j⟩, true⟩ ∧
      (0 < j → content = Text.spaces 1) := by
  have htaken : (Cursor.mk (('\n' : CodePoint) :: (Text.spaces j ++ r)) i k col).takeWhile (fun d => d = ' ') =
      ([], ⟨('\n' : CodePoint) :: (Text.spaces j ++ r), i, k, col⟩) :=
    Cursor.takeWhile_of_stops fun d hd => by
      obtain rfl := Option.mem_some.mp hd
      decide
  have hbreak : (Cursor.mk (('\n' : CodePoint) :: (Text.spaces j ++ r)) i k col).lineBreak? =
      some (('\n' : CodePoint), ⟨Text.spaces j ++ r, i + 1, k + 1, 0⟩) := by
    rw [Cursor.lineBreak?_of_rest rfl, Cursor.next_break]
  have hbreaks := breaks_line hr (Text.spaces j ++ r).length (i + 1) j (k + 1)
  cases hmark : (Cursor.mk (Text.spaces j ++ r) (i + 1) (k + 1) 0).seesSeparator with
  | true =>
    obtain rfl : j = 0 := by
      by_contra hj
      have hnone := seesSeparator_indented (Nat.pos_of_ne_zero hj) r (i + 1) (k + 1) 0
      exact absurd (hmark.symm.trans hnone) (by decide)
    refine ⟨[], ?_, fun h => absurd h (by decide)⟩
    simp only [gap, htaken, hbreak, hmark]
    rfl
  | false =>
    refine ⟨Text.spaces 1, ?_, fun _ => rfl⟩
    simp only [gap, htaken, hbreak, hmark, hbreaks]
    rfl

/-- Spaces in front of a word are read as they are. -/
theorem gap_spaces (hr : Text.StartsSolid r) (i n k col : Nat) :
    gap ⟨Text.spaces n ++ r, i, k, col⟩ = ⟨Text.spaces n, ⟨r, i + n, k, col + n⟩, false⟩ := by
  have htaken := Cursor.takeWhile_spaces hr n i k col
  have hnone : (Cursor.mk r (i + n) k (col + n)).lineBreak? = none := Cursor.lineBreak?_solid hr
  simp [gap, htaken, hnone]

/-! Phrases -/

theorem head_of_phrase (h : Phrase column u t) : ∃ d r, u = d :: r ∧ d.isGap = false := by
  have hword {w : Text} (hw : IsWord w) (r : Text) : ∃ d r', w ++ r = d :: r' ∧ d.isGap = false := by
    obtain ⟨d, w', rfl⟩ := List.exists_cons_of_ne_nil hw.nonempty
    exact ⟨d, w' ++ r, rfl, hw.solid d List.mem_cons_self⟩
  cases h with
  | word hw => simpa using hword hw []
  | spaces hw _ _ _ => exact hword hw _
  | fold hw _ _ _ _ => exact hword hw _

theorem ne_nil_of_phrase (h : Phrase column u t) : u ≠ [] := by
  obtain ⟨d, r, rfl, -⟩ := head_of_phrase h
  exact List.cons_ne_nil d r

theorem startsSolid_of_phrase (h : Phrase column u t) (s : Text) : Text.StartsSolid (u ++ s) := by
  obtain ⟨d, r, rfl, hd⟩ := head_of_phrase h
  exact Text.startsSolid_cons hd (r ++ s)

/-- The reader stops behind a text if what it finds there is no further word. -/
def Stops (column : Nat) (g : Gap) : Prop :=
  g.content = [] ∨ g.cursor.column < column

theorem sees_word (hu : u ≠ []) (hstart : StartsWord u) (s : Text) (i k col : Nat) :
    (Cursor.mk (u ++ s) i k col).sees (fun d => d = '#') = false := by
  obtain ⟨d, u, rfl⟩ := List.exists_cons_of_ne_nil hu
  have hd : d ≠ (('#' : Char) : CodePoint) := fun h => hstart (by rw [h]; rfl)
  simp [Cursor.sees, hd]

/-- One word is read with the gap behind it. -/
theorem words_word (hw : IsWord w) (hs : EndsWord s) (hstart : StartsWord w) (content : Text) (broken : Bool)
    (column fuel i k col : Nat) :
    words false column (fuel + 1) ⟨content, ⟨w ++ s, i, k, col⟩, broken⟩ =
      let after := gap ⟨s, i + w.length, k, col + w.length⟩
      if after.content.isEmpty || after.cursor.sees (fun d => d = '#') || after.cursor.column < column then
        (content ++ w, after)
      else
        let (rest, last) := words false column fuel after
        (content ++ w ++ rest, last) := by
  have hsees := sees_word hw.nonempty hstart s i k col
  have hlength := wordLength_append hw hs
  have hne : w.length ≠ 0 := fun h => hw.nonempty (List.length_eq_zero_iff.mp h)
  have hskip := Cursor.skip_ink hw.ink s i k col
  simp [words, hsees, hlength, hw.nonempty, hskip]

/-- Behind a gap that is part of the scalar the next word is read. -/
theorem words_further (hw : IsWord w) (hs : EndsWord s) (hstart : StartsWord w)
    {g : Gap} (hgap : gap ⟨s, i + w.length, k, col + w.length⟩ = g) (hcontent : g.content ≠ [])
    (hsees : g.cursor.sees (fun d => d = '#') = false) (hcolumn : column ≤ g.cursor.column) (content : Text) (broken : Bool)
    (fuel : Nat) :
    words false column (fuel + 1) ⟨content, ⟨w ++ s, i, k, col⟩, broken⟩ =
      (content ++ w ++ (words false column fuel g).1, (words false column fuel g).2) := by
  rw [words_word hw hs hstart]
  simp [hgap, hcontent, hsees, Nat.not_lt_of_le hcolumn]

theorem startsWord_of_append (hu : u ≠ []) (h : StartsWord (u ++ s)) : StartsWord u := by
  obtain ⟨d, u, rfl⟩ := List.exists_cons_of_ne_nil hu
  exact h

/-- The reader takes a phrase for what it stands for. -/
theorem words_reads (h : Phrase column u t) (hs : EndsWord s)
    (hstops : ∀ i k col, Stops column (gap ⟨s, i, k, col⟩)) (hstart : StartsWord u) (hcol : column ≤ col + 1)
    (hfuel : u.length ≤ fuel) (content : Text) (broken : Bool) :
    words false column fuel ⟨content, ⟨u ++ s, i, k, col⟩, broken⟩ =
      (content ++ t, gap (Cursor.skip u.length ⟨u ++ s, i, k, col⟩)) := by
  induction h generalizing i k col fuel content broken with
  | @word w hw =>
    obtain ⟨fuel, rfl⟩ := Nat.exists_eq_add_of_le' (Nat.le_trans (List.length_pos_iff.mpr hw.nonempty) hfuel)
    have hstop : Stops column (gap ⟨s, i + w.length, k, col + w.length⟩) := hstops _ _ _
    rw [words_word hw hs hstart, Cursor.skip_ink hw.ink]
    obtain hempty | hless := hstop
    · simp [hempty]
    · simp [hless]
  | @spaces w n v y hw hn hstartv hv ih =>
    simp only [List.length_append, Text.length_spaces] at hfuel
    have hpos := List.length_pos_iff.mpr hw.nonempty
    obtain ⟨fuel, rfl⟩ := Nat.exists_eq_add_of_le' (show 1 ≤ fuel by omega)
    have hends : EndsWord (Text.spaces n ++ (v ++ s)) := by
      obtain ⟨n, rfl⟩ := Nat.exists_eq_add_of_le' hn
      exact .inl (by decide : CodePoint.isGap ((' ' : Char) : CodePoint) = true)
    have hgap := gap_spaces (startsSolid_of_phrase hv s) (i + w.length) n k (col + w.length)
    have hne : Text.spaces n ≠ [] := by
      rw [← List.length_pos_iff, Text.length_spaces]
      exact hn
    have hsees := sees_word (ne_nil_of_phrase hv) hstartv s (i + w.length + n) k (col + w.length + n)
    have hcolumn : column ≤ col + w.length + n := by omega
    have hinner : v.length ≤ fuel := by omega
    have hcolumn' : column ≤ col + w.length + n + 1 := Nat.le_succ_of_le hcolumn
    have hfurther := words_further hw hends (startsWord_of_append hw.nonempty hstart) hgap hne hsees hcolumn
    have hskip : Cursor.skip (w ++ (Text.spaces n ++ v)).length ⟨w ++ (Text.spaces n ++ (v ++ s)), i, k, col⟩ =
        Cursor.skip v.length ⟨v ++ s, i + w.length + n, k, col + w.length + n⟩ := by
      rw [List.length_append, Cursor.skip_add, Cursor.skip_ink hw.ink, List.length_append, Cursor.skip_add,
        Cursor.skip_ink (Text.isInk_spaces n), Text.length_spaces]
    rw [List.append_assoc, List.append_assoc, hfurther, ih hstartv hcolumn' hinner, hskip]
    simp [List.append_assoc]
  | @fold w n v y hw hn hcolumn hstartv hv ih =>
    simp only [List.length_append, List.length_cons, Text.length_spaces] at hfuel
    obtain ⟨fuel, rfl⟩ := Nat.exists_eq_add_of_le' (show 1 ≤ fuel by omega)
    have hends : EndsWord (('\n' : CodePoint) :: (Text.spaces n ++ (v ++ s))) :=
      .inl (by decide : CodePoint.isGap (('\n' : Char) : CodePoint) = true)
    obtain ⟨content', hgap, hspace⟩ := exists_gap_line (startsSolid_of_phrase hv s) (i + w.length) n k (col + w.length)
    obtain rfl := hspace hn
    have hsees := sees_word (ne_nil_of_phrase hv) hstartv s (i + w.length + 1 + n) (k + 1) n
    have hinner : v.length ≤ fuel := by omega
    have hfurther := words_further hw hends (startsWord_of_append hw.nonempty hstart) hgap (by simp [Text.spaces]) hsees hcolumn
    have hskip : Cursor.skip (w ++ (('\n' : CodePoint) :: (Text.spaces n ++ v))).length
        ⟨w ++ (('\n' : CodePoint) :: (Text.spaces n ++ (v ++ s))), i, k, col⟩ =
        Cursor.skip v.length ⟨v ++ s, i + w.length + 1 + n, k + 1, n⟩ := by
      have hline := Cursor.skip_ink (Text.isInk_spaces n) (v ++ s) (i + w.length + 1) (k + 1) 0
      rw [Nat.zero_add] at hline
      rw [List.length_append, Cursor.skip_add, Cursor.skip_ink hw.ink, List.length_cons, Cursor.skip, Cursor.next_break,
        List.length_append, Cursor.skip_add, hline, Text.length_spaces]
    rw [List.append_assoc, List.cons_append, List.append_assoc, hfurther, ih hstartv (Nat.le_succ_of_le hcolumn) hinner, hskip]
    simp [List.append_assoc]

/-- A plain text in front of a line that is indented by less. -/
theorem read_line (h : Phrase column u t) (hstart : StartsWord u) (hr : Text.StartsSolid r) (hj : j < column)
    (hcol : column ≤ col + 1) :
    ∃ content i' k', read false column ⟨u ++ (('\n' : CodePoint) :: (Text.spaces j ++ r)), i, k, col⟩ =
      (t, ⟨content, ⟨r, i', k', j⟩, true⟩) ∧ k < k' := by
  have hends : EndsWord (('\n' : CodePoint) :: (Text.spaces j ++ r)) :=
    .inl (by decide : CodePoint.isGap (('\n' : Char) : CodePoint) = true)
  have hstops (i k col : Nat) : Stops column (gap ⟨('\n' : CodePoint) :: (Text.spaces j ++ r), i, k, col⟩) := by
    obtain ⟨content, hgap, -⟩ := exists_gap_line hr i j k col
    rw [hgap]
    exact .inr hj
  have hfuel : u.length ≤ (u ++ (('\n' : CodePoint) :: (Text.spaces j ++ r))).length + 1 := by
    rw [List.length_append]
    omega
  have hreads := words_reads (i := i) (k := k) h hends hstops hstart hcol hfuel [] false
  obtain ⟨i', k', col', hskip, hk⟩ := Cursor.exists_skip u (('\n' : CodePoint) :: (Text.spaces j ++ r)) i k col
  obtain ⟨content, hgap, -⟩ := exists_gap_line hr i' j k' col'
  rw [hskip, hgap] at hreads
  exact ⟨content, _, k' + 1, hreads, Nat.lt_succ_of_le hk⟩

/-- A plain text in front of a colon. -/
theorem read_colon (h : Phrase column u t) (hstart : StartsWord u) (hr : Text.startsWithGap r) (hcol : column ≤ col + 1) :
    read false column ⟨u ++ (':' : CodePoint) :: r, i, k, col⟩ =
      (t, ⟨[], Cursor.skip u.length ⟨u ++ (':' : CodePoint) :: r, i, k, col⟩, false⟩) := by
  have hends : EndsWord ((':' : CodePoint) :: r) := .inr ⟨r, rfl, hr⟩
  have hgap (i k col : Nat) : gap ⟨(':' : CodePoint) :: r, i, k, col⟩ = ⟨[], ⟨(':' : CodePoint) :: r, i, k, col⟩, false⟩ := by
    have hsolid : Text.StartsSolid ((':' : CodePoint) :: r) := Text.startsSolid_cons (by decide) r
    exact gap_spaces (n := 0) hsolid i k col
  have hfuel : u.length ≤ (u ++ (':' : CodePoint) :: r).length + 1 := by
    rw [List.length_append]
    omega
  have hstops (i k col : Nat) : Stops column (gap ⟨(':' : CodePoint) :: r, i, k, col⟩) := .inl (by rw [hgap])
  have hreads := words_reads (i := i) (k := k) h hends hstops hstart hcol hfuel [] false
  obtain ⟨i', k', col', hskip, hk⟩ := Cursor.exists_skip u ((':' : CodePoint) :: r) i k col
  rw [hskip, hgap] at hreads
  rw [hskip]
  exact hreads

end AnnotationCodec.Yaml.Plain
