import AnnotationCodec.Proofs.Json.Numeral
import AnnotationCodec.Yaml.Cursor

/-!
Where a cursor gets to. Over characters that neither end a line nor are without width it goes on in its line, and behind
a line feed it stands at the start of the next one.
-/
namespace AnnotationCodec

namespace CodePoint

theorem eq_ofChar_iff {c : CodePoint} {d : Char} : c = ofChar d ↔ c.val = d.toNat :=
  Fin.ext_iff

/-- A character that has a width and stays in its line. -/
def IsInk (c : CodePoint) : Prop :=
  c.isLineBreak = false ∧ c.val ≠ 0xFEFF

/-- Spaces and the visible characters of ASCII. -/
def IsPrintable (c : CodePoint) : Prop :=
  0x20 ≤ c.val ∧ c.val ≤ 0x7E

theorem isInk_of_isPrintable {c : CodePoint} (h : c.IsPrintable) : c.IsInk := by
  obtain ⟨hlow, hhigh⟩ := h
  unfold IsInk isLineBreak
  simp only [Bool.or_eq_false_iff, decide_eq_false_iff_not]
  omega

/-- The only gap that can be printed is a space. -/
theorem isGap_eq_false {c : CodePoint} (h : c.IsPrintable) (hne : c ≠ ' ') : c.isGap = false := by
  obtain ⟨hlow, hhigh⟩ := h
  rw [Ne, eq_ofChar_iff] at hne
  have hspace : (' ' : Char).toNat = 0x20 := rfl
  unfold isGap isLineBreak
  simp only [Bool.or_eq_false_iff, decide_eq_false_iff_not]
  omega

end CodePoint

/-- Only characters that stay in their line. -/
def Text.IsInk (u : Text) : Prop :=
  ∀ c ∈ u, CodePoint.IsInk c

theorem Text.isInk_spaces (n : Nat) : Text.IsInk (Text.spaces n) := by
  intro c hc
  obtain rfl := List.eq_of_mem_replicate hc
  exact CodePoint.isInk_of_isPrintable (by unfold CodePoint.IsPrintable; decide)

@[simp]
theorem Text.length_spaces (n : Nat) : (Text.spaces n).length = n :=
  List.length_replicate

theorem Text.head?_spaces {n : Nat} (hn : 0 < n) (r : Text) :
    (Text.spaces n ++ r).head? = some (' ' : CodePoint) := by
  obtain ⟨n, rfl⟩ := Nat.exists_eq_succ_of_ne_zero (Nat.ne_of_gt hn)
  rfl

/-- A text that does not start with a gap. -/
def Text.StartsSolid (r : Text) : Prop :=
  ∀ c ∈ r.head?, CodePoint.isGap c = false

theorem Text.startsSolid_cons {d : CodePoint} (hd : d.isGap = false) (r : Text) : Text.StartsSolid (d :: r) := by
  intro e he
  obtain rfl := Option.mem_some.mp he
  exact hd

namespace Yaml.Cursor

variable {u r : Text} {d : CodePoint} {n k column : Nat} {c : Cursor} {p : CodePoint → Bool}

theorem next_ink (hd : d.IsInk) (r : Text) (n k column : Nat) :
    (Cursor.mk (d :: r) n k column).next = ⟨r, n + 1, k, column + 1⟩ := by
  simp [next, hd.1, hd.2]

theorem next_break (r : Text) (n k column : Nat) :
    (Cursor.mk (('\n' : Char) :: r) n k column).next = ⟨r, n + 1, k + 1, 0⟩ := by
  have hbreak : CodePoint.isLineBreak (('\n' : Char) : CodePoint) = true := by decide
  have hfeed : ((('\n' : Char) : CodePoint) = (('\r' : Char) : CodePoint)) = False := by decide
  simp [next, hbreak, hfeed]

theorem skip_add (m l : Nat) (c : Cursor) : skip (m + l) c = skip l (skip m c) := by
  induction m generalizing c with
  | zero => rw [Nat.zero_add, skip]
  | succ m ih => rw [Nat.succ_add, skip, skip, ih]

theorem skip_ink (hu : Text.IsInk u) (r : Text) (n k column : Nat) :
    skip u.length ⟨u ++ r, n, k, column⟩ = ⟨r, n + u.length, k, column + u.length⟩ := by
  induction u generalizing n column with
  | nil => rfl
  | cons d u ih =>
    have hd : d.IsInk := hu d List.mem_cons_self
    have hrest : Text.IsInk u := fun e he => hu e (List.mem_cons_of_mem d he)
    rw [List.length_cons, skip, List.cons_append, next_ink hd, ih hrest]
    congr 1 <;> omega

theorem rest_next (c : Cursor) : c.next.rest = c.rest.drop 1 := by
  unfold next
  split
  · next h => rw [h]; rfl
  · next h =>
    rw [h]
    dsimp only
    split <;> rfl

theorem line_le_next (c : Cursor) : c.line ≤ c.next.line := by
  unfold next
  split
  · exact Nat.le_refl _
  · dsimp only
    split
    · exact Nat.le_succ _
    · exact Nat.le_refl _

theorem rest_skip (m : Nat) (c : Cursor) : (skip m c).rest = c.rest.drop m := by
  induction m generalizing c with
  | zero => rfl
  | succ m ih => rw [skip, ih, rest_next, List.drop_drop, Nat.add_comm]

theorem rest_skip_length (h : c.rest = u ++ r) : (skip u.length c).rest = r := by
  rw [rest_skip, h, List.drop_left]

theorem line_le_skip (m : Nat) (c : Cursor) : c.line ≤ (skip m c).line := by
  induction m generalizing c with
  | zero => exact Nat.le_refl _
  | succ m ih => exact Nat.le_trans (line_le_next c) (ih c.next)

/-- Behind a text, on the same line or on a later one. -/
theorem exists_skip (u r : Text) (n k column : Nat) :
    ∃ n' k' column', skip u.length ⟨u ++ r, n, k, column⟩ = ⟨r, n', k', column'⟩ ∧ k ≤ k' := by
  have hrest := rest_skip u.length ⟨u ++ r, n, k, column⟩
  have hline := line_le_skip u.length ⟨u ++ r, n, k, column⟩
  rw [List.drop_left] at hrest
  generalize skip u.length ⟨u ++ r, n, k, column⟩ = c at hrest hline
  obtain ⟨rest, n', k', column'⟩ := c
  obtain rfl : rest = r := hrest
  exact ⟨n', k', column', rfl, hline⟩

theorem takeWhile_of_rest (h : c.rest = u ++ r) (hu : ∀ d ∈ u, p d) (hr : Json.Stops p r) :
    c.takeWhile p = (u, c.skip u.length) := by
  simp only [takeWhile, h, Json.takeWhile_append_of_stops hu hr]

theorem takeWhile_of_stops (h : Json.Stops p c.rest) : c.takeWhile p = ([], c) :=
  takeWhile_of_rest (u := []) rfl (fun _ hd => absurd hd List.not_mem_nil) h

theorem stops_of_startsSolid (hr : Text.StartsSolid r) (hp : ∀ d, p d → d.isGap) : Json.Stops p r := by
  intro d hd
  cases hpd : p d with
  | false => rfl
  | true => exact absurd ((hp d hpd).symm.trans (hr d hd)) (by decide)

/-- Spaces in front of a character in its line are taken. -/
theorem takeWhile_spaces (hr : Text.StartsSolid r) (a n k column : Nat) :
    (Cursor.mk (Text.spaces a ++ r) n k column).takeWhile (fun d => d = ' ') =
      (Text.spaces a, ⟨r, n + a, k, column + a⟩) := by
  have hspaces : ∀ d ∈ Text.spaces a, decide (d = ((' ' : Char) : CodePoint)) = true := by
    intro d hd
    simpa using List.eq_of_mem_replicate hd
  have hstops : Json.Stops (fun d => d = ((' ' : Char) : CodePoint)) r := stops_of_startsSolid hr fun d hd => by
    obtain rfl : d = ((' ' : Char) : CodePoint) := by simpa using hd
    decide
  have hskip := skip_ink (Text.isInk_spaces a) r n k column
  rw [takeWhile_of_rest rfl hspaces hstops, hskip, Text.length_spaces]

theorem skipSpaces_spaces (hr : Text.StartsSolid r) (a n k column : Nat) :
    (Cursor.mk (Text.spaces a ++ r) n k column).skipSpaces = ⟨r, n + a, k, column + a⟩ :=
  congrArg Prod.snd (takeWhile_spaces hr a n k column)

theorem lineBreak?_of_rest (h : c.rest = ('\n' : CodePoint) :: r) :
    c.lineBreak? = some (('\n' : CodePoint), c.next) := by
  have hbreak : CodePoint.isLineBreak (('\n' : Char) : CodePoint) = true := by decide
  have hfeed : ((('\n' : Char) : CodePoint) = (('\r' : Char) : CodePoint)) = False := by decide
  simp [lineBreak?, h, hbreak, hfeed]

theorem isLineBreak_of_not_isGap (hd : d.isGap = false) : d.isLineBreak = false := by
  simp only [CodePoint.isGap, Bool.or_eq_false_iff] at hd
  exact hd.2

theorem lineBreak?_solid (hr : Text.StartsSolid c.rest) : c.lineBreak? = none := by
  unfold lineBreak?
  cases h : c.rest with
  | nil => rfl
  | cons d r =>
    have hd : d.isLineBreak = false := isLineBreak_of_not_isGap (hr d (by rw [h]; rfl))
    simp [hd]

/-- A mark between documents starts with a dash or a point. -/
theorem seesSeparator_of_head (hr : ∀ d ∈ c.rest.head?, d ≠ '-' ∧ d ≠ '.') : c.seesSeparator = false := by
  have hmark (e : Char) (s : Text) (he : ∀ d ∈ c.rest.head?, d ≠ (e : CodePoint)) :
      c.seesMark ((e : CodePoint) :: s) = false := by
    unfold seesMark
    cases h : c.rest with
    | nil => rfl
    | cons d r =>
      have hd : (e : CodePoint) ≠ d := fun heq => he d (by rw [h]; rfl) heq.symm
      simp [List.isPrefixOf, hd]
  have hdash := hmark '-' (text "--") fun d hd => (hr d hd).1
  have hpoint := hmark '.' (text "..") fun d hd => (hr d hd).2
  unfold seesSeparator
  rw [Bool.or_eq_false_iff]
  exact ⟨hdash, hpoint⟩

end Yaml.Cursor

end AnnotationCodec
