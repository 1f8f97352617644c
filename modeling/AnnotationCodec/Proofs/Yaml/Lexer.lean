import AnnotationCodec.Proofs.Yaml.Style.Scalar
import AnnotationCodec.Yaml.Lexer

/-!
What a lexer makes of a text from some place on. `Yields` says it without fuel; a step that two lexers have in common lets
one yield what the other does. Between two tokens a lexer is `idle`, and each kind of token takes it from one such place to
another.
-/
namespace AnnotationCodec.Yaml

namespace Lexer

/-- The tokens that a lexer reads in the end. Each step leaves less of the text. -/
inductive Yields : Lexer → List Token → Prop
  | done {l next} : l.step = .ok next → next.done = true → Yields l next.tokens.reverse
  | step {l next out} : l.step = .ok next → next.done = false → next.cursor.rest.length < l.cursor.rest.length →
      Yields next out → Yields l out

/-- A lexer between two tokens, outside of brackets and without a candidate. -/
def idle (c : Cursor) (ts : List Token) (is : List Nat) (allowsKey : Bool) : Lexer :=
  ⟨c, ts, ts.length, is, 0, allowsKey, [], false⟩

/-- The text goes on with a token: neither a gap nor a comment comes first. -/
def Ready (r : Text) : Prop :=
  Text.StartsSolid r ∧ Plain.StartsWord r

/-- A lexer goes on with a token at a column, wherever that is in the document. -/
structure Resumes (column : Nat) (r : Text) (ts : List Token) (is : List Nat) (out : List Token) : Prop where
  ready : Ready r
  yields : ∀ n k, Yields (idle ⟨r, n, k, column⟩ ts is true) out

variable {l next : Lexer} {c : Cursor} {ts out : List Token} {is : List Nat} {b : Bool} {r u t : Text}
  {i j k n col fuel : Nat}

theorem run_of_yields (h : Yields l out) (hfuel : l.cursor.rest.length < fuel) : l.run fuel = out := by
  induction h generalizing fuel with
  | @done l next hstep hdone =>
    obtain ⟨fuel, rfl⟩ := Nat.exists_eq_add_of_le' (Nat.lt_of_le_of_lt (Nat.zero_le _) hfuel)
    simp [run, hstep, hdone]
  | @step l next out hstep hdone hless _ ih =>
    obtain ⟨fuel, rfl⟩ := Nat.exists_eq_add_of_le' (Nat.lt_of_le_of_lt (Nat.zero_le _) hfuel)
    have hrun := ih (Nat.lt_of_lt_of_le hless (Nat.le_of_lt_succ hfuel))
    simp [run, hstep, hdone, hrun]

/-- What a lexer yields is decided by its next step. -/
theorem yields_congr {l' : Lexer} (hstep : l.step = l'.step) (hle : l'.cursor.rest.length ≤ l.cursor.rest.length)
    (h : Yields l' out) : Yields l out := by
  cases h with
  | done hnext hdone => exact .done (hstep.trans hnext) hdone
  | step hnext hdone hless hout => exact .step (hstep.trans hnext) hdone (Nat.lt_of_lt_of_le hless hle) hout

/-! A step in two parts -/

/-- Goes to the next token. -/
def settle (l : Lexer) : Except Failure Lexer :=
  (l.skipGaps (l.cursor.rest.length + 1)).dropStale

/-- Reads the token that a lexer stands at. -/
def turn (l : Lexer) : Except Failure Lexer := do
  let l ← l.token
  if l.done then return l else l.dropStale

theorem step_eq (l : Lexer) : l.step = l.settle >>= fun l => (l.closeTo l.cursor.column).turn :=
  rfl

theorem turn_of_token {l' : Lexer} (h : l.token = .ok l') (hdone : l'.done = false) (hdrop : l'.dropStale = .ok next) :
    l.turn = .ok next := by
  simp only [turn, h, bind, Except.bind, hdone]
  exact hdrop

theorem step_of_turn {l' : Lexer} (hsettle : l.settle = .ok l') (hkeep : l'.closeTo l'.cursor.column = l')
    (hturn : l'.turn = .ok next) : l.step = .ok next := by
  rw [step_eq, hsettle]
  exact (congrArg turn hkeep).trans hturn

theorem yields_of_settle {l' : Lexer} (hl : l.settle = .ok l') (hl' : l'.settle = .ok l')
    (hle : l'.cursor.rest.length ≤ l.cursor.rest.length) (h : Yields l' out) : Yields l out := by
  refine yields_congr ?_ hle h
  rw [step_eq, step_eq, hl, hl']

theorem skipGaps_spaces (hr : Ready r) (hc : l.cursor = ⟨Text.spaces i ++ r, n, k, col⟩) (fuel : Nat) :
    l.skipGaps (fuel + 1) = { l with cursor := ⟨r, n + i, k, col + i⟩ } := by
  have hskip := Cursor.skipSpaces_spaces hr.1 i n k col
  have hcomment : (Cursor.mk r (n + i) k (col + i)).sees (fun d => d = '#') = false := by
    cases r with
    | nil => rfl
    | cons d r =>
      have hd : d ≠ (('#' : Char) : CodePoint) := fun h => hr.2 (by rw [h]; rfl)
      simp [Cursor.sees, hd]
  have hnone : (Cursor.mk r (n + i) k (col + i)).lineBreak? = none := Cursor.lineBreak?_solid hr.1
  simp only [skipGaps, hc, hskip, hcomment, Bool.false_eq_true, if_false, hnone]

theorem skipGaps_line (hr : Ready r) (hc : l.cursor = ⟨('\n' : CodePoint) :: (Text.spaces j ++ r), n, k, col⟩) (fuel : Nat) :
    l.skipGaps (fuel + 2) =
      { l with cursor := ⟨r, n + 1 + j, k + 1, j⟩, allowsKey := l.allowsKey || !l.inFlow } := by
  have hfeed : Cursor.skipSpaces ⟨('\n' : CodePoint) :: (Text.spaces j ++ r), n, k, col⟩ =
      ⟨('\n' : CodePoint) :: (Text.spaces j ++ r), n, k, col⟩ :=
    congrArg Prod.snd <| Cursor.takeWhile_of_stops fun d hd => by
      obtain rfl := Option.mem_some.mp hd
      decide
  have hcomment : (Cursor.mk (('\n' : CodePoint) :: (Text.spaces j ++ r)) n k col).sees (fun d => d = '#') = false := by
    have hne : ((('\n' : Char) : CodePoint) = (('#' : Char) : CodePoint)) = False := by decide
    simp [Cursor.sees, hne]
  have hbreak : (Cursor.mk (('\n' : CodePoint) :: (Text.spaces j ++ r)) n k col).lineBreak? =
      some (('\n' : CodePoint), ⟨Text.spaces j ++ r, n + 1, k + 1, 0⟩) := by
    rw [Cursor.lineBreak?_of_rest rfl, Cursor.next_break]
  rw [skipGaps]
  simp only [hc, hfeed, hcomment, Bool.false_eq_true, if_false, hbreak]
  rw [skipGaps_spaces hr rfl, Nat.zero_add]

/-- A candidate outside of brackets that is given up without harm once the lexer is on another line. -/
structure IsPast (line : Nat) (c : Nat × Candidate) : Prop where
  outside : c.1 = 0
  optional : c.2.required = false
  above : c.2.line ≤ line

theorem dropStale_of_past (h : ∀ c ∈ l.candidates, IsPast k c) (hk : k < l.cursor.line) :
    l.dropStale = .ok { l with candidates := [] } := by
  have hkeep : l.candidates.any (fun c => l.isStale c.2 && c.2.required) = false := by
    rw [List.any_eq_false]
    intro c hc
    simp [(h c hc).optional]
  have hdrop : l.candidates.filter (fun c => !l.isStale c.2) = [] := by
    rw [List.filter_eq_nil_iff]
    intro c hc
    have hne : c.2.line ≠ l.cursor.line := Nat.ne_of_lt (Nat.lt_of_le_of_lt (h c hc).above hk)
    simp [isStale, hne]
  simp [dropStale, hkeep, hdrop]

/-- At a place without a gap an idle lexer stays there. -/
theorem settle_idle (hr : Ready c.rest) (ts : List Token) (is : List Nat) (b : Bool) :
    (idle c ts is b).settle = .ok (idle c ts is b) := by
  unfold settle
  rw [skipGaps_spaces (i := 0) hr rfl]
  rfl

theorem yields_spaces (hr : Ready r) (i n k col : Nat) (h : Yields (idle ⟨r, n + i, k, col + i⟩ ts is b) out) :
    Yields (idle ⟨Text.spaces i ++ r, n, k, col⟩ ts is b) out := by
  refine yields_of_settle ?_ (settle_idle (c := ⟨r, n + i, k, col + i⟩) hr ts is b) ?_ h
  · unfold settle
    rw [skipGaps_spaces hr rfl]
    rfl
  · simp [idle]

/-- A lexer at the end of a line, with nothing but past candidates. -/
structure EndsLine (l : Lexer) (j : Nat) (r : Text) (ts : List Token) (is : List Nat) : Prop where
  rest : l.cursor.rest = ('\n' : CodePoint) :: (Text.spaces j ++ r)
  tokens : l.tokens = ts
  count : l.count = ts.length
  indents : l.indents = is
  depth : l.depth = 0
  candidates : ∀ c ∈ l.candidates, IsPast l.cursor.line c
  going : l.done = false

/-- On the next line a lexer is idle again. -/
theorem yields_of_endsLine (hl : EndsLine l j r ts is) (h : Resumes j r ts is out) : Yields l out := by
  obtain ⟨⟨rest, n, k, col⟩, tokens, count, indents, depth, allowsKey, candidates, done⟩ := l
  obtain ⟨hrest, htokens, hcount, hindents, hdepth, hpast, hgoing⟩ := hl
  dsimp only at hrest htokens hcount hindents hdepth hpast hgoing
  subst hrest htokens hcount hindents hdepth hgoing
  refine yields_of_settle ?_ (settle_idle (c := ⟨r, n + 1 + j, k + 1, j⟩) h.ready tokens indents true) ?_ (h.yields _ _)
  · unfold settle
    have hfuel : (('\n' : CodePoint) :: (Text.spaces j ++ r)).length + 1 = (Text.spaces j ++ r).length + 2 := rfl
    rw [hfuel, skipGaps_line h.ready rfl, dropStale_of_past hpast (Nat.lt_succ_self k)]
    simp [idle, inFlow]
  · simp only [idle, List.length_cons, List.length_append]
    omega

/-! Ends of blocks -/

theorem closeBlocks_close {p : Nat → Bool} (hi : p i = false) (c : Cursor) (ts : List Token) (is : List Nat)
    (b : Bool) : (idle c ts (i :: is) b).closeBlocks p = (idle c (.blockEnd :: ts) is b).closeBlocks p := by
  simp [closeBlocks, idle, hi, push]

theorem closeTo_keep (hdepth : l.depth = 0) (h : ∀ i ∈ l.indents.head?, i ≤ col) : l.closeTo col = l := by
  have hkeep : l.indents.takeWhile (fun i => !decide (i ≤ col)) = [] := by
    cases his : l.indents with
    | nil => rfl
    | cons i is =>
      have hi : i ≤ col := h i (by rw [his]; rfl)
      simp [hi]
  simp [closeTo, inFlow, hdepth, closeBlocks, hkeep]

/-- A block ends in front of a place that is indented by less. -/
theorem resumes_close (hj : j < i) (h : Resumes j r (.blockEnd :: ts) is out) : Resumes j r ts (i :: is) out := by
  refine ⟨h.ready, fun n k => ?_⟩
  have hclose := closeBlocks_close (p := fun i => i ≤ j) (by simpa using hj) ⟨r, n, k, j⟩ ts is true
  have hcloseTo : (idle ⟨r, n, k, j⟩ ts (i :: is) true).closeTo j = (idle ⟨r, n, k, j⟩ (.blockEnd :: ts) is true).closeTo j := by
    simpa [closeTo, inFlow, idle] using hclose
  have hstep : (idle ⟨r, n, k, j⟩ ts (i :: is) true).step = (idle ⟨r, n, k, j⟩ (.blockEnd :: ts) is true).step := by
    rw [step_eq, step_eq, settle_idle (c := ⟨r, n, k, j⟩) h.ready, settle_idle (c := ⟨r, n, k, j⟩) h.ready]
    exact congrArg turn hcloseTo
  exact yields_congr hstep (Nat.le_refl _) (h.yields n k)

/-! Which token a lexer stands at -/

theorem token_quoted (double : Bool) (hc : c.rest = Quoted.mark double :: r) :
    (idle c ts is b).token = (idle c ts is b).quoted double := by
  have hseparator : c.seesSeparator = false := Cursor.seesSeparator_of_head fun d hd => by
    rw [hc] at hd
    obtain rfl := Option.mem_some.mp hd
    cases double <;> decide
  simp only [Cursor.seesSeparator, Bool.or_eq_false_iff] at hseparator
  cases double with
  | true => simp +decide [token, idle, hc, hseparator, Quoted.mark]
  | false => simp +decide [token, idle, hc, hseparator, Quoted.mark]

/-- What no plain scalar starts with. -/
theorem ne_of_startsWithIndicator {d e : CodePoint} (h : startsWithIndicator (d :: r) = false)
    (he : e.isIn "#,[]\x7b\x7d&*!|>'\"%@\x60" = true) : d ≠ e := by
  rintro rfl
  simp [startsWithIndicator, he] at h

theorem startsPlain_of_startsWithIndicator {d : CodePoint} (hgap : d.isGap = false) (h : startsWithIndicator (d :: r) = false) :
    startsPlain false d r = true := by
  simp only [startsWithIndicator, Bool.or_eq_false_iff, Bool.and_eq_false_iff, decide_eq_false_iff_not] at h
  obtain ⟨⟨⟨hin, hmarks⟩, -⟩, -⟩ := h
  by_cases hmark : d = '-' ∨ d = '?' ∨ d = ':'
  · have hnext : Text.startsWithGap r = false := hmarks.resolve_left fun hno => by
      obtain hdash | hquestion | hcolon := hmark
      · exact hno.2 hdash
      · exact hno.1.1 hquestion
      · exact hno.1.2 hcolon
    simp [startsPlain, hnext, hmark]
  · have hstart : d.isIn "-?:,[]\x7b\x7d#&*!|>'\"%@\x60" = false := by
      simp only [not_or] at hmark
      simp only [CodePoint.isIn, text, List.contains_eq_mem, decide_eq_false_iff_not] at hin ⊢
      simp at hin ⊢
      tauto
    simp [startsPlain, hgap, hstart]

theorem token_plain {d : CodePoint} (hc : c.rest = d :: r) (hgap : d.isGap = false) (h : startsWithIndicator (d :: r) = false) :
    (idle c ts is b).token = (idle c ts is b).plain := by
  have hne (e : Char) (he : (e : CodePoint).isIn "#,[]\x7b\x7d&*!|>'\"%@\x60" = true) : d ≠ e :=
    ne_of_startsWithIndicator h he
  have hstarts := startsPlain_of_startsWithIndicator hgap h
  simp only [startsWithIndicator, Bool.or_eq_false_iff, Bool.and_eq_false_iff, decide_eq_false_iff_not] at h
  obtain ⟨⟨⟨hin, hmarks⟩, hdash⟩, hpoint⟩ := h
  have hseparators : c.seesMark (text "---") = false ∧ c.seesMark (text "...") = false := by
    simp [Cursor.seesMark, hc, hdash, hpoint]
  have hgaps : ¬ (d = '-' ∧ Text.startsWithGap r = true) ∧ ¬ (d = '?' ∧ Text.startsWithGap r = true) ∧
      ¬ (d = ':' ∧ Text.startsWithGap r = true) := by
    obtain ⟨⟨hquestion, hcolon⟩, hdash⟩ | hnext := hmarks
    · exact ⟨fun h => hdash h.1, fun h => hquestion h.1, fun h => hcolon h.1⟩
    · simp [hnext]
  simp [token, idle, hc, hseparators, inFlow, hne '%' (by decide), hne '[' (by decide), hne '\x7b' (by decide), hne ']' (by decide),
    hne '\x7d' (by decide), hne ',' (by decide), hne '*' (by decide), hne '&' (by decide), hne '!' (by decide),
    hne '|' (by decide), hne '>' (by decide), hne '\'' (by decide), hne '"' (by decide), hgaps, hstarts]

theorem token_of_opens (hu : Plain.Opens u) (hs : Plain.EndsWord r) (n k col : Nat) (ts : List Token) (is : List Nat) (b : Bool) :
    (idle ⟨u ++ r, n, k, col⟩ ts is b).token = (idle ⟨u ++ r, n, k, col⟩ ts is b).plain := by
  obtain ⟨hsolid, hne, hstart⟩ := hu
  obtain ⟨d, v, rfl⟩ := List.exists_cons_of_ne_nil hne
  exact token_plain rfl (hsolid d rfl) (hstart r hs)

/-! Scalars -/

/-- The candidate that an idle lexer notes at a scalar. -/
def offered (c : Cursor) (ts : List Token) (is : List Nat) (b : Bool) : List (Nat × Candidate) :=
  if b then [(0, ⟨ts.length, decide (is.head? = some c.column), c.index, c.line, c.column⟩)] else []

/-- A lexer behind a scalar that starts at `c`. -/
def behind (c c' : Cursor) (t : Text) (isPlain broken : Bool) (ts : List Token) (is : List Nat) (b : Bool) : Lexer :=
  ⟨c', .scalar t isPlain :: ts, ts.length + 1, is, 0, broken, offered c ts is b, false⟩

theorem addCandidate_idle (c : Cursor) (ts : List Token) (is : List Nat) (b : Bool) :
    (idle c ts is b).addCandidate = .ok { idle c ts is b with candidates := offered c ts is b } := by
  cases b <;> simp [addCandidate, dropCandidate, candidate?, idle, offered, inFlow, bind, Except.bind, pure, Except.pure]

theorem quoted_idle {double : Bool} {c' : Cursor} (h : Quoted.read double c = .ok (t, c')) (ts : List Token) (is : List Nat) (b : Bool) :
    (idle c ts is b).quoted double = .ok (behind c c' t false false ts is b) := by
  have hcursor : (idle c ts is b).cursor = c := rfl
  simp only [quoted, keyPart, addCandidate_idle, bind, Except.bind, hcursor, h, Except.map]
  rfl

theorem plain_idle {g : Plain.Gap} (h : Plain.read false (idle c ts is b).innerColumn c = (t, g)) :
    (idle c ts is b).plain = .ok (behind c g.cursor t true g.broken ts is b) := by
  simp only [plain, addCandidate_idle, bind, Except.bind, pure, Except.pure]
  have hread (l : Lexer) (hl : l = { idle c ts is b with candidates := offered c ts is b }) :
      Plain.read l.inFlow l.innerColumn l.cursor = (t, g) := by
    subst hl
    exact h
  simp only [hread _ rfl]
  rfl

/-- A step at a place where a token starts right away. -/
theorem yields_of_token {l' : Lexer} (hr : Ready c.rest) (his : ∀ i ∈ is.head?, i ≤ c.column)
    (htoken : (idle c ts is b).token = .ok l') (hgoing : l'.done = false) (hdrop : l'.dropStale = .ok next)
    (hdone : next.done = false) (hless : next.cursor.rest.length < c.rest.length) (h : Yields next out) :
    Yields (idle c ts is b) out := by
  have hkeep : (idle c ts is b).closeTo c.column = idle c ts is b := closeTo_keep rfl his
  exact .step (step_of_turn (settle_idle hr ts is b) hkeep (turn_of_token htoken hgoing hdrop)) hdone hless h

theorem dropStale_past (h : ∀ c ∈ l.candidates, IsPast k c) :
    ∃ cs, l.dropStale = .ok { l with candidates := cs } ∧ ∀ c ∈ cs, IsPast k c := by
  have hkeep : l.candidates.any (fun c => l.isStale c.2 && c.2.required) = false := by
    rw [List.any_eq_false]
    intro c hc
    simp [(h c hc).optional]
  refine ⟨_, by rw [dropStale, hkeep]; rfl, fun c hc => h c (List.mem_filter.mp hc).1⟩

theorem isPast_offered (hi : is.head? ≠ some c.column) : ∀ x ∈ offered c ts is b, IsPast c.line x := by
  intro x hx
  cases b with
  | false => exact absurd hx List.not_mem_nil
  | true =>
    obtain rfl := List.mem_singleton.mp hx
    exact ⟨rfl, by simpa using hi, Nat.le_refl _⟩

theorem startsWord_of_opens (h : Plain.Opens u) : Plain.StartsWord u := by
  obtain ⟨-, -, hstart⟩ := h
  have hends : Plain.EndsWord [] := .inl rfl
  have hword := startsWord_of_indicator (hstart [] hends)
  rwa [List.append_nil] at hword

theorem ready_of_spells {column : Nat} {p : Bool} (h : Spells column u t p) (s : Text) : Ready (u ++ s) := by
  cases h with
  | plain hphrase hopens =>
    have hword := startsWord_of_opens hopens
    obtain ⟨hsolid, hne, -⟩ := hopens
    obtain ⟨d, v, rfl⟩ := List.exists_cons_of_ne_nil hne
    exact ⟨fun e he => hsolid e he, hword⟩
  | @quoted double v _ _ =>
    refine ⟨Text.startsSolid_cons (by cases double <;> decide) _, fun h => ?_⟩
    obtain h' := Option.some.inj h
    cases double <;> exact absurd h' (by decide)

/-- A scalar in quotes at the end of a line. -/
theorem yields_quoted {double : Bool} (hbody : Quoted.Body double u t)
    (hc : c.rest = Quoted.mark double :: (u ++ Quoted.mark double :: (('\n' : CodePoint) :: (Text.spaces j ++ r))))
    (his : ∀ i ∈ is.head?, i ≤ c.column) (hrequired : is.head? ≠ some c.column)
    (h : Resumes j r (.scalar t false :: ts) is out) : Yields (idle c ts is b) out := by
  have hready : Ready c.rest := by
    have hspells : Spells 0 (Quoted.mark double :: (u ++ [Quoted.mark double])) t false := .quoted hbody
    have hready := ready_of_spells hspells (('\n' : CodePoint) :: (Text.spaces j ++ r))
    rw [hc]
    simpa using hready
  have hquote : (('\n' : CodePoint) :: (Text.spaces j ++ r)).head? ≠ some ('\'' : CodePoint) := by
    rw [List.head?_cons, Ne, Option.some.injEq]
    decide
  have hread := Quoted.read_quoted hbody hc hquote
  have hrest := Cursor.rest_skip (u.length + 2) c
  have hline := Cursor.line_le_skip (u.length + 2) c
  generalize Cursor.skip (u.length + 2) c = c' at hread hrest hline
  have hrest' : c'.rest = ('\n' : CodePoint) :: (Text.spaces j ++ r) := by simpa [hc] using hrest
  have hpast : ∀ x ∈ (behind c c' t false false ts is b).candidates, IsPast c'.line x := by
    intro x hx
    obtain ⟨houtside, hoptional, hle⟩ := isPast_offered hrequired x hx
    exact ⟨houtside, hoptional, Nat.le_trans hle hline⟩
  obtain ⟨cs, hdrop, hcs⟩ := dropStale_past hpast
  have htoken := (token_quoted double hc).trans (quoted_idle hread ts is b)
  refine yields_of_token hready his htoken rfl hdrop rfl ?_ (yields_of_endsLine ⟨hrest', rfl, rfl, rfl, rfl, hcs, rfl⟩ h)
  show c'.rest.length < _
  rw [hc, hrest']
  simp only [List.length_append, List.length_cons]
  omega

/-- A scalar at the end of a line. -/
theorem yields_scalar {p : Bool} (hu : Spells (i + 1) u t p) (hj : j ≤ i) (hcol : i + 1 ≤ col)
    (h : Resumes j r (.scalar t p :: ts) (i :: is) out) :
    Yields (idle ⟨u ++ ('\n' : CodePoint) :: (Text.spaces j ++ r), n, k, col⟩ ts (i :: is) b) out := by
  have hready := ready_of_spells hu (('\n' : CodePoint) :: (Text.spaces j ++ r))
  have hhead : ∀ a ∈ (i :: is).head?, a ≤ col := by
    intro a ha
    obtain rfl := Option.mem_some.mp ha
    omega
  have hrequired : (i :: is).head? ≠ some col := fun heq => absurd (Option.some.inj heq) (by omega)
  cases hu with
  | @plain u t hphrase hopens =>
    have hends : Plain.EndsWord (('\n' : CodePoint) :: (Text.spaces j ++ r)) :=
      .inl (by decide : CodePoint.isGap (('\n' : Char) : CodePoint) = true)
    obtain ⟨content, n', k', hread, hk⟩ := Plain.read_line (i := n) (k := k) hphrase (startsWord_of_opens hopens) h.ready.1
      (Nat.lt_succ_of_le hj) (Nat.le_succ_of_le hcol)
    have hinner : (idle ⟨u ++ ('\n' : CodePoint) :: (Text.spaces j ++ r), n, k, col⟩ ts (i :: is) b).innerColumn = i + 1 := rfl
    have htoken := (token_of_opens hopens hends n k col ts (i :: is) b).trans (plain_idle (hinner ▸ hread))
    have hdrop := dropStale_of_past
      (l := behind ⟨u ++ ('\n' : CodePoint) :: (Text.spaces j ++ r), n, k, col⟩ ⟨r, n', k', j⟩ t true true ts (i :: is) b)
      (isPast_offered hrequired) hk
    refine yields_of_token hready hhead htoken rfl hdrop rfl ?_ (h.yields n' k')
    simp only [behind, List.length_append, List.length_cons]
    omega
  | @quoted double u t hbody =>
    have hcons : Quoted.mark double :: (u ++ [Quoted.mark double]) ++ ('\n' : CodePoint) :: (Text.spaces j ++ r) =
        Quoted.mark double :: (u ++ Quoted.mark double :: (('\n' : CodePoint) :: (Text.spaces j ++ r))) := by
      simp
    rw [hcons]
    exact yields_quoted hbody rfl hhead hrequired h

/-! Marks -/

/-- The marks of items, of long keys and of their values, with the token that starts their block and their own. -/
inductive IsMark : CodePoint → Token → Token → Prop
  | item : IsMark '-' .blockSequenceStart .blockEntry
  | key : IsMark '?' .blockMappingStart .key
  | value : IsMark ':' .blockMappingStart .value

/-- A place in a block at a column inside of others: the block is open, or it is opened with a token. -/
inductive Enters (column : Nat) (start : Token) (outer : List Nat) : List Nat → List Token → Prop
  | inside : Enters column start outer (column :: outer) []
  | opening : (∀ i ∈ outer.head?, i < column) → Enters column start outer outer [start]

variable {outer : List Nat} {start entry : Token} {pre : List Token} {d : CodePoint}

theorem head_of_enters (h : Enters col start outer is pre) : ∀ i ∈ is.head?, i ≤ col := by
  intro i hi
  cases h with
  | inside => exact Nat.le_of_eq (Option.mem_some.mp hi).symm
  | opening hless => exact Nat.le_of_lt (hless i hi)

theorem openBlock_idle (h : Enters c.column start outer is pre) (ts : List Token) (b : Bool) :
    (idle c ts is b).openBlock start = idle c (pre ++ ts) (c.column :: outer) b := by
  cases h with
  | inside => simp [openBlock, opensAt, idle]
  | opening hless =>
    have hopens : (idle c ts is b).opensAt (idle c ts is b).cursor.column = true := by
      rw [opensAt, Option.all_eq_true]
      exact fun i hi => decide_eq_true (hless i hi)
    rw [openBlock, if_pos hopens]
    rfl

theorem markBlock_idle (h : Enters c.column start outer is pre) (ts : List Token) :
    (idle c ts is true).markBlock start = .ok (idle c (pre ++ ts) (c.column :: outer) true) := by
  have hopen := openBlock_idle h ts true
  unfold markBlock
  rw [hopen]
  rfl

theorem seesMark_of_gap (hc : c.rest = d :: r) (hr : Text.startsWithGap r) :
    c.seesMark (text "---") = false ∧ c.seesMark (text "...") = false := by
  cases r with
  | nil => simp +decide [Cursor.seesMark, hc, text, List.isPrefixOf]
  | cons e r =>
    have he : e.isGap = true := hr
    have hdash : (('-' : Char) : CodePoint) ≠ e := by
      rintro rfl
      exact absurd he (by decide)
    have hpoint : (('.' : Char) : CodePoint) ≠ e := by
      rintro rfl
      exact absurd he (by decide)
    simp [Cursor.seesMark, hc, text, List.isPrefixOf, hdash, hpoint]

/-- A mark is put behind the start of its block. -/
theorem token_mark (hd : IsMark d start entry) (hc : c.rest = d :: r) (hr : Text.startsWithGap r)
    (he : Enters c.column start outer is pre) (ts : List Token) :
    (idle c ts is true).token = .ok (idle (c.skip 1) (entry :: (pre ++ ts)) (c.column :: outer) true) := by
  have hseparators := seesMark_of_gap hc hr
  have hblock := markBlock_idle he ts
  cases hd with
  | item =>
    have htoken : (idle c ts is true).token = (idle c ts is true).blockEntry := by
      simp +decide [token, idle, hc, hseparators, hr]
    rw [htoken, blockEntry, hblock]
    rfl
  | key =>
    have htoken : (idle c ts is true).token = (idle c ts is true).keyMark := by
      simp +decide [token, idle, hc, hseparators, hr]
    rw [htoken, keyMark, hblock]
    rfl
  | value =>
    have htoken : (idle c ts is true).token = (idle c ts is true).valueMark := by
      simp +decide [token, idle, hc, hseparators, hr]
    have hnone : (idle c ts is true).candidate? = none := rfl
    rw [htoken, valueMark, hnone]
    simp only [hblock]
    rfl

theorem ready_of_mark (hd : IsMark d start entry) (r : Text) : Ready (d :: r) := by
  cases hd <;> exact ⟨Text.startsSolid_cons (by decide) r, fun h => absurd (Option.some.inj h) (by decide)⟩

/-- Behind a mark a node may follow on the same line. -/
theorem resumes_mark (hd : IsMark d start entry) (hr : Text.startsWithGap r) (he : Enters col start outer is pre)
    (h : ∀ n k, Yields (idle ⟨r, n, k, col + 1⟩ (entry :: (pre ++ ts)) (col :: outer) true) out) :
    Resumes col (d :: r) ts is out := by
  refine ⟨ready_of_mark hd r, fun n k => ?_⟩
  have htoken := token_mark (c := ⟨d :: r, n, k, col⟩) hd rfl hr he ts
  have hskip : Cursor.skip 1 ⟨d :: r, n, k, col⟩ = ⟨r, n + 1, k, col + 1⟩ := by
    have hink : d.IsInk := CodePoint.isInk_of_isPrintable (by cases hd <;> (unfold CodePoint.IsPrintable; decide))
    exact Cursor.next_ink hink r n k col
  rw [hskip] at htoken
  exact yields_of_token (ready_of_mark hd r) (head_of_enters he) htoken rfl rfl rfl (Nat.lt_succ_self _) (h _ _)

/-! Keys on the line of their values -/

theorem innerColumn_of_enters (h : Enters col start outer is pre) (ts : List Token) (b : Bool) :
    (idle c ts is b).innerColumn ≤ col + 1 := by
  cases h with
  | inside => exact Nat.le_refl _
  | opening hless =>
    cases is with
    | nil => exact Nat.zero_le _
    | cons i is =>
      have hi : i < col := hless i rfl
      show i + 1 ≤ col + 1
      omega

/-- A scalar in front of a colon is read up to it. -/
theorem token_key {p : Bool} (hu : Spells (idle c ts is true).innerColumn u t p) (hprint : ∀ d ∈ u, d.IsPrintable)
    (hr : Text.startsWithGap r) (hinner : (idle c ts is true).innerColumn ≤ c.column + 1)
    (hc : c.rest = u ++ (':' : CodePoint) :: r) :
    (idle c ts is true).token =
      .ok (behind c ⟨(':' : CodePoint) :: r, c.index + u.length, c.line, c.column + u.length⟩ t p false ts is true) := by
  obtain ⟨rest, n, k, col⟩ := c
  obtain rfl : rest = u ++ (':' : CodePoint) :: r := hc
  have hskip := Cursor.skip_ink (fun d hd => CodePoint.isInk_of_isPrintable (hprint d hd)) ((':' : CodePoint) :: r) n k col
  cases hu with
  | @plain u t hphrase hopens =>
    have hends : Plain.EndsWord ((':' : CodePoint) :: r) := .inr ⟨r, rfl, hr⟩
    have hread := Plain.read_colon (i := n) (k := k) hphrase (startsWord_of_opens hopens) hr hinner
    rw [hskip] at hread
    rw [token_of_opens hopens hends, plain_idle hread]
  | @quoted double u t hbody =>
    have hquote : ((':' : CodePoint) :: r).head? ≠ some ('\'' : CodePoint) := by
      rw [List.head?_cons, Ne, Option.some.injEq]
      decide
    have hcons : Quoted.mark double :: (u ++ [Quoted.mark double]) ++ (':' : CodePoint) :: r =
        Quoted.mark double :: (u ++ Quoted.mark double :: ((':' : CodePoint) :: r)) := by
      simp
    have hread := Quoted.read_quoted
      (c := ⟨Quoted.mark double :: (u ++ [Quoted.mark double]) ++ (':' : CodePoint) :: r, n, k, col⟩) hbody hcons hquote
    have hlength : (Quoted.mark double :: (u ++ [Quoted.mark double])).length = u.length + 2 := by simp
    rw [hlength] at hskip ⊢
    rw [hskip] at hread
    rw [token_quoted double hcons, quoted_idle hread]

/-- The colon behind a candidate makes it a key. -/
theorem valueMark_behind (he : Enters c.column .blockMappingStart outer is pre) (c' : Cursor) (t : Text) (p : Bool)
    (ts : List Token) :
    (behind c c' t p false ts is true).valueMark =
      .ok (idle (c'.skip 1) (.value :: .scalar t p :: .key :: (pre ++ ts)) (c.column :: outer) false) := by
  cases he with
  | inside => simp [valueMark, behind, offered, candidate?, withoutCandidate, inFlow, opensAt, insertAt, pushOver, push, idle]
  | opening hless =>
    have hopens : is.head?.all (fun i => decide (i < c.column)) = true := by
      rw [Option.all_eq_true]
      exact fun i hi => decide_eq_true (hless i hi)
    simp [valueMark, behind, offered, candidate?, withoutCandidate, inFlow, opensAt, insertAt, pushOver, push, idle, hopens]

/-- A candidate on the same line and not too far back stays. -/
theorem dropStale_behind (c c' : Cursor) (hline : c'.line = c.line) (hspan : c'.index - c.index ≤ keySpan) (t : Text)
    (isPlain broken : Bool) (ts : List Token) (is : List Nat) (b : Bool) :
    (behind c c' t isPlain broken ts is b).dropStale = .ok (behind c c' t isPlain broken ts is b) := by
  have hno : ¬ keySpan < c'.index - c.index := Nat.not_lt_of_le hspan
  cases b <;> simp [dropStale, behind, offered, isStale, hline, hno]

theorem token_colon (hc : l.cursor.rest = (':' : CodePoint) :: r) (hr : Text.startsWithGap r) (hdepth : l.depth = 0) :
    l.token = l.valueMark := by
  have hseparators := seesMark_of_gap hc hr
  simp +decide [token, hc, hseparators, hr, inFlow, hdepth]

/-- The colon behind a key, where the key is still a candidate. -/
theorem yields_colon {p : Bool} (he : Enters c.column .blockMappingStart outer is pre) (hr : Text.startsWithGap r)
    (hdrop : (behind c ⟨(':' : CodePoint) :: r, n, k, col⟩ t p false ts is true).dropStale =
      .ok (behind c ⟨(':' : CodePoint) :: r, n, k, col⟩ t p false ts is true))
    (hcol : c.column ≤ col)
    (h : ∀ n k, Yields (idle ⟨r, n, k, col + 1⟩ (.value :: .scalar t p :: .key :: (pre ++ ts)) (c.column :: outer) false) out) :
    Yields (behind c ⟨(':' : CodePoint) :: r, n, k, col⟩ t p false ts is true) out := by
  have hready : Ready ((':' : CodePoint) :: r) := ready_of_mark .value r
  have hsettle : (behind c ⟨(':' : CodePoint) :: r, n, k, col⟩ t p false ts is true).settle =
      .ok (behind c ⟨(':' : CodePoint) :: r, n, k, col⟩ t p false ts is true) := by
    unfold settle
    rw [skipGaps_spaces (i := 0) hready rfl]
    exact hdrop
  have hkeep : (behind c ⟨(':' : CodePoint) :: r, n, k, col⟩ t p false ts is true).closeTo col =
      behind c ⟨(':' : CodePoint) :: r, n, k, col⟩ t p false ts is true :=
    closeTo_keep rfl fun i hi => Nat.le_trans (head_of_enters he i hi) hcol
  have hink : CodePoint.IsInk ((':' : Char) : CodePoint) :=
    CodePoint.isInk_of_isPrintable (by unfold CodePoint.IsPrintable; decide)
  have hskip : Cursor.skip 1 ⟨(':' : CodePoint) :: r, n, k, col⟩ = ⟨r, n + 1, k, col + 1⟩ := Cursor.next_ink hink r n k col
  have hvalue := valueMark_behind he ⟨(':' : CodePoint) :: r, n, k, col⟩ t p ts
  rw [hskip] at hvalue
  have hturn : (behind c ⟨(':' : CodePoint) :: r, n, k, col⟩ t p false ts is true).turn =
      .ok (idle ⟨r, n + 1, k, col + 1⟩ (.value :: .scalar t p :: .key :: (pre ++ ts)) (c.column :: outer) false) :=
    turn_of_token ((token_colon rfl hr rfl).trans hvalue) rfl rfl
  exact .step (step_of_turn hsettle hkeep hturn) rfl (Nat.lt_succ_self _) (h (n + 1) k)

theorem ne_nil_of_spells {column : Nat} {p : Bool} (h : Spells column u t p) : u ≠ [] := by
  cases h with
  | plain _ hopens => exact hopens.2.1
  | quoted _ => exact List.cons_ne_nil _ _

/-- A short key, up to its value. -/
theorem resumes_key {p : Bool} (hu : ∀ column ≤ col + 1, Spells column u t p) (hprint : ∀ d ∈ u, d.IsPrintable)
    (hspan : u.length ≤ keySpan) (hr : Text.startsWithGap r) (he : Enters col .blockMappingStart outer is pre)
    (h : ∀ n k, Yields (idle ⟨r, n, k, col + u.length + 1⟩ (.value :: .scalar t p :: .key :: (pre ++ ts)) (col :: outer) false) out) :
    Resumes col (u ++ (':' : CodePoint) :: r) ts is out := by
  refine ⟨ready_of_spells (hu 0 (Nat.zero_le _)) _, fun n k => ?_⟩
  have hinner := innerColumn_of_enters (c := ⟨u ++ (':' : CodePoint) :: r, n, k, col⟩) he ts true
  have hspells := hu _ hinner
  have hready := ready_of_spells hspells ((':' : CodePoint) :: r)
  have htoken := token_key (c := ⟨u ++ (':' : CodePoint) :: r, n, k, col⟩) hspells hprint hr hinner rfl
  have hwidth : n + u.length - n ≤ keySpan := by omega
  have hdrop := dropStale_behind ⟨u ++ (':' : CodePoint) :: r, n, k, col⟩ ⟨(':' : CodePoint) :: r, n + u.length, k, col + u.length⟩
    rfl hwidth t p false ts is true
  refine yields_of_token hready (head_of_enters he) htoken rfl hdrop rfl ?_ (yields_colon he hr hdrop (Nat.le_add_right _ _) h)
  have hpos := List.length_pos_iff.mpr (ne_nil_of_spells hspells)
  simp only [behind, List.length_append]
  omega

/-! Empty collections -/

/-- The brackets of an empty collection, with their tokens. -/
inductive IsBrackets : CodePoint → CodePoint → Token → Token → Prop
  | sequence : IsBrackets '[' ']' .flowSequenceStart .flowSequenceEnd
  | mapping : IsBrackets '\x7b' '\x7d' .flowMappingStart .flowMappingEnd

variable {x y : CodePoint} {opening closing : Token}

theorem token_opening (h : IsBrackets x y opening closing) (hc : c.rest = x :: r) (ts : List Token) (is : List Nat) (b : Bool) :
    (idle c ts is b).token =
      .ok ⟨c.next, opening :: ts, ts.length + 1, is, 1, true, offered c ts is b, false⟩ := by
  have hseparator : c.seesSeparator = false := Cursor.seesSeparator_of_head fun d hd => by
    rw [hc] at hd
    obtain rfl := Option.mem_some.mp hd
    cases h <;> decide
  simp only [Cursor.seesSeparator, Bool.or_eq_false_iff] at hseparator
  have htoken : (idle c ts is b).token = (idle c ts is b).openBracket opening := by
    cases h <;> simp +decide [token, idle, hc, hseparator]
  rw [htoken]
  simp only [openBracket, addCandidate_idle, bind, Except.bind]
  rfl

theorem token_closing {cs : List (Nat × Candidate)} (h : IsBrackets x y opening closing) (hc : c.rest = y :: r)
    (hcs : ∀ a ∈ cs, a.1 = 0) (ts : List Token) (n : Nat) (is : List Nat) :
    (Lexer.mk c ts n is 1 true cs false).token = .ok ⟨c.next, closing :: ts, n + 1, is, 0, false, cs, false⟩ := by
  have hseparator : c.seesSeparator = false := Cursor.seesSeparator_of_head fun d hd => by
    rw [hc] at hd
    obtain rfl := Option.mem_some.mp hd
    cases h <;> decide
  simp only [Cursor.seesSeparator, Bool.or_eq_false_iff] at hseparator
  have htoken : (Lexer.mk c ts n is 1 true cs false).token = (Lexer.mk c ts n is 1 true cs false).closeBracket closing := by
    cases h <;> simp +decide [token, hc, hseparator]
  have hnone : (Lexer.mk c ts n is 1 true cs false).candidate? = none := by
    have hfind : cs.find? (fun a => decide (a.1 = 1)) = none := by
      rw [List.find?_eq_none]
      intro a ha
      simp [hcs a ha]
    simp [candidate?, hfind]
  rw [htoken]
  simp only [closeBracket, dropCandidate, hnone, bind, Except.bind]
  rfl

theorem printable_of_isBrackets (h : IsBrackets x y opening closing) : x.IsPrintable ∧ y.IsPrintable := by
  cases h <;> (unfold CodePoint.IsPrintable; decide)

theorem ready_of_isBrackets (h : IsBrackets x y opening closing) (r : Text) : Ready (x :: r) ∧ Ready (y :: r) := by
  cases h <;> exact ⟨⟨Text.startsSolid_cons (by decide) r, fun h => absurd (Option.some.inj h) (by decide)⟩,
    ⟨Text.startsSolid_cons (by decide) r, fun h => absurd (Option.some.inj h) (by decide)⟩⟩

/-- The closing bracket of an empty collection at the end of a line. -/
theorem yields_closing {cs : List (Nat × Candidate)} (hb : IsBrackets x y opening closing)
    (hcs : ∀ a ∈ cs, IsPast k a) (h : Resumes j r (closing :: ts) is out) :
    Yields (Lexer.mk ⟨y :: ('\n' : CodePoint) :: (Text.spaces j ++ r), n, k, col⟩ ts ts.length is 1 true cs false) out := by
  have hnext : (Cursor.mk (y :: ('\n' : CodePoint) :: (Text.spaces j ++ r)) n k col).next =
      ⟨('\n' : CodePoint) :: (Text.spaces j ++ r), n + 1, k, col + 1⟩ :=
    Cursor.next_ink (CodePoint.isInk_of_isPrintable (printable_of_isBrackets hb).2) _ n k col
  obtain ⟨cs', hdrop, hcs'⟩ :=
    dropStale_past (l := ⟨⟨y :: ('\n' : CodePoint) :: (Text.spaces j ++ r), n, k, col⟩, ts, ts.length, is, 1, true, cs, false⟩) hcs
  obtain ⟨cs'', hdrop', hcs''⟩ :=
    dropStale_past (l := ⟨⟨('\n' : CodePoint) :: (Text.spaces j ++ r), n + 1, k, col + 1⟩, closing :: ts, ts.length + 1, is, 0,
      false, cs', false⟩) hcs'
  have htoken := token_closing (c := ⟨y :: ('\n' : CodePoint) :: (Text.spaces j ++ r), n, k, col⟩) hb rfl
    (fun a ha => (hcs' a ha).outside) ts ts.length is
  rw [hnext] at htoken
  have hends : EndsLine ⟨⟨('\n' : CodePoint) :: (Text.spaces j ++ r), n + 1, k, col + 1⟩, closing :: ts, ts.length + 1, is, 0,
      false, cs'', false⟩ j r (closing :: ts) is := ⟨rfl, rfl, rfl, rfl, rfl, hcs'', rfl⟩
  have hsettle : (Lexer.mk ⟨y :: ('\n' : CodePoint) :: (Text.spaces j ++ r), n, k, col⟩ ts ts.length is 1 true cs false).settle =
      .ok ⟨⟨y :: ('\n' : CodePoint) :: (Text.spaces j ++ r), n, k, col⟩, ts, ts.length, is, 1, true, cs', false⟩ := by
    unfold settle
    rw [skipGaps_spaces (i := 0) (ready_of_isBrackets hb _).2 rfl]
    exact hdrop
  exact .step (step_of_turn hsettle rfl (turn_of_token htoken rfl hdrop')) rfl (Nat.lt_succ_self _)
    (yields_of_endsLine hends h)

/-- An empty collection at the end of a line. -/
theorem yields_brackets (hb : IsBrackets x y opening closing) (his : ∀ i ∈ is.head?, i ≤ col)
    (hrequired : is.head? ≠ some col) (h : Resumes j r (closing :: opening :: ts) is out) (n k : Nat) :
    Yields (idle ⟨x :: y :: ('\n' : CodePoint) :: (Text.spaces j ++ r), n, k, col⟩ ts is b) out := by
  have hnext : (Cursor.mk (x :: y :: ('\n' : CodePoint) :: (Text.spaces j ++ r)) n k col).next =
      ⟨y :: ('\n' : CodePoint) :: (Text.spaces j ++ r), n + 1, k, col + 1⟩ :=
    Cursor.next_ink (CodePoint.isInk_of_isPrintable (printable_of_isBrackets hb).1) _ n k col
  have htoken := token_opening (c := ⟨x :: y :: ('\n' : CodePoint) :: (Text.spaces j ++ r), n, k, col⟩) hb rfl ts is b
  rw [hnext] at htoken
  obtain ⟨cs, hdrop, hcs⟩ := dropStale_past (l := ⟨⟨y :: ('\n' : CodePoint) :: (Text.spaces j ++ r), n + 1, k, col + 1⟩,
    opening :: ts, ts.length + 1, is, 1, true, offered _ ts is b, false⟩)
      (isPast_offered (c := ⟨x :: y :: ('\n' : CodePoint) :: (Text.spaces j ++ r), n, k, col⟩) hrequired)
  exact yields_of_token (ready_of_isBrackets hb _).1 his htoken rfl hdrop rfl (Nat.lt_succ_self _) (yields_closing hb hcs h)

/-! Documents -/

/-- What may follow a document: the mark of the next one, or nothing. -/
def EndsDocument (r : Text) : Prop :=
  r = [] ∨ ∃ s, r = text "---" ++ s ∧ Text.startsWithGap s

theorem ready_of_endsDocument (h : EndsDocument r) : Ready r := by
  obtain rfl | ⟨s, rfl, -⟩ := h
  · exact ⟨fun d hd => absurd hd (by simp), by simp [Plain.StartsWord]⟩
  · exact ⟨Text.startsSolid_cons (by decide) _, fun h => absurd (Option.some.inj h) (by decide)⟩

theorem token_documentStart {s : Text} (hs : Text.startsWithGap s) (hc : c.rest = text "---" ++ s) (hcol : c.column = 0)
    (ts : List Token) (is : List Nat) (b : Bool) : (idle c ts is b).token = (idle c ts is b).documentMark .documentStart := by
  have hrest : c.rest = ('-' : CodePoint) :: ('-' : CodePoint) :: ('-' : CodePoint) :: s := hc
  have hmark : c.seesMark (text "---") = true := by
    simp +decide [Cursor.seesMark, hrest, text, List.isPrefixOf, hs]
  simp +decide [token, idle, hrest, hmark, hcol]

theorem closeAll_close (c : Cursor) (ts : List Token) (i : Nat) (is : List Nat) (b : Bool) :
    (idle c ts (i :: is) b).closeAll = (idle c (.blockEnd :: ts) is b).closeAll := by
  have hclose := closeBlocks_close (p := fun _ => false) (i := i) rfl c ts is b
  simpa [closeAll, inFlow, idle] using hclose

/-- All blocks end at the end of a document. -/
theorem resumes_end (hr : EndsDocument r) (h : Resumes 0 r (.blockEnd :: ts) [] out) : Resumes 0 r ts [0] out := by
  refine ⟨h.ready, fun n k => ?_⟩
  have htoken : (idle ⟨r, n, k, 0⟩ ts [0] true).token = (idle ⟨r, n, k, 0⟩ (.blockEnd :: ts) [] true).token := by
    obtain rfl | ⟨s, rfl, hs⟩ := hr
    · show streamEnd _ = streamEnd _
      rw [streamEnd, streamEnd, closeAll_close]
    · rw [token_documentStart hs rfl rfl, token_documentStart hs rfl rfl, documentMark, documentMark, closeAll_close]
  have hkeep : (idle ⟨r, n, k, 0⟩ ts [0] true).closeTo 0 = idle ⟨r, n, k, 0⟩ ts [0] true :=
    closeTo_keep rfl fun i hi => Nat.le_of_eq (Option.mem_some.mp hi).symm
  have hstep : (idle ⟨r, n, k, 0⟩ ts [0] true).step = (idle ⟨r, n, k, 0⟩ (.blockEnd :: ts) [] true).step := by
    rw [step_eq, step_eq, settle_idle (c := ⟨r, n, k, 0⟩) h.ready, settle_idle (c := ⟨r, n, k, 0⟩) h.ready]
    have hturn : (idle ⟨r, n, k, 0⟩ ts [0] true).turn = (idle ⟨r, n, k, 0⟩ (.blockEnd :: ts) [] true).turn := by
      rw [turn, turn, htoken]
    exact (congrArg turn hkeep).trans hturn
  exact yields_congr hstep (Nat.le_refl _) (h.yields n k)

/-- The mark of a document. -/
theorem resumes_documentStart {s : Text} (hs : Text.startsWithGap s)
    (h : ∀ n k, Yields (idle ⟨s, n, k, 3⟩ (.documentStart :: ts) [] false) out) : Resumes 0 (text "---" ++ s) ts [] out := by
  have hready : Ready (text "---" ++ s) := ready_of_endsDocument (.inr ⟨s, rfl, hs⟩)
  refine ⟨hready, fun n k => ?_⟩
  have hink : ∀ d ∈ text "---", CodePoint.IsInk d := by
    intro d hd
    obtain rfl : d = (('-' : Char) : CodePoint) := by simpa [text] using hd
    exact CodePoint.isInk_of_isPrintable (by unfold CodePoint.IsPrintable; decide)
  have hskip : Cursor.skip 3 ⟨text "---" ++ s, n, k, 0⟩ = ⟨s, n + 3, k, 3⟩ := Cursor.skip_ink hink s n k 0
  have htoken : (idle ⟨text "---" ++ s, n, k, 0⟩ ts [] true).token =
      .ok (idle (Cursor.skip 3 ⟨text "---" ++ s, n, k, 0⟩) (.documentStart :: ts) [] false) :=
    token_documentStart hs rfl rfl ts [] true
  rw [hskip] at htoken
  refine yields_of_token hready (by simp) htoken rfl rfl rfl ?_ (h _ _)
  show s.length < s.length + 3
  omega

/-- The end of the text. -/
theorem resumes_streamEnd (ts : List Token) : Resumes 0 [] ts [] (.streamEnd :: ts).reverse := by
  refine ⟨ready_of_endsDocument (.inl rfl), fun n k => ?_⟩
  have hstep : (idle ⟨[], n, k, 0⟩ ts [] true).step =
      .ok ⟨⟨[], n, k, 0⟩, .streamEnd :: ts, ts.length + 1, [], 0, false, [], true⟩ := rfl
  exact .done hstep rfl

end Lexer

end AnnotationCodec.Yaml
