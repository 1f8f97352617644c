import AnnotationCodec.Proofs.Yaml.Quoted
import AnnotationCodec.Proofs.Yaml.Style.Plain

/-!
Texts as they are written in single quotes. The writer goes through a text from its start, so what it writes grows into a
body character by character from the end of the text.
-/
namespace AnnotationCodec.Yaml

variable {m : Margin} {c : CodePoint} {t u v x y z r : Text} {n : Nat} {before : Option CodePoint} {double : Bool}

/-! Bodies grow at their start -/

namespace Quoted

theorem body_prepend (hx : ∀ {u t}, Solid double u t → Solid double (x ++ u) (z ++ t)) (h : Body double v y) :
    Body double (x ++ v) (z ++ y) := by
  cases h with
  | last hu => exact .last (hx hu)
  | @gap u t g s w q hu hg hw hbody =>
    have hbody' := Body.gap (hx hu) hg hw hbody
    rwa [List.append_assoc, List.append_assoc] at hbody'

theorem body_bare (hc : IsBare double c) (h : Body double v y) : Body double (c :: v) (c :: y) :=
  body_prepend (x := [c]) (z := [c]) (fun hu => .bare hc hu) h

theorem body_twice (h : Body false v y) :
    Body false (('\'' : CodePoint) :: ('\'' : CodePoint) :: v) (('\'' : CodePoint) :: y) :=
  body_prepend (x := [('\'' : CodePoint), ('\'' : CodePoint)]) (z := [('\'' : CodePoint)]) (fun hu => .twice hu) h

theorem body_escape (c : CodePoint) (h : Body true v y) : Body true (escapePoint c ++ v) (c :: y) :=
  body_prepend (z := [c]) (fun hu => .escape c hu) h

theorem body_blank (h : Body true v y) :
    Body true (('\\' : CodePoint) :: (' ' : CodePoint) :: v) ((' ' : CodePoint) :: y) :=
  body_prepend (x := [('\\' : CodePoint), (' ' : CodePoint)]) (z := [(' ' : CodePoint)]) (fun hu => .blank hu) h

theorem not_startsSolid_of_gap (hg : Gap x y) (z : Text) : ¬ Text.StartsSolid (x ++ z) := by
  intro h
  obtain ⟨d, r, rfl, hgap⟩ := exists_cons_of_gap hg
  exact absurd (hgap.symm.trans (h d rfl)) (by decide)

/-- A marked line break in front of a character that is no gap stands for nothing. -/
theorem body_continuation (hn : 0 < n) (hv : Text.StartsSolid v) (hne : v ≠ []) (h : Body true v y) :
    Body true (('\\' : CodePoint) :: ('\n' : CodePoint) :: (Text.spaces n ++ v)) y := by
  cases h with
  | last hu => exact .last (.continuation hn hne hu)
  | @gap u t g s w q hu hg hw hbody =>
    have hu' : u ≠ [] := by
      rintro rfl
      rw [List.nil_append] at hv
      exact not_startsSolid_of_gap hg w hv
    have hbody' := Body.gap (.continuation hn hu' hu) hg hw hbody
    simpa [List.append_assoc] using hbody'

theorem eq_nil_of_solid (h : Solid double u t) (hu : u = []) : t = [] := by
  cases h with
  | nil => rfl
  | escape p _ => exact absurd (List.append_eq_nil_iff.mp hu).1 (escapePoint_ne_nil p)
  | bare _ _ => cases hu
  | twice _ => cases hu
  | blank _ => cases hu
  | continuation _ _ _ => cases hu

theorem startsSolid_of_body_last (h : Solid double u t) : Text.StartsSolid u := by
  have hsolid := startsSolid_of_solid h (s := []) fun _ d hd => absurd hd (by simp)
  rwa [List.append_nil] at hsolid

/-- A space is read as it is, unless a line ends behind it. -/
theorem body_space (h : Body double v y) (hv : v.head? ≠ some ('\n' : CodePoint)) :
    Body double ((' ' : CodePoint) :: v) ((' ' : CodePoint) :: y) := by
  have hone : Gap (Text.spaces 1) (Text.spaces 1) := .spaces Nat.one_pos
  cases h with
  | last hu => exact .gap .nil hone (startsSolid_of_body_last hu) (.last hu)
  | @gap u t g s w q hu hg hw hbody =>
    by_cases hnil : u = []
    · subst hnil
      obtain rfl := eq_nil_of_solid hu rfl
      cases hg with
      | @spaces n hn => exact .gap .nil (.spaces (Nat.succ_pos n)) hw hbody
      | fold _ => exact absurd rfl hv
      | lines _ _ => exact absurd rfl hv
    · have hsolid := startsSolid_of_solid hu (s := g ++ w) fun h => absurd h hnil
      exact .gap .nil hone hsolid (.gap hu hg hw hbody)

/-- A line break in front of a character that is no gap stands for a space. -/
theorem body_fold (hn : 0 < n) (hv : Text.StartsSolid v) (h : Body double v y) :
    Body double (('\n' : CodePoint) :: (Text.spaces n ++ v)) ((' ' : CodePoint) :: y) :=
  .gap .nil (.fold hn) hv h

/-- Of several line breaks all but the first are kept. -/
theorem body_lines {k : Nat} (hk : 0 < k) (hn : 0 < n) (hv : Text.StartsSolid v) (h : Body double v y) :
    Body double (('\n' : CodePoint) :: (List.replicate k ('\n' : CodePoint) ++ (Text.spaces n ++ v)))
      (List.replicate k ('\n' : CodePoint) ++ y) := by
  have hbody := Body.gap .nil (.lines hk hn) hv h
  simpa [List.append_assoc] using hbody

end Quoted

open Quoted

/-! Single quotes -/

/-- A line feed or a character that can be printed. -/
def IsLined (c : CodePoint) : Prop :=
  c = '\n' ∨ c.IsPrintable

theorem isKeptBreak_of_isPrintable (hc : c.IsPrintable) : isKeptBreak c = false := by
  simp [isKeptBreak, (CodePoint.isInk_of_isPrintable hc).1]

theorem isKeptBreak_feed : isKeptBreak (('\n' : Char) : CodePoint) = true := by
  decide

/-- What may come behind `before` in single quotes: no space stands next to a line break. -/
structure Lined (before : Option CodePoint) (t : Text) : Prop where
  behind : ∀ c ∈ before, IsLined c
  chars : ∀ c ∈ t, IsLined c
  spaceBreak : anyPair (fun a b => a = ' ' && isKeptBreak b) (before.toList ++ t) = false
  breakSpace : anyPair (fun a b => isKeptBreak a && b = ' ') (before.toList ++ t) = false

theorem lined_tail (h : Lined before (c :: r)) : Lined (some c) r := by
  have htail {p : CodePoint → CodePoint → Bool} (h : anyPair p (before.toList ++ c :: r) = false) :
      anyPair p (c :: r) = false := by
    cases before with
    | none => exact h
    | some b => exact anyPair_cons h
  refine ⟨fun d hd => ?_, fun d hd => h.chars d (List.mem_cons_of_mem c hd), htail h.spaceBreak, htail h.breakSpace⟩
  obtain rfl := Option.mem_some.mp hd
  exact h.chars c List.mem_cons_self

/-- Behind a space there is no line break. -/
theorem head_of_lined_space (h : Lined (some (' ' : CodePoint)) r) : r.head? ≠ some ('\n' : CodePoint) := by
  cases r with
  | nil => simp
  | cons d r =>
    intro hd
    obtain rfl := Option.some.inj hd
    exact absurd (anyPair_head h.spaceBreak) (by decide)

/-- Behind a line break there is no space. -/
theorem head_of_lined_feed (h : Lined (some ('\n' : CodePoint)) r) : r.head? ≠ some (' ' : CodePoint) := by
  cases r with
  | nil => simp
  | cons d r =>
    intro hd
    obtain rfl := Option.some.inj hd
    exact absurd (anyPair_head h.breakSpace) (by decide)

theorem writeSingleFrom_feed (m : Margin) (column : Nat) (before : Option CodePoint) (r : Text) :
    writeSingleFrom m column before (('\n' : CodePoint) :: r) =
      (if before.any isKeptBreak then [] else [('\n' : CodePoint)]) ++ ('\n' : CodePoint) ::
        ((if r.head?.any isKeptBreak then [] else Text.spaces m.indent) ++
          writeSingleFrom m m.indent (some ('\n' : CodePoint)) r) := by
  cases hbefore : before.any isKeptBreak <;> simp [writeSingleFrom, isKeptBreak_feed, hbefore, text]

theorem writeSingleFrom_quote (m : Margin) (column : Nat) (before : Option CodePoint) (r : Text) :
    writeSingleFrom m column before (('\'' : CodePoint) :: r) =
      ('\'' : CodePoint) :: ('\'' : CodePoint) :: writeSingleFrom m (column + 2) (some ('\'' : CodePoint)) r := by
  have hbreak : isKeptBreak (('\'' : Char) : CodePoint) = false := by decide
  simp [writeSingleFrom, hbreak, text]

theorem writeSingleFrom_space (m : Margin) (column : Nat) (before : Option CodePoint) (r : Text) :
    writeSingleFrom m column before ((' ' : CodePoint) :: r) =
      if foldsAt m column before r then m.newLine ++ writeSingleFrom m m.indent (some (' ' : CodePoint)) r
      else (' ' : CodePoint) :: writeSingleFrom m (column + 1) (some (' ' : CodePoint)) r := by
  have hbreak : isKeptBreak ((' ' : Char) : CodePoint) = false := by decide
  have hquote : (((' ' : Char) : CodePoint) = (('\'' : Char) : CodePoint)) = False := by decide
  simp [writeSingleFrom, hbreak, hquote]

theorem writeSingleFrom_bare (hc : c.IsPrintable) (hspace : c ≠ ' ') (hquote : c ≠ '\'') (m : Margin) (column : Nat)
    (before : Option CodePoint) (r : Text) :
    writeSingleFrom m column before (c :: r) = c :: writeSingleFrom m (column + 1) (some c) r := by
  simp [writeSingleFrom, isKeptBreak_of_isPrintable hc, hspace, hquote]

/-- In front of a text that starts neither with a space nor with a line break no gap is written. -/
theorem startsSolid_writeSingleFrom (h : ∀ c ∈ t, IsLined c) (hspace : t.head? ≠ some (' ' : CodePoint))
    (hfeed : t.head? ≠ some ('\n' : CodePoint)) (m : Margin) (column : Nat) (before : Option CodePoint) :
    Text.StartsSolid (writeSingleFrom m column before t) := by
  cases t with
  | nil => exact fun d hd => absurd hd (by simp [writeSingleFrom])
  | cons c r =>
    have hc : c ≠ ' ' := fun heq => hspace (by rw [heq]; rfl)
    obtain rfl | hprint := h c List.mem_cons_self
    · exact absurd rfl hfeed
    · by_cases hquote : c = '\''
      · subst hquote
        rw [writeSingleFrom_quote]
        exact Text.startsSolid_cons (by decide) _
      · rw [writeSingleFrom_bare hprint hc hquote]
        exact Text.startsSolid_cons (CodePoint.isGap_eq_false hprint hc) _

/-- Behind a space no line is broken. -/
theorem head_writeSingleFrom (h : Lined (some (' ' : CodePoint)) t) (m : Margin) (column : Nat) :
    (writeSingleFrom m column (some (' ' : CodePoint)) t).head? ≠ some ('\n' : CodePoint) := by
  intro hhead
  by_cases hspace : t.head? = some (' ' : CodePoint)
  · cases t with
    | nil => cases hspace
    | cons c r =>
      obtain rfl := Option.some.inj hspace
      rw [writeSingleFrom_space] at hhead
      simp only [foldsAt, isLoneSpace] at hhead
      exact absurd (by simpa using hhead) (by decide : ((' ' : Char) : CodePoint) ≠ (('\n' : Char) : CodePoint))
  · have hsolid := startsSolid_writeSingleFrom h.chars hspace (head_of_lined_space h) m column (some (' ' : CodePoint))
    exact absurd (hsolid _ hhead) (by decide)

/-- What is written behind a line feed: further line feeds, and a body on a line of its own. -/
def FollowsFeed (m : Margin) (t : Text) : Prop :=
  ∃ k v y, (if t.head?.any isKeptBreak then [] else Text.spaces m.indent) ++ writeSingleFrom m m.indent (some ('\n' : CodePoint)) t =
      List.replicate k ('\n' : CodePoint) ++ (Text.spaces m.indent ++ v) ∧
    t = List.replicate k ('\n' : CodePoint) ++ y ∧ Text.StartsSolid v ∧ Body false v y

theorem followsFeed_nil (m : Margin) : FollowsFeed m [] :=
  ⟨0, [], [], rfl, rfl, fun d hd => absurd hd (by simp), .last .nil⟩

theorem followsFeed_feed (h : FollowsFeed m r) : FollowsFeed m (('\n' : CodePoint) :: r) := by
  obtain ⟨k, v, y, hwrite, heq, hv, hbody⟩ := h
  have hany : (some (('\n' : Char) : CodePoint)).any isKeptBreak = true := isKeptBreak_feed
  refine ⟨k + 1, v, y, ?_, by rw [heq]; rfl, hv, hbody⟩
  rw [writeSingleFrom_feed, hwrite, List.head?_cons, hany]
  rfl

/-- The last line feed of a run is in front of a character that is no gap. -/
theorem followsFeed_of_body (h : Lined (some ('\n' : CodePoint)) (c :: r)) (hfeed : c ≠ '\n')
    (hbody : Body false (writeSingleFrom m m.indent (some ('\n' : CodePoint)) (c :: r)) (c :: r)) : FollowsFeed m (c :: r) := by
  have hprint : c.IsPrintable := (h.chars c List.mem_cons_self).resolve_left hfeed
  have hany : (some c).any isKeptBreak = false := isKeptBreak_of_isPrintable hprint
  have hne : (c :: r).head? ≠ some ('\n' : CodePoint) := fun heq => hfeed (Option.some.inj heq)
  refine ⟨0, _, c :: r, by rw [List.head?_cons, hany]; rfl, rfl, ?_, hbody⟩
  exact startsSolid_writeSingleFrom h.chars (head_of_lined_feed h) hne m _ _

/-- The first line feed of a run is written twice. -/
theorem body_writeSingleFrom_feed (hpos : 0 < m.indent) (h : Lined before (('\n' : CodePoint) :: r))
    (hfirst : before ≠ some ('\n' : CodePoint)) (hr : FollowsFeed m r) (column : Nat) :
    Body false (writeSingleFrom m column before (('\n' : CodePoint) :: r)) (('\n' : CodePoint) :: r) := by
  have hbefore : before.any isKeptBreak = false := by
    cases before with
    | none => rfl
    | some b =>
      have hb : b ≠ '\n' := fun heq => hfirst (by rw [heq])
      exact isKeptBreak_of_isPrintable ((h.behind b rfl).resolve_left hb)
  obtain ⟨k, v, y, hwrite, heq, hv, hbody⟩ := hr
  rw [writeSingleFrom_feed, hwrite, hbefore, heq]
  exact body_lines (Nat.succ_pos k) hpos hv hbody

theorem body_writeSingleFrom_cons (hpos : 0 < m.indent) (h : Lined before (c :: r)) (hfeed : c ≠ '\n')
    (hbody : ∀ column, Body false (writeSingleFrom m column (some c) r) r) (column : Nat) :
    Body false (writeSingleFrom m column before (c :: r)) (c :: r) := by
  have htail := lined_tail h
  have hprint : c.IsPrintable := (h.chars c List.mem_cons_self).resolve_left hfeed
  by_cases hquote : c = '\''
  · subst hquote
    rw [writeSingleFrom_quote]
    exact body_twice (hbody _)
  by_cases hspace : c = ' '
  · subst hspace
    rw [writeSingleFrom_space]
    cases hfold : foldsAt m column before r with
    | true =>
      have hnext : r.head? ≠ some (' ' : CodePoint) := by
        intro heq
        simp [foldsAt, isLoneSpace, heq] at hfold
      have hsolid := startsSolid_writeSingleFrom htail.chars hnext (head_of_lined_space htail) m m.indent (some (' ' : CodePoint))
      exact body_fold hpos hsolid (hbody _)
    | false => exact body_space (hbody _) (head_writeSingleFrom htail m (column + 1))
  · rw [writeSingleFrom_bare hprint hspace hquote]
    exact body_bare ⟨CodePoint.isGap_eq_false hprint hspace, hquote⟩ (hbody _)

/-- What single quotes hold stands for the text. The line feeds behind a line feed that is written are a run of lines. -/
theorem body_writeSingleFrom (hpos : 0 < m.indent) (t : Text) :
    (∀ column before, Lined before t → (before ≠ some ('\n' : CodePoint) ∨ t.head? ≠ some ('\n' : CodePoint)) →
      Body false (writeSingleFrom m column before t) t) ∧
    (Lined (some ('\n' : CodePoint)) t → FollowsFeed m t) := by
  induction t with
  | nil => exact ⟨fun _ _ _ _ => .last .nil, fun _ => followsFeed_nil m⟩
  | cons c r ih =>
    obtain ⟨hbody, hlines⟩ := ih
    by_cases hfeed : c = '\n'
    · subst hfeed
      refine ⟨fun column before h hfirst => ?_, fun h => followsFeed_feed (hlines (lined_tail h))⟩
      exact body_writeSingleFrom_feed hpos h (hfirst.resolve_right fun hne => hne rfl) (hlines (lined_tail h)) column
    · have hbehind : some c ≠ some ('\n' : CodePoint) := fun heq => hfeed (Option.some.inj heq)
      have hwhole : ∀ column before, Lined before (c :: r) → Body false (writeSingleFrom m column before (c :: r)) (c :: r) :=
        fun column _ h => body_writeSingleFrom_cons hpos h hfeed (fun _ => hbody _ _ (lined_tail h) (.inl hbehind)) column
      exact ⟨fun column before h _ => hwhole column before h, fun h => followsFeed_of_body h hfeed (hwhole _ _ h)⟩

theorem lined_of_allowsSingle (h : allowsSingle t false = true) : Lined none t := by
  simp only [allowsSingle, Bool.not_eq_true', Bool.or_eq_false_iff] at h
  refine ⟨by simp, fun c hc => ?_, h.1.1, h.1.2⟩
  have hnone : isSpecial false c = false := by simpa using List.any_eq_false.mp h.2 c hc
  exact or_iff_not_imp_left.mpr fun hne => isPrintable_of_isSpecial hnone hne

/-- Nothing but spaces, line feeds, quotes and the text itself is written in single quotes. -/
theorem forall_mem_writeSingleFrom {q : CodePoint → Prop} (hspace : q ' ') (hbreak : m.folds → q '\n') (ht : ∀ c ∈ t, q c)
    (hlined : ∀ c ∈ t, IsLined c) (column : Nat) (before : Option CodePoint) :
    ∀ c ∈ writeSingleFrom m column before t, q c := by
  induction t generalizing column before with
  | nil => exact fun c hc => absurd hc List.not_mem_nil
  | cons d r ih =>
    have hrest := ih (fun c hc => ht c (List.mem_cons_of_mem d hc)) fun c hc => hlined c (List.mem_cons_of_mem d hc)
    have hd : q d := ht d List.mem_cons_self
    have hspaces : ∀ c ∈ Text.spaces m.indent, q c := by
      intro c hc
      obtain rfl := List.eq_of_mem_replicate hc
      exact hspace
    by_cases hfeed : d = '\n'
    · subst hfeed
      rw [writeSingleFrom_feed, List.forall_mem_append, List.forall_mem_cons, List.forall_mem_append]
      refine ⟨?_, hd, ?_, hrest _ _⟩
      · split
        · exact fun c hc => absurd hc List.not_mem_nil
        · exact List.forall_mem_singleton.mpr hd
      · split
        · exact fun c hc => absurd hc List.not_mem_nil
        · exact hspaces
    by_cases hquote : d = '\''
    · subst hquote
      rw [writeSingleFrom_quote, List.forall_mem_cons, List.forall_mem_cons]
      exact ⟨hd, hd, hrest _ _⟩
    by_cases hblank : d = ' '
    · subst hblank
      rw [writeSingleFrom_space]
      cases hfold : foldsAt m column before r with
      | true =>
        have hfolds : m.folds := by
          simp only [foldsAt, Bool.and_eq_true] at hfold
          exact hfold.1.1
        rw [if_pos rfl, List.forall_mem_append]
        exact ⟨forall_mem_newLine hspace (hbreak hfolds) m, hrest _ _⟩
      | false =>
        rw [if_neg (by decide), List.forall_mem_cons]
        exact ⟨hd, hrest _ _⟩
    · have hprint : d.IsPrintable := (hlined d List.mem_cons_self).resolve_left hfeed
      rw [writeSingleFrom_bare hprint hblank hquote, List.forall_mem_cons]
      exact ⟨hd, hrest _ _⟩

/-- Where no line is folded, a text of one line is written as it is, with its quotes doubled. -/
theorem writeSingleFrom_unfolded (hfolds : m.folds = false) (hline : isMultiline t = false) (column : Nat)
    (before : Option CodePoint) :
    writeSingleFrom m column before t = t.flatMap fun c : CodePoint => if c = '\'' then text "''" else [c] := by
  induction t generalizing column before with
  | nil => rfl
  | cons c r ih =>
    obtain ⟨hc, hr⟩ := Bool.or_eq_false_iff.mp hline
    have hrest := ih hr
    rw [writeSingleFrom, hc, List.flatMap_cons]
    by_cases hquote : c = '\'' <;> simp [foldsAt, hfolds, hquote, hrest]

end AnnotationCodec.Yaml
