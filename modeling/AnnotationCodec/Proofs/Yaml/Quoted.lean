import AnnotationCodec.Number.Integer
import AnnotationCodec.Proofs.Yaml.Cursor
import AnnotationCodec.Yaml.Quoted
import AnnotationCodec.Yaml.Style

/-!
What a text between quotes stands for. `Body` says it without a cursor and without fuel, and the reader reads a body as
what it stands for.
-/
namespace AnnotationCodec

theorem CodePoint.hexValue?_ofNat :
    ∀ d < 16, CodePoint.hexValue? (CodePoint.ofNat (if d < 10 then 0x30 + d else 0x37 + d)) = some d := by
  decide

theorem Decimal.value_concat (base : Nat) (ds : List Nat) (d : Nat) :
    Decimal.value base (ds ++ [d]) = Decimal.value base ds * base + d := by
  simp [Decimal.value]

theorem Text.length_hex (upper : Bool) (w n : Nat) : (Text.hex upper w n).length = w := by
  induction w generalizing n with
  | zero => rfl
  | succ w ih => simp [Text.hex, ih]

/-- Hexadecimal digits are read back as the number, as far as they reach. -/
theorem Text.exists_mapM_hex (w n : Nat) :
    ∃ ds, (Text.hex true w n).mapM CodePoint.hexValue? = some ds ∧ Decimal.value 16 ds = n % 16 ^ w := by
  induction w generalizing n with
  | zero => exact ⟨[], rfl, by simp [Decimal.value, Nat.mod_one]⟩
  | succ w ih =>
    obtain ⟨ds, hds, hvalue⟩ := ih (n / 16)
    have hdigit := CodePoint.hexValue?_ofNat (n % 16) (Nat.mod_lt _ (by decide))
    refine ⟨ds ++ [n % 16], ?_, ?_⟩
    · simp [Text.hex, List.mapM_append, hds, hdigit]
    · have hsplit : n % (16 ^ w * 16) = n % 16 + 16 * (n / 16 % 16 ^ w) := by
        rw [Nat.mul_comm, Nat.mod_mul]
      rw [Decimal.value_concat, hvalue, Nat.pow_succ, hsplit]
      omega

namespace Yaml.Quoted

/-- What stands for itself between quotes. -/
def IsBare : (double : Bool) → CodePoint → Prop
  | true, c => c.isGap = false ∧ c ≠ '"' ∧ c ≠ '\\'
  | false, c => c.isGap = false ∧ c ≠ '\''

/-- Characters without a gap between them, and what they stand for. A marked line break stands for nothing. -/
inductive Solid : (double : Bool) → Text → Text → Prop
  | nil {double} : Solid double [] []
  | bare {double d u t} : IsBare double d → Solid double u t → Solid double (d :: u) (d :: t)
  | twice {u t} : Solid false u t → Solid false (('\'' : CodePoint) :: ('\'' : CodePoint) :: u) (('\'' : CodePoint) :: t)
  | escape {u t} (p : CodePoint) : Solid true u t → Solid true (escapePoint p ++ u) (p :: t)
  | blank {u t} : Solid true u t → Solid true (('\\' : CodePoint) :: (' ' : CodePoint) :: u) ((' ' : CodePoint) :: t)
  | continuation {n u t} : 0 < n → u ≠ [] → Solid true u t →
      Solid true (('\\' : CodePoint) :: ('\n' : CodePoint) :: (Text.spaces n ++ u)) t

/-- What a gap stands for: spaces for themselves, one line break for a space, and more of them for all but the first. -/
inductive Gap : Text → Text → Prop
  | spaces {n} : 0 < n → Gap (Text.spaces n) (Text.spaces n)
  | fold {n} : 0 < n → Gap (('\n' : CodePoint) :: Text.spaces n) [(' ' : CodePoint)]
  | lines {k n} : 0 < k → 0 < n →
      Gap (('\n' : CodePoint) :: (List.replicate k ('\n' : CodePoint) ++ Text.spaces n)) (List.replicate k ('\n' : CodePoint))

/-- A text between quotes and what it stands for. A gap reaches up to a character that is none. -/
inductive Body (double : Bool) : Text → Text → Prop
  | last {u t} : Solid double u t → Body double u t
  | gap {u t g x v y} : Solid double u t → Gap g x → Text.StartsSolid v → Body double v y →
      Body double (u ++ (g ++ v)) (t ++ (x ++ y))

variable {double : Bool} {c : Cursor} {d p : CodePoint} {s t u v x y r : Text} {fuel k n w : Nat}

/-! Single characters -/

theorem solid_bare (hr : c.rest = d :: r) (hd : IsBare double d) (fuel : Nat) :
    solid double (fuel + 1) c = (solid double fuel c.next).map fun (t, c) => (d :: t, c) := by
  cases double with
  | true =>
    obtain ⟨hgap, hquote, hmark⟩ := hd
    simp [solid, hr, hgap, hquote, hmark]
  | false =>
    obtain ⟨hgap, hquote⟩ := hd
    simp [solid, hr, hgap, hquote]

theorem solid_twice (hr : c.rest = ('\'' : CodePoint) :: ('\'' : CodePoint) :: r) (fuel : Nat) :
    solid false (fuel + 1) c = (solid false fuel (c.skip 2)).map fun (t, c) => ('\'' :: t, c) := by
  have hgap : CodePoint.isGap (('\'' : Char) : CodePoint) = false := by decide
  simp [solid, hr, hgap]

/-- The letter of each short escape is known to the reader. -/
theorem find?_escapes :
    ∀ e ∈ shortEscapes, escapes.find? (fun x => CodePoint.ofChar x.1 = CodePoint.ofChar e.2) = some (e.2, e.1) := by
  decide

theorem numbered_hex (h : p.val < 16 ^ w) : numbered (Text.hex true w p.val) = .ok p := by
  obtain ⟨ds, hds, hvalue⟩ := Text.exists_mapM_hex w p.val
  rw [Nat.mod_eq_of_lt h] at hvalue
  have hp : p.val < 0x110000 := p.isLt
  simp only [numbered, hds, hvalue]
  rw [if_neg (by omega), if_neg (by omega)]
  simp [CodePoint.ofNat]

/-- A letter that takes digits behind it is not the letter of a short escape. -/
theorem find?_numbered {e : Char} (he : e ∈ ['x', 'u', 'U']) :
    escapes.find? (fun x => CodePoint.ofChar x.1 = CodePoint.ofChar e) = none := by
  simp only [List.mem_cons, List.not_mem_nil, or_false] at he
  rcases he with rfl | rfl | rfl <;> rfl

theorem solid_numbered {e : Char} (he : e ∈ ['x', 'u', 'U']) (hw : escapeWidth? e = some w) (hp : p.val < 16 ^ w)
    (hr : c.rest = ('\\' : CodePoint) :: (e : CodePoint) :: (Text.hex true w p.val ++ r)) (fuel : Nat) :
    solid true (fuel + 1) c = (solid true fuel (c.skip (2 + w))).map fun (t, c) => (p :: t, c) := by
  have hgap : CodePoint.isGap (('\\' : Char) : CodePoint) = false := by decide
  have hquote : ((('\\' : Char) : CodePoint) = (('"' : Char) : CodePoint)) = False := by decide
  have hfind := find?_numbered he
  have hlength : ¬ (Text.hex true w p.val ++ r).length < w := by simp [Text.length_hex]
  have htake : (Text.hex true w p.val ++ r).take w = Text.hex true w p.val := by simp [Text.length_hex]
  simp only [solid, hr, hgap, hquote, hfind, hw, hlength, htake, numbered_hex hp]
  cases solid true fuel (c.skip (2 + w)) <;> rfl

theorem solid_short {e : Nat × Char} (he : e ∈ shortEscapes)
    (hr : c.rest = ('\\' : CodePoint) :: (e.2 : CodePoint) :: r) (fuel : Nat) :
    solid true (fuel + 1) c = (solid true fuel (c.skip 2)).map fun (t, c) => (CodePoint.ofNat e.1 :: t, c) := by
  have hgap : CodePoint.isGap (('\\' : Char) : CodePoint) = false := by decide
  have hquote : ((('\\' : Char) : CodePoint) = (('"' : Char) : CodePoint)) = False := by decide
  simp [solid, hr, hgap, hquote, find?_escapes e he]

/-- An escape has a letter, with or without digits behind it. -/
theorem escapePoint_cases (p : CodePoint) :
    (∃ e ∈ shortEscapes, e.1 = p.val ∧ escapePoint p = [('\\' : CodePoint), (e.2 : CodePoint)]) ∨
      ∃ e ∈ ['x', 'u', 'U'], ∃ w, escapeWidth? e = some w ∧ p.val < 16 ^ w ∧
        escapePoint p = ('\\' : CodePoint) :: (e : CodePoint) :: Text.hex true w p.val := by
  have hp : p.val < 0x110000 := p.isLt
  unfold escapePoint
  split
  · next e hfind =>
    have hval : e.1 = p.val := by simpa using List.find?_some hfind
    exact .inl ⟨e, List.mem_of_find?_eq_some hfind, hval, rfl⟩
  · right
    split
    · exact ⟨'x', by decide, 2, rfl, by omega, rfl⟩
    · split
      · exact ⟨'u', by decide, 4, rfl, by omega, rfl⟩
      · exact ⟨'U', by decide, 8, rfl, by omega, rfl⟩

theorem escapePoint_ne_nil (p : CodePoint) : escapePoint p ≠ [] := by
  obtain ⟨e, _, _, hescape⟩ | ⟨e, _, w, _, _, hescape⟩ := escapePoint_cases p <;>
  · rw [hescape]
    exact List.cons_ne_nil _ _

theorem solid_escape (hr : c.rest = escapePoint p ++ r) (fuel : Nat) :
    solid true (fuel + 1) c =
      (solid true fuel (c.skip (escapePoint p).length)).map fun (t, c) => (p :: t, c) := by
  obtain ⟨e, he, hval, hescape⟩ | ⟨e, he, w, hw, hp, hescape⟩ := escapePoint_cases p
  · have hpoint : CodePoint.ofNat e.1 = p := by simp [CodePoint.ofNat, hval]
    rw [hescape] at hr
    have hsolid := solid_short he hr fuel
    rw [hpoint] at hsolid
    rw [hescape]
    exact hsolid
  · rw [hescape] at hr
    have hlength : (escapePoint p).length = 2 + w := by
      rw [hescape, List.length_cons, List.length_cons, Text.length_hex]
      omega
    rw [hlength]
    exact solid_numbered he hw hp hr fuel

theorem solid_blank (hr : c.rest = ('\\' : CodePoint) :: (' ' : CodePoint) :: r) (fuel : Nat) :
    solid true (fuel + 1) c = (solid true fuel (c.skip 2)).map fun (t, c) => (' ' :: t, c) := by
  have hgap : CodePoint.isGap (('\\' : Char) : CodePoint) = false := by decide
  have hquote : ((('\\' : Char) : CodePoint) = (('"' : Char) : CodePoint)) = False := by decide
  have hfind : escapes.find? (fun x => CodePoint.ofChar x.1 = CodePoint.ofChar ' ') = some (' ', 0x20) := by decide
  have hpoint : CodePoint.ofNat 0x20 = (' ' : CodePoint) := by decide
  simp [solid, hr, hgap, hquote, hfind, hpoint]

theorem solid_continuation (hr : c.rest = ('\\' : CodePoint) :: ('\n' : CodePoint) :: r) (fuel : Nat) :
    solid true (fuel + 1) c = do
      let (bs, c) ← breaks fuel (c.skip 2)
      let (t, c) ← solid true fuel c
      return (bs ++ t, c) := by
  have hgap : CodePoint.isGap (('\\' : Char) : CodePoint) = false := by decide
  have hquote : ((('\\' : Char) : CodePoint) = (('"' : Char) : CodePoint)) = False := by decide
  have hfind : escapes.find? (fun x => CodePoint.ofChar x.1 = CodePoint.ofChar '\n') = none := by decide
  have hwidth : escapeWidth? ('\n' : CodePoint) = none := by decide
  have hnext : c.next.rest = ('\n' : CodePoint) :: r := by rw [Cursor.rest_next, hr]; rfl
  have hbreak := Cursor.lineBreak?_of_rest hnext
  simp [solid, hr, hgap, hquote, hfind, hwidth, hbreak, Cursor.skip]

/-! Line breaks -/

theorem seesSeparator_of_blank (h : c.rest.head? = some (' ' : CodePoint) ∨ c.rest.head? = some ('\n' : CodePoint)) :
    c.seesSeparator = false := by
  refine Cursor.seesSeparator_of_head fun d hd => ?_
  obtain h | h := h <;> (rw [h] at hd; obtain rfl := Option.mem_some.mp hd; decide)

/-- What is gone over within a line. -/
def isBlank (c : CodePoint) : Bool :=
  c = ' ' || c = '\t'

theorem isGap_of_isBlank (h : isBlank d) : d.isGap := by
  simp only [isBlank, Bool.or_eq_true, decide_eq_true_eq] at h
  obtain rfl | rfl := h <;> decide

theorem takeWhile_spaces (hr : c.rest = Text.spaces n ++ r) (hsolid : Text.StartsSolid r) :
    c.takeWhile isBlank = (Text.spaces n, c.skip n) := by
  have hblank : ∀ d ∈ Text.spaces n, isBlank d := by
    intro d hd
    obtain rfl := List.eq_of_mem_replicate hd
    decide
  have hstops : Json.Stops isBlank r := Cursor.stops_of_startsSolid hsolid fun d hd => isGap_of_isBlank hd
  have htaken := Cursor.takeWhile_of_rest hr hblank hstops
  rwa [Text.length_spaces] at htaken

theorem takeWhile_break (hr : c.rest = ('\n' : CodePoint) :: r) : c.takeWhile isBlank = ([], c) := by
  refine Cursor.takeWhile_of_stops fun d hd => ?_
  rw [hr] at hd
  obtain rfl := Option.mem_some.mp hd
  decide

theorem lineBreak?_spaces (hr : c.rest = Text.spaces n ++ r) (hsolid : Text.StartsSolid r) :
    (c.skip n).lineBreak? = none := by
  have hrest := Cursor.rest_skip_length hr
  rw [Text.length_spaces] at hrest
  exact Cursor.lineBreak?_solid (hrest ▸ hsolid)

/-- Line feeds are read up to the first character that stands in its line. -/
theorem breaks_lines (hn : 0 < n) (hsolid : Text.StartsSolid r)
    (hr : c.rest = List.replicate k ('\n' : CodePoint) ++ (Text.spaces n ++ r)) (hfuel : k < fuel) :
    breaks fuel c = .ok (List.replicate k ('\n' : CodePoint), c.skip (k + n)) := by
  induction k generalizing c fuel with
  | zero =>
    obtain ⟨fuel, rfl⟩ := Nat.exists_eq_succ_of_ne_zero (Nat.ne_of_gt hfuel)
    have hrest : c.rest = Text.spaces n ++ r := hr
    have hmark : c.seesSeparator = false := seesSeparator_of_blank (.inl (hrest ▸ Text.head?_spaces hn r))
    have hskip : c.skipWhile isBlank = c.skip n := congrArg Prod.snd (takeWhile_spaces hrest hsolid)
    have hnone := lineBreak?_spaces hrest hsolid
    unfold isBlank at hskip
    simp [breaks, hmark, hskip, hnone]
  | succ k ih =>
    obtain ⟨fuel, rfl⟩ := Nat.exists_eq_succ_of_ne_zero (Nat.ne_of_gt (Nat.zero_lt_of_lt hfuel))
    have hrest : c.rest = ('\n' : CodePoint) :: (List.replicate k ('\n' : CodePoint) ++ (Text.spaces n ++ r)) := hr
    have hmark : c.seesSeparator = false := seesSeparator_of_blank (.inr (by rw [hrest]; rfl))
    have hskip : c.skipWhile isBlank = c := congrArg Prod.snd (takeWhile_break hrest)
    have hbreak := Cursor.lineBreak?_of_rest hrest
    have hnext : c.next.rest = List.replicate k ('\n' : CodePoint) ++ (Text.spaces n ++ r) := by
      rw [Cursor.rest_next, hrest]
      rfl
    have hinner := ih hnext (Nat.lt_of_succ_lt_succ hfuel)
    have hcursor : c.next.skip (k + n) = c.skip (k + 1 + n) := by
      rw [Nat.add_right_comm]
      rfl
    unfold isBlank at hskip
    simp [breaks, hmark, hskip, hbreak, hinner, hcursor, Except.map, List.replicate_succ]

/-! Gaps -/

theorem gap_break (hn : 0 < n) (hsolid : Text.StartsSolid r)
    (hr : c.rest = ('\n' : CodePoint) :: (List.replicate k ('\n' : CodePoint) ++ (Text.spaces n ++ r))) (hfuel : k < fuel) :
    gap fuel c = .ok (folded '\n' (List.replicate k ('\n' : CodePoint)), c.skip (1 + (k + n))) := by
  have htaken := takeWhile_break hr
  have hbreak := Cursor.lineBreak?_of_rest hr
  have hnext : c.next.rest = List.replicate k ('\n' : CodePoint) ++ (Text.spaces n ++ r) := by
    rw [Cursor.rest_next, hr]
    rfl
  have hbreaks := breaks_lines hn hsolid hnext hfuel
  unfold isBlank at htaken
  rw [Cursor.skip_add]
  simp [gap, htaken, hbreak, hbreaks, Except.map, Cursor.skip]

theorem gap_reads (h : Gap x y) (hr : c.rest = x ++ r) (hsolid : Text.StartsSolid r) (hne : r ≠ [])
    (hfuel : x.length ≤ fuel) : gap fuel c = .ok (y, c.skip x.length) := by
  cases h with
  | @spaces n hn =>
    have htaken := takeWhile_spaces hr hsolid
    have hnone := lineBreak?_spaces hr hsolid
    have hrest := Cursor.rest_skip_length hr
    rw [Text.length_spaces] at hrest ⊢
    unfold isBlank at htaken
    simp [gap, htaken, hnone, hrest, hne]
  | @fold n hn =>
    have hpos : 0 < fuel := Nat.lt_of_lt_of_le (Nat.succ_pos _) hfuel
    have hgap := gap_break (k := 0) hn hsolid hr hpos
    rw [hgap]
    simp [folded, Nat.add_comm, text]
  | @lines k n hk hn =>
    have hlines : k < fuel := by
      simp only [List.length_cons, List.length_append, List.length_replicate, Text.length_spaces] at hfuel
      omega
    have hgap := gap_break (k := k) hn hsolid (by simpa using hr) hlines
    rw [hgap]
    simp [folded, Nat.add_comm, Nat.ne_of_gt hk]

/-! Bodies -/

theorem startsSolid_of_solid (h : Solid double u t) (hs : u = [] → Text.StartsSolid s) : Text.StartsSolid (u ++ s) := by
  intro d hd
  cases h with
  | nil => exact hs rfl d hd
  | bare hbare _ =>
    obtain rfl := Option.mem_some.mp hd
    cases double with
    | true => exact hbare.1
    | false => exact hbare.1
  | twice _ => obtain rfl := Option.mem_some.mp hd; decide
  | escape p _ =>
    obtain ⟨e, _, _, hescape⟩ | ⟨e, _, w, _, _, hescape⟩ := escapePoint_cases p <;>
    · rw [hescape] at hd
      obtain rfl := Option.mem_some.mp hd
      decide
  | blank _ => obtain rfl := Option.mem_some.mp hd; decide
  | continuation _ _ _ => obtain rfl := Option.mem_some.mp hd; decide

/-- The quote around a text. -/
def mark (double : Bool) : CodePoint :=
  if double then '"' else '\''

/-- Where characters end: at a gap, or at a quote that is not written twice. -/
def Ends (double : Bool) (s : Text) : Prop :=
  (∃ d r, s = d :: r ∧ d.isGap) ∨ ∃ r, s = mark double :: r ∧ r.head? ≠ some ('\'' : CodePoint)

theorem solid_ends (hr : Ends double c.rest) (fuel : Nat) : solid double fuel c = .ok ([], c) := by
  cases fuel with
  | zero => rfl
  | succ fuel =>
    obtain ⟨d, r, hrest, hgap⟩ | ⟨r, hrest, hnext⟩ := hr
    · simp [solid, hrest, hgap]
    · cases double with
      | true => simp [solid, hrest, mark]
      | false => simp [solid, hrest, mark, hnext]

/-- The reader takes characters for what they stand for. -/
theorem solid_reads (h : Solid double u t) (hr : c.rest = u ++ s) (hs : Ends double s) (hfuel : u.length ≤ fuel) :
    solid double fuel c = .ok (t, c.skip u.length) := by
  induction h generalizing c fuel with
  | nil => exact solid_ends (hr ▸ hs) fuel
  | @bare double d u t hd _ ih =>
    obtain ⟨fuel, rfl⟩ := Nat.exists_eq_add_of_le' (Nat.le_trans (Nat.succ_pos _) hfuel)
    have hnext : c.next.rest = u ++ s := by rw [Cursor.rest_next, hr]; rfl
    have hsolid := ih hnext hs (Nat.le_of_succ_le_succ hfuel)
    rw [solid_bare hr hd, hsolid]
    rfl
  | @twice u t _ ih =>
    obtain ⟨fuel, rfl⟩ := Nat.exists_eq_add_of_le' (Nat.le_trans (Nat.succ_pos _) hfuel)
    have hnext : (c.skip 2).rest = u ++ s := by rw [Cursor.rest_skip, hr]; rfl
    have hsolid := ih hnext hs (Nat.le_of_succ_le (Nat.le_of_succ_le_succ hfuel))
    rw [solid_twice hr, hsolid]
    rfl
  | @escape u t p _ ih =>
    have hpos : 0 < (escapePoint p).length := List.length_pos_iff.mpr (escapePoint_ne_nil p)
    rw [List.length_append] at hfuel ⊢
    obtain ⟨fuel, rfl⟩ := Nat.exists_eq_add_of_le' (show 1 ≤ fuel by omega)
    rw [List.append_assoc] at hr
    have hinner : u.length ≤ fuel := by omega
    have hsolid := ih (Cursor.rest_skip_length hr) hs hinner
    rw [solid_escape hr, hsolid, Cursor.skip_add]
    rfl
  | @blank u t _ ih =>
    obtain ⟨fuel, rfl⟩ := Nat.exists_eq_add_of_le' (Nat.le_trans (Nat.succ_pos _) hfuel)
    have hnext : (c.skip 2).rest = u ++ s := by rw [Cursor.rest_skip, hr]; rfl
    have hsolid := ih hnext hs (Nat.le_of_succ_le (Nat.le_of_succ_le_succ hfuel))
    rw [solid_blank hr, hsolid]
    rfl
  | @continuation n u t hn hne hu ih =>
    rw [List.length_cons, List.length_cons, List.length_append, Text.length_spaces] at hfuel ⊢
    obtain ⟨fuel, rfl⟩ := Nat.exists_eq_add_of_le' (show 1 ≤ fuel by omega)
    have hlines : 0 < fuel := by omega
    have hinner : u.length ≤ fuel := by omega
    have hbreak : (c.skip 2).rest = Text.spaces n ++ (u ++ s) := by
      rw [Cursor.rest_skip, hr, ← List.append_assoc]
      rfl
    have hsolid := startsSolid_of_solid hu (fun h => absurd h hne) (s := s)
    have hbreaks := breaks_lines (k := 0) hn hsolid hbreak hlines
    have hbehind := Cursor.rest_skip_length hbreak
    rw [Text.length_spaces] at hbehind
    have hread := ih hbehind hs hinner
    have hrest : c.rest = ('\\' : CodePoint) :: ('\n' : CodePoint) :: (Text.spaces n ++ (u ++ s)) := by
      rw [hr, ← List.append_assoc]
      rfl
    have hcursor : c.skip (n + u.length + 1 + 1) = ((c.skip 2).skip n).skip u.length := by
      rw [← Cursor.skip_add, ← Cursor.skip_add]
      congr 1
      omega
    rw [Nat.zero_add] at hbreaks
    rw [solid_continuation hrest, hbreaks, hcursor]
    simp only [bind, Except.bind, hread]
    rfl

theorem exists_cons_of_gap (h : Gap x y) : ∃ d r, x = d :: r ∧ d.isGap := by
  cases h with
  | @spaces n hn =>
    obtain ⟨n, rfl⟩ := Nat.exists_eq_succ_of_ne_zero (Nat.ne_of_gt hn)
    exact ⟨' ', Text.spaces n, rfl, by decide⟩
  | fold _ => exact ⟨'\n', _, rfl, by decide⟩
  | lines _ _ => exact ⟨'\n', _, rfl, by decide⟩

/-- The reader takes a body for what it stands for, and goes over the quote behind it. -/
theorem close_reads (h : Body double u t) (hr : c.rest = u ++ mark double :: r)
    (hquote : r.head? ≠ some ('\'' : CodePoint)) (hfuel : u.length < fuel) :
    close (mark double) double fuel c = .ok (t, c.skip (u.length + 1)) := by
  have hmark : Text.StartsSolid (mark double :: r) := Text.startsSolid_cons (by cases double <;> decide) r
  induction h generalizing c fuel with
  | @last u t hu =>
    obtain ⟨fuel, rfl⟩ := Nat.exists_eq_add_of_le' (Nat.lt_of_le_of_lt (Nat.zero_le _) hfuel)
    have hends : Ends double (mark double :: r) := .inr ⟨r, rfl, hquote⟩
    have hsolid := solid_reads hu hr hends (Nat.le_of_lt hfuel)
    have hrest := Cursor.rest_skip_length hr
    rw [Cursor.skip_add]
    simp [close, hsolid, bind, Except.bind, Cursor.sees, hrest, Cursor.skip]
    rfl
  | @gap u t g x v y hu hg hv _ ih =>
    obtain ⟨fuel, rfl⟩ := Nat.exists_eq_add_of_le' (Nat.lt_of_le_of_lt (Nat.zero_le _) hfuel)
    obtain ⟨d, z, rfl, hgap⟩ := exists_cons_of_gap hg
    simp only [List.length_append, List.length_cons] at hfuel
    simp only [List.append_assoc] at hr
    have hends : Ends double ((d :: z) ++ (v ++ mark double :: r)) := .inl ⟨d, _, rfl, hgap⟩
    have hspan : u.length ≤ fuel + 1 := by omega
    have hsolid := solid_reads hu hr hends hspan
    have hrest := Cursor.rest_skip_length hr
    have hsees : (c.skip u.length).sees (fun e => e = mark double) = false := by
      have hne : d ≠ mark double := by
        rintro rfl
        exact absurd (hgap.symm.trans (hmark _ rfl)) (by decide)
      simp [Cursor.sees, hrest, hne]
    have hstarts : Text.StartsSolid (v ++ mark double :: r) := by
      cases v with
      | nil => exact hmark
      | cons e v => exact hv
    have hwidth : (d :: z).length ≤ fuel + 1 := by
      rw [List.length_cons]
      omega
    have hread := gap_reads hg hrest hstarts (by simp) hwidth
    have hremains : v.length < fuel := by omega
    have hclose := ih (Cursor.rest_skip_length hrest) hremains
    have hcursor : c.skip ((u ++ ((d :: z) ++ v)).length + 1) =
        ((c.skip u.length).skip (d :: z).length).skip (v.length + 1) := by
      rw [← Cursor.skip_add, ← Cursor.skip_add, List.length_append, List.length_append]
      congr 1
    rw [hcursor]
    simp only [close, hsolid, bind, Except.bind, hsees, hread, hclose, List.append_assoc]
    rfl

/-- A text in quotes is read as what it stands for. -/
theorem read_quoted (h : Body double u t) (hr : c.rest = mark double :: (u ++ mark double :: r))
    (hquote : r.head? ≠ some ('\'' : CodePoint)) : read double c = .ok (t, c.skip (u.length + 2)) := by
  have hnext : c.next.rest = u ++ mark double :: r := by rw [Cursor.rest_next, hr]; rfl
  have hfuel : u.length < c.rest.length + 1 := by
    rw [hr, List.length_cons, List.length_append]
    omega
  exact close_reads h hnext hquote hfuel

end Yaml.Quoted

end AnnotationCodec
