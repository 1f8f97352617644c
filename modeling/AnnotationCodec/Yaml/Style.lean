import AnnotationCodec.Yaml.Character

/-!
The written forms of a scalar: plain, in single quotes, in double quotes, or as a block of lines. A form
serves a text only if reading it gives the text back. Lines are folded where they grow past 80 columns.
-/

namespace AnnotationCodec.Yaml

inductive Style
  | plain
  | single
  | double
  | literal
  deriving DecidableEq, Repr

/-- Lines are folded behind this column. -/
def lineWidth : Nat :=
  80

/-! What a text contains -/

section

variable (t : Text)

/-- Whether two neighbours satisfy `p`. -/
def anyPair (p : CodePoint → CodePoint → Bool) : Text → Bool
  | a :: b :: r => p a b || anyPair p (b :: r)
  | _ => false

/-- The line breaks that written texts keep. -/
def isKeptBreak (c : CodePoint) : Bool :=
  c.isLineBreak && c ≠ '\r'

def isMultiline : Bool :=
  t.any isKeptBreak

/-- What must be escaped in every form but double quotes. -/
def isSpecial (unicode : Bool) (c : CodePoint) : Bool :=
  !(c = '\n' || (0x20 ≤ c.val && c.val ≤ 0x7E)) &&
    !(unicode && c.val ≠ 0xFEFF &&
      (c.val = 0x85 || (0xA0 ≤ c.val && c.val ≤ 0xD7FF) || (0xE000 ≤ c.val && c.val ≤ 0xFFFD)
        || 0x10000 ≤ c.val))

/-- A space or a break at one of the ends. -/
def hasLooseEnd : Bool :=
  let loose (c : Option CodePoint) : Bool := c.any fun (c : CodePoint) => c = ' ' || isKeptBreak c
  loose t.head? || loose t.getLast?

/-- A space in front of a break. -/
def hasSpaceBreak : Bool :=
  anyPair (fun a b => a = ' ' && isKeptBreak b) t

/-- A space after a break. -/
def hasBreakSpace : Bool :=
  anyPair (fun a b => isKeptBreak a && b = ' ') t

/-- What the start of a plain scalar would be taken for. -/
def startsWithIndicator : Text → Bool
  | [] => false
  | c :: r =>
    c.isIn "#,[]\x7b\x7d&*!|>'\"%@\x60" || ((c = '?' || c = ':' || c = '-') && Text.startsWithGap r) ||
      List.isPrefixOf (text "---") (c :: r) || List.isPrefixOf (text "...") (c :: r)

/-- What would end a plain scalar: a colon before a gap, or a comment. -/
def hasInnerIndicator : Bool :=
  anyPair (fun a b => (a = ':' && b.isGap) || (a.isGap && b = '#')) t || t.getLast? = some (':' : CodePoint)

def allowsPlain (unicode : Bool) : Bool :=
  !(isMultiline t || hasLooseEnd t || startsWithIndicator t || hasInnerIndicator t ||
    t.any (isSpecial unicode))

def allowsSingle (unicode : Bool) : Bool :=
  !(hasSpaceBreak t || hasBreakSpace t || t.any (isSpecial unicode))

def allowsLiteral (unicode : Bool) : Bool :=
  !(t.isEmpty || hasSpaceBreak t || t.getLast? = some (' ' : CodePoint) || t.any (isSpecial unicode))

end

/-! Writing a text -/

/-- Where a text is written: the column it starts at, the indentation of the lines that follow, and whether
it may be folded. In a `tight` margin no word crosses the width if it can stand on a line of its own. -/
structure Margin where
  column : Nat
  indent : Nat
  folds : Bool
  tight : Bool

/-- Starts a new line at the indentation. -/
def Margin.newLine (m : Margin) : Text :=
  text "\n" ++ Text.spaces m.indent

/-- Whether the space before `after` stands alone between two words. -/
def isLoneSpace (before : Option CodePoint) (after : Text) : Bool :=
  before.any (fun (c : CodePoint) => c ≠ ' ') && after.head?.any fun (c : CodePoint) => c ≠ ' '

/-- Whether a line is folded at a space in a given column. -/
def foldsAt (m : Margin) (column : Nat) (before : Option CodePoint) (after : Text) : Bool :=
  m.folds && lineWidth < column && isLoneSpace before after

/-- Whether a plain scalar is folded at a space in a given column; in a tight margin the space counts. -/
def foldsPlainAt (m : Margin) (column : Nat) (before : Option CodePoint) (after : Text) : Bool :=
  foldsAt m (if m.tight then column + 1 else column) before after

/-- Whether a word that starts in a given column goes to a new line. A space in front of it stays where it is. -/
def movesWord (m : Margin) (column : Nat) (word : Text) : Bool :=
  m.tight && m.indent < column && lineWidth < column + word.length

/-- The text of a plain scalar from a column on. -/
def writePlainFrom (m : Margin) : (column : Nat) → (before : Option CodePoint) → Text → Text
  | _, _, [] => []
  | column, before, c :: r =>
    if c = ' ' then
      if foldsPlainAt m column before r then m.newLine ++ writePlainFrom m m.indent (some c) r
      else c :: writePlainFrom m (column + 1) (some c) r
    else if before.all (fun (b : CodePoint) => b = ' ') &&
        movesWord m column ((c :: r).takeWhile fun (d : CodePoint) => d ≠ ' ') then
      m.newLine ++ c :: writePlainFrom m (m.indent + 1) (some c) r
    else c :: writePlainFrom m (column + 1) (some c) r

def writePlain (m : Margin) (t : Text) : Text :=
  writePlainFrom m m.column none t

/-- The content of single quotes. A run of breaks that starts with a line feed is written with one more. -/
def writeSingleFrom (m : Margin) : (column : Nat) → (before : Option CodePoint) → Text → Text
  | _, _, [] => []
  | column, before, c :: r =>
    if isKeptBreak c then
      (if c = '\n' && !before.any isKeptBreak then text "\n" else []) ++
        c :: (if r.head?.any isKeptBreak then [] else Text.spaces m.indent) ++
        writeSingleFrom m m.indent (some c) r
    else if c = '\'' then text "''" ++ writeSingleFrom m (column + 2) (some c) r
    else if c = ' ' && foldsAt m column before r then
      m.newLine ++ writeSingleFrom m m.indent (some c) r
    else c :: writeSingleFrom m (column + 1) (some c) r

def writeSingle (m : Margin) (t : Text) : Text :=
  text "'" ++ writeSingleFrom m (m.column + 1) none t ++ text "'"

/-- The letters of short escapes. -/
def shortEscapes : List (Nat × Char) :=
  [(0x00, '0'), (0x07, 'a'), (0x08, 'b'), (0x09, 't'), (0x0A, 'n'), (0x0B, 'v'), (0x0C, 'f'),
    (0x0D, 'r'), (0x1B, 'e'), (0x22, '"'), (0x5C, '\\'), (0x85, 'N'), (0xA0, '_'), (0x2028, 'L'),
    (0x2029, 'P')]

def escapePoint (c : CodePoint) : Text :=
  match shortEscapes.find? fun e => e.1 = c.val with
  | some e => ['\\', e.2]
  | none =>
    if c.val ≤ 0xFF then text "\\x" ++ Text.hex true 2 c.val
    else if c.val ≤ 0xFFFF then text "\\u" ++ Text.hex true 4 c.val
    else text "\\U" ++ Text.hex true 8 c.val

/-- What double quotes hold without an escape. -/
def isQuotable (unicode : Bool) (c : CodePoint) : Bool :=
  c ≠ '"' && c ≠ '\\' &&
    ((0x20 ≤ c.val && c.val ≤ 0x7E) ||
      (unicode && c.val ≠ 0x2028 && c.val ≠ 0x2029 && c.val ≠ 0xFEFF &&
        ((0xA0 ≤ c.val && c.val ≤ 0xD7FF) || (0xE000 ≤ c.val && c.val ≤ 0xFFFD) || 0x10000 ≤ c.val)))

/-- Whether a line that is broken inside double quotes ends with a mark. In a tight margin the line break itself
stands for what was there: there is a further space, up to which nothing is quoted, and no space or line feed is
next to the break. The text goes on with `here`, behind `before`. -/
def marksBreak (m : Margin) (before : Option CodePoint) (here : Text) : Bool :=
  let word := here.takeWhile fun (c : CodePoint) => c ≠ ' '
  !m.tight || word.length = here.length || List.contains word '"' || List.contains word '\'' ||
    here.tail.head? = some (' ' : CodePoint) || before = some ('\n' : CodePoint)

/-- Breaks a line inside double quotes in front of a character. With a mark, a space at the start of the next line
is marked too; without one, the line break stands for a space. -/
def breakQuoted (m : Margin) (marks : Bool) (next : Option CodePoint) : Text × Nat :=
  if !marks then (m.newLine, m.indent)
  else if next = some (' ' : CodePoint) then (text "\\" ++ m.newLine ++ text "\\", m.indent + 1)
  else (text "\\" ++ m.newLine, m.indent)

/-- The content of double quotes behind `before`. `run` holds after a character that needed no escape; a line is
broken only before a space or next to an escape, and never behind the last character but one. -/
def writeDoubleFrom (m : Margin) (unicode : Bool) :
    (column : Nat) → (before : Option CodePoint) → (run : Bool) → Text → Text
  | _, _, _, [] => []
  | column, before, run, c :: r =>
    let mayBreak := m.folds && before.isSome && !r.isEmpty
    if isQuotable unicode c then
      if mayBreak && (c = ' ' || !run) && lineWidth < column then
        let marks := marksBreak m (if run then none else before) (c :: r)
        let (broken, start) := breakQuoted m marks (some c)
        if !marks && c = ' ' then broken ++ writeDoubleFrom m unicode start (some c) false r
        else broken ++ c :: writeDoubleFrom m unicode (start + 1) (some c) true r
      else c :: writeDoubleFrom m unicode (column + 1) (some c) true r
    else
      let escaped := escapePoint c
      let column := column + escaped.length
      if mayBreak && lineWidth + 1 < column then
        let (broken, start) := breakQuoted m (marksBreak m (some c) (c :: r)) r.head?
        escaped ++ broken ++ writeDoubleFrom m unicode start (some c) false r
      else escaped ++ writeDoubleFrom m unicode column (some c) false r

def writeDouble (m : Margin) (unicode : Bool) (t : Text) : Text :=
  text "\"" ++ writeDoubleFrom m unicode (m.column + 1) none true t ++ text "\""

/-- The lines of a text that ends with a break, each on a line of its own below the mark. -/
def writeLiteral (m : Margin) (t : Text) : Text :=
  text "|" ++ (Text.splitAt '\n' t).dropLast.flatMap fun line =>
    if line.isEmpty then text "\n" else m.newLine ++ line

def writeStyled (style : Style) (m : Margin) (unicode : Bool) (t : Text) : Text :=
  match style with
  | .plain => writePlain m t
  | .single => writeSingle m t
  | .double => writeDouble m unicode t
  | .literal => writeLiteral m t

end AnnotationCodec.Yaml
