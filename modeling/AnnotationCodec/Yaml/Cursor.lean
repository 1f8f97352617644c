import AnnotationCodec.Failure
import AnnotationCodec.Yaml.Character

/-!
A cursor stands in a document. It knows what is left and where it is, because indentation gives documents
their structure.
-/

namespace AnnotationCodec.Yaml

structure Cursor where
  rest : Text
  index : Nat
  line : Nat
  column : Nat

namespace Cursor

def start (t : Text) : Cursor :=
  ⟨t, 0, 0, 0⟩

variable (c : Cursor)

/-- Whether the next character satisfies `p`. -/
def sees (p : CodePoint → Bool) : Bool :=
  c.rest.head?.any p

/-- Whether the document ends here or goes on with a character that satisfies `p`. -/
def endsOrSees (p : CodePoint → Bool) : Bool :=
  c.rest.head?.all p

/-- Goes on by one character. A byte order mark has no width. -/
def next : Cursor :=
  match c.rest with
  | [] => c
  | d :: r =>
    let endsLine := d.isLineBreak && !(d = '\r' && r.head? = some ('\n' : CodePoint))
    if endsLine then ⟨r, c.index + 1, c.line + 1, 0⟩
    else ⟨r, c.index + 1, c.line, if d.val = 0xFEFF then c.column else c.column + 1⟩

/-- Goes on by a number of characters. -/
def skip : Nat → Cursor → Cursor
  | 0, c => c
  | n + 1, c => skip n c.next

/-- Goes on over the characters that satisfy `p`, and gives them. -/
def takeWhile (p : CodePoint → Bool) : Text × Cursor :=
  let taken := c.rest.takeWhile p
  (taken, skip taken.length c)

def skipWhile (p : CodePoint → Bool) : Cursor :=
  (c.takeWhile p).2

def skipSpaces : Cursor :=
  c.skipWhile fun d => d = ' '

/-- Goes on to the end of the line. -/
def skipLine : Cursor :=
  c.skipWhile fun d => !d.isLineBreak

/-- Goes on over a line break, if there is one. All but the line and paragraph separators count as line
feeds. -/
def lineBreak? : Option (CodePoint × Cursor) :=
  match c.rest with
  | [] => none
  | d :: r =>
    if !d.isLineBreak then none
    else if d = '\r' && r.head? = some ('\n' : CodePoint) then some ('\n', c.next.next)
    else if d.val = 0x2028 || d.val = 0x2029 then some (d, c.next)
    else some ('\n', c.next)

/-- Whether three given characters stand here, with a gap behind them. -/
def seesMark (mark : Text) : Bool :=
  mark.isPrefixOf c.rest && Text.startsWithGap (c.rest.drop mark.length)

/-- Whether a mark between documents stands here. -/
def seesSeparator : Bool :=
  c.seesMark (text "---") || c.seesMark (text "...")

end Cursor

/-- The text holds no token here. -/
def noToken {α : Type} : Except Failure α :=
  .error (.document .token)

/-- Goes over spaces and a comment to the next line; nothing else may stand there. -/
def restOfLine (c : Cursor) : Except Failure Cursor :=
  let c := c.skipSpaces
  let c := if c.sees fun d => d = '#' then c.skipLine else c
  match c.lineBreak? with
  | some (_, c) => .ok c
  | none => if c.rest.isEmpty then .ok c else noToken

end AnnotationCodec.Yaml
