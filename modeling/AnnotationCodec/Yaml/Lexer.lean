import AnnotationCodec.Yaml.Block
import AnnotationCodec.Yaml.Plain
import AnnotationCodec.Yaml.Quoted
import AnnotationCodec.Yaml.TagName

/-!
The tokens of a text. Whether a node is a key shows only at the colon behind it; until then the node is a
candidate, and no token from it on is final. A candidate must be followed by its colon on the same line and
within 1024 characters.
-/

namespace AnnotationCodec.Yaml

/-- A node that may turn out to be a key. -/
structure Candidate where
  /-- The number of its first token. -/
  number : Nat
  /-- Whether it can be nothing but a key. -/
  required : Bool
  index : Nat
  line : Nat
  column : Nat

structure Lexer where
  cursor : Cursor
  /-- The tokens so far, the last one first. -/
  tokens : List Token
  count : Nat
  /-- The columns of the open blocks, the innermost first. -/
  indents : List Nat
  /-- The number of open brackets. -/
  depth : Nat
  allowsKey : Bool
  /-- At most one candidate for each number of open brackets. -/
  candidates : List (Nat × Candidate)
  done : Bool

namespace Lexer

/-- A candidate spans no more characters. -/
def keySpan : Nat :=
  1024

def start (t : Text) : Lexer :=
  ⟨.start t, [], 0, [], 0, true, [], false⟩

variable (l : Lexer)

def push (t : Token) : Lexer :=
  { l with tokens := t :: l.tokens, count := l.count + 1 }

def inFlow : Bool :=
  l.depth ≠ 0

/-- The column that the lines of a scalar in the innermost block have to reach. -/
def innerColumn : Nat :=
  match l.indents with
  | [] => 0
  | i :: _ => i + 1

/-- Puts a token and goes on by a number of characters. -/
def pushOver (width : Nat) (t : Token) : Lexer :=
  { l with cursor := l.cursor.skip width }.push t

/-! Blocks -/

/-- Ends the blocks that `keeps` does not keep. -/
def closeBlocks (keeps : Nat → Bool) : Lexer :=
  let closed := l.indents.takeWhile fun i => !keeps i
  closed.foldl (fun l _ => { l.push .blockEnd with indents := l.indents.drop 1 }) l

/-- Ends the blocks that are indented by more than `column`. -/
def closeTo (column : Nat) : Lexer :=
  if l.inFlow then l else l.closeBlocks fun i => i ≤ column

def closeAll : Lexer :=
  if l.inFlow then l else l.closeBlocks fun _ => false

/-- Whether a column starts a block inside of the innermost one. -/
def opensAt (column : Nat) : Bool :=
  l.indents.head?.all (· < column)

/-- Starts a block at the cursor, if there is none. -/
def openBlock (t : Token) : Lexer :=
  let column := l.cursor.column
  if l.opensAt column then { l.push t with indents := column :: l.indents } else l

/-! Candidates -/

/-- A candidate that can become a key no longer. -/
def isStale (c : Candidate) : Bool :=
  c.line ≠ l.cursor.line || keySpan < l.cursor.index - c.index

def dropStale : Except Failure Lexer :=
  if l.candidates.any fun c => l.isStale c.2 && c.2.required then noToken
  else .ok { l with candidates := l.candidates.filter fun c => !l.isStale c.2 }

def candidate? : Option Candidate :=
  (l.candidates.find? fun c => c.1 = l.depth).map Prod.snd

def withoutCandidate : Lexer :=
  { l with candidates := l.candidates.filter fun c => c.1 ≠ l.depth }

/-- Gives up the candidate at the present depth. -/
def dropCandidate : Except Failure Lexer :=
  match l.candidate? with
  | some c => if c.required then noToken else .ok l.withoutCandidate
  | none => .ok l

/-- The next token may start a key. -/
def addCandidate : Except Failure Lexer :=
  if !l.allowsKey then .ok l
  else do
    let l ← l.dropCandidate
    let c := l.cursor
    let required := !l.inFlow && l.indents.head? = some c.column
    return { l with candidates := l.candidates ++ [(l.depth, ⟨l.count, required, c.index, c.line, c.column⟩)] }

/-- The number of tokens that are final. -/
def finalCount : Nat :=
  l.candidates.foldl (fun n c => min n c.2.number) l.count

/-- Puts tokens in front of token `number`. -/
def insertAt (number : Nat) (ts : List Token) : Lexer :=
  let behind := l.count - number
  { l with tokens := l.tokens.take behind ++ ts.reverse ++ l.tokens.drop behind, count := l.count + ts.length }

/-! Tokens -/

/-- Goes to the next token. A line break outside of brackets allows a key. -/
def skipGaps : (fuel : Nat) → Lexer → Lexer
  | 0, l => l
  | fuel + 1, l =>
    let c := l.cursor.skipSpaces
    let c := if c.sees fun d => d = '#' then c.skipLine else c
    match c.lineBreak? with
    | none => { l with cursor := c }
    | some (_, c) => skipGaps fuel { l with cursor := c, allowsKey := l.allowsKey || !l.inFlow }

def streamEnd : Except Failure Lexer := do
  let l ← l.closeAll.dropCandidate
  return { l.push .streamEnd with allowsKey := false, candidates := [], done := true }

def directive : Except Failure Lexer := do
  let l ← l.closeAll.dropCandidate
  let (d, c) ← Directive.read l.cursor
  return { l with cursor := c, allowsKey := false }.push (.directive d)

/-- A mark between documents. -/
def documentMark (t : Token) : Except Failure Lexer := do
  let l ← l.closeAll.dropCandidate
  return { l with allowsKey := false }.pushOver 3 t

def openBracket (t : Token) : Except Failure Lexer := do
  let l ← l.addCandidate
  return { l with depth := l.depth + 1, allowsKey := true }.pushOver 1 t

def closeBracket (t : Token) : Except Failure Lexer := do
  let l ← l.dropCandidate
  return { l with depth := l.depth - 1, allowsKey := false }.pushOver 1 t

def flowEntry : Except Failure Lexer := do
  let l ← l.dropCandidate
  return { l with allowsKey := true }.pushOver 1 .flowEntry

/-- The block that a mark belongs to, which starts here unless it is open. -/
def markBlock (t : Token) : Except Failure Lexer :=
  if l.inFlow then .ok l
  else if l.allowsKey then .ok (l.openBlock t)
  else noToken

def blockEntry : Except Failure Lexer := do
  let l ← l.markBlock .blockSequenceStart
  let l ← { l with allowsKey := true }.dropCandidate
  return l.pushOver 1 .blockEntry

/-- The mark of a key that is not a candidate. -/
def keyMark : Except Failure Lexer := do
  let l ← l.markBlock .blockMappingStart
  let l ← { l with allowsKey := !l.inFlow }.dropCandidate
  return l.pushOver 1 .key

/-- A colon makes the candidate a key. Without a candidate it belongs to a key that was marked. -/
def valueMark : Except Failure Lexer :=
  match l.candidate? with
  | some c =>
    let l := l.withoutCandidate
    let opens := !l.inFlow && l.opensAt c.column
    let l := l.insertAt c.number (if opens then [.blockMappingStart, .key] else [.key])
    let l := { l with indents := if opens then c.column :: l.indents else l.indents, allowsKey := false }
    .ok (l.pushOver 1 .value)
  | none => do
    let l ← l.markBlock .blockMappingStart
    let l ← { l with allowsKey := !l.inFlow }.dropCandidate
    return l.pushOver 1 .value

/-- A token that may be, or start, a key. -/
def keyPart (read : Cursor → Except Failure (Token × Cursor)) : Except Failure Lexer := do
  let l ← l.addCandidate
  let (t, c) ← read l.cursor
  return { l with cursor := c, allowsKey := false }.push t

def aliasMark : Except Failure Lexer :=
  l.keyPart fun c => (anchorName c).map fun (name, c) => (.alias name, c)

def anchorMark : Except Failure Lexer :=
  l.keyPart fun c => (anchorName c).map fun (name, c) => (.anchor name, c)

def tagMark : Except Failure Lexer :=
  l.keyPart fun c => (TagName.read c).map fun (name, c) => (.tag name, c)

def quoted (double : Bool) : Except Failure Lexer :=
  l.keyPart fun c => (Quoted.read double c).map fun (t, c) => (.scalar t false, c)

def block (fold : Bool) : Except Failure Lexer := do
  let l ← { l with allowsKey := true }.dropCandidate
  let (t, c) ← Block.read fold (max 1 l.innerColumn) l.cursor
  return { l with cursor := c }.push (.scalar t false)

/-- A key may follow a plain scalar that ends on another line. -/
def plain : Except Failure Lexer := do
  let l ← l.addCandidate
  let (t, after) := Plain.read l.inFlow l.innerColumn l.cursor
  return { l with cursor := after.cursor, allowsKey := after.broken }.push (.scalar t true)

/-- Whether a plain scalar can start with `c` in front of `r`. -/
def startsPlain (flow : Bool) (c : CodePoint) (r : Text) : Bool :=
  !(c.isGap || c.isIn "-?:,[]\x7b\x7d#&*!|>'\"%@\x60") ||
    (!Text.startsWithGap r && (c = '-' || (!flow && (c = '?' || c = ':'))))

/-- Reads the next token. -/
def token (l : Lexer) : Except Failure Lexer :=
  match l.cursor.rest with
  | [] => l.streamEnd
  | c :: r =>
    let atStart := l.cursor.column = 0
    let gap := Text.startsWithGap r
    if c = '%' && atStart then l.directive
    else if atStart && l.cursor.seesMark (text "---") then l.documentMark .documentStart
    else if atStart && l.cursor.seesMark (text "...") then l.documentMark .documentEnd
    else if c = '[' then l.openBracket .flowSequenceStart
    else if c = '\x7b' then l.openBracket .flowMappingStart
    else if c = ']' then l.closeBracket .flowSequenceEnd
    else if c = '\x7d' then l.closeBracket .flowMappingEnd
    else if c = ',' then l.flowEntry
    else if c = '-' && gap then l.blockEntry
    else if c = '?' && (l.inFlow || gap) then l.keyMark
    else if c = ':' && (l.inFlow || gap) then l.valueMark
    else if c = '*' then l.aliasMark
    else if c = '&' then l.anchorMark
    else if c = '!' then l.tagMark
    else if c = '|' && !l.inFlow then l.block false
    else if c = '>' && !l.inFlow then l.block true
    else if c = '\'' then l.quoted false
    else if c = '"' then l.quoted true
    else if startsPlain l.inFlow c r then l.plain
    else noToken

/-- Goes to the next token and reads it. -/
def step (l : Lexer) : Except Failure Lexer := do
  let l := l.skipGaps (l.cursor.rest.length + 1)
  let l ← l.dropStale
  let l ← (l.closeTo l.cursor.column).token
  if l.done then return l else l.dropStale

/-- The tokens up to the end of the text, or up to the place where no token can be read. -/
def run : (fuel : Nat) → Lexer → List Token
  | 0, l => (l.tokens.reverse.take l.finalCount) ++ [.invalid .tooDeep]
  | fuel + 1, l =>
    match l.step with
    | .error f => (l.tokens.reverse.take l.finalCount) ++ [.invalid f]
    | .ok next => if next.done then next.tokens.reverse else run fuel next

end Lexer

/-- The tokens of a text. A byte order mark at its start is skipped. -/
def Token.ofText (t : Text) : List Token :=
  let l := Lexer.start t
  let l := if t.head? = some ('\uFEFF' : CodePoint) then { l with cursor := l.cursor.next } else l
  l.run (t.length + 1)

end AnnotationCodec.Yaml
