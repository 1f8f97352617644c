import AnnotationCodec.Yaml.Quoted

/-!
Reading block scalars, whose lines stand below a mark and are indented. The mark may tell the indentation and
what becomes of the line breaks at the end.
-/

namespace AnnotationCodec.Yaml.Block

/-- What becomes of the line breaks at the end of the text. -/
inductive Ending
  | strip
  | clip
  | keep
  deriving DecidableEq, Repr

structure Header where
  ending : Ending
  indent : Option Nat
  deriving DecidableEq, Repr

/-- Reads a sign for the ending. -/
def ending? (c : Cursor) : Option (Ending × Cursor) :=
  if c.sees fun d => d = '+' then some (.keep, c.next)
  else if c.sees fun d => d = '-' then some (.strip, c.next)
  else none

/-- Reads a digit for the indentation, which must not be zero. -/
def indent? (c : Cursor) : Except Failure (Option (Nat × Cursor)) :=
  match c.rest with
  | [] => .ok none
  | d :: _ =>
    if !d.isDigit then .ok none
    else if d.digitValue = 0 then noToken
    else .ok (some (d.digitValue, c.next))

/-- Reads the sign and the digit, in any order. -/
def signs (c : Cursor) : Except Failure (Header × Cursor) := do
  match ending? c with
  | some (e, c) =>
    match ← indent? c with
    | some (n, c) => return (⟨e, some n⟩, c)
    | none => return (⟨e, none⟩, c)
  | none =>
    match ← indent? c with
    | some (n, c) =>
      match ending? c with
      | some (e, c) => return (⟨e, some n⟩, c)
      | none => return (⟨.clip, some n⟩, c)
    | none => return (⟨.clip, none⟩, c)

/-- Reads the rest of the line of the mark. -/
def header (c : Cursor) : Except Failure (Header × Cursor) := do
  let (h, c) ← signs c
  if c.endsOrSees fun d => d = ' ' || d.isLineBreak then
    let c ← restOfLine c
    return (h, c)
  else noToken

/-- Goes over empty lines to the first other one, and gives the breaks and the widest indentation. -/
def detect : (fuel : Nat) → (widest : Nat) → Cursor → Text × Nat × Cursor
  | 0, widest, c => ([], widest, c)
  | fuel + 1, widest, c =>
    let (spaces, c) := c.takeWhile fun d => d = ' '
    let widest := if spaces.isEmpty then widest else max widest c.column
    match c.lineBreak? with
    | none => ([], widest, c)
    | some (b, c) =>
      let (bs, widest, c) := detect fuel widest c
      (b :: bs, widest, c)

/-- Goes over at most `indent` spaces of a line. -/
def indentation (indent : Nat) (c : Cursor) : Cursor :=
  c.skip (((c.rest.takeWhile fun (d : CodePoint) => d = ' ').take (indent - c.column)).length)

/-- Goes over empty lines, and gives the breaks. -/
def breaks (indent : Nat) : (fuel : Nat) → Cursor → Text × Cursor
  | 0, c => ([], c)
  | fuel + 1, c =>
    let c := indentation indent c
    match c.lineBreak? with
    | none => ([], c)
    | some (b, c) =>
      let (bs, c) := breaks indent fuel c
      (b :: bs, c)

def startsInner (c : Cursor) : Bool :=
  !c.sees fun d => d = ' ' || d = '\t'

/-- A line break between two lines, the first of which starts a new paragraph unless both are folded. -/
def between (fold : Bool) (lineBreak : Text) (others : Text) : Text :=
  if fold && lineBreak = text "\n" then (if others.isEmpty then text " " else [])
  else lineBreak

/-- The text of the lines, with the break behind the last one and the breaks behind that. -/
structure Lines where
  content : Text
  lineBreak : Text
  breaks : Text
  cursor : Cursor

/-- Reads the lines behind empty ones. -/
def lines (fold : Bool) (indent : Nat) : (fuel : Nat) → (before : Lines) → Lines
  | 0, before => before
  | fuel + 1, before =>
    let c := before.cursor
    if c.column ≠ indent || c.rest.isEmpty then before
    else
      let inner := startsInner c
      let (line, c) := c.takeWhile fun d => !d.isLineBreak
      let content := before.content ++ before.breaks ++ line
      let (lineBreak, c) := match c.lineBreak? with
        | some (b, c) => ([b], c)
        | none => ([], c)
      let (bs, c) := breaks indent (c.rest.length + 1) c
      if c.column = indent && !c.rest.isEmpty then
        let joint := between (fold && inner && startsInner c) lineBreak bs
        lines fold indent fuel ⟨content ++ joint, lineBreak, bs, c⟩
      else ⟨content, lineBreak, bs, c⟩

/-- Reads a block scalar at its mark, inside of a block that is indented by less than `least`. -/
def read (fold : Bool) (least : Nat) (c : Cursor) : Except Failure (Text × Cursor) := do
  let (h, c) ← header c.next
  let (bs, indent, c) : Text × Nat × Cursor :=
    match h.indent with
    | none =>
      let (bs, widest, c) := detect (c.rest.length + 1) 0 c
      (bs, max least widest, c)
    | some n =>
      let indent := least + n - 1
      let (bs, c) := breaks indent (c.rest.length + 1) c
      (bs, indent, c)
  let l := lines fold indent (c.rest.length + 1) ⟨[], [], bs, c⟩
  let tail := match h.ending with
    | .strip => []
    | .clip => l.lineBreak
    | .keep => l.lineBreak ++ l.breaks
  return (l.content ++ tail, l.cursor)

end AnnotationCodec.Yaml.Block
