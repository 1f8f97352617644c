import AnnotationCodec.Yaml.Cursor

/-!
Reading plain scalars. A plain scalar goes on over spaces and line breaks, as long as the lines are indented
and neither a comment nor a colon follows.
-/

namespace AnnotationCodec.Yaml.Plain

/-- What ends a word inside of brackets, and may follow a colon there. -/
def isFlowMark (c : CodePoint) : Bool :=
  c.isIn ",[]\x7b\x7d"

/-- The length of the word that a text starts with. -/
def wordLength (flow : Bool) : Text → Nat
  | [] => 0
  | c :: r =>
    if c.isGap then 0
    else if c = ':' && (Text.startsWithGap r || (flow && r.head?.any isFlowMark)) then 0
    else if flow && (isFlowMark c || c = '?') then 0
    else wordLength flow r + 1

/-- Goes over empty lines and indentation, and gives the line breaks; `none` at a mark between documents. -/
def breaks : (fuel : Nat) → Cursor → Option Text × Cursor
  | 0, c => (some [], c)
  | fuel + 1, c =>
    let c := c.skipSpaces
    match c.lineBreak? with
    | none => (some [], c)
    | some (b, c) =>
      if c.seesSeparator then (none, c)
      else
        let (bs, c) := breaks fuel c
        (bs.map (b :: ·), c)

/-- What stands between two words. -/
structure Gap where
  content : Text
  cursor : Cursor
  /-- Whether there was a line break. -/
  broken : Bool

/-- Reads the gap behind a word. -/
def gap (c : Cursor) : Gap :=
  let (spaces, c) := c.takeWhile fun d => d = ' '
  match c.lineBreak? with
  | none => ⟨spaces, c, false⟩
  | some (b, c) =>
    if c.seesSeparator then ⟨[], c, true⟩
    else
      match breaks (c.rest.length + 1) c with
      | (none, c) => ⟨[], c, true⟩
      | (some bs, c) =>
        let content :=
          if b ≠ '\n' then b :: bs
          else if bs.isEmpty then text " "
          else bs
        ⟨content, c, true⟩

/-- Reads words and the gaps between them; `broken` tells whether the last gap held a line break. -/
def words (flow : Bool) (indent : Nat) : (fuel : Nat) → (before : Gap) → Text × Gap
  | 0, before => ([], before)
  | fuel + 1, before =>
    let c := before.cursor
    let n := if c.sees (fun d => d = '#') then 0 else wordLength flow c.rest
    if n = 0 then ([], before)
    else
      let word := before.content ++ c.rest.take n
      let after := gap (c.skip n)
      if after.content.isEmpty || after.cursor.sees (fun d => d = '#') ||
          (!flow && after.cursor.column < indent) then (word, after)
      else
        let (rest, last) := words flow indent fuel after
        (word ++ rest, last)

/-- Reads a plain scalar whose lines are indented by `indent` at least. -/
def read (flow : Bool) (indent : Nat) (c : Cursor) : Text × Gap :=
  words flow indent (c.rest.length + 1) ⟨[], c, false⟩

end AnnotationCodec.Yaml.Plain
