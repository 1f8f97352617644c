import AnnotationCodec.Yaml.Style
import AnnotationCodec.Yaml.Tree

/-!
Trees as block text. Every node is written from a place on a line on, so that `writeNode` gives what is put
behind the text that is there already, without a line break at the end.
-/

namespace AnnotationCodec.Yaml

/-- The place where a node starts. -/
structure Opening where
  column : Nat
  /-- Whether the first entry of a collection may stand on the same line. -/
  compact : Bool
  /-- Whether a space has to come first. -/
  spaced : Bool

namespace Opening

/-- Behind the mark of an item or of a long key. -/
def behindMark (indent : Nat) : Opening :=
  ⟨indent + 1, true, true⟩

/-- The space in front of the node, if there has to be one. -/
def space (o : Opening) : Text :=
  if o.spaced then text " " else []

/-- The entries of a collection, one below the other. -/
def block (o : Opening) (indent : Nat) (tag : Text) (entries : List Text) : Text :=
  let line := text "\n" ++ Text.spaces indent
  let lead :=
    if !tag.isEmpty then o.space ++ tag ++ line
    else if o.compact then Text.spaces (indent - o.column)
    else line
  lead ++ Text.joinWith line entries

end Opening

/-- A key on the line of its value is shorter than this, its tag included. -/
def keyLimit : Nat :=
  128

namespace Tree

/-- Whether a key can stand on the line of its value. -/
def isShortKey (d : Dialect) : Tree → Bool
  | .scalar tag t _ =>
    (d.allowsEmpty || !t.isEmpty) && !isMultiline t && tag.shorthand.length + t.length < keyLimit
  | .sequence items => items.isEmpty
  | .mapping _ entries => entries.isEmpty

end Tree

/-- The column that is reached by writing a text from a column on. -/
def endColumn (column : Nat) (t : Text) : Nat :=
  let last := t.reverse.takeWhile fun (c : CodePoint) => c ≠ '\n'
  if last.length = t.length then column + t.length else last.length

section

variable (d : Dialect)

/-- The style of a scalar. -/
def chooseStyle (isKey : Bool) (tag : Tag) (t : Text) (lines : Bool) : Style :=
  let multiline := isMultiline t
  if !lines && d.plainTag t = tag && !(isKey && (t.isEmpty || multiline)) && allowsPlain t d.unicode then
    .plain
  else if lines && !isKey && (allowsLiteral t d.unicode || (d.allowsEmpty && t.isEmpty)) then .literal
  else if !lines && d.prefersDouble && (List.contains t '\'' || List.contains t '\n') then .double
  else if !lines && allowsSingle t d.unicode && !(isKey && multiline) then .single
  else .double

/-- A scalar, with its tag if the text in its style does not imply it. -/
def writeScalar (isKey : Bool) (o : Opening) (indent : Nat) (tag : Tag) (t : Text) (lines : Bool) : Text :=
  let style := chooseStyle d isKey tag t lines
  let implied := if style = .plain then d.plainTag t = tag else tag = .str
  let lead := o.space ++ (if implied then [] else tag.shorthand ++ text " ")
  lead ++ writeStyled style ⟨o.column + lead.length, indent, !isKey, d.tight⟩ d.unicode t

/-- A node inside of a collection at `parent`, or the root. -/
def writeNode (parent : Option Nat) (inMapping : Bool) (o : Opening) : Tree → Text
  | .scalar tag t lines =>
    writeScalar d false o ((parent.map (· + 2)).getD 2) tag t lines
  | .sequence [] => o.space ++ text "[]"
  | .sequence (x :: xs) =>
    let indent := match parent with
      | none => 0
      | some i => if inMapping && !o.compact then i else i + 2
    o.block indent [] (items indent (x :: xs))
  | .mapping tag entries =>
    let mark := if tag = .map then [] else tag.shorthand
    match entries with
    | [] => o.space ++ (if mark.isEmpty then [] else mark ++ text " ") ++ text "\x7b\x7d"
    | e :: es =>
      let indent := (parent.map (· + 2)).getD 0
      o.block indent mark (pairs indent (e :: es))
where
  items (indent : Nat) : List Tree → List Text
    | [] => []
    | x :: xs => (text "-" ++ writeNode (some indent) false (.behindMark indent) x) :: items indent xs
  pairs (indent : Nat) : List (Tree × Tree) → List Text
    | [] => []
    | (k, v) :: es =>
      let entry :=
        if k.isShortKey d then
          let key := shortKey indent k
          key ++ text ":" ++ writeNode (some indent) true ⟨endColumn indent key + 1, false, true⟩ v
        else
          text "?" ++ writeNode (some indent) true (.behindMark indent) k ++ text "\n" ++
            Text.spaces indent ++ text ":" ++ writeNode (some indent) true (.behindMark indent) v
      entry :: pairs indent es
  /-- A key on the line of its value. -/
  shortKey (indent : Nat) : Tree → Text
    | .scalar tag t lines => writeScalar d true ⟨indent, true, false⟩ (indent + 2) tag t lines
    | .sequence _ => text "[]"
    | .mapping tag _ => (if tag = .map then [] else tag.shorthand ++ text " ") ++ text "\x7b\x7d"

/-- Whether a document is one plain scalar. Its end has to be marked at the end of the stream. -/
def isOpenEnded : Tree → Bool
  | .scalar tag t lines => chooseStyle d false tag t lines = .plain
  | _ => false

/-- A document; all but the first start with a mark. -/
def writeDocument (first : Bool) (t : Tree) : Text :=
  if first then writeNode d none false ⟨0, true, false⟩ t ++ text "\n"
  else text "---" ++ writeNode d none false ⟨3, false, true⟩ t ++ text "\n"

/-- What has been written of a stream, and why it was not written to its end. -/
structure Written where
  text : Text
  result : Except Failure Unit

/-- Writes trees behind what is written already. Each document is written as soon as it is known. -/
def writeFrom (first : Bool) (isOpen : Bool) : List (Except Failure Tree) → Written
  | [] => ⟨if isOpen then text "...\n" else [], .ok ()⟩
  | .error f :: _ => ⟨[], .error f⟩
  | .ok t :: ts =>
    let rest := writeFrom false (isOpenEnded d t) ts
    ⟨writeDocument d first t ++ rest.text, rest.result⟩

/-- Writes trees as a stream of documents. -/
def writeTrees (ts : List (Except Failure Tree)) : Written :=
  writeFrom d true false ts

/-- Writes values as a stream of documents. -/
def writeAll (vs : List Value) : Written :=
  writeTrees d (vs.map (Tree.ofValue d))

/-- The text of a stream, if all of it can be written. -/
def Written.whole (w : Written) : Except Failure Text :=
  w.result.map fun () => w.text

def write (vs : List Value) : Except Failure Text :=
  (writeAll d vs).whole

end

end AnnotationCodec.Yaml
