import AnnotationCodec.Text.Utf8
import AnnotationCodec.Yaml.Quoted
import AnnotationCodec.Yaml.Token

/-!
Reading the names in documents: anchors, tags, and the directives that introduce handles for tags.
-/

namespace AnnotationCodec.Yaml

namespace TagName

/-- What the end of a tag consists of, percent signs apart. -/
def isUriChar (c : CodePoint) : Bool :=
  c.isDigit || c.isAsciiLetter || c.isIn "-;/?:@&=+$,_.!~*'()[]"

/-- Reads escaped bytes, as many as there are. -/
def escapedBytes : (fuel : Nat) → Cursor → Except Failure (List UInt8 × Cursor)
  | 0, c => .ok ([], c)
  | fuel + 1, c =>
    match c.rest with
    | p :: r =>
      if p ≠ '%' then .ok ([], c)
      else
        match r with
        | a :: b :: _ =>
          match a.hexValue?, b.hexValue? with
          | some x, some y => do
            let (bs, c) ← escapedBytes fuel (c.skip 3)
            return (UInt8.ofNat (x * 16 + y) :: bs, c)
          | _, _ => noToken
        | _ => noToken
    | [] => .ok ([], c)

/-- Reads the characters of a tag, some of which may be escaped. -/
def uriChars : (fuel : Nat) → Cursor → Except Failure (Text × Cursor)
  | 0, c => .ok ([], c)
  | fuel + 1, c => do
    let (t, c) := c.takeWhile isUriChar
    if c.sees fun d => d = '%' then
      let (bs, c) ← escapedBytes (fuel + 1) c
      match Utf8.decode? bs with
      | none => noToken
      | some escaped =>
        let (rest, c) ← uriChars fuel c
        return (t ++ escaped ++ rest, c)
    else return (t, c)

/-- Reads the end of a tag, which must not be missing. -/
def readUri (c : Cursor) : Except Failure (Text × Cursor) := do
  let (t, d) ← uriChars (c.rest.length + 1) c
  if d.index = c.index then noToken else return (t, d)

/-- Reads a handle: an exclamation mark, or a word between two of them. -/
def readHandle (c : Cursor) : Except Failure (Text × Cursor) :=
  if !c.sees (fun d => d = '!') then noToken
  else
    let c := c.next
    if c.sees fun d => d = ' ' then .ok (text "!", c)
    else
      let (word, c) := c.takeWhile CodePoint.isWordChar
      if c.sees fun d => d = '!' then .ok (text "!" ++ word ++ text "!", c.next) else noToken

/-- Whether a tag or a directive may end here. -/
def mayEnd (c : Cursor) : Bool :=
  c.endsOrSees fun d => d = ' ' || d.isLineBreak

/-- Whether there is an exclamation mark before the next space. -/
def hasHandle (t : Text) : Bool :=
  List.contains (t.takeWhile fun (d : CodePoint) => d ≠ ' ' && !d.isLineBreak) '!'

/-- Reads a tag at its exclamation mark. -/
def read (c : Cursor) : Except Failure (TagName × Cursor) := do
  let inner := c.next
  let (name, c) ←
    if inner.sees fun d => d = '<' then do
      let (suffix, c) ← readUri inner.next
      if c.sees fun d => d = '>' then pure (TagName.mk none suffix, c.next) else noToken
    else if inner.endsOrSees CodePoint.isGap then
      pure (TagName.mk none (text "!"), inner)
    else do
      let (handle, c) ← if hasHandle inner.rest then readHandle c else pure (text "!", inner)
      let (suffix, c) ← readUri c
      pure (TagName.mk (some handle) suffix, c)
  if mayEnd c then return (name, c) else noToken

end TagName

/-- Reads the name of an anchor or an alias behind its mark. -/
def anchorName (c : Cursor) : Except Failure (Text × Cursor) :=
  let (name, c) := c.next.takeWhile CodePoint.isWordChar
  if name.isEmpty || !c.endsOrSees (fun d => d.isGap || d.isIn "?:,]\x7d%@\x60") then noToken
  else .ok (name, c)

namespace Directive

/-- Reads a number. -/
def readNumber (c : Cursor) : Except Failure (Nat × Cursor) :=
  let (ds, c) := c.takeWhile CodePoint.isDigit
  if ds.isEmpty then noToken else .ok (Decimal.ofDigits ds, c)

/-- Reads the two numbers of a version. -/
def readVersion (c : Cursor) : Except Failure (Directive × Cursor) := do
  let (major, c) ← readNumber c.skipSpaces
  if c.sees fun d => d = '.' then
    let (_, c) ← readNumber c.next
    if TagName.mayEnd c then return (.version major, c) else noToken
  else noToken

/-- Reads a handle and what it stands for. -/
def readTag (c : Cursor) : Except Failure (Directive × Cursor) := do
  let (handle, c) ← TagName.readHandle c.skipSpaces
  if c.sees fun d => d = ' ' then
    let (start, c) ← TagName.readUri c.skipSpaces
    if TagName.mayEnd c then return (.tag handle start, c) else noToken
  else noToken

/-- Reads a directive at its percent sign. -/
def read (c : Cursor) : Except Failure (Directive × Cursor) := do
  let (name, c) := c.next.takeWhile CodePoint.isWordChar
  if name.isEmpty || !TagName.mayEnd c then noToken
  else
    let (d, c) ←
      if name = text "YAML" then readVersion c
      else if name = text "TAG" then readTag c
      else pure (Directive.other, c.skipLine)
    let c ← restOfLine c
    return (d, c)

end Directive

end AnnotationCodec.Yaml
