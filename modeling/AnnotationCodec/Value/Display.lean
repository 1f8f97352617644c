import AnnotationCodec.Text.Printable
import AnnotationCodec.Value.Basic

/-!
Values as text in messages: `literal` writes a value the way it would be typed in, with texts in quotes;
`display` is the same but for texts, which stand for themselves, and for dates.
-/

namespace AnnotationCodec

namespace Text

/-- Double quotes serve only where single quotes would need escapes and they do not. -/
def preferredQuote (t : Text) : CodePoint :=
  if List.contains t '\'' && !List.contains t '"' then '"' else '\''

/-- One code point between quotes; what is not printable is escaped by number. -/
def literalPoint (quote c : CodePoint) : Text :=
  if c = quote || c = '\\' then ['\\', c]
  else if c = '\n' then text "\\n"
  else if c = '\r' then text "\\r"
  else if c = '\t' then text "\\t"
  else if c.isPrintable then [c]
  else if c.val < 0x100 then text "\\x" ++ hex false 2 c.val
  else if c.val < 0x10000 then text "\\u" ++ hex false 4 c.val
  else text "\\U" ++ hex false 8 c.val

def literal (t : Text) : Text :=
  let q := preferredQuote t
  q :: t.flatMap (literalPoint q) ++ [q]

end Text

namespace Value

def bytePoint (quote : CodePoint) (b : UInt8) : Text :=
  let c := CodePoint.ofNat b.toNat
  if c.val < 0x7F then Text.literalPoint quote c else text "\\x" ++ Text.hex false 2 c.val

def bytesLiteral (bs : List UInt8) : Text :=
  let q := Text.preferredQuote (bs.map fun b => CodePoint.ofNat b.toNat)
  text "b" ++ [q] ++ bs.flatMap (bytePoint q) ++ [q]

end Value

namespace Date

def literal (d : Date) : Text :=
  text "datetime.date(" ++
    Text.joinWith (text ", ") [Decimal.digits d.year, Decimal.digits d.month, Decimal.digits d.day] ++
    text ")"

end Date

namespace DateTime

def offsetLiteral (o : Int) : Text :=
  if o = 0 then text "datetime.timezone.utc"
  else text "datetime.timezone(" ++ CalendarError.spanText o ++ text ")"

/-- Seconds and microseconds are left out when they are zero. -/
def literal (t : DateTime) : Text :=
  let small :=
    if t.microsecond != 0 then [t.second, t.microsecond]
    else if t.second != 0 then [t.second]
    else []
  let numbers := [t.date.year, t.date.month, t.date.day, t.hour, t.minute] ++ small
  let zone := match t.offset with
    | none => []
    | some o => [text "tzinfo=" ++ offsetLiteral o]
  text "datetime.datetime(" ++ Text.joinWith (text ", ") (numbers.map Decimal.digits ++ zone) ++ text ")"

end DateTime

namespace Value

def commaList (ts : List Text) : Text :=
  Text.joinWith (text ", ") ts

/-- The text of a value as it would be typed in; an integer beyond the digit limit has none. -/
def literal : Value → Except Integer.WriteError Text
  | .null => .ok (text "None")
  | .bool b => .ok (if b then text "True" else text "False")
  | .int n => Integer.write n
  | .float x => .ok x.write
  | .str t => .ok t.literal
  | .list xs => do
    let ts ← all xs
    return text "[" ++ commaList ts ++ text "]"
  | .tuple xs => do
    let ts ← all xs
    return match ts with
      | [t] => text "(" ++ t ++ text ",)"
      | ts => text "(" ++ commaList ts ++ text ")"
  | .bytes bs => .ok (bytesLiteral bs)
  | .set [] => .ok (text "set()")
  | .set (x :: xs) => do
    let t ← x.literal
    let ts ← all xs
    return text "\x7b" ++ commaList (t :: ts) ++ text "\x7d"
  | .date d => .ok d.literal
  | .dateTime t => .ok t.literal
  | .map es => do
    let ts ← pairs es
    return text "\x7b" ++ commaList ts ++ text "\x7d"
  | .descriptor (.moniker ⟨a, c, s, d, q⟩) => do
    let a ← a.literal
    let c ← c.literal
    let s ← s.literal
    let d ← d.literal
    let q ← q.literal
    return attributeList (.moniker ⟨a, c, s, d, q⟩)
  | .descriptor (.artifact ⟨t, n, l, v⟩) => do
    let t ← t.literal
    let n ← n.literal
    let l ← l.literal
    let v ← v.literal
    return attributeList (.artifact ⟨t, n, l, v⟩)
  | .descriptor (.relationships ⟨l, s⟩) => do
    let l ← l.literal
    let s ← s.literal
    return attributeList (.relationships ⟨l, s⟩)
where
  all : List Value → Except Integer.WriteError (List Text)
    | [] => .ok []
    | x :: xs => do
      let t ← x.literal
      let ts ← all xs
      return t :: ts
  pairs : List (Value × Value) → Except Integer.WriteError (List Text)
    | [] => .ok []
    | (k, v) :: es => do
      let k ← k.literal
      let v ← v.literal
      let ts ← pairs es
      return (k ++ text ": " ++ v) :: ts
  /-- A descriptor by the names of its attributes. -/
  attributeList (d : Descriptor Text) : Text :=
    d.family.typeName ++ text "(" ++
      commaList (d.attributes.map fun (name, t) => name ++ text "=" ++ t) ++ text ")"

def display : Value → Except Integer.WriteError Text
  | .str t => .ok t
  | .date d => .ok d.iso
  | .dateTime t => .ok (t.iso ' ')
  | v => v.literal

end Value

end AnnotationCodec
