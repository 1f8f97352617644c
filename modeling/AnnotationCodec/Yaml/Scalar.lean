import AnnotationCodec.Failure
import AnnotationCodec.Text.Lowercase
import AnnotationCodec.Value.Basic
import AnnotationCodec.Yaml.Tag

/-!
The values of scalars, by their tags. Numbers may hold underscores and may be written to base sixty.
-/

namespace AnnotationCodec.Yaml

/-- No value belongs to the node. -/
def noValue {α : Type} : Except Failure α :=
  .error (.document .node)

namespace Scalar

def withoutUnderscores (t : Text) : Text :=
  t.filter fun (c : CodePoint) => c ≠ '_'

/-- Takes the sign off a number, which must not be empty. -/
def takeSign (t : Text) : Except Failure (Bool × Text) :=
  match t with
  | [] => .error .indexRange
  | c :: r =>
    if c = '-' then .ok (true, r)
    else if c = '+' then .ok (false, r)
    else .ok (false, c :: r)

/-- The words for truth values, in lower case. -/
def truthWords : List (Text × Bool) :=
  [(text "yes", true), (text "no", false), (text "true", true), (text "false", false),
    (text "on", true), (text "off", false)]

def bool (t : Text) : Except Failure Bool :=
  let word := t.toLower
  match truthWords.find? fun e => e.1 = word with
  | some e => .ok e.2
  | none => .error (.unknownWord word)

def readInt (base : Nat) (t : Text) : Except Failure Int :=
  (Integer.read base t).mapError .integerText

/-- The value of parts to base sixty. -/
def sexagesimal (parts : List Int) : Int :=
  parts.foldl (fun n d => n * 60 + d) 0

def unsignedInt (t : Text) : Except Failure Int :=
  if t = text "0" then .ok 0
  else if (text "0b").isPrefixOf t then readInt 2 (t.drop 2)
  else if (text "0x").isPrefixOf t then readInt 16 (t.drop 2)
  else
    match t with
    | [] => .error .indexRange
    | c :: _ =>
      if c = '0' then readInt 8 t
      else if List.contains t ':' then
        ((Text.splitAt ':' t).mapM (readInt 10)).map sexagesimal
      else readInt 10 t

def int (t : Text) : Except Failure Int := do
  let (negative, t) ← takeSign (withoutUnderscores t)
  let n ← unsignedInt t
  return if negative then -n else n

def readFloat (t : Text) : Except Failure Binary64 :=
  match Binary64.read? t with
  | some x => .ok x
  | none => .error (.floatText t)

/-- Adds the parts to base sixty, the last one first; `base` is what the first of them counts. -/
def addParts (sum : Binary64) (base : Int) : List Binary64 → Except Failure Binary64
  | [] => .ok sum
  | x :: xs =>
    match Binary64.ofInt base with
    | .infinity _ => .error .overflow
    | b => addParts (sum.add (x.mul b)) (base * 60) xs

def unsignedFloat (t : Text) : Except Failure Binary64 :=
  if t = text ".inf" then .ok (.infinity false)
  else if t = text ".nan" then .ok .nan
  else if List.contains t ':' then do
    let parts ← (Text.splitAt ':' t).mapM readFloat
    addParts (.zero false) 1 parts.reverse
  else readFloat t

def float (t : Text) : Except Failure Binary64 := do
  let (negative, t) ← takeSign (withoutUnderscores t).toLower
  let x ← unsignedFloat t
  return if negative then x.neg else x

def bytes (t : Text) : Except Failure (List UInt8) :=
  if t.all fun c => c.val < 0x80 then
    match Base64.decode? t with
    | some bs => .ok bs
    | none => noValue
  else noValue

/-- A line break at the end of a timestamp does no harm. -/
def timestamp (t : Text) : Except Failure Value :=
  let t := if t.getLast? = some ('\n' : CodePoint) then t.dropLast else t
  match Timestamp.read? t with
  | none => .error .noAttribute
  | some s =>
    match s.clock with
    | none => (s.toDate.map Value.date).mapError .calendar
    | some c => ((s.toDateTime c).map Value.dateTime).mapError .calendar

/-- The value of a scalar; tags of collections have none. -/
def value (tag : Tag) (t : Text) : Except Failure Value :=
  match tag with
  | .null => .ok .null
  | .bool => (bool t).map .bool
  | .int => (int t).map .int
  | .float => (float t).map .float
  | .binary => (bytes t).map .bytes
  | .timestamp => timestamp t
  | .str => .ok (.str t)
  | _ => noValue

end Scalar

end AnnotationCodec.Yaml
