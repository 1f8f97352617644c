import AnnotationCodec.Yaml.Character
import AnnotationCodec.Calendar

/-!
Timestamps: a date, which may be followed by a time of day, a fraction of a second and an offset from
universal time.
-/

namespace AnnotationCodec.Yaml

/-- The time of day in a timestamp, with the digits of its fraction. -/
structure Clock where
  hour : Nat
  minute : Nat
  second : Nat
  fraction : Text
  offset : Option Int
  deriving DecidableEq, Repr

/-- A timestamp as it is written. `wide` tells whether month and day have two digits each. -/
structure Timestamp where
  year : Nat
  month : Nat
  day : Nat
  wide : Bool
  clock : Option Clock
  deriving DecidableEq, Repr

namespace Timestamp

/-- Reads between `least` and `most` digits. -/
def digitsBetween? (least most : Nat) (t : Text) : Option (Text × Text) :=
  let ds := (t.takeWhile CodePoint.isDigit).take most
  if ds.length < least then none else some (ds, t.drop ds.length)

/-- Reads a given character. -/
def mark? (c : CodePoint) : Text → Option Text
  | [] => none
  | d :: r => if d = c then some r else none

def isInnerSpace (c : CodePoint) : Bool :=
  c = ' ' || c = '\t'

/-- Reads `+HH:MM`, where the minutes may be left out. -/
def offset? (negative : Bool) (t : Text) : Option (Int × Text) := do
  let (hours, t) ← digitsBetween? 1 2 t
  let (minutes, t) :=
    match mark? ':' t |>.bind (digitsBetween? 2 2) with
    | some (ms, rest) => (ms, rest)
    | none => ([], t)
  let seconds : Int := Decimal.ofDigits hours * 3600 + Decimal.ofDigits minutes * 60
  return (if negative then -seconds else seconds, t)

/-- Reads the zone at the end of a timestamp, which may be missing. -/
def zone? (t : Text) : Option (Option Int) :=
  match t.dropWhile isInnerSpace with
  | [] => if t.isEmpty then some none else none
  | c :: r =>
    if c = 'Z' then (if r.isEmpty then some (some 0) else none)
    else if c = '+' || c = '-' then
      match offset? (c = '-') r with
      | some (o, []) => some (some o)
      | _ => none
    else none

/-- Reads what follows the date. -/
def clock? (t : Text) : Option (Option Clock) :=
  match t with
  | [] => some none
  | c :: r => do
    let t ←
      if c = 'T' || c = 't' then some r
      else if isInnerSpace c then some (r.dropWhile isInnerSpace)
      else none
    let (hour, t) ← digitsBetween? 1 2 t
    let t ← mark? ':' t
    let (minute, t) ← digitsBetween? 2 2 t
    let t ← mark? ':' t
    let (second, t) ← digitsBetween? 2 2 t
    let (fraction, t) :=
      match mark? '.' t with
      | some r => r.span CodePoint.isDigit
      | none => ([], t)
    let zone ← zone? t
    return some ⟨Decimal.ofDigits hour, Decimal.ofDigits minute, Decimal.ofDigits second, fraction, zone⟩

def read? (t : Text) : Option Timestamp := do
  let (year, t) ← digitsBetween? 4 4 t
  let t ← mark? '-' t
  let (month, t) ← digitsBetween? 1 2 t
  let t ← mark? '-' t
  let (day, t) ← digitsBetween? 1 2 t
  let clock ← clock? t
  return ⟨Decimal.ofDigits year, Decimal.ofDigits month, Decimal.ofDigits day,
    month.length = 2 && day.length = 2, clock⟩

/-- A plain text is a timestamp also without being marked as one. A date alone needs two digits for the month
and the day. -/
def isImplicit (t : Text) : Bool :=
  match read? t with
  | some s => s.clock.isSome || s.wide
  | none => false

/-- Microseconds from the digits of a fraction, of which six count. -/
def microseconds (fraction : Text) : Nat :=
  let ds := fraction.take 6
  Decimal.ofDigits (ds ++ Text.replicate (6 - ds.length) '0')

variable (s : Timestamp)

def toDateTime (c : Clock) : Except CalendarError DateTime :=
  DateTime.make s.year s.month s.day c.hour c.minute c.second (microseconds c.fraction) c.offset

def toDate : Except CalendarError Date :=
  Date.make s.year s.month s.day

end Timestamp

end AnnotationCodec.Yaml
