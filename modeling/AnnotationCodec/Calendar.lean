import AnnotationCodec.Number.Integer

/-!
Calendar dates and times of day, with an optional offset from universal time, and their written forms.
-/

namespace AnnotationCodec

/-- Why numbers name no date, time or offset. -/
inductive CalendarError
  | year (year : Nat)
  | month
  | day
  | hour
  | minute
  | second
  | offset (seconds : Int)
  deriving DecidableEq, Repr

/-- A day of the Gregorian calendar. -/
structure Date where
  year : Nat
  month : Nat
  day : Nat
  deriving DecidableEq, Repr

/-- A time on a day; `offset` is in seconds east of universal time. -/
structure DateTime where
  date : Date
  hour : Nat
  minute : Nat
  second : Nat
  microsecond : Nat
  offset : Option Int
  deriving DecidableEq, Repr

/-- Decimal digits of `n`, with leading zeros up to `width`. -/
def padded (width n : Nat) : Text :=
  let ds := Decimal.digits n
  Text.replicate (width - ds.length) '0' ++ ds

namespace CalendarError

/-- A span of whole seconds as days and the seconds of the last day. -/
def spanText (seconds : Int) : Text :=
  let days := Int.fdiv seconds 86400
  let rest := Int.fmod seconds 86400
  let daysText := if days = 0 then [] else text "days=" ++ Integer.decimal days
  let restText := if rest = 0 then [] else text "seconds=" ++ Integer.decimal rest
  let parts := [daysText, restText].filter (!·.isEmpty)
  text "datetime.timedelta(" ++ (if parts.isEmpty then text "0" else Text.joinWith (text ", ") parts) ++
    text ")"

def message : CalendarError → Text
  | .year y => text "year " ++ Decimal.digits y ++ text " is out of range"
  | .month => text "month must be in 1..12"
  | .day => text "day is out of range for month"
  | .hour => text "hour must be in 0..23"
  | .minute => text "minute must be in 0..59"
  | .second => text "second must be in 0..59"
  | .offset s =>
    text "offset must be a timedelta strictly between -timedelta(hours=24) and timedelta(hours=24), not "
      ++ spanText s ++ text "."

end CalendarError

namespace Date

def isLeap (year : Nat) : Bool :=
  year % 4 == 0 && (year % 100 != 0 || year % 400 == 0)

def daysInMonth (year month : Nat) : Nat :=
  if month = 2 then (if isLeap year then 29 else 28)
  else if month = 4 || month = 6 || month = 9 || month = 11 then 30
  else 31

def make (year month day : Nat) : Except CalendarError Date :=
  if year = 0 || 9999 < year then .error (.year year)
  else if month = 0 || 12 < month then .error .month
  else if day = 0 || daysInMonth year month < day then .error .day
  else .ok ⟨year, month, day⟩

variable (d : Date)

/-- The number of days before `d`, counted from the first day of year one. -/
def ordinal : Nat :=
  let y := d.year - 1
  let before := (List.range (d.month - 1)).foldl (fun n m => n + daysInMonth d.year (m + 1)) 0
  365 * y + y / 4 - y / 100 + y / 400 + before + (d.day - 1)

/-- `YYYY-MM-DD`. -/
def iso : Text :=
  padded 4 d.year ++ text "-" ++ padded 2 d.month ++ text "-" ++ padded 2 d.day

end Date

namespace DateTime

/-- An offset is less than a day. -/
def checkOffset : Option Int → Except CalendarError Unit
  | some o => if o ≤ -86400 || 86400 ≤ o then .error (.offset o) else .ok ()
  | none => .ok ()

def checkTime (hour minute second : Nat) : Except CalendarError Unit :=
  if 23 < hour then .error .hour
  else if 59 < minute then .error .minute
  else if 59 < second then .error .second
  else .ok ()

/-- The offset is checked first, then the date, then the time. -/
def make (year month day hour minute second microsecond : Nat) (offset : Option Int) :
    Except CalendarError DateTime := do
  checkOffset offset
  let date ← Date.make year month day
  checkTime hour minute second
  return ⟨date, hour, minute, second, microsecond, offset⟩

/-- `+HH:MM`, with seconds if there are any. -/
def offsetText (o : Int) : Text :=
  let s := o.natAbs
  text (if o < 0 then "-" else "+") ++ padded 2 (s / 3600) ++ text ":" ++ padded 2 (s / 60 % 60) ++
    (if s % 60 = 0 then [] else text ":" ++ padded 2 (s % 60))

variable (t : DateTime)

/-- The date and the time, `sep` between them; a fraction is written with six digits, if there is one. -/
def iso (sep : CodePoint) : Text :=
  t.date.iso ++ [sep] ++ padded 2 t.hour ++ text ":" ++ padded 2 t.minute ++ text ":" ++
    padded 2 t.second ++
    (if t.microsecond = 0 then [] else text "." ++ padded 6 t.microsecond) ++
    (match t.offset with
      | none => []
      | some o => offsetText o)

/-- Microseconds since the start of year one, in universal time if there is an offset. -/
def instant : Int :=
  let seconds : Int := t.date.ordinal * 86400 + t.hour * 3600 + t.minute * 60 + t.second
  (seconds - t.offset.getD 0) * 1000000 + t.microsecond

end DateTime

end AnnotationCodec
