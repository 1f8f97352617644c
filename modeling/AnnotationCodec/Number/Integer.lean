import AnnotationCodec.Text.Blank
import AnnotationCodec.Text.DecimalDigit

/-!
Integers as text. Decimal text is limited to 4300 digits in both directions, so that converting an
integer never takes long; the bases that are powers of two have no limit.
-/

namespace AnnotationCodec

/-- No decimal text of an integer has more digits. -/
def digitLimit : Nat :=
  4300

namespace Decimal

/-- The digits of `n` in front of `acc`. -/
def digitsOnto (n : Nat) (acc : Text) : Text :=
  if n < 10 then CodePoint.ofDigit n :: acc
  else digitsOnto (n / 10) (CodePoint.ofDigit (n % 10) :: acc)

/-- Decimal digits without leading zeros. -/
def digits (n : Nat) : Text :=
  digitsOnto n []

/-- The number that digits of any script spell, read in `base`. -/
def value (base : Nat) (ds : List Nat) : Nat :=
  ds.foldl (fun n d => n * base + d) 0

/-- The number that ASCII digits spell. -/
def ofDigits (t : Text) : Nat :=
  value 10 (t.map CodePoint.digitValue)

end Decimal

namespace Integer

/-- Why an integer has no text. -/
inductive WriteError
  | tooManyDigits
  deriving DecidableEq, Repr

/-- Why a text is no integer. -/
inductive ReadError
  | tooManyDigits (count : Nat)
  | malformed (base : Nat) (literal : Text)
  deriving DecidableEq, Repr

/-- Decimal text, without regard to its length. -/
def decimal : Int → Text
  | .ofNat n => Decimal.digits n
  | .negSucc n => '-' :: Decimal.digits (n + 1)

/-- Decimal text of an integer below `10 ^ 4300` in magnitude. -/
def write (n : Int) : Except WriteError Text :=
  if n.natAbs < Nat.pow 10 digitLimit then .ok (decimal n) else .error .tooManyDigits

/-- Blanks around a number: the ASCII ones up to the carriage return, the space, and all others beyond
ASCII. -/
def isPadding (c : CodePoint) : Bool :=
  c = ' ' || (0x09 ≤ c.val && c.val ≤ 0x0D) || (0x7F < c.val && c.isBlank)

/-- The value of a digit or letter, for bases up to 36. -/
def digitValue? (c : CodePoint) : Option Nat :=
  match c.decimalValue? with
  | some d => some d
  | none =>
    if 0x61 ≤ c.val && c.val ≤ 0x7A then some (c.val - 0x57)
    else if 0x41 ≤ c.val && c.val ≤ 0x5A then some (c.val - 0x37)
    else none

/-- The value of a digit of `base`. -/
def digitOf? (base : Nat) (c : CodePoint) : Option Nat :=
  (digitValue? c).filter (· < base)

/-- The longest run of digits of `base`, where one underscore may stand between two digits, and what
follows it. -/
def digitRun (base : Nat) : (afterDigit : Bool) → Text → List Nat × Text
  | _, [] => ([], [])
  | afterDigit, c :: r =>
    match digitOf? base c with
    | some d =>
      let (ds, rest) := digitRun base true r
      (d :: ds, rest)
    | none =>
      if afterDigit && c = '_' && (r.head?.bind (digitOf? base)).isSome then digitRun base false r
      else ([], c :: r)

/-- The letter that may follow a zero to repeat the base. -/
def baseLetter : Nat → Option CodePoint
  | 2 => some 'b'
  | 8 => some 'o'
  | 16 => some 'x'
  | _ => none

/-- Drops a spelled-out base such as `0x`, and an underscore after it. -/
def dropBase (base : Nat) (t : Text) : Text :=
  match t with
  | z :: l :: r =>
    if z = '0' && baseLetter base = some (Text.lowerAscii l) then
      match r with
      | u :: r' => if u = '_' then r' else u :: r'
      | [] => []
    else z :: l :: r
  | _ => t

/-- Reads an integer in `base`: a sign, digits of any script, and padding around them. -/
def read (base : Nat) (t : Text) : Except ReadError Int :=
  let body := t.trim isPadding
  let (negative, unsigned) : Bool × Text :=
    match body with
    | c :: r => if c = '-' then (true, r) else if c = '+' then (false, r) else (false, c :: r)
    | [] => (false, [])
  let (ds, rest) := digitRun base false (dropBase base unsigned)
  if base = 10 && digitLimit < ds.length then .error (.tooManyDigits ds.length)
  else if ds.isEmpty || !rest.isEmpty then .error (.malformed base t)
  else
    let n : Int := Decimal.value base ds
    .ok (if negative then -n else n)

end Integer

end AnnotationCodec
