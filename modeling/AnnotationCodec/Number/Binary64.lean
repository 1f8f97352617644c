import AnnotationCodec.Number.Integer

/-!
Double-precision binary numbers, as exact fractions. Every operation is exact arithmetic on natural
numbers followed by one rounding to the nearest number, where a tie goes to the even mantissa.
-/

namespace AnnotationCodec

/-- A finite number is `mantissa * 2 ^ exponent`, with the exponent as small as a mantissa of 53 bits and
the least exponent allow; zero has a sign. -/
inductive Binary64
  | nan
  | infinity (negative : Bool)
  | finite (negative : Bool) (mantissa : Nat) (exponent : Int)
  deriving DecidableEq, Repr

namespace Binary64

def leastExponent : Int :=
  -1074

def greatestExponent : Int :=
  971

def zero (negative : Bool) : Binary64 :=
  .finite negative 0 leastExponent

/-- `num / den` to the nearest natural number, a tie to the even one. -/
def roundHalfEven (num den : Nat) : Nat :=
  let q := num / den
  let r := num % den
  if 2 * r < den then q else if den < 2 * r then q + 1 else q + q % 2

/-- `base ^ e * num / den` as numerator and denominator. -/
def scale (base : Nat) (e : Int) (num den : Nat) : Nat × Nat :=
  if 0 ≤ e then (num * Nat.pow base e.toNat, den) else (num, den * Nat.pow base (-e).toNat)

/-- The number nearest to `num / den`; beyond the range it is infinite. -/
def ofRatio (negative : Bool) (num den : Nat) : Binary64 :=
  if num = 0 then zero negative
  else
    let guess : Int := Int.ofNat num.log2 - Int.ofNat den.log2 - 53
    let start := max leastExponent guess
    let (n₀, d₀) := scale 2 (-start) num den
    let e := if n₀ / d₀ < Nat.pow 2 53 then start else start + 1
    let (n, d) := scale 2 (-e) num den
    let m := roundHalfEven n d
    let (m, e) := if m = Nat.pow 2 53 then (Nat.pow 2 52, e + 1) else (m, e)
    if greatestExponent < e then .infinity negative else .finite negative m e

/-- The number nearest to `digits * 10 ^ exponent`. Far outside the range the power is not computed. -/
def ofDecimal (negative : Bool) (digits : Nat) (exponent : Int) : Binary64 :=
  if digits = 0 then zero negative
  else
    let magnitude := Int.ofNat (Decimal.digits digits).length + exponent
    if 400 < magnitude then .infinity negative
    else if magnitude < -400 then zero negative
    else
      let (n, d) := scale 10 exponent digits 1
      ofRatio negative n d

variable (x y : Binary64)

def isNegative : Bool :=
  match x with
  | .nan => false
  | .infinity s => s
  | .finite s _ _ => s

def isZero : Bool :=
  match x with
  | .finite _ m _ => m == 0
  | _ => false

def neg : Binary64 :=
  match x with
  | .nan => .nan
  | .infinity s => .infinity !s
  | .finite s m e => .finite (!s) m e

/-- The exact value of a finite number as a signed numerator over a denominator. -/
def ratio? : Option (Int × Nat) :=
  match x with
  | .finite s m e =>
    let (n, d) := scale 2 e m 1
    some (if s then -(n : Int) else n, d)
  | _ => none

/-- The number nearest to a signed fraction; an exact zero is positive. -/
def ofSigned (num : Int) (den : Nat) : Binary64 :=
  ofRatio (num < 0) num.natAbs den

def ofInt (n : Int) : Binary64 :=
  ofSigned n 1

def add : Binary64 :=
  match x, y with
  | .nan, _ | _, .nan => .nan
  | .infinity s, .infinity t => if s = t then .infinity s else .nan
  | .infinity s, _ | _, .infinity s => .infinity s
  | .finite s m e, .finite t n f =>
    if m = 0 && n = 0 then zero (s && t)
    else
      match (Binary64.finite s m e).ratio?, (Binary64.finite t n f).ratio? with
      | some (a, b), some (c, d) => ofSigned (a * d + c * b) (b * d)
      | _, _ => .nan

def mul : Binary64 :=
  match x, y with
  | .nan, _ | _, .nan => .nan
  | .infinity s, y => if y.isZero then .nan else .infinity (s != y.isNegative)
  | x, .infinity s => if x.isZero then .nan else .infinity (s != x.isNegative)
  | .finite s m e, .finite t n f =>
    let (a, b) := scale 2 (e + f) (m * n) 1
    ofRatio (s != t) a b

/-- The order of the numbers; there is none with `nan`. -/
def compare? : Option Ordering :=
  match x, y with
  | .nan, _ | _, .nan => none
  | .infinity s, .infinity t => some (if s = t then .eq else if s then .lt else .gt)
  | .infinity s, _ => some (if s then .lt else .gt)
  | _, .infinity t => some (if t then .gt else .lt)
  | x, y =>
    match x.ratio?, y.ratio? with
    | some (a, b), some (c, d) => some (compare (a * d) (c * b))
    | _, _ => none

/-- The order of a number and an integer, which need not be a number of this type. -/
def compareInt? (n : Int) : Option Ordering :=
  match x with
  | .nan => none
  | .infinity s => some (if s then .lt else .gt)
  | x => x.ratio?.map fun (a, b) => compare a (n * b)

/-! Decimal text -/

/-- The greatest `p` with `10 ^ p ≤ num / den`, found upwards from `p` in `fuel` steps. -/
def climb (num den : Nat) : (fuel : Nat) → (p : Int) → Int
  | 0, p => p
  | fuel + 1, p =>
    let (n, d) := scale 10 (-(p + 1)) num den
    if d ≤ n then climb num den fuel (p + 1) else p

/-- The decimal exponent of `num / den`. -/
def decimalExponent (num den : Nat) : Int :=
  climb num den 5 ((Int.ofNat num.log2 - Int.ofNat den.log2) * 30103 / 100000 - 2)

/-- A decimal of as few digits as read back to the same number, given as digits and exponent. The bounds
`low` and `high` enclose the reals that round to `value`, all over `den`; they belong to the interval
if `closed`. -/
def shortest (low value high den : Nat) (closed : Bool) : Nat × Int :=
  let p := decimalExponent value den
  let within (c d : Nat) (k : Int) : Bool :=
    let (l, _) := scale 10 (-k) low den
    let (h, _) := scale 10 (-k) high den
    if closed then l ≤ c * d && c * d ≤ h else l < c * d && c * d < h
  let rec search : (fuel digits : Nat) → Nat × Int
    | 0, _ => (0, 0)
    | fuel + 1, digits =>
      let k := p - Int.ofNat digits + 1
      let (n, d) := scale 10 (-k) value den
      let below := n / d
      let r := n % d
      let okBelow := within below d k
      let okAbove := within (below + 1) d k
      if okBelow && okAbove then
        (if 2 * r < d || (2 * r = d && below % 2 = 0) then below else below + 1, k)
      else if okBelow then (below, k)
      else if okAbove then (below + 1, k)
      else search fuel (digits + 1)
  search 17 1

/-- The digits without trailing zeros, and the position of the point counted from their start. -/
def shortestDigits (m : Nat) (e : Int) : Text × Int :=
  let low := if m = Nat.pow 2 52 && leastExponent < e then 4 * m - 1 else 4 * m - 2
  let (v, den) := scale 2 e (4 * m) 4
  let (l, _) := scale 2 e low 4
  let (h, _) := scale 2 e (4 * m + 2) 4
  let (c, k) := shortest l v h den (m % 2 = 0)
  let ds := Decimal.digits c
  (Text.dropEndWhile ds (· = '0'), Int.ofNat ds.length + k)

/-- An exponent has a sign and at least two digits. -/
def exponentText (e : Int) : Text :=
  let ds := Decimal.digits e.natAbs
  'e' :: (if e < 0 then '-' else '+') :: ((if ds.length < 2 then text "0" else []) ++ ds)

/-- The point stands among the digits while the exponent is from `-4` to `15`; otherwise an exponent is
written. -/
def layout (ds : Text) (point : Int) : Text :=
  if point ≤ -4 || 16 < point then
    (match ds with
      | [] => []
      | [d] => [d]
      | d :: r => d :: '.' :: r) ++ exponentText (point - 1)
  else if point ≤ 0 then text "0." ++ Text.replicate (-point).toNat '0' ++ ds
  else if Int.ofNat ds.length ≤ point then
    ds ++ Text.replicate (point.toNat - ds.length) '0' ++ text ".0"
  else ds.take point.toNat ++ text "." ++ ds.drop point.toNat

/-- The shortest decimal text that reads back. -/
def write : Text :=
  match x with
  | .nan => text "nan"
  | .infinity s => if s then text "-inf" else text "inf"
  | .finite s m e =>
    let body := if m = 0 then text "0.0" else
      let (ds, point) := shortestDigits m e
      layout ds point
    if s then '-' :: body else body

/-- The digits at the start of a text, of any script, and the rest. -/
def digitSpan (t : Text) : List Nat × Text :=
  match t with
  | [] => ([], [])
  | c :: r =>
    match c.decimalValue? with
    | some d =>
      let (ds, rest) := digitSpan r
      (d :: ds, rest)
    | none => ([], c :: r)

/-- An exponent mark with digits after it. -/
def exponentSpan (t : Text) : Int × Text :=
  match t with
  | c :: r =>
    if Text.lowerAscii c = 'e' then
      let (negative, r') : Bool × Text :=
        match r with
        | s :: q => if s = '-' then (true, q) else if s = '+' then (false, q) else (false, s :: q)
        | [] => (false, [])
      match digitSpan r' with
      | ([], _) => (0, t)
      | (ds, rest) =>
        let e : Int := Decimal.value 10 ds
        (if negative then -e else e, rest)
    else (0, t)
  | [] => (0, [])

/-- Reads decimal text with an optional fraction and exponent, or a name of an infinity or `nan`. -/
def read? (t : Text) : Option Binary64 :=
  let body := t.trim Integer.isPadding
  let (negative, unsigned) : Bool × Text :=
    match body with
    | c :: r => if c = '-' then (true, r) else if c = '+' then (false, r) else (false, c :: r)
    | [] => (false, [])
  let name := unsigned.map Text.lowerAscii
  if name = text "inf" || name = text "infinity" then some (.infinity negative)
  else if name = text "nan" then some .nan
  else
    let (whole, rest) := digitSpan unsigned
    let (fraction, rest) : List Nat × Text :=
      match rest with
      | c :: r => if c = '.' then digitSpan r else ([], c :: r)
      | [] => ([], [])
    if whole.isEmpty && fraction.isEmpty then none
    else
      let (e, rest) := exponentSpan rest
      if rest.isEmpty then
        some (ofDecimal negative (Decimal.value 10 (whole ++ fraction)) (e - Int.ofNat fraction.length))
      else none

end Binary64

end AnnotationCodec
