import AnnotationCodec.Text.Basic

/-!
Bytes as text in the base 64 alphabet. Text is written in lines of 76; reading skips whatever is not in
the alphabet and stops at complete padding.
-/

namespace AnnotationCodec.Base64

/-- The code point of a number below 64. -/
def letter (n : Nat) : CodePoint :=
  if n < 26 then CodePoint.ofNat (0x41 + n)
  else if n < 52 then CodePoint.ofNat (0x61 + (n - 26))
  else if n < 62 then CodePoint.ofNat (0x30 + (n - 52))
  else if n = 62 then '+'
  else '/'

def value? (c : CodePoint) : Option Nat :=
  if 0x41 ≤ c.val && c.val ≤ 0x5A then some (c.val - 0x41)
  else if 0x61 ≤ c.val && c.val ≤ 0x7A then some (c.val - 0x61 + 26)
  else if c.isDigit then some (c.val - 0x30 + 52)
  else if c = '+' then some 62
  else if c = '/' then some 63
  else none

def encode : List UInt8 → Text
  | [] => []
  | [a] =>
    let n := a.toNat * 16
    [letter (n / 64), letter (n % 64), '=', '=']
  | [a, b] =>
    let n := (a.toNat * 256 + b.toNat) * 4
    [letter (n / 4096), letter (n / 64 % 64), letter (n % 64), '=']
  | a :: b :: c :: r =>
    let n := (a.toNat * 256 + b.toNat) * 256 + c.toNat
    letter (n / 262144) :: letter (n / 4096 % 64) :: letter (n / 64 % 64) :: letter (n % 64) :: encode r

/-- Lines of 57 bytes, which are 76 code points; the measure is the number of bytes left. -/
def linesWithin : (fuel : Nat) → List UInt8 → List Text
  | 0, _ => []
  | _, [] => []
  | fuel + 1, bs => encode (bs.take 57) :: linesWithin fuel (bs.drop 57)

def lines (bs : List UInt8) : List Text :=
  linesWithin bs.length bs

/-- Reads from a place inside a group of four: `place` letters of it were read, `carry` holds the bits not
yet put into a byte, and `pads` padding signs follow the last letter. `none` is an incomplete group. -/
def decodeFrom (place carry pads : Nat) : Text → Option (List UInt8)
  | [] => if place = 0 then some [] else none
  | c :: r =>
    if c = '=' then
      if 2 ≤ place then
        if 4 ≤ place + pads + 1 then some [] else decodeFrom place carry (pads + 1) r
      else decodeFrom place carry pads r
    else
      match value? c with
      | none => decodeFrom place carry pads r
      | some v =>
        match place with
        | 0 => decodeFrom 1 v 0 r
        | 1 => (decodeFrom 2 (v % 16) 0 r).map (UInt8.ofNat (carry * 4 + v / 16) :: ·)
        | 2 => (decodeFrom 3 (v % 4) 0 r).map (UInt8.ofNat (carry * 16 + v / 4) :: ·)
        | _ => (decodeFrom 0 0 0 r).map (UInt8.ofNat (carry * 64 + v) :: ·)

def decode? (t : Text) : Option (List UInt8) :=
  decodeFrom 0 0 0 t

end AnnotationCodec.Base64
