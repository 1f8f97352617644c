import AnnotationCodec.Text.Basic

/-!
Code points as bytes, in one to four of them.
-/

namespace AnnotationCodec.Utf8

/-- The six bits of a continuation byte. -/
def continuation? (b : UInt8) : Option Nat :=
  if b.toNat / 64 = 2 then some (b.toNat % 64) else none

/-- The code point of a number that needs more than `least`; surrogates have no bytes. -/
def point? (least n : Nat) : Option CodePoint :=
  if n < least || 0x110000 ≤ n || (0xD800 ≤ n && n ≤ 0xDFFF) then none else some (CodePoint.ofNat n)

/-- Reads bytes; only the shortest form of each code point is accepted. -/
def decode? : List UInt8 → Option Text
  | [] => some []
  | a :: r =>
    let n := a.toNat
    if n < 0x80 then (decode? r).map (CodePoint.ofNat n :: ·)
    else if n / 32 = 6 then
      match r with
      | b :: r => do
        let x ← continuation? b
        let c ← point? 0x80 (n % 32 * 64 + x)
        let t ← decode? r
        return c :: t
      | _ => none
    else if n / 16 = 14 then
      match r with
      | b :: c :: r => do
        let x ← continuation? b
        let y ← continuation? c
        let p ← point? 0x800 ((n % 16 * 64 + x) * 64 + y)
        let t ← decode? r
        return p :: t
      | _ => none
    else if n / 8 = 30 then
      match r with
      | b :: c :: d :: r => do
        let x ← continuation? b
        let y ← continuation? c
        let z ← continuation? d
        let p ← point? 0x10000 (((n % 8 * 64 + x) * 64 + y) * 64 + z)
        let t ← decode? r
        return p :: t
      | _ => none
    else none

end AnnotationCodec.Utf8
