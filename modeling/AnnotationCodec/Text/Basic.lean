/-!
Texts are lists of code points, lone surrogates included, because an annotation may hold any of
them. A `Char` is a code point, so literals can be written as usual.
-/

namespace AnnotationCodec

/-- A number below `0x110000`. -/
abbrev CodePoint := Fin 0x110000

abbrev Text := List CodePoint

namespace CodePoint

theorem toNat_lt (c : Char) : c.toNat < 0x110000 := by
  have h := c.valid
  show c.val.toNat < 0x110000
  rcases h with h | h <;> omega

def ofChar (c : Char) : CodePoint :=
  ⟨c.toNat, toNat_lt c⟩

instance : Coe Char CodePoint :=
  ⟨ofChar⟩

variable (c : CodePoint)

def isHighSurrogate : Bool :=
  0xD800 ≤ c.val && c.val ≤ 0xDBFF

def isLowSurrogate : Bool :=
  0xDC00 ≤ c.val && c.val ≤ 0xDFFF

def isDigit : Bool :=
  0x30 ≤ c.val && c.val ≤ 0x39

def digitValue : Nat :=
  c.val - 0x30

/-- The value of an ASCII hexadecimal digit of either case. -/
def hexValue? : Option Nat :=
  if c.isDigit then some (c.val - 0x30)
  else if 0x61 ≤ c.val && c.val ≤ 0x66 then some (c.val - 0x57)
  else if 0x41 ≤ c.val && c.val ≤ 0x46 then some (c.val - 0x37)
  else none

def isAsciiLetter : Bool :=
  (0x41 ≤ c.val && c.val ≤ 0x5A) || (0x61 ≤ c.val && c.val ≤ 0x7A)

/-- Whether `c` lies in one of the closed ranges. -/
def inRanges (rs : List (Nat × Nat)) (c : CodePoint) : Bool :=
  rs.any fun r => r.1 ≤ c.val && c.val ≤ r.2

/-- The code point numbered `n`, or NUL when there is none. -/
def ofNat (n : Nat) : CodePoint :=
  if h : n < 0x110000 then ⟨n, h⟩ else 0

/-- The decimal digit `n % 10`. -/
def ofDigit (n : Nat) : CodePoint :=
  ofNat (0x30 + n % 10)

end CodePoint

/-- The text of a string literal. -/
def text (s : String) : Text :=
  s.toList.map CodePoint.ofChar

namespace Text

variable (t : Text)

/-- Cuts `t` at each `sep`; there is always at least one piece. -/
def splitAt (sep : CodePoint) : Text → List Text
  | [] => [[]]
  | c :: r =>
    if c = sep then [] :: splitAt sep r
    else match splitAt sep r with
      | [] => [[c]]
      | p :: ps => (c :: p) :: ps

def joinWith (sep : Text) : List Text → Text
  | [] => []
  | [p] => p
  | p :: q :: ps => p ++ sep ++ joinWith sep (q :: ps)

def dropEndWhile (p : CodePoint → Bool) : Text :=
  (t.reverse.dropWhile p).reverse

/-- Removes the code points that satisfy `p` from both ends. -/
def trim (p : CodePoint → Bool) : Text :=
  dropEndWhile (t.dropWhile p) p

def replicate (n : Nat) (c : CodePoint) : Text :=
  List.replicate n c

def spaces (n : Nat) : Text :=
  List.replicate n ' '

/-- Every carriage return, alone or before a line feed, becomes one line feed. -/
def normalizeNewlines : Text → Text
  | [] => []
  | c :: r =>
    if c = '\r' then
      match r with
      | d :: r' => if d = '\n' then '\n' :: normalizeNewlines r' else '\n' :: normalizeNewlines (d :: r')
      | [] => ['\n']
    else c :: normalizeNewlines r

/-- The order by code points; a proper start of a text comes before it. -/
def less : Text → Text → Bool
  | _, [] => false
  | [], _ :: _ => true
  | a :: x, b :: y => a.val < b.val || (a = b && less x y)

/-- Lower case of the ASCII capitals only. -/
def lowerAscii (c : CodePoint) : CodePoint :=
  if 0x41 ≤ c.val && c.val ≤ 0x5A then CodePoint.ofNat (c.val + 32) else c

/-- The `width` low hexadecimal digits of `n`, in capitals if `upper`. -/
def hex (upper : Bool) : (width n : Nat) → Text
  | 0, _ => []
  | w + 1, n =>
    let d := n % 16
    hex upper w (n / 16) ++
      [CodePoint.ofNat (if d < 10 then 0x30 + d else if upper then 0x37 + d else 0x57 + d)]

end Text

end AnnotationCodec
