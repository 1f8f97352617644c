import AnnotationCodec.Number.Integer
import AnnotationCodec.Value.Basic

/-! Which texts denote a text, a list of texts or an integer in JSON, said without the reader. -/
namespace AnnotationCodec.Json

/-- The letters that may follow a backslash, with what they stand for. -/
def shortEscapes : List (CodePoint × CodePoint) :=
  [('"', '"'), ('\\', '\\'), ('/', '/'), ('b', '\x08'), ('f', '\x0C'), ('n', '\n'), ('r', '\r'),
    ('t', '\t')]

/-- A hexadecimal digit of either case with its value. -/
def HexDigit (c : CodePoint) (n : Nat) : Prop :=
  (n < 10 ∧ c.val = 0x30 + n) ∨ (10 ≤ n ∧ n < 16 ∧ (c.val = 0x57 + n ∨ c.val = 0x37 + n))

/-- What one item of a literal stands for. A numbered unit may be one half of a code point. -/
inductive Mark
  | point (c : CodePoint)
  | unit (n : Nat)

/-- The ways to write one item between quotes. -/
inductive Spells : Text → Mark → Prop
  | plain {c : CodePoint} (hc : 0x20 ≤ c.val) (hq : c ≠ '"') (hb : c ≠ '\\') : Spells [c] (.point c)
  | short {e c : CodePoint} (h : (e, c) ∈ shortEscapes) : Spells ['\\', e] (.point c)
  | numbered {a b c d : CodePoint} {i j k l : Nat} (ha : HexDigit a i) (hb : HexDigit b j)
      (hc : HexDigit c k) (hd : HexDigit d l) :
      Spells ['\\', 'u', a, b, c, d] (.unit (((i * 16 + j) * 16 + k) * 16 + l))

/-- The items of a literal one after the other. -/
inductive Body : Text → List Mark → Prop
  | nil : Body [] []
  | cons {x t : Text} {m : Mark} {ms : List Mark} (hx : Spells x m) (ht : Body t ms) :
      Body (x ++ t) (m :: ms)

def IsHighUnit (n : Nat) : Prop := 0xD800 ≤ n ∧ n ≤ 0xDBFF

def IsLowUnit (n : Nat) : Prop := 0xDC00 ≤ n ∧ n ≤ 0xDFFF

instance (n : Nat) : Decidable (IsHighUnit n) := inferInstanceAs (Decidable (_ ∧ _))

instance (n : Nat) : Decidable (IsLowUnit n) := inferInstanceAs (Decidable (_ ∧ _))

/-- The text of marks, from left to right. A high unit and the low unit right behind it are one code point,
and every other unit is a code point of its own. -/
def denote : List Mark → Text
  | [] => []
  | .unit h :: .unit l :: ms =>
    if IsHighUnit h ∧ IsLowUnit l then
      CodePoint.ofNat (0x10000 + (h - 0xD800) * 0x400 + (l - 0xDC00)) :: denote ms
    else CodePoint.ofNat h :: denote (.unit l :: ms)
  | .unit n :: ms => CodePoint.ofNat n :: denote ms
  | .point c :: ms => c :: denote ms

example : denote [.unit 0xD83D, .unit 0xDE00, .unit 0xDE00, .unit 0xD83D, .point 'a'] =
    [CodePoint.ofNat 0x1F600, CodePoint.ofNat 0xDE00, CodePoint.ofNat 0xD83D, 'a'] := by
  decide

/-- A literal in quotes and the text it denotes. -/
def Literal (t s : Text) : Prop :=
  ∃ b ms, Body b ms ∧ t = text "\"" ++ b ++ text "\"" ∧ s = denote ms

/-- Spaces, tabs, line feeds and carriage returns. -/
def Blank (t : Text) : Prop :=
  ∀ c ∈ t, c = ' ' ∨ c = '\t' ∨ c = '\n' ∨ c = '\r'

/-- A literal between blanks. -/
def Padded (t s : Text) : Prop :=
  ∃ a l b, Blank a ∧ Literal l s ∧ Blank b ∧ t = a ++ l ++ b

/-- One or more padded literals with commas between them, and the texts they denote. -/
inductive Series : Text → List Text → Prop
  | one {t s : Text} (h : Padded t s) : Series t [s]
  | more {t s r : Text} {ss : List Text} (h : Padded t s) (hr : Series r ss) :
      Series (t ++ text "," ++ r) (s :: ss)

/-- A list of literals in brackets, empty or a series. -/
inductive Bracketed : Text → List Text → Prop
  | empty {b : Text} (h : Blank b) : Bracketed (text "[" ++ b ++ text "]") []
  | series {t : Text} {ss : List Text} (h : Series t ss) : Bracketed (text "[" ++ t ++ text "]") ss

/-- Decimal digits without a leading zero, and zero itself. -/
def Numeral (ds : Text) : Prop :=
  ds = text "0" ∨ ∃ d r, ds = d :: r ∧ 0x31 ≤ d.val ∧ d.val ≤ 0x39 ∧ ∀ c ∈ r, 0x30 ≤ c.val ∧ c.val ≤ 0x39

/-- The text of an integer: a numeral within the digit limit, perhaps behind a minus sign. -/
inductive Signed : Text → Int → Prop
  | plain {ds : Text} (h : Numeral ds) (hl : ds.length ≤ digitLimit) : Signed ds (Decimal.ofDigits ds)
  | minus {ds : Text} (h : Numeral ds) (hl : ds.length ≤ digitLimit) :
      Signed (text "-" ++ ds) (-(Decimal.ofDigits ds : Int))

/-- What a text denotes in a shape. Only blanks may stand around it. -/
inductive Denotes : Shape → Text → Value → Prop
  | string {a t b s : Text} (ha : Blank a) (h : Literal t s) (hb : Blank b) :
      Denotes .string (a ++ t ++ b) (.str s)
  | list {a t b : Text} {ss : List Text} (ha : Blank a) (h : Bracketed t ss) (hb : Blank b) :
      Denotes .list (a ++ t ++ b) (.list (ss.map .str))
  | integer {a t b : Text} {n : Int} (ha : Blank a) (h : Signed t n) (hb : Blank b) :
      Denotes .integer (a ++ t ++ b) (.int n)

end AnnotationCodec.Json
