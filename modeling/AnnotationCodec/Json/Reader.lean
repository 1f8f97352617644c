import AnnotationCodec.Json.Error
import AnnotationCodec.Value.Order

/-!
Reading JSON. Every reader takes a text and returns what it read with the text that is left.
-/

namespace AnnotationCodec.Json

/-- Arrays and objects may be nested this deep. -/
def depthLimit : Nat :=
  990

def isSpace (c : CodePoint) : Bool :=
  c = ' ' || c = '\t' || c = '\n' || c = '\r'

def skipSpace (t : Text) : Text :=
  t.dropWhile isSpace

/-- The problem that is found at the start of `rest`. -/
def fail {α : Type} (p : Problem) (rest : Text) : Except Error α :=
  .error (.malformed p rest.length)

/-! Strings -/

/-- The number of four hexadecimal digits. -/
def hexFour? (a b c d : CodePoint) : Option Nat :=
  match a.hexValue?, b.hexValue?, c.hexValue?, d.hexValue? with
  | some a, some b, some c, some d => some (((a * 16 + b) * 16 + c) * 16 + d)
  | _, _, _, _ => none

/-- What a letter after a backslash stands for. -/
def unescape? (c : CodePoint) : Option CodePoint :=
  if c = '"' || c = '\\' || c = '/' then some c
  else if c = 'b' then some '\x08'
  else if c = 'f' then some '\x0C'
  else if c = 'n' then some '\n'
  else if c = 'r' then some '\r'
  else if c = 't' then some '\t'
  else none

/-- The code point that two surrogates encode. -/
def joinSurrogates (high low : Nat) : CodePoint :=
  CodePoint.ofNat (0x10000 + (high - 0xD800) * 0x400 + (low - 0xDC00))

/-- What stands at a place inside a string. -/
inductive Item
  | close
  /-- A code point, written in `width` of them. -/
  | point (c : CodePoint) (width : Nat)
  /-- A problem, found `offset` code points further on. -/
  | bad (problem : Problem) (offset : Nat)
  deriving DecidableEq, Repr

/-- A numbered escape of the high surrogate `high`, in front of `t`. A numbered escape of a low surrogate
joins with it; it must not be the end of the text. -/
def highItem (high : Nat) : Text → Item
  | b :: u :: e :: f :: g :: h :: _ :: _ =>
    if b = '\\' && u = 'u' then
      match hexFour? e f g h with
      | none => .bad .invalidUnicodeEscape 7
      | some low =>
        if (CodePoint.ofNat low).isLowSurrogate then .point (joinSurrogates high low) 12
        else .point (CodePoint.ofNat high) 6
    else .point (CodePoint.ofNat high) 6
  | _ => .point (CodePoint.ofNat high) 6

/-- A numbered escape, after its letter. It must not be the end of the text. -/
def numberedItem : Text → Item
  | a :: b :: c :: d :: e :: r =>
    match hexFour? a b c d with
    | none => .bad .invalidUnicodeEscape 1
    | some n =>
      if (CodePoint.ofNat n).isHighSurrogate then highItem n (e :: r)
      else .point (CodePoint.ofNat n) 6
  | _ => .bad .invalidUnicodeEscape 1

/-- What stands at the start of a text that is inside a string. -/
def item : Text → Item
  | [] => .bad .unterminatedString 0
  | c :: r =>
    if c = '"' then .close
    else if c = '\\' then
      match r with
      | [] => .bad .unterminatedString 0
      | e :: q =>
        if e = 'u' then numberedItem q
        else
          match unescape? e with
          | some p => .point p 2
          | none => .bad .invalidEscape 0
    else if c.val < 0x20 then .bad .controlCharacter 0
    else .point c 1

/-- The content of a string up to its closing quote. The first `skip` code points belong to an item that
was read; `left` code points were left at the opening quote. -/
def stringFrom (left : Nat) : (skip : Nat) → Text → Except Error (Text × Text)
  | _, [] => .error (.malformed .unterminatedString left)
  | skip + 1, _ :: r => stringFrom left skip r
  | 0, c :: r =>
    match item (c :: r) with
    | .close => .ok ([], r)
    | .point p width => (stringFrom left (width - 1) r).map fun (s, rest) => (p :: s, rest)
    | .bad .unterminatedString _ => .error (.malformed .unterminatedString left)
    | .bad problem offset => .error (.malformed problem (r.length + 1 - offset))

/-- Reads a string after its opening quote. -/
def string (t : Text) : Except Error (Text × Text) :=
  stringFrom (t.length + 1) 0 t

/-! Numbers -/

def digitSpan (t : Text) : Text × Text :=
  t.span CodePoint.isDigit

/-- The digits after a point; a point without digits is not read. -/
def fractionSpan (t : Text) : Text × Text :=
  match t with
  | c :: r =>
    if c = '.' then
      match digitSpan r with
      | ([], _) => ([], t)
      | (ds, rest) => (ds, rest)
    else ([], t)
  | [] => ([], [])

/-- The exponent after its mark; a mark without digits is not read. -/
def exponentSpan (t : Text) : Option Int × Text :=
  match t with
  | c :: r =>
    if c = 'e' || c = 'E' then
      let (negative, q) : Bool × Text :=
        match r with
        | s :: q => if s = '-' then (true, q) else if s = '+' then (false, q) else (false, s :: q)
        | [] => (false, [])
      match digitSpan q with
      | ([], _) => (none, t)
      | (ds, rest) =>
        let e : Int := Decimal.ofDigits ds
        (some (if negative then -e else e), rest)
    else (none, t)
  | [] => (none, [])

/-- The digits before the point: one zero, or digits that do not start with zero. -/
def wholeSpan (t : Text) : Text × Text :=
  match t with
  | c :: r => if c = '0' then ([c], r) else digitSpan (c :: r)
  | [] => ([], [])

/-- Reads the digits, the fraction and the exponent of a number. -/
def unsignedNumber (negative : Bool) (t : Text) : Option (Except Error (Value × Text)) :=
  match wholeSpan t with
  | ([], _) => none
  | (whole, rest) =>
    let (fraction, rest) := fractionSpan rest
    let (exponent, rest) := exponentSpan rest
    if fraction.isEmpty && exponent.isNone then
      if digitLimit < whole.length then some (.error (.tooManyDigits whole.length))
      else
        let n : Int := Decimal.ofDigits whole
        some (.ok (.int (if negative then -n else n), rest))
    else
      let x := Binary64.ofDecimal negative (Decimal.ofDigits (whole ++ fraction))
        (exponent.getD 0 - Int.ofNat fraction.length)
      some (.ok (.float x, rest))

/-- The words that stand for values. -/
def words : List (Text × Value) :=
  [(text "null", .null), (text "true", .bool true), (text "false", .bool false),
    (text "NaN", .float .nan), (text "Infinity", .float (.infinity false)),
    (text "-Infinity", .float (.infinity true))]

/-- Reads a word or a number. -/
def scalar (t : Text) : Except Error (Value × Text) :=
  match words.find? fun w => w.1.isPrefixOf t with
  | some (w, v) => .ok (v, t.drop w.length)
  | none =>
    let number :=
      match t with
      | c :: r => if c = '-' then unsignedNumber true r else unsignedNumber false (c :: r)
      | [] => none
    number.getD (fail .expectingValue t)

/-! Values -/

mutual

/-- Reads one value; `depth` more levels may be opened. -/
def value : (fuel depth : Nat) → Text → Except Error (Value × Text)
  | 0, _, _ => .error .tooDeep
  | fuel + 1, depth, t =>
    match t with
    | [] => fail .expectingValue []
    | c :: r =>
      if c = '"' then (string r).map fun (s, rest) => (.str s, rest)
      else if c = '[' then
        match depth with
        | 0 => .error .tooDeep
        | depth + 1 =>
          match skipSpace r with
          | [] => fail .expectingValue []
          | d :: q =>
            if d = ']' then .ok (.list [], q)
            else (elements fuel depth (d :: q)).map fun (xs, rest) => (.list xs, rest)
      else if c = '\x7b' then
        match depth with
        | 0 => .error .tooDeep
        | depth + 1 =>
          match skipSpace r with
          | [] => fail .expectingName []
          | d :: q =>
            if d = '\x7d' then .ok (.map [], q)
            else (members fuel depth [] (d :: q)).map fun (es, rest) => (.map es, rest)
      else scalar (c :: r)

/-- Reads the rest of an array from an element on. -/
def elements : (fuel depth : Nat) → Text → Except Error (List Value × Text)
  | 0, _, _ => .error .tooDeep
  | fuel + 1, depth, t =>
    match value fuel depth t with
    | .error e => .error e
    | .ok (v, rest) =>
      match skipSpace rest with
      | [] => fail .expectingComma []
      | c :: r =>
        if c = ']' then .ok ([v], r)
        else if c = ',' then (elements fuel depth (skipSpace r)).map fun (vs, rest) => (v :: vs, rest)
        else fail .expectingComma (c :: r)

/-- Reads the rest of an object from a name on, behind the members in `found`. -/
def members : (fuel depth : Nat) → (found : Entries) → Text → Except Error (Entries × Text)
  | 0, _, _, _ => .error .tooDeep
  | fuel + 1, depth, found, t =>
    match t with
    | [] => fail .expectingName []
    | q :: r =>
      if q = '"' then
        match string r with
        | .error e => .error e
        | .ok (name, rest) =>
          match skipSpace rest with
          | [] => fail .expectingColon []
          | c :: r =>
            if c = ':' then
              match value fuel depth (skipSpace r) with
              | .error e => .error e
              | .ok (v, rest) =>
                let found := found.set name v
                match skipSpace rest with
                | [] => fail .expectingComma []
                | d :: r =>
                  if d = '\x7d' then .ok (found, r)
                  else if d = ',' then members fuel depth found (skipSpace r)
                  else fail .expectingComma (d :: r)
            else fail .expectingColon (c :: r)
      else fail .expectingName (q :: r)

end

/-- Reads a whole text as one value with spaces around it. -/
def read (t : Text) : Except Error Value :=
  if t.head? = some ('\uFEFF' : CodePoint) then fail .byteOrderMark t
  else
    match value (2 * t.length + 2) depthLimit (skipSpace t) with
    | .error e => .error e
    | .ok (v, rest) =>
      match skipSpace rest with
      | [] => .ok v
      | c :: r => fail .extraData (c :: r)

end AnnotationCodec.Json
