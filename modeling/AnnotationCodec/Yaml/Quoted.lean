import AnnotationCodec.Yaml.Cursor

/-!
Reading scalars in quotes. In single quotes a quote is written twice; in double quotes there are escapes.
Line breaks are folded: one break is a space, and of more breaks the first is dropped.
-/

namespace AnnotationCodec.Yaml

namespace Quoted

/-- What the letters of short escapes stand for. -/
def escapes : List (Char × Nat) :=
  [('0', 0x00), ('a', 0x07), ('b', 0x08), ('t', 0x09), ('\t', 0x09), ('n', 0x0A), ('v', 0x0B),
    ('f', 0x0C), ('r', 0x0D), ('e', 0x1B), (' ', 0x20), ('"', 0x22), ('\\', 0x5C), ('/', 0x2F),
    ('N', 0x85), ('_', 0xA0), ('L', 0x2028), ('P', 0x2029)]

/-- The number of digits behind the letters of numbered escapes. -/
def escapeWidth? (c : CodePoint) : Option Nat :=
  if c = 'x' then some 2 else if c = 'u' then some 4 else if c = 'U' then some 8 else none

/-- The code point of a numbered escape. -/
def numbered (digits : Text) : Except Failure CodePoint :=
  match digits.mapM CodePoint.hexValue? with
  | none => noToken
  | some ds =>
    let n := Decimal.value 16 ds
    if 0x7FFFFFFF < n then .error .overflow
    else if 0x110000 ≤ n then .error .codePointRange
    else .ok (CodePoint.ofNat n)

/-- Goes over line breaks and the spaces around them, and gives the breaks. No mark between documents may
stand at the start of a line. -/
def breaks : (fuel : Nat) → Cursor → Except Failure (Text × Cursor)
  | 0, c => .ok ([], c)
  | fuel + 1, c =>
    if c.seesSeparator then noToken
    else
      let c := c.skipWhile fun d => d = ' ' || d = '\t'
      match c.lineBreak? with
      | none => .ok ([], c)
      | some (b, c) => (breaks fuel c).map fun (bs, c) => (b :: bs, c)

/-- Line breaks, folded. -/
def folded (first : CodePoint) (others : Text) : Text :=
  if first ≠ '\n' then first :: others
  else if others.isEmpty then text " "
  else others

/-- Reads the characters between gaps. -/
def solid (double : Bool) : (fuel : Nat) → Cursor → Except Failure (Text × Cursor)
  | 0, c => .ok ([], c)
  | fuel + 1, c =>
    match c.rest with
    | [] => .ok ([], c)
    | d :: r =>
      if d.isGap then .ok ([], c)
      else if double && d = '"' then .ok ([], c)
      else if !double && d = '\'' then
        if r.head? = some ('\'' : CodePoint) then
          (solid double fuel (c.skip 2)).map fun (t, c) => ('\'' :: t, c)
        else .ok ([], c)
      else if double && d = '\\' then
        match r with
        | [] => noToken
        | e :: r =>
          match escapes.find? fun x => CodePoint.ofChar x.1 = e, escapeWidth? e with
          | some x, _ => (solid double fuel (c.skip 2)).map fun (t, c) => (CodePoint.ofNat x.2 :: t, c)
          | none, some width => do
            if r.length < width then noToken
            else
              let p ← numbered (r.take width)
              let (t, c) ← solid double fuel (c.skip (2 + width))
              return (p :: t, c)
          | none, none =>
            match c.next.lineBreak? with
            | none => noToken
            | some (_, c) => do
              let (bs, c) ← breaks fuel c
              let (t, c) ← solid double fuel c
              return (bs ++ t, c)
      else (solid double fuel c.next).map fun (t, c) => (d :: t, c)

/-- Reads a gap; the text must go on behind it. -/
def gap (fuel : Nat) (c : Cursor) : Except Failure (Text × Cursor) :=
  let (spaces, c) := c.takeWhile fun d => d = ' ' || d = '\t'
  match c.lineBreak? with
  | some (b, c) => (breaks fuel c).map fun (bs, c) => (folded b bs, c)
  | none => if c.rest.isEmpty then noToken else .ok (spaces, c)

/-- Reads on to the closing quote and goes over it. -/
def close (quote : CodePoint) (double : Bool) : (fuel : Nat) → Cursor → Except Failure (Text × Cursor)
  | 0, _ => noToken
  | fuel + 1, c => do
    let (t, c) ← solid double (fuel + 1) c
    if c.sees (fun d => d = quote) then return (t, c.next)
    else
      let (g, c) ← gap (fuel + 1) c
      let (u, c) ← close quote double fuel c
      return (t ++ g ++ u, c)

/-- Reads a scalar in quotes, at its opening quote. -/
def read (double : Bool) (c : Cursor) : Except Failure (Text × Cursor) :=
  close (if double then '"' else '\'') double (c.rest.length + 1) c.next

end Quoted

end AnnotationCodec.Yaml
