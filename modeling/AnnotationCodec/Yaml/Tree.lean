import AnnotationCodec.Failure
import AnnotationCodec.Value.Order
import AnnotationCodec.Yaml.Tag

/-!
Values as trees of tagged nodes, which is how they are written. The entries of a map are sorted, where their
keys have an order.
-/

namespace AnnotationCodec.Yaml

inductive Tree
  /-- A scalar; `lines` asks for a block of lines. -/
  | scalar (tag : Tag) (text : Text) (lines : Bool)
  | sequence (items : List Tree)
  | mapping (tag : Tag) (entries : List (Tree × Tree))

namespace Tree

def word (tag : Tag) (s : String) : Tree :=
  .scalar tag (AnnotationCodec.text s) false

/-- A number is written with a point in front of its exponent. -/
def pointed (t : Text) : Text :=
  if List.contains t '.' then t
  else
    let (mantissa, exponent) := t.span fun (c : CodePoint) => c ≠ 'e'
    if exponent.isEmpty then t else mantissa ++ AnnotationCodec.text ".0" ++ exponent

def floatText (pointed : Text → Text) : Binary64 → Text
  | .nan => AnnotationCodec.text ".nan"
  | .infinity negative => AnnotationCodec.text (if negative then "-.inf" else ".inf")
  | x => pointed x.write

/-- Encoded bytes end with a line break, unless there are none. -/
def bytesText (bs : List UInt8) : Text :=
  (Base64.lines bs).flatMap fun line => line ++ AnnotationCodec.text "\n"

/-- The results in a list, or the first failure in it. -/
def collect {α : Type} : List (Except Failure α) → Except Failure (List α)
  | [] => .ok []
  | r :: rs => do
    let a ← r
    let as ← collect rs
    return a :: as

end Tree

/-- How numbers and words are written and read. -/
structure Dialect where
  /-- The tag of a plain scalar. -/
  plainTag : Text → Tag
  /-- How the text of a number is completed. -/
  floatText : Text → Text
  /-- Whether characters beyond ASCII stand for themselves. -/
  unicode : Bool
  /-- Whether double quotes are taken for texts with a quote or a break in them. -/
  prefersDouble : Bool
  /-- Whether an empty text can be a key on the line of its value, and a block of no lines. -/
  allowsEmpty : Bool
  /-- Whether words keep to the width of a line. -/
  tight : Bool

namespace Dialect

/-- How documents are written. -/
def document : Dialect :=
  ⟨Tag.ofPlain, Tree.pointed, false, false, false, false⟩

/-- How the arguments of verbose messages are written. -/
def message : Dialect :=
  ⟨Tag.ofPlainStrict, id, true, true, true, true⟩

end Dialect

namespace Tree

/-- The tree of a value. A descriptor has none, nor has an integer beyond the digit limit. -/
def ofValue (dialect : Dialect) : Value → Except Failure Tree
  | .null => .ok (word .null "null")
  | .bool b => .ok (word .bool (if b then "true" else "false"))
  | .int n => ((Integer.write n).mapError fun _ => Failure.unwritable).map fun t => .scalar .int t false
  | .float x => .ok (.scalar .float (floatText dialect.floatText x) false)
  | .str t => .ok (.scalar .str t false)
  | .list vs => (collect (items vs)).map .sequence
  | .tuple vs => (collect (items vs)).map .sequence
  | .bytes bs => .ok (.scalar .binary (bytesText bs) true)
  | .set vs =>
    (collect ((Entries.sorted (vs.zip (items vs))).map Prod.snd)).map fun ts =>
      .mapping .set (ts.map fun t => (t, word .null "null"))
  | .date d => .ok (.scalar .timestamp d.iso false)
  | .dateTime t => .ok (.scalar .timestamp (t.iso ' ') false)
  | .map es => (collect ((Entries.sorted (entries es)).map Prod.snd)).map (.mapping .map)
  | .descriptor _ => .error (.document .representation)
where
  items : List Value → List (Except Failure Tree)
    | [] => []
    | v :: vs => ofValue dialect v :: items vs
  /-- The entries with their keys as values, by which they are sorted. -/
  entries : List (Value × Value) → List (Value × Except Failure (Tree × Tree))
    | [] => []
    | (k, v) :: es =>
      (k, do
        let key ← ofValue dialect k
        let value ← ofValue dialect v
        return (key, value)) :: entries es

end Tree

end AnnotationCodec.Yaml
