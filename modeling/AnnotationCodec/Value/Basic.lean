import AnnotationCodec.Base64
import AnnotationCodec.Calendar
import AnnotationCodec.Descriptor
import AnnotationCodec.Number.Binary64

/-!
The values that manifests, annotation maps and configuration hold. A map keeps its entries in the order
of insertion; its keys are pairwise different.
-/

namespace AnnotationCodec

inductive Value
  | null
  | bool (b : Bool)
  | int (n : Int)
  | float (x : Binary64)
  | str (t : Text)
  | list (items : List Value)
  | tuple (items : List Value)
  | bytes (bs : List UInt8)
  | set (items : List Value)
  | date (d : Date)
  | dateTime (t : DateTime)
  | map (entries : List (Value × Value))
  | descriptor (d : Descriptor Value)

/-- The entries of a map, in the order of insertion. -/
abbrev Entries := List (Value × Value)

/-- The types of values, as error messages name them. -/
inductive Kind
  | null
  | bool
  | int
  | float
  | str
  | list
  | tuple
  | bytes
  | set
  | date
  | dateTime
  | map
  | descriptor (family : Family)
  deriving DecidableEq, Repr

namespace Kind

def label : Kind → Text
  | .null => text "NoneType"
  | .bool => text "bool"
  | .int => text "int"
  | .float => text "float"
  | .str => text "str"
  | .list => text "list"
  | .tuple => text "tuple"
  | .bytes => text "bytes"
  | .set => text "set"
  | .date => text "date"
  | .dateTime => text "datetime"
  | .map => text "dict"
  | .descriptor f => f.typeName

end Kind

namespace Value

def kind : Value → Kind
  | .null => .null
  | .bool _ => .bool
  | .int _ => .int
  | .float _ => .float
  | .str _ => .str
  | .list _ => .list
  | .tuple _ => .tuple
  | .bytes _ => .bytes
  | .set _ => .set
  | .date _ => .date
  | .dateTime _ => .dateTime
  | .map _ => .map
  | .descriptor d => .descriptor d.family

def isNull : Value → Bool
  | .null => true
  | _ => false

/-- What counts as true where a condition is a value: all but null, false, zero, and what is empty. -/
def isTruthy : Value → Bool
  | .null => false
  | .bool b => b
  | .int n => n != 0
  | .float x => !x.isZero
  | .str t => !t.isEmpty
  | .list xs | .tuple xs | .set xs => !xs.isEmpty
  | .bytes bs => !bs.isEmpty
  | .map es => !es.isEmpty
  | .date _ | .dateTime _ | .descriptor _ => true

/-- Only a value that holds nothing changeable can be a key of a map or an item of a set. -/
def isHashable : Value → Bool
  | .list _ | .set _ | .map _ => false
  | .tuple xs => all xs
  | .descriptor (.moniker ⟨a, b, c, d, e⟩) =>
    a.isHashable && b.isHashable && c.isHashable && d.isHashable && e.isHashable
  | .descriptor (.artifact ⟨a, b, c, d⟩) =>
    a.isHashable && b.isHashable && c.isHashable && d.isHashable
  | .descriptor (.relationships ⟨a, b⟩) => a.isHashable && b.isHashable
  | _ => true
where
  all : List Value → Bool
    | [] => true
    | x :: xs => x.isHashable && all xs

end Value

end AnnotationCodec
