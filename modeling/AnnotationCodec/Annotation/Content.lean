import AnnotationCodec.Failure
import AnnotationCodec.Json.Writer

/-!
What an annotation can hold: a text, a list of texts or an integer. `Content.ofValue` checks a value against
a shape and `Content.write` gives the JSON text that is stored.
-/

namespace AnnotationCodec

inductive Content
  | string (t : Text)
  | list (ts : List Text)
  | integer (n : Int)
  deriving DecidableEq, Repr

namespace Content

def shape : Content → Shape
  | .string _ => .string
  | .list _ => .list
  | .integer _ => .integer

def toValue : Content → Value
  | .string t => .str t
  | .list ts => .list (ts.map .str)
  | .integer n => .int n

/-- The texts of a list, the first of which has the given index. -/
def textsFrom (index : Nat) : List Value → Except Reason (List Text)
  | [] => .ok []
  | .str t :: vs => (textsFrom (index + 1) vs).map (t :: ·)
  | v :: _ => .error (.item index v)

/-- The content that a value of the shape is. Truth values are no integers. -/
def ofValue (shape : Shape) (v : Value) : Except Reason Content :=
  match shape, v with
  | .string, .str t => .ok (.string t)
  | .list, .list vs => (textsFrom 0 vs).map .list
  | .integer, .int n => .ok (.integer n)
  | _, _ => .error (.shape shape v)

/-- The JSON text of a content; an integer beyond the digit limit has none. -/
def write : Content → Except Integer.WriteError Text
  | .string t => .ok (Json.writeString t)
  | .list ts => .ok (Json.writeStrings ts)
  | .integer n => Integer.write n

theorem textsFrom_map_str (index : Nat) (ts : List Text) :
    textsFrom index (ts.map .str) = .ok ts := by
  induction ts generalizing index with
  | nil => rfl
  | cons t ts ih => simp [textsFrom, ih, Except.map]

theorem ofValue_toValue (c : Content) : ofValue c.shape c.toValue = .ok c := by
  cases c <;> simp [ofValue, shape, toValue, textsFrom_map_str, Except.map]

theorem eq_map_of_textsFrom {index : Nat} {vs : List Value} {ts : List Text}
    (h : textsFrom index vs = .ok ts) : vs = ts.map .str := by
  induction vs generalizing index ts with
  | nil =>
    cases h
    rfl
  | cons v vs ih =>
    cases v <;> simp only [textsFrom, reduceCtorEq] at h
    cases hr : textsFrom (index + 1) vs with
    | error e => simp [hr, Except.map] at h
    | ok us =>
      simp only [hr, Except.map, Except.ok.injEq] at h
      subst h
      simp [ih hr]

end Content

end AnnotationCodec
