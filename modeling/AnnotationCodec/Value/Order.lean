import AnnotationCodec.Value.Basic

/-!
Equality and order of values as keys of maps. Numbers of all types are compared by what they count, so
that one key may be written as an integer, a float or a truth value.
-/

namespace AnnotationCodec

/-- A number as a key: truth values count as one and zero. -/
inductive Amount
  | exact (n : Int)
  | binary (x : Binary64)

namespace Amount

/-- Two `nan` are the same key, though neither is ordered. -/
def same : Amount → Amount → Bool
  | .exact m, .exact n => m == n
  | .exact n, .binary x | .binary x, .exact n => x.compareInt? n == some .eq
  | .binary .nan, .binary .nan => true
  | .binary x, .binary y => x.compare? y == some .eq

def less : Amount → Amount → Bool
  | .exact m, .exact n => m < n
  | .exact n, .binary x => x.compareInt? n == some .gt
  | .binary x, .exact n => x.compareInt? n == some .lt
  | .binary x, .binary y => x.compare? y == some .lt

end Amount

namespace Value

def amount? : Value → Option Amount
  | .bool b => some (.exact (if b then 1 else 0))
  | .int n => some (.exact n)
  | .float x => some (.binary x)
  | _ => none

/-- Whether two values are one key. -/
def sameKey (x y : Value) : Bool :=
  match x, y with
  | .null, .null => true
  | .str s, .str t => s == t
  | .bytes a, .bytes b => a == b
  | .date a, .date b => a == b
  | .dateTime a, .dateTime b => a.offset.isSome == b.offset.isSome && a.instant == b.instant
  | .tuple xs, .tuple ys => all xs ys
  | x, y =>
    match x.amount?, y.amount? with
    | some a, some b => a.same b
    | _, _ => false
where
  all : List Value → List Value → Bool
    | [], [] => true
    | x :: xs, y :: ys => x.sameKey y && all xs ys
    | _, _ => false

def bytesLess : List UInt8 → List UInt8 → Bool
  | _, [] => false
  | [], _ :: _ => true
  | a :: x, b :: y => a.toNat < b.toNat || (a == b && bytesLess x y)

/-- Whether `x` comes before `y`; `none` where values of their types have no order. -/
def less? (x y : Value) : Option Bool :=
  match x, y with
  | .str s, .str t => some (s.less t)
  | .bytes a, .bytes b => some (bytesLess a b)
  | .date a, .date b => some (a.ordinal < b.ordinal)
  | .dateTime a, .dateTime b =>
    if a.offset.isSome == b.offset.isSome then some (a.instant < b.instant) else none
  | .tuple xs, .tuple ys => lexicographic xs ys
  | x, y =>
    match x.amount?, y.amount? with
    | some a, some b => some (a.less b)
    | _, _ => none
where
  lexicographic : List Value → List Value → Option Bool
    | _, [] => some false
    | [], _ :: _ => some true
    | x :: xs, y :: ys => if x.sameKey y then lexicographic xs ys else x.less? y

end Value

namespace Entries

section

variable {α : Type}

/-- Whether every two of the keys have an order. -/
def keysComparable : List (Value × α) → Bool
  | [] => true
  | e :: es => es.all (fun f => (e.1.less? f.1).isSome) && keysComparable es

/-- Puts an entry behind those whose keys do not come after its key. -/
def insertSorted (e : Value × α) : List (Value × α) → List (Value × α)
  | [] => [e]
  | f :: es => if e.1.less? f.1 = some true then e :: f :: es else f :: insertSorted e es

/-- The entries by ascending key, or in their own order where two keys cannot be compared. -/
def sorted (es : List (Value × α)) : List (Value × α) :=
  if keysComparable es then es.foldl (fun acc e => insertSorted e acc) [] else es

end

variable (es : Entries)

/-- The value at the text `key`. -/
def get? (key : Text) : Entries → Option Value
  | [] => none
  | (k, v) :: es =>
    match k with
    | .str t => if t = key then some v else get? key es
    | _ => get? key es

/-- Sets the value at the text `key`: in place if there is one, else at the end. -/
def set (key : Text) (value : Value) : Entries → Entries
  | [] => [(.str key, value)]
  | (k, v) :: es =>
    match k with
    | .str t => if t = key then (k, value) :: es else (k, v) :: set key value es
    | _ => (k, v) :: set key value es

def erase (key : Text) : Entries → Entries
  | [] => []
  | (k, v) :: es =>
    match k with
    | .str t => if t = key then es else (k, v) :: erase key es
    | _ => (k, v) :: erase key es

/-- Sets the value at any key. An equal key that is there keeps its place and its spelling. -/
def put (key value : Value) : Entries → Entries
  | [] => [(key, value)]
  | (k, v) :: es => if k.sameKey key then (k, value) :: es else (k, v) :: put key value es

end Entries

end AnnotationCodec
