import AnnotationCodec.Value.Basic

/-!
Places inside a value. A place is found by the numbers of the entries and items on the way to it, so that it
stays the same place when entries are added at the end of a map.
-/

namespace AnnotationCodec

abbrev Place := List Nat

namespace Value

/-- The parts of a value that have a place of their own: the items of a list and the values of a map. -/
def children : Value → List Value
  | .list vs | .tuple vs => vs
  | .map es => es.map Prod.snd
  | _ => []

/-- The value with its child number `i` replaced. -/
def setChild (v : Value) (i : Nat) (child : Value) : Value :=
  match v with
  | .list vs => .list (vs.set i child)
  | .tuple vs => .tuple (vs.set i child)
  | .map es => .map (es.modify i fun e => (e.1, child))
  | v => v

def at? : Place → Value → Option Value
  | [], v => some v
  | i :: p, v => v.children[i]?.bind (at? p)

/-- Replaces what is at a place, if there is something. -/
def putAt : Place → Value → Value → Value
  | [], new, _ => new
  | i :: p, new, v =>
    match v.children[i]? with
    | none => v
    | some child => v.setChild i (putAt p new child)

/-- Copies what is at `source` to the other places. A place that no longer holds a map is passed over: another value
was set there. -/
def copyTo (source : Place) (places : List Place) (v : Value) : Value :=
  match v.at? source with
  | none => v
  | some part => places.foldl (fun v p =>
      match v.at? p with
      | some (.map _) => if p = source then v else putAt p part v
      | _ => v) v

end Value

end AnnotationCodec
