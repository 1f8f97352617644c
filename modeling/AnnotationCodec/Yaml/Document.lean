import AnnotationCodec.Value.Order
import AnnotationCodec.Value.Place
import AnnotationCodec.Yaml.Lexer
import AnnotationCodec.Yaml.NodeReader
import AnnotationCodec.Yaml.Scalar

/-!
The values of documents. A mapping takes over the entries of the mappings that it merges, and its own entries
win. Nodes are looked at level by level: of several nodes without a value, the first one of the uppermost level
decides.
-/

namespace AnnotationCodec.Yaml

/-- A value with the places of the maps in it, by the numbers of their nodes. A value that is `endless` holds
itself somewhere. -/
structure Built where
  value : Value
  maps : List (Nat × Place)
  endless : Bool

/-- Why a node has no value, and the level at which that shows. -/
structure Misfit where
  level : Nat
  failure : Failure

namespace Built

def leaf (v : Value) : Built :=
  ⟨v, [], false⟩

/-- The maps of a child, as places of its parent. -/
def mapsAt (i : Nat) (b : Built) : List (Nat × Place) :=
  b.maps.map fun (n, p) => (n, i :: p)

def allMapsFrom (i : Nat) : List Built → List (Nat × Place)
  | [] => []
  | b :: bs => b.mapsAt i ++ allMapsFrom (i + 1) bs

/-- A value that is made of parts. -/
def ofParts (v : Value) (parts : List Built) : Built :=
  ⟨v, allMapsFrom 0 parts, parts.any Built.endless⟩

def list (parts : List Built) : Built :=
  ofParts (.list (parts.map Built.value)) parts

def pair (k v : Built) : Built :=
  ofParts (.tuple [k.value, v.value]) [k, v]

/-- Sets the value of a key. An equal key that is there keeps its place. -/
def put (key : Value) (part : Built) : List (Value × Built) → List (Value × Built)
  | [] => [(key, part)]
  | (k, p) :: es => if k.sameKey key then (k, part) :: es else (k, p) :: put key part es

/-- The map of a node. -/
def map (number : Nat) (entries : List (Value × Built)) : Built :=
  let b := ofParts (.map (entries.map fun (k, p) => (k, p.value))) (entries.map Prod.snd)
  { b with maps := (number, []) :: b.maps }

def set (keys : List Value) : Built :=
  leaf (.set keys)

end Built

namespace Node

/-- The text of a node that stands for a scalar. A mapping does, if it has a value for the key `=`. -/
def text? : Node → Option Text
  | .scalar _ t => some t
  | .mapping _ _ es => valueText es
  | _ => none
where
  valueText : List (Node × Node) → Option Text
    | [] => none
    | (k, v) :: es => if k.tag? = some .value then v.text? else valueText es

/-- The value of a node that stands for a scalar. A timestamp is a scalar itself. -/
def scalarValue (tag : Tag) (n : Node) : Except Failure Value :=
  match n.text? with
  | none => noValue
  | some t =>
    match tag, n with
    | .timestamp, .mapping _ _ _ => .error .unsupported
    | tag, _ => Scalar.value tag t

/-- The entries of a mapping behind those that it merges. Of several merged mappings the first one wins. -/
def flatten : List (Node × Node) → Except Failure (List (Node × Node))
  | es => do
    let (merged, own) ← parts es
    return merged ++ own
where
  /-- The merged entries and the other ones. -/
  parts : List (Node × Node) → Except Failure (List (Node × Node) × List (Node × Node))
    | [] => .ok ([], [])
    | (k, v) :: es =>
      if k.tag? = some .merge then do
        let found ← source v
        let (merged, own) ← parts es
        return (found ++ merged, own)
      else do
        let (merged, own) ← parts es
        let k := if k.tag? = some .value then k.setTag .str else k
        return (merged, (k, v) :: own)
  /-- The entries of what is merged: a mapping, or several of them. -/
  source : Node → Except Failure (List (Node × Node))
    | .mapping _ _ es => do
      let (merged, own) ← parts es
      return merged ++ own
    | .sequence _ xs => sources xs
    | .loop => .ok []
    | .scalar _ _ => noValue
  sources : List Node → Except Failure (List (Node × Node))
    | [] => .ok []
    | .mapping _ _ es :: xs => do
      let (merged, own) ← parts es
      let others ← sources xs
      return others ++ (merged ++ own)
    | _ :: _ => noValue

/-- The uppermost of two failures, the first one if they are on one level. -/
def worse (a b : Misfit) : Misfit :=
  if b.level < a.level then b else a

/-- Both results, or the failure that decides. -/
def both {α β : Type} (x : Except Misfit α) (y : Except Misfit β) : Except Misfit (α × β) :=
  match x, y with
  | .ok a, .ok b => .ok (a, b)
  | .error e, .ok _ => .error e
  | .ok _, .error e => .error e
  | .error e, .error f => .error (worse e f)

/-- All results, or the failure that decides. -/
def every {α : Type} : List (Except Misfit α) → Except Misfit (List α)
  | [] => .ok []
  | x :: xs => (both x (every xs)).map fun (a, as) => a :: as

/-- The key of an entry; it must be hashable. -/
def keyOf (level : Nat) (b : Except Misfit Built) : Except Misfit Value :=
  match b with
  | .error e => .error e
  | .ok b => if b.value.isHashable && !b.endless then .ok b.value else .error ⟨level, .document .node⟩

/-- Whether a node becomes a list, a set or a map, which is no key whatever is in it. -/
def isCollection (n : Node) : Bool :=
  match n.tag? with
  | some .seq | some .map | some .set | some .omap | some .pairs | none => true
  | _ => false

/-- The value of a node that is looked at on a level, and whose content is on the next one. -/
def build : (fuel : Nat) → (level : Nat) → Node → Except Misfit Built
  | 0, level, _ => .error ⟨level, .tooDeep⟩
  | fuel + 1, level, n =>
    let inner := level + 1
    let misfit {α : Type} (f : Failure) : Except Misfit α := .error ⟨inner, f⟩
    let key (k : Node) : Except Misfit Value :=
      if k.isCollection then misfit (.document .node) else keyOf inner (build fuel inner k)
    let entry (e : Node × Node) : Except Misfit (Value × Built) :=
      both (key e.1) (build fuel inner e.2)
    let entries (es : List (Node × Node)) : Except Misfit (List (Value × Built)) :=
      match flatten es with
      | .error f => misfit f
      | .ok es => (every (es.map entry)).map fun ps => ps.foldl (fun acc (k, p) => Built.put k p acc) []
    let single (n : Node) : Except Misfit Built :=
      match n with
      | .mapping _ _ [(k, v)] =>
        (both (build fuel inner k) (build fuel inner v)).map fun (k, v) => Built.pair k v
      | _ => misfit (.document .node)
    match n with
    | .loop => .ok ⟨.null, [], true⟩
    | n =>
      match n.tag?, n with
      | some .seq, .sequence _ xs => (every (xs.map (build fuel inner))).map Built.list
      | some .map, .mapping number _ es => (entries es).map (Built.map number)
      | some .set, .mapping _ _ es => (entries es).map fun ps => Built.set (ps.map Prod.fst)
      | some .omap, .sequence _ xs | some .pairs, .sequence _ xs => (every (xs.map single)).map Built.list
      | some tag, n =>
        if n.isCollection then misfit (.document .node)
        else
          match n.scalarValue tag with
          | .ok v => .ok (.leaf v)
          | .error f => .error ⟨level, f⟩
      | none, _ => .error ⟨level, .document .node⟩

end Node

/-- A document. `shared` lists the places that hold one and the same map. -/
structure Document where
  value : Value
  shared : List (List Place)
  endless : Bool

namespace Document

/-- The places of each map that has more than one. -/
def sharedPlaces (maps : List (Nat × Place)) : List (List Place) :=
  let numbers := (maps.map Prod.fst).eraseDups
  let groups := numbers.map fun n => (maps.filter fun e => e.1 = n).map Prod.snd
  groups.filter fun g => 1 < g.length

def ofNode (n : Node) : Except Failure Document :=
  match n.build n.depth 0 with
  | .error e => .error e.failure
  | .ok b => .ok ⟨b.value, sharedPlaces b.maps, b.endless⟩

end Document

/-- What is left of a stream of documents. -/
structure Stream where
  reading : Reading
  first : Bool

namespace Stream

/-- The stream of a text, which may hold only certain characters. -/
def ofText (t : Text) : Except Failure Stream :=
  if t.all CodePoint.isDocumentChar then .ok ⟨.start (Token.ofText t), true⟩
  else .error (.document .character)

/-- Reads the node of the next document; there may be none. -/
def node? (s : Stream) : Except Failure (Option (Node × Stream)) :=
  (if s.first then s.reading.firstDocument else s.reading.markedDocument).map fun found =>
    found.map fun (n, r) => (n, ⟨r, false⟩)

/-- Reads the next document. -/
def next? (s : Stream) : Except Failure (Option (Document × Stream)) := do
  match ← s.node? with
  | none => return none
  | some (n, rest) =>
    let d ← Document.ofNode n
    return some (d, rest)

/-- More than there are documents. -/
def fuel (s : Stream) : Nat :=
  s.reading.tokens.length + 1

/-- Reads the only document of a stream; an empty stream holds none. -/
def single? (s : Stream) : Except Failure (Option Document) := do
  match ← s.node? with
  | none => return none
  | some (n, rest) =>
    match ← rest.reading.openDocument with
    | some _ => .error (.document .composition)
    | none => return some (← Document.ofNode n)

end Stream

end AnnotationCodec.Yaml
