import AnnotationCodec.Yaml.Node
import AnnotationCodec.Yaml.Token

/-!
Reading nodes from tokens, one document after the other. Anchors are known within their document, and tag
handles are introduced by the directives in front of it.
-/

namespace AnnotationCodec.Yaml

/-- The tokens form no document. -/
def noStructure {α : Type} : Except Failure α :=
  .error (.document .grammar)

/-- What is left to read, and what the names in it stand for. -/
structure Reading where
  tokens : List Token
  /-- The nodes by their anchors; a node that is not complete yet is missing. -/
  anchors : List (Text × Option Node)
  handles : List (Text × Text)
  /-- The number of mappings so far. -/
  count : Nat

namespace Reading

/-- The handles that every document knows. -/
def commonHandles : List (Text × Text) :=
  [(text "!", text "!"), (text "!!", Tag.standardStart)]

def start (tokens : List Token) : Reading :=
  ⟨tokens, [], commonHandles, 0⟩

variable (r : Reading)

/-- The next token. -/
def peek : Except Failure Token :=
  match r.tokens with
  | [] => noStructure
  | .invalid f :: _ => .error f
  | t :: _ => .ok t

/-- Goes over the next token. -/
def next : Reading :=
  { r with tokens := r.tokens.drop 1 }

/-! Names -/

/-- What a tag stands for. -/
def resolve (name : TagName) : Except Failure Text :=
  match name.handle with
  | none => .ok name.suffix
  | some h =>
    match r.handles.find? fun e => e.1 = h with
    | some e => .ok (e.2 ++ name.suffix)
    | none => noStructure

/-- The node of an alias. -/
def aliased (name : Text) : Except Failure Node :=
  match r.anchors.find? fun e => e.1 = name with
  | none => .error (.document .composition)
  | some (_, none) => .ok .loop
  | some (_, some n) => .ok n

/-- The anchor and the tag in front of a node. -/
structure Properties where
  anchor : Option Text
  tag : Option Text

namespace Properties

def isEmpty (p : Properties) : Bool :=
  p.anchor.isNone && p.tag.isNone

/-- A tag that leaves the type to the node. -/
def isOpen (p : Properties) : Bool :=
  p.tag.all fun t => t = text "!"

/-- The tag of a collection that has one of its own by default. -/
def collectionTag (p : Properties) (default : Tag) : Tag :=
  match p.tag with
  | none => default
  | some t => if t = text "!" then default else Tag.ofUri t

/-- The tag of a scalar; only a plain one is looked at, unless its tag says so. -/
def scalarTag (p : Properties) (content : Text) (isPlain : Bool) : Tag :=
  match p.tag with
  | none => if isPlain then Tag.ofPlain content else .str
  | some t => if t = text "!" then Tag.ofPlain (withoutBreak content) else Tag.ofUri t
where
  /-- A line break at the end does no harm, if something is in front of it. -/
  withoutBreak (t : Text) : Text :=
    if 1 < t.length && t.getLast? = some ('\n' : CodePoint) then t.dropLast else t

end Properties

/-- Reads the anchor and the tag, in any order. -/
def properties : Except Failure (Properties × Reading) := do
  match ← r.peek with
  | .anchor a =>
    let r := r.next
    match ← r.peek with
    | .tag name =>
      let t ← r.resolve name
      return (⟨some a, some t⟩, r.next)
    | _ => return (⟨some a, none⟩, r)
  | .tag name =>
    let r := r.next
    let (a, r) ← (do
      match ← r.peek with
      | .anchor a => return (some a, r.next)
      | _ => return (none, r) : Except Failure (Option Text × Reading))
    let t ← r.resolve name
    return (⟨a, some t⟩, r)
  | _ => return (⟨none, none⟩, r)

/-- Makes an anchor known, which must be new; its node is not complete yet. -/
def declare (p : Properties) : Except Failure Reading :=
  match p.anchor with
  | none => .ok r
  | some a =>
    if r.anchors.any fun e => e.1 = a then .error (.document .composition)
    else .ok { r with anchors := (a, none) :: r.anchors }

/-- Gives an anchor its node. -/
def complete (p : Properties) (n : Node) : Node × Reading :=
  match p.anchor with
  | none => (n, r)
  | some a =>
    (n, { r with anchors := r.anchors.map fun e => if e.1 = a then (a, some n) else e })

def scalar (p : Properties) (content : Text) (isPlain : Bool) : Except Failure (Node × Reading) := do
  let r ← r.declare p
  return r.complete p (.scalar (p.scalarTag content isPlain) content)

/-! Tokens that end an empty node -/

def endsItem : Token → Bool
  | .blockEntry | .blockEnd => true
  | _ => false

def endsLooseItem : Token → Bool
  | .blockEntry | .key | .value | .blockEnd => true
  | _ => false

def endsBlockPart : Token → Bool
  | .key | .value | .blockEnd => true
  | _ => false

def endsFlowKey (close : Token → Bool) : Token → Bool
  | .value | .flowEntry => true
  | t => close t

def endsFlowValue (close : Token → Bool) : Token → Bool
  | .flowEntry => true
  | t => close t

def closesSequence : Token → Bool
  | .flowSequenceEnd => true
  | _ => false

def closesMapping : Token → Bool
  | .flowMappingEnd => true
  | _ => false

/-- Goes over the comma between two items; `t` is the next token. -/
def separated (first : Bool) (t : Token) (r : Reading) : Except Failure Reading :=
  if first then .ok r
  else
    match t with
    | .flowEntry => .ok r.next
    | _ => noStructure

/-- Where a node stands: in brackets, in a block, or in a block where a sequence need not be indented. -/
inductive Place
  | flow
  | block
  | loose
  deriving DecidableEq, Repr

mutual

/-- Reads a node. -/
def node (place : Place) : (fuel : Nat) → Reading → Except Failure (Node × Reading)
  | 0, _ => .error .tooDeep
  | fuel + 1, r => do
    match ← r.peek with
    | .alias name =>
      let n ← r.aliased name
      return (n, r.next)
    | _ =>
      let (p, r) ← r.properties
      match ← r.peek with
      | .scalar content isPlain => r.next.scalar p content isPlain
      | .flowSequenceStart =>
        let r ← r.declare p
        let (xs, r) ← flowItems true fuel r.next
        return r.complete p (.sequence (p.collectionTag .seq) xs)
      | .flowMappingStart =>
        let r ← r.declare p
        let number := r.count
        let (es, r) ← flowEntries true fuel { r.next with count := number + 1 }
        return r.complete p (.mapping number (p.collectionTag .map) es)
      | t => blockNode place p fuel r t

/-- Reads a node in a block, behind its properties; `t` is the next token. -/
def blockNode (place : Place) (p : Properties) :
    (fuel : Nat) → Reading → Token → Except Failure (Node × Reading)
  | 0, _, _ => .error .tooDeep
  | fuel + 1, r, t =>
    match place, t with
    | .loose, .blockEntry => do
      let r ← r.declare p
      let (xs, r) ← looseItems fuel r
      return r.complete p (.sequence (p.collectionTag .seq) xs)
    | .block, .blockSequenceStart | .loose, .blockSequenceStart => do
      let r ← r.declare p
      let (xs, r) ← blockItems fuel r.next
      return r.complete p (.sequence (p.collectionTag .seq) xs)
    | .block, .blockMappingStart | .loose, .blockMappingStart => do
      let r ← r.declare p
      let number := r.count
      let (es, r) ← blockEntries fuel { r.next with count := number + 1 }
      return r.complete p (.mapping number (p.collectionTag .map) es)
    | _, _ => if p.isEmpty then noStructure else r.scalar p [] p.isOpen

/-- Reads a node, or an empty one in front of a token that `ends` it. -/
def optional (place : Place) (ends : Token → Bool) :
    (fuel : Nat) → Reading → Except Failure (Node × Reading)
  | 0, _ => .error .tooDeep
  | fuel + 1, r => do
    if ends (← r.peek) then return (.empty, r) else node place fuel r

/-- Reads the items of a block up to its end. -/
def blockItems : (fuel : Nat) → Reading → Except Failure (List Node × Reading)
  | 0, _ => .error .tooDeep
  | fuel + 1, r => do
    match ← r.peek with
    | .blockEntry =>
      let (x, r) ← optional .block endsItem fuel r.next
      let (xs, r) ← blockItems fuel r
      return (x :: xs, r)
    | .blockEnd => return ([], r.next)
    | _ => noStructure

/-- Reads items that are not indented, up to the next token that is none. -/
def looseItems : (fuel : Nat) → Reading → Except Failure (List Node × Reading)
  | 0, _ => .error .tooDeep
  | fuel + 1, r => do
    match ← r.peek with
    | .blockEntry =>
      let (x, r) ← optional .block endsLooseItem fuel r.next
      let (xs, r) ← looseItems fuel r
      return (x :: xs, r)
    | _ => return ([], r)

/-- Reads the entries of a block up to its end. -/
def blockEntries : (fuel : Nat) → Reading → Except Failure (List (Node × Node) × Reading)
  | 0, _ => .error .tooDeep
  | fuel + 1, r => do
    match ← r.peek with
    | .key =>
      let (k, r) ← optional .loose endsBlockPart fuel r.next
      let (v, r) ← value .loose endsBlockPart fuel r
      let (es, r) ← blockEntries fuel r
      return ((k, v) :: es, r)
    | .blockEnd => return ([], r.next)
    | _ => noStructure

/-- Reads the value of an entry, which may be missing. -/
def value (place : Place) (ends : Token → Bool) :
    (fuel : Nat) → Reading → Except Failure (Node × Reading)
  | 0, _ => .error .tooDeep
  | fuel + 1, r => do
    match ← r.peek with
    | .value => optional place ends fuel r.next
    | _ => return (.empty, r)

/-- Reads the items in brackets, behind the opening one if `first`. An item may be a single entry. -/
def flowItems (first : Bool) : (fuel : Nat) → Reading → Except Failure (List Node × Reading)
  | 0, _ => .error .tooDeep
  | fuel + 1, r => do
    match ← r.peek with
    | .flowSequenceEnd => return ([], r.next)
    | t =>
      let r ← separated first t r
      match ← r.peek with
      | .flowSequenceEnd => return ([], r.next)
      | .key =>
        let number := r.count
        let r := { r.next with count := number + 1 }
        let (k, r) ← optional .flow (endsFlowKey closesSequence) fuel r
        let (v, r) ← value .flow (endsFlowValue closesSequence) fuel r
        let (xs, r) ← flowItems false fuel r
        return (.mapping number .map [(k, v)] :: xs, r)
      | _ =>
        let (x, r) ← node .flow fuel r
        let (xs, r) ← flowItems false fuel r
        return (x :: xs, r)

/-- Reads the entries in braces, behind the opening one if `first`. An entry may be a key alone. -/
def flowEntries (first : Bool) : (fuel : Nat) → Reading → Except Failure (List (Node × Node) × Reading)
  | 0, _ => .error .tooDeep
  | fuel + 1, r => do
    match ← r.peek with
    | .flowMappingEnd => return ([], r.next)
    | t =>
      let r ← separated first t r
      match ← r.peek with
      | .flowMappingEnd => return ([], r.next)
      | .key =>
        let (k, r) ← optional .flow (endsFlowKey closesMapping) fuel r.next
        let (v, r) ← value .flow (endsFlowValue closesMapping) fuel r
        let (es, r) ← flowEntries false fuel r
        return ((k, v) :: es, r)
      | _ =>
        let (k, r) ← node .flow fuel r
        let _ ← r.peek
        let (es, r) ← flowEntries false fuel r
        return ((k, .empty) :: es, r)

end

/-! Documents -/

/-- Reads the directives in front of a document. There is one version at most, and a handle is introduced once. -/
def directives : (version : Bool) → (handles : List (Text × Text)) → (fuel : Nat) → Reading →
    Except Failure Reading
  | _, _, 0, _ => .error .tooDeep
  | version, handles, fuel + 1, r => do
    match ← r.peek with
    | .directive (.version major) =>
      if version || major ≠ 1 then noStructure else directives true handles fuel r.next
    | .directive (.tag handle start) =>
      if handles.any fun e => e.1 = handle then noStructure
      else directives version ((handle, start) :: handles) fuel r.next
    | .directive .other => directives version handles fuel r.next
    | _ => return { r with handles := handles ++ commonHandles }

/-- Goes over the marks of the ends of documents. -/
def skipEnds : List Token → List Token
  | .documentEnd :: ts => skipEnds ts
  | ts => ts

def endsDocument : Token → Bool
  | .directive _ | .documentStart | .documentEnd | .streamEnd => true
  | _ => false

/-- More than there are steps in reading all tokens. -/
def fuel : Nat :=
  4 * r.tokens.length + 8

/-- Goes over the mark of the end of a document, if there is one. What names stood for is forgotten. -/
def finish (n : Node) : Except Failure (Option (Node × Reading)) := do
  let t ← r.peek
  let r := match t with
    | .documentEnd => r.next
    | _ => r
  return some (n, { r with anchors := [] })

/-- Goes over the mark of the next document and what belongs to it, up to the end of the stream. -/
def openDocument : Except Failure (Option Reading) := do
  let r := { r with tokens := skipEnds r.tokens }
  match ← r.peek with
  | .streamEnd => return none
  | _ =>
    let r ← directives false [] r.fuel r
    match ← r.peek with
    | .documentStart => return some r.next
    | _ => noStructure

/-- Reads a document behind its mark, up to the end of the stream. -/
def markedDocument : Except Failure (Option (Node × Reading)) := do
  match ← r.openDocument with
  | none => return none
  | some r =>
    let (n, r) ← optional .block endsDocument r.fuel r
    r.finish n

/-- Reads the first document, which needs no mark. -/
def firstDocument : Except Failure (Option (Node × Reading)) := do
  match ← r.peek with
  | .directive _ | .documentStart | .streamEnd => r.markedDocument
  | _ =>
    let (n, r) ← node .block r.fuel { r with handles := commonHandles }
    r.finish n

end Reading

end AnnotationCodec.Yaml
