import AnnotationCodec.Annotation.Store
import AnnotationCodec.Value.Place

/-!
Manifests: maps with a kind, metadata and perhaps pod templates. The annotations of a resource are the map
at `metadata.annotations`. A manifest and each pod template in it are resources of their own.
-/

namespace AnnotationCodec

namespace Entries

variable (es : Entries)

/-- The value at the text `key`, null if there is none. -/
def lookup (key : String) : Value :=
  (es.get? (text key)).getD .null

/-- The annotations of a resource, and the resource with the maps that had to be made for them. -/
def openAnnotations : Except Failure (Entries × Value) :=
  match es.lookup "metadata" with
  | .null =>
    .ok (es.set (text "metadata") (.map [(.str (text "annotations"), .map [])]), .map [])
  | .map metadata =>
    match Entries.lookup metadata "annotations" with
    | .null => .ok (es.set (text "metadata") (.map (Entries.set (text "annotations") (.map []) metadata)), .map [])
    | annotations => .ok (es, annotations)
  | _ => .error .noAttribute

/-- Replaces the annotations of a resource that has them. -/
def setAnnotations (annotations : Value) : Entries :=
  match es.lookup "metadata" with
  | .map metadata =>
    es.set (text "metadata") (.map (Entries.set (text "annotations") annotations metadata))
  | _ => es

/-- Changes the annotations of a resource, which are made if they are missing or null. -/
def updateAnnotations (change : Value → Outcome Value) : Outcome Entries :=
  match es.openAnnotations with
  | .error f => .fail es f
  | .ok (opened, annotations) => (change annotations).map opened.setAnnotations

/-- The map that is found along keys that lead from map to map. -/
def descend? : List Text → Entries → Option Entries
  | [], es => some es
  | k :: ks, es =>
    match es.get? k with
    | some (.map sub) => descend? ks sub
    | _ => none

/-- Changes the map that is found along keys, if there is one. -/
def updateAlong : List Text → (Entries → Outcome Entries) → Entries → Outcome Entries
  | [], change, es => change es
  | k :: ks, change, es =>
    match es.get? k with
    | some (.map sub) => (updateAlong ks change sub).map fun new => es.set k (.map new)
    | _ => .done es

/-- The number of the entry at the text `key`. -/
def index? (key : Text) : Option Nat :=
  es.findIdx? fun e => match e.1 with
    | .str t => t = key
    | _ => false

/-- The place of what is found along keys. -/
def placeAlong? : List Text → Entries → Option Place
  | [], _ => some []
  | k :: ks, es =>
    match es.index? k, es.get? k with
    | some i, some (.map sub) => (placeAlong? ks sub).map (i :: ·)
    | some i, some _ => if ks.isEmpty then some [i] else none
    | _, _ => none

end Entries

/-- A manifest. `shared` lists the places that hold one and the same value: what is changed at one of them is
changed at all. A value that is `endless` holds itself somewhere. -/
structure Manifest where
  entries : Entries
  shared : List (List Place)
  endless : Bool

namespace Manifest

/-- A manifest in which nothing is shared. -/
def ofEntries (es : Entries) : Manifest :=
  ⟨es, [], false⟩

def ofValue : Value → Except Failure Manifest
  | .map es => .ok (ofEntries es)
  | v => .error (.invalidManifest v.kind)

variable (m : Manifest)

def toValue : Value :=
  .map m.entries

def kind : Value :=
  m.entries.lookup "kind"

/-- What the metadata hold under a name; missing metadata hold nothing, but null cannot be asked. -/
def metadataValue (name : String) : Except Failure Value :=
  match m.entries.get? (text "metadata") with
  | none => .ok .null
  | some (.map metadata) => .ok (Entries.lookup metadata name)
  | some _ => .error .noAttribute

def name : Except Failure Value :=
  m.metadataValue "name"

def namespaceName : Except Failure Value :=
  m.metadataValue "namespace"

/-- The kind and the name between angle brackets. -/
def literal : Except Failure Text := do
  let kind ← displayed m.kind
  let name ← displayed (← m.name)
  return text "<KubernetesManifest " ++ kind ++ text "/" ++ name ++ text ">"
where
  displayed (v : Value) : Except Failure Text :=
    v.display.mapError fun _ => .unwritable

/-- The annotations for reading, an empty map where there are none. What is not truthy counts as missing. -/
def readAnnotations : Except Failure Value :=
  let metadata := m.entries.lookup "metadata"
  if metadata.isTruthy then
    match metadata with
    | .map es =>
      let annotations := Entries.lookup es "annotations"
      .ok (if annotations.isTruthy then annotations else .map [])
    | _ => .error .noAttribute
  else .ok (.map [])

end Manifest

end AnnotationCodec
