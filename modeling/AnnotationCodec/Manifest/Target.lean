import AnnotationCodec.Manifest.Basic

/-!
The places of a manifest that an annotation is written to: the manifest itself, the pod template of a
workload, and the pod template of a scheduled job. They are written to one after the other, and the first
failure ends the writing.
-/

namespace AnnotationCodec

namespace Manifest

/-- The keys on the way to the pod templates that a manifest may embed. -/
def templatePaths : List (List Text) :=
  [[text "spec", text "template"], [text "spec", text "jobTemplate", text "spec", text "template"]]

variable (m : Manifest)

/-- The pod templates of a manifest. -/
def templates : List (List Text) :=
  templatePaths.filter fun path => (m.entries.descend? path).isSome

/-- Whatever is at a place is copied to all places that share it. -/
def spread (place : Place) : Manifest :=
  m.shared.foldl (fun m group =>
    if group.contains place then
      match m.toValue.copyTo place group with
      | .map es => { m with entries := es }
      | _ => m
    else m) m

/-- The values that change when the annotations of a resource do: the resource, its metadata and its
annotations. -/
def spreadResource (path : List Text) : Manifest :=
  [[], [text "metadata"], [text "metadata", text "annotations"]].foldl (fun m suffix =>
    match m.entries.placeAlong? (path ++ suffix) with
    | none => m
    | some place => m.spread place) m

/-- Changes the annotations of the resource that is found along keys, if there is one. -/
def updateResource (change : Value → Outcome Value) (path : List Text) : Outcome Manifest :=
  (m.entries.updateAlong path fun es => es.updateAnnotations change).map fun es =>
    let changed := { m with entries := es }
    if m.shared.isEmpty then changed else changed.spreadResource path

/-- Changes the annotations along each of the paths in turn. -/
def updateResources (change : Value → Outcome Value) : List (List Text) → Manifest → Outcome Manifest
  | [], m => .done m
  | path :: paths, m => (m.updateResource change path).andThen (updateResources change paths)

/-- Writes a descriptor to a manifest and to its pod templates. -/
def annotate (s : Schema) (family : Family) (descriptor : Value) : Outcome Manifest :=
  m.updateResources (s.store family descriptor) ([] :: templatePaths)

/-- Reads a descriptor from the manifest's own annotations. -/
def get (s : Schema) (family : Family) : Except Failure (Descriptor Value) := do
  s.get family (← m.readAnnotations)

/-- The annotations that are written to, made where they are missing. -/
def openAnnotations : Outcome Manifest × Value :=
  let o := m.updateResource .done []
  (o, ((o.value.entries.openAnnotations).toOption.map Prod.snd).getD .null)

/-- The annotations of all pod templates, made where they are missing. -/
def openTemplates : Outcome Manifest × List Value :=
  let o := m.updateResources .done templatePaths
  (o, o.value.templates.filterMap fun path =>
    (o.value.entries.descend? path).bind fun es => es.openAnnotations.toOption.map Prod.snd)

end Manifest

/-- What annotations can be written to and read from. -/
inductive Target
  | manifest (m : Manifest)
  /-- Any other object that has annotations of its own and those of its templates. -/
  | object (annotations : Value) (templates : List Value)
  /-- A value that is no manifest. -/
  | plain (v : Value)

namespace Target

/-- A map is a manifest, any other value stands for itself. -/
def ofValue : Value → Target
  | .map es => .manifest (.ofEntries es)
  | v => .plain v

/-- Writes a descriptor to the templates of an object in turn. -/
def storeEach (store : Value → Outcome Value) : List Value → Outcome (List Value)
  | [] => .done []
  | v :: vs =>
    let o := store v
    match o.result with
    | .error f => .fail (o.value :: vs) f
    | .ok () => (storeEach store vs).map (o.value :: ·)

variable (t : Target)

def annotate (s : Schema) (family : Family) (descriptor : Value) : Outcome Target :=
  match t with
  | .manifest m => (m.annotate s family descriptor).map .manifest
  | .object annotations templates =>
    let own := s.store family descriptor annotations
    match own.result with
    | .error f => .fail (.object own.value templates) f
    | .ok () => (storeEach (s.store family descriptor) templates).map (.object own.value)
  | .plain v => .fail (.plain v) .noAttribute

/-- The annotations for reading. -/
def readAnnotations : Except Failure Value :=
  match t with
  | .manifest m => m.readAnnotations
  | .object annotations _ => .ok annotations
  | .plain _ => .error .noAttribute

def get (s : Schema) (family : Family) : Except Failure (Descriptor Value) := do
  s.get family (← t.readAnnotations)

def kind : Except Failure Value :=
  match t with
  | .manifest m => .ok m.kind
  | _ => .error .noAttribute

/-- An artifact has a name, too. -/
def name : Except Failure Value :=
  match t with
  | .manifest m => m.name
  | .plain (.descriptor (.artifact a)) => .ok a.name
  | _ => .error .noAttribute

def namespaceName : Except Failure Value :=
  match t with
  | .manifest m => m.namespaceName
  | _ => .error .noAttribute

/-- The text of a target in messages. -/
def literal : Except Failure Text :=
  match t with
  | .manifest m => m.literal
  | .plain v => v.literal.mapError fun _ => .unwritable
  | .object _ _ => .error .noAttribute

/-- The annotations that are written to. -/
def openAnnotations : Target × Except Failure Value :=
  match t with
  | .manifest m =>
    let (o, annotations) := m.openAnnotations
    (.manifest o.value, o.result.map fun () => annotations)
  | .object annotations _ => (t, .ok annotations)
  | .plain _ => (t, .error .noAttribute)

/-- The annotations of the templates that are written to. -/
def openTemplates : Target × Except Failure (List Value) :=
  match t with
  | .manifest m =>
    let (o, templates) := m.openTemplates
    (.manifest o.value, o.result.map fun () => templates)
  | .object _ templates => (t, .ok templates)
  | .plain _ => (t, .error .noAttribute)

/-- The value that a target is made of. -/
def toValue : Value :=
  match t with
  | .manifest m => m.toValue
  | .object annotations templates =>
    .map [(.str (text "annotations"), annotations), (.str (text "templates"), .list templates)]
  | .plain v => v

end Target

end AnnotationCodec
