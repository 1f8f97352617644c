import AnnotationCodec.CommandLine.Request
import AnnotationCodec.Log.Basic
import AnnotationCodec.Manifest.Stream
import AnnotationCodec.Manifest.Target

/-!
What the commands do to manifests, one after the other. An annotation that cannot be written or read is logged,
and ends the program.
-/

namespace AnnotationCodec

namespace Failure

/-- Whether a failure is about an annotation, and not a general one. -/
def isAboutAnnotation : Failure → Bool
  | .encoding _ _ | .decoding _ _ | .missingDescriptor => true
  | _ => false

end Failure

namespace CommandLine

namespace AnnotateRequest

variable (r : AnnotateRequest)

def ofText (t : Option Text) : Value :=
  (t.map Value.str).getD .null

def ofTexts (ts : List Text) : Value :=
  if ts.isEmpty then .null else .list (ts.map .str)

def moniker : Moniker Value :=
  { app := ofText r.app
    cluster := ofText r.cluster
    stack := ofText r.stack
    detail := ofText r.detail
    sequence := (r.sequence.map Value.int).getD .null }

def artifact : Artifact Value :=
  { type := ofText r.artifactType
    name := ofText r.artifactName
    location := ofText r.artifactLocation
    version := ofText r.artifactVersion }

def relationships : Relationships Value :=
  { loadBalancers := ofTexts r.loadBalancers
    securityGroups := ofTexts r.securityGroups }

/-- The descriptors to annotate. There is always a moniker, an artifact only if a part of it is not empty, and
relationships only if there is one. -/
def descriptors : List (Family × Value) :=
  let a := r.artifact
  let hasArtifact := [a.type, a.name, a.location, a.version].any Value.isTruthy
  let hasRelationships := !r.loadBalancers.isEmpty || !r.securityGroups.isEmpty
  [(.moniker, .descriptor (.moniker r.moniker)),
    (.artifact, if hasArtifact then .descriptor (.artifact a) else .null),
    (.relationships, if hasRelationships then .descriptor (.relationships r.relationships) else .null)]

end AnnotateRequest

/-- What the manifests are worked on with. -/
structure Workplace where
  env : Environment
  log : Log.Settings
  schema : Schema

namespace Workplace

variable (w : Workplace)

/-- The manifests of a text. -/
def load (t : Text) : Run (List Manifest) := do
  let ms ← Manifest.readAll t
  Log.log w.env w.log .debug [.str (text "loaded manifests")] [(text "count", .int ms.length)]
  return ms

/-- The kind and the name of a manifest, as messages show them. -/
def nameOf (m : Manifest) : Except Failure (List (Text × Value)) := do
  return [(text "kind", m.kind), (text "name", ← m.name)]

/-- Ends the work on a manifest. A failure about an annotation is logged and ends the program. -/
def fail {α : Type} (m : Manifest) (f : Failure) : Run α := do
  if f.isAboutAnnotation then
    let message ← f.message?.mapError fun _ => Failure.unwritable
    Log.log w.env w.log .critical [.str (message.getD [])] (← nameOf m)
    Log.exit w.env w.log (.int 1) true
  else Run.stop (.failure f)

/-- Annotates a manifest with descriptors in turn. -/
def annotateWith : List (Family × Value) → Manifest → Run Manifest
  | [], m => pure m
  | (family, d) :: ds, m => do
    let o := m.annotate w.schema family d
    match o.result with
    | .error f => w.fail o.value f
    | .ok () =>
      Log.log w.env w.log .debug [.str (text "annotated manifest")]
        [(text "family", .str family.label), (text "templates", .int o.value.templates.length),
          (text "skipped", .bool d.isNull)]
      annotateWith ds o.value

/-- Annotates manifests in their order. -/
def annotateAll (ds : List (Family × Value)) : List Manifest → Run (List Manifest)
  | [] => pure []
  | m :: ms => do
    Log.log w.env w.log .debug [.str (text "annotating manifest")] (← nameOf m)
    let m ← w.annotateWith ds m
    return m :: (← annotateAll ds ms)

/-- What is annotated on a manifest. -/
structure Account where
  kind : Value
  name : Value
  moniker : Descriptor Value
  artifact : Descriptor Value
  relationships : Descriptor Value

/-- Reads what is annotated on a manifest. -/
def account (m : Manifest) : Except Failure Account := do
  let name ← m.name
  let moniker ← m.get w.schema .moniker
  let artifact ← m.get w.schema .artifact
  let relationships ← m.get w.schema .relationships
  return { kind := m.kind, name, moniker, artifact, relationships }

/-- Reads what is annotated on manifests, in their order. -/
def accounts : List Manifest → Run (List Account)
  | [] => pure []
  | m :: ms =>
    match w.account m with
    | .error f => w.fail m f
    | .ok a => do return a :: (← accounts ms)

end Workplace

/-- The account as a mapping. -/
def Workplace.Account.toValue (a : Workplace.Account) : Value :=
  let fields (d : Descriptor Value) : Value := .map (d.attributes.map fun (k, v) => (.str k, v))
  .map
    [(.str (text "kind"), a.kind), (.str (text "name"), a.name), (.str (text "moniker"), fields a.moniker),
      (.str (text "artifact"), fields a.artifact), (.str (text "relationships"), fields a.relationships)]

end CommandLine

end AnnotationCodec
