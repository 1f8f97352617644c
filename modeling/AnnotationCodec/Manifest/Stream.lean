import AnnotationCodec.Manifest.Basic
import AnnotationCodec.Yaml.Document
import AnnotationCodec.Yaml.Printer

/-!
Streams of manifests. Empty documents are passed over, and every other one must be a map.
-/

namespace AnnotationCodec.Manifest

/-- The manifest of a document that is not empty. -/
def ofDocument (d : Yaml.Document) : Except Failure Manifest :=
  match d.value with
  | .map es => .ok ⟨es, d.shared, d.endless⟩
  | v => .error (.invalidManifest v.kind)

/-- Reads the manifests of a stream. -/
def readFrom : (fuel : Nat) → Yaml.Stream → Except Failure (List Manifest)
  | 0, _ => .error .tooDeep
  | fuel + 1, s => do
    match ← s.next? with
    | none => return []
    | some (d, rest) =>
      if d.value.isNull then readFrom fuel rest
      else
        let m ← ofDocument d
        let ms ← readFrom fuel rest
        return m :: ms

/-- The manifests of a text. -/
def readAll (t : Text) : Except Failure (List Manifest) := do
  let s ← Yaml.Stream.ofText t
  readFrom s.fuel s

variable (m : Manifest)

def tree : Except Failure Yaml.Tree :=
  if m.endless then .error .tooDeep else Yaml.Tree.ofValue .document m.toValue

/-- Writes manifests as a stream of documents. -/
def writeAll (ms : List Manifest) : Yaml.Written :=
  Yaml.writeTrees .document (ms.map tree)

end AnnotationCodec.Manifest
