import AnnotationCodec.Annotation.Content
import AnnotationCodec.Json.Reader

/-!
The codec of single field values. `encode` writes the content of a value as JSON text and `decode` reads it
back; both check that the value has the shape of its field. Failures carry the annotation key.
-/

namespace AnnotationCodec

namespace Shape

/-- The shape that a value names. -/
def ofValue? : Value → Option Shape
  | .str t => all.find? fun s => s.label = t
  | _ => none

end Shape

namespace Codec

variable (key : Value)

def encodingError {α : Type} (reason : Reason) : Except Failure α :=
  .error (Failure.encoding key reason).raised

def decodingError {α : Type} (reason : Reason) : Except Failure α :=
  .error (Failure.decoding key reason).raised

/-- The text under which a value of the shape is stored. Null is never stored. -/
def encode (shape : Shape) (v : Value) : Except Failure Text :=
  if v.isNull then .error (Failure.nullValue key).raised
  else
    match Content.ofValue shape v with
    | .error reason => encodingError key reason
    | .ok c =>
      match c.write with
      | .error .tooManyDigits => encodingError key .unwritable
      | .ok t => .ok t

/-- The JSON value of what is stored. -/
def stored (v : Value) : Except Failure Value :=
  match v with
  | .str t =>
    match Json.read t with
    | .ok w => .ok w
    | .error (.malformed problem left) => decodingError key (.json t problem left)
    | .error (.tooManyDigits count) => decodingError key (.digits count)
    | .error .tooDeep => .error .tooDeep
  | v => decodingError key (.notText v.kind)

/-- The value of the shape that is stored as `v`. -/
def decode (shape : Shape) (v : Value) : Except Failure Value := do
  let w ← stored key v
  match Content.ofValue shape w with
  | .ok c => return c.toValue
  | .error reason => decodingError key reason

/-- Encoding for a shape that is named by a value. -/
def encodeNamed (shape : Value) (v : Value) : Except Failure Text :=
  match Shape.ofValue? shape with
  | some s => encode key s v
  | none =>
    if v.isNull then .error (Failure.nullValue key).raised
    else .error (Failure.unknownShape shape).raised

/-- Decoding for a shape that is named by a value. -/
def decodeNamed (shape : Value) (v : Value) : Except Failure Value :=
  match Shape.ofValue? shape with
  | some s => decode key s v
  | none => do
    let _ ← stored key v
    .error (Failure.unknownShape shape).raised

end Codec

end AnnotationCodec
