import AnnotationCodec.Annotation.Codec
import AnnotationCodec.Annotation.Schema

/-!
Descriptors in annotation maps. Storing writes the fields of a descriptor that are not null, one after the
other: when one cannot be encoded, those before it stay. Reading takes a field that is missing or null for
null. Other keys are never touched.
-/

namespace AnnotationCodec

/-- What an operation did to a value that it changes in place, and whether it came to its end. -/
structure Outcome (α : Type) where
  value : α
  result : Except Failure Unit

namespace Outcome

variable {α β : Type}

def done (value : α) : Outcome α :=
  ⟨value, .ok ()⟩

def fail (value : α) (f : Failure) : Outcome α :=
  ⟨value, .error f⟩

/-- Goes on from where an operation came to its end. -/
def andThen (o : Outcome α) (next : α → Outcome α) : Outcome α :=
  match o.result with
  | .ok () => next o.value
  | .error f => fail o.value f

def map (g : α → β) (o : Outcome α) : Outcome β :=
  ⟨g o.value, o.result⟩

end Outcome

namespace Schema

variable (s : Schema)

/-- Stores the given fields into a map. -/
def storeFields : List (Field × Value) → Entries → Outcome Entries
  | [], es => .done es
  | (f, v) :: rest, es =>
    if v.isNull then storeFields rest es
    else
      match Codec.encode (.str (s.key f)) f.shape v with
      | .error e => .fail es e
      | .ok t => storeFields rest (es.set (s.key f) (.str t))

/-- What storing the given fields into a value that is no map does: nothing can be set in it. -/
def storeNowhere : List (Field × Value) → Except Failure Unit
  | [] => .ok ()
  | (f, v) :: rest =>
    if v.isNull then storeNowhere rest
    else do
      let _ ← Codec.encode (.str (s.key f)) f.shape v
      .error .unsupported

/-- The descriptor that a value is, if it is one of the family. Only a moniker has to be there. -/
def descriptorFor (family : Family) (v : Value) : Except Failure (Option (Descriptor Value)) :=
  match v with
  | .null => if family = .moniker then .error .missingDescriptor else .ok none
  | .descriptor d => if d.family = family then .ok (some d) else .error (.wrongDescriptor family v.kind)
  | v => .error (.wrongDescriptor family v.kind)

/-- Stores a descriptor into the map of a manifest. -/
def storeEntries (family : Family) (descriptor : Value) (es : Entries) : Outcome Entries :=
  match descriptorFor family descriptor with
  | .error e => .fail es e
  | .ok none => .done es
  | .ok (some d) => s.storeFields d.entries es

/-- Stores a descriptor into any value. -/
def store (family : Family) (descriptor : Value) (annotations : Value) : Outcome Value :=
  match annotations with
  | .map es => (s.storeEntries family descriptor es).map .map
  | v =>
    match descriptorFor family descriptor with
    | .error e => .fail v e
    | .ok none => .done v
    | .ok (some d) => ⟨v, s.storeNowhere d.entries⟩

/-- Reads one field from a map. -/
def readField (es : Entries) (f : Field) : Except Failure Value :=
  match es.get? (s.key f) with
  | none | some .null => .ok .null
  | some v => Codec.decode (.str (s.key f)) f.shape v

def readFields (es : Entries) : List Field → Except Failure (List (Field × Value))
  | [] => .ok []
  | f :: fs => do
    let v ← s.readField es f
    let rest ← readFields es fs
    return (f, v) :: rest

/-- The value of a field among those that were read. -/
def valueOf (read : List (Field × Value)) (f : Field) : Value :=
  ((read.find? fun e => e.1 = f).map Prod.snd).getD .null

/-- Reads the descriptor of a family from a map. -/
def getEntries (family : Family) (es : Entries) : Except Failure (Descriptor Value) :=
  (s.readFields es family.fields).map fun read => .ofFields family (valueOf read)

/-- Reads the descriptor of a family from any value; only a map can be read. -/
def get (family : Family) (annotations : Value) : Except Failure (Descriptor Value) :=
  match annotations with
  | .map es => s.getEntries family es
  | _ => .error .noAttribute

end Schema

end AnnotationCodec
