import AnnotationCodec.Failure
import AnnotationCodec.Value.Order

/-!
The annotation keys of the fields. A schema belongs to a domain, and the key of a field in it is
`family.domain/suffix`. No key is in the schemas of two domains, because neither a family nor a domain that is
a text holds a slash.
-/

namespace AnnotationCodec

/-- The keys of a domain; `label` is the text of the domain in them. -/
structure Schema where
  domain : Value
  label : Text

/-- One field of a schema. -/
structure SchemaEntry where
  family : Family
  field : Field
  key : Text
  shape : Shape
  deriving DecidableEq, Repr

namespace Value

/-- Whether a slash is in a value: in a text as a part of it, in a collection as one of its items.
`none` where nothing can be in the value. -/
def hasSlash? : Value → Option Bool
  | .str t => some (List.contains t '/')
  | .list vs | .tuple vs | .set vs => some (vs.any isSlash)
  | .map es => some (es.any fun e => isSlash e.1)
  | .descriptor d => some (d.entries.any fun e => isSlash e.2)
  | _ => none
where
  isSlash : Value → Bool
    | .str t => t = text "/"
    | _ => false

end Value

namespace Schema

def defaultDomain : Text :=
  text "spinnaker.io"

def default : Schema :=
  ⟨.str defaultDomain, defaultDomain⟩

/-- The schema of a domain, which must be truthy and without a slash. -/
def make (domain : Value) : Except Failure Schema :=
  if !domain.isTruthy then .error (Failure.invalidDomain domain).raised
  else
    match domain.hasSlash? with
    | none => .error .unsupported
    | some true => .error (Failure.invalidDomain domain).raised
    | some false =>
      match domain.display with
      | .ok label => .ok ⟨domain, label⟩
      | .error .tooManyDigits => .error .unwritable

variable (s : Schema)

def key (f : Field) : Text :=
  f.family.label ++ text "." ++ s.label ++ text "/" ++ f.suffix

def entry (f : Field) : SchemaEntry :=
  ⟨f.family, f, s.key f, f.shape⟩

/-- The entries of a family, in the order of its fields. -/
def familyEntries (family : Family) : List SchemaEntry :=
  family.fields.map s.entry

/-- All entries, family by family. -/
def entries : List SchemaEntry :=
  Family.all.flatMap s.familyEntries

/-- Whether a key belongs to the schema. -/
def contains (key : Text) : Bool :=
  s.entries.any fun e => e.key = key

/-- The family that a value names. -/
def family? (name : Value) : Except Failure Family :=
  match name with
  | .str t =>
    match Family.all.find? fun f => f.label = t with
    | some f => .ok f
    | none => .error (Failure.unknownFamily name).raised
  | _ => .error (if name.isHashable then (Failure.unknownFamily name).raised else .unsupported)

/-- The field of a family that a value names. -/
def field? (family : Family) (name : Value) : Except Failure Field :=
  match family.fields.find? fun f => name.sameKey (.str f.label) with
  | some f => .ok f
  | none => .error (Failure.unknownField family name).raised

/-- The key of the field that two values name. -/
def namedKey (family field : Value) : Except Failure Text := do
  let family ← family? family
  let field ← field? family field
  return s.key field

/-- The fields whose keys in the default schema have names of their own. -/
def constants : List (Text × Field) :=
  [(text "LOAD_BALANCERS", .loadBalancers), (text "SECURITY_GROUPS", .securityGroups),
    (text "CLUSTER", .cluster), (text "APPLICATION", .app), (text "STACK", .stack),
    (text "DETAIL", .detail), (text "SEQUENCE", .sequence), (text "TYPE", .type),
    (text "NAME", .name), (text "LOCATION", .location), (text "VERSION", .version)]

/-- The key in the default schema with the given name. -/
def constant? (name : Text) : Option Text :=
  (constants.find? fun c => c.1 = name).map fun c => default.key c.2

end Schema

namespace SchemaEntry

/-- The entry as a mapping. -/
def toValue (e : SchemaEntry) : Value :=
  .map [(.str (text "family"), .str e.family.label), (.str (text "field"), .str e.field.label),
    (.str (text "key"), .str e.key), (.str (text "shape"), .str e.shape.label)]

end SchemaEntry

end AnnotationCodec
