import AnnotationCodec.Text.Basic

/-!
The three kinds of structured descriptor that manifests carry, their fields, and the shape each field has
when it is stored.
-/

namespace AnnotationCodec

/-- What a stored value may be. -/
inductive Shape
  | string
  | list
  | integer
  deriving DecidableEq, Repr

inductive Family
  | relationships
  | moniker
  | artifact
  deriving DecidableEq, Repr

/-- The stored fields of all families. -/
inductive Field
  | loadBalancers
  | securityGroups
  | cluster
  | app
  | stack
  | detail
  | sequence
  | type
  | name
  | location
  | version
  deriving DecidableEq, Repr

/-- Ownership and naming of a resource. -/
structure Moniker (α : Type) where
  app : α
  cluster : α
  stack : α
  detail : α
  sequence : α
  deriving DecidableEq, Repr

/-- What a resource was deployed from. -/
structure Artifact (α : Type) where
  type : α
  name : α
  location : α
  version : α
  deriving DecidableEq, Repr

/-- The load balancers and security groups in front of a resource. -/
structure Relationships (α : Type) where
  loadBalancers : α
  securityGroups : α
  deriving DecidableEq, Repr

/-- A descriptor of one of the families, over any type of field value. -/
inductive Descriptor (α : Type)
  | moniker (m : Moniker α)
  | artifact (a : Artifact α)
  | relationships (r : Relationships α)
  deriving DecidableEq, Repr

namespace Shape

def all : List Shape :=
  [.string, .list, .integer]

def label : Shape → Text
  | .string => text "string"
  | .list => text "list"
  | .integer => text "integer"

end Shape

namespace Family

/-- The order in which families are listed. -/
def all : List Family :=
  [.relationships, .moniker, .artifact]

def label : Family → Text
  | .relationships => text "relationships"
  | .moniker => text "moniker"
  | .artifact => text "artifact"

/-- The name of the family's type of descriptor. -/
def typeName : Family → Text
  | .relationships => text "Relationships"
  | .moniker => text "Moniker"
  | .artifact => text "Artifact"

/-- The fields of a family, in the order in which they are stored and read. -/
def fields : Family → List Field
  | .relationships => [.loadBalancers, .securityGroups]
  | .moniker => [.cluster, .app, .stack, .detail, .sequence]
  | .artifact => [.type, .name, .location, .version]

end Family

namespace Field

def family : Field → Family
  | .loadBalancers | .securityGroups => .relationships
  | .cluster | .app | .stack | .detail | .sequence => .moniker
  | .type | .name | .location | .version => .artifact

/-- The name of the field in its descriptor. -/
def label : Field → Text
  | .loadBalancers => text "load_balancers"
  | .securityGroups => text "security_groups"
  | .cluster => text "cluster"
  | .app => text "app"
  | .stack => text "stack"
  | .detail => text "detail"
  | .sequence => text "sequence"
  | .type => text "type"
  | .name => text "name"
  | .location => text "location"
  | .version => text "version"

/-- The last part of the field's annotation key. -/
def suffix : Field → Text
  | .loadBalancers => text "loadBalancers"
  | .securityGroups => text "securityGroups"
  | .cluster => text "cluster"
  | .app => text "application"
  | .stack => text "stack"
  | .detail => text "detail"
  | .sequence => text "sequence"
  | .type => text "type"
  | .name => text "name"
  | .location => text "location"
  | .version => text "version"

def shape : Field → Shape
  | .loadBalancers | .securityGroups => .list
  | .sequence => .integer
  | _ => .string

theorem mem_fields_family (f : Field) : f ∈ f.family.fields := by
  cases f <;> decide

end Field

namespace Descriptor

variable {α : Type}

def family : Descriptor α → Family
  | .moniker _ => .moniker
  | .artifact _ => .artifact
  | .relationships _ => .relationships

/-- The fields with their values, in the order in which they are stored. -/
def entries : Descriptor α → List (Field × α)
  | .moniker m =>
    [(.cluster, m.cluster), (.app, m.app), (.stack, m.stack), (.detail, m.detail),
      (.sequence, m.sequence)]
  | .artifact a => [(.type, a.type), (.name, a.name), (.location, a.location), (.version, a.version)]
  | .relationships r => [(.loadBalancers, r.loadBalancers), (.securityGroups, r.securityGroups)]

/-- The attributes by name, in the order in which the type declares them. -/
def attributes : Descriptor α → List (Text × α)
  | .moniker m =>
    [(Field.app.label, m.app), (Field.cluster.label, m.cluster),
      (Field.stack.label, m.stack), (Field.detail.label, m.detail),
      (Field.sequence.label, m.sequence)]
  | .artifact a =>
    [(Field.type.label, a.type), (Field.name.label, a.name),
      (Field.location.label, a.location), (Field.version.label, a.version)]
  | .relationships r =>
    [(Field.loadBalancers.label, r.loadBalancers),
      (Field.securityGroups.label, r.securityGroups)]

/-- The descriptor of a family whose fields have the given values. -/
def ofFields (family : Family) (value : Field → α) : Descriptor α :=
  match family with
  | .moniker => .moniker ⟨value .app, value .cluster, value .stack, value .detail, value .sequence⟩
  | .artifact => .artifact ⟨value .type, value .name, value .location, value .version⟩
  | .relationships => .relationships ⟨value .loadBalancers, value .securityGroups⟩

theorem entries_fields (d : Descriptor α) : d.entries.map Prod.fst = d.family.fields := by
  cases d <;> rfl

theorem family_ofFields (f : Family) (value : Field → α) : (ofFields f value).family = f := by
  cases f <;> rfl

end Descriptor

end AnnotationCodec
