import AnnotationCodec.Annotation.Schema
import AnnotationCodec.Log.Basic
import AnnotationCodec.Yaml.Document

/-!
Configuration. The values come from a file, over which variables win; they are read when one is first asked
for, and kept from then on. Values that are set win over both, until all are forgotten.
-/

namespace AnnotationCodec

/-- Configuration values by their keys, in the order in which they came. -/
abbrev Settled := List (Text × Value)

namespace Settled

def get? (key : Text) : Settled → Option Value
  | [] => none
  | (k, v) :: vs => if k = key then some v else get? key vs

/-- Sets a value: in place if the key is there, else at the end. -/
def set (key : Text) (value : Value) : Settled → Settled
  | [] => [(key, value)]
  | (k, v) :: vs => if k = key then (k, value) :: vs else (k, v) :: set key value vs

/-- Sets values in their order. -/
def update (old new : Settled) : Settled :=
  new.foldl (fun vs e => set e.1 e.2 vs) old

def toValue (vs : Settled) : Value :=
  .map (vs.map fun (k, v) => (.str k, v))

end Settled

/-- The values that were read, unless none have been yet. -/
structure Config where
  cache : Option Settled

namespace Config

/-- No value has been read. -/
def fresh : Config :=
  ⟨none⟩

def domainKey : Text :=
  text "annotation-domain"

/-- The values of the known keys where nothing else gives one. -/
def defaults : Settled :=
  [(domainKey, .str Schema.defaultDomain)]

/-- The end of the name of a key's variable. -/
def variableName (key : Text) : Text :=
  key.map fun (c : CodePoint) =>
    if c = '-' then '_' else if 0x61 ≤ c.val && c.val ≤ 0x7A then CodePoint.ofNat (c.val - 32) else c

/-- The value of a key's variable, unless it is empty. -/
def override? (env : Environment) (key : Text) : Option Text :=
  (env.bindings.find? fun e => e.1 = Environment.variableStart ++ variableName key).bind fun e =>
    if e.2.isEmpty then none else some e.2

/-- The entries of a map under the texts of their keys. -/
def namedEntries : Entries → Except Failure Settled
  | [] => .ok []
  | (k, v) :: es => do
    let name ← Log.displayed k
    let rest ← namedEntries es
    return (name, v) :: rest

/-- The values in the file at `path`. A file that holds nothing truthy holds no values. -/
def fileValues (env : Environment) (path : Text) : Except Failure Settled := do
  let content ← env.read path
  let s ← Yaml.Stream.ofText content
  let v := ((← s.single?).map Yaml.Document.value).getD .null
  if v.isTruthy then
    match v with
    | .map es => return Settled.update [] (← namedEntries es)
    | _ => .error (.invalidConfigFile path)
  else return []

/-- Reads the values of all sources. -/
def fetch (env : Environment) (log : Log.Settings) : Run Settled := do
  let path := ((env.named? "CONFIG").getD []).strip
  let values ←
    if path.isEmpty then pure []
    else do
      Log.log env log .debug [.str (text "loading config file")] [(text "path", .str path)]
      fileValues env path
  return defaults.foldl (fun vs e =>
    match override? env e.1 with
    | some t => vs.set e.1 (.str t)
    | none => vs) values

variable (env : Environment) (log : Log.Settings) (c : Config)

/-- The values, which are read if they have not been. -/
def values : Run Settled :=
  match c.cache with
  | some vs => pure vs
  | none => fetch env log

/-- The value of a key that a value names: from the values, else `default` unless it is null, else the built-in
one. -/
def lookup (vs : Settled) (key default : Value) : Except Failure Value :=
  match key with
  | .str k =>
    .ok ((vs.get? k).getD (if default.isNull then (defaults.get? k).getD .null else default))
  | key => if key.isHashable then .ok default else .error .unsupported

/-- All values, the built-in ones included. -/
def all (vs : Settled) : Value :=
  (defaults.update vs).toValue

/-- The value of a key, or all values if the key is not truthy, and the configuration after it was read. -/
def get (key default : Value) (required : Bool) : Config × Run Value :=
  let read := c.values env log
  match read.result with
  | .error s => (c, ⟨read.output, .error s⟩)
  | .ok vs =>
    (⟨some vs⟩, do
      let _ ← read
      let v ← if key.isTruthy then lookup vs key default else pure (all vs)
      if v.isTruthy || !required then pure v
      else Run.stop (.failure (Failure.missingConfigValue key).raised))

/-- The values to set: a key and a value, or a map of them. -/
def newValues (key value values : Value) : Except Failure Value :=
  if key.isTruthy || value.isTruthy then
    if key.isTruthy && value.isTruthy && !values.isTruthy then
      if key.isHashable then .ok (.map [(key, value)]) else .error .unsupported
    else .error .ambiguousSetting
  else if values.isTruthy then .ok values
  else .error .nothingToSave

/-- A map whose keys are texts. -/
def textKeys : Entries → Except Failure Settled
  | [] => .ok []
  | (.str k, v) :: es => (textKeys es).map ((k, v) :: ·)
  | _ :: _ => .error .unsupported

/-- The values of a map that can be set. -/
def settable : Value → Except Failure Settled
  | .map es => textKeys es
  | _ => .error .noAttribute

/-- Sets values, which win from then on. -/
def set (key value values : Value) : Config × Run Unit :=
  let checked : Run Settled := do
    let new ← newValues key value values
    let new ← settable new
    let keys := Text.joinWith (text ",") (new.map Prod.fst)
    Log.log env log .debug [.str (text "config/set")] [(text "keys", .str keys)]
    return new
  match checked.result with
  | .error s => (c, ⟨checked.output, .error s⟩)
  | .ok new =>
    let read := c.values env log
    let run : Run Unit := do
      let _ ← checked
      let _ ← read
      pure ()
    match read.result with
    | .error _ => (c, run)
    | .ok vs => (⟨some (vs.update new)⟩, run)

/-- The schema of a domain, or of the configured one if the domain is not truthy. -/
def schema (domain : Value) : Config × Run Schema :=
  if domain.isTruthy then (c, Schema.make domain)
  else
    let (c, configured) := c.get env log (.str domainKey) .null true
    (c, do Schema.make (← configured))

end Config

end AnnotationCodec
