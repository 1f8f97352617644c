import AnnotationCodec.CommandLine.Arguments
import AnnotationCodec.Environment

/-!
What the program can be asked for: to annotate manifests, to get what is annotated on them, and to show the
keys. `Command.request` reads the arguments of a command, and `readFront` those in front of it.
-/

namespace AnnotationCodec.CommandLine

inductive Command
  | annotate
  | get
  | keys
  deriving DecidableEq, Repr

/-- The field values that were given, and the text of the manifests. -/
structure AnnotateRequest where
  cluster : Option Text
  app : Option Text
  stack : Option Text
  detail : Option Text
  sequence : Option Int
  artifactType : Option Text
  artifactName : Option Text
  artifactLocation : Option Text
  artifactVersion : Option Text
  loadBalancers : List Text
  securityGroups : List Text
  manifests : Text

inductive Request
  | annotate (r : AnnotateRequest)
  | get (manifests : Text)
  | keys

/-- Why arguments are not carried out. -/
inductive Refusal
  | help
  | usage (e : UsageError)

/-- Where the program finds manifests: in files, or in what it is given. -/
structure Sources where
  env : Environment
  input : Text

namespace Command

def all : List Command :=
  [.annotate, .get, .keys]

def label : Command → Text
  | .annotate => text "annotate"
  | .get => text "get"
  | .keys => text "keys"

/-- What a command does. -/
def purpose : Command → Text
  | .annotate => text "Annotate manifests and their pod templates, printing the annotated yaml"
  | .get => text "Print the moniker, artifact and relationships annotated on each manifest"
  | .keys => text "Print the annotation keys used for each descriptor field"

/-- What a command does, in the list of commands. -/
def brief : Command → Text
  | .annotate => text "Annotate manifests and their pod templates, printing the..."
  | .get => text "Print the moniker, artifact and relationships annotated on each..."
  | .keys => text "Print the annotation keys used for each descriptor field"

def listed (c : Command) : Listed :=
  ⟨c.label, c.brief⟩

end Command

/-- The name of the program. -/
def program : Text :=
  text "manifest-annotations"

/-- The argument that names the manifests. -/
def manifestsName : Text :=
  text "MANIFESTS_FILE"

def word (name : String) (help : List Text) : Switch :=
  ⟨text name, .word, help⟩

/-- The lines about a switch that can be given more than once. -/
def repeatable : List Text :=
  [text "can be repeated, order is preserved"]

/-- The form of the arguments in front of a command. -/
def frontForm : Form where
  path := program
  operands := text "COMMAND [ARGS]..."
  about := [text "Annotate Kubernetes manifests with monikers, artifacts and relationships"]
  switches :=
    [⟨text "--debug", .none, []⟩,
      word "--domain" [text "override the configured annotation domain (default:", text "spinnaker.io)"],
      Switch.help?]
  commands := Command.all.map Command.listed

namespace Command

def switches : Command → List Switch
  | .annotate =>
    [word "--cluster" [], word "--app" [], word "--stack" [], word "--detail" [],
      ⟨text "--sequence", .number, []⟩, word "--artifact-type" [], word "--artifact-name" [],
      word "--artifact-location" [], word "--artifact-version" [], word "--load-balancer" repeatable,
      word "--security-group" repeatable, Switch.help?]
  | .get | .keys => [Switch.help?]

/-- Whether a command works on manifests. -/
def takesManifests (c : Command) : Bool :=
  c ≠ .keys

def form (c : Command) : Form where
  path := program ++ text " " ++ c.label
  operands := if c.takesManifests then manifestsName else []
  about :=
    c.purpose ::
      if c.takesManifests then [text "Use - as " ++ manifestsName ++ text " to read from stdin"] else []
  switches := c.switches
  commands := []

end Command

/-- The text of the manifests that an argument names; a lone dash names the input. -/
def Sources.read (s : Sources) (argument : Text) : Except UsageError Text :=
  if argument = text "-" then .ok s.input.normalizeNewlines
  else
    match s.env.content argument with
    | .ok t => .ok t
    | .error e => .error (.unreadable manifestsName argument e)

/-- The integer that was given, if any. -/
def Arguments.integer? (a : Arguments) (switch : String) : Except UsageError (Option Int) :=
  match a.operand? switch with
  | none => .ok none
  | some value =>
    match Integer.read 10 value with
    | .ok n => .ok (some n)
    | .error _ => .error (.invalidInteger (text switch) value)

namespace Command

/-- Reads arguments by a form. Help is given if they are well formed. -/
def arguments (f : Form) (args : List Text) : Except Refusal Arguments := do
  let a ← (f.read args).mapError .usage
  if a.has "--help" then .error .help else .ok a

/-- No argument may be left over. -/
def finish (rest : List Text) : Except UsageError Unit :=
  if rest.isEmpty then .ok () else .error (.unexpectedArguments rest)

/-- The text of the manifests that the first argument names. It must be the only one. -/
def manifests (s : Sources) (rest : List Text) : Except UsageError Text :=
  match rest with
  | [] => .error (.missingArgument manifestsName)
  | argument :: rest => do
    let t ← s.read argument
    finish rest
    return t

/-- The request that the arguments of a command make. -/
def ofArguments (s : Sources) (c : Command) (a : Arguments) : Except UsageError Request :=
  match c with
  | .annotate => do
    let sequence ← a.integer? "--sequence"
    let t ← manifests s a.rest
    return .annotate
      { cluster := a.operand? "--cluster"
        app := a.operand? "--app"
        stack := a.operand? "--stack"
        detail := a.operand? "--detail"
        sequence
        artifactType := a.operand? "--artifact-type"
        artifactName := a.operand? "--artifact-name"
        artifactLocation := a.operand? "--artifact-location"
        artifactVersion := a.operand? "--artifact-version"
        loadBalancers := a.operands "--load-balancer"
        securityGroups := a.operands "--security-group"
        manifests := t }
  | .get => (manifests s a.rest).map .get
  | .keys => (finish a.rest).map fun () => .keys

/-- Reads the arguments of a command. -/
def request (s : Sources) (c : Command) (args : List Text) : Except Refusal Request := do
  let a ← arguments c.form args
  (ofArguments s c a).mapError .usage

end Command

/-- What was asked for in front of a command, the command, and its arguments. -/
structure Front where
  debug : Bool
  domain : Text
  command : Command
  args : List Text

/-- The command of a name. A name that looks like a switch is first taken for one. -/
def commandOf (args : List Text) (name : Text) : Except Refusal Command :=
  match Command.all.find? fun c => c.label = name with
  | some c => .ok c
  | none => do
    if startsLikeSwitch name then let _ ← Command.arguments frontForm args
    .error (.usage (.noSuchCommand name (Text.guesses name (Command.all.map Command.label))))
where
  startsLikeSwitch : Text → Bool
    | c :: _ => c = '-'
    | [] => false

/-- Reads the arguments up to the command. Without any, help is given as an error. -/
def readFront (args : List Text) : Except Refusal Front := do
  let a ← Command.arguments frontForm args
  match a.rest with
  | [] => .error (.usage .missingCommand)
  | name :: rest =>
    let c ← commandOf a.rest name
    return ⟨a.has "--debug", (a.operand? "--domain").getD [], c, rest⟩

end AnnotationCodec.CommandLine
