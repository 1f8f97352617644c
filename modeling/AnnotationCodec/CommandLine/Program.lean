import AnnotationCodec.CommandLine.Manifests
import AnnotationCodec.Config

/-!
The program: from its arguments and what it finds around it to what it writes and how it ends.
-/

namespace AnnotationCodec.CommandLine

/-- What the program finds when it starts. -/
structure Start where
  sources : Sources
  log : Log.Settings
  args : List Text

/-- Answers arguments that are not carried out. Help that was asked for is no error. -/
def refuse {α : Type} (f : Form) : Refusal → Run α
  | .help => do
    Run.write ⟨f.help, [], []⟩
    Run.stop (.exit (.int 0))
  | .usage e => do
    Run.write ⟨[], e.report f, []⟩
    Run.stop (.exit (.int 2))

/-- What was asked for, if it is not refused. -/
def accept {α : Type} (f : Form) : Except Refusal α → Run α
  | .ok a => pure a
  | .error r => refuse f r

/-- The arguments in front of the command. A program without arguments shows its help as an error. -/
def front (args : List Text) : Run Front := do
  if args.isEmpty then
    Run.write ⟨[], frontForm.help, []⟩
    Run.stop (.exit (.int 2))
  else accept frontForm (readFront args)

/-- Sets the domain that was asked for. -/
def settle (env : Environment) (log : Log.Settings) (domain : Text) : Config × Run Unit :=
  if domain.isEmpty then (.fresh, pure ())
  else Config.fresh.set env log (.str Config.domainKey) (.str domain) .null

/-- Carries out a request. -/
def carryOut (w : Workplace) : Request → Run Unit
  | .annotate r => do
    let ms ← w.load r.manifests
    let ms ← w.annotateAll r.descriptors ms
    let written := Manifest.writeAll ms
    Run.write ⟨written.text, [], []⟩
    written.result
  | .get t => do
    let ms ← w.load t
    let accounts ← w.accounts ms
    if ms.any Manifest.endless && accounts.any hasCollection then Run.stop (.failure .tooDeep)
    else Log.print (.list (accounts.map Workplace.Account.toValue))
  | .keys => Log.print (.list (w.schema.entries.map SchemaEntry.toValue))
where
  hasCollection (a : Workplace.Account) : Bool :=
    isCollection a.kind || isCollection a.name
  isCollection : Value → Bool
    | .list _ | .map _ => true
    | _ => false

/-- Runs the program. The domain is set before the arguments of the command are read. -/
def run (s : Start) : Run Unit := do
  let env := s.sources.env
  let front ← front s.args
  let log := if front.debug then { s.log with debug := true, verbose := false } else s.log
  let (config, set) := settle env log front.domain
  set
  let request ← accept front.command.form (front.command.request s.sources front.args)
  let (_, schema) := config.schema env log .null
  carryOut ⟨env, log, ← schema⟩ request

/-- The exit status of a program that came to its end or was stopped. -/
def status (r : Run Unit) : Nat :=
  match r.result with
  | .ok () => 0
  | .error (.failure _) => 1
  | .error (.exit (.int n)) => n.toNat
  | .error (.exit _) => 1

end AnnotationCodec.CommandLine
