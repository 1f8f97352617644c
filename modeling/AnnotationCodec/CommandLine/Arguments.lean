import AnnotationCodec.CommandLine.Form
import AnnotationCodec.Failure
import AnnotationCodec.Text.Similarity
import AnnotationCodec.Text.Terminal

/-!
Arguments read by the form of a command, from left to right. Each fault in them is a constructor of
`UsageError`, whose wording is in `UsageError.message`.
-/

namespace AnnotationCodec

namespace CommandLine

/-- What is wrong with a command line. -/
inductive UsageError
  | noSuchSwitch (name : Text) (guesses : List Text)
  | missingOperand (switch : Text)
  | unexpectedOperand (switch : Text)
  | noSuchCommand (name : Text) (guesses : List Text)
  | missingCommand
  | invalidInteger (switch value : Text)
  | missingArgument (name : Text)
  | unreadable (name path : Text) (e : FileError)
  | unexpectedArguments (arguments : List Text)
  deriving DecidableEq, Repr

end CommandLine

namespace FileError

def message : FileError → Text
  | .missing => text "No such file or directory"
  | .directory => text "Is a directory"
  | .noDirectory => text "Not a directory"

end FileError

namespace CommandLine

namespace UsageError

/-- The sentence that offers guesses, behind a blank. -/
def offer : List Text → Text
  | [] => []
  | [g] => text " Did you mean " ++ g.literal ++ text "?"
  | gs => text " (Did you mean one of: " ++ Text.joinWith (text ", ") (gs.map Text.literal) ++ text "?)"

/-- What is wrong with a value that is given for a name. -/
def invalid (name problem : Text) : Text :=
  text "Invalid value for '" ++ name ++ text "': " ++ problem

def message : UsageError → Text
  | .noSuchSwitch name guesses => text "No such option " ++ name.literal ++ text "." ++ offer guesses
  | .missingOperand switch => text "Option " ++ switch.literal ++ text " requires an argument."
  | .unexpectedOperand switch => text "Option " ++ switch.literal ++ text " does not take a value."
  | .noSuchCommand name guesses => text "No such command " ++ name.literal ++ text "." ++ offer guesses
  | .missingCommand => text "Missing command."
  | .invalidInteger switch value => invalid switch (value.literal ++ text " is not a valid integer.")
  | .missingArgument name => text "Missing argument '" ++ name ++ text "'."
  | .unreadable name path e => invalid name (text "'" ++ path ++ text "': " ++ e.message)
  | .unexpectedArguments [a] => text "Got unexpected extra argument (" ++ a ++ text ")"
  | .unexpectedArguments as =>
    text "Got unexpected extra arguments (" ++ Text.joinWith (text " ") as ++ text ")"

/-- Whether the usage of the command is shown with the error. -/
def showsUsage : UsageError → Bool
  | .missingOperand _ | .unexpectedOperand _ => false
  | _ => true

/-- The report of an error to the user of a command. It controls no terminal. -/
def report (f : Form) (e : UsageError) : Text :=
  (if e.showsUsage then
    f.usage ++ text "Try '" ++ f.path ++ text " --help' for help.\n\n"
  else []) ++ text "Error: " ++ e.message.dropControls ++ text "\n"

end UsageError

/-- The switches that were given, each with its operand, and the other arguments. -/
structure Arguments where
  given : List (Text × Text)
  rest : List Text
  deriving DecidableEq, Repr

namespace Arguments

def give (switch operand : Text) (a : Arguments) : Arguments :=
  { a with given := (switch, operand) :: a.given }

def keep (argument : Text) (a : Arguments) : Arguments :=
  { a with rest := argument :: a.rest }

variable (a : Arguments)

def has (switch : String) : Bool :=
  a.given.any fun g => g.1 = text switch

/-- All operands of a switch, in the order in which they were given. -/
def operands (switch : String) : List Text :=
  (a.given.filter fun g => g.1 = text switch).map Prod.snd

/-- The operand of a switch. The last one counts. -/
def operand? (switch : String) : Option Text :=
  (a.operands switch).getLast?

end Arguments

namespace Form

variable (f : Form)

/-- Whether an argument is a switch by its look. A lone dash is none. -/
def looksLikeSwitch : Text → Bool
  | c :: _ :: _ => c = '-'
  | _ => false

/-- Cuts an argument at the first equals sign. -/
def cutOperand (argument : Text) : Text × Option Text :=
  match argument.span fun (c : CodePoint) => c ≠ '=' with
  | (name, _ :: operand) => (name, some operand)
  | (name, []) => (name, none)

def names : List Text :=
  f.switches.map Switch.name

/-- The switch that an argument names, with the operand in the argument. Switches with one dash have one letter,
and there are none. -/
def switchOf (argument : Text) : Except UsageError (Switch × Option Text) :=
  let (name, operand) := cutOperand argument
  match f.switches.find? fun s => s.name = name with
  | some s =>
    if s.operand = .none && operand.isSome then .error (.unexpectedOperand s.name)
    else .ok (s, operand)
  | none =>
    if argument.take 2 = text "--" then .error (.noSuchSwitch name (Text.guesses name f.names))
    else .error (.noSuchSwitch (argument.take 2) [])

/-- Reads the arguments of a command. A switch takes the next argument for its operand, whatever it looks like;
two dashes end the switches, and so does the first other argument of a command with commands. -/
def read : List Text → Except UsageError Arguments
  | [] => .ok ⟨[], []⟩
  | a :: as =>
    if a = text "--" then .ok ⟨[], as⟩
    else if looksLikeSwitch a then
      match f.switchOf a with
      | .error e => .error e
      | .ok (s, some operand) => (read as).map (Arguments.give s.name operand)
      | .ok (s, none) =>
        if s.operand = .none then (read as).map (Arguments.give s.name [])
        else
          match as with
          | [] => .error (.missingOperand s.name)
          | operand :: as => (read as).map (Arguments.give s.name operand)
    else if f.hasCommands then .ok ⟨[], a :: as⟩
    else (read as).map (Arguments.keep a)

end Form

end CommandLine

end AnnotationCodec
