import AnnotationCodec.Text.Basic

/-!
The forms of command lines: the words that a command is called by, its switches, and what else it takes. Usage
and help are texts of a form.
-/

namespace AnnotationCodec.CommandLine

/-- What stands behind a switch. -/
inductive Operand
  | none
  | word
  | number
  deriving DecidableEq, Repr

/-- A switch such as `--domain`; `help` explains it in lines. -/
structure Switch where
  name : Text
  operand : Operand
  help : List Text

/-- A command with a line about it. -/
structure Listed where
  name : Text
  brief : Text

/-- The form of a command. `about` is what it does, in paragraphs of one line. In a command with commands of its
own, all that stands behind the first operand belongs to that one. -/
structure Form where
  path : Text
  operands : Text
  about : List Text
  switches : List Switch
  commands : List Listed

namespace Operand

def label : Operand → Text
  | .none => []
  | .word => text " TEXT"
  | .number => text " INTEGER"

end Operand

/-- The switch that every command has. -/
def Switch.help? : Switch :=
  ⟨text "--help", .none, [text "Show this message and exit."]⟩

namespace Form

variable (f : Form)

/-- The line that shows how a command is used. -/
def usage : Text :=
  text "Usage: " ++ f.path ++ text " [OPTIONS]" ++
    (if f.operands.isEmpty then [] else text " " ++ f.operands) ++ text "\n"

def hasCommands : Bool :=
  !f.commands.isEmpty

/-- A label of a table and the lines beside it. -/
def row (width : Nat) (label : Text) : List Text → Text
  | [] => text "  " ++ label ++ text "\n"
  | line :: lines =>
    text "  " ++ label ++ Text.spaces (width - label.length) ++ text "  " ++ line ++ text "\n" ++
      lines.flatMap fun l => Text.spaces (width + 4) ++ l ++ text "\n"

/-- A table under a heading, with the labels in a column as wide as the longest. -/
def table (heading : String) (rows : List (Text × List Text)) : Text :=
  let width := rows.foldl (fun n r => max n r.1.length) 0
  text "\n" ++ text heading ++ text ":\n" ++ rows.flatMap fun r => row width r.1 r.2

/-- The help of a command. -/
def help : Text :=
  f.usage ++ (f.about.flatMap fun p => text "\n  " ++ p ++ text "\n") ++
    table "Options" (f.switches.map fun s => (s.name ++ s.operand.label, s.help)) ++
    (if f.hasCommands then table "Commands" (f.commands.map fun c => (c.name, [c.brief])) else [])

end Form

end AnnotationCodec.CommandLine
