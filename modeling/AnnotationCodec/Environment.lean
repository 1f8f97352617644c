import AnnotationCodec.Failure

/-!
What the program finds around it: variables, and files by their paths. Paths are taken from the working
directory.
-/

namespace AnnotationCodec

/-- The values of variables by their full names, and the contents of files. -/
structure Environment where
  bindings : List (Text × Text)
  files : List (Text × Text)

namespace Environment

variable (env : Environment)

/-- What all variables start with. -/
def variableStart : Text :=
  text "MANIFEST_ANNOTATIONS_"

/-- The value of the variable with a given end of its name. -/
def named? (name : String) : Option Text :=
  (env.bindings.find? fun e => e.1 = variableStart ++ text name).map Prod.snd

/-- The content of a file by its name. -/
def file? (name : Text) : Option Text :=
  (env.files.find? fun e => e.1 = name).map Prod.snd

/-- A part of a path that stays where it is. -/
def isHere (part : Text) : Bool :=
  part.isEmpty || part = text "."

/-- The name under which the file of a path is found, or may be made. Another path than a known one leads to a
file in the working directory. -/
def resolve (path : Text) : Except FileError Text :=
  let parts := Text.splitAt '/' path
  let name := parts.getLast?.getD []
  if path.isEmpty then .error .missing
  else if (env.file? path).isSome then .ok path
  else
    match parts.dropLast.find? fun part => !isHere part with
    | some part => .error (if (env.file? part).isSome then .noDirectory else .missing)
    | none =>
      if isHere name || name = text ".." then .error .directory
      else if path.head? = some ('/' : CodePoint) then .error .missing
      else .ok name

/-- The content of the file at a path. Line breaks of all kinds are read as line feeds. -/
def content (path : Text) : Except FileError Text := do
  let name ← env.resolve path
  match env.file? name with
  | none => .error .missing
  | some t => .ok t.normalizeNewlines

/-- Reads a file. -/
def read (path : Text) : Except Failure Text :=
  (env.content path).mapError .file

end Environment

end AnnotationCodec
