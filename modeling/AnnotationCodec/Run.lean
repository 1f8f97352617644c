import AnnotationCodec.Failure

/-!
Computations that write text while they run, and that may stop before their end. What was written before a
stop stays written.
-/

namespace AnnotationCodec

/-- What has been written: to standard output, to standard error and to the log file. -/
structure Output where
  out : Text
  err : Text
  file : Text
  deriving DecidableEq, Repr

namespace Output

def empty : Output :=
  ⟨[], [], []⟩

def append (a b : Output) : Output :=
  ⟨a.out ++ b.out, a.err ++ b.err, a.file ++ b.file⟩

instance : Append Output :=
  ⟨append⟩

end Output

/-- Why a computation does not come to its end. -/
inductive Stop
  | failure (f : Failure)
  /-- The program was asked to end. -/
  | exit (code : Value)

/-- What a computation wrote, and its result. -/
structure Run (α : Type) where
  output : Output
  result : Except Stop α

namespace Run

variable {α β : Type}

def done (a : α) : Run α :=
  ⟨.empty, .ok a⟩

def andThen (x : Run α) (f : α → Run β) : Run β :=
  match x.result with
  | .error s => ⟨x.output, .error s⟩
  | .ok a => ⟨x.output ++ (f a).output, (f a).result⟩

instance : Monad Run where
  pure := done
  bind := andThen

def stop (s : Stop) : Run α :=
  ⟨.empty, .error s⟩

def write (o : Output) : Run Unit :=
  ⟨o, .ok ()⟩

def ofExcept (x : Except Failure α) : Run α :=
  ⟨.empty, x.mapError .failure⟩

instance : MonadLift (Except Failure) Run :=
  ⟨ofExcept⟩

end Run

end AnnotationCodec
