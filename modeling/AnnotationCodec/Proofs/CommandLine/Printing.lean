import AnnotationCodec.CommandLine.Program
import AnnotationCodec.Proofs.Manifest.Stream
import AnnotationCodec.Proofs.Output

/-!
What the program writes to standard output when it ends with an error. Nothing is written before all manifests are
loaded and annotated, but then each document is written as soon as it is known.
-/
namespace AnnotationCodec

namespace Log

variable {env : Environment} {s : Settings} {l : Level}

end Log

namespace Config

variable {env : Environment} {log : Log.Settings} {c : Config}

end Config

namespace CommandLine

namespace Workplace

variable {w : Workplace}

/-- Loads the manifests of a request and annotates them. -/
def annotated (w : Workplace) (r : AnnotateRequest) : Run (List Manifest) := do
  w.annotateAll r.descriptors (← w.load r.manifests)

end Workplace

/-- Writes manifests to standard output. -/
def printAll (ms : List Manifest) : Run Unit := do
  Run.write ⟨(Manifest.writeAll ms).text, [], []⟩
  (Manifest.writeAll ms).result

theorem carryOut_annotate (w : Workplace) (r : AnnotateRequest) :
    carryOut w (.annotate r) = w.annotated r >>= printAll :=
  (Run.bind_assoc _ _ _).symm

/-- What the program does before it carries out a request: it finds where to work, and what is asked for. -/
def prepare (s : Start) : Run (Workplace × Request) := do
  let env := s.sources.env
  let front ← front s.args
  let log := if front.debug then { s.log with debug := true, verbose := false } else s.log
  let (config, set) := settle env log front.domain
  set
  let request ← accept front.command.form (front.command.request s.sources front.args)
  let schema ← (config.schema env log .null).2
  return (⟨env, log, schema⟩, request)

theorem run_eq (s : Start) : run s = prepare s >>= fun p => carryOut p.1 p.2 := by
  simp only [prepare, Run.bind_assoc, Run.pure_bind]
  rfl

end CommandLine

end AnnotationCodec
