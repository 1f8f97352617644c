import AnnotationCodec.Yaml.Printer

/-! Streams of documents: what is written of them up to the first one that cannot be written. -/
namespace AnnotationCodec.Yaml

variable {d : Dialect} {first isOpen : Bool} {ts : List Tree}

/-- Trees as documents, one behind the other. -/
def documents (d : Dialect) : (first : Bool) → List Tree → Text
  | _, [] => []
  | first, t :: ts => writeDocument d first t ++ documents d false ts

theorem writeFrom_ok (h : ∀ t ∈ ts, isOpenEnded d t = false) :
    writeFrom d first false (ts.map .ok) = ⟨documents d first ts, .ok ()⟩ := by
  induction ts generalizing first with
  | nil => rfl
  | cons t ts ih =>
    rw [List.forall_mem_cons] at h
    simp [writeFrom, documents, h.1, ih h.2]

end AnnotationCodec.Yaml
