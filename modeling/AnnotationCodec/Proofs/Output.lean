import AnnotationCodec.Proofs.Run

/-!
What computations write. A silent one writes nothing to standard output, however it ends. What is written to standard error
is followed through the parts of a computation.
-/
namespace AnnotationCodec

variable {α β : Type} {x : Run α} {f : α → Run β} {a : α}

namespace Output

theorem append_assoc (a b c : Output) : a ++ b ++ c = a ++ (b ++ c) := by
  show append (append a b) c = append a (append b c)
  simp only [append, List.append_assoc]

end Output

namespace Run

/-- Whether a computation writes nothing to standard output. -/
def Silent (x : Run α) : Prop :=
  x.output.out = []

/-- Whether a computation that writes to standard output has ended the program with it, and not with an error. -/
def Answers (x : Run α) : Prop :=
  x.Silent ∨ x.result = .error (.exit (.int 0))

theorem bind_of_ok (f : α → Run β) (h : x.result = .ok a) :
    x >>= f = ⟨x.output ++ (f a).output, (f a).result⟩ := by
  show andThen x f = _
  simp only [andThen, h]

theorem bind_of_error (f : α → Run β) {s : Stop} (h : x.result = .error s) : x >>= f = ⟨x.output, .error s⟩ := by
  show andThen x f = _
  simp only [andThen, h]

theorem bind_assoc {γ : Type} (x : Run α) (f : α → Run β) (g : β → Run γ) :
    x >>= f >>= g = x >>= fun a => f a >>= g := by
  cases hx : x.result with
  | error s =>
    rw [bind_of_error f hx, bind_of_error _ rfl, bind_of_error _ hx]
  | ok a =>
    rw [bind_of_ok f hx, bind_of_ok _ hx]
    cases hf : (f a).result with
    | error s => rw [bind_of_error _ rfl, bind_of_error _ hf]
    | ok b => rw [bind_of_ok _ rfl, bind_of_ok _ hf, Output.append_assoc]

theorem pure_bind (a : α) (f : α → Run β) : pure a >>= f = f a :=
  rfl

theorem lift_ok_bind (a : α) (f : α → Run β) : ((liftM (.ok a : Except Failure α) : Run α) >>= f) = f a :=
  rfl

theorem Silent.answers (h : x.Silent) : x.Answers :=
  .inl h

/-- What comes behind a computation and writes nothing to standard error leaves what was written there. -/
theorem err_bind_of_nil (x : Run α) (hf : ∀ a, (f a).output.err = []) : (x >>= f).output.err = x.output.err := by
  cases h : x.result with
  | error s => rw [bind_of_error f h]
  | ok a =>
    rw [bind_of_ok f h]
    show x.output.err ++ (f a).output.err = _
    rw [hf a, List.append_nil]

theorem err_lift_bind (e : Except Failure α) (f : α → Run β) : ((liftM e : Run α) >>= f).output.err =
    match e with
    | .ok a => (f a).output.err
    | .error _ => [] := by
  cases e <;> rfl

end Run

end AnnotationCodec
