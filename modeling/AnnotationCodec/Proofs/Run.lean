import AnnotationCodec.Run

/-! When a computation comes to its end: when every part of it does. -/
namespace AnnotationCodec

variable {α β : Type} {x : Run α} {f : α → Run β} {a : α} {b : β} {s : Stop} {e : Except Failure α}

/-- Whether a computation comes to its end. -/
def Run.Ends (x : Run α) : Prop :=
  ∃ a, x.result = .ok a

instance (x : Run α) : Decidable x.Ends :=
  decidable_of_iff (x.result.isOk = true) <| by
    unfold Run.Ends
    cases x.result <;> simp [Except.isOk, Except.toBool]

namespace Run

theorem result_pure (a : α) : (pure a : Run α).result = .ok a :=
  rfl

theorem result_bind_of_ok (f : α → Run β) (h : x.result = .ok a) : (x >>= f).result = (f a).result := by
  show (andThen x f).result = _
  simp only [andThen, h]

theorem result_bind_of_error (f : α → Run β) (h : x.result = .error s) : (x >>= f).result = .error s := by
  show (andThen x f).result = _
  simp only [andThen, h]

theorem result_bind_eq_ok_iff : (x >>= f).result = .ok b ↔ ∃ a, x.result = .ok a ∧ (f a).result = .ok b := by
  cases h : x.result with
  | error s => simp [result_bind_of_error f h]
  | ok a => simp [result_bind_of_ok f h]

theorem ends_bind_iff : (x >>= f).Ends ↔ ∃ a, x.result = .ok a ∧ (f a).Ends := by
  simp only [Ends, result_bind_eq_ok_iff]
  constructor
  · rintro ⟨b, a, ha, hb⟩
    exact ⟨a, ha, b, hb⟩
  · rintro ⟨a, ha, b, hb⟩
    exact ⟨b, a, ha, hb⟩

theorem result_lift_eq_ok_iff : (liftM e : Run α).result = .ok a ↔ e = .ok a := by
  show (ofExcept e).result = .ok a ↔ _
  cases e with
  | ok b =>
    show Except.ok b = .ok a ↔ Except.ok b = .ok a
    simp
  | error f =>
    show Except.error _ = .ok a ↔ Except.error f = .ok a
    simp

end Run

end AnnotationCodec
