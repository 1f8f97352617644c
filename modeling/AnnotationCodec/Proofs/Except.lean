/-! How a result of `map` and `bind` on `Except` came about, and which item of a list is the first to fail a test. -/
namespace AnnotationCodec

variable {ε α β : Type} {x : Except ε α} {b : β}

theorem map_eq_ok_iff {f : α → β} : x.map f = .ok b ↔ ∃ a, x = .ok a ∧ f a = b := by
  cases x <;> simp [Except.map]

theorem map_eq_error_iff {f : α → β} {e : ε} : x.map f = .error e ↔ x = .error e := by
  cases x <;> simp [Except.map]

theorem mapError_eq_ok_iff {ε' : Type} {f : ε → ε'} {a : α} : x.mapError f = .ok a ↔ x = .ok a := by
  cases x with
  | error e => constructor <;> exact fun h => nomatch h
  | ok b =>
    constructor <;> intro h <;> cases h
    all_goals rfl

theorem bind_eq_ok_iff {f : α → Except ε β} : x.bind f = .ok b ↔ ∃ a, x = .ok a ∧ f a = .ok b := by
  cases x <;> simp [Except.bind]

theorem exists_map_ok_iff {f : α → β} : (∃ b, x.map f = .ok b) ↔ ∃ a, x = .ok a := by
  cases x <;> simp [Except.map]

theorem exists_bind_ok_iff {f : α → Except ε β} : (∃ b, x >>= f = .ok b) ↔ ∃ a, x = .ok a ∧ ∃ b, f a = .ok b := by
  cases x <;> simp [bind, Except.bind]

theorem exists_pure_ok_iff {a : α} : (∃ b, (pure a : Except ε α) = .ok b) ↔ True := by
  simp [pure, Except.pure]

/-- If not all items pass, there is a first one that does not. -/
theorem exists_first {p : α → Prop} {xs : List α} (h : ¬ ∀ x ∈ xs, p x) :
    ∃ before x after, xs = before ++ x :: after ∧ (∀ y ∈ before, p y) ∧ ¬ p x := by
  induction xs with
  | nil => simp at h
  | cons x xs ih =>
    by_cases hx : p x
    · obtain ⟨before, y, after, rfl, hb, hy⟩ := ih fun hxs => h (List.forall_mem_cons.mpr ⟨hx, hxs⟩)
      exact ⟨x :: before, y, after, rfl, List.forall_mem_cons.mpr ⟨hx, hb⟩, hy⟩
    · exact ⟨[], x, xs, rfl, by simp, hx⟩

end AnnotationCodec
