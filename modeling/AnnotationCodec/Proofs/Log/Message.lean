import AnnotationCodec.Log.Basic
import AnnotationCodec.Proofs.Except
import AnnotationCodec.Proofs.Run

/-!
When logging comes to its end: when the message is skipped, or all that it shows has a text and the log file can be
opened.
-/
namespace AnnotationCodec

/-- A step taken on every item succeeds when it succeeds on each. -/
theorem exists_mapM_eq_ok_iff {ε α β : Type} {f : α → Except ε β} {xs : List α} :
    (∃ bs, xs.mapM f = .ok bs) ↔ ∀ x ∈ xs, ∃ b, f x = .ok b := by
  induction xs with
  | nil => simp [pure, Except.pure]
  | cons x xs ih =>
    rw [List.mapM_cons, List.forall_mem_cons, ← ih]
    cases f x with
    | error e => simp [bind, Except.bind]
    | ok b => cases xs.mapM f <;> simp [bind, Except.bind, pure, Except.pure]

namespace Log

/-- Whether a value has a text in messages. -/
def Shows (v : Value) : Prop :=
  ∃ t, displayed v = .ok t

/-- Whether what is kept can be kept: there is no log file, or it can be opened. -/
def Opens (env : Environment) (s : Settings) : Prop :=
  s.hasFile = true → ∃ name, env.resolve s.path = .ok name

variable {env : Environment} {s : Settings} {l : Level} {clock line : Text} {words : List Value}
  {attributes : List (Text × Value)}

/-- How an attribute is shown. -/
def shown (a : Text × Value) : Except Failure Text := do
  let t ← displayed a.2
  return a.1 ++ text "=\"" ++ t ++ text "\""

theorem exists_shown_iff {a : Text × Value} : (∃ t, shown a = .ok t) ↔ Shows a.2 := by
  unfold shown Shows
  cases displayed a.2 <;> simp [bind, Except.bind, pure, Except.pure]

/-- A message can be written when everything that it shows has a text. -/
theorem exists_message_iff : (∃ t, message clock l words attributes = .ok t) ↔
    (∀ a ∈ attributes, Shows a.2) ∧ ∀ w ∈ words, Shows w := by
  have hattributes : (∃ ts, attributes.mapM shown = .ok ts) ↔ ∀ a ∈ attributes, Shows a.2 := by
    rw [exists_mapM_eq_ok_iff]
    exact forall₂_congr fun a _ => exists_shown_iff
  have hwords : (∃ ts, words.mapM displayed = .ok ts) ↔ ∀ w ∈ words, Shows w := exists_mapM_eq_ok_iff
  rw [← hattributes, ← hwords]
  constructor
  · rintro ⟨t, h⟩
    obtain ⟨ts, hts, h⟩ := bind_eq_ok_iff.mp h
    obtain ⟨us, hus, -⟩ := bind_eq_ok_iff.mp h
    exact ⟨⟨ts, hts⟩, us, hus⟩
  · rintro ⟨⟨ts, hts⟩, us, hus⟩
    exact ⟨_, bind_eq_ok_iff.mpr ⟨ts, hts, bind_eq_ok_iff.mpr ⟨us, hus, rfl⟩⟩⟩

/-- A line can be put where it belongs when the log file can be opened. -/
theorem put_ends_iff : (put env s l line).Ends ↔ Opens env s := by
  unfold put Opens
  cases hfile : s.hasFile with
  | false =>
    refine iff_of_true ?_ (by simp)
    cases s.displays l <;> exact ⟨(), rfl⟩
  | true =>
    cases hname : env.resolve s.path with
    | error e =>
      refine iff_of_false ?_ (by simp)
      rintro ⟨u, h⟩
      cases h
    | ok name =>
      refine iff_of_true ?_ (by simp)
      cases s.displays l <;> exact ⟨(), rfl⟩

theorem log_ends_iff : (log env s l words attributes).Ends ↔
    s.skips l = true ∨ ((∀ a ∈ attributes, Shows a.2) ∧ ∀ w ∈ words, Shows w) ∧ Opens env s := by
  unfold log
  split
  · next hskip => exact iff_of_true ⟨(), rfl⟩ (.inl hskip)
  · next hskip =>
    simp only [Run.ends_bind_iff, Run.result_lift_eq_ok_iff, put_ends_iff, exists_and_right, exists_message_iff,
      hskip, Bool.false_eq_true, false_or]

end Log

end AnnotationCodec
