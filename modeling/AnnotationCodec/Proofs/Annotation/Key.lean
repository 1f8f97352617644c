import AnnotationCodec.Annotation.Schema
import Mathlib.Data.List.Basic

/-!
The keys of all domains are different. A key is cut at its only slash into a family with a domain and a suffix,
and the family is what stands before the first point.
-/
namespace AnnotationCodec

/-- Two texts are cut at their first `a` alike. -/
theorem append_cons_inj {a : CodePoint} {x y u v : Text} (hx : a ∉ x) (hy : a ∉ y)
    (h : x ++ a :: u = y ++ a :: v) : x = y ∧ u = v := by
  induction x generalizing y with
  | nil =>
    cases y with
    | nil => simpa using h
    | cons b y => exact (hy (by simp [(List.cons.inj h).1])).elim
  | cons c x ih =>
    cases y with
    | nil => exact (hx (by simp [← (List.cons.inj h).1])).elim
    | cons b y =>
      simp only [List.cons_append, List.cons.injEq] at h
      obtain ⟨rfl, h⟩ := h
      obtain ⟨rfl, rfl⟩ := ih (fun hm => hx (by simp [hm])) (fun hm => hy (by simp [hm])) h
      exact ⟨rfl, rfl⟩

/-- A text that may be an annotation domain. -/
structure Domain where
  label : Text
  ne_nil : label ≠ []
  no_slash : ('/' : CodePoint) ∉ label
  deriving DecidableEq

/-- The domain of the default schema. -/
def Domain.default : Domain :=
  ⟨Schema.defaultDomain, by decide, by decide⟩

namespace Field

theorem no_point_family (f : Field) : ('.' : CodePoint) ∉ f.family.label := by
  cases f <;> decide

theorem no_slash_family (f : Field) : ('/' : CodePoint) ∉ f.family.label := by
  cases f <;> decide

/-- The family and the suffix of a field tell which it is. -/
theorem eq_of_labels {f g : Field} (hf : f.family.label = g.family.label) (hs : f.suffix = g.suffix) : f = g := by
  revert hf hs
  cases f <;> cases g <;> decide

end Field

namespace Domain

variable (d : Domain)

/-- The schema of a domain. -/
def schema : Schema :=
  ⟨.str d.label, d.label⟩

theorem make_label : Schema.make (.str d.label) = .ok d.schema := by
  have ht : (Value.str d.label).isTruthy = true := by
    simp [Value.isTruthy, d.ne_nil]
  have hs : (Value.str d.label).hasSlash? = some false := by
    simp [Value.hasSlash?, d.no_slash]
  simp only [Schema.make, ht, hs]
  rfl

theorem key_eq (f : Field) : d.schema.key f =
    (f.family.label ++ (('.' : Char) : CodePoint) :: d.label) ++ (('/' : Char) : CodePoint) :: f.suffix := by
  simp [Schema.key, schema, text]

theorem no_slash_start (f : Field) :
    ('/' : CodePoint) ∉ f.family.label ++ (('.' : Char) : CodePoint) :: d.label := by
  simp only [List.mem_append, List.mem_cons, not_or]
  exact ⟨f.no_slash_family, by decide, d.no_slash⟩

/-- A key is the same in two schemas only if their domains are the same, and the fields. -/
theorem key_injective {c d : Domain} {f g : Field} (h : c.schema.key f = d.schema.key g) : c = d ∧ f = g := by
  rw [key_eq, key_eq] at h
  obtain ⟨hs, hf⟩ := append_cons_inj (c.no_slash_start f) (d.no_slash_start g) h
  obtain ⟨hl, hd⟩ := append_cons_inj f.no_point_family g.no_point_family hs
  refine ⟨?_, Field.eq_of_labels hl hf⟩
  cases c
  cases d
  cases hd
  rfl

end Domain

end AnnotationCodec
