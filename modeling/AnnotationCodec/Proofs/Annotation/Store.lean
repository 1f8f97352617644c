import AnnotationCodec.Annotation.Store
import AnnotationCodec.Proofs.Annotation.Codec
import AnnotationCodec.Proofs.Annotation.Key
import AnnotationCodec.Proofs.Value.Entries

/-!
Storing and reading descriptors in one map. Storing what fits always comes to its end, writes the given fields
and nothing else, and reading depends on the keys of the family only.
-/
namespace AnnotationCodec

namespace Descriptor

variable {α : Type}

/-- The value that a descriptor has for a field of its family. -/
def value? : Descriptor α → Field → Option α
  | .moniker m, .app => some m.app
  | .moniker m, .cluster => some m.cluster
  | .moniker m, .stack => some m.stack
  | .moniker m, .detail => some m.detail
  | .moniker m, .sequence => some m.sequence
  | .artifact a, .type => some a.type
  | .artifact a, .name => some a.name
  | .artifact a, .location => some a.location
  | .artifact a, .version => some a.version
  | .relationships r, .loadBalancers => some r.loadBalancers
  | .relationships r, .securityGroups => some r.securityGroups
  | _, _ => none

theorem mem_entries_iff {d : Descriptor α} {f : Field} {v : α} : (f, v) ∈ d.entries ↔ d.value? f = some v := by
  cases d <;> cases f <;> simp [entries, value?, eq_comm]

theorem nodup_entries (d : Descriptor α) : (d.entries.map Prod.fst).Nodup := by
  rw [entries_fields]
  cases d.family <;> decide

end Descriptor

/-- A value that can be stored for a family: a descriptor of it whose fields are null or fit their shapes, or null
unless a descriptor must be there. -/
def Value.FitsFamily (family : Family) (v : Value) : Prop :=
  (v = .null ∧ family ≠ .moniker) ∨
    ∃ d : Descriptor Value, v = .descriptor d ∧ d.family = family ∧
      ∀ f w, d.value? f = some w → w = .null ∨ w.Fits f.shape

/-- The value that is given for a field: what a descriptor has for it, unless it is null. -/
def Value.given? (f : Field) : Value → Option Value
  | .descriptor d => (d.value? f).filter fun w => !w.isNull
  | _ => none

namespace Schema

variable {s : Schema} {es es' : Entries} {fs : List (Field × Value)} {f : Field} {v : Value}

/-- What storing fields makes of a map: the fields that are not null are there as their texts, and every other key
has what it had. -/
structure Stored (s : Schema) (fs : List (Field × Value)) (es es' : Entries) : Prop where
  written : ∀ f v, (f, v) ∈ fs → v.isNull = false →
    ∃ t, (∀ key, Codec.encode key f.shape v = .ok t ∧ Codec.decode key f.shape (.str t) = .ok v) ∧
      es'.get? (s.key f) = some (.str t)
  kept : ∀ k, (∀ f v, (f, v) ∈ fs → v.isNull = false → k ≠ .str (s.key f)) → es'.valueAt? k = es.valueAt? k

namespace Stored

variable {t : Text}

theorem skip (h : Stored s fs es es') (hv : v.isNull = true) : Stored s ((f, v) :: fs) es es' := by
  constructor
  · intro g w hm hw
    rcases List.mem_cons.mp hm with heq | hm
    · cases heq
      rw [hv] at hw
      cases hw
    · exact h.written g w hm hw
  · intro k hne
    exact h.kept k fun g w hm => hne g w (List.mem_cons_of_mem _ hm)

/-- The text of the first field is still there in the end, because no other field has its key. -/
theorem write (h : Stored s fs (es.set (s.key f) (.str t)) es') (hv : v.isNull = false)
    (ht : ∀ key, Codec.encode key f.shape v = .ok t ∧ Codec.decode key f.shape (.str t) = .ok v)
    (hk : ∀ g w, (g, w) ∈ fs → s.key f ≠ s.key g) : Stored s ((f, v) :: fs) es es' := by
  constructor
  · intro g w hm hw
    rcases List.mem_cons.mp hm with heq | hm
    · cases heq
      refine ⟨t, ht, ?_⟩
      rw [← Entries.valueAt?_str, h.kept _ fun g w hm _ => by simpa using hk g w hm, Entries.valueAt?_str,
        Entries.get?_set_self]
    · exact h.written g w hm hw
  · intro k hne
    rw [h.kept k fun g w hm => hne g w (List.mem_cons_of_mem _ hm)]
    exact Entries.valueAt?_set_of_ne (hne f v (List.mem_cons_self ..) hv) _ _

end Stored

theorem storeFields_of_fits (hk : ∀ f g, s.key f = s.key g → f = g) (hn : (fs.map Prod.fst).Nodup)
    (hf : ∀ f v, (f, v) ∈ fs → v.isNull = false → v.Fits f.shape) (es : Entries) :
    ∃ es', s.storeFields fs es = .done es' ∧ Stored s fs es es' := by
  induction fs generalizing es with
  | nil => exact ⟨es, rfl, by simp, by simp⟩
  | cons e fs ih =>
    obtain ⟨f, v⟩ := e
    rw [List.map_cons, List.nodup_cons] at hn
    have hrest := fun g w hm => hf g w (List.mem_cons_of_mem _ hm)
    cases hv : v.isNull with
    | true =>
      obtain ⟨es', hs, h⟩ := ih hn.2 hrest es
      exact ⟨es', by rw [storeFields, if_pos hv, hs], h.skip hv⟩
    | false =>
      obtain ⟨t, ht⟩ := Codec.exists_encode (hf f v (List.mem_cons_self ..) hv)
      obtain ⟨es', hs, h⟩ := ih hn.2 hrest (es.set (s.key f) (.str t))
      refine ⟨es', ?_, h.write hv ht fun g w hm heq => ?_⟩
      · rw [storeFields, if_neg (by simp [hv]), (ht (.str (s.key f))).1]
        exact hs
      · rw [hk f g heq] at hn
        exact hn.1 (List.mem_map.mpr ⟨_, hm, rfl⟩)

end Schema

end AnnotationCodec
