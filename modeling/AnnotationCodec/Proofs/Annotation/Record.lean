import AnnotationCodec.Proofs.Annotation.Writes
import Mathlib.Data.List.Nodup

/-!
What one schema leaves in an annotation map of its own: texts at its keys. A descriptor of each family that is stored into an
empty map is read from it again, whatever the order of storing is.
-/
namespace AnnotationCodec

/-- A map of texts at keys of a schema, none of them twice. -/
structure Schema.IsRecord (s : Schema) (a : Entries) : Prop where
  texts : ∀ e ∈ a, ∃ f t, e = (.str (s.key f), .str t)
  nodup : (a.map Prod.fst).Nodup

namespace Schema

variable {s : Schema} {a a' : Entries} {family : Family} {v : Value}

theorem isRecord_nil (s : Schema) : s.IsRecord [] :=
  ⟨fun _ he => absurd he List.not_mem_nil, .nil⟩

theorem IsRecord.set (h : s.IsRecord a) (f : Field) (t : Text) : s.IsRecord (a.set (s.key f) (.str t)) := by
  refine ⟨fun e he => ?_, Entries.nodup_set h.nodup _ _⟩
  rcases Entries.mem_set he with rfl | he
  · exact ⟨f, t, rfl⟩
  · exact h.texts e he

theorem IsRecord.storeFields (h : s.IsRecord a) (fs : List (Field × Value)) : s.IsRecord (s.storeFields fs a).value := by
  induction fs generalizing a with
  | nil => exact h
  | cons e fs ih =>
    obtain ⟨f, v⟩ := e
    rw [Schema.storeFields]
    split
    · exact ih h
    · split
      · exact h
      · exact ih (h.set f _)

theorem IsRecord.store (h : s.IsRecord a) (hstore : s.store family v (.map a) = .done (.map a')) : s.IsRecord a' := by
  have hvalue := congrArg Outcome.value hstore
  obtain rfl : (s.storeEntries family v a).value = a' := Value.map.inj hvalue
  unfold storeEntries
  split
  · exact h
  · exact h
  · exact h.storeFields _

end Schema

namespace Write

variable {d : Domain} {ws : List Write} {a a' : Entries} {ds : List (Descriptor Value)} {c : Descriptor Value} {f : Field} {v : Value}

theorem isRecord_run (hd : ∀ w ∈ ws, w.domain = d) (h : d.schema.IsRecord a)
    (hrun : run store ws (.map a) = .done (.map a')) : d.schema.IsRecord a' := by
  induction ws generalizing a with
  | nil =>
    obtain rfl : a = a' := Value.map.inj (congrArg Outcome.value hrun)
    exact h
  | cons w ws ih =>
    rw [List.forall_mem_cons] at hd
    obtain ⟨a₁, hone, -⟩ := w.store_map a
    rw [run, hone] at hrun
    refine ih hd.2 ?_ hrun
    rw [store, under_eq, hd.1] at hone
    exact h.store hone

/-! Descriptors of different families -/

/-- The writes of descriptors, under a domain. -/
theorem exists_writes_of_fits (d : Domain) (h : ∀ c ∈ ds, (Value.descriptor c).FitsFamily c.family) : ∃ ws : List Write,
    (∀ w ∈ ws, w.domain = d) ∧ ws.map (fun w => (w.family, w.descriptor)) = ds.map fun c => (c.family, .descriptor c) := by
  induction ds with
  | nil => exact ⟨[], by simp, rfl⟩
  | cons c ds ih =>
    rw [List.forall_mem_cons] at h
    obtain ⟨ws, hd, hws⟩ := ih h.2
    refine ⟨⟨d, c.family, .descriptor c, h.1⟩ :: ws, List.forall_mem_cons.mpr ⟨rfl, hd⟩, ?_⟩
    rw [List.map_cons, hws, List.map_cons]

theorem family_of_value? (h : c.value? f = some v) : f.family = c.family := by
  cases c <;> cases f <;> first | rfl | cases h

/-- Of a run of writes of different families, only the one of a field's family gives a value for it. -/
theorem last?_of_mem (hd : ∀ w ∈ ws, w.domain = d)
    (hws : ws.map (fun w => (w.family, w.descriptor)) = ds.map fun c => (c.family, .descriptor c))
    (hfamilies : (ds.map Descriptor.family).Nodup) (hc : c ∈ ds) (hv : c.value? f = some v) :
    last? ws d f = if v.isNull then none else some v := by
  have hgiven : ∀ w ∈ ws, ∀ u, w.given? d f = some u → u = v ∧ v.isNull = false := by
    intro w hw u hu
    have hmem := List.mem_map_of_mem (f := fun w => (w.family, w.descriptor)) hw
    rw [hws] at hmem
    obtain ⟨c', hc', heq⟩ := List.mem_map.mp hmem
    obtain ⟨-, hdescriptor⟩ := Prod.mk.inj heq
    obtain ⟨-, hentry, hnull⟩ := (given?_eq_some_iff hdescriptor.symm).mp hu
    have hu' := Descriptor.mem_entries_iff.mp hentry
    have hsame : c' = c := List.inj_on_of_nodup_map hfamilies hc' hc ((family_of_value? hu').symm.trans (family_of_value? hv))
    rw [hsame, hv] at hu'
    obtain rfl := Option.some.inj hu'
    exact ⟨rfl, hnull⟩
  cases hlast : last? ws d f with
  | some u =>
    obtain ⟨w, hw, hu⟩ := List.exists_of_findSome?_eq_some hlast
    obtain ⟨rfl, hnull⟩ := hgiven w (List.mem_reverse.mp hw) u hu
    rw [hnull]
    rfl
  | none =>
    have hmem := List.mem_map_of_mem (f := fun c => (c.family, Value.descriptor c)) hc
    rw [← hws] at hmem
    obtain ⟨w, hw, heq⟩ := List.mem_map.mp hmem
    have hnone := List.findSome?_eq_none_iff.mp hlast w (List.mem_reverse.mpr hw)
    cases hnull : v.isNull with
    | true => rfl
    | false =>
      have hsome := (given?_eq_some_iff (Prod.mk.inj heq).2).mpr ⟨hd w hw, Descriptor.mem_entries_iff.mpr hv, hnull⟩
      rw [hnone] at hsome
      cases hsome

end Write

namespace Family

theorem collect_congr {family : Family} {read read' : Field → Except Failure Value}
    (h : ∀ f, f.family = family → read f = read' f) : family.collect read = family.collect read' := by
  cases family with
  | moniker => simp only [collect, h .cluster rfl, h .app rfl, h .stack rfl, h .detail rfl, h .sequence rfl]
  | artifact => simp only [collect, h .type rfl, h .name rfl, h .location rfl, h .version rfl]
  | relationships => simp only [collect, h .loadBalancers rfl, h .securityGroups rfl]

/-- A descriptor is collected from its own values. -/
theorem collect_value? (c : Descriptor Value) : c.family.collect (fun f => .ok ((c.value? f).getD .null)) = .ok c := by
  cases c <;> rfl

end Family

theorem exists_value? (c : Descriptor Value) {f : Field} (h : f.family = c.family) : ∃ v, c.value? f = some v := by
  cases c <;> cases f <;> first | exact ⟨_, rfl⟩ | cases h

namespace Write

variable {d : Domain} {ws : List Write} {a : Entries} {ds : List (Descriptor Value)} {c : Descriptor Value}

/-- Every descriptor that was stored into an empty map is read from it. -/
theorem getEntries_of_run (hd : ∀ w ∈ ws, w.domain = d)
    (hws : ws.map (fun w => (w.family, w.descriptor)) = ds.map fun c => (c.family, .descriptor c))
    (hfamilies : (ds.map Descriptor.family).Nodup) (hrun : run store ws (.map []) = .done (.map a)) (hc : c ∈ ds) :
    d.schema.getEntries c.family a = .ok c := by
  obtain ⟨a', hdone, hwrote⟩ := run_store_map ws []
  obtain rfl : a' = a := Value.map.inj (congrArg Outcome.value (hdone.symm.trans hrun))
  rw [Schema.getEntries_eq_collect, ← Family.collect_value? c]
  refine Family.collect_congr fun f hf => ?_
  obtain ⟨v, hv⟩ := exists_value? c hf
  rw [hwrote.readField_eq d f, last?_of_mem hd hws hfamilies hc hv, hv]
  cases v <;> rfl

end Write

end AnnotationCodec
