import AnnotationCodec.Proofs.Annotation.Store

/-!
Runs of writes. A run leaves at the key of every field the last value that was given for it, and whatever no write
gives a value for stays as it was.
-/
namespace AnnotationCodec

/-- A step that writes a descriptor under a domain. -/
structure Write where
  domain : Domain
  family : Family
  descriptor : Value
  fits : descriptor.FitsFamily family

namespace Family

/-- The descriptor of a family whose fields are read one after the other. -/
def collect (read : Field → Except Failure Value) : Family → Except Failure (Descriptor Value)
  | .moniker => do
    let cluster ← read .cluster
    let app ← read .app
    let stack ← read .stack
    let detail ← read .detail
    let sequence ← read .sequence
    return .moniker ⟨app, cluster, stack, detail, sequence⟩
  | .artifact => do
    let type ← read .type
    let name ← read .name
    let location ← read .location
    let version ← read .version
    return .artifact ⟨type, name, location, version⟩
  | .relationships => do
    let loadBalancers ← read .loadBalancers
    let securityGroups ← read .securityGroups
    return .relationships ⟨loadBalancers, securityGroups⟩

end Family

namespace Write

variable {α : Type} {es es' es'' : Entries} {given given' : Domain → Field → Option Value}

/-- Carries out an operation with the schema of the step's domain. -/
def under (w : Write) (op : Schema → α → Outcome α) (a : α) : Outcome α :=
  match Schema.make (.str w.domain.label) with
  | .error f => .fail a f
  | .ok s => op s a

/-- Stores the step's descriptor into a map. -/
def store (w : Write) : Value → Outcome Value :=
  w.under fun s => s.store w.family w.descriptor

/-- Takes steps one after the other, as long as they come to their end. -/
def run (step : Write → α → Outcome α) : List Write → α → Outcome α
  | [], a => .done a
  | w :: ws, a => (step w a).andThen (run step ws)

/-- The value that a step gives for a field under a domain. -/
def given? (w : Write) (d : Domain) (f : Field) : Option Value :=
  if w.domain = d then w.descriptor.given? f else none

/-- The last value that a run gives for a field under a domain. -/
def last? (ws : List Write) (d : Domain) (f : Field) : Option Value :=
  ws.reverse.findSome? fun w => w.given? d f

/-- One map comes from another by writing values: at the key of a field that one is given for there is its text, and
every key that nothing is given for has what it had. -/
structure Wrote (given : Domain → Field → Option Value) (es es' : Entries) : Prop where
  written : ∀ d f v, given d f = some v → ∃ t,
    (∀ key, Codec.encode key f.shape v = .ok t ∧ Codec.decode key f.shape (.str t) = .ok v) ∧
    es'.get? (d.schema.key f) = some (.str t)
  kept : ∀ k, (∀ d f, k = .str (d.schema.key f) → given d f = none) → es'.valueAt? k = es.valueAt? k

theorem under_eq (w : Write) (op : Schema → α → Outcome α) (a : α) : w.under op a = op w.domain.schema a := by
  rw [under, Domain.make_label]

theorem last?_cons (w : Write) (ws : List Write) (d : Domain) (f : Field) :
    last? (w :: ws) d f = (last? ws d f).or (w.given? d f) := by
  simp [last?, List.findSome?_append]

namespace Wrote

theorem refl (es : Entries) : Wrote (fun _ _ => none) es es :=
  ⟨by simp, fun _ _ => rfl⟩

theorem get?_of_none (h : Wrote given es es') {d : Domain} {f : Field} (hn : given d f = none) :
    es'.get? (d.schema.key f) = es.get? (d.schema.key f) := by
  rw [← Entries.valueAt?_str, ← Entries.valueAt?_str]
  refine h.kept _ fun c g heq => ?_
  obtain ⟨rfl, rfl⟩ := Domain.key_injective (Value.str.inj heq)
  exact hn

/-- What is given later counts. -/
theorem trans (h : Wrote given es es') (h' : Wrote given' es' es'') :
    Wrote (fun d f => (given' d f).or (given d f)) es es'' := by
  constructor
  · intro d f v hv
    cases hg : given' d f with
    | some w =>
      simp only [hg, Option.some_or] at hv
      exact h'.written d f v (hg.trans hv)
    | none =>
      simp only [hg, Option.none_or] at hv
      obtain ⟨t, ht, hget⟩ := h.written d f v hv
      exact ⟨t, ht, (h'.get?_of_none hg).trans hget⟩
  · intro k hk
    rw [h'.kept k fun d f he => (Option.or_eq_none_iff.mp (hk d f he)).1]
    exact h.kept k fun d f he => (Option.or_eq_none_iff.mp (hk d f he)).2

theorem readField_eq (h : Wrote given es es') (d : Domain) (f : Field) : d.schema.readField es' f =
    match given d f with
    | some v => .ok v
    | none => d.schema.readField es f := by
  cases hg : given d f with
  | some v =>
    obtain ⟨t, ht, hget⟩ := h.written d f v hg
    simp only [Schema.readField, hget]
    exact (ht _).2
  | none => simp only [Schema.readField, h.get?_of_none hg]

end Wrote

end Write

namespace Schema

theorem getEntries_eq_collect (s : Schema) (family : Family) (es : Entries) :
    s.getEntries family es = family.collect (s.readField es) := by
  cases family with
  | moniker =>
    simp only [getEntries, Family.fields, readFields, Family.collect]
    cases s.readField es .cluster with
    | error e => rfl
    | ok cluster =>
      cases s.readField es .app with
      | error e => rfl
      | ok app =>
        cases s.readField es .stack with
        | error e => rfl
        | ok stack =>
          cases s.readField es .detail with
          | error e => rfl
          | ok detail => cases s.readField es .sequence <;> rfl
  | artifact =>
    simp only [getEntries, Family.fields, readFields, Family.collect]
    cases s.readField es .type with
    | error e => rfl
    | ok type =>
      cases s.readField es .name with
      | error e => rfl
      | ok name =>
        cases s.readField es .location with
        | error e => rfl
        | ok location => cases s.readField es .version <;> rfl
  | relationships =>
    simp only [getEntries, Family.fields, readFields, Family.collect]
    cases s.readField es .loadBalancers with
    | error e => rfl
    | ok loadBalancers => cases s.readField es .securityGroups <;> rfl

end Schema

namespace Write

variable {w : Write} {d : Descriptor Value} {c : Domain} {f : Field} {v : Value}

theorem given?_eq_some_iff (hd : w.descriptor = .descriptor d) :
    w.given? c f = some v ↔ w.domain = c ∧ (f, v) ∈ d.entries ∧ v.isNull = false := by
  simp [given?, hd, Value.given?, Option.filter_eq_some_iff, Descriptor.mem_entries_iff]

theorem store_null (hnull : w.descriptor = .null) (hfamily : w.family ≠ .moniker) (es : Entries) :
    w.store (.map es) = .done (.map es) ∧ Wrote w.given? es es := by
  have hnone : w.given? = fun _ _ => none := by
    funext d f
    simp [given?, hnull, Value.given?]
  rw [store, under_eq, hnone]
  refine ⟨?_, Wrote.refl es⟩
  simp [hnull, Schema.store, Schema.storeEntries, Schema.descriptorFor, hfamily, Outcome.map, Outcome.done]

theorem store_descriptor (hd : w.descriptor = .descriptor d) (hfamily : d.family = w.family)
    (hfits : ∀ f v, d.value? f = some v → v = .null ∨ v.Fits f.shape) (es : Entries) :
    ∃ es', w.store (.map es) = .done (.map es') ∧ Wrote w.given? es es' := by
  have hmem : ∀ f v, (f, v) ∈ d.entries → v.isNull = false → v.Fits f.shape := by
    intro f v hm hv
    rcases hfits f v (Descriptor.mem_entries_iff.mp hm) with rfl | h
    · cases hv
    · exact h
  obtain ⟨es', hs, hw, hk⟩ := Schema.storeFields_of_fits (s := w.domain.schema)
    (fun f g h => (Domain.key_injective h).2) d.nodup_entries hmem es
  refine ⟨es', ?_, ?_, ?_⟩
  · rw [store, under_eq]
    simp only [hd, Schema.store, Schema.storeEntries, Schema.descriptorFor, hfamily, if_true, hs]
    rfl
  · intro c f v hv
    obtain ⟨rfl, hm, hn⟩ := (given?_eq_some_iff hd).mp hv
    exact hw f v hm hn
  · intro k hnone
    refine hk k fun f v hm hn heq => ?_
    have hg := (given?_eq_some_iff hd).mpr ⟨rfl, hm, hn⟩
    rw [hnone _ f heq] at hg
    cases hg

/-- A step comes to its end and writes what it gives. -/
theorem store_map (w : Write) (es : Entries) :
    ∃ es', w.store (.map es) = .done (.map es') ∧ Wrote w.given? es es' := by
  rcases w.fits with ⟨hnull, hfamily⟩ | ⟨d, hd, hfamily, hfits⟩
  · exact ⟨es, store_null hnull hfamily es⟩
  · exact store_descriptor hd hfamily hfits es

/-- A run comes to its end and writes what is given last. -/
theorem run_store_map (ws : List Write) (es : Entries) :
    ∃ es', run store ws (.map es) = .done (.map es') ∧ Wrote (last? ws) es es' := by
  induction ws generalizing es with
  | nil => exact ⟨es, rfl, Wrote.refl es⟩
  | cons w ws ih =>
    obtain ⟨es₁, h₁, hw₁⟩ := w.store_map es
    obtain ⟨es₂, h₂, hw₂⟩ := ih es₁
    refine ⟨es₂, ?_, ?_⟩
    · rw [run, h₁]
      exact h₂
    · have hlast : last? (w :: ws) = fun d f => (last? ws d f).or (w.given? d f) := by
        funext d f
        exact last?_cons w ws d f
      rw [hlast]
      exact hw₁.trans hw₂

/-- Every run on a map comes to its end. The last value given for a field is in the map as its text, all other keys
have what they had, and a descriptor that is read has the last values given and, where there are none, what the
first map held. -/
theorem run_store_last_wins (ws : List Write) (m : Entries) : ∃ final : Entries,
    run store ws (.map m) = .done (.map final) ∧
    (∀ d f v, last? ws d f = some v → ∃ t,
      (∀ key, Codec.encode key f.shape v = .ok t) ∧ final.get? (d.schema.key f) = some (.str t)) ∧
    (∀ k, (∀ d f, k = .str (d.schema.key f) → last? ws d f = none) → final.valueAt? k = m.valueAt? k) ∧
    (∀ (d : Domain) family, d.schema.get family (.map final) = family.collect fun f =>
      match last? ws d f with
      | some v => .ok v
      | none => d.schema.readField m f) := by
  obtain ⟨final, hrun, hw⟩ := run_store_map ws m
  refine ⟨final, hrun, ?_, hw.kept, ?_⟩
  · intro d f v hv
    obtain ⟨t, ht, hget⟩ := hw.written d f v hv
    exact ⟨t, fun key => (ht key).1, hget⟩
  · intro d family
    have hread : d.schema.readField final = fun f =>
        match last? ws d f with
        | some v => .ok v
        | none => d.schema.readField m f := by
      funext f
      exact hw.readField_eq d f
    rw [← hread, ← Schema.getEntries_eq_collect]
    rfl

end Write

end AnnotationCodec
