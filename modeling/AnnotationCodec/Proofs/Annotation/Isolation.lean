import AnnotationCodec.Proofs.Annotation.Key
import AnnotationCodec.Proofs.Except
import AnnotationCodec.Proofs.Value.Entries
import Mathlib.Data.List.Nodup

/-!
What a schema finds by names, and what it holds. The two are the same keys, each under the names of one field, and the
schemas of two domains hold none in common.
-/
namespace AnnotationCodec

namespace Schema

variable {s : Schema} {family : Family} {name a b : Value} {f : Field} {k : Text}

theorem family?_eq_ok_iff : family? name = .ok family ↔ name = .str family.label := by
  constructor
  · intro h
    unfold family? at h
    split at h
    · next t =>
      split at h
      · next g hg =>
        obtain rfl := Except.ok.inj h
        have hlabel : g.label = t := by simpa using List.find?_some hg
        rw [hlabel]
      · cases h
    · cases h
  · rintro rfl
    cases family <;> rfl

theorem family_of_mem_fields (h : f ∈ family.fields) : f.family = family := by
  revert h
  cases family <;> cases f <;> decide

theorem field?_eq_ok_iff : field? family name = .ok f ↔ f.family = family ∧ name = .str f.label := by
  constructor
  · intro h
    unfold field? at h
    split at h
    · next g hg =>
      obtain rfl := Except.ok.inj h
      have hname : name.sameKey (.str g.label) = true := by simpa using List.find?_some hg
      exact ⟨family_of_mem_fields (List.mem_of_find?_eq_some hg), Value.sameKey_str.mp hname⟩
    · cases h
  · rintro ⟨rfl, rfl⟩
    cases f <;> rfl

/-- Two names find a key only if they are those of a field, and it is the key of that field. -/
theorem namedKey_eq_ok_iff :
    s.namedKey a b = .ok k ↔ ∃ f : Field, a = .str f.family.label ∧ b = .str f.label ∧ s.key f = k := by
  constructor
  · intro h
    obtain ⟨family, ha, hrest⟩ := bind_eq_ok_iff.mp h
    obtain ⟨f, hb, hk⟩ := bind_eq_ok_iff.mp hrest
    obtain ⟨rfl, rfl⟩ := field?_eq_ok_iff.mp hb
    exact ⟨f, family?_eq_ok_iff.mp ha, rfl, Except.ok.inj hk⟩
  · rintro ⟨f, rfl, rfl, rfl⟩
    refine bind_eq_ok_iff.mpr ⟨f.family, family?_eq_ok_iff.mpr rfl, ?_⟩
    exact bind_eq_ok_iff.mpr ⟨f, field?_eq_ok_iff.mpr ⟨rfl, rfl⟩, rfl⟩

/-- All fields, family by family. -/
def allFields : List Field :=
  Family.all.flatMap Family.fields

theorem mem_allFields (f : Field) : f ∈ allFields := by
  cases f <;> decide

theorem entries_eq_map (s : Schema) : s.entries = allFields.map s.entry := by
  simp only [entries, allFields, List.map_flatMap]
  rfl

theorem contains_iff : s.contains k = true ↔ ∃ f, s.key f = k := by
  simp only [contains, entries_eq_map, List.any_map, List.any_eq_true, Function.comp_apply, decide_eq_true_eq]
  constructor
  · rintro ⟨f, -, hf⟩
    exact ⟨f, hf⟩
  · rintro ⟨f, hf⟩
    exact ⟨f, mem_allFields f, hf⟩

theorem shape_mem_all {e : SchemaEntry} : e.shape ∈ Shape.all := by
  cases e.shape <;> decide

end Schema

namespace Domain

variable {c d : Domain} {k : Text}

theorem nodup_keys (d : Domain) : (d.schema.entries.map SchemaEntry.key).Nodup := by
  rw [Schema.entries_eq_map, List.map_map]
  refine List.Nodup.map ?_ (by decide)
  intro f g h
  exact (key_injective h).2

/-- Names that find one key in two schemas are the same names, and the domains are the same. -/
theorem namedKey_injective {a b a' b' : Value} (h : c.schema.namedKey a b = .ok k)
    (h' : d.schema.namedKey a' b' = .ok k) : c = d ∧ a = a' ∧ b = b' := by
  obtain ⟨f, rfl, rfl, hf⟩ := Schema.namedKey_eq_ok_iff.mp h
  obtain ⟨g, rfl, rfl, hg⟩ := Schema.namedKey_eq_ok_iff.mp h'
  obtain ⟨rfl, rfl⟩ := key_injective (hf.trans hg.symm)
  exact ⟨rfl, rfl, rfl⟩

theorem contains_iff_existsUnique :
    d.schema.contains k = true ↔ ∃! names : Value × Value, d.schema.namedKey names.1 names.2 = .ok k := by
  rw [Schema.contains_iff]
  constructor
  · rintro ⟨f, hf⟩
    have hnamed := Schema.namedKey_eq_ok_iff.mpr ⟨f, rfl, rfl, hf⟩
    refine ⟨(.str f.family.label, .str f.label), hnamed, ?_⟩
    rintro ⟨a, b⟩ h
    obtain ⟨-, rfl, rfl⟩ := namedKey_injective h hnamed
    rfl
  · rintro ⟨names, h, -⟩
    obtain ⟨f, -, -, hf⟩ := Schema.namedKey_eq_ok_iff.mp h
    exact ⟨f, hf⟩

theorem eq_of_contains (h : c.schema.contains k = true) (h' : d.schema.contains k = true) : c = d := by
  obtain ⟨f, hf⟩ := Schema.contains_iff.mp h
  obtain ⟨g, hg⟩ := Schema.contains_iff.mp h'
  exact (key_injective (hf.trans hg.symm)).1

/-- Every domain has a schema, and its keys are pairwise different. One key is found in two schemas only if their
domains are the same, and by the same names. A schema holds what it finds by some names, which only one pair of names
does, and so no key is held by the schemas of two domains. -/
theorem keys_never_collide :
    (∀ d : Domain, Schema.make (.str d.label) = .ok d.schema ∧
      (d.schema.entries.map SchemaEntry.key).Nodup ∧ ∀ e ∈ d.schema.entries, e.shape ∈ Shape.all) ∧
    (∀ (c d : Domain) (family field family' field' : Value) (k : Text), c.schema.namedKey family field = .ok k →
      d.schema.namedKey family' field' = .ok k → c = d ∧ family = family' ∧ field = field') ∧
    (∀ (d : Domain) (k : Text), d.schema.contains k = true ↔
      ∃! names : Value × Value, d.schema.namedKey names.1 names.2 = .ok k) ∧
    (∀ (c d : Domain) (k : Text), c.schema.contains k = true → d.schema.contains k = true → c = d) := by
  refine ⟨?_, ?_, ?_, ?_⟩
  · intro d
    exact ⟨d.make_label, d.nodup_keys, fun _ _ => Schema.shape_mem_all⟩
  · intro c d family field family' field' k h h'
    exact namedKey_injective h h'
  · intro d k
    exact contains_iff_existsUnique
  · intro c d k h h'
    exact eq_of_contains h h'

/-- A domain that starts like a key: its key of the cluster is found by one pair of names, and the schema of the domain
that it ends with does not hold it. -/
theorem keys_of_domain_like_key : ∃ c d : Domain, c.label = text "a" ∧ d.label = text "moniker.a" ∧
    (∃! names : Value × Value, d.schema.namedKey names.1 names.2 = .ok (text "moniker.moniker.a/cluster")) ∧
    ¬ c.schema.contains (text "moniker.moniker.a/cluster") = true := by
  have hheld : (Domain.mk (text "moniker.a") (by decide) (by decide)).schema.contains
      (text "moniker.moniker.a/cluster") = true := by decide
  refine ⟨⟨text "a", by decide, by decide⟩, ⟨text "moniker.a", by decide, by decide⟩, rfl, rfl, ?_, ?_⟩
  · exact (keys_never_collide.2.2.1 _ _).mp hheld
  · intro h
    exact absurd (keys_never_collide.2.2.2 _ _ _ h hheld) (by decide)

end Domain

end AnnotationCodec
