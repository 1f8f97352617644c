import AnnotationCodec.Proofs.Annotation.Failure
import Mathlib.Data.List.Nodup

/-!
Storing a descriptor in a map, field by field. The fields in front of the first that cannot be encoded are stored, and that
field and those behind it leave at their keys what was there. What is no descriptor of the family changes nothing.
-/
namespace AnnotationCodec.Schema

/-- Whether a field can be stored: it is null, or it is encoded. -/
def Encodes (s : Schema) (x : Field × Value) : Prop :=
  x.2.isNull = false → ∃ t, Codec.encode (.str (s.key x.1)) x.1.shape x.2 = .ok t

variable {s : Schema} {m m' : Entries} {before after : List (Field × Value)} {f : Field} {w : Value}

theorem Stored.encodes (h : Stored s before m m') : ∀ x ∈ before, s.Encodes x := by
  intro x hx hnull
  obtain ⟨t, ht, -⟩ := h.written x.1 x.2 hx hnull
  exact ⟨t, (ht _).1⟩

/-- A field that is not among those that were stored has at its key what was there. -/
theorem Stored.get?_of_not_mem (h : Stored s before m m') (hk : ∀ f g, s.key f = s.key g → f = g)
    (hf : f ∉ before.map Prod.fst) : m'.get? (s.key f) = m.get? (s.key f) := by
  rw [← Entries.valueAt?_str, ← Entries.valueAt?_str]
  refine h.kept _ fun g u hm _ heq => hf ?_
  rw [hk f g (Value.str.inj heq)]
  exact List.mem_map_of_mem hm

theorem store_descriptor (s : Schema) (c : Descriptor Value) (m : Entries) :
    s.store c.family (.descriptor c) (.map m) = (s.storeFields c.entries m).map .map := by
  simp [store, storeEntries, descriptorFor]

/-- If every field of a descriptor is null or encoded, it is stored. If not, the first one that is neither, in the order of
the schema, is what storing fails with, under the key of that field; the fields in front of it are stored, and all other
keys have what they had. A moniker that is missing and a value that is no descriptor of the family change nothing. -/
theorem store_stops_at_field (d : Domain) (m : Entries) :
    (∀ c : Descriptor Value, (∀ x ∈ c.entries, d.schema.Encodes x) →
      ∃ m', d.schema.store c.family (.descriptor c) (.map m) = .done (.map m') ∧ Stored d.schema c.entries m m') ∧
    (∀ c : Descriptor Value, (¬ ∀ x ∈ c.entries, d.schema.Encodes x) → ∃ before f w after e, ∃ m' : Entries,
      c.entries = before ++ (f, w) :: after ∧ (∀ x ∈ before, d.schema.Encodes x) ∧ w.isNull = false ∧
      Codec.encode (.str (d.schema.key f)) f.shape w = .error e ∧
      (∀ key reason, e = .encoding key reason → key = .str (d.schema.key f)) ∧
      d.schema.store c.family (.descriptor c) (.map m) = .fail (.map m') e ∧ Stored d.schema before m m' ∧
      ∀ x ∈ (f, w) :: after, m'.get? (d.schema.key x.1) = m.get? (d.schema.key x.1)) ∧
    d.schema.store .moniker .null (.map m) = .fail (.map m) .missingDescriptor ∧
    (∀ family, family ≠ .moniker → d.schema.store family .null (.map m) = .done (.map m)) ∧
    (∀ family v, v ≠ .null → (∀ c, v = .descriptor c → c.family ≠ family) →
      d.schema.store family v (.map m) = .fail (.map m) (.wrongDescriptor family v.kind)) := by
  have hkey : ∀ f g, d.schema.key f = d.schema.key g → f = g := fun f g h => (Domain.key_injective h).2
  refine ⟨?_, ?_, rfl, ?_, ?_⟩
  · intro c hc
    rcases storeFields_cases hkey c.nodup_entries m with ⟨m', hs, h⟩ | ⟨before, f, w, after, e, m', heq, hw, he, -⟩
    · exact ⟨m', by rw [store_descriptor, hs]; rfl, h⟩
    · obtain ⟨t, ht⟩ := hc (f, w) (heq ▸ List.mem_append_right _ List.mem_cons_self) hw
      cases he.symm.trans ht
  · intro c hc
    rcases storeFields_cases hkey c.nodup_entries m with ⟨m', -, h⟩ | ⟨before, f, w, after, e, m', heq, hw, he, hs, h, -⟩
    · exact (hc h.encodes).elim
    · refine ⟨before, f, w, after, e, m', heq, h.encodes, hw, he, ?_, by rw [store_descriptor, hs]; rfl, h, ?_⟩
      · rintro key reason rfl
        exact Codec.key_of_encode he
      · intro x hx
        refine h.get?_of_not_mem hkey fun hmem => ?_
        have hn := c.nodup_entries
        rw [heq, List.map_append] at hn
        exact List.disjoint_of_nodup_append hn hmem (List.mem_map_of_mem hx)
  · intro family hfamily
    simp [store, storeEntries, descriptorFor, hfamily, Outcome.map, Outcome.done]
  · intro family v hnull hother
    refine store_of_refused ?_ d.schema (.map m)
    cases v with
    | null => exact (hnull rfl).elim
    | descriptor c => rw [descriptorFor, if_neg (hother c rfl)]
    | _ => rfl

/-- A domain with a point. -/
def dotted : Domain :=
  ⟨text "a.b", by decide, by decide⟩

/-- A moniker of which the application and the sequence cannot be encoded. -/
def illTyped : Descriptor Value :=
  .moniker ⟨.list [.str (text "a")], .str (text "c"), .null, .str (text "d"), .bool true⟩

/-- Annotations that hold an application. -/
def named : Entries :=
  [(.str (dotted.schema.key .app), .str (text "\"old\"")), (.int 1, .null)]

/-- The cluster is in front of the application, and so it is stored; the application is kept, and the detail is not stored. -/
theorem store_stops_at_application :
    (∃ m' : Entries, dotted.schema.store .moniker (.descriptor illTyped) (.map named) =
        .fail (.map m') (.encoding (.str (dotted.schema.key .app)) (.shape .string (.list [.str (text "a")]))) ∧
      m'.get? (dotted.schema.key .cluster) = some (.str (text "\"c\"")) ∧
      m'.get? (dotted.schema.key .app) = some (.str (text "\"old\"")) ∧
      m'.get? (dotted.schema.key .detail) = none ∧ m'.valueAt? (.bool true) = some .null) ∧
    dotted.schema.store .artifact (.descriptor illTyped) (.map named) =
      .fail (.map named) (.wrongDescriptor .artifact (.descriptor .moniker)) := by
  obtain ⟨-, hstops, -, -, hother⟩ := store_stops_at_field dotted named
  have happ : Codec.encode (.str (dotted.schema.key .app)) .string (.list [.str (text "a")]) =
    .error (.encoding (.str (dotted.schema.key .app)) (.shape .string (.list [.str (text "a")]))) := rfl
  have hcluster : Codec.encode .null .string (.str (text "c")) = .ok (text "\"c\"") := rfl
  have hnot : ¬ dotted.schema.Encodes (.app, .list [.str (text "a")]) := by
    intro h
    obtain ⟨t, ht⟩ := h rfl
    cases happ.symm.trans ht
  constructor
  · obtain ⟨before, f, w, after, e, m', heq, hb, -, he, -, hstore, hstored, hkept⟩ :=
      hstops illTyped fun h => hnot (h _ (by simp [illTyped, Descriptor.entries]))
    -- The cluster is encoded and the application is not, so that is the first.
    rcases before with _ | ⟨x, _ | ⟨y, before⟩⟩
    · cases heq
      cases he
    · cases heq
      obtain ⟨t, ht, hget⟩ := hstored.written .cluster (.str (text "c")) (by simp) rfl
      refine ⟨m', ?_, ?_, ?_, ?_, ?_⟩
      · rw [← Except.error.inj (he.symm.trans happ)]
        exact hstore
      · rw [hget, Except.ok.inj ((ht .null).1.symm.trans hcluster)]
      · exact hkept (.app, .list [.str (text "a")]) (by simp)
      · exact hkept (.detail, .str (text "d")) (by simp)
      · rw [hstored.kept (.bool true) (by simp)]
        rfl
    · obtain ⟨rfl, -⟩ := List.cons.inj (List.cons.inj heq).2
      exact (hnot (hb _ (by simp))).elim
  · refine hother .artifact _ (by simp) ?_
    rintro c ⟨⟩
    decide

end AnnotationCodec.Schema
