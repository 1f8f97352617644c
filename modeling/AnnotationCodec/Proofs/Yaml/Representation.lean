import AnnotationCodec.Proofs.Value.Plain
import AnnotationCodec.Proofs.Yaml.Document
import AnnotationCodec.Proofs.Yaml.Scalar
import AnnotationCodec.Proofs.Yaml.Tree

/-! Plain data as trees: the tree of a value denotes the value with its maps arranged. -/
namespace AnnotationCodec.Yaml.Tree

variable {v : Value} {vs : List Value} {es : List (Value × Value)} {t : Tree}

/-- A word that stands without quotes. -/
theorem denotes_word {tag : Tag} {s : String} (htag : Tag.ofPlain (AnnotationCodec.text s) = tag)
    (hplain : allowsPlain (AnnotationCodec.text s) false = true) (hne : AnnotationCodec.text s ≠ [])
    (hv : Scalar.value tag (AnnotationCodec.text s) = .ok v) : (word tag s).Denotes v :=
  ⟨rfl, .inr ⟨htag.symm, hplain, hne⟩, hv⟩

/-- The trees of an entry. -/
def ofEntry (e : Value × Value) : Except Failure (Tree × Tree) := do
  let key ← ofValue .document e.1
  let value ← ofValue .document e.2
  return (key, value)

theorem ofValue_entries_eq_map (es : List (Value × Value)) : ofValue.entries .document es = es.map fun e => (e.1, ofEntry e) := by
  induction es with
  | nil => rfl
  | cons e es ih =>
    rw [ofValue.entries, ih, List.map_cons]
    rfl

theorem ofValue_map (es : List (Value × Value)) :
    ofValue .document (.map es) = (collect ((Entries.sorted es).map ofEntry)).map (.mapping .map) := by
  rw [ofValue, ofValue_entries_eq_map, Entries.sorted_map ofEntry, List.map_map]
  rfl

theorem arranged_map (es : List (Value × Value)) :
    (Value.map es).arranged = .map ((Entries.sorted es).map fun e => (e.1, e.2.arranged)) := by
  rw [Value.arranged, Value.entries_eq_map, Entries.sorted_map (fun e : Value × Value => e.2.arranged)]

/-- The trees of entries in any order. -/
theorem exists_collect_entries (h : ∀ e ∈ es, (∃ t, e.1 = .str t) ∧ ∃ x, ofValue .document e.2 = .ok x ∧ x.Denotes e.2.arranged) :
    ∃ ts, collect (es.map ofEntry) = .ok ts ∧ Denotes.pairs ts (es.map fun e => (e.1, e.2.arranged)) := by
  induction es with
  | nil => exact ⟨[], rfl, rfl⟩
  | cons e es ih =>
    rw [List.forall_mem_cons] at h
    obtain ⟨⟨⟨t, ht⟩, x, hx, hdenotes⟩, hes⟩ := h
    obtain ⟨ts, hcollect, hpairs⟩ := ih hes
    have hentry : ofEntry e = .ok (.scalar .str t false, x) := by
      rw [ofEntry, ht, hx]
      rfl
    refine ⟨(.scalar .str t false, x) :: ts, ?_, t, e.2.arranged, _, by rw [← ht]; rfl, rfl, hdenotes, hpairs⟩
    rw [collect_eq_ok_iff] at hcollect ⊢
    rw [List.map_cons, hentry, hcollect, List.map_cons]

mutual

/-- A value of plain data has a tree, which denotes it. -/
theorem exists_denotes (v : Value) (h : v.IsPlain) : ∃ t, ofValue .document v = .ok t ∧ t.Denotes v.arranged := by
  cases v with
  | null => exact ⟨_, rfl, denotes_word (by decide) (by decide) (by decide) rfl⟩
  | bool b =>
    cases b with
    | false => exact ⟨_, rfl, denotes_word (by decide) (by decide) (by decide) rfl⟩
    | true => exact ⟨_, rfl, denotes_word (by decide) (by decide) (by decide) rfl⟩
  | int n =>
    have hsigned := Json.signed_decimal h
    refine ⟨.scalar .int (Integer.decimal n) false, ?_, rfl, isImplied_signed hsigned, ?_⟩
    · have hlimit : n.natAbs < 10 ^ digitLimit := h
      rw [ofValue, Integer.write, Nat.pow_eq, if_pos hlimit]
      rfl
    · rw [Scalar.value, int_signed hsigned]
      rfl
  | str t => exact ⟨_, rfl, rfl, .inl rfl, rfl⟩
  | list vs =>
    obtain ⟨ts, hcollect, hts⟩ := exists_collect_items vs h
    refine ⟨.sequence ts, ?_, _, rfl, hts⟩
    rw [ofValue, hcollect]
    rfl
  | map es =>
    obtain ⟨hnodup, hes⟩ := h
    have hall := forall_entries es hes
    obtain ⟨ts, hcollect, hts⟩ := exists_collect_entries fun e he => hall e ((Entries.sorted_perm es).mem_iff.mp he)
    have hkeys : (((Entries.sorted es).map fun e => (e.1, e.2.arranged)).map Prod.fst).Nodup := by
      rw [List.map_map]
      exact (((Entries.sorted_perm es).map Prod.fst).nodup_iff).mpr hnodup
    refine ⟨.mapping .map ts, ?_, rfl, _, arranged_map es, hkeys, hts⟩
    rw [ofValue_map, hcollect]
    rfl
  | _ => cases h

theorem exists_collect_items (vs : List Value) (h : Value.IsPlain.all vs) :
    ∃ ts, collect (ofValue.items .document vs) = .ok ts ∧ Denotes.items ts (Value.arranged.items vs) := by
  cases vs with
  | nil => exact ⟨[], rfl, rfl⟩
  | cons v vs =>
    obtain ⟨t, ht, hdenotes⟩ := exists_denotes v h.1
    obtain ⟨ts, hcollect, hts⟩ := exists_collect_items vs h.2
    refine ⟨t :: ts, ?_, _, _, rfl, hdenotes, hts⟩
    rw [collect_eq_ok_iff] at hcollect ⊢
    rw [ofValue.items, ht, hcollect, List.map_cons]

theorem forall_entries (es : List (Value × Value)) (h : Value.IsPlain.entries es) :
    ∀ e ∈ es, (∃ t, e.1 = .str t) ∧ ∃ x, ofValue .document e.2 = .ok x ∧ x.Denotes e.2.arranged := by
  cases es with
  | nil => exact fun e he => absurd he List.not_mem_nil
  | cons e es =>
    obtain ⟨k, v⟩ := e
    obtain ⟨hk, hv, hes⟩ := h
    exact List.forall_mem_cons.mpr ⟨⟨hk, exists_denotes v hv⟩, forall_entries es hes⟩

end

end AnnotationCodec.Yaml.Tree
