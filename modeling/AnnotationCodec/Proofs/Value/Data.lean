import AnnotationCodec.Proofs.Value.Growth
import AnnotationCodec.Proofs.Value.Sorted

/-!
Data: null, truth values, numbers, texts, and lists and maps of them. What is found inside of data is data, and data stay
data when other data are put into them.
-/
namespace AnnotationCodec

namespace Entries

variable {es : Entries} {k : Text} {i : Nat} {u : Value}

theorem TextKeys.nil : TextKeys ([] : Entries) :=
  ⟨fun _ he => absurd he List.not_mem_nil, .nil⟩

theorem TextKeys.set (h : TextKeys es) (k : Text) (u : Value) : TextKeys (es.set k u) := by
  refine ⟨fun e he => ?_, nodup_set h.nodup k u⟩
  obtain rfl | he := mem_set he
  · exact ⟨k, rfl⟩
  · exact h.texts e he

theorem TextKeys.of_keys {fs : Entries} (h : TextKeys es) (hkeys : fs.map Prod.fst = es.map Prod.fst) : TextKeys fs := by
  refine ⟨fun f hf => ?_, ?_⟩
  · have hmem : f.1 ∈ es.map Prod.fst := by
      rw [← hkeys]
      exact List.mem_map_of_mem hf
    obtain ⟨e, he, heq⟩ := List.mem_map.mp hmem
    rw [← heq]
    exact h.texts e he
  · rw [hkeys]
    exact h.nodup

end Entries

namespace Value

/-- Data. The keys of their maps are texts, and none is there twice. -/
def IsData : Value → Prop
  | .null | .bool _ | .int _ | .float _ | .str _ => True
  | .list vs => all vs
  | .map es => Entries.TextKeys es ∧ entries es
  | _ => False
where
  all : List Value → Prop
    | [] => True
    | v :: vs => v.IsData ∧ all vs
  entries : List (Value × Value) → Prop
    | [] => True
    | (_, v) :: es => v.IsData ∧ entries es

variable {v u : Value} {vs : List Value} {es : Entries} {k : Text} {x : Place} {i : Nat}

theorem isData_list_iff : (list vs).IsData ↔ ∀ v ∈ vs, v.IsData := by
  rw [IsData]
  induction vs with
  | nil => simp [IsData.all]
  | cons v vs ih => rw [IsData.all, ih, List.forall_mem_cons]

theorem isData_entries_iff : IsData.entries es ↔ ∀ e ∈ es, e.2.IsData := by
  induction es with
  | nil => simp [IsData.entries]
  | cons e es ih => rw [IsData.entries, ih, List.forall_mem_cons]

theorem isData_map_iff : (map es).IsData ↔ Entries.TextKeys es ∧ ∀ e ∈ es, e.2.IsData := by
  rw [IsData, isData_entries_iff]

theorem isData_map_nil : (map []).IsData :=
  ⟨.nil, trivial⟩

theorem IsData.textKeys (h : (map es).IsData) : Entries.TextKeys es :=
  (isData_map_iff.mp h).1

theorem IsData.get? (h : (map es).IsData) (hu : es.get? k = some u) : u.IsData :=
  (isData_map_iff.mp h).2 _ (Entries.mem_of_get? hu)

theorem IsData.set (h : (map es).IsData) (hu : u.IsData) (k : Text) : (map (es.set k u)).IsData := by
  refine isData_map_iff.mpr ⟨h.textKeys.set k u, fun e he => ?_⟩
  obtain rfl | he := Entries.mem_set he
  · exact hu
  · exact (isData_map_iff.mp h).2 e he

theorem IsData.child (h : v.IsData) (hu : v.children[i]? = some u) : u.IsData := by
  have hmem := List.mem_of_getElem? hu
  cases v with
  | list vs => exact isData_list_iff.mp h u hmem
  | map es =>
    obtain ⟨e, he, rfl⟩ := List.mem_map.mp hmem
    exact (isData_map_iff.mp h).2 e he
  | tuple vs => cases h
  | _ => simp [children] at hmem

theorem IsData.at? (h : v.IsData) (hu : v.at? x = some u) : u.IsData := by
  induction x generalizing v with
  | nil =>
    cases hu
    exact h
  | cons i x ih =>
    obtain ⟨c, hc, hu⟩ := Option.bind_eq_some_iff.mp hu
    exact ih (h.child hc) hu

theorem IsData.setChild (h : v.IsData) (hu : u.IsData) (i : Nat) : (v.setChild i u).IsData := by
  cases v with
  | list vs =>
    refine isData_list_iff.mpr fun w hw => ?_
    obtain hw | rfl := List.mem_or_eq_of_mem_set hw
    · exact isData_list_iff.mp h w hw
    · exact hu
  | map es =>
    have hkeys := Entries.keys_modify es i u
    refine isData_map_iff.mpr ⟨h.textKeys.of_keys hkeys, fun e he => ?_⟩
    obtain ⟨j, hj⟩ := List.mem_iff_getElem?.mp he
    rw [List.getElem?_modify] at hj
    obtain ⟨e₀, he₀, rfl⟩ := Option.map_eq_some_iff.mp hj
    by_cases hij : i = j
    · simpa [hij] using hu
    · simpa [hij] using (isData_map_iff.mp h).2 e₀ (List.mem_of_getElem? he₀)
  | tuple vs => cases h
  | _ => exact h

theorem IsData.putAt (h : v.IsData) (hu : u.IsData) (x : Place) : (Value.putAt x u v).IsData := by
  induction x generalizing v with
  | nil => exact hu
  | cons i x ih =>
    rw [Value.putAt]
    split
    · exact h
    · next c hc => exact h.setChild (ih (h.child hc)) i

end Value

end AnnotationCodec
