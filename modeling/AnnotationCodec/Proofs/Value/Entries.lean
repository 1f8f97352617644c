import AnnotationCodec.Value.Order

/-! Looking keys up in maps. Setting a text key changes nothing at any other key. -/
namespace AnnotationCodec

namespace Value

variable {t : Text} {k : Value}

theorem sameKey_str : k.sameKey (.str t) = true ↔ k = .str t := by
  cases k <;> simp [sameKey, amount?]

theorem str_sameKey : (Value.str t).sameKey k = true ↔ k = .str t := by
  cases k with
  | str u =>
    simp only [sameKey, beq_iff_eq, str.injEq]
    exact eq_comm
  | _ => simp [sameKey, amount?]

end Value

namespace Entries

/-- The value at any key. -/
def valueAt? (k : Value) (es : Entries) : Option Value :=
  (es.find? fun e => e.1.sameKey k).map Prod.snd

variable {es : Entries} {k : Text} {x : Value}

theorem valueAt?_cons (key v x : Value) (es : Entries) :
    valueAt? x ((key, v) :: es) = if key.sameKey x then some v else valueAt? x es := by
  simp only [valueAt?, List.find?_cons]
  cases key.sameKey x <;> rfl

theorem get?_cons_self (k : Text) (v : Value) (es : Entries) : get? k ((.str k, v) :: es) = some v :=
  if_pos rfl

theorem get?_cons_of_ne (h : x ≠ .str k) (v : Value) (es : Entries) : get? k ((x, v) :: es) = es.get? k := by
  cases x with
  | str t => exact if_neg fun ht => h (congrArg Value.str ht)
  | _ => rfl

theorem set_cons_self (k : Text) (v w : Value) (es : Entries) : set k w ((.str k, v) :: es) = (.str k, w) :: es :=
  if_pos rfl

theorem set_cons_of_ne (h : x ≠ .str k) (v w : Value) (es : Entries) : set k w ((x, v) :: es) = (x, v) :: set k w es := by
  cases x with
  | str t => exact if_neg fun ht => h (congrArg Value.str ht)
  | _ => rfl

theorem valueAt?_str (k : Text) (es : Entries) : es.valueAt? (.str k) = es.get? k := by
  induction es with
  | nil => rfl
  | cons e es ih =>
    obtain ⟨key, v⟩ := e
    rw [valueAt?_cons]
    by_cases hkey : key = .str k
    · rw [if_pos (Value.sameKey_str.mpr hkey), hkey, get?_cons_self]
    · rw [if_neg fun hsame => hkey (Value.sameKey_str.mp hsame), get?_cons_of_ne hkey, ih]

theorem get?_set_self (k : Text) (v : Value) (es : Entries) : (set k v es).get? k = some v := by
  induction es with
  | nil => exact get?_cons_self k v []
  | cons e es ih =>
    obtain ⟨key, w⟩ := e
    by_cases hkey : key = .str k
    · rw [hkey, set_cons_self, get?_cons_self]
    · rw [set_cons_of_ne hkey, get?_cons_of_ne hkey, ih]

theorem valueAt?_set_of_ne (h : x ≠ .str k) (v : Value) (es : Entries) :
    (set k v es).valueAt? x = es.valueAt? x := by
  have hother : ¬ (Value.str k).sameKey x = true := fun hsame => h (Value.str_sameKey.mp hsame)
  induction es with
  | nil => rw [set, valueAt?_cons, if_neg hother]
  | cons e es ih =>
    obtain ⟨key, w⟩ := e
    by_cases hkey : key = .str k
    · rw [hkey, set_cons_self, valueAt?_cons, valueAt?_cons, if_neg hother, if_neg hother]
    · rw [set_cons_of_ne hkey, valueAt?_cons, valueAt?_cons, ih]

theorem set_of_get? {v : Value} (h : es.get? k = some v) : es.set k v = es := by
  induction es with
  | nil => cases h
  | cons e es ih =>
    obtain ⟨key, w⟩ := e
    by_cases hkey : key = .str k
    · subst hkey
      rw [get?_cons_self] at h
      rw [set_cons_self, Option.some.inj h]
    · rw [get?_cons_of_ne hkey] at h
      rw [set_cons_of_ne hkey, ih h]

theorem set_set (k : Text) (v w : Value) (es : Entries) : set k w (set k v es) = set k w es := by
  induction es with
  | nil => exact set_cons_self k v w []
  | cons e es ih =>
    obtain ⟨key, u⟩ := e
    by_cases hkey : key = .str k
    · rw [hkey, set_cons_self, set_cons_self, set_cons_self]
    · rw [set_cons_of_ne hkey, set_cons_of_ne hkey, set_cons_of_ne hkey, ih]

/-! Maps in which no key is twice -/

theorem mem_of_get? {v : Value} (h : es.get? k = some v) : (.str k, v) ∈ es := by
  induction es with
  | nil => cases h
  | cons e es ih =>
    obtain ⟨key, w⟩ := e
    by_cases hkey : key = .str k
    · subst hkey
      rw [get?_cons_self] at h
      rw [Option.some.inj h]
      exact List.mem_cons_self
    · rw [get?_cons_of_ne hkey] at h
      exact List.mem_cons_of_mem _ (ih h)

theorem get?_of_mem {v : Value} (hn : (es.map Prod.fst).Nodup) (h : (.str k, v) ∈ es) : es.get? k = some v := by
  induction es with
  | nil => cases h
  | cons e es ih =>
    obtain ⟨key, w⟩ := e
    rw [List.map_cons, List.nodup_cons] at hn
    rcases List.mem_cons.mp h with heq | hmem
    · cases heq
      exact get?_cons_self k v es
    · have hne : key ≠ .str k := by
        rintro rfl
        exact hn.1 (List.mem_map.mpr ⟨_, hmem, rfl⟩)
      rw [get?_cons_of_ne hne]
      exact ih hn.2 hmem

/-- What is found at a key does not depend on the order of the entries. -/
theorem get?_perm {fs : Entries} (h : es.Perm fs) (hn : (es.map Prod.fst).Nodup) (k : Text) : es.get? k = fs.get? k := by
  have hfs : (fs.map Prod.fst).Nodup := ((h.map Prod.fst).nodup_iff).mp hn
  refine Option.ext fun v => ⟨fun hv => ?_, fun hv => ?_⟩
  · exact get?_of_mem hfs (h.mem_iff.mp (mem_of_get? hv))
  · exact get?_of_mem hn (h.mem_iff.mpr (mem_of_get? hv))

theorem mem_set {v : Value} {e : Value × Value} (h : e ∈ set k v es) : e = (.str k, v) ∨ e ∈ es := by
  induction es with
  | nil => exact .inl (List.mem_singleton.mp h)
  | cons g es ih =>
    obtain ⟨key, w⟩ := g
    by_cases hkey : key = .str k
    · rw [hkey, set_cons_self] at h
      exact (List.mem_cons.mp h).imp_right (List.mem_cons_of_mem _)
    · rw [set_cons_of_ne hkey] at h
      rcases List.mem_cons.mp h with rfl | h
      · exact .inr List.mem_cons_self
      · exact (ih h).imp_right (List.mem_cons_of_mem _)

/-- A key that is set keeps its place, and a new one comes last. -/
theorem keys_set (k : Text) (v : Value) (es : Entries) :
    (set k v es).map Prod.fst = es.map Prod.fst ∨
      (set k v es).map Prod.fst = es.map Prod.fst ++ [.str k] ∧ Value.str k ∉ es.map Prod.fst := by
  induction es with
  | nil => exact .inr ⟨rfl, List.not_mem_nil⟩
  | cons e es ih =>
    obtain ⟨key, w⟩ := e
    by_cases hkey : key = .str k
    · exact .inl (by rw [hkey, set_cons_self, List.map_cons, List.map_cons])
    · rw [set_cons_of_ne hkey, List.map_cons, List.map_cons, List.mem_cons, not_or]
      rcases ih with hkeys | ⟨hkeys, hnew⟩
      · exact .inl (by rw [hkeys])
      · exact .inr ⟨by rw [hkeys]; rfl, Ne.symm hkey, hnew⟩

theorem nodup_set (h : (es.map Prod.fst).Nodup) (k : Text) (v : Value) : ((set k v es).map Prod.fst).Nodup := by
  rcases keys_set k v es with hkeys | ⟨hkeys, hnew⟩
  · rwa [hkeys]
  · rw [hkeys, List.nodup_append]
    refine ⟨h, List.pairwise_singleton _ _, fun a ha b hb hab => ?_⟩
    rw [List.mem_singleton.mp hb] at hab
    exact hnew (hab ▸ ha)

end Entries

end AnnotationCodec
