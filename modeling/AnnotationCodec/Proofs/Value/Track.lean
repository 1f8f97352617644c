import AnnotationCodec.Proofs.Value.Trail

/-!
Places and the trails that lead to them. A place goes on leading where its trail does while keys are set in a value, and
while parts of it are copied: entries that are there keep their numbers, and only a text may cut the way off.
-/
namespace AnnotationCodec

namespace Entries

variable {es : Entries} {j k : Text} {i : Nat}

/-- A key has the number of its entry. -/
theorem key_of_index? (hi : es.index? k = some i) : (es.map Prod.fst)[i]? = some (.str k) := by
  obtain ⟨hlt, hkey, -⟩ := List.findIdx?_eq_some_iff_getElem.mp hi
  split at hkey
  · next t ht =>
    rw [List.getElem?_map, List.getElem?_eq_getElem hlt, Option.map_some, ht, of_decide_eq_true hkey]
  · cases hkey

/-- Two keys with the same number are the same. -/
theorem index?_inj (hj : es.index? j = some i) (hk : es.index? k = some i) : j = k := by
  have hkey := key_of_index? hj
  rw [key_of_index? hk] at hkey
  exact (Value.str.inj (Option.some.inj hkey)).symm

/-- The entry with a number has its key. -/
theorem TextKeys.exists_index? (h : TextKeys es) {u : Value} (hu : (Value.map es).children[i]? = some u) :
    ∃ k, es.index? k = some i ∧ es.get? k = some u := by
  have hmap : es[i]?.map Prod.snd = some u := by
    rw [← List.getElem?_map]
    exact hu
  obtain ⟨e, he, rfl⟩ := Option.map_eq_some_iff.mp hmap
  have hmem := List.mem_of_getElem? he
  obtain ⟨k, hk⟩ := h.texts e hmem
  have hget : es.get? k = some e.2 := get?_of_mem h.nodup (by rwa [← hk])
  rw [get?_eq_index?] at hget
  obtain ⟨j, hj, -⟩ := Option.bind_eq_some_iff.mp hget
  have hlt : i < (es.map Prod.fst).length := by
    rw [List.length_map]
    exact (List.getElem?_eq_some_iff.mp he).1
  have hij : (es.map Prod.fst)[i]? = (es.map Prod.fst)[j]? := by
    rw [key_of_index? hj, List.getElem?_map, he, Option.map_some, hk]
  obtain rfl := (List.getElem?_inj hlt h.nodup).mp hij
  exact ⟨k, hj, get?_of_mem h.nodup (by rwa [← hk])⟩

theorem index?_of_get? {u : Value} (h : es.get? k = some u) : ∃ i, es.index? k = some i ∧ (Value.map es).children[i]? = some u := by
  rw [get?_eq_index?] at h
  exact Option.bind_eq_some_iff.mp h

end Entries

namespace Value

/-- A place leads where a trail leads. Both end early where there is a text. -/
inductive Tracks : Place → Trail → Value → Prop
  | nil (v : Value) : Tracks [] [] v
  | key {i : Nat} {x : Place} {k : Text} {q : Trail} {es : Entries} {u : Value} (hi : es.index? k = some i)
    (hu : es.get? k = some u) (h : Tracks x q u) : Tracks (i :: x) (.key k :: q) (.map es)
  | item {i : Nat} {x : Place} {q : Trail} {vs : List Value} {u : Value} (hu : vs[i]? = some u) (h : Tracks x q u) :
    Tracks (i :: x) (.item i :: q) (.list vs)
  | text (i : Nat) (x : Place) (s : Step) (q : Trail) (t : Text) : Tracks (i :: x) (s :: q) (.str t)

/-- In one value every place leads where it led in another one, or the way to it is cut off. -/
def Tracked (v v' : Value) : Prop :=
  ∀ x q, Tracks x q v → Tracks x q v'

variable {v v' v'' u c : Value} {vs : List Value} {es sub new : Entries} {x y : Place} {q r : Trail} {k : Text} {i : Nat} {path : List Text}

theorem child_of_index? (hi : es.index? k = some i) (hu : es.get? k = some u) : (map es).children[i]? = some u := by
  obtain ⟨w, hw, hchild⟩ := Entries.exists_get?_of_index? hi
  obtain rfl := Option.some.inj (hu.symm.trans hw)
  exact hchild

/-- A place and its trail lead to the same part. -/
theorem Tracks.at?_eq (h : Tracks x q v) : v.at? x = v.part? q := by
  induction h with
  | nil v => rfl
  | key hi hu _ ih =>
    rw [at?, part?, child_of_index? hi hu, hu]
    exact ih
  | item hu _ ih =>
    rw [at?, part?, children, hu]
    exact ih
  | text i x s q t => cases s <;> rfl

theorem Tracks.str (h : Tracks x q v) (t : Text) : Tracks x q (.str t) := by
  cases h with
  | nil => exact .nil _
  | _ => exact .text _ _ _ _ _

/-- Data have a trail to each of their places. -/
theorem IsData.exists_tracks (h : v.IsData) (hu : v.at? x = some u) : ∃ q, Tracks x q v := by
  induction x generalizing v with
  | nil => exact ⟨[], .nil v⟩
  | cons i x ih =>
    obtain ⟨c, hc, hu⟩ := Option.bind_eq_some_iff.mp hu
    obtain ⟨q, hq⟩ := ih (h.child hc) hu
    cases v with
    | list vs => exact ⟨.item i :: q, .item hc hq⟩
    | map es =>
      obtain ⟨k, hi, hget⟩ := h.textKeys.exists_index? hc
      exact ⟨.key k :: q, .key hi hget hq⟩
    | tuple vs => cases h
    | _ => simp [children] at hc

/-- Every trail to a part has a place. -/
theorem exists_place (h : v.part? q = some u) : ∃ x, Tracks x q v := by
  induction q generalizing v with
  | nil => exact ⟨[], .nil v⟩
  | cons s q ih =>
    cases s with
    | key k =>
      cases v with
      | map es =>
        obtain ⟨c, hc, h⟩ := Option.bind_eq_some_iff.mp h
        obtain ⟨x, hx⟩ := ih h
        obtain ⟨i, hi, -⟩ := Entries.index?_of_get? hc
        exact ⟨i :: x, .key hi hc hx⟩
      | _ => cases h
    | item i =>
      cases v with
      | list vs =>
        obtain ⟨c, hc, h⟩ := Option.bind_eq_some_iff.mp h
        obtain ⟨x, hx⟩ := ih h
        exact ⟨i :: x, .item hc hx⟩
      | _ => cases h

/-- A trail to a part has one place only. -/
theorem Tracks.eq_of_part? (h : Tracks x q v) (h' : Tracks y q v) (hu : v.part? q = some u) : x = y := by
  induction h generalizing y with
  | nil =>
    cases h'
    rfl
  | key hi hget _ ih =>
    cases h' with
    | key hi' hget' htail =>
      obtain rfl := Option.some.inj (hi.symm.trans hi')
      obtain rfl := Option.some.inj (hget.symm.trans hget')
      rw [part?, hget] at hu
      rw [ih htail hu]
  | item hget _ ih =>
    cases h' with
    | item hget' htail =>
      obtain rfl := Option.some.inj (hget.symm.trans hget')
      rw [part?, hget] at hu
      rw [ih htail hu]
  | text i x s q t => cases s <;> cases hu

/-- Behind a part, places and trails lead as they do in it. -/
theorem Tracks.append_iff (h : Tracks y r v) (hc : v.at? y = some c) : Tracks (y ++ x) (r ++ q) v ↔ Tracks x q c := by
  induction h with
  | nil =>
    cases hc
    exact Iff.rfl
  | @key i y k r es u hi hu _ ih =>
    rw [at?, child_of_index? hi hu] at hc
    rw [← ih hc]
    constructor
    · intro h
      cases h with
      | key hi' hu' h =>
        obtain rfl := Option.some.inj (hu.symm.trans hu')
        exact h
    · exact fun h => .key hi hu h
  | @item i y r vs u hu _ ih =>
    rw [at?, children, hu] at hc
    rw [← ih hc]
    constructor
    · intro h
      cases h with
      | item hu' h =>
        obtain rfl := Option.some.inj (hu.symm.trans hu')
        exact h
    · exact fun h => .item hu h
  | text => cases hc

/-! Setting keys -/

theorem Tracked.refl (v : Value) : Tracked v v :=
  fun _ _ h => h

theorem Tracked.trans (h : Tracked v v') (h' : Tracked v' v'') : Tracked v v'' :=
  fun x q hx => h' x q (h x q hx)

theorem tracked_str (v : Value) (t : Text) : Tracked v (.str t) :=
  fun _ _ h => h.str t

theorem tracked_null (v : Value) : Tracked .null v := by
  intro x q h
  cases h
  exact .nil v

theorem Tracked.set (h : ∀ c, es.get? k = some c → Tracked c u) : Tracked (.map es) (.map (es.set k u)) := by
  intro x q hx
  cases hx with
  | nil => exact .nil _
  | @key i x j q _ c hi hc htail =>
    have hi' := (Entries.keeps_set j k u es).stays i hi
    by_cases hj : j = k
    · subst hj
      exact .key hi' (Entries.get?_set_self j u es) (h c hc x q htail)
    · exact .key hi' ((Entries.get?_set_of_ne hj u es).trans hc) htail

/-! Putting parts at places -/

/-- What is put at a place replaces the part that its trail leads to. -/
theorem Replaced.putAt (h : Tracks x q v) (hc : v.at? x = some c) (u : Value) : Replaced q u v (Value.putAt x u v) := by
  induction h with
  | nil v => exact .nil u v
  | @key i x k q es w hi hw _ ih =>
    have hchild := child_of_index? hi hw
    rw [at?, hchild] at hc
    have hpart : (map es).part? [.key k] = some w := by
      rw [part?, hw]
      rfl
    rw [Entries.putAt_map hchild]
    refine Replaced.within hpart (ih hc) ⟨fun r => ?_, fun r hr => ?_⟩
    · rw [List.singleton_append, look_map_key, Entries.get?_modify, if_pos hi]
      rfl
    · cases r with
      | nil => rfl
      | cons s r =>
        cases s with
        | key j =>
          have hj : es.index? j ≠ some i := by
            intro hj
            obtain rfl := Entries.index?_inj hj hi
            exact hr ⟨r, rfl⟩
          rw [look_map_key, look_map_key, Entries.get?_modify, if_neg hj]
        | item => rfl
  | @item i x q vs w hw _ ih =>
    rw [at?, children, hw] at hc
    have hpart : (list vs).part? [.item i] = some w := by
      rw [part?, hw]
      rfl
    have hlt : i < vs.length := (List.getElem?_eq_some_iff.mp hw).1
    rw [Value.putAt, children, hw]
    refine Replaced.within hpart (ih hc) ⟨fun r => ?_, fun r hr => ?_⟩
    · simp only [setChild, look, List.singleton_append, part?, List.getElem?_set_self hlt, Option.bind_some]
    · cases r with
      | nil => simp only [look_nil, setChild, face, List.length_set]
      | cons s r =>
        cases s with
        | key => rfl
        | item j =>
          have hj : i ≠ j := by
            rintro rfl
            exact hr ⟨r, rfl⟩
          simp only [setChild, look, part?, List.getElem?_set_ne hj]
  | text => cases hc

/-- Places lead where they led when something is put at one of them, if those inside of it do in what is put there. -/
theorem Tracks.putAt (hy : Tracks y r v) (hc : v.at? y = some c) (h : Tracks x q v)
    (hu : ∀ x' q', x = y ++ x' → q = r ++ q' → Tracks x' q' u) : Tracks x q (Value.putAt y u v) := by
  induction hy generalizing x q with
  | nil => exact hu x q rfl rfl
  | @key i y k r es w hi hw _ ih =>
    have hchild := child_of_index? hi hw
    rw [at?, hchild] at hc
    rw [Entries.putAt_map hchild]
    have hkeys := Entries.keys_modify es i (Value.putAt y u w)
    cases h with
    | nil => exact .nil _
    | @key j x k' q _ w' hj hw' htail =>
      have hj' := (Entries.index?_congr hkeys k').trans hj
      by_cases hij : j = i
      · subst hij
        obtain rfl := Entries.index?_inj hj hi
        obtain rfl := Option.some.inj (hw.symm.trans hw')
        refine .key hj' ?_ (ih hc htail ?_)
        · rw [Entries.get?_modify, if_pos hi]
        · rintro x' q' rfl rfl
          exact hu x' q' rfl rfl
      · refine .key hj' ?_ htail
        rw [Entries.get?_modify, if_neg, hw']
        intro hi'
        exact hij (Option.some.inj (hj.symm.trans hi'))
  | @item i y r vs w hw _ ih =>
    rw [at?, children, hw] at hc
    have hlt : i < vs.length := (List.getElem?_eq_some_iff.mp hw).1
    rw [Value.putAt, children, hw]
    cases h with
    | nil => exact .nil _
    | @item j x q _ w' hw' htail =>
      by_cases hij : i = j
      · subst hij
        obtain rfl := Option.some.inj (hw.symm.trans hw')
        refine .item (List.getElem?_set_self hlt) (ih hc htail ?_)
        rintro x' q' rfl rfl
        exact hu x' q' rfl rfl
      · exact .item ((List.getElem?_set_ne hij).trans hw') htail
  | text => cases hc

theorem children_setChild (v u : Value) (i : Nat) : (v.setChild i u).children = v.children.set i u := by
  cases v with
  | map es =>
    refine List.ext_getElem? fun j => ?_
    simp only [setChild, children, List.getElem?_map, List.getElem?_modify, List.getElem?_set, List.length_map]
    by_cases hij : i = j
    · subst hij
      by_cases hlt : i < es.length
      · simp [hlt]
      · simp [hlt]
    · simp [hij]
  | _ => rfl

theorem at?_putAt_self (h : v.at? y = some c) (u : Value) : (Value.putAt y u v).at? y = some u := by
  induction y generalizing v with
  | nil => rfl
  | cons i y ih =>
    obtain ⟨w, hw, h⟩ := Option.bind_eq_some_iff.mp h
    have hlt : i < v.children.length := (List.getElem?_eq_some_iff.mp hw).1
    rw [Value.putAt, hw]
    simp only [at?, children_setChild, List.getElem?_set_self hlt, Option.bind_some]
    exact ih h

/-- What is put beside a place leaves what is at it. -/
theorem at?_putAt_of_not_prefix (hxy : ¬ x <+: y) (hyx : ¬ y <+: x) (u v : Value) : (Value.putAt y u v).at? x = v.at? x := by
  induction y generalizing x v with
  | nil => exact (hyx x.nil_prefix).elim
  | cons i y ih =>
    cases x with
    | nil => exact (hxy (List.nil_prefix)).elim
    | cons j x =>
      rw [Value.putAt]
      split
      · rfl
      next c hc =>
      rw [at?, at?, children_setChild, List.getElem?_set]
      by_cases hij : i = j
      · subst hij
        have hlt : i < v.children.length := (List.getElem?_eq_some_iff.mp hc).1
        rw [if_pos rfl, if_pos hlt, hc, Option.bind_some, Option.bind_some]
        refine ih (fun h => hxy ?_) (fun h => hyx ?_) c
        · exact (List.prefix_cons_inj i).mpr h
        · exact (List.prefix_cons_inj i).mpr h
      · rw [if_neg hij]

end Value

end AnnotationCodec
