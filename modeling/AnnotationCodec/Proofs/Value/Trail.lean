import AnnotationCodec.Proofs.Value.Data
import AnnotationCodec.Proofs.Value.Plain
import Mathlib.Data.List.Perm.Subperm

/-!
What is seen of a value along trails of keys and items. Data of which the same is seen along every trail are the same,
whatever the order in which the entries of their maps came.
-/
namespace AnnotationCodec.Value

/-- A step into a value: to what a map has at a key, or to an item of a list. -/
inductive Step
  | key (k : Text)
  | item (i : Nat)

abbrev Trail := List Step

/-- The part of a value that a trail leads to. -/
def part? : Trail → Value → Option Value
  | [], v => some v
  | .key k :: q, .map es => (Entries.get? k es).bind (part? q)
  | .item i :: q, .list vs => vs[i]?.bind (part? q)
  | _ :: _, _ => none

/-- What is seen of a value from outside: neither the entries of a map nor the items of a list. -/
inductive Face
  | map
  | list (length : Nat)
  | leaf (v : Value)

def face : Value → Face
  | .map _ => .map
  | .list vs => .list vs.length
  | v => .leaf v

/-- What is seen along a trail. -/
def look (v : Value) (q : Trail) : Option Face :=
  (v.part? q).map face

/-- One value comes from another one by putting `u` at the end of a trail. -/
structure Replaced (q : Trail) (u v v' : Value) : Prop where
  inside : ∀ r, v'.look (q ++ r) = u.look r
  outside : ∀ r, ¬ q <+: r → v'.look r = v.look r

variable {v v' u w c c' : Value} {vs ws : List Value} {es fs : Entries} {q r : Trail} {k : Text}

theorem look_nil (v : Value) : v.look [] = some v.face :=
  rfl

theorem look_map_key (k : Text) (q : Trail) (es : Entries) :
    (map es).look (.key k :: q) = (es.get? k).bind fun u => u.look q := by
  rw [look, part?]
  cases es.get? k <;> rfl

theorem part?_append (q r : Trail) (v : Value) : v.part? (q ++ r) = (v.part? q).bind (part? r) := by
  induction q generalizing v with
  | nil => rfl
  | cons s q ih =>
    cases s with
    | key k =>
      cases v with
      | map es =>
        rw [List.cons_append, part?, part?, Option.bind_assoc]
        exact congrArg _ (funext ih)
      | _ => rfl
    | item i =>
      cases v with
      | list vs =>
        rw [List.cons_append, part?, part?, Option.bind_assoc]
        exact congrArg _ (funext ih)
      | _ => rfl

theorem look_append (h : v.part? q = some c) (r : Trail) : v.look (q ++ r) = c.look r := by
  rw [look, part?_append, h]
  rfl

theorem exists_map_of_face (h : v.face = .map) : ∃ es, v = .map es := by
  cases v with
  | map es => exact ⟨es, rfl⟩
  | _ => cases h

theorem look_eq_map_iff : v.look q = some .map ↔ ∃ es, v.part? q = some (.map es) := by
  constructor
  · intro h
    obtain ⟨c, hc, hface⟩ := Option.map_eq_some_iff.mp h
    obtain ⟨es, rfl⟩ := exists_map_of_face hface
    exact ⟨es, hc⟩
  · rintro ⟨es, hes⟩
    rw [look, hes]
    rfl

/-- A key is found in maps only. -/
theorem look_eq_map_of_key (h : v.look (q ++ .key k :: r) ≠ none) : v.look q = some .map := by
  cases hc : v.part? q with
  | none =>
    rw [look, part?_append, hc] at h
    exact (h rfl).elim
  | some c =>
    rw [look_append hc] at h
    cases c with
    | map es => exact look_eq_map_iff.mpr ⟨es, hc⟩
    | _ => exact (h rfl).elim

/-- Nothing is seen behind what has no parts. -/
theorem look_behind_leaf (h : v.look q = some (.leaf u)) (hr : r ≠ []) : v.look (q ++ r) = none := by
  obtain ⟨c, hc, hface⟩ := Option.map_eq_some_iff.mp h
  rw [look_append hc]
  obtain ⟨s, r, rfl⟩ := List.exists_cons_of_ne_nil hr
  cases c <;> cases s <;> first | rfl | cases hface

/-! Data that look the same -/

theorem eq_of_face_leaf (h : Face.leaf u = w.face) : u = w := by
  cases w <;> cases h
  all_goals rfl

theorem length_eq_of_look (hes : Entries.TextKeys es) (hfs : Entries.TextKeys fs) (h : ∀ q, (map es).look q = (map fs).look q) :
    es.length = fs.length := by
  have hkeys {es fs : Entries} (hes : Entries.TextKeys es) (h : ∀ q, (map es).look q = (map fs).look q) :
      (es.map Prod.fst).length ≤ (fs.map Prod.fst).length := by
    refine (List.subperm_of_subset hes.nodup fun x hx => ?_).length_le
    obtain ⟨e, he, rfl⟩ := List.mem_map.mp hx
    obtain ⟨k, hk⟩ := hes.texts e he
    have hget : es.get? k = some e.2 := Entries.get?_of_mem hes.nodup (by rwa [← hk])
    have hlook := h [.key k]
    rw [look_map_key, look_map_key, hget] at hlook
    cases hw : Entries.get? k fs with
    | none =>
      rw [hw] at hlook
      cases hlook
    | some w =>
      rw [hk]
      exact List.mem_map_of_mem (Entries.mem_of_get? hw)
  have hle := hkeys hes h
  have hge := hkeys hfs fun q => (h q).symm
  rw [List.length_map, List.length_map] at hle hge
  omega

mutual

/-- Data of which the same is seen along every trail are the same. -/
theorem same_of_look (v w : Value) (hv : v.IsData) (hw : w.IsData) (h : ∀ q, v.look q = w.look q) : v.Same w := by
  have hface : v.face = w.face := Option.some.inj (h [])
  cases v with
  | list vs =>
    cases w with
    | list ws =>
      refine ⟨ws, rfl, all_of_look vs ws (isData_list_iff.mp hv) (isData_list_iff.mp hw) (Face.list.inj hface) ?_⟩
      intro i v w hi hi' q
      have hq := h (.item i :: q)
      rwa [look, look, part?, part?, hi, hi'] at hq
    | _ => cases hface
  | map es =>
    obtain ⟨fs, rfl⟩ := exists_map_of_face hface.symm
    refine ⟨fs, rfl, length_eq_of_look hv.textKeys hw.textKeys h, entries_of_look es fs (isData_map_iff.mp hv).2 ?_⟩
    intro e he
    obtain ⟨k, hk⟩ := hv.textKeys.texts e he
    have hget : Entries.get? k es = some e.2 := Entries.get?_of_mem hv.textKeys.nodup (by rwa [← hk])
    have hlook : ∀ q, e.2.look q = (Entries.get? k fs).bind fun u => u.look q := by
      intro q
      have hq := h (.key k :: q)
      rwa [look_map_key, look_map_key, hget] at hq
    cases hfs : Entries.get? k fs with
    | none =>
      have hnil := hlook []
      rw [hfs] at hnil
      cases hnil
    | some w =>
      rw [hk]
      refine ⟨w, Entries.mem_of_get? hfs, hw.get? hfs, fun q => ?_⟩
      rw [hlook q, hfs]
      rfl
  | _ => exact eq_of_face_leaf hface

theorem all_of_look (vs ws : List Value) (hvs : ∀ v ∈ vs, v.IsData) (hws : ∀ w ∈ ws, w.IsData) (hlength : vs.length = ws.length)
    (h : ∀ (i : Nat) (v w : Value), vs[i]? = some v → ws[i]? = some w → ∀ q, v.look q = w.look q) : Same.all vs ws := by
  cases vs with
  | nil => exact List.eq_nil_of_length_eq_zero hlength.symm
  | cons v vs =>
    obtain ⟨w, ws, rfl⟩ := List.exists_cons_of_length_eq_add_one hlength.symm
    rw [List.forall_mem_cons] at hvs hws
    refine ⟨w, ws, rfl, same_of_look v w hvs.1 hws.1 (h 0 v w rfl rfl), ?_⟩
    exact all_of_look vs ws hvs.2 hws.2 (Nat.succ.inj hlength) fun i v w hi hi' => h (i + 1) v w hi hi'

theorem entries_of_look (es fs : Entries) (hes : ∀ e ∈ es, e.2.IsData)
    (h : ∀ e ∈ es, ∃ w, (e.1, w) ∈ fs ∧ w.IsData ∧ ∀ q, e.2.look q = w.look q) : Same.entries es fs := by
  cases es with
  | nil => trivial
  | cons e es =>
    obtain ⟨k, v⟩ := e
    rw [List.forall_mem_cons] at hes h
    obtain ⟨w, hw, hdata, hlook⟩ := h.1
    exact ⟨⟨w, hw, same_of_look v w hes.1 hdata hlook⟩, entries_of_look es fs hes.2 h.2⟩

end

/-! Replacing parts -/

namespace Replaced

theorem nil (u v : Value) : Replaced [] u v u :=
  ⟨fun _ => rfl, fun r h => (h r.nil_prefix).elim⟩

theorem set (k : Text) (u : Value) (es : Entries) : Replaced [.key k] u (.map es) (.map (es.set k u)) := by
  constructor
  · intro r
    rw [List.singleton_append, look_map_key, Entries.get?_set_self]
    rfl
  · intro r hr
    cases r with
    | nil => rfl
    | cons s r =>
      cases s with
      | key j =>
        have hne : j ≠ k := by
          rintro rfl
          exact hr ⟨r, rfl⟩
        rw [look_map_key, look_map_key, Entries.get?_set_of_ne hne]
      | item i => rfl

/-- A part of a part is replaced. -/
theorem within (hc : v.part? q = some c) (hpart : Replaced r u c c') (h : Replaced q c' v v') : Replaced (q ++ r) u v v' := by
  constructor
  · intro t
    rw [List.append_assoc, h.inside, hpart.inside]
  · intro t ht
    by_cases hq : q <+: t
    · obtain ⟨t, rfl⟩ := hq
      have hr : ¬ r <+: t := fun hr => ht ((List.prefix_append_right_inj q).mpr hr)
      rw [h.inside, hpart.outside t hr, look_append hc]
    · exact h.outside t hq

end Replaced

end AnnotationCodec.Value
