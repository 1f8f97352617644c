import AnnotationCodec.Manifest.Basic
import AnnotationCodec.Proofs.Value.Path

/-!
The annotations of one resource. A change of them makes the maps that are missing and leaves the rest of the
resource, and of the map that it lies in, as it was.
-/
namespace AnnotationCodec.Entries

/-- The path of the annotations in a resource. -/
def annotationsPath : List Text :=
  [text "metadata", text "annotations"]

/-- The annotations of a resource, an empty map where they or the metadata are missing or null. There are none where
another value than a map stands for either. -/
def annotations? (es : Entries) : Option Entries :=
  match es.lookup "metadata" with
  | .null => some []
  | .map metadata =>
    match Entries.lookup metadata "annotations" with
    | .null => some []
    | .map annotations => some annotations
    | _ => none
  | _ => none

variable {es es' sub sub' a a' md : Entries} {key : String} {v : Value} {p w : List Text}
  {change : Value → Outcome Value}

theorem lookup_of_get? (h : es.get? (text key) = some v) : es.lookup key = v := by
  rw [lookup, h, Option.getD_some]

theorem get?_of_lookup (h : es.lookup key = v) (hv : v ≠ .null) : es.get? (text key) = some v := by
  unfold lookup at h
  cases hg : es.get? (text key) with
  | none =>
    rw [hg] at h
    exact (hv h.symm).elim
  | some w =>
    rw [hg, Option.getD_some] at h
    rw [h]

theorem get?_of_lookup_map (h : es.lookup key = .map md) : es.get? (text key) = some (.map md) :=
  get?_of_lookup h (by simp)

/-- Below null there is as little as in an empty map. -/
theorem along?_of_lookup_null (h : es.lookup key = .null) {ks : List Value} (hks : ks ≠ []) :
    (Value.map es).along? (.str (text key) :: ks) = (Value.map []).along? ks := by
  rw [Value.along?_map_nil hks, Value.along?_cons_str]
  unfold lookup at h
  cases hg : es.get? (text key) with
  | none => rfl
  | some v =>
    rw [hg, Option.getD_some] at h
    subst h
    cases ks with
    | nil => exact (hks rfl).elim
    | cons k ks => rfl

theorem lookup_set_self (key : String) (v : Value) (es : Entries) : (es.set (text key) v).lookup key = v := by
  rw [lookup, get?_set_self, Option.getD_some]

theorem setAnnotations_of_map (h : es.lookup "metadata" = .map md) (v : Value) :
    es.setAnnotations v = es.set (text "metadata") (.map (Entries.set (text "annotations") v md)) := by
  simp only [setAnnotations, h]

theorem setAnnotations_set (md : Entries) (v : Value) (es : Entries) :
    (es.set (text "metadata") (.map md)).setAnnotations v =
      es.set (text "metadata") (.map (Entries.set (text "annotations") v md)) := by
  rw [setAnnotations_of_map (lookup_set_self ..), set_set]

/-- Whatever is set in an opened resource stands where the annotations belong, and nothing else changes. -/
theorem openAnnotations_of_some (h : es.annotations? = some a) :
    ∃ opened, es.openAnnotations = .ok (opened, .map a) ∧ ∀ v, Put annotationsPath v es (opened.setAnnotations v) := by
  unfold annotations? at h
  unfold openAnnotations
  cases hmd : es.lookup "metadata" with
  | null =>
    simp only [hmd, Option.some.injEq] at h
    subst h
    refine ⟨_, rfl, fun v => ?_⟩
    rw [setAnnotations_set]
    exact (put_set (text "annotations") v []).within fun ks hks => along?_of_lookup_null hmd hks
  | map md =>
    have hput := fun v => (put_set (text "annotations") v md).within fun ks (_ : ks ≠ []) =>
      Value.along?_of_get? (get?_of_lookup_map hmd) ks
    cases hb : Entries.lookup md "annotations" with
    | null =>
      simp only [hmd, hb, Option.some.injEq] at h
      subst h
      refine ⟨_, by simp only [hb]; rfl, fun v => ?_⟩
      rw [setAnnotations_set, set_set]
      exact hput v
    | map b =>
      simp only [hmd, hb, Option.some.injEq] at h
      subst h
      refine ⟨_, by simp only [hb]; rfl, fun v => ?_⟩
      rw [setAnnotations_of_map hmd]
      exact hput v
    | _ => simp [hmd, hb] at h
  | _ => simp [hmd] at h

theorem updateAnnotations_of_done (h : es.annotations? = some a) (hc : change (.map a) = .done (.map a')) :
    ∃ es', es.updateAnnotations change = .done es' ∧ Put annotationsPath (.map a') es es' := by
  obtain ⟨opened, hopen, hput⟩ := openAnnotations_of_some h
  refine ⟨_, ?_, hput (.map a')⟩
  simp only [updateAnnotations, hopen, hc]
  rfl

theorem annotations?_of_found (h : (Value.map es).along? (keys annotationsPath) = some (.map a)) :
    es.annotations? = some a := by
  rw [annotationsPath, keys, List.map_cons, Value.along?_cons_str, Option.bind_eq_some_iff] at h
  obtain ⟨v, hv, h⟩ := h
  cases v with
  | map md =>
    rw [List.map_cons, Value.along?_cons_str, Option.bind_eq_some_iff] at h
    obtain ⟨v, hv', h⟩ := h
    obtain rfl := Option.some.inj h
    simp only [annotations?, lookup, hv, hv', Option.getD_some]
  | _ => cases h

theorem descend?_eq_some_iff :
    es.descend? p = some sub ↔ (Value.map es).along? (keys p) = some (.map sub) := by
  induction p generalizing es with
  | nil => simp [descend?, keys, Value.along?]
  | cons k p ih =>
    rw [descend?, keys, List.map_cons, Value.along?_cons_str]
    cases hg : es.get? k with
    | none => simp
    | some v =>
      cases v with
      | map sub => exact ih
      | _ => cases p <;> simp [Value.along?]

theorem descend?_cons_eq_some {k : Text} (h : es.descend? (k :: p) = some sub) :
    ∃ inner, es.get? k = some (.map inner) ∧ descend? p inner = some sub := by
  unfold descend? at h
  cases hg : es.get? k with
  | none => simp [hg] at h
  | some v =>
    cases v with
    | map inner =>
      simp only [hg] at h
      exact ⟨inner, rfl, h⟩
    | _ => simp [hg] at h

theorem descend?_congr (h : (Value.map es).along? (keys p) = (Value.map es').along? (keys p)) :
    es.descend? p = es'.descend? p := by
  refine Option.ext fun sub => ?_
  rw [descend?_eq_some_iff, descend?_eq_some_iff, h]

/-- A change of the map at the end of a path is no other change of the whole map. -/
theorem updateAlong_of_done (changeAt : Entries → Outcome Entries) (hd : es.descend? p = some sub)
    (hc : changeAt sub = .done sub') (hp : Put w v sub sub') :
    ∃ es', es.updateAlong p changeAt = .done es' ∧ Put (p ++ w) v es es' := by
  induction p generalizing es with
  | nil =>
    obtain rfl := Option.some.inj hd
    exact ⟨sub', hc, hp⟩
  | cons k p ih =>
    obtain ⟨inner, hg, hd⟩ := descend?_cons_eq_some hd
    obtain ⟨new, hnew, hput⟩ := ih hd
    refine ⟨es.set k (.map new), ?_, hput.within fun ks _ => Value.along?_of_get? hg ks⟩
    simp only [updateAlong, hg, hnew]
    rfl

theorem updateAlong_of_none (changeAt : Entries → Outcome Entries) (hd : es.descend? p = none) :
    es.updateAlong p changeAt = .done es := by
  induction p generalizing es with
  | nil => cases hd
  | cons k p ih =>
    unfold updateAlong
    cases hg : es.get? k with
    | none => rfl
    | some v =>
      cases v with
      | map sub =>
        simp only [descend?, hg] at hd
        simp only [ih hd]
        exact congrArg Outcome.done (set_of_get? hg)
      | _ => rfl

end AnnotationCodec.Entries
