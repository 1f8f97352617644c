import AnnotationCodec.Proofs.Manifest.Targets
import AnnotationCodec.Proofs.Value.Growth

/-!
The slots that a write goes through, one after the other: the metadata of each resource of a manifest, or annotations
that stand by themselves.
-/
namespace AnnotationCodec

open Entries (annotationsPath)
open Value (Grown)

/-- What a write may change at once: the metadata of a resource, which may be missing, or annotations by themselves. -/
inductive Slot
  | resource (metadata : Option Value)
  | annotations (v : Value)

namespace Slot

/-- The entries of metadata, none where metadata are missing or null. Another value than a map cannot be opened. -/
def entries? : Option Value → Option Entries
  | none | some .null => some []
  | some (.map md) => some md
  | some _ => none

/-- The annotations as a write finds them: an empty map is made where they are missing or null. -/
def made (v : Value) : Value :=
  if v.isNull then .map [] else v

/-- The value that is written to. There is none where metadata are no map. -/
def opened? : Slot → Option Value
  | .resource md => (entries? md).map fun es => made (Entries.lookup es "annotations")
  | .annotations v => some v

/-- The annotations as they stand. -/
def annotations? : Slot → Option Value
  | .resource (some (.map md)) => Entries.get? (text "annotations") md
  | .resource _ => none
  | .annotations v => some v

/-- The slot with other annotations. -/
def put (u : Value) : Slot → Slot
  | .resource md => .resource <| match entries? md with
    | some es => some (.map (Entries.set (text "annotations") u es))
    | none => md
  | .annotations _ => .annotations u

/-- The slot with the empty maps that are made for what is missing in it, and else the slot as it is. -/
def opened (k : Slot) : Slot :=
  match k.opened? with
  | some v => k.put v
  | none => k

variable {k : Slot} {u v : Value}

theorem annotations?_put (h : k.opened? = some v) (u : Value) : (k.put u).annotations? = some u := by
  cases k with
  | resource md =>
    obtain ⟨es, hes, -⟩ := Option.map_eq_some_iff.mp h
    simp only [put, hes]
    exact Entries.get?_set_self _ u es
  | annotations w => rfl

end Slot

namespace Entries

/-- The metadata of a resource. -/
def slot (es : Entries) : Slot :=
  .resource (es.get? (text "metadata"))

/-- The map with the one along a path replaced. -/
def graft : List Text → Entries → Entries → Entries
  | [], new, _ => new
  | k :: p, new, es =>
    match es.get? k with
    | some (.map sub) => es.set k (.map (graft p new sub))
    | _ => es

variable {es sub new md : Entries} {p w : List Text} {k : Text} {u v : Value} {change : Value → Outcome Value}

theorem updateAnnotations_of_closed (h : Slot.entries? (es.get? (text "metadata")) = none) :
    es.updateAnnotations change = .fail es .noAttribute := by
  unfold updateAnnotations openAnnotations lookup
  cases hg : es.get? (text "metadata") with
  | none => simp [hg, Slot.entries?] at h
  | some v => cases v <;> simp_all [Slot.entries?]

/-- A change of annotations sets what it makes of them in the metadata. -/
theorem updateAnnotations_of_open (h : Slot.entries? (es.get? (text "metadata")) = some md) :
    es.updateAnnotations change = (change (Slot.made (Entries.lookup md "annotations"))).map fun u =>
      es.set (text "metadata") (.map (Entries.set (text "annotations") u md)) := by
  have hnull : es.lookup "metadata" = .null → md = [] → es.updateAnnotations change =
      (change (Slot.made (Entries.lookup md "annotations"))).map fun u =>
        es.set (text "metadata") (.map (Entries.set (text "annotations") u md)) := by
    rintro hnull rfl
    simp only [updateAnnotations, openAnnotations, hnull]
    refine congrArg (fun f => Outcome.map f _) (funext fun u => ?_)
    rw [setAnnotations_set]
    rfl
  cases hg : es.get? (text "metadata") with
  | none => exact hnull (by rw [lookup, hg]; rfl) (by simpa [hg, Slot.entries?, eq_comm] using h)
  | some v =>
    cases v with
    | null => exact hnull (by rw [lookup, hg]; rfl) (by simpa [hg, Slot.entries?, eq_comm] using h)
    | map md' =>
      obtain rfl : md' = md := by simpa [hg, Slot.entries?] using h
      have hlookup : es.lookup "metadata" = .map md' := by rw [lookup, hg]; rfl
      cases hb : Entries.lookup md' "annotations" with
      | null =>
        simp only [updateAnnotations, openAnnotations, hlookup, hb]
        refine congrArg (fun f => Outcome.map f _) (funext fun u => ?_)
        rw [setAnnotations_set, set_set]
      | _ =>
        simp only [updateAnnotations, openAnnotations, hlookup, hb]
        exact congrArg (fun f => Outcome.map f _) (funext fun u => setAnnotations_of_map hlookup u)
    | _ => simp [hg, Slot.entries?] at h

/-- A change along a path changes the map there, if there is one. -/
theorem updateAlong_of_some (changeAt : Entries → Outcome Entries) (hd : es.descend? p = some sub) :
    es.updateAlong p changeAt = (changeAt sub).map fun new => graft p new es := by
  induction p generalizing es with
  | nil =>
    cases hd
    rfl
  | cons k p ih =>
    obtain ⟨inner, hg, hd⟩ := descend?_cons_eq_some hd
    simp only [updateAlong, hg, ih hd, graft]
    rfl

theorem descend?_graft (hd : es.descend? p = some sub) (new : Entries) : descend? p (graft p new es) = some new := by
  induction p generalizing es with
  | nil => rfl
  | cons k p ih =>
    obtain ⟨inner, hg, hd⟩ := descend?_cons_eq_some hd
    simp only [graft, hg, descend?, get?_set_self, ih hd]

theorem graft_self (hd : es.descend? p = some sub) : graft p sub es = es := by
  induction p generalizing es with
  | nil =>
    cases hd
    rfl
  | cons k p ih =>
    obtain ⟨inner, hg, hd⟩ := descend?_cons_eq_some hd
    simp only [graft, hg, ih hd]
    exact set_of_get? hg

/-- A new map along a path shows at a key only if the key lies on the way to it, or in the map itself. -/
theorem entryAlong?_graft (hd : es.descend? p = some sub) (hk : ¬ w ++ [k] <+: p)
    (hnew : ∀ r, w = p ++ r → new.entryAlong? r k = sub.entryAlong? r k) :
    (graft p new es).entryAlong? w k = es.entryAlong? w k := by
  induction p generalizing es w with
  | nil =>
    cases hd
    exact hnew w rfl
  | cons j p ih =>
    obtain ⟨inner, hg, hinner⟩ := descend?_cons_eq_some hd
    simp only [graft, hg]
    cases w with
    | nil =>
      have hne : k ≠ j := by
        rintro rfl
        exact hk ((List.prefix_cons_inj k).mpr p.nil_prefix)
      simp only [entryAlong?, descend?, Option.map_some, get?_set_of_ne hne]
    | cons i w =>
      by_cases hi : i = j
      · subst hi
        have htail := ih hinner (fun h => hk ((List.prefix_cons_inj i).mpr h)) fun r hr => hnew r (by rw [hr]; rfl)
        simp only [entryAlong?, descend?, get?_set_self, hg] at htail ⊢
        exact htail
      · simp only [entryAlong?, descend?, get?_set_of_ne hi]

/-- A map grows along a path if the new map in it does so along the rest of the path. -/
theorem grown_graft {keys : List Text} (hd : es.descend? p = some sub)
    (hnew : ∀ r, w = p ++ r → Grown keys r (.map sub) (.map new)) :
    Grown keys w (.map es) (.map (graft p new es)) := by
  induction p generalizing es w with
  | nil =>
    cases hd
    exact hnew w rfl
  | cons j p ih =>
    obtain ⟨inner, hg, hd⟩ := descend?_cons_eq_some hd
    simp only [graft, hg]
    refine Grown.set fun r hr => ⟨fun _ => .set_map hg _, fun u hu => ?_⟩
    rw [hg] at hu
    cases hu
    exact ih hd fun r' hr' => hnew r' (by rw [hr, hr']; rfl)

end Entries

namespace Manifest

/-- The paths of the resources that a manifest may have, in the order in which they are written to. -/
def resourcePaths : List (List Text) :=
  [] :: templatePaths

/-- The slot of the resource along a path, if there is a resource. -/
def slot? (m : Manifest) (p : List Text) : Option Slot :=
  (m.entries.descend? p).map Entries.slot

/-- The slots of a manifest, in the order in which they are written to. -/
def slots (m : Manifest) : List Slot :=
  resourcePaths.filterMap m.slot?

end Manifest

end AnnotationCodec
