import AnnotationCodec.Proofs.Value.Data
import AnnotationCodec.Proofs.Yaml.Representation
import AnnotationCodec.Yaml.Printer
import Mathlib.Data.List.Nodup
import Mathlib.Data.List.Perm.Subperm

/-!
The order in which the entries of maps came does not show in what is written: values that are the same as maps have one
tree, and so one text or one failure.
-/
namespace AnnotationCodec

namespace Yaml.Tree

variable {es fs : List (Value × Value)}

/-- Entries that are found among as many others are written as those are, if their keys are different texts. -/
theorem ofValue_map_eq (hkeys : Entries.TextKeys es) (hlength : es.length = fs.length)
    (h : ∀ e ∈ es, ∃ f ∈ fs, f.1 = e.1 ∧ ofEntry f = ofEntry e) :
    ofValue .document (.map es) = ofValue .document (.map fs) := by
  have hwith {gs : List (Value × Value)} : (Entries.sorted gs).map ofEntry =
      (Entries.sorted (gs.map fun e => (e.1, ofEntry e))).map Prod.snd := by
    rw [Entries.sorted_map ofEntry, List.map_map]
    rfl
  have hfirst : (es.map fun e => (e.1, ofEntry e)).map Prod.fst = es.map Prod.fst := by
    rw [List.map_map]
    rfl
  have hkeys' : Entries.TextKeys (es.map fun e => (e.1, ofEntry e)) := by
    refine ⟨List.forall_mem_map.mpr hkeys.texts, ?_⟩
    rw [hfirst]
    exact hkeys.nodup
  have hsubset : (es.map fun e => (e.1, ofEntry e)) ⊆ fs.map fun e => (e.1, ofEntry e) := by
    intro x hx
    obtain ⟨e, he, rfl⟩ := List.mem_map.mp hx
    obtain ⟨f, hf, hkey, hentry⟩ := h e he
    exact List.mem_map.mpr ⟨f, hf, by rw [hkey, hentry]⟩
  have hperm : (es.map fun e => (e.1, ofEntry e)).Perm (fs.map fun e => (e.1, ofEntry e)) := by
    refine (List.subperm_of_subset (List.Nodup.of_map Prod.fst hkeys'.nodup) hsubset).perm_of_length_le ?_
    rw [List.length_map, List.length_map, hlength]
  rw [ofValue_map, ofValue_map, hwith, hwith, Entries.sorted_eq_of_perm hkeys' hperm]

mutual

/-- Values that are the same, their maps taken as maps, have the same tree or the same failure. -/
theorem ofValue_same {v w : Value} (h : v.IsData) (hs : v.Same w) : ofValue .document v = ofValue .document w := by
  cases v with
  | list vs =>
    obtain ⟨ws, rfl, hall⟩ := hs
    rw [ofValue, ofValue, items_same h hall]
  | map es =>
    obtain ⟨fs, rfl, hlength, hentries⟩ := hs
    exact ofValue_map_eq h.1 hlength (entries_same h.2 hentries)
  | _ => exact congrArg _ hs

theorem items_same {vs ws : List Value} (h : Value.IsData.all vs) (hs : Value.Same.all vs ws) :
    ofValue.items .document vs = ofValue.items .document ws := by
  cases vs with
  | nil => exact congrArg _ hs.symm
  | cons v vs =>
    obtain ⟨x, xs, rfl, hx, hxs⟩ := hs
    rw [ofValue.items, ofValue.items, ofValue_same h.1 hx, items_same h.2 hxs]

theorem entries_same {es fs : List (Value × Value)} (h : Value.IsData.entries es) (hs : Value.Same.entries es fs) :
    ∀ e ∈ es, ∃ f ∈ fs, f.1 = e.1 ∧ ofEntry f = ofEntry e := by
  cases es with
  | nil => exact fun e he => absurd he List.not_mem_nil
  | cons e es =>
    obtain ⟨k, v⟩ := e
    obtain ⟨⟨w, hw, hsame⟩, hrest⟩ := hs
    refine List.forall_mem_cons.mpr ⟨⟨(k, w), hw, rfl, ?_⟩, entries_same h.2 hrest⟩
    rw [ofEntry, ofEntry, ofValue_same h.1 hsame]

end

end Yaml.Tree

/-- Documents that are the same, their maps taken as maps, are written alike, up to the first one that cannot be written. -/
theorem Yaml.writeAll_same {vs ws : List Value} (h : ∀ v ∈ vs, v.IsData) (hs : List.Forall₂ Value.Same vs ws) :
    writeAll .document vs = writeAll .document ws := by
  have htrees : vs.map (Tree.ofValue .document) = ws.map (Tree.ofValue .document) := by
    induction hs with
    | nil => rfl
    | cons hsame hrest ih =>
      rw [List.forall_mem_cons] at h
      rw [List.map_cons, List.map_cons, Tree.ofValue_same h.1 hsame, ih h.2]
  rw [writeAll, writeAll, htrees]

end AnnotationCodec
