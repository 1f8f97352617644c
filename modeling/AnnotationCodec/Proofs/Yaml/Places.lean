import AnnotationCodec.Proofs.Value.Place
import AnnotationCodec.Proofs.Yaml.Building

/-!
The places of maps. All maps of a document are listed with their places and the numbers of their mappings, and what is built
of one mapping is the same wherever it stands.
-/
namespace AnnotationCodec.Yaml

namespace Node

variable {f : Nat → Option Node}

mutual

/-- The values of the entries that are merged, and of the other ones, are registered. -/
theorem agrees_parts (es : List (Node × Node)) {merged own : List (Node × Node)} (h : flatten.parts es = .ok (merged, own))
    (hes : Agrees.entries f es) : ∀ e ∈ merged ++ own, e.2.Agrees f := by
  match es with
  | [] =>
    cases h
    simp
  | (k, v) :: es =>
    obtain ⟨hk, hv, hes⟩ := hes
    rw [flatten.parts] at h
    by_cases hmerge : k.tag? = some .merge
    · rw [if_pos hmerge] at h
      obtain ⟨found, hfound, h⟩ := bind_eq_ok_iff.mp h
      obtain ⟨⟨merged', own'⟩, hparts, h⟩ := bind_eq_ok_iff.mp h
      cases h
      rw [List.append_assoc, List.forall_mem_append]
      exact ⟨agrees_source v hfound hv, agrees_parts es hparts hes⟩
    · rw [if_neg hmerge] at h
      obtain ⟨⟨merged', own'⟩, hparts, h⟩ := bind_eq_ok_iff.mp h
      cases h
      have hrest := List.forall_mem_append.mp (agrees_parts es hparts hes)
      rw [List.forall_mem_append, List.forall_mem_cons]
      exact ⟨hrest.1, hv, hrest.2⟩

theorem agrees_source (x : Node) {found : List (Node × Node)} (h : flatten.source x = .ok found) (hx : x.Agrees f) :
    ∀ e ∈ found, e.2.Agrees f := by
  match x with
  | .mapping n tag es =>
    rw [flatten.source] at h
    obtain ⟨⟨merged, own⟩, hparts, h⟩ := bind_eq_ok_iff.mp h
    cases h
    exact agrees_parts es hparts hx.2
  | .sequence tag xs =>
    rw [flatten.source] at h
    exact agrees_sources xs h hx
  | .loop =>
    cases h
    simp
  | .scalar _ _ => cases h

theorem agrees_sources (xs : List Node) {found : List (Node × Node)} (h : flatten.sources xs = .ok found)
    (hxs : Agrees.items f xs) : ∀ e ∈ found, e.2.Agrees f := by
  match xs with
  | [] =>
    cases h
    simp
  | .mapping n tag es :: xs =>
    rw [flatten.sources] at h
    obtain ⟨⟨merged, own⟩, hparts, h⟩ := bind_eq_ok_iff.mp h
    obtain ⟨others, hothers, h⟩ := bind_eq_ok_iff.mp h
    cases h
    rw [List.forall_mem_append]
    exact ⟨agrees_sources xs hothers hxs.2, agrees_parts es hparts hxs.1.2⟩
  | .scalar _ _ :: _ | .sequence _ _ :: _ | .loop :: _ => cases h

end

/-- Merging brings in the values of other mappings only. -/
theorem agrees_flatten {es fs : List (Node × Node)} (h : flatten es = .ok fs) (hes : Agrees.entries f es) :
    ∀ e ∈ fs, e.2.Agrees f := by
  obtain ⟨⟨merged, own⟩, hparts, h⟩ := bind_eq_ok_iff.mp h
  cases h
  exact agrees_parts es hparts hes

end Node

namespace Scalar

variable {tag : Tag} {t : Text} {v : Value}

theorem timestamp_eq_ok (h : timestamp t = .ok v) : (∃ d, v = .date d) ∨ ∃ d, v = .dateTime d := by
  unfold timestamp at h
  dsimp only at h
  generalize Timestamp.read? _ = read at h
  cases read with
  | none => cases h
  | some s =>
    dsimp only at h
    split at h
    · obtain ⟨d, -, rfl⟩ := map_eq_ok_iff.mp (mapError_eq_ok_iff.mp h)
      exact .inl ⟨d, rfl⟩
    · obtain ⟨d, -, rfl⟩ := map_eq_ok_iff.mp (mapError_eq_ok_iff.mp h)
      exact .inr ⟨d, rfl⟩

/-- No map is in the value of a scalar. -/
theorem at?_value_ne_map (h : value tag t = .ok v) (p : Place) (es : Entries) : v.at? p ≠ some (.map es) := by
  have hleaf : v.children = [] ∧ ∀ es, v ≠ .map es := by
    cases tag with
    | null | str =>
      cases h
      exact ⟨rfl, fun es => Value.noConfusion⟩
    | bool | int | float | binary =>
      obtain ⟨a, -, rfl⟩ := map_eq_ok_iff.mp h
      exact ⟨rfl, fun es => Value.noConfusion⟩
    | timestamp =>
      obtain ⟨d, rfl⟩ | ⟨d, rfl⟩ := timestamp_eq_ok h <;> exact ⟨rfl, fun es => Value.noConfusion⟩
    | _ => cases h
  cases p with
  | nil => exact fun heq => hleaf.2 es (Option.some.inj heq)
  | cons i p =>
    rw [Value.at?, hleaf.1]
    exact fun heq => by cases heq

end Scalar

namespace Built

/-- The maps in what is built are listed with their places, every place once. What stands at a place is what belongs to the
number there, with the maps that are in it. -/
structure Placed (P : Nat → Built → Prop) (b : Built) : Prop where
  listed : ∀ p es, b.value.at? p = some (.map es) → ∃ n, (n, p) ∈ b.maps
  nodup : (b.maps.map Prod.snd).Nodup
  part : ∀ n p, (n, p) ∈ b.maps → ∃ c, P n c ∧ b.value.at? p = some c.value ∧ (∃ es, c.value = .map es) ∧
    ∀ m s, (m, p ++ s) ∈ b.maps ↔ (m, s) ∈ c.maps

variable {P : Nat → Built → Prop} {b c : Built} {bs : List Built} {ps acc : List (Value × Built)} {v : Value} {n i : Nat}
  {p : Place}

theorem mem_mapsAt : (n, p) ∈ b.mapsAt i ↔ ∃ q, p = i :: q ∧ (n, q) ∈ b.maps := by
  simp only [mapsAt, List.mem_map, Prod.mk.injEq, Prod.exists]
  constructor
  · rintro ⟨m, q, hq, rfl, rfl⟩
    exact ⟨q, rfl, hq⟩
  · rintro ⟨q, rfl, hq⟩
    exact ⟨n, q, hq, rfl, rfl⟩

theorem mem_allMapsFrom : (n, p) ∈ allMapsFrom i bs ↔ ∃ j c q, bs[j]? = some c ∧ p = (i + j) :: q ∧ (n, q) ∈ c.maps := by
  induction bs generalizing i with
  | nil => simp [allMapsFrom]
  | cons b bs ih =>
    rw [allMapsFrom, List.mem_append, mem_mapsAt, ih]
    constructor
    · rintro (⟨q, hp, hq⟩ | ⟨j, c, q, hc, hp, hq⟩)
      · exact ⟨0, b, q, rfl, hp, hq⟩
      · exact ⟨j + 1, c, q, hc, by rw [hp, Nat.add_right_comm, Nat.add_assoc], hq⟩
    · rintro ⟨j, c, q, hc, hp, hq⟩
      cases j with
      | zero =>
        cases hc
        exact .inl ⟨q, hp, hq⟩
      | succ j => exact .inr ⟨j, c, q, hc, by rw [hp, Nat.add_right_comm, Nat.add_assoc], hq⟩

theorem nodup_allMapsFrom (h : ∀ c ∈ bs, (c.maps.map Prod.snd).Nodup) (i : Nat) :
    ((allMapsFrom i bs).map Prod.snd).Nodup := by
  induction bs generalizing i with
  | nil => exact List.nodup_nil
  | cons b bs ih =>
    rw [List.forall_mem_cons] at h
    rw [allMapsFrom, List.map_append, List.nodup_append]
    refine ⟨?_, ih h.2 (i + 1), ?_⟩
    · have hplaces : (b.mapsAt i).map Prod.snd = (b.maps.map Prod.snd).map (i :: ·) := by
        simp [mapsAt, Function.comp_def]
      rw [hplaces]
      exact h.1.map fun _ _ heq => (List.cons.inj heq).2
    · intro x hx y hy heq
      obtain ⟨⟨n, p⟩, hp, rfl⟩ := List.mem_map.mp hx
      obtain ⟨⟨m, q⟩, hq, rfl⟩ := List.mem_map.mp hy
      obtain ⟨r, hr, -⟩ := mem_mapsAt.mp hp
      obtain ⟨j, c, s, -, hs, -⟩ := mem_allMapsFrom.mp hq
      have hheads := (List.cons.inj (hr.symm.trans (heq.trans hs))).1
      omega

/-- What is built of parts is placed if they are. -/
theorem placed_of_parts (hchildren : b.value.children = bs.map Built.value)
    (hinner : ∀ n i q, (n, i :: q) ∈ b.maps ↔ ∃ c, bs[i]? = some c ∧ (n, q) ∈ c.maps)
    (hroot : ∀ n, (n, []) ∈ b.maps → P n b ∧ ∃ es, b.value = .map es) (hlisted : ∀ es, b.value = .map es → ∃ n, (n, []) ∈ b.maps)
    (hnodup : (b.maps.map Prod.snd).Nodup) (h : ∀ c ∈ bs, Placed P c) : Placed P b := by
  have hat : ∀ i q, b.value.at? (i :: q) = bs[i]?.bind fun c => c.value.at? q := by
    intro i q
    rw [Value.at?, hchildren, List.getElem?_map, Option.bind_map]
    rfl
  refine ⟨fun p es hp => ?_, hnodup, fun n p hp => ?_⟩
  · cases p with
    | nil => exact hlisted es (Option.some.inj hp)
    | cons i q =>
      rw [hat] at hp
      obtain ⟨c, hc, hq⟩ := Option.bind_eq_some_iff.mp hp
      obtain ⟨n, hn⟩ := (h c (List.mem_of_getElem? hc)).listed q es hq
      exact ⟨n, (hinner n i q).mpr ⟨c, hc, hn⟩⟩
  · cases p with
    | nil => exact ⟨b, (hroot n hp).1, rfl, (hroot n hp).2, fun m s => Iff.rfl⟩
    | cons i q =>
      obtain ⟨c, hc, hq⟩ := (hinner n i q).mp hp
      obtain ⟨d, hd, hvalue, hmap, hparts⟩ := (h c (List.mem_of_getElem? hc)).part n q hq
      refine ⟨d, hd, by rw [hat, hc]; exact hvalue, hmap, fun m s => ?_⟩
      rw [List.cons_append, hinner, hc, ← hparts m s]
      simp

theorem mem_maps_cons {bs : List Built} {n i : Nat} {q : Place} :
    (n, i :: q) ∈ allMapsFrom 0 bs ↔ ∃ c, bs[i]? = some c ∧ (n, q) ∈ c.maps := by
  rw [mem_allMapsFrom]
  constructor
  · rintro ⟨j, c, r, hc, heq, hr⟩
    rw [Nat.zero_add] at heq
    cases heq
    exact ⟨c, hc, hr⟩
  · rintro ⟨c, hc, hq⟩
    exact ⟨i, c, q, hc, by rw [Nat.zero_add], hq⟩

theorem not_mem_maps_nil {bs : List Built} {n : Nat} : (n, []) ∉ allMapsFrom 0 bs := by
  rw [mem_allMapsFrom]
  rintro ⟨j, c, q, -, heq, -⟩
  cases heq

theorem placed_ofParts (hchildren : v.children = bs.map Built.value) (hmap : ∀ es, v ≠ .map es) (h : ∀ c ∈ bs, Placed P c) :
    Placed P (ofParts v bs) :=
  placed_of_parts hchildren (fun _ _ _ => mem_maps_cons) (fun _ hn => (not_mem_maps_nil hn).elim) (fun es heq => (hmap es heq).elim)
    (nodup_allMapsFrom (fun c hc => (h c hc).nodup) 0) h

theorem placed_list (h : ∀ c ∈ bs, Placed P c) : Placed P (list bs) :=
  placed_ofParts rfl (fun _ => Value.noConfusion) h

theorem placed_pair (hb : Placed P b) (hc : Placed P c) : Placed P (pair b c) :=
  placed_ofParts rfl (fun _ => Value.noConfusion) (List.forall_mem_cons.mpr ⟨hb, List.forall_mem_singleton.mpr hc⟩)

theorem placed_map (hP : P n (map n ps)) (h : ∀ e ∈ ps, Placed P e.2) : Placed P (map n ps) := by
  have hparts : ∀ c ∈ ps.map Prod.snd, Placed P c := List.forall_mem_map.mpr h
  refine placed_of_parts ?_ ?_ ?_ ?_ ?_ hparts
  · simp [map, ofParts, Value.children]
  · intro m i q
    rw [map, List.mem_cons, ← mem_maps_cons]
    simp [ofParts]
  · intro m hm
    obtain heq | hm := List.mem_cons.mp hm
    · cases heq
      exact ⟨hP, _, rfl⟩
    · exact (not_mem_maps_nil hm).elim
  · exact fun es _ => ⟨n, List.mem_cons_self⟩
  · rw [map, List.map_cons, List.nodup_cons]
    refine ⟨fun hmem => ?_, nodup_allMapsFrom (fun c hc => (hparts c hc).nodup) 0⟩
    obtain ⟨⟨m, p⟩, hm, heq⟩ := List.mem_map.mp hmem
    cases heq
    exact not_mem_maps_nil hm

theorem placed_leaf (h : ∀ p es, v.at? p ≠ some (.map es)) (endless : Bool) : Placed P ⟨v, [], endless⟩ :=
  ⟨fun p es hp => (h p es hp).elim, List.nodup_nil, fun _ _ hp => absurd hp List.not_mem_nil⟩

theorem forall_put {Q : Built → Prop} {key : Value} (hb : Q b) (h : ∀ e ∈ acc, Q e.2) : ∀ e ∈ put key b acc, Q e.2 := by
  induction acc with
  | nil => simpa [put] using hb
  | cons e acc ih =>
    rw [List.forall_mem_cons] at h
    rw [put]
    split_ifs
    · exact List.forall_mem_cons.mpr ⟨hb, h.2⟩
    · exact List.forall_mem_cons.mpr ⟨h.1, ih h.2⟩

theorem forall_mapEntries {Q : Built → Prop} (h : ∀ e ∈ ps, Q e.2) : ∀ e ∈ Node.mapEntries ps, Q e.2 := by
  suffices hfold : ∀ acc : List (Value × Built), (∀ e ∈ acc, Q e.2) →
      ∀ e ∈ ps.foldl (fun acc e => put e.1 e.2 acc) acc, Q e.2 from hfold [] (by simp)
  induction ps with
  | nil => exact fun acc hacc => hacc
  | cons e ps ih =>
    rw [List.forall_mem_cons] at h
    exact fun acc hacc => ih h.2 _ (forall_put h.1 hacc)

end Built

namespace Node

variable {f : Nat → Option Node} {x : Node} {b : Built} {fuel level : Nat}

/-- What the mapping becomes that is registered under a number. -/
def Numbered (f : Nat → Option Node) (n : Nat) (b : Built) : Prop :=
  ∃ x, f n = some x ∧ x.Becomes b

theorem Numbered.unique {n : Nat} {c d : Built} (hc : Numbered f n c) (hd : Numbered f n d) : c = d := by
  obtain ⟨x, hx, hc⟩ := hc
  obtain ⟨y, hy, hd⟩ := hd
  cases hx.symm.trans hy
  exact hc.unique hd

theorem forall_of_forall₂ {α β : Type} {S : α → β → Prop} {Q : β → Prop} {as : List α} {bs : List β} (h : List.Forall₂ S as bs)
    (hS : ∀ a ∈ as, ∀ b, S a b → Q b) : ∀ b ∈ bs, Q b := by
  induction h with
  | nil => simp
  | cons hb _ ih =>
    rw [List.forall_mem_cons] at hS ⊢
    exact ⟨hS.1 _ hb, ih hS.2⟩

theorem at?_scalarValue_ne_map {tag : Tag} {v : Value} (h : x.scalarValue tag = .ok v) (p : Place) (es : Entries) :
    v.at? p ≠ some (.map es) := by
  unfold scalarValue at h
  split at h
  · cases h
  · split at h
    · cases h
    · exact Scalar.at?_value_ne_map h p es

/-- What is built of a node of which the mappings are registered is placed. -/
theorem placed_of_build (h : build fuel level x = .ok b) (hx : x.Agrees f) : Built.Placed (Numbered f) b := by
  induction fuel generalizing level x b with
  | zero => cases h
  | succ fuel ih =>
    cases builds_of_build h with
    | loop => exact Built.placed_leaf (fun p es => by cases p <;> exact fun heq => nomatch heq) true
    | list hxs => exact Built.placed_list (forall_of_forall₂ hxs fun y hy c hc => ih hc (agrees_sequence.mp hx y hy))
    | pairs _ hxs =>
      refine Built.placed_list (forall_of_forall₂ hxs ?_)
      rintro y hy _ ⟨n, tag, k, v, c, d, rfl, hk, hv, rfl⟩
      obtain ⟨-, hkagrees, hvagrees, -⟩ := agrees_sequence.mp hx _ hy
      exact Built.placed_pair (ih hk hkagrees) (ih hv hvagrees)
    | map hfs hps =>
      -- A merged value is a node of another mapping, which is registered as well.
      have hvalues := agrees_flatten hfs hx.2
      exact Built.placed_map ⟨_, hx.1, _, _, h⟩
        (Built.forall_mapEntries (forall_of_forall₂ hps fun e he p hp => ih hp.2 (hvalues e he)))
    | set => exact Built.placed_leaf (fun p es => by cases p <;> exact fun heq => nomatch heq) false
    | leaf htag _ hv => exact Built.placed_leaf (at?_scalarValue_ne_map hv) false

end Node

namespace Document

variable {maps : List (Nat × Place)} {x y : Place} {d : Document}

/-- Places are listed together if they have one number, and it is not the number of one place only. -/
theorem shared_iff (hnodup : (maps.map Prod.snd).Nodup) : (∃ g ∈ sharedPlaces maps, x ∈ g ∧ y ∈ g) ↔
    ∃ n, (n, x) ∈ maps ∧ (n, y) ∈ maps ∧ ∃ z, z ≠ x ∧ (n, z) ∈ maps := by
  have hmem : ∀ n z, z ∈ (maps.filter fun e => e.1 = n).map Prod.snd ↔ (n, z) ∈ maps := by
    intro n z
    simp only [List.mem_map, List.mem_filter, decide_eq_true_eq, Prod.exists]
    constructor
    · rintro ⟨m, w, ⟨hw, rfl⟩, rfl⟩
      exact hw
    · exact fun hz => ⟨n, z, ⟨hz, rfl⟩, rfl⟩
  simp only [sharedPlaces, List.mem_filter, List.mem_map, List.mem_eraseDups, decide_eq_true_eq]
  constructor
  · rintro ⟨_, ⟨⟨n, -, rfl⟩, hlength⟩, hx, hy⟩
    refine ⟨n, (hmem n x).mp hx, (hmem n y).mp hy, ?_⟩
    have hne : (maps.filter fun e => e.1 = n).map Prod.snd ≠ [x] := by
      intro heq
      rw [heq] at hlength
      exact Nat.lt_irrefl 1 hlength
    obtain hnil | ⟨z, hz, hzx⟩ := ((hnodup.sublist (List.filter_sublist.map _)).ne_singleton_iff x).mp hne
    · rw [hnil] at hx
      cases hx
    · exact ⟨z, hzx, (hmem n z).mp hz⟩
  · rintro ⟨n, hx, hy, z, hzx, hz⟩
    refine ⟨_, ⟨⟨n, ⟨_, hx, rfl⟩, rfl⟩, ?_⟩, (hmem n x).mpr hx, (hmem n y).mpr hy⟩
    refine Nat.lt_of_not_le fun hlength => hzx ?_
    obtain ⟨w, hw⟩ | hnil :=
      (Nat.le_one_iff_eq_zero_or_eq_one.mp hlength).symm.imp List.length_eq_one_iff.mp List.length_eq_zero_iff.mp
    · have hzw := (hmem n z).mpr hz
      have hxw := (hmem n x).mpr hx
      rw [hw, List.mem_singleton] at hzw hxw
      rw [hzw, hxw]
    · have hxn := (hmem n x).mpr hx
      rw [hnil] at hxn
      cases hxn

/-- A document that is built of nodes of which the mappings are registered. -/
def IsPlaced (d : Document) : Prop :=
  ∃ f b, Built.Placed (Node.Numbered f) b ∧ d.value = b.value ∧ d.shared = sharedPlaces b.maps

theorem isPlaced_ofNode {n : Node} {f : Nat → Option Node} (hn : n.Agrees f) (h : ofNode n = .ok d) : d.IsPlaced := by
  unfold ofNode at h
  split at h
  · cases h
  · next b hb =>
    cases h
    exact ⟨f, b, Node.placed_of_build hb hn, rfl, rfl⟩

end Document

namespace Stream

variable {s rest : Stream} {t : Text} {d : Document}

theorem anchors_ofText (h : ofText t = .ok s) : s.reading.anchors = [] := by
  unfold ofText at h
  split_ifs at h
  cases h
  rfl

/-- A document of a stream is placed, and no anchor is known behind it. -/
theorem isPlaced_next? (hs : s.reading.anchors = []) (h : s.next? = .ok (some (d, rest))) :
    d.IsPlaced ∧ rest.reading.anchors = [] := by
  unfold next? at h
  obtain ⟨found, hfound, h⟩ := bind_eq_ok_iff.mp h
  split at h
  · cases h
  · next n rest' =>
    obtain ⟨d', hd, h⟩ := bind_eq_ok_iff.mp h
    cases h
    obtain ⟨found, hread, heq⟩ := map_eq_ok_iff.mp hfound
    obtain ⟨⟨n', r⟩, rfl, heq⟩ := Option.map_eq_some_iff.mp heq
    cases heq
    have hagrees : (∃ f, n.Agrees f) ∧ r.anchors = [] := by
      split_ifs at hread
      · exact Reading.firstDocument_agrees hs hread
      · exact Reading.markedDocument_agrees hs hread
    obtain ⟨⟨f, hf⟩, hr⟩ := hagrees
    exact ⟨Document.isPlaced_ofNode hf hd, hr⟩

end Stream

end AnnotationCodec.Yaml
