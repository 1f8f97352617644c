import AnnotationCodec.Proofs.Value.Entries
import AnnotationCodec.Proofs.Yaml.NodeReader
import AnnotationCodec.Yaml.Document

/-!
The values of documents of plain data. A tree denotes a value by its scalars and its shape, and from its nodes that value is
built; no map of it is at two places.
-/
namespace AnnotationCodec.Yaml

/-- The value of a tree of plain data. The keys of a map are texts, and none is there twice. -/
def Tree.Denotes : Tree → Value → Prop
  | .scalar tag t lines, v => lines = false ∧ IsImplied tag t ∧ Scalar.value tag t = .ok v
  | .sequence xs, v => ∃ vs, v = .list vs ∧ items xs vs
  | .mapping tag es, v => tag = .map ∧ ∃ fs, v = .map fs ∧ (fs.map Prod.fst).Nodup ∧ pairs es fs
where
  items : List Tree → List Value → Prop
    | [], vs => vs = []
    | x :: xs, vs => ∃ v ws, vs = v :: ws ∧ x.Denotes v ∧ items xs ws
  pairs : List (Tree × Tree) → List (Value × Value) → Prop
    | [], fs => fs = []
    | (k, x) :: es, fs => ∃ t v gs, fs = (.str t, v) :: gs ∧ k = .scalar .str t false ∧ x.Denotes v ∧ pairs es gs

namespace Tree

mutual

theorem isSimple_of_denotes {v : Value} (t : Tree) (h : t.Denotes v) : t.IsSimple := by
  cases t with
  | scalar tag t lines => exact ⟨h.1, h.2.1⟩
  | sequence xs =>
    obtain ⟨vs, -, hxs⟩ := h
    exact isSimple_of_items xs hxs
  | mapping tag es =>
    obtain ⟨htag, fs, -, -, hes⟩ := h
    exact ⟨htag, isSimple_of_pairs es hes⟩

theorem isSimple_of_items {vs : List Value} (xs : List Tree) (h : Denotes.items xs vs) : IsSimple.items xs := by
  cases xs with
  | nil => trivial
  | cons x xs =>
    obtain ⟨v, ws, -, hx, hxs⟩ := h
    exact ⟨isSimple_of_denotes x hx, isSimple_of_items xs hxs⟩

theorem isSimple_of_pairs {fs : List (Value × Value)} (es : List (Tree × Tree)) (h : Denotes.pairs es fs) : IsSimple.pairs es := by
  match es, h with
  | [], _ => trivial
  | (k, x) :: es, ⟨t, v, gs, _, hk, hx, hes⟩ => exact ⟨⟨t, hk⟩, isSimple_of_denotes x hx, isSimple_of_pairs es hes⟩

end

end Tree

namespace Built

/-- What is built of plain data: the value, with its maps numbered one after the other. -/
structure Holds (v : Value) (n count : Nat) (b : Built) : Prop where
  value : b.value = v
  numbers : b.maps.map Prod.fst = List.range' n count
  finite : b.endless = false

/-- What is built of neighbours. -/
structure HoldAll (vs : List Value) (n count : Nat) (bs : List Built) : Prop where
  values : bs.map Built.value = vs
  numbers : ∀ i, (allMapsFrom i bs).map Prod.fst = List.range' n count
  finite : bs.any Built.endless = false

variable {v : Value} {vs : List Value} {n m count : Nat} {b : Built} {bs : List Built} {t : Text} {ps acc : List (Value × Built)}

theorem numbers_mapsAt (i : Nat) (b : Built) : (b.mapsAt i).map Prod.fst = b.maps.map Prod.fst := by
  simp [mapsAt]

theorem holdAll_nil (n : Nat) : HoldAll [] n 0 [] :=
  ⟨rfl, fun _ => rfl, rfl⟩

theorem holdAll_cons (hb : b.Holds v n count) (hbs : HoldAll vs (n + count) m bs) : HoldAll (v :: vs) n (count + m) (b :: bs) := by
  refine ⟨by rw [List.map_cons, hb.value, hbs.values], fun i => ?_, by rw [List.any_cons, hb.finite, hbs.finite]; rfl⟩
  rw [allMapsFrom, List.map_append, numbers_mapsAt, hb.numbers, hbs.numbers, List.range'_append_1]

theorem holds_leaf (v : Value) (n : Nat) : (leaf v).Holds v n 0 :=
  ⟨rfl, rfl, rfl⟩

theorem holds_list (h : HoldAll vs n count bs) : (list bs).Holds (.list vs) n count :=
  ⟨by rw [list, ofParts, h.values], h.numbers 0, h.finite⟩

/-- A new key is put behind the others. -/
theorem put_of_new {key : Text} (h : ∀ e ∈ acc, ∃ t, e.1 = .str t) (hnew : Value.str key ∉ acc.map Prod.fst) (p : Built) :
    put (.str key) p acc = acc ++ [(.str key, p)] := by
  induction acc with
  | nil => rfl
  | cons e acc ih =>
    obtain ⟨k, q⟩ := e
    rw [List.forall_mem_cons] at h
    rw [List.map_cons, List.mem_cons, not_or] at hnew
    have hne : ¬ k.sameKey (.str key) = true := fun hsame => hnew.1 (Value.sameKey_str.mp hsame).symm
    rw [put, if_neg hne, ih h.2 hnew.2]
    rfl

theorem foldl_put (h : ∀ e ∈ acc ++ ps, ∃ t, e.1 = .str t) (hnodup : ((acc ++ ps).map Prod.fst).Nodup) :
    ps.foldl (fun acc e => put e.1 e.2 acc) acc = acc ++ ps := by
  induction ps generalizing acc with
  | nil => simp
  | cons e ps ih =>
    obtain ⟨k, p⟩ := e
    obtain ⟨t, rfl⟩ := h (k, p) (by simp)
    have hacc : ∀ e ∈ acc, ∃ t, e.1 = .str t := fun e he => h e (List.mem_append_left _ he)
    have hnew : Value.str t ∉ acc.map Prod.fst := by
      rw [List.map_append, List.map_cons, List.nodup_append] at hnodup
      intro hmem
      exact hnodup.2.2 _ hmem _ List.mem_cons_self rfl
    have hmove : acc ++ (Value.str t, p) :: ps = (acc ++ [(Value.str t, p)]) ++ ps := by simp
    rw [List.foldl_cons, put_of_new hacc hnew, hmove]
    rw [hmove] at h hnodup
    exact ih h hnodup

theorem holds_map {fs : List (Value × Value)} (hkeys : ps.map Prod.fst = fs.map Prod.fst)
    (h : HoldAll (fs.map Prod.snd) (n + 1) count (ps.map Prod.snd)) : (map n ps).Holds (.map fs) n (count + 1) := by
  have hentries : ps.map (fun e => (e.1, e.2.value)) = fs := by
    have hvalues := h.values
    rw [List.map_map] at hvalues
    calc ps.map (fun e => (e.1, e.2.value))
        = (ps.map Prod.fst).zip (ps.map (Built.value ∘ Prod.snd)) := List.zip_map'.symm
      _ = (fs.map Prod.fst).zip (fs.map Prod.snd) := by rw [hkeys, hvalues]
      _ = fs := by rw [List.zip_map', List.map_id']
  refine ⟨congrArg Value.map hentries, ?_, h.finite⟩
  rw [map, List.map_cons, ofParts, h.numbers, List.range'_succ]

end Built

namespace Node

variable {v : Value} {n fuel level : Nat} {es : List (Node × Node)}

theorem build_scalar {tag : Tag} {t : Text} (h : Scalar.value tag t = .ok v) (fuel level : Nat) :
    build (fuel + 1) level (.scalar tag t) = .ok (.leaf v) := by
  cases tag with
  | seq | map | set | omap | pairs | merge | value | other => cases h
  | _ => simp [build, tag?, isCollection, scalarValue, text?, h]

theorem build_sequence (fuel level : Nat) (xs : List Node) :
    build (fuel + 1) level (.sequence .seq xs) = (every (xs.map (build fuel (level + 1)))).map Built.list :=
  rfl

/-- Nothing is merged where all keys are texts. -/
theorem flatten_eq_self (h : ∀ e ∈ es, ∃ t, e.1 = .scalar .str t) : flatten es = .ok es := by
  have hparts : flatten.parts es = .ok ([], es) := by
    induction es with
    | nil => rfl
    | cons e es ih =>
      obtain ⟨k, x⟩ := e
      rw [List.forall_mem_cons] at h
      obtain ⟨t, rfl⟩ : ∃ t, k = .scalar .str t := h.1
      simp [flatten.parts, tag?, ih h.2, bind, Except.bind, pure, Except.pure]
  simp [flatten, hparts, bind, Except.bind, pure, Except.pure]

/-- What is built of an entry whose key is a text. -/
def buildEntry (fuel level : Nat) (e : Node × Node) : Except Misfit (Value × Built) :=
  both (if e.1.isCollection then .error ⟨level, .document .node⟩ else keyOf level (build fuel level e.1)) (build fuel level e.2)

theorem build_mapping (h : ∀ e ∈ es, ∃ t, e.1 = .scalar .str t) (fuel level n : Nat) :
    build (fuel + 1) level (.mapping n .map es) =
      ((every (es.map (buildEntry fuel (level + 1)))).map fun ps => ps.foldl (fun acc e => Built.put e.1 e.2 acc) []).map
        (Built.map n) := by
  have hflatten := flatten_eq_self h
  simp only [build, tag?, hflatten]
  rfl

theorem buildEntry_str {t : Text} {x : Node} {b : Built} (h : build (fuel + 1) level x = .ok b) :
    buildEntry (fuel + 1) level (.scalar .str t, x) = .ok (.str t, b) := by
  have hkey : keyOf level (build (fuel + 1) level (.scalar .str t)) = .ok (.str t) := by
    rw [build_scalar (v := .str t) rfl]
    rfl
  unfold buildEntry
  rw [hkey, h]
  rfl

theorem every_cons {α : Type} {x : Except Misfit α} {xs : List (Except Misfit α)} {a : α} {as : List α} (hx : x = .ok a)
    (hxs : every xs = .ok as) : every (x :: xs) = .ok (a :: as) := by
  rw [every, hx, hxs]
  rfl

theorem keys_toNode {fs : List (Value × Value)} (es : List (Tree × Tree)) (h : Tree.Denotes.pairs es fs) (n : Nat) :
    ∀ e ∈ Tree.toNode.pairs n es, ∃ t, e.1 = .scalar .str t := by
  match es, h with
  | [], _ => exact fun e he => absurd he List.not_mem_nil
  | (k, x) :: es, ⟨t, v, gs, _, hk, _, hes⟩ =>
    subst hk
    exact List.forall_mem_cons.mpr ⟨⟨t, rfl⟩, keys_toNode es hes _⟩

theorem keys_str {fs : List (Value × Value)} (es : List (Tree × Tree)) (h : Tree.Denotes.pairs es fs) :
    ∀ k ∈ fs.map Prod.fst, ∃ t, k = .str t := by
  match es, h with
  | [], h =>
    obtain rfl : fs = [] := h
    exact fun k hk => absurd hk List.not_mem_nil
  | (k, x) :: es, ⟨t, v, gs, hfs, _, _, hes⟩ =>
    subst hfs
    exact List.forall_mem_cons.mpr ⟨⟨t, rfl⟩, keys_str es hes⟩

theorem depth_pos (x : Node) : 0 < x.depth := by
  cases x <;> exact Nat.succ_pos _

mutual

/-- The value of a tree is built of its nodes. -/
theorem exists_build {v : Value} {fuel : Nat} (t : Tree) (h : t.Denotes v) (n : Nat) (hfuel : (t.toNode n).depth ≤ fuel)
    (level : Nat) : ∃ b, build fuel level (t.toNode n) = .ok b ∧ b.Holds v n t.mappings := by
  have hpos := depth_pos (t.toNode n)
  obtain ⟨fuel, rfl⟩ : ∃ f, fuel = f + 1 := Nat.exists_eq_add_of_le' (by omega)
  cases t with
  | scalar tag t lines => exact ⟨_, build_scalar h.2.2 fuel level, Built.holds_leaf v n⟩
  | sequence xs =>
    obtain ⟨vs, rfl, hxs⟩ := h
    obtain ⟨bs, hevery, hbs⟩ := exists_every_items xs hxs n (Nat.le_of_succ_le_succ hfuel) (level + 1)
    refine ⟨.list bs, ?_, Built.holds_list hbs⟩
    rw [Tree.toNode, build_sequence, hevery]
    rfl
  | mapping tag es =>
    obtain ⟨rfl, fs, rfl, hnodup, hes⟩ := h
    obtain ⟨ps, hevery, hkeys, hps⟩ := exists_every_pairs es hes (n + 1) (Nat.le_of_succ_le_succ hfuel) (level + 1)
    have hstr : ∀ e ∈ [] ++ ps, ∃ t, e.1 = .str t := by
      intro e he
      have hmem := List.mem_map_of_mem (f := Prod.fst) he
      rw [List.nil_append, hkeys] at hmem
      exact keys_str es hes e.1 hmem
    have hput := Built.foldl_put hstr (by rw [List.nil_append, hkeys]; exact hnodup)
    refine ⟨.map n ps, ?_, Built.holds_map hkeys hps⟩
    rw [Tree.toNode, build_mapping (keys_toNode es hes (n + 1)), hevery]
    simp only [Except.map, hput, List.nil_append]

theorem exists_every_items {vs : List Value} {fuel : Nat} (xs : List Tree) (h : Tree.Denotes.items xs vs) (n : Nat)
    (hfuel : depth.ofItems (Tree.toNode.items n xs) ≤ fuel) (level : Nat) :
    ∃ bs, every ((Tree.toNode.items n xs).map (build fuel level)) = .ok bs ∧ Built.HoldAll vs n (Tree.mappings.items xs) bs := by
  cases xs with
  | nil =>
    obtain rfl : vs = [] := h
    exact ⟨[], rfl, Built.holdAll_nil n⟩
  | cons x xs =>
    obtain ⟨v, ws, rfl, hx, hxs⟩ := h
    have hdepth := Nat.max_le.mp hfuel
    obtain ⟨b, hbuild, hb⟩ := exists_build x hx n hdepth.1 level
    obtain ⟨bs, hevery, hbs⟩ := exists_every_items xs hxs (n + x.mappings) hdepth.2 level
    exact ⟨b :: bs, every_cons hbuild hevery, Built.holdAll_cons hb hbs⟩

theorem exists_every_pairs {fs : List (Value × Value)} {fuel : Nat} (es : List (Tree × Tree)) (h : Tree.Denotes.pairs es fs)
    (n : Nat) (hfuel : depth.ofEntries (Tree.toNode.pairs n es) ≤ fuel) (level : Nat) :
    ∃ ps, every ((Tree.toNode.pairs n es).map (buildEntry fuel level)) = .ok ps ∧ ps.map Prod.fst = fs.map Prod.fst ∧
      Built.HoldAll (fs.map Prod.snd) n (Tree.mappings.pairs es) (ps.map Prod.snd) := by
  match es, h, hfuel with
  | [], h, _ =>
    obtain rfl : fs = [] := h
    exact ⟨[], rfl, rfl, Built.holdAll_nil n⟩
  | (k, x) :: es, ⟨t, v, gs, hfs, hk, hx, hes⟩, hfuel =>
    subst hfs hk
    obtain ⟨hboth, hrest⟩ := Nat.max_le.mp hfuel
    obtain ⟨hkey, hvalue⟩ := Nat.max_le.mp hboth
    have hpos := depth_pos ((Tree.scalar .str t false).toNode n)
    obtain ⟨fuel, rfl⟩ : ∃ f, fuel = f + 1 := Nat.exists_eq_add_of_le' (by omega)
    obtain ⟨b, hbuild, hb⟩ := exists_build x hx n hvalue level
    obtain ⟨ps, hevery, hkeys, hps⟩ := exists_every_pairs es hes (n + x.mappings) hrest level
    refine ⟨(.str t, b) :: ps, every_cons (buildEntry_str hbuild) hevery, ?_, ?_⟩
    · rw [List.map_cons, hkeys, List.map_cons]
    · have hall := Built.holdAll_cons hb hps
      rw [Tree.mappings.pairs, Tree.mappings, Nat.zero_add]
      exact hall

end

end Node

namespace Document

/-- A map with a number of its own is at one place. -/
theorem sharedPlaces_of_nodup {maps : List (Nat × Place)} (h : (maps.map Prod.fst).Nodup) : sharedPlaces maps = [] := by
  unfold sharedPlaces
  simp only [List.filter_eq_nil_iff, List.forall_mem_map, List.length_map, decide_eq_true_eq, Nat.not_lt]
  intro n _
  have hcount := List.nodup_iff_count.mp h n
  rw [List.count_eq_countP, List.countP_map, List.countP_eq_length_filter] at hcount
  simpa [Function.comp_def, beq_eq_decide] using hcount

/-- A tree of plain data is the value of its document, and nothing in it is shared. -/
theorem ofNode_toNode {t : Tree} {v : Value} (h : t.Denotes v) (n : Nat) : ofNode (t.toNode n) = .ok ⟨v, [], false⟩ := by
  obtain ⟨b, hbuild, hb⟩ := Node.exists_build t h n (Nat.le_refl _) 0
  have hshared : sharedPlaces b.maps = [] := by
    refine sharedPlaces_of_nodup ?_
    rw [hb.numbers]
    exact List.nodup_range'
  rw [ofNode, hbuild]
  simp only [hb.value, hb.finite, hshared]

end Document

namespace Stream

open Reading Layout

variable {t : Tree} {v : Value} {hs : List (Text × Text)}

/-- The next document of a stream of trees. -/
theorem next?_streamTokens (h : t.Denotes v) (trees : List Tree) (first : Bool) (n : Nat) :
    next? ⟨⟨streamTokens first (t :: trees), [], hs, n⟩, first⟩ =
      .ok (some (⟨v, [], false⟩, ⟨⟨streamTokens false trees, [], commonHandles, n + t.mappings⟩, false⟩)) := by
  have ht := Tree.isSimple_of_denotes t h
  have hts := followsDocument_streamTokens trees
  have hnode : node? ⟨⟨streamTokens first (t :: trees), [], hs, n⟩, first⟩ =
      .ok (some (t.toNode n, ⟨⟨streamTokens false trees, [], commonHandles, n + t.mappings⟩, false⟩)) := by
    unfold node?
    cases first with
    | true =>
      have hread := firstDocument_tokens t ht hts hs n
      simp only [streamTokens, documentTokens, if_true, List.nil_append, hread]
      rfl
    | false =>
      have hread := markedDocument_tokens t ht hts hs n
      simp only [streamTokens, documentTokens, Bool.false_eq_true, if_false, List.cons_append, List.nil_append, hread]
      rfl
  unfold next?
  rw [hnode]
  simp only [bind, Except.bind, Document.ofNode_toNode h, pure, Except.pure]

theorem next?_end (first : Bool) (n : Nat) : next? ⟨⟨streamTokens first [], [], hs, n⟩, first⟩ = .ok none := by
  cases first <;> rfl

end Stream

end AnnotationCodec.Yaml
