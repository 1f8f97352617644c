import AnnotationCodec.Proofs.Yaml.Layout
import AnnotationCodec.Yaml.NodeReader

/-!
The nodes of a tree. From the tokens of a tree of plain data its nodes are read again, without anchors and with its mappings
numbered in the order in which they start.
-/
namespace AnnotationCodec.Yaml

namespace Tree

/-- The number of mappings in a tree. -/
def mappings : Tree → Nat
  | .scalar _ _ _ => 0
  | .sequence xs => items xs
  | .mapping _ es => pairs es + 1
where
  items : List Tree → Nat
    | [] => 0
    | x :: xs => x.mappings + items xs
  pairs : List (Tree × Tree) → Nat
    | [] => 0
    | (k, v) :: es => k.mappings + v.mappings + pairs es

/-- The node of a tree, with its mappings numbered from `n` on. -/
def toNode (n : Nat) : Tree → Node
  | .scalar tag t _ => .scalar tag t
  | .sequence xs => .sequence .seq (items n xs)
  | .mapping tag es => .mapping n tag (pairs (n + 1) es)
where
  items (n : Nat) : List Tree → List Node
    | [] => []
    | x :: xs => x.toNode n :: items (n + x.mappings) xs
  pairs (n : Nat) : List (Tree × Tree) → List (Node × Node)
    | [] => []
    | (k, v) :: es => (k.toNode n, v.toNode (n + k.mappings)) :: pairs (n + k.mappings + v.mappings) es

end Tree

namespace Reading

variable {place : Place} {fuel n : Nat} {ts : List Token} {as : List (Text × Option Node)} {hs : List (Text × Text)}

/-! Steps of the reader, in front of tokens that are known -/

theorem node_scalar (place : Place) (fuel : Nat) (t : Text) (isPlain : Bool) :
    node place (fuel + 1) ⟨.scalar t isPlain :: ts, as, hs, n⟩ =
      .ok (.scalar (if isPlain then Tag.ofPlain t else .str) t, ⟨ts, as, hs, n⟩) :=
  rfl

theorem node_brackets (place : Place) (fuel : Nat) :
    node place (fuel + 2) ⟨.flowSequenceStart :: .flowSequenceEnd :: ts, as, hs, n⟩ = .ok (.sequence .seq [], ⟨ts, as, hs, n⟩) :=
  rfl

theorem node_braces (place : Place) (fuel : Nat) :
    node place (fuel + 2) ⟨.flowMappingStart :: .flowMappingEnd :: ts, as, hs, n⟩ =
      .ok (.mapping n .map [], ⟨ts, as, hs, n + 1⟩) :=
  rfl

theorem node_blockItems (hplace : place ≠ .flow) (fuel : Nat) :
    node place (fuel + 2) ⟨.blockSequenceStart :: ts, as, hs, n⟩ =
      (blockItems fuel ⟨ts, as, hs, n⟩).map fun found => (.sequence .seq found.1, found.2) := by
  cases place with
  | flow => exact absurd rfl hplace
  | block | loose => rfl

theorem node_looseItems (fuel : Nat) :
    node .loose (fuel + 2) ⟨.blockEntry :: ts, as, hs, n⟩ =
      (looseItems fuel ⟨.blockEntry :: ts, as, hs, n⟩).map fun found => (.sequence .seq found.1, found.2) :=
  rfl

theorem node_blockEntries (hplace : place ≠ .flow) (fuel : Nat) :
    node place (fuel + 2) ⟨.blockMappingStart :: ts, as, hs, n⟩ =
      (blockEntries fuel ⟨ts, as, hs, n + 1⟩).map fun found => (.mapping n .map found.1, found.2) := by
  cases place with
  | flow => exact absurd rfl hplace
  | block | loose => rfl

/-- What a node starts with, from the tokens of a tree; a loose sequence starts with its first mark. -/
inductive StartsNode : (loose : Bool) → Token → Prop
  | scalar {loose t isPlain} : StartsNode loose (.scalar t isPlain)
  | brackets {loose} : StartsNode loose .flowSequenceStart
  | braces {loose} : StartsNode loose .flowMappingStart
  | sequence {loose} : StartsNode loose .blockSequenceStart
  | mapping {loose} : StartsNode loose .blockMappingStart
  | item : StartsNode true .blockEntry

theorem exists_start (t : Tree) (loose : Bool) : ∃ a ts, t.tokens loose = a :: ts ∧ StartsNode loose a := by
  cases t with
  | scalar tag t lines => exact ⟨_, _, rfl, .scalar⟩
  | sequence xs =>
    cases xs with
    | nil => exact ⟨_, _, rfl, .brackets⟩
    | cons x xs =>
      cases loose with
      | true => exact ⟨_, _, rfl, .item⟩
      | false => exact ⟨_, _, rfl, .sequence⟩
  | mapping tag es =>
    cases es with
    | nil => exact ⟨_, _, rfl, .braces⟩
    | cons e es => exact ⟨_, _, rfl, .mapping⟩

/-- A node that is not left out. -/
theorem optional_eq_node {ends : Token → Bool} {loose : Bool} {a : Token} (place : Place) (ha : StartsNode loose a)
    (hends : ∀ a, StartsNode loose a → ends a = false) (fuel : Nat) :
    optional place ends (fuel + 1) ⟨a :: ts, as, hs, n⟩ = node place fuel ⟨a :: ts, as, hs, n⟩ := by
  have hpeek : peek ⟨a :: ts, as, hs, n⟩ = .ok a := by
    cases ha <;> rfl
  have hfalse := hends a ha
  simp [optional, hpeek, hfalse, bind, Except.bind]

theorem endsItem_eq_false {a : Token} (h : StartsNode false a) : endsItem a = false := by
  cases h <;> rfl

theorem endsLooseItem_eq_false {a : Token} (h : StartsNode false a) : endsLooseItem a = false := by
  cases h <;> rfl

theorem endsBlockPart_eq_false (loose : Bool) {a : Token} (h : StartsNode loose a) : endsBlockPart a = false := by
  cases h <;> rfl

theorem endsDocument_eq_false {a : Token} (h : StartsNode false a) : endsDocument a = false := by
  cases h <;> rfl

/-- Where the tokens of a tree may stand. -/
def Admits (place : Place) (loose : Bool) : Prop :=
  place = .loose ∨ (place = .block ∧ loose = false)

theorem ne_flow_of_admits {loose : Bool} (h : Admits place loose) : place ≠ .flow := by
  obtain rfl | ⟨rfl, -⟩ := h <;> decide

/-- What follows a loose sequence: the next entry of its mapping, or the end of it. -/
inductive EndsItems : List Token → Prop
  | key (ts : List Token) : EndsItems (.key :: ts)
  | blockEnd (ts : List Token) : EndsItems (.blockEnd :: ts)

theorem looseItems_end (h : EndsItems ts) (fuel : Nat) :
    looseItems (fuel + 1) ⟨ts, as, hs, n⟩ = .ok ([], ⟨ts, as, hs, n⟩) := by
  cases h <;> rfl

theorem endsItems_pairs (es : List (Tree × Tree)) (ts : List Token) : EndsItems (Tree.tokens.pairs es ++ .blockEnd :: ts) := by
  match es with
  | [] => exact .blockEnd ts
  | (k, v) :: es =>
    rw [Tree.tokens.pairs]
    split <;> exact .key _

/-! Trees -/

/-- A scalar is read with its tag, which its style tells. -/
theorem node_styled {isKey : Bool} {tag : Tag} {t : Text} (h : IsImplied tag t) (hkey : isKey = true → tag = .str)
    (place : Place) (fuel : Nat) :
    node place (fuel + 1) ⟨.scalar t (documentStyle isKey tag t = .plain) :: ts, as, hs, n⟩ =
      .ok (.scalar tag t, ⟨ts, as, hs, n⟩) := by
  have htag := tag_of_documentStyle h hkey
  rw [node_scalar]
  simp only [decide_eq_true_eq, htag]

/-- The node of the tokens of a tree, where none is left out. -/
theorem optional_tokens {ends : Token → Bool} {loose : Bool} (t : Tree) (place : Place)
    (hends : ∀ a, StartsNode loose a → ends a = false) (fuel : Nat) :
    optional place ends (fuel + 1) ⟨t.tokens loose ++ ts, as, hs, n⟩ = node place fuel ⟨t.tokens loose ++ ts, as, hs, n⟩ := by
  obtain ⟨a, rest, htokens, ha⟩ := exists_start t loose
  rw [htokens, List.cons_append]
  exact optional_eq_node place ha hends fuel

theorem length_tokens_pos (t : Tree) (loose : Bool) : 0 < (t.tokens loose).length := by
  obtain ⟨a, rest, htokens, -⟩ := exists_start t loose
  rw [htokens]
  exact Nat.succ_pos _

theorem looseItems_entry (fuel : Nat) :
    looseItems (fuel + 1) ⟨.blockEntry :: ts, as, hs, n⟩ = (do
      let (x, r) ← optional .block endsLooseItem fuel ⟨ts, as, hs, n⟩
      let (xs, r) ← looseItems fuel r
      return (x :: xs, r)) :=
  rfl

theorem blockItems_entry (fuel : Nat) :
    blockItems (fuel + 1) ⟨.blockEntry :: ts, as, hs, n⟩ = (do
      let (x, r) ← optional .block endsItem fuel ⟨ts, as, hs, n⟩
      let (xs, r) ← blockItems fuel r
      return (x :: xs, r)) :=
  rfl

theorem blockEntries_key (fuel : Nat) :
    blockEntries (fuel + 1) ⟨.key :: ts, as, hs, n⟩ = (do
      let (k, r) ← optional .loose endsBlockPart fuel ⟨ts, as, hs, n⟩
      let (v, r) ← value .loose endsBlockPart fuel r
      let (es, r) ← blockEntries fuel r
      return ((k, v) :: es, r)) :=
  rfl

theorem value_value (place : Place) (ends : Token → Bool) (fuel : Nat) :
    value place ends (fuel + 1) ⟨.value :: ts, as, hs, n⟩ = optional place ends fuel ⟨ts, as, hs, n⟩ :=
  rfl

/-- An entry of plain data: its key is a scalar on either way of writing it. -/
theorem exists_tokens_entry (t : Text) (v : Tree) (es : List (Tree × Tree)) :
    ∃ isShort, Tree.tokens.pairs ((.scalar .str t false, v) :: es) =
      .key :: .scalar t (documentStyle isShort .str t = .plain) :: .value :: (v.tokens isShort ++ Tree.tokens.pairs es) := by
  refine ⟨(Tree.scalar .str t false).isShortKey .document, ?_⟩
  rw [Tree.tokens.pairs]
  cases (Tree.scalar .str t false).isShortKey .document <;> rfl

mutual

/-- A tree is read back from its tokens, if there is a step for each of the four functions on the way to a token. -/
theorem node_tokens {place : Place} {loose : Bool} {fuel : Nat} (t : Tree) (ts : List Token) (ht : t.IsSimple)
    (hplace : Admits place loose) (hts : loose = true → EndsItems ts) (hfuel : 4 * (t.tokens loose).length ≤ fuel) (n : Nat) :
    node place fuel ⟨t.tokens loose ++ ts, as, hs, n⟩ = .ok (t.toNode n, ⟨ts, as, hs, n + t.mappings⟩) := by
  have hflow := ne_flow_of_admits hplace
  have hpos := length_tokens_pos t loose
  obtain ⟨fuel, rfl⟩ : ∃ f, fuel = f + 2 := Nat.exists_eq_add_of_le' (by omega)
  cases t with
  | scalar tag t lines => exact node_styled ht.2 (fun h => absurd h (by decide)) place (fuel + 1)
  | sequence xs =>
    cases xs with
    | nil => exact node_brackets place fuel
    | cons x xs =>
      cases loose with
      | true =>
        have hlength : 4 * (Tree.tokens.items (x :: xs)).length ≤ fuel + 2 := hfuel
        obtain rfl : place = .loose := by simpa [Admits] using hplace
        have hitems := looseItems_tokens (x :: xs) ht (hts rfl) (by simp [Tree.tokens.items] at hlength; omega) hlength n
        rw [Tree.tokens, if_pos rfl, Tree.tokens.items, List.cons_append, node_looseItems, ← List.cons_append, ← Tree.tokens.items,
          hitems]
        rfl
      | false =>
        have hlength : 4 * (Tree.tokens.items (x :: xs)).length + 1 ≤ fuel := by
          simp [Tree.tokens] at hfuel; omega
        have hitems := blockItems_tokens (x :: xs) ts ht hlength n
        rw [Tree.tokens]
        simp only [Bool.false_eq_true, if_false, List.cons_append, List.append_assoc, List.nil_append]
        rw [node_blockItems hflow, hitems]
        rfl
  | mapping tag es =>
    obtain ⟨rfl, hes⟩ := ht
    cases es with
    | nil => exact node_braces place fuel
    | cons e es =>
      have hlength : 4 * (Tree.tokens.pairs (e :: es)).length + 1 ≤ fuel := by
        simp [Tree.tokens] at hfuel; omega
      have hentries := blockEntries_tokens (e :: es) ts hes hlength (n + 1)
      rw [Tree.tokens]
      simp only [List.cons_append, List.append_assoc, List.nil_append]
      rw [node_blockEntries hflow, hentries, Nat.add_assoc, Nat.add_comm 1]
      rfl

/-- The items of a block up to its end. -/
theorem blockItems_tokens {fuel : Nat} (xs : List Tree) (ts : List Token) (ht : Tree.IsSimple.items xs)
    (hfuel : 4 * (Tree.tokens.items xs).length + 1 ≤ fuel) (n : Nat) :
    blockItems fuel ⟨Tree.tokens.items xs ++ .blockEnd :: ts, as, hs, n⟩ =
      .ok (Tree.toNode.items n xs, ⟨ts, as, hs, n + Tree.mappings.items xs⟩) := by
  obtain ⟨fuel, rfl⟩ : ∃ f, fuel = f + 1 := Nat.exists_eq_add_of_le' (by omega)
  cases xs with
  | nil => rfl
  | cons x xs =>
    have hlength : 4 * ((x.tokens false).length + (Tree.tokens.items xs).length + 1) ≤ fuel := by
      simpa [Tree.tokens.items] using hfuel
    obtain ⟨fuel, rfl⟩ : ∃ f, fuel = f + 1 := Nat.exists_eq_add_of_le' (by omega)
    have hx := node_tokens x (Tree.tokens.items xs ++ .blockEnd :: ts) ht.1 (.inr ⟨rfl, rfl⟩) (fun h => absurd h (by decide))
      (by omega : 4 * (x.tokens false).length ≤ fuel) n
    have hxs := blockItems_tokens xs ts ht.2 (by omega : 4 * (Tree.tokens.items xs).length + 1 ≤ fuel + 1) (n + x.mappings)
    rw [Tree.tokens.items, List.cons_append, List.append_assoc, blockItems_entry, optional_tokens x .block fun a => endsItem_eq_false,
      hx]
    simp only [bind, Except.bind, hxs, pure, Except.pure, Nat.add_assoc]
    rfl

/-- The items of a loose block up to what follows it. -/
theorem looseItems_tokens {fuel : Nat} (xs : List Tree) {ts : List Token} (ht : Tree.IsSimple.items xs) (hts : EndsItems ts)
    (hpos : 0 < fuel) (hfuel : 4 * (Tree.tokens.items xs).length ≤ fuel + 2) (n : Nat) :
    looseItems fuel ⟨Tree.tokens.items xs ++ ts, as, hs, n⟩ =
      .ok (Tree.toNode.items n xs, ⟨ts, as, hs, n + Tree.mappings.items xs⟩) := by
  obtain ⟨fuel, rfl⟩ : ∃ f, fuel = f + 1 := Nat.exists_eq_add_of_le' hpos
  cases xs with
  | nil => exact looseItems_end hts fuel
  | cons x xs =>
    have hlength : 4 * ((x.tokens false).length + (Tree.tokens.items xs).length + 1) ≤ fuel + 3 := by
      simpa [Tree.tokens.items] using hfuel
    have hpos := length_tokens_pos x false
    obtain ⟨fuel, rfl⟩ : ∃ f, fuel = f + 1 := Nat.exists_eq_add_of_le' (by omega)
    have hx := node_tokens x (Tree.tokens.items xs ++ ts) ht.1 (.inr ⟨rfl, rfl⟩) (fun h => absurd h (by decide))
      (by omega : 4 * (x.tokens false).length ≤ fuel) n
    have hxs := looseItems_tokens xs ht.2 hts (Nat.succ_pos fuel) (by omega) (n + x.mappings)
    rw [Tree.tokens.items, List.cons_append, List.append_assoc, looseItems_entry, optional_tokens x .block fun a => endsLooseItem_eq_false,
      hx]
    simp only [bind, Except.bind, hxs, pure, Except.pure, Nat.add_assoc]
    rfl

/-- The entries of a block up to its end. -/
theorem blockEntries_tokens {fuel : Nat} (es : List (Tree × Tree)) (ts : List Token) (ht : Tree.IsSimple.pairs es)
    (hfuel : 4 * (Tree.tokens.pairs es).length + 1 ≤ fuel) (n : Nat) :
    blockEntries fuel ⟨Tree.tokens.pairs es ++ .blockEnd :: ts, as, hs, n⟩ =
      .ok (Tree.toNode.pairs n es, ⟨ts, as, hs, n + Tree.mappings.pairs es⟩) := by
  obtain ⟨fuel, rfl⟩ : ∃ f, fuel = f + 1 := Nat.exists_eq_add_of_le' (by omega)
  match es, ht with
  | [], _ => rfl
  | (k, v) :: es, ⟨⟨t, hkey⟩, htv, htes⟩ =>
    subst hkey
    obtain ⟨isShort, htokens⟩ := exists_tokens_entry t v es
    have hlength : 4 * ((v.tokens isShort).length + (Tree.tokens.pairs es).length + 3) ≤ fuel := by
      simpa [htokens] using hfuel
    obtain ⟨fuel, rfl⟩ : ∃ f, fuel = f + 2 := Nat.exists_eq_add_of_le' (by omega)
    have hv := node_tokens v (Tree.tokens.pairs es ++ .blockEnd :: ts) htv (.inl rfl) (fun _ => endsItems_pairs es ts)
      (by omega : 4 * (v.tokens isShort).length ≤ fuel) n
    have hes := blockEntries_tokens es ts htes (by omega : 4 * (Tree.tokens.pairs es).length + 1 ≤ fuel + 2) (n + v.mappings)
    rw [htokens]
    simp only [List.cons_append, List.append_assoc]
    rw [blockEntries_key, optional_eq_node .loose .scalar fun a => endsBlockPart_eq_false false,
      node_styled (.inl rfl) (fun _ => rfl)]
    simp only [bind, Except.bind]
    rw [value_value, optional_tokens v .loose fun a => endsBlockPart_eq_false isShort, hv]
    simp only [hes, pure, Except.pure]
    simp only [Tree.toNode.pairs, Tree.mappings.pairs, Tree.toNode, Tree.mappings, Nat.zero_add, Nat.add_zero, Nat.add_assoc]

end

/-! Documents -/

/-- What follows a document: the next one, or the end of the stream. -/
inductive FollowsDocument : List Token → Prop
  | documentStart (ts : List Token) : FollowsDocument (.documentStart :: ts)
  | streamEnd (ts : List Token) : FollowsDocument (.streamEnd :: ts)

theorem finish_eq (h : FollowsDocument ts) (x : Node) :
    finish ⟨ts, as, hs, n⟩ x = .ok (some (x, ⟨ts, [], hs, n⟩)) := by
  cases h <;> rfl

theorem firstDocument_of_start {a : Token} (ha : StartsNode false a) :
    firstDocument ⟨a :: ts, as, hs, n⟩ = (do
      let (x, r) ← node .block (Reading.fuel ⟨a :: ts, as, hs, n⟩) ⟨a :: ts, as, commonHandles, n⟩
      r.finish x) := by
  cases ha <;> rfl

/-- A document of its own, whatever follows it. -/
theorem node_document (t : Tree) (ts : List Token) (ht : t.IsSimple) {fuel : Nat} (hfuel : 4 * (t.tokens false).length ≤ fuel) (n : Nat) :
    node .block fuel ⟨t.tokens false ++ ts, [], commonHandles, n⟩ =
      .ok (t.toNode n, ⟨ts, [], commonHandles, n + t.mappings⟩) :=
  node_tokens t ts ht (.inr ⟨rfl, rfl⟩) (fun h => absurd h (by decide)) hfuel n

theorem firstDocument_tokens (t : Tree) (ht : t.IsSimple) (hts : FollowsDocument ts) (hs : List (Text × Text)) (n : Nat) :
    firstDocument ⟨t.tokens false ++ ts, [], hs, n⟩ = .ok (some (t.toNode n, ⟨ts, [], commonHandles, n + t.mappings⟩)) := by
  have hfuel : 4 * (t.tokens false).length ≤ Reading.fuel ⟨t.tokens false ++ ts, [], hs, n⟩ := by
    simp [Reading.fuel]
    omega
  have hnode := node_document t ts ht hfuel n
  obtain ⟨a, rest, htokens, ha⟩ := exists_start t false
  rw [htokens, List.cons_append] at hnode ⊢
  rw [firstDocument_of_start ha, hnode]
  exact finish_eq hts _

theorem openDocument_start :
    openDocument ⟨.documentStart :: ts, as, hs, n⟩ = .ok (some ⟨ts, as, commonHandles, n⟩) :=
  rfl

theorem markedDocument_tokens (t : Tree) (ht : t.IsSimple) (hts : FollowsDocument ts) (hs : List (Text × Text)) (n : Nat) :
    markedDocument ⟨.documentStart :: (t.tokens false ++ ts), [], hs, n⟩ =
      .ok (some (t.toNode n, ⟨ts, [], commonHandles, n + t.mappings⟩)) := by
  have hfuel : 4 * (t.tokens false).length ≤ 4 * (t.tokens false ++ ts).length + 7 := by
    rw [List.length_append]
    omega
  have hoptional : optional .block endsDocument (4 * (t.tokens false ++ ts).length + 8)
      ⟨t.tokens false ++ ts, [], commonHandles, n⟩ = .ok (t.toNode n, ⟨ts, [], commonHandles, n + t.mappings⟩) := by
    rw [optional_tokens t .block fun a => endsDocument_eq_false]
    exact node_document t ts ht hfuel n
  unfold markedDocument
  rw [openDocument_start]
  simp only [bind, Except.bind, Reading.fuel, hoptional]
  exact finish_eq hts _

theorem followsDocument_streamTokens (trees : List Tree) : FollowsDocument (Layout.streamTokens false trees) := by
  cases trees with
  | nil => exact .streamEnd []
  | cons t trees => exact .documentStart _

end Reading

end AnnotationCodec.Yaml
