import AnnotationCodec.Proofs.Yaml.Lexer
import AnnotationCodec.Proofs.Yaml.Printer

/-!
The tokens of a tree. A tree of plain data whose keys and folded lines can be read back is written as a text that is cut
into these tokens again, whatever the layout of its blocks is.
-/
namespace AnnotationCodec.Yaml

namespace Tree

/-- A tree of scalars with implied tags, sequences, and mappings whose keys are texts. -/
def IsSimple : Tree → Prop
  | .scalar tag t lines => lines = false ∧ IsImplied tag t
  | .sequence xs => items xs
  | .mapping tag es => tag = .map ∧ pairs es
where
  items : List Tree → Prop
    | [] => True
    | x :: xs => x.IsSimple ∧ items xs
  pairs : List (Tree × Tree) → Prop
    | [] => True
    | (k, v) :: es => (∃ t, k = .scalar .str t false) ∧ v.IsSimple ∧ pairs es

/-- Whether the reader takes everything for what it is: no short key is written longer than a candidate may be, and no
folded line is broken inside of a marked blank. A node is written inside of a collection at `parent`, or it is the root;
it is `loose` behind a short key. -/
def Legible (parent : Option Nat) (loose : Bool) : Tree → Prop
  | .scalar tag t _ => FoldsWell ((parent.map (· + 2)).getD 2) tag t
  | .sequence xs =>
    items (match parent with
      | none => 0
      | some i => if loose then i else i + 2) xs
  | .mapping _ es => pairs ((parent.map (· + 2)).getD 0) es
where
  items (indent : Nat) : List Tree → Prop
    | [] => True
    | x :: xs => Legible (some indent) false x ∧ items indent xs
  pairs (indent : Nat) : List (Tree × Tree) → Prop
    | [] => True
    | (k, v) :: es =>
      (if k.isShortKey .document then
        (writeNode.shortKey .document indent k).length ≤ Lexer.keySpan ∧ Legible (some indent) true v
      else Legible (some indent) false k ∧ Legible (some indent) false v) ∧ pairs indent es

/-- The token of a short key. -/
def keyTokens : Tree → List Token
  | .scalar tag t _ => [.scalar t (documentStyle true tag t = .plain)]
  | _ => []

/-- The tokens of a tree. A loose sequence is a block without tokens of its own. -/
def tokens (loose : Bool) : Tree → List Token
  | .scalar tag t _ => [.scalar t (documentStyle false tag t = .plain)]
  | .sequence [] => [.flowSequenceStart, .flowSequenceEnd]
  | .sequence (x :: xs) =>
    if loose then items (x :: xs) else .blockSequenceStart :: (items (x :: xs) ++ [.blockEnd])
  | .mapping _ [] => [.flowMappingStart, .flowMappingEnd]
  | .mapping _ (e :: es) => .blockMappingStart :: (pairs (e :: es) ++ [.blockEnd])
where
  items : List Tree → List Token
    | [] => []
    | x :: xs => .blockEntry :: (x.tokens false ++ items xs)
  pairs : List (Tree × Tree) → List Token
    | [] => []
    | (k, v) :: es =>
      (if k.isShortKey .document then .key :: (k.keyTokens ++ .value :: v.tokens true)
      else .key :: (k.tokens false ++ .value :: v.tokens false)) ++ pairs es

end Tree

namespace Layout

open Lexer

/-- Where a node is written inside of a block at `indent`: behind a short key, or behind a mark. -/
inductive Spot (indent : Nat) : (loose inMapping : Bool) → Opening → (column : Nat) → Prop
  | behindKey {start column} : indent + 1 ≤ column → Spot indent true true ⟨start, false, true⟩ column
  | behindMark {inMapping} : Spot indent false inMapping (.behindMark indent) (indent + 1)

variable {i j k n col : Nat} {b loose inMapping : Bool} {o : Opening} {t x : Tree} {r u : Text} {ts out pre : List Token}
  {is outer : List Nat} {entries : List Text} {trees : List Tree} {es : List (Tree × Tree)}

theorem space_of_spot (h : Spot i loose inMapping o col) : o.space = Text.spaces 1 := by
  cases h <;> rfl

theorem column_of_spot (h : Spot i loose inMapping o col) : i + 1 ≤ col := by
  cases h with
  | behindKey hcol => exact hcol
  | behindMark => exact Nat.le_refl _

theorem yields_scalar_node {tag : Tag} {t : Text} (hs : Spot i loose inMapping o col) (ht : IsImplied tag t)
    (hfolds : FoldsWell (i + 2) tag t) (hj : j ≤ i)
    (h : Resumes j r (.scalar t (documentStyle false tag t = .plain) :: ts) (i :: is) out) :
    Yields (idle ⟨writeScalar .document false o (i + 2) tag t false ++ ('\n' : CodePoint) :: (Text.spaces j ++ r), n, k, col⟩ ts
      (i :: is) (!loose)) out := by
  have hkey : false = true → tag = .str := fun h => absurd h (by decide)
  obtain ⟨u, hwrite, hspells, -⟩ := exists_spells_writeScalar ht hkey (Nat.succ_pos (i + 1)) (fun _ => hfolds) o
  have hu := hspells (i + 1) (Nat.le_succ _)
  have hready := ready_of_spells hu (('\n' : CodePoint) :: (Text.spaces j ++ r))
  have hcol := column_of_spot hs
  rw [hwrite, space_of_spot hs, List.append_assoc]
  exact yields_spaces hready 1 n k col (yields_scalar hu hj (Nat.le_succ_of_le hcol) h)

theorem yields_brackets_node {opening closing : Token} {x y : CodePoint} (hb : IsBrackets x y opening closing)
    (hs : Spot i loose inMapping o col) (h : Resumes j r (closing :: opening :: ts) (i :: is) out) :
    Yields (idle ⟨o.space ++ x :: y :: ('\n' : CodePoint) :: (Text.spaces j ++ r), n, k, col⟩ ts (i :: is) b) out := by
  have hready := (ready_of_isBrackets hb (y :: ('\n' : CodePoint) :: (Text.spaces j ++ r))).1
  have hcol := column_of_spot hs
  have hhead : ∀ a ∈ (i :: is).head?, a ≤ col + 1 := by
    intro a ha
    obtain rfl := Option.mem_some.mp ha
    omega
  have hrequired : (i :: is).head? ≠ some (col + 1) := fun heq => absurd (Option.some.inj heq) (by omega)
  rw [space_of_spot hs]
  exact yields_spaces hready 1 n k col (yields_brackets hb hhead hrequired h (n + 1) k)

/-- The first entry of a block stands at its column. -/
theorem yields_block {indent : Nat} (hs : Spot i loose inMapping o col) (hindent : loose = false → indent = i + 2)
    (h : Resumes indent (Text.joinWith (text "\n" ++ Text.spaces indent) entries ++ u) ts is out) :
    Yields (idle ⟨o.block indent [] entries ++ u, n, k, col⟩ ts is (!loose)) out := by
  cases hs with
  | @behindKey start column hcol =>
    have hends : EndsLine (idle ⟨Opening.block ⟨start, false, true⟩ indent [] entries ++ u, n, k, col⟩ ts is false) indent
        (Text.joinWith (text "\n" ++ Text.spaces indent) entries ++ u) ts is :=
      ⟨by simp [idle, Opening.block, text], rfl, rfl, rfl, rfl, fun c hc => absurd hc List.not_mem_nil, rfl⟩
    exact yields_of_endsLine hends h
  | behindMark =>
    obtain rfl := hindent rfl
    have hone : i + 2 - (i + 1) = 1 := by omega
    have hblock : Opening.block (.behindMark i) (i + 2) [] entries ++ u =
        Text.spaces 1 ++ (Text.joinWith (text "\n" ++ Text.spaces (i + 2)) entries ++ u) := by
      simp [Opening.block, Opening.behindMark, hone, List.append_assoc]
    rw [hblock]
    exact yields_spaces h.ready 1 n k (i + 1) (h.yields (n + 1) k)

/-- Behind an entry either the next one follows in the block, or what follows the block. -/
theorem exists_next {indent : Nat} (e : Text) (entries : List Text) (hj : j ≤ indent)
    (hend : entries = [] → Resumes j r ts is out)
    (hnext : entries ≠ [] → Resumes indent
      (Text.joinWith (text "\n" ++ Text.spaces indent) entries ++ ('\n' : CodePoint) :: (Text.spaces j ++ r)) ts is out) :
    ∃ j' r', Text.joinWith (text "\n" ++ Text.spaces indent) (e :: entries) ++ ('\n' : CodePoint) :: (Text.spaces j ++ r) =
      e ++ ('\n' : CodePoint) :: (Text.spaces j' ++ r') ∧ j' ≤ indent ∧ Resumes j' r' ts is out := by
  cases entries with
  | nil => exact ⟨j, r, rfl, hj, hend rfl⟩
  | cons f entries =>
    refine ⟨indent, _, ?_, Nat.le_refl _, hnext (List.cons_ne_nil f entries)⟩
    simp [Text.joinWith, text, List.append_assoc]

theorem startsWithGap_spaces {n : Nat} (hn : 0 < n) (u : Text) : Text.startsWithGap (Text.spaces n ++ u) := by
  obtain ⟨n, rfl⟩ := Nat.exists_eq_add_of_le' hn
  exact (by decide : CodePoint.isGap ((' ' : Char) : CodePoint) = true)

theorem startsWithGap_block {indent : Nat} (hs : Spot i loose inMapping o col) (hindent : loose = false → indent = i + 2)
    (entries : List Text) (u : Text) : Text.startsWithGap (o.block indent [] entries ++ u) := by
  cases hs with
  | behindKey _ => exact (by decide : CodePoint.isGap (('\n' : Char) : CodePoint) = true)
  | behindMark =>
    obtain rfl := hindent rfl
    have hpos : 0 < i + 2 - (i + 1) := by omega
    have hgap := startsWithGap_spaces hpos (Text.joinWith (text "\n" ++ Text.spaces (i + 2)) entries ++ u)
    simpa [Opening.block, Opening.behindMark, List.append_assoc] using hgap

/-- The column of the entries of a sequence. -/
def itemIndent (loose : Bool) (i : Nat) : Nat :=
  if loose then i else i + 2

theorem writeNode_sequence (hs : Spot i loose inMapping o col) (x : Tree) (xs : List Tree) :
    writeNode .document (some i) inMapping o (.sequence (x :: xs)) =
      o.block (itemIndent loose i) [] (writeNode.items .document (itemIndent loose i) (x :: xs)) := by
  cases hs <;> simp [writeNode, itemIndent, Opening.behindMark]

theorem writeNode_mapping (e : Tree × Tree) (es : List (Tree × Tree)) :
    writeNode .document (some i) inMapping o (.mapping .map (e :: es)) =
      o.block (i + 2) [] (writeNode.pairs .document (i + 2) (e :: es)) := by
  simp [writeNode]

/-- A gap comes first wherever a node is written. -/
theorem startsWithGap_node (hs : Spot i loose inMapping o col) (ht : t.IsSimple) (u : Text) :
    Text.startsWithGap (writeNode .document (some i) inMapping o t ++ u) := by
  have hspace (v : Text) : Text.startsWithGap (o.space ++ v) := by
    rw [space_of_spot hs]
    exact startsWithGap_spaces Nat.one_pos v
  cases t with
  | scalar tag t lines => simpa [writeNode, writeScalar, List.append_assoc] using hspace _
  | sequence xs =>
    cases xs with
    | nil => simpa [writeNode, List.append_assoc] using hspace _
    | cons x xs =>
      rw [writeNode_sequence hs]
      exact startsWithGap_block hs (fun h => by simp [itemIndent, h]) _ u
  | mapping tag es =>
    obtain ⟨rfl, -⟩ := ht
    cases es with
    | nil => simpa [writeNode, List.append_assoc] using hspace _
    | cons e es =>
      rw [writeNode_mapping]
      exact startsWithGap_block hs (fun _ => rfl) _ u

/-! Entries -/

/-- Whether a node is cut into its tokens at any spot of a block, whatever follows it. -/
def Cuts (i : Nat) (loose : Bool) (t : Tree) : Prop :=
  ∀ {j col : Nat} {inMapping : Bool} {o : Opening} {r : Text} {ts out : List Token} {is : List Nat},
    Spot i loose inMapping o col → j ≤ i → Resumes j r ((t.tokens loose).reverse ++ ts) (i :: is) out → ∀ n k,
      Yields (idle ⟨writeNode .document (some i) inMapping o t ++ ('\n' : CodePoint) :: (Text.spaces j ++ r), n, k, col⟩ ts
        (i :: is) (!loose)) out

/-- An entry whose key is on the line of its value. -/
theorem resumes_shortEntry {t : Text} {v : Tree} (hv : Cuts i true v) (htv : v.IsSimple)
    (hspan : (writeNode.shortKey .document i (.scalar .str t false)).length ≤ keySpan)
    (he : Enters i .blockMappingStart outer is pre) (hj : j ≤ i)
    (h : Resumes j r ((v.tokens true).reverse ++ .value :: .scalar t (documentStyle true .str t = .plain) :: .key :: (pre ++ ts))
      (i :: outer) out) :
    Resumes i (writeNode.shortKey .document i (.scalar .str t false) ++ (':' : CodePoint) ::
      (writeNode .document (some i) true ⟨endColumn i (writeNode.shortKey .document i (.scalar .str t false)) + 1, false, true⟩ v ++
        ('\n' : CodePoint) :: (Text.spaces j ++ r))) ts is out := by
  have himplied : IsImplied .str t := .inl rfl
  have hstr : true = true → Tag.str = .str := fun _ => rfl
  obtain ⟨u, hwrite, hspells, hchars⟩ := exists_spells_writeScalar himplied hstr (Nat.succ_pos (i + 1))
    (fun h => absurd h (by decide)) ⟨i, true, false⟩
  have hkey : writeNode.shortKey .document i (.scalar .str t false) = u := hwrite
  rw [hkey] at hspan ⊢
  have hspot : Spot i true true ⟨endColumn i u + 1, false, true⟩ (i + u.length + 1) := .behindKey (by omega)
  have hgap := startsWithGap_node hspot htv (('\n' : CodePoint) :: (Text.spaces j ++ r))
  exact resumes_key (fun column hcolumn => hspells column (Nat.le_succ_of_le hcolumn)) (hchars rfl) hspan hgap he (hv hspot hj h)

/-- An entry whose key and value are behind marks of their own. -/
theorem resumes_longEntry {key v : Tree} (hk : Cuts i false key) (htk : key.IsSimple) (hv : Cuts i false v) (htv : v.IsSimple)
    (he : Enters i .blockMappingStart outer is pre) (hj : j ≤ i)
    (h : Resumes j r ((v.tokens false).reverse ++ .value :: ((key.tokens false).reverse ++ .key :: (pre ++ ts))) (i :: outer) out) :
    Resumes i (('?' : CodePoint) :: (writeNode .document (some i) true (.behindMark i) key ++ ('\n' : CodePoint) :: (Text.spaces i ++
      (':' : CodePoint) :: (writeNode .document (some i) true (.behindMark i) v ++ ('\n' : CodePoint) :: (Text.spaces j ++ r)))))
      ts is out := by
  have hspot : Spot i false true (.behindMark i) (i + 1) := .behindMark
  have hvalue := resumes_mark .value (startsWithGap_node hspot htv _) .inside (hv hspot hj h)
  exact resumes_mark .key (startsWithGap_node hspot htk _) he (hk hspot (Nat.le_refl i) hvalue)

/-! Trees -/

theorem head_lt (i : Nat) (is : List Nat) : ∀ a ∈ (i :: is).head?, a < i + 2 := by
  intro a ha
  obtain rfl := Option.mem_some.mp ha
  omega

theorem reverse_entry (a : Token) (xs ys zs : List Token) :
    (a :: (xs ++ ys)).reverse ++ zs = ys.reverse ++ (xs.reverse ++ a :: zs) := by
  simp

mutual

/-- A node is cut into its tokens. -/
theorem cuts_node {i : Nat} {loose : Bool} (t : Tree) (ht : t.IsSimple) (hl : t.Legible (some i) loose) : Cuts i loose t := by
  intro j col inMapping o r ts out is hs hj h n k
  cases t with
  | scalar tag t lines =>
    obtain ⟨rfl, himplied⟩ := ht
    rw [writeNode]
    exact yields_scalar_node hs himplied hl hj h
  | sequence xs =>
    cases xs with
    | nil =>
      have hbrackets := yields_brackets_node (b := !loose) (n := n) (k := k) .sequence hs h
      rw [writeNode, List.append_assoc]
      exact hbrackets
    | cons x xs =>
      rw [writeNode_sequence hs]
      refine yields_block hs (fun hloose => by simp [itemIndent, hloose]) ?_
      cases loose with
      | true => exact resumes_items (x :: xs) (List.cons_ne_nil x xs) ht hl .inside hj h
      | false =>
        have hclose : Resumes j r ((Tree.tokens.items (x :: xs)).reverse ++ ([.blockSequenceStart] ++ ts)) ((i + 2) :: i :: is) out :=
          resumes_close (Nat.lt_of_le_of_lt hj (Nat.lt_add_of_pos_right Nat.two_pos)) (by simpa [Tree.tokens] using h)
        exact resumes_items (x :: xs) (List.cons_ne_nil x xs) ht hl (.opening (head_lt i is)) (Nat.le_add_right_of_le hj) hclose
  | mapping tag es =>
    obtain ⟨rfl, hts⟩ := ht
    cases es with
    | nil =>
      have hbrackets := yields_brackets_node (b := !loose) (n := n) (k := k) .mapping hs h
      simpa [writeNode, text, List.append_assoc] using hbrackets
    | cons e es =>
      have hclose : Resumes j r ((Tree.tokens.pairs (e :: es)).reverse ++ ([.blockMappingStart] ++ ts)) ((i + 2) :: i :: is) out :=
        resumes_close (Nat.lt_of_le_of_lt hj (Nat.lt_add_of_pos_right Nat.two_pos)) (by simpa [Tree.tokens] using h)
      rw [writeNode_mapping]
      exact yields_block hs (fun _ => rfl)
        (resumes_pairs (e :: es) (List.cons_ne_nil e es) hts hl (.opening (head_lt i is)) (Nat.le_add_right_of_le hj) hclose)

/-- The items of a block, from its first one on. -/
theorem resumes_items {i j : Nat} {r : Text} {ts out pre : List Token} {is outer : List Nat} (xs : List Tree) (hne : xs ≠ [])
    (ht : Tree.IsSimple.items xs) (hl : Tree.Legible.items i xs) (he : Enters i .blockSequenceStart outer is pre) (hj : j ≤ i)
    (h : Resumes j r ((Tree.tokens.items xs).reverse ++ (pre ++ ts)) (i :: outer) out) :
    Resumes i (Text.joinWith (text "\n" ++ Text.spaces i) (writeNode.items .document i xs) ++
      ('\n' : CodePoint) :: (Text.spaces j ++ r)) ts is out := by
  cases xs with
  | nil => exact absurd rfl hne
  | cons x xs =>
    obtain ⟨htx, htxs⟩ := ht
    obtain ⟨hlx, hlxs⟩ := hl
    have hspot : Spot i false false (.behindMark i) (i + 1) := .behindMark
    rw [Tree.tokens.items, reverse_entry] at h
    have hend : writeNode.items .document i xs = [] →
        Resumes j r ((x.tokens false).reverse ++ .blockEntry :: (pre ++ ts)) (i :: outer) out := by
      intro hnil
      cases xs with
      | nil => exact h
      | cons y ys => cases hnil
    have hrest : writeNode.items .document i xs ≠ [] → Resumes i
        (Text.joinWith (text "\n" ++ Text.spaces i) (writeNode.items .document i xs) ++ ('\n' : CodePoint) :: (Text.spaces j ++ r))
        ((x.tokens false).reverse ++ .blockEntry :: (pre ++ ts)) (i :: outer) out := by
      intro hcons
      have hxs : xs ≠ [] := fun hnil => hcons (by rw [hnil]; rfl)
      exact resumes_items xs hxs htxs hlxs .inside hj h
    obtain ⟨j', r', htext, hj', hnext⟩ := exists_next (text "-" ++ writeNode .document (some i) false (.behindMark i) x) _ hj hend hrest
    have hgap := startsWithGap_node hspot htx (('\n' : CodePoint) :: (Text.spaces j' ++ r'))
    have hmark := resumes_mark .item hgap he (cuts_node x htx hlx hspot hj' hnext)
    rw [writeNode.items, htext]
    exact hmark

/-- The entries of a block, from its first one on. -/
theorem resumes_pairs {i j : Nat} {r : Text} {ts out pre : List Token} {is outer : List Nat} (es : List (Tree × Tree)) (hne : es ≠ [])
    (ht : Tree.IsSimple.pairs es) (hl : Tree.Legible.pairs i es) (he : Enters i .blockMappingStart outer is pre) (hj : j ≤ i)
    (h : Resumes j r ((Tree.tokens.pairs es).reverse ++ (pre ++ ts)) (i :: outer) out) :
    Resumes i (Text.joinWith (text "\n" ++ Text.spaces i) (writeNode.pairs .document i es) ++
      ('\n' : CodePoint) :: (Text.spaces j ++ r)) ts is out := by
  match es, hne, ht, hl, h with
  | (key, v) :: es, _, ⟨⟨t, hkey⟩, htv, htes⟩, ⟨hlkv, hles⟩, h =>
    have hend {ts : List Token} (h : Resumes j r ((Tree.tokens.pairs es).reverse ++ ts) (i :: outer) out) :
        writeNode.pairs .document i es = [] → Resumes j r ts (i :: outer) out := by
      intro hnil
      cases es with
      | nil => exact h
      | cons e es => cases hnil
    have hrest {ts : List Token} (h : Resumes j r ((Tree.tokens.pairs es).reverse ++ ts) (i :: outer) out) :
        writeNode.pairs .document i es ≠ [] → Resumes i
          (Text.joinWith (text "\n" ++ Text.spaces i) (writeNode.pairs .document i es) ++ ('\n' : CodePoint) :: (Text.spaces j ++ r))
          ts (i :: outer) out := by
      intro hcons
      have hes : es ≠ [] := fun hnil => hcons (by rw [hnil]; rfl)
      exact resumes_pairs es hes htes hles .inside hj h
    by_cases hshort : key.isShortKey .document
    · rw [if_pos hshort] at hlkv
      subst hkey
      obtain ⟨hspan, hlv⟩ := hlkv
      have htokens : Resumes j r ((Tree.tokens.pairs es).reverse ++ ((v.tokens true).reverse ++
          .value :: .scalar t (documentStyle true .str t = .plain) :: .key :: (pre ++ ts))) (i :: outer) out := by
        simpa [Tree.tokens.pairs, hshort, Tree.keyTokens] using h
      obtain ⟨j', r', hnextText, hj', hnext⟩ := exists_next _ _ hj (hend htokens) (hrest htokens)
      have hentry := resumes_shortEntry (cuts_node v htv hlv) htv hspan he hj' hnext
      rw [writeNode.pairs, hnextText]
      simpa [hshort, text, List.append_assoc] using hentry
    · rw [if_neg hshort] at hlkv
      obtain ⟨hlk, hlv⟩ := hlkv
      have htk : key.IsSimple := by
        rw [hkey]
        exact ⟨rfl, .inl rfl⟩
      have htokens : Resumes j r ((Tree.tokens.pairs es).reverse ++ ((v.tokens false).reverse ++
          .value :: ((key.tokens false).reverse ++ .key :: (pre ++ ts)))) (i :: outer) out := by
        simpa [Tree.tokens.pairs, hshort] using h
      obtain ⟨j', r', hnextText, hj', hnext⟩ := exists_next _ _ hj (hend htokens) (hrest htokens)
      have hentry := resumes_longEntry (cuts_node key htk hlk) htk (cuts_node v htv hlv) htv he hj' hnext
      rw [writeNode.pairs, hnextText]
      simpa [hshort, text, List.append_assoc] using hentry

end

/-! Documents -/

/-- The tokens of a document; all but the first have a mark. -/
def documentTokens (first : Bool) (t : Tree) : List Token :=
  (if first then [] else [.documentStart]) ++ t.tokens false

theorem resumes_document (first : Bool) (ht : Tree.IsSimple.pairs es) (hl : Tree.Legible.pairs 0 es) (hr : EndsDocument r)
    (h : Resumes 0 r ((documentTokens first (.mapping .map es)).reverse ++ ts) [] out) :
    Resumes 0 (writeDocument .document first (.mapping .map es) ++ r) ts [] out := by
  have hnone : ∀ a ∈ ([] : List Nat).head?, a < 0 := by simp
  cases es with
  | nil =>
    have hready := (ready_of_isBrackets .mapping (('\x7d' : CodePoint) :: ('\n' : CodePoint) :: r)).1
    cases first with
    | true => exact ⟨hready, fun n k => yields_brackets (j := 0) .mapping (by simp) (by simp) h n k⟩
    | false =>
      have hrest (n k : Nat) : Yields (idle ⟨Text.spaces 1 ++ ('\x7b' : CodePoint) :: ('\x7d' : CodePoint) :: ('\n' : CodePoint) :: r, n, k, 3⟩
          (.documentStart :: ts) [] false) out :=
        yields_spaces hready 1 n k 3 (yields_brackets (j := 0) .mapping (by simp) (by simp) h (n + 1) k)
      exact resumes_documentStart (startsWithGap_spaces Nat.one_pos _) hrest
  | cons e es =>
    have hblock (ts : List Token) (h : Resumes 0 r ((Tree.tokens false (.mapping .map (e :: es))).reverse ++ ts) [] out) :
        Resumes 0 (Text.joinWith (text "\n" ++ Text.spaces 0) (writeNode.pairs .document 0 (e :: es)) ++ ('\n' : CodePoint) :: r) ts [] out :=
      resumes_pairs (j := 0) (e :: es) (List.cons_ne_nil e es) ht hl (.opening hnone) (Nat.le_refl 0)
        (resumes_end hr (by simpa [Tree.tokens] using h))
    cases first with
    | true =>
      have hwhole := hblock ts h
      simpa [writeDocument, writeNode, Opening.block, Text.spaces, List.append_assoc, text] using hwhole
    | false =>
      have hwhole := hblock (.documentStart :: ts) (by simpa [documentTokens] using h)
      have hrest (n k : Nat) : Yields (idle ⟨('\n' : CodePoint) :: (Text.joinWith (text "\n" ++ Text.spaces 0)
          (writeNode.pairs .document 0 (e :: es)) ++ ('\n' : CodePoint) :: r), n, k, 3⟩ (.documentStart :: ts) [] false) out :=
        yields_of_endsLine (j := 0) ⟨rfl, rfl, rfl, rfl, rfl, fun c hc => absurd hc List.not_mem_nil, rfl⟩ hwhole
      have hgap : Text.startsWithGap (('\n' : CodePoint) :: (Text.joinWith (text "\n" ++ Text.spaces 0)
          (writeNode.pairs .document 0 (e :: es)) ++ ('\n' : CodePoint) :: r)) :=
        (by decide : CodePoint.isGap (('\n' : Char) : CodePoint) = true)
      have hmarked := resumes_documentStart hgap hrest
      simpa [writeDocument, writeNode, Opening.block, Text.spaces, List.append_assoc, text] using hmarked

/-- A mapping that can be read back as a document. -/
def IsDocument (t : Tree) : Prop :=
  (∃ es, t = .mapping .map es) ∧ t.IsSimple ∧ t.Legible none false

/-- The tokens of a stream of documents. -/
def streamTokens : (first : Bool) → List Tree → List Token
  | _, [] => [.streamEnd]
  | first, t :: ts => documentTokens first t ++ streamTokens false ts

theorem endsDocument_documents (h : ∀ t ∈ trees, IsDocument t) : EndsDocument (documents .document false trees) := by
  cases trees with
  | nil => exact .inl rfl
  | cons t trees =>
    obtain ⟨⟨es, rfl⟩, -⟩ := h t List.mem_cons_self
    refine .inr ⟨writeNode .document none false ⟨3, false, true⟩ (.mapping .map es) ++ text "\n" ++ documents .document false trees,
      by simp [documents, writeDocument, List.append_assoc], ?_⟩
    cases es with
    | nil => exact (by decide : CodePoint.isGap ((' ' : Char) : CodePoint) = true)
    | cons e es => exact (by decide : CodePoint.isGap (('\n' : Char) : CodePoint) = true)

theorem resumes_documents (h : ∀ t ∈ trees, IsDocument t) (first : Bool) (ts : List Token) :
    Resumes 0 (documents .document first trees) ts [] (ts.reverse ++ streamTokens first trees) := by
  induction trees generalizing first ts with
  | nil =>
    have hend := resumes_streamEnd ts
    rwa [List.reverse_cons] at hend
  | cons t trees ih =>
    rw [List.forall_mem_cons] at h
    obtain ⟨⟨⟨es, rfl⟩, ⟨-, ht⟩, hl⟩, htrees⟩ := h
    have hrest := ih htrees false ((documentTokens first (.mapping .map es)).reverse ++ ts)
    rw [List.reverse_append, List.reverse_reverse, List.append_assoc] at hrest
    exact resumes_document first ht hl (endsDocument_documents htrees) hrest

/-! Characters -/

theorem isLined_text {s : String} (h : (text s).all (fun c => 0x20 ≤ c.val && c.val ≤ 0x7E) = true) :
    ∀ c ∈ text s, IsLined c := by
  intro c hc
  have hchar := List.all_eq_true.mp h c hc
  exact .inr (by simpa [CodePoint.IsPrintable] using hchar)

theorem isLined_spaces (n : Nat) : ∀ c ∈ Text.spaces n, IsLined c := by
  intro c hc
  obtain rfl := List.eq_of_mem_replicate hc
  exact .inr (by unfold CodePoint.IsPrintable; decide)

theorem isLined_line (indent : Nat) : ∀ c ∈ text "\n" ++ Text.spaces indent, IsLined c :=
  List.forall_mem_cons.mpr ⟨.inl rfl, isLined_spaces indent⟩

theorem isLined_space (o : Opening) : ∀ c ∈ o.space, IsLined c := by
  unfold Opening.space
  split
  · exact isLined_spaces 1
  · exact fun c hc => absurd hc List.not_mem_nil

theorem isLined_joinWith {sep : Text} (hsep : ∀ c ∈ sep, IsLined c) (h : ∀ e ∈ entries, ∀ c ∈ e, IsLined c) :
    ∀ c ∈ Text.joinWith sep entries, IsLined c := by
  induction entries with
  | nil => exact fun c hc => absurd hc List.not_mem_nil
  | cons e entries ih =>
    rw [List.forall_mem_cons] at h
    cases entries with
    | nil => exact h.1
    | cons f entries =>
      rw [Text.joinWith, List.forall_mem_append, List.forall_mem_append]
      exact ⟨⟨h.1, hsep⟩, ih h.2⟩

theorem isLined_block (o : Opening) (indent : Nat) (h : ∀ e ∈ entries, ∀ c ∈ e, IsLined c) :
    ∀ c ∈ o.block indent [] entries, IsLined c := by
  have hentries := isLined_joinWith (isLined_line indent) h
  cases hcompact : o.compact with
  | true => simpa [Opening.block, hcompact] using List.forall_mem_append.mpr ⟨isLined_spaces (indent - o.column), hentries⟩
  | false => simpa [Opening.block, hcompact] using List.forall_mem_append.mpr ⟨isLined_line indent, hentries⟩

mutual

/-- A document is made of line feeds and of characters that can be printed. -/
theorem isLined_node (t : Tree) (ht : t.IsSimple) (parent : Option Nat) (inMapping : Bool) (o : Opening) :
    ∀ c ∈ writeNode .document parent inMapping o t, IsLined c := by
  cases t with
  | scalar tag t lines =>
    obtain ⟨rfl, himplied⟩ := ht
    rw [writeNode]
    exact isLined_writeScalar himplied (fun h => absurd h (by decide)) o _
  | sequence xs =>
    cases xs with
    | nil =>
      have hspace := List.forall_mem_append.mpr ⟨isLined_space o, isLined_text (s := "[]") (by decide)⟩
      simpa [writeNode] using hspace
    | cons x xs => simpa [writeNode] using isLined_block o _ (isLined_items (x :: xs) ht _)
  | mapping tag es =>
    obtain ⟨rfl, hts⟩ := ht
    cases es with
    | nil =>
      have hspace := List.forall_mem_append.mpr ⟨isLined_space o, isLined_text (s := "\x7b\x7d") (by decide)⟩
      simpa [writeNode] using hspace
    | cons e es => simpa [writeNode] using isLined_block o ((parent.map (· + 2)).getD 0) (isLined_pairs (e :: es) hts _)

theorem isLined_items (xs : List Tree) (ht : Tree.IsSimple.items xs) (indent : Nat) :
    ∀ e ∈ writeNode.items .document indent xs, ∀ c ∈ e, IsLined c := by
  cases xs with
  | nil => exact fun e he => absurd he List.not_mem_nil
  | cons x xs =>
    rw [writeNode.items, List.forall_mem_cons, List.forall_mem_append]
    exact ⟨⟨isLined_text (by decide), isLined_node x ht.1 _ _ _⟩, isLined_items xs ht.2 indent⟩

theorem isLined_pairs (es : List (Tree × Tree)) (ht : Tree.IsSimple.pairs es) (indent : Nat) :
    ∀ e ∈ writeNode.pairs .document indent es, ∀ c ∈ e, IsLined c := by
  match es, ht with
  | [], _ => exact fun e he => absurd he List.not_mem_nil
  | (k, v) :: es, ⟨⟨t, hk⟩, hv, hes⟩ =>
    have hkey : ∀ c ∈ writeNode.shortKey .document indent k, IsLined c := by
      rw [hk]
      exact isLined_writeScalar (.inl rfl) (fun _ => rfl) _ _
    have hlong : k.IsSimple := by
      rw [hk]
      exact ⟨rfl, .inl rfl⟩
    have hcolon := isLined_text (s := ":") (by decide)
    rw [writeNode.pairs, List.forall_mem_cons]
    refine ⟨?_, isLined_pairs es hes indent⟩
    dsimp only
    split
    · simp only [List.forall_mem_append]
      exact ⟨⟨hkey, hcolon⟩, isLined_node v hv _ _ _⟩
    · simp only [List.forall_mem_append]
      exact ⟨⟨⟨⟨⟨isLined_text (by decide), isLined_node k hlong _ _ _⟩, isLined_line 0⟩, isLined_spaces indent⟩, hcolon⟩,
        isLined_node v hv _ _ _⟩

end

theorem isLined_documents (h : ∀ t ∈ trees, IsDocument t) (first : Bool) : ∀ c ∈ documents .document first trees, IsLined c := by
  induction trees generalizing first with
  | nil => exact fun c hc => absurd hc List.not_mem_nil
  | cons t trees ih =>
    rw [List.forall_mem_cons] at h
    have hnode := fun o => isLined_node t h.1.2.1 none false o
    rw [documents, List.forall_mem_append]
    refine ⟨?_, ih h.2 false⟩
    cases first with
    | true => exact List.forall_mem_append.mpr ⟨hnode _, isLined_line 0⟩
    | false => exact List.forall_mem_append.mpr ⟨List.forall_mem_append.mpr ⟨isLined_text (by decide), hnode _⟩, isLined_line 0⟩

theorem isDocumentChar_of_isLined {c : CodePoint} (h : IsLined c) : c.isDocumentChar = true := by
  obtain rfl | ⟨hlow, hhigh⟩ := h
  · decide
  · simp [CodePoint.isDocumentChar, hlow, hhigh]

/-- A stream of documents is cut into its tokens. -/
theorem ofText_documents (h : ∀ t ∈ trees, IsDocument t) :
    Token.ofText (documents .document true trees) = streamTokens true trees := by
  have hmark : (documents .document true trees).head? ≠ some ('\uFEFF' : CodePoint) := by
    intro hhead
    have hmem := List.mem_of_mem_head? (Option.mem_def.mpr hhead)
    obtain hfeed | ⟨-, hhigh⟩ := isLined_documents h true _ hmem
    · exact absurd hfeed (by decide)
    · exact absurd hhigh (by decide)
  have hyields := (resumes_documents h true []).yields 0 0
  unfold Token.ofText
  dsimp only
  rw [if_neg hmark]
  exact run_of_yields hyields (Nat.lt_succ_self _)

end Layout

end AnnotationCodec.Yaml
