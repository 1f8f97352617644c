import AnnotationCodec.Proofs.Manifest.Stream
import AnnotationCodec.Proofs.Yaml.Legible
import Mathlib.Data.List.Forall2

/-!
Manifests of plain data are read back from what is written of them, with their entries arranged. The reader takes a key or a
folded line for something else only where it is not legible: in keys that escapes make longer than a candidate may be, and
where a line is folded inside of a marked blank, which takes eighty columns of indentation.
-/
namespace AnnotationCodec.Manifest

open Yaml

variable {m : Manifest} {ms : List Manifest} {trees : List Tree}

/-- Whether the reader takes everything in the document of a manifest for what it is. -/
def Legible (m : Manifest) : Prop :=
  ∀ t, m.tree = .ok t → t.Legible none false

/-- A manifest of fewer than forty levels of collections whose keys are brief is legible. -/
theorem legible_of_isShallow (hplain : m.toValue.IsPlain) (h : m.toValue.IsShallow 39) : m.Legible := by
  intro t ht
  have hvalue : Tree.ofValue .document m.toValue = .ok t := by
    rw [tree] at ht
    split at ht
    · cases ht
    · exact ht
  exact Tree.legible_of_isShallow m.toValue none hplain h (by decide) false hvalue

/-- A manifest with its entries as they are written. -/
def arranged (m : Manifest) : Manifest :=
  ofEntries ((Entries.sorted m.entries).map fun e => (e.1, e.2.arranged))

theorem toValue_arranged (m : Manifest) : m.arranged.toValue = m.toValue.arranged :=
  (Tree.arranged_map m.entries).symm

/-- A manifest of plain data has a tree that can be read back, if it is legible. -/
theorem exists_isDocument (hfinite : m.endless = false) (hplain : m.toValue.IsPlain) (hlegible : m.Legible) :
    ∃ t, m.tree = .ok t ∧ Layout.IsDocument t ∧ t.Denotes (.map m.arranged.entries) := by
  obtain ⟨t, ht, hdenotes⟩ := Tree.exists_denotes m.toValue hplain
  have htree : m.tree = .ok t := by
    rw [tree, hfinite]
    exact ht
  rw [← toValue_arranged] at hdenotes
  have hmapping : ∃ es, t = .mapping .map es := by
    rw [toValue, Tree.ofValue_map] at ht
    obtain ⟨es, -, rfl⟩ := map_eq_ok_iff.mp ht
    exact ⟨es, rfl⟩
  exact ⟨t, htree, ⟨hmapping, Tree.isSimple_of_denotes t hdenotes, hlegible t htree⟩, hdenotes⟩

theorem exists_isDocuments (hfinite : ∀ m ∈ ms, m.endless = false) (hplain : ∀ m ∈ ms, m.toValue.IsPlain)
    (hlegible : ∀ m ∈ ms, m.Legible) : ∃ trees : List Tree, ms.map tree = trees.map .ok ∧
      (∀ t ∈ trees, Layout.IsDocument t) ∧ List.Forall₂ (fun t m => t.Denotes (.map m.arranged.entries)) trees ms := by
  induction ms with
  | nil => exact ⟨[], rfl, fun t ht => absurd ht List.not_mem_nil, .nil⟩
  | cons m ms ih =>
    rw [List.forall_mem_cons] at hfinite hplain hlegible
    obtain ⟨t, ht, hdocument, hdenotes⟩ := exists_isDocument hfinite.1 hplain.1 hlegible.1
    obtain ⟨trees, htrees, hdocuments, hall⟩ := ih hfinite.2 hplain.2 hlegible.2
    exact ⟨t :: trees, by rw [List.map_cons, ht, htrees, List.map_cons], List.forall_mem_cons.mpr ⟨hdocument, hdocuments⟩,
      .cons hdenotes hall⟩

theorem isOpenEnded_of_isDocument {t : Tree} (h : Layout.IsDocument t) : isOpenEnded .document t = false := by
  obtain ⟨⟨es, rfl⟩, -⟩ := h
  rfl

/-- The manifests of a stream of trees. -/
theorem readFrom_streamTokens (h : List.Forall₂ (fun t (m : Manifest) => Tree.Denotes t (.map m.arranged.entries)) trees ms)
    (first : Bool) (hs : List (Text × Text)) (n : Nat) {fuel : Nat} (hfuel : trees.length < fuel) :
    readFrom fuel ⟨⟨Layout.streamTokens first trees, [], hs, n⟩, first⟩ = .ok (ms.map arranged) := by
  obtain ⟨fuel, rfl⟩ : ∃ f, fuel = f + 1 := Nat.exists_eq_add_of_le' (by omega)
  induction h generalizing first hs n fuel with
  | nil =>
    rw [readFrom, Stream.next?_end]
    rfl
  | @cons t m trees ms ht _ ih =>
    rw [List.length_cons] at hfuel
    obtain ⟨fuel, rfl⟩ : ∃ f, fuel = f + 1 := Nat.exists_eq_add_of_le' (by omega)
    have hrest := ih false Reading.commonHandles (n + t.mappings) fuel (by omega)
    rw [readFrom, Stream.next?_streamTokens ht]
    simp only [bind, Except.bind, Value.isNull, Bool.false_eq_true, if_false, ofDocument, hrest]
    rfl

theorem length_le_streamTokens (first : Bool) (trees : List Tree) : trees.length < (Layout.streamTokens first trees).length := by
  induction trees generalizing first with
  | nil => exact Nat.one_pos
  | cons t trees ih =>
    have hrest := ih false
    have hpos := Reading.length_tokens_pos t false
    simp only [Layout.streamTokens, Layout.documentTokens, List.length_append, List.length_cons]
    omega

/-- Manifests of plain data are read back from their text. -/
theorem readAll_writeAll (hfinite : ∀ m ∈ ms, m.endless = false) (hplain : ∀ m ∈ ms, m.toValue.IsPlain)
    (hlegible : ∀ m ∈ ms, m.Legible) :
    (writeAll ms).result = .ok () ∧ readAll (writeAll ms).text = .ok (ms.map arranged) := by
  obtain ⟨trees, htrees, hdocuments, hdenotes⟩ := exists_isDocuments hfinite hplain hlegible
  have hwritten : writeAll ms = ⟨documents .document true trees, .ok ()⟩ := by
    rw [writeAll, htrees, writeTrees]
    exact writeFrom_ok fun t ht => isOpenEnded_of_isDocument (hdocuments t ht)
  have hchars : (documents .document true trees).all CodePoint.isDocumentChar = true :=
    List.all_eq_true.mpr fun c hc => Layout.isDocumentChar_of_isLined (Layout.isLined_documents hdocuments true c hc)
  have hstream : Stream.ofText (documents .document true trees) =
      .ok ⟨⟨Layout.streamTokens true trees, [], Reading.commonHandles, 0⟩, true⟩ := by
    rw [Stream.ofText, if_pos hchars, Layout.ofText_documents hdocuments]
    rfl
  have hfuel := Nat.lt_succ_of_lt (length_le_streamTokens true trees)
  have hread := readFrom_streamTokens hdenotes true Reading.commonHandles 0 hfuel
  rw [hwritten]
  refine ⟨rfl, ?_⟩
  rw [readAll, hstream]
  exact hread

/-- Manifests of plain data that are legible come back, each as the same value, with nothing shared in it. -/
theorem readAll_writeAll_same (hfinite : ∀ m ∈ ms, m.endless = false) (hplain : ∀ m ∈ ms, m.toValue.IsPlain)
    (hlegible : ∀ m ∈ ms, m.Legible) :
    (writeAll ms).result = .ok () ∧ ∃ ns, readAll (writeAll ms).text = .ok ns ∧
      List.Forall₂ (fun m n => m.toValue.Same n.toValue ∧ n.shared = [] ∧ n.endless = false) ms ns := by
  obtain ⟨hwrite, hread⟩ := readAll_writeAll hfinite hplain hlegible
  refine ⟨hwrite, ms.map arranged, hread, ?_⟩
  rw [List.forall₂_map_right_iff, List.forall₂_same]
  intro m _
  rw [toValue_arranged]
  exact ⟨m.toValue.same_arranged, rfl, rfl⟩

/-- A manifest with a text that looks like a truth value, and one with a key of two lines. -/
def mixed : List Manifest :=
  [ofEntries [(.str (text "kind"), .str (text "Pod")), (.str (text "flags"), .list [.str (text "yes"), .bool true])],
    ofEntries [(.str (text "a\nb"), .map [(.str (text "a: b"), .null)])]]

theorem readAll_mixed : (writeAll mixed).result = .ok () ∧ ∃ ns, readAll (writeAll mixed).text = .ok ns ∧
    List.Forall₂ (fun m n => m.toValue.Same n.toValue ∧ n.shared = [] ∧ n.endless = false) mixed ns := by
  have hplain : ∀ m ∈ mixed, m.toValue.IsPlain := by
    simp only [mixed, List.forall_mem_cons]
    simp [toValue, ofEntries, Value.IsPlain, Value.IsPlain.entries, Value.IsPlain.all, text]
  have hlegible : ∀ m ∈ mixed, m.Legible := by
    simp only [mixed, List.forall_mem_cons]
    refine ⟨fun t ht => ?_, fun t ht => ?_, by simp⟩
    · cases ht
      simp +decide [Tree.Legible, Tree.Legible.pairs, Tree.Legible.items, Tree.word, FoldsWell]
    · cases ht
      simp +decide [Tree.Legible, Tree.Legible.pairs, Tree.word, FoldsWell]
  exact readAll_writeAll_same (List.forall_mem_cons.mpr ⟨rfl, List.forall_mem_cons.mpr ⟨rfl, by simp⟩⟩) hplain hlegible

/-- A key of characters that are written with ten characters each. -/
def astralKey : Manifest :=
  ofEntries [(.str (List.replicate 103 (CodePoint.ofNat 0x1F600)), .null)]

/-- The key is short enough for the line of its value, but the reader takes what is written of it for no key. -/
theorem readAll_astral_key : astralKey.endless = false ∧ astralKey.toValue.IsPlain ∧
    ∀ ns, readAll (writeAll [astralKey]).text ≠ .ok ns := by
  have hnone : (readAll (writeAll [astralKey]).text).toOption.isNone = true := by decide +kernel
  refine ⟨rfl, ⟨List.pairwise_singleton _ _, ⟨_, rfl⟩, trivial, trivial⟩, fun ns h => ?_⟩
  rw [h] at hnone
  cases hnone

end AnnotationCodec.Manifest
