import AnnotationCodec.Proofs.Except
import AnnotationCodec.Yaml.NodeReader
import Mathlib.Logic.Function.Basic
import Mathlib.Tactic.SplitIfs

/-!
The numbers of mappings. The reader gives every number once, and an alias brings back the node that was read, so that equal
numbers in the nodes of a document mean one and the same mapping.
-/
namespace AnnotationCodec.Yaml

namespace Node

/-- The mappings in a node are those that are registered under their numbers. -/
def Agrees (f : Nat → Option Node) : Node → Prop
  | .scalar _ _ => True
  | .sequence _ xs => items xs
  | .mapping n tag es => f n = some (.mapping n tag es) ∧ entries es
  | .loop => True
where
  items : List Node → Prop
    | [] => True
    | x :: xs => x.Agrees f ∧ items xs
  entries : List (Node × Node) → Prop
    | [] => True
    | (k, v) :: es => k.Agrees f ∧ v.Agrees f ∧ entries es

variable {f g : Nat → Option Node} {x : Node} {xs : List Node} {es : List (Node × Node)} {n : Nat} {tag : Tag}

theorem agrees_items_iff : Agrees.items f xs ↔ ∀ x ∈ xs, x.Agrees f := by
  induction xs with
  | nil => simp [Agrees.items]
  | cons x xs ih => rw [Agrees.items, ih, List.forall_mem_cons]

theorem agrees_entries_iff : Agrees.entries f es ↔ ∀ e ∈ es, e.1.Agrees f ∧ e.2.Agrees f := by
  induction es with
  | nil => simp [Agrees.entries]
  | cons e es ih => rw [Agrees.entries, ih, List.forall_mem_cons, and_assoc]

theorem agrees_sequence : (sequence tag xs).Agrees f ↔ ∀ x ∈ xs, x.Agrees f := by
  rw [Agrees, agrees_items_iff]

theorem agrees_mapping :
    (mapping n tag es).Agrees f ↔ f n = some (.mapping n tag es) ∧ ∀ e ∈ es, e.1.Agrees f ∧ e.2.Agrees f := by
  rw [Agrees, agrees_entries_iff]

mutual

/-- A node agrees with a register that goes on. -/
theorem Agrees.mono (hfg : ∀ n x, f n = some x → g n = some x) (x : Node) (h : x.Agrees f) : x.Agrees g := by
  match x with
  | .scalar _ _ | .loop => trivial
  | .sequence _ xs => exact items_mono hfg xs h
  | .mapping _ _ es => exact ⟨hfg _ _ h.1, entries_mono hfg es h.2⟩

theorem items_mono (hfg : ∀ n x, f n = some x → g n = some x) (xs : List Node) (h : Agrees.items f xs) : Agrees.items g xs := by
  match xs with
  | [] => trivial
  | x :: xs => exact ⟨Agrees.mono hfg x h.1, items_mono hfg xs h.2⟩

theorem entries_mono (hfg : ∀ n x, f n = some x → g n = some x) (es : List (Node × Node)) (h : Agrees.entries f es) :
    Agrees.entries g es := by
  match es with
  | [] => trivial
  | (k, v) :: es => exact ⟨Agrees.mono hfg k h.1, Agrees.mono hfg v h.2.1, entries_mono hfg es h.2.2⟩

end

end Node

namespace Reading

/-- The nodes of the anchors are registered, and the numbers to come are not given yet. -/
structure Keeps (f : Nat → Option Node) (r : Reading) : Prop where
  anchors : ∀ a x, (a, some x) ∈ r.anchors → x.Agrees f
  free : ∀ n, r.count ≤ n → f n = none

/-- What was registered stays so, whatever is read, and the nodes that were read are registered in the end. -/
def Registers (r r' : Reading) (xs : List Node) : Prop :=
  ∀ f, Keeps f r → ∃ g, Keeps g r' ∧ r.count ≤ r'.count ∧ (∀ n < r.count, g n = f n) ∧ ∀ x ∈ xs, x.Agrees g

variable {r r' r'' : Reading} {x k v : Node} {xs ys : List Node} {es : List (Node × Node)} {f g : Nat → Option Node}
  {p : Properties} {place : Place} {ends : Token → Bool} {t : Token} {fuel : Nat}

theorem Keeps.mono (h : Keeps f r) (hold : ∀ n < r.count, g n = f n) (n : Nat) (x : Node) (hx : f n = some x) : g n = some x := by
  by_cases hn : n < r.count
  · rw [hold n hn, hx]
  · rw [h.free n (Nat.le_of_not_lt hn)] at hx
    cases hx

theorem registers_nil (hanchors : r'.anchors = r.anchors) (hcount : r'.count = r.count) : Registers r r' [] := by
  intro f hf
  refine ⟨f, ⟨?_, ?_⟩, Nat.le_of_eq hcount.symm, fun _ _ => rfl, by simp⟩
  · rw [hanchors]
    exact hf.anchors
  · rw [hcount]
    exact hf.free

theorem Registers.trans (h : Registers r r' xs) (h' : Registers r' r'' ys) : Registers r r'' (xs ++ ys) := by
  intro f hf
  obtain ⟨g, hg, hle, hold, hxs⟩ := h f hf
  obtain ⟨g', hg', hle', hold', hys⟩ := h' g hg
  refine ⟨g', hg', Nat.le_trans hle hle', fun n hn => (hold' n (by omega)).trans (hold n hn), fun x hx => ?_⟩
  obtain hx | hx := List.mem_append.mp hx
  · exact (hxs x hx).mono (hg.mono hold')
  · exact hys x hx

/-- Going over a token registers nothing. -/
theorem Registers.next (h : Registers r.next r' xs) : Registers r r' xs := by
  have hnext : Registers r r.next [] := registers_nil rfl rfl
  exact hnext.trans h

/-- A scalar registers nothing. -/
theorem Registers.scalar (h : Registers r r' xs) (tag : Tag) (t : Text) : Registers r r' (.scalar tag t :: xs) := by
  intro f hf
  obtain ⟨g, hg, hle, hold, hxs⟩ := h f hf
  exact ⟨g, hg, hle, hold, List.forall_mem_cons.mpr ⟨trivial, hxs⟩⟩

theorem Registers.sequence (h : Registers r r' xs) (tag : Tag) : Registers r r' [.sequence tag xs] := by
  intro f hf
  obtain ⟨g, hg, hle, hold, hxs⟩ := h f hf
  exact ⟨g, hg, hle, hold, List.forall_mem_singleton.mpr (Node.agrees_sequence.mpr hxs)⟩

/-- The nodes of entries, one after the other. -/
def entryNodes (es : List (Node × Node)) : List Node :=
  es.flatMap fun e => [e.1, e.2]

/-- A mapping takes the number that is free when it starts, and is registered when its entries have been read. -/
theorem Registers.mapping (h : Registers { r with count := r.count + 1 } r' (entryNodes es)) (tag : Tag) :
    Registers r r' [.mapping r.count tag es] := by
  intro f hf
  obtain ⟨g, hg, hle, hold, hes⟩ := h f ⟨hf.anchors, fun n hn => hf.free n (Nat.le_of_succ_le hn)⟩
  -- The entries get greater numbers, so that the one of the mapping is free until they have been read.
  have hfree : g r.count = none := (hold _ (Nat.lt_succ_self _)).trans (hf.free _ (Nat.le_refl _))
  have hne : ∀ n x, g n = some x → Function.update g r.count (some (.mapping r.count tag es)) n = some x := by
    intro n x hx
    rw [Function.update_of_ne, hx]
    rintro rfl
    rw [hfree] at hx
    cases hx
  refine ⟨_, ⟨fun a x hx => (hg.anchors a x hx).mono hne, fun n hn => ?_⟩, Nat.le_of_succ_le hle, fun n hn => ?_,
    List.forall_mem_singleton.mpr (Node.agrees_mapping.mpr ⟨Function.update_self .., fun e he => ⟨?_, ?_⟩⟩)⟩
  · have hlt : r.count < n := Nat.lt_of_lt_of_le hle hn
    rw [Function.update_of_ne (Nat.ne_of_gt hlt), hg.free n hn]
  · rw [Function.update_of_ne (Nat.ne_of_lt hn), hold n (Nat.lt_succ_of_lt hn)]
  · exact (hes e.1 (List.mem_flatMap.mpr ⟨e, he, by simp⟩)).mono hne
  · exact (hes e.2 (List.mem_flatMap.mpr ⟨e, he, by simp⟩)).mono hne

/-! Properties -/

theorem properties_keep {p : Properties} (h : r.properties = .ok (p, r')) : r'.anchors = r.anchors ∧ r'.count = r.count := by
  unfold properties at h
  obtain ⟨t, -, h⟩ := bind_eq_ok_iff.mp h
  split at h
  · obtain ⟨u, -, h⟩ := bind_eq_ok_iff.mp h
    split at h
    · obtain ⟨s, -, h⟩ := bind_eq_ok_iff.mp h
      cases h
      exact ⟨rfl, rfl⟩
    · cases h
      exact ⟨rfl, rfl⟩
  · obtain ⟨⟨a, r₁⟩, ha, h⟩ := bind_eq_ok_iff.mp h
    obtain ⟨s, -, h⟩ := bind_eq_ok_iff.mp h
    cases h
    obtain ⟨u, -, ha⟩ := bind_eq_ok_iff.mp ha
    split at ha <;> cases ha <;> exact ⟨rfl, rfl⟩
  · cases h
    exact ⟨rfl, rfl⟩

theorem registers_declare (h : r.declare p = .ok r') : Registers r r' [] := by
  unfold declare at h
  split at h
  · cases h
    exact registers_nil rfl rfl
  · split_ifs at h
    cases h
    intro f hf
    refine ⟨f, ⟨fun a x hx => ?_, hf.free⟩, Nat.le_refl _, fun _ _ => rfl, by simp⟩
    obtain hx | hx := List.mem_cons.mp hx
    · cases hx
    · exact hf.anchors a x hx

theorem Registers.complete (h : Registers r r' [x]) (p : Properties) : Registers r (r'.complete p x).2 [(r'.complete p x).1] := by
  unfold Reading.complete
  split
  · exact h
  · intro f hf
    obtain ⟨g, hg, hle, hold, hx⟩ := h f hf
    refine ⟨g, ⟨fun b y hy => ?_, hg.free⟩, hle, hold, hx⟩
    obtain ⟨e, he, heq⟩ := List.mem_map.mp hy
    split_ifs at heq
    · cases heq
      exact hx x List.mem_cons_self
    · subst heq
      exact hg.anchors b y he

theorem registers_scalar {content : Text} {isPlain : Bool} (h : r.scalar p content isPlain = .ok (x, r')) :
    Registers r r' [x] := by
  obtain ⟨r₁, hr, h⟩ := bind_eq_ok_iff.mp h
  have hread := ((registers_declare hr).scalar (p.scalarTag content isPlain) content).complete p
  rw [Except.ok.inj h] at hread
  exact hread

/-- An alias stands for a node that is registered. -/
theorem registers_aliased {name : Text} (h : r.aliased name = .ok x) : Registers r r.next [x] := by
  intro f hf
  refine ⟨f, ⟨hf.anchors, hf.free⟩, Nat.le_refl _, fun _ _ => rfl, List.forall_mem_singleton.mpr ?_⟩
  unfold aliased at h
  split at h
  · cases h
  · cases h
    trivial
  · next a y hfind =>
    cases h
    exact hf.anchors _ _ (List.mem_of_find?_eq_some hfind)

/-! Nodes -/

/-- Everything that is read with some fuel is registered. -/
structure Registering (fuel : Nat) : Prop where
  node : ∀ {place r x r'}, node place fuel r = .ok (x, r') → Registers r r' [x]
  blockNode : ∀ {place p r t x r'}, blockNode place p fuel r t = .ok (x, r') → Registers r r' [x]
  optional : ∀ {place ends r x r'}, optional place ends fuel r = .ok (x, r') → Registers r r' [x]
  blockItems : ∀ {r xs r'}, blockItems fuel r = .ok (xs, r') → Registers r r' xs
  looseItems : ∀ {r xs r'}, looseItems fuel r = .ok (xs, r') → Registers r r' xs
  blockEntries : ∀ {r es r'}, blockEntries fuel r = .ok (es, r') → Registers r r' (entryNodes es)
  value : ∀ {place ends r x r'}, value place ends fuel r = .ok (x, r') → Registers r r' [x]
  flowItems : ∀ {first r xs r'}, flowItems first fuel r = .ok (xs, r') → Registers r r' xs
  flowEntries : ∀ {first r es r'}, flowEntries first fuel r = .ok (es, r') → Registers r r' (entryNodes es)

theorem separated_keep {first : Bool} (h : separated first t r = .ok r') : r'.anchors = r.anchors ∧ r'.count = r.count := by
  unfold separated at h
  split_ifs at h
  · cases h
    exact ⟨rfl, rfl⟩
  · split at h <;> cases h
    exact ⟨rfl, rfl⟩

/-- A sequence, from its anchor on. -/
theorem registers_sequence (hdeclare : r.declare p = .ok r') (hxs : Registers r' r'' xs) (tag : Tag) :
    Registers r (r''.complete p (.sequence tag xs)).2 [(r''.complete p (.sequence tag xs)).1] :=
  (((registers_declare hdeclare).trans hxs).sequence tag).complete p

/-- A mapping, from its anchor on. -/
theorem registers_mapping (hdeclare : r.declare p = .ok r')
    (hes : Registers { r'.next with count := r'.count + 1 } r'' (entryNodes es)) (tag : Tag) :
    Registers r (r''.complete p (.mapping r'.count tag es)).2 [(r''.complete p (.mapping r'.count tag es)).1] :=
  ((registers_declare hdeclare).trans (Registers.mapping (r := r'.next) hes tag).next).complete p

theorem Registering.succ_blockNode (hk : Registering fuel) (h : Reading.blockNode place p (fuel + 1) r t = .ok (x, r')) :
    Registers r r' [x] := by
  unfold Reading.blockNode at h
  split at h
  · obtain ⟨r₁, hr, h⟩ := bind_eq_ok_iff.mp h
    obtain ⟨⟨xs, r₂⟩, hxs, h⟩ := bind_eq_ok_iff.mp h
    have hread := registers_sequence hr (hk.looseItems hxs) (p.collectionTag .seq)
    rw [Except.ok.inj h] at hread
    exact hread
  iterate 2
    · obtain ⟨r₁, hr, h⟩ := bind_eq_ok_iff.mp h
      obtain ⟨⟨xs, r₂⟩, hxs, h⟩ := bind_eq_ok_iff.mp h
      have hread := registers_sequence hr (hk.blockItems hxs).next (p.collectionTag .seq)
      rw [Except.ok.inj h] at hread
      exact hread
  iterate 2
    · obtain ⟨r₁, hr, h⟩ := bind_eq_ok_iff.mp h
      obtain ⟨⟨es, r₂⟩, hes, h⟩ := bind_eq_ok_iff.mp h
      have hread := registers_mapping hr (hk.blockEntries hes) (p.collectionTag .map)
      rw [Except.ok.inj h] at hread
      exact hread
  · split_ifs at h
    · cases h
    · exact registers_scalar h

theorem Registering.succ_node (hk : Registering fuel) (h : Reading.node place (fuel + 1) r = .ok (x, r')) :
    Registers r r' [x] := by
  unfold Reading.node at h
  obtain ⟨t, -, h⟩ := bind_eq_ok_iff.mp h
  split at h
  · obtain ⟨y, hy, h⟩ := bind_eq_ok_iff.mp h
    cases h
    exact registers_aliased hy
  · obtain ⟨⟨p, r₁⟩, hp, h⟩ := bind_eq_ok_iff.mp h
    obtain ⟨hanchors, hcount⟩ := properties_keep hp
    suffices hread : Registers r₁ r' [x] from (registers_nil hanchors hcount).trans hread
    obtain ⟨u, -, h⟩ := bind_eq_ok_iff.mp h
    split at h
    · exact (registers_scalar h).next
    · obtain ⟨r₂, hr, h⟩ := bind_eq_ok_iff.mp h
      obtain ⟨⟨xs, r₃⟩, hxs, h⟩ := bind_eq_ok_iff.mp h
      have hread := registers_sequence hr (hk.flowItems hxs).next (p.collectionTag .seq)
      rw [Except.ok.inj h] at hread
      exact hread
    · obtain ⟨r₂, hr, h⟩ := bind_eq_ok_iff.mp h
      obtain ⟨⟨es, r₃⟩, hes, h⟩ := bind_eq_ok_iff.mp h
      have hread := registers_mapping hr (hk.flowEntries hes) (p.collectionTag .map)
      rw [Except.ok.inj h] at hread
      exact hread
    · exact hk.blockNode h

theorem Registering.succ_optional (hk : Registering fuel) (h : Reading.optional place ends (fuel + 1) r = .ok (x, r')) :
    Registers r r' [x] := by
  unfold Reading.optional at h
  obtain ⟨t, -, h⟩ := bind_eq_ok_iff.mp h
  split_ifs at h
  · cases h
    exact (registers_nil rfl rfl).scalar .null []
  · exact hk.node h

theorem Registering.succ_value (hk : Registering fuel) (h : Reading.value place ends (fuel + 1) r = .ok (x, r')) :
    Registers r r' [x] := by
  unfold Reading.value at h
  obtain ⟨t, -, h⟩ := bind_eq_ok_iff.mp h
  split at h
  · exact (hk.optional h).next
  · cases h
    exact (registers_nil rfl rfl).scalar .null []

theorem Registering.succ_blockItems (hk : Registering fuel) (h : Reading.blockItems (fuel + 1) r = .ok (xs, r')) :
    Registers r r' xs := by
  unfold Reading.blockItems at h
  obtain ⟨t, -, h⟩ := bind_eq_ok_iff.mp h
  split at h
  · obtain ⟨⟨x, r₁⟩, hx, h⟩ := bind_eq_ok_iff.mp h
    obtain ⟨⟨ys, r₂⟩, hys, h⟩ := bind_eq_ok_iff.mp h
    cases h
    exact (hk.optional hx).next.trans (hk.blockItems hys)
  · cases h
    exact registers_nil rfl rfl
  · cases h

theorem Registering.succ_looseItems (hk : Registering fuel) (h : Reading.looseItems (fuel + 1) r = .ok (xs, r')) :
    Registers r r' xs := by
  unfold Reading.looseItems at h
  obtain ⟨t, -, h⟩ := bind_eq_ok_iff.mp h
  split at h
  · obtain ⟨⟨x, r₁⟩, hx, h⟩ := bind_eq_ok_iff.mp h
    obtain ⟨⟨ys, r₂⟩, hys, h⟩ := bind_eq_ok_iff.mp h
    cases h
    exact (hk.optional hx).next.trans (hk.looseItems hys)
  · cases h
    exact registers_nil rfl rfl

theorem Registering.succ_blockEntries (hk : Registering fuel) (h : Reading.blockEntries (fuel + 1) r = .ok (es, r')) :
    Registers r r' (entryNodes es) := by
  unfold Reading.blockEntries at h
  obtain ⟨t, -, h⟩ := bind_eq_ok_iff.mp h
  split at h
  · obtain ⟨⟨k, r₁⟩, hkey, h⟩ := bind_eq_ok_iff.mp h
    obtain ⟨⟨v, r₂⟩, hv, h⟩ := bind_eq_ok_iff.mp h
    obtain ⟨⟨fs, r₃⟩, hfs, h⟩ := bind_eq_ok_iff.mp h
    cases h
    exact (hk.optional hkey).next.trans ((hk.value hv).trans (hk.blockEntries hfs))
  · cases h
    exact registers_nil rfl rfl
  · cases h

theorem Registering.succ_flowItems {first : Bool} (hk : Registering fuel)
    (h : Reading.flowItems first (fuel + 1) r = .ok (xs, r')) : Registers r r' xs := by
  unfold Reading.flowItems at h
  obtain ⟨t, -, h⟩ := bind_eq_ok_iff.mp h
  split at h
  · cases h
    exact registers_nil rfl rfl
  · obtain ⟨r₁, hr, h⟩ := bind_eq_ok_iff.mp h
    obtain ⟨hanchors, hcount⟩ := separated_keep hr
    suffices hread : Registers r₁ r' xs from (registers_nil hanchors hcount).trans hread
    obtain ⟨u, -, h⟩ := bind_eq_ok_iff.mp h
    split at h
    · cases h
      exact registers_nil rfl rfl
    · obtain ⟨⟨k, r₂⟩, hkey, h⟩ := bind_eq_ok_iff.mp h
      obtain ⟨⟨v, r₃⟩, hv, h⟩ := bind_eq_ok_iff.mp h
      obtain ⟨⟨ys, r₄⟩, hys, h⟩ := bind_eq_ok_iff.mp h
      cases h
      have hentry : Registers { r₁.next with count := r₁.count + 1 } r₃ (entryNodes [(k, v)]) :=
        (hk.optional hkey).trans (hk.value hv)
      exact (Registers.mapping (r := r₁.next) hentry .map).next.trans (hk.flowItems hys)
    · obtain ⟨⟨x, r₂⟩, hx, h⟩ := bind_eq_ok_iff.mp h
      obtain ⟨⟨ys, r₃⟩, hys, h⟩ := bind_eq_ok_iff.mp h
      cases h
      exact (hk.node hx).trans (hk.flowItems hys)

theorem Registering.succ_flowEntries {first : Bool} (hk : Registering fuel)
    (h : Reading.flowEntries first (fuel + 1) r = .ok (es, r')) : Registers r r' (entryNodes es) := by
  unfold Reading.flowEntries at h
  obtain ⟨t, -, h⟩ := bind_eq_ok_iff.mp h
  split at h
  · cases h
    exact registers_nil rfl rfl
  · obtain ⟨r₁, hr, h⟩ := bind_eq_ok_iff.mp h
    obtain ⟨hanchors, hcount⟩ := separated_keep hr
    suffices hread : Registers r₁ r' (entryNodes es) from (registers_nil hanchors hcount).trans hread
    obtain ⟨u, -, h⟩ := bind_eq_ok_iff.mp h
    split at h
    · cases h
      exact registers_nil rfl rfl
    · obtain ⟨⟨k, r₂⟩, hkey, h⟩ := bind_eq_ok_iff.mp h
      obtain ⟨⟨v, r₃⟩, hv, h⟩ := bind_eq_ok_iff.mp h
      obtain ⟨⟨fs, r₄⟩, hfs, h⟩ := bind_eq_ok_iff.mp h
      cases h
      exact (hk.optional hkey).next.trans ((hk.value hv).trans (hk.flowEntries hfs))
    · obtain ⟨⟨k, r₂⟩, hkey, h⟩ := bind_eq_ok_iff.mp h
      obtain ⟨w, -, h⟩ := bind_eq_ok_iff.mp h
      obtain ⟨⟨fs, r₃⟩, hfs, h⟩ := bind_eq_ok_iff.mp h
      cases h
      exact (hk.node hkey).trans ((hk.flowEntries hfs).scalar .null [])

theorem registering (fuel : Nat) : Registering fuel := by
  induction fuel with
  | zero => constructor <;> intros <;> rename_i h <;> cases h
  | succ fuel ih =>
    exact ⟨ih.succ_node, ih.succ_blockNode, ih.succ_optional, ih.succ_blockItems, ih.succ_looseItems, ih.succ_blockEntries,
      ih.succ_value, ih.succ_flowItems, ih.succ_flowEntries⟩

/-! Documents -/

theorem keeps_nil (h : r.anchors = []) : Keeps (fun _ => none) r :=
  ⟨by simp [h], fun _ _ => rfl⟩

theorem directives_keep {version : Bool} {handles : List (Text × Text)} (h : directives version handles fuel r = .ok r') :
    r'.anchors = r.anchors := by
  induction fuel generalizing version handles r with
  | zero => cases h
  | succ fuel ih =>
    unfold directives at h
    obtain ⟨t, -, h⟩ := bind_eq_ok_iff.mp h
    split at h
    · split_ifs at h
      · cases h
      · exact ih (r := r.next) h
    · split_ifs at h
      · cases h
      · exact ih (r := r.next) h
    · exact ih (r := r.next) h
    · cases h
      rfl

theorem openDocument_keep (h : r.openDocument = .ok (some r')) : r'.anchors = r.anchors := by
  unfold openDocument at h
  obtain ⟨t, -, h⟩ := bind_eq_ok_iff.mp h
  split at h
  · cases h
  · obtain ⟨r₁, hr, h⟩ := bind_eq_ok_iff.mp h
    obtain ⟨u, -, h⟩ := bind_eq_ok_iff.mp h
    split at h
    · cases h
      have hkeep := directives_keep hr
      exact hkeep
    · cases h

theorem finish_forgets {found : Option (Node × Reading)} (h : r.finish x = .ok found) :
    ∃ r', found = some (x, r') ∧ r'.anchors = [] := by
  obtain ⟨t, -, h⟩ := bind_eq_ok_iff.mp h
  cases h
  exact ⟨_, rfl, rfl⟩

/-- The mappings of a document are registered by their numbers, and its anchors are forgotten behind it. -/
theorem markedDocument_agrees (hr : r.anchors = []) (h : r.markedDocument = .ok (some (x, r'))) :
    (∃ f, x.Agrees f) ∧ r'.anchors = [] := by
  unfold markedDocument at h
  obtain ⟨opened, hopen, h⟩ := bind_eq_ok_iff.mp h
  split at h
  · cases h
  · next r₁ =>
    obtain ⟨⟨y, r₂⟩, hy, h⟩ := bind_eq_ok_iff.mp h
    obtain ⟨r₃, heq, hr₃⟩ := finish_forgets h
    cases heq
    obtain ⟨g, -, -, -, hg⟩ := (registering _).optional hy _ (keeps_nil ((openDocument_keep hopen).trans hr))
    exact ⟨⟨g, hg _ List.mem_cons_self⟩, hr₃⟩

theorem firstDocument_agrees (hr : r.anchors = []) (h : r.firstDocument = .ok (some (x, r'))) :
    (∃ f, x.Agrees f) ∧ r'.anchors = [] := by
  unfold firstDocument at h
  obtain ⟨t, -, h⟩ := bind_eq_ok_iff.mp h
  split at h
  iterate 3 exact markedDocument_agrees hr h
  obtain ⟨⟨y, r₂⟩, hy, h⟩ := bind_eq_ok_iff.mp h
  obtain ⟨r₃, heq, hr₃⟩ := finish_forgets h
  cases heq
  obtain ⟨g, -, -, -, hg⟩ := (registering _).node hy _ (keeps_nil hr)
  exact ⟨⟨g, hg _ List.mem_cons_self⟩, hr₃⟩

end Reading

end AnnotationCodec.Yaml
