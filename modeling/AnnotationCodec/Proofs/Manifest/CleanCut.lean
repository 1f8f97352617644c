import AnnotationCodec.Proofs.Manifest.Cut
import Mathlib.Data.List.Forall2

/-!
Annotating that fails. The slots before the one where it failed have all fields of the descriptor, those after it are
as they were, and a descriptor that cannot be stored at all fails at the first one.
-/
namespace AnnotationCodec

/-- The failures that lie in a descriptor and not in what it is written to. -/
def Failure.LiesInDescriptor : Failure → Prop
  | .encoding _ _ | .missingDescriptor | .wrongDescriptor _ _ | .unwritable => True
  | _ => False

namespace Domain

variable (d : Domain)

/-- No key of a domain is a key on the way to a resource, which has no slash. -/
theorem key_not_mem_wayKeys (f : Field) : d.schema.key f ∉ Manifest.wayKeys := by
  have hslash : ∀ k ∈ Manifest.wayKeys, (('/' : Char) : CodePoint) ∉ k := by decide
  intro hmem
  refine hslash _ hmem ?_
  rw [key_eq]
  exact List.mem_append_right _ List.mem_cons_self

theorem grown_storeFields {r : List Text} (hr : r ⊆ Manifest.wayKeys) (fs : List (Field × Value)) (es : Entries) :
    Value.Grown Entries.annotationsPath r (.map es) (.map (d.schema.storeFields fs es).value) := by
  induction fs generalizing es with
  | nil => exact .refl _ _ _
  | cons x fs ih =>
    obtain ⟨f, w⟩ := x
    rw [Schema.storeFields]
    split
    · exact ih es
    · split
      · exact .refl _ _ _
      · refine Value.Grown.trans (.set fun r' heq => ?_) (ih _)
        exact (d.key_not_mem_wayKeys f (hr (heq ▸ List.mem_cons_self))).elim

/-- A descriptor is stored under no key that may be on the way to a resource. -/
theorem leavesWays_store (family : Family) (descriptor : Value) :
    Manifest.LeavesWays (d.schema.store family descriptor) := by
  intro v r hr
  unfold Schema.store
  split
  · next es =>
    simp only [Outcome.map, Schema.storeEntries]
    split
    · exact .refl _ _ _
    · exact .refl _ _ _
    · exact d.grown_storeFields hr _ es
  · split <;> exact .refl _ _ _

end Domain

namespace Slot

/-- A slot whose annotations have all fields that are not null, from one in which they were made if they were missing
or null. -/
def Complete (s : Schema) (fs : List (Field × Value)) (k k' : Slot) : Prop :=
  ∃ v v', k.opened? = some v ∧ k'.annotations? = some v' ∧ s.Filled fs v v'

/-- A slot where writing a descriptor failed. Either its metadata are no map and it is as it was, or its annotations
have what was stored before the failure, and if that is nothing, it is as it was but for maps that were made. -/
def Broken (s : Schema) (family : Family) (descriptor : Value) (e : Failure) (k k' : Slot) : Prop :=
  (k.opened? = none ∧ e = .noAttribute ∧ k' = k) ∨
    ∃ v v', k.opened? = some v ∧ k'.annotations? = some v' ∧ s.Broken family descriptor e v v' ∧
      (v' = v → k' = k.opened)

end Slot

namespace Target

/-- The slots of a target, in the order in which they are written to. -/
def slots : Target → List Slot
  | .manifest m => m.slots
  | .object annotations templates => (annotations :: templates).map .annotations
  | .plain _ => []

/-- A target that can be written to, in which no map is shared between two resources. -/
def Separate : Target → Prop
  | .manifest m => m.Separate
  | .object _ _ => True
  | .plain _ => False

/-- A target is as it was but for what writes to the first `n` of its resources reach. An object has nothing but its
slots. -/
def KeptBut (n : Nat) : Target → Target → Prop
  | .manifest m, .manifest m' => m.KeptBut (m.targets.take n) m'
  | .object _ _, .object _ _ => True
  | .plain v, .plain v' => v' = v
  | _, _ => False

variable {t : Target} {store : Value → Outcome Value} {e : Failure}

theorem changes_annotations (store : Value → Outcome Value) (v : Value) :
    Slot.Changes store (.annotations v) (.annotations (store v).value) (store v).result :=
  .opened rfl rfl fun _ _ hsame => congrArg Slot.annotations hsame

theorem storeEach_cut {vs : List Value} (he : (storeEach store vs).result = .error e) :
    ∃ n, Slot.Cut (Slot.Changes store) e n (vs.map .annotations) ((storeEach store vs).value.map .annotations) := by
  induction vs with
  | nil => cases he
  | cons v vs ih =>
    have hchanges := changes_annotations store v
    rw [storeEach] at he ⊢
    cases hr : (store v).result with
    | error f =>
      simp only [hr, Outcome.fail] at he ⊢
      cases he
      exact ⟨1, .here (hr ▸ hchanges) _⟩
    | ok u =>
      simp only [hr, Outcome.map] at he ⊢
      obtain ⟨n, hcut⟩ := ih he
      exact ⟨n + 1, .later (hr ▸ hchanges) hcut⟩

variable {d : Domain} {family : Family} {descriptor : Value}

/-- A write to a target is cut where it fails, and reaches nothing outside of the resources up to the cut. -/
theorem annotate_cut (ht : t.Separate) (he : (t.annotate d.schema family descriptor).result = .error e) :
    ∃ n, Slot.Cut (Slot.Changes (d.schema.store family descriptor)) e n t.slots
        (t.annotate d.schema family descriptor).value.slots ∧
      t.KeptBut n (t.annotate d.schema family descriptor).value := by
  cases t with
  | manifest m =>
    refine Manifest.updateResources_all_cut ht (d.leavesWays_store family descriptor) (fun v hv u e he => ?_) he
    exact (Schema.store_error_of_ok hv he).2.1
  | object a ts =>
    have hchanges := changes_annotations (d.schema.store family descriptor) a
    simp only [annotate] at he ⊢
    cases hr : (d.schema.store family descriptor a).result with
    | error f =>
      simp only [hr, Outcome.fail] at he ⊢
      cases he
      exact ⟨1, .here (hr ▸ hchanges) _, trivial⟩
    | ok u =>
      simp only [hr, Outcome.map] at he ⊢
      obtain ⟨n, hcut⟩ := storeEach_cut he
      exact ⟨n + 1, .later (hr ▸ hchanges) hcut, trivial⟩
  | plain v => exact ht.elim

end Target

namespace Slot

variable {d : Domain} {family : Family} {descriptor : Value} {e : Failure} {k k' : Slot}

theorem Changes.complete (h : Changes (d.schema.store family descriptor) k k' (.ok ())) :
    Complete d.schema descriptor.fields k k' := by
  obtain ⟨v, hopen, hok, hv⟩ := h.of_ok
  rcases Schema.store_cases d family descriptor v with ⟨v', hs, hfilled⟩ | ⟨e, v', hs, -⟩
  · rw [hs] at hv
    exact ⟨v, v', hopen, hv, hfilled⟩
  · rw [hs] at hok
    cases hok

theorem Changes.broken (h : Changes (d.schema.store family descriptor) k k' (.error e)) :
    Broken d.schema family descriptor e k k' := by
  rcases h.of_error with hclosed | ⟨v, hopen, he, hv, hsame⟩
  · exact .inl hclosed
  · rcases Schema.store_cases d family descriptor v with ⟨v', hs, -⟩ | ⟨e', v', hs, hbroken⟩
    · rw [hs] at he
      cases he
    · rw [hs] at he hv hsame
      cases he
      exact .inr ⟨v, v', hopen, hv, hbroken, hsame⟩

end Slot

/-- Annotating that fails leaves a clean cut through the slots of a target. Those before the cut have all fields of the
descriptor that are not null, the one where it failed has those before the field that failed or none, and those after it
are as they were. Outside of the annotations up to the cut all is as it was. If the failure lies in the descriptor, the cut
is at the first slot. -/
theorem Target.annotate_clean_cut (d : Domain) (family : Family) (descriptor : Value) (t : Target) (ht : t.Separate)
    (e : Failure) (he : (t.annotate d.schema family descriptor).result = .error e) :
    ∃ before k after before' k', t.slots = before ++ k :: after ∧
      (t.annotate d.schema family descriptor).value.slots = before' ++ k' :: after ∧
      List.Forall₂ (Slot.Complete d.schema descriptor.fields) before before' ∧
      k.Broken d.schema family descriptor e k' ∧
      t.KeptBut (before.length + 1) (t.annotate d.schema family descriptor).value ∧
      (e.LiesInDescriptor → before = []) := by
  obtain ⟨n, hcut, hkept⟩ := Target.annotate_cut ht he
  obtain ⟨before, k, after, before', k', rfl, hslots, hslots', hbefore, hk⟩ := hcut.split
  refine ⟨before, k, after, before', k', hslots, hslots', hbefore.imp fun _ _ h => h.complete, hk.broken, hkept, ?_⟩
  intro hlies
  cases hbefore with
  | nil => rfl
  | cons h _ =>
    -- What was stored once fails later for other reasons only.
    obtain ⟨v, -, hok, -⟩ := h.of_ok
    rcases hk.of_error with ⟨-, rfl, -⟩ | ⟨u, -, hu, -, -⟩
    · exact hlies.elim
    · rw [(Schema.store_error_of_ok hok hu).1] at hlies
      exact hlies.elim

/-- A deployment whose annotations are found at another place, too, and whose template has no metadata. -/
def sharing : Manifest where
  entries := [(.str (text "metadata"), .map [(.str (text "annotations"), .map [])]), (.str (text "copy"), .map []),
    (.str (text "spec"), .map [(.str (text "template"), .map [])])]
  shared := [[[0, 0], [1]]]
  endless := false

theorem separate_sharing : sharing.Separate := by
  constructor
  · intro g hg
    obtain rfl := List.mem_singleton.mp hg
    refine ⟨[], fun x hx => ?_⟩
    rcases List.mem_pair.mp hx with rfl | rfl <;> rfl
  · intro g hg p hp s hs x hx hplace q hq hqp y hy hne
    obtain rfl := List.mem_singleton.mp hg
    -- The only map of a resource that is shared is the one that the annotations of the deployment are.
    have hown : ∀ p ∈ sharing.targets, ∀ s ∈ Manifest.ownPaths, ∀ x ∈ [[0, 0], [1]],
        sharing.entries.placeAlong? (p ++ s) = some x → p = [] ∧ x = [0, 0] := by decide
    obtain ⟨rfl, rfl⟩ := hown p hp s hs x hx hplace
    obtain rfl : y = [1] := (List.mem_pair.mp hy).resolve_left hne
    have hspec : Entries.index? sharing.entries (text "spec") ≠ some 1 := by decide
    have htargets : sharing.targets = [[], [text "spec", text "template"]] := by decide
    rw [htargets] at hq
    obtain rfl := (List.mem_pair.mp hq).resolve_left hqp
    exact Value.off_cons_iff.mpr fun hi => (hspec hi).elim

theorem outside_sharing : sharing.Outside [] (keys [text "spec"]) := by
  refine ⟨apart_keys_iff.mpr (by decide), fun g hg s hs x hx hplace y hy hne => ?_⟩
  obtain rfl := List.mem_singleton.mp hg
  -- The specification is entry number 2, and both places are in other ones.
  have hspec : sharing.toValue.subscript? (.str (text "spec")) = some 2 :=
    (Entries.subscript?_str _ _).trans (by decide)
  have hbeside : ∀ i c z, sharing.toValue.children[i]? = some c → i ≠ 2 →
      Value.Beside (keys [text "spec"]) (i :: z) sharing.toValue := by
    intro i c z hc hi
    refine Value.beside_cons_iff.mpr ⟨c, hc, fun hi' => ?_⟩
    rw [hspec] at hi'
    exact (hi (Option.some.inj hi').symm).elim
  rcases List.mem_pair.mp hy with rfl | rfl
  · exact hbeside 0 _ _ rfl (by decide)
  · exact hbeside 1 _ _ rfl (by decide)

/-- The cluster is stored before the application, which is no text, and the template is as it was. -/
theorem annotate_clean_cut_sharing : ∃ d : Domain, d.label = text "spinnaker.io" ∧
    let descriptor : Value := .descriptor (.moniker ⟨.list [], .str (text "c"), .null, .null, .null⟩)
    let e : Failure := .encoding (.str (d.schema.key .app)) (.shape .string (.list []))
    let o := (Target.manifest sharing).annotate d.schema .moniker descriptor
    o.result = .error e ∧ (∃ k', o.value.slots = [k', .resource none] ∧ Slot.Broken d.schema .moniker descriptor e
      (.resource (some (.map [(.str (text "annotations"), .map [])]))) k') ∧
    o.value.toValue.inside? (keys [text "spec"]) = some (.map [(.str (text "template"), .map [])]) := by
  refine ⟨⟨text "spinnaker.io", by decide, by decide⟩, rfl, ?_⟩
  intro descriptor e o
  have he : o.result = .error e := rfl
  obtain ⟨before, k, after, before', k', hslots, hslots', hbefore, hk, hkept, hfirst⟩ :=
    Target.annotate_clean_cut _ .moniker descriptor (.manifest sharing) separate_sharing e he
  obtain rfl := hfirst trivial
  cases hbefore
  have hs : (Target.manifest sharing).slots =
    [.resource (some (.map [(.str (text "annotations"), .map [])])), .resource none] := rfl
  rw [hs] at hslots
  obtain ⟨rfl, rfl⟩ := List.cons.inj hslots
  refine ⟨he, ⟨k', hslots', hk⟩, ?_⟩
  have hwritten : ∀ p ∈ sharing.targets.take 1, sharing.Outside p (keys [text "spec"]) := by
    intro p hp
    obtain rfl : p = [] := List.mem_singleton.mp hp
    exact outside_sharing
  refine (hkept.kept _ hwritten).inside.trans ?_
  rw [keys, List.map_singleton, Manifest.toValue, Value.inside?_map, Entries.valueAt?_str]
  rfl

end AnnotationCodec
