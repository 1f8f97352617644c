import AnnotationCodec.Proofs.Manifest.Slot

/-!
Maps that are found at several places of a manifest. What is written to a resource is copied to all places of its maps,
and it does not reach another resource unless a map is shared between the two.
-/
namespace AnnotationCodec.Manifest

open Entries (annotationsPath entryAlong?)
open Value (Off Grown)

/-- The ways from a resource to its own maps: to itself, its metadata and its annotations. -/
def ownPaths : List (List Text) :=
  [[], [text "metadata"], annotationsPath]

/-- The keys on the ways to resources. -/
def wayKeys : List Text :=
  [text "spec", text "jobTemplate", text "template"]

/-- The places that share a map hold the same one. -/
def Coherent (m : Manifest) : Prop :=
  ∀ g ∈ m.shared, ∃ es, ∀ x ∈ g, m.toValue.at? x = some (.map es)

/-- No map is shared between two resources. A map of one of them may well be found at other places, but not on the way
to the metadata of another one, nor in them. -/
structure Separate (m : Manifest) : Prop where
  /-- The places that share a map hold the same one. -/
  same : ∀ g ∈ m.shared, ∃ es, ∀ x ∈ g, m.toValue.at? x = some (.map es)
  apart : ∀ g ∈ m.shared, ∀ p ∈ m.targets, ∀ s ∈ ownPaths, ∀ x ∈ g, m.entries.placeAlong? (p ++ s) = some x →
    ∀ q ∈ m.targets, q ≠ p → ∀ y ∈ g, y ≠ x → Off (q ++ [text "metadata"]) y m.toValue

/-- A map that is shared between two resources is the same part of both. A map of one of them may well be found at other
places, but neither on the way to the annotations of another one as a different part, nor in them. -/
structure Aligned (m : Manifest) : Prop where
  same : ∀ g ∈ m.shared, ∃ es, ∀ x ∈ g, m.toValue.at? x = some (.map es)
  parts : ∀ g ∈ m.shared, ∀ p ∈ m.targets, ∀ s ∈ ownPaths, ∀ x ∈ g, m.entries.placeAlong? (p ++ s) = some x →
    ∀ q ∈ m.targets, q ≠ p → ∀ y ∈ g, y ≠ x →
      m.entries.placeAlong? (q ++ s) = some y ∨ Off (q ++ annotationsPath) y m.toValue

/-- What a manifest may grow to when annotations are written: nothing new is on a way that leads on from the own maps
of a resource to other ones. -/
def GrowsTo (m : Manifest) (v : Value) : Prop :=
  ∀ p ∈ m.targets, ∀ s ∈ ownPaths, ∀ r ⊆ wayKeys, Grown annotationsPath (p ++ s ++ r) m.toValue v

/-- A manifest comes from another one by changes that let it grow. -/
structure Follows (m₀ m : Manifest) : Prop where
  shared : m.shared = m₀.shared
  grown : m₀.GrowsTo m.toValue

variable {m₀ m m' : Manifest} {p q s w : List Text} {k : Text} {x y : Place} {g : List Place} {u v : Value}

theorem mem_targets_iff : q ∈ m.targets ↔ q ∈ resourcePaths ∧ (m.entries.descend? q).isSome := by
  rw [targets_eq_filter, List.mem_filter, resourcePaths]

theorem nil_mem_targets (m : Manifest) : [] ∈ m.targets :=
  List.mem_cons_self

theorem mem_resourcePaths (h : q ∈ m.targets) : q ∈ resourcePaths :=
  (mem_targets_iff.mp h).1

theorem subset_wayKeys (h : q ∈ resourcePaths) : q ⊆ wayKeys := by
  have hall : ∀ q ∈ resourcePaths, ∀ k ∈ q, k ∈ wayKeys := by decide
  exact fun k hk => hall q h k hk

theorem GrowsTo.refl (m : Manifest) : m.GrowsTo m.toValue :=
  fun _ _ _ _ _ _ => Grown.refl _ _ _

theorem GrowsTo.own (h : m.GrowsTo v) (hp : p ∈ m.targets) (hs : s ∈ ownPaths) :
    Grown annotationsPath (p ++ s) m.toValue v :=
  Grown.of_append (h p hp s hs [] (List.nil_subset _))

theorem GrowsTo.way (h : m.GrowsTo v) (hw : w ⊆ wayKeys) : Grown annotationsPath w m.toValue v :=
  h [] (nil_mem_targets m) [] List.mem_cons_self w hw

theorem GrowsTo.exists_map (h : m.GrowsTo v) : ∃ es, v = .map es :=
  (h.way (w := [text "spec"]) (by decide)).imp fun _ hes => hes.1

theorem Follows.refl (m : Manifest) : Follows m m :=
  ⟨rfl, .refl m⟩

/-- Where there was no resource, none comes. -/
theorem Follows.descend?_eq_none (hf : Follows m₀ m) (hq : q ∈ resourcePaths) (hnone : m₀.entries.descend? q = none) :
    m.entries.descend? q = none := by
  have hkeys : ∀ k ∈ wayKeys, k ∉ annotationsPath := by decide
  refine Entries.descend?_of_grown (hf.grown.way (subset_wayKeys hq)) (fun k hk => hkeys k ?_) hnone
  exact subset_wayKeys hq hk

theorem prefix_of_mem_ownPaths (hs : s ∈ ownPaths) (p : List Text) : p ++ s <+: p ++ annotationsPath := by
  refine (List.prefix_append_right_inj p).mpr ?_
  revert s
  decide

/-- Where no map is shared between resources, none is so as different parts. -/
theorem Separate.aligned (h : m.Separate) : m.Aligned where
  same := h.same
  parts g hg p hp s hs x hx hplace q hq hqp y hy hne := by
    have hoff := (h.apart g hg p hp s hs x hx hplace q hq hqp y hy hne).append [text "annotations"]
    rw [List.append_assoc] at hoff
    exact .inr hoff

/-- A map of the resource along `p` that is found at `x`, and another place where it is found. -/
structure Copied (m : Manifest) (p s : List Text) (x y : Place) : Prop where
  source : m.entries.placeAlong? (p ++ s) = some x
  same : ∃ es, m.toValue.at? x = some (.map es) ∧ m.toValue.at? y = some (.map es)
  own : Off (p ++ annotationsPath) y m.toValue
  others : ∀ q ∈ m.targets, q ≠ p →
    m.entries.placeAlong? (q ++ s) = some y ∨ Off (q ++ annotationsPath) y m.toValue

/-- A map that a path leads to is found again neither on the way nor in itself. -/
theorem off_of_placeAlong? {es : Entries} (hx : m.entries.placeAlong? w = some x) (hxes : m.toValue.at? x = some (.map es))
    (hyes : m.toValue.at? y = some (.map es)) (hne : y ≠ x) : Off w y m.toValue :=
  Entries.off_of_placeAlong? hx (Value.not_prefix_of_at? hxes hyes hne.symm) (Value.not_prefix_of_at? hyes hxes hne)

/-- The places to which a map of the resource along `p` is copied are off its annotations, and for every other resource
they are the same part of it or off its annotations. -/
theorem Aligned.copied (h : m.Aligned) (hp : p ∈ m.targets) (hs : s ∈ ownPaths) (hx : m.entries.placeAlong? (p ++ s) = some x)
    (hg : g ∈ m.shared) (hxg : x ∈ g) (hy : y ∈ g) (hne : y ≠ x) : Copied m p s x y := by
  obtain ⟨es, hes⟩ := h.same g hg
  obtain ⟨r, hr⟩ := prefix_of_mem_ownPaths hs p
  refine ⟨hx, ⟨es, hes x hxg, hes y hy⟩, ?_, fun q hq hqp => h.parts g hg p hp s hs x hxg hx q hq hqp y hy hne⟩
  rw [← hr]
  exact (off_of_placeAlong? hx (hes x hxg) (hes y hy) hne).append r

/-- Where a way meets the place of a copy, the rest of it is a way from the map that is copied. -/
theorem Copied.rest (h : Copied m p s x y) (hs : s ∈ ownPaths) (hq : q ∈ m.targets) {s' r w₁ w₂ : List Text} (hs' : s' ∈ ownPaths)
    (hr : r ⊆ wayKeys) (hw : q ++ s' ++ r = w₁ ++ w₂) (hplace : m.entries.placeAlong? w₁ = some y) :
    ∃ s'' r', w₂ = s'' ++ r' ∧ s ++ s'' ∈ ownPaths ∧ r' ⊆ wayKeys := by
  rcases List.append_eq_append_iff.mp hw with ⟨a, rfl, rfl⟩ | ⟨c, hc, rfl⟩
  · exact ⟨[], w₂, rfl, by rwa [List.append_nil], List.Subset.trans (List.subset_append_right _ _) hr⟩
  have hprefix : w₁ <+: q ++ annotationsPath := List.IsPrefix.trans ⟨c, hc.symm⟩ (prefix_of_mem_ownPaths hs' q)
  have hmet : ¬ Off (q ++ annotationsPath) y m.toValue := by
    obtain ⟨r, hr⟩ := hprefix
    rw [← hr]
    exact fun hoff => Entries.placeAlong?_ne_of_off hoff hplace
  have hpart : m.entries.placeAlong? (q ++ s) = some y := by
    by_cases hqp : q = p
    · subst hqp
      exact (hmet h.own).elim
    · exact (h.others q hq hqp).resolve_right hmet
  have hlength : w₁.length = (q ++ s).length :=
    (Entries.length_placeAlong? hplace).symm.trans (Entries.length_placeAlong? hpart)
  have hsame : w₁ = q ++ s := (List.prefix_of_prefix_length_le hprefix (prefix_of_mem_ownPaths hs q) hlength.le).eq_of_length hlength
  rw [hsame, List.append_assoc] at hc
  obtain rfl := List.append_cancel_left hc
  exact ⟨c, r, rfl, hs', hr⟩

/-- Copying a map of a resource, as it has grown, lets a manifest grow. -/
theorem Copied.growsTo_putAt (h : Copied m p s x y) (hp : p ∈ m.targets) (hs : s ∈ ownPaths) {source : Value}
    (hsource : m.GrowsTo source) (hu : source.at? x = some u) (hv : m.GrowsTo v) : m.GrowsTo (Value.putAt y u v) := by
  obtain ⟨es, hx, hy⟩ := h.same
  obtain ⟨es', rfl⟩ := hsource.exists_map
  have hgrown : ∀ s' r, s ++ s' ∈ ownPaths → r ⊆ wayKeys → Grown annotationsPath (s' ++ r) (.map es) u := by
    intro s' r hs' hr
    have hway := hsource p hp (s ++ s') hs' r hr
    rw [← List.append_assoc, List.append_assoc] at hway
    exact Entries.grown_at? hway h.source hx hu
  obtain ⟨new, rfl⟩ : ∃ new, u = .map new :=
    (hgrown [] [text "spec"] (by rwa [List.append_nil]) (by decide)).imp fun _ hnew => hnew.1
  intro q hq s' hs' r hr
  refine Entries.grown_putAt (hv q hq s' hs' r hr) hy ?_
  rintro _ hes w₁ w₂ hw hplace
  cases hes
  obtain ⟨s'', r', rfl, hs'', hr'⟩ := h.rest hs hq hs' hr hw hplace
  exact hgrown s'' r' hs'' hr'

/-- What holds of the value of a manifest holds of it after spreading, if it is preserved when something is copied to
another place. -/
theorem spread_preserves {P : Value → Prop} (hm : P m.toValue)
    (hput : ∀ g ∈ m.shared, x ∈ g → ∀ y ∈ g, y ≠ x → ∀ source u, P source → source.at? x = some u → ∀ v, P v →
      P (Value.putAt y u v)) :
    P (m.spread x).toValue ∧ (m.spread x).shared = m.shared := by
  have hcopy : ∀ g ∈ m.shared, x ∈ g → ∀ v, P v → P (Value.copyTo x g v) := by
    intro g hg hxg source hsource
    unfold Value.copyTo
    split
    · exact hsource
    · next u hu =>
      refine List.foldlRecOn g _ hsource fun v hv y hy => ?_
      split
      · split
        · exact hv
        · next hne => exact hput g hg hxg y hy hne source u hsource hu v hv
      · exact hv
  refine List.foldlRecOn m.shared _ (motive := fun m' : Manifest => P m'.toValue ∧ m'.shared = m.shared) ⟨hm, rfl⟩
    fun m' hm' g hg => ?_
  by_cases hxg : g.contains x = true
  · simp only [hxg, if_true]
    have hv := hcopy g hg (List.contains_iff_mem.mp hxg) _ hm'.1
    split
    · next es hes =>
      rw [hes] at hv
      exact ⟨hv, hm'.2⟩
    · exact hm'
  · simpa only [hxg, Bool.false_eq_true, if_false] using hm'

/-- Spreading changes nothing where every copy is the same already. -/
theorem spread_eq_self (h : ∀ g ∈ m.shared, x ∈ g → ∀ y ∈ g, m.toValue.at? y = m.toValue.at? x) :
    m.spread x = m := by
  have hcopy : ∀ g ∈ m.shared, x ∈ g → Value.copyTo x g m.toValue = m.toValue := by
    intro g hg hxg
    unfold Value.copyTo
    split
    · rfl
    · next u hu =>
      refine List.foldlRecOn g _ (motive := fun v => v = m.toValue) rfl fun v hv y hy => ?_
      subst hv
      split
      · split
        · rfl
        · exact Value.putAt_of_at? ((h g hg hxg y hy).trans hu)
      · rfl
  refine List.foldlRecOn m.shared _ (motive := fun m' => m' = m) rfl fun m' hm' g hg => ?_
  subst hm'
  by_cases hxg : g.contains x = true
  · simp only [hxg, if_true, hcopy g hg (List.contains_iff_mem.mp hxg)]
    rfl
  · simp only [hxg]
    rfl

/-- Copies the map at the end of a path, if there is one, to all of its places. -/
def spreadAlong (path : List Text) (m : Manifest) : Manifest :=
  match m.entries.placeAlong? path with
  | none => m
  | some place => m.spread place

theorem spreadResource_eq (p : List Text) (m : Manifest) : m.spreadResource p =
    spreadAlong (p ++ annotationsPath) (spreadAlong (p ++ [text "metadata"]) (spreadAlong (p ++ []) m)) :=
  rfl

/-- What holds of the value of a manifest holds of it after spreading a map of a resource, if it is preserved when the map
is copied to another place, and the manifest grows. -/
theorem spreadAlong_preserves (h : m₀.Aligned) (hf : Follows m₀ m) (hp : p ∈ m₀.targets) (hs : s ∈ ownPaths) {P : Value → Prop}
    (hm : P m.toValue)
    (hput : ∀ g ∈ m₀.shared, ∀ x ∈ g, m₀.entries.placeAlong? (p ++ s) = some x → ∀ y ∈ g, y ≠ x → ∀ source u v,
      m₀.GrowsTo source → P source → source.at? x = some u → m₀.GrowsTo v → P v → P (Value.putAt y u v)) :
    Follows m₀ (spreadAlong (p ++ s) m) ∧ P (spreadAlong (p ++ s) m).toValue := by
  unfold spreadAlong
  split
  · exact ⟨hf, hm⟩
  next x hx =>
  have hspread := spread_preserves (m := m) (x := x) (P := fun v => m₀.GrowsTo v ∧ P v) ⟨hf.grown, hm⟩ ?_
  · exact ⟨⟨hspread.2.trans hf.shared, hspread.1.1⟩, hspread.1.2⟩
  rintro g hg hxg y hy hne source u ⟨hsource, hP⟩ hu v ⟨hv, hPv⟩
  rw [hf.shared] at hg
  obtain ⟨es, hes⟩ := h.same g hg
  have hx₀ := Entries.placeAlong?_of_grown (hf.grown.own hp hs) hx (hes x hxg)
  exact ⟨(h.copied hp hs hx₀ hg hxg hy hne).growsTo_putAt hp hs hsource hu hv,
    hput g hg x hxg hx₀ y hy hne source u v hsource hP hu hv hPv⟩

/-- Spreading reaches no key that the places of the map are off. -/
theorem spreadAlong_keeps (h : m₀.Separate) (hf : Follows m₀ m) (hp : p ∈ m₀.targets) (hs : s ∈ ownPaths) :
    Follows m₀ (spreadAlong (p ++ s) m) ∧ ∀ w k, (∃ q ∈ m₀.targets, w ++ [k] <+: q ++ annotationsPath) →
      (∀ y v, Off (p ++ s) y v → (∀ q ∈ m₀.targets, q ≠ p → Off (q ++ [text "metadata"]) y v) →
        Off (w ++ [k]) y v) →
      entryAlong? w k (spreadAlong (p ++ s) m).entries = entryAlong? w k m.entries := by
  have hspread := spreadAlong_preserves (m := m) (P := fun v => ∃ es, v = .map es ∧
      ∀ w k, (∃ q ∈ m₀.targets, w ++ [k] <+: q ++ annotationsPath) →
        (∀ y v, Off (p ++ s) y v → (∀ q ∈ m₀.targets, q ≠ p → Off (q ++ [text "metadata"]) y v) →
          Off (w ++ [k]) y v) →
        entryAlong? w k es = entryAlong? w k m.entries)
    h.aligned hf hp hs ⟨m.entries, rfl, fun _ _ _ _ => rfl⟩ ?_
  · obtain ⟨hfollows, es, hes, hkeys⟩ := hspread
    cases hes
    exact ⟨hfollows, hkeys⟩
  rintro g hg x hxg hx y hy hne source u v hsource - hu hgrown ⟨es, rfl, hkeys⟩
  obtain ⟨old, hold⟩ := h.same g hg
  have hput := (h.aligned.copied hp hs hx hg hxg hy hne).growsTo_putAt hp hs hsource hu hgrown
  obtain ⟨es', hes'⟩ := hput.exists_map
  refine ⟨es', hes', fun w k hwk hkey => ?_⟩
  obtain ⟨q, hq, r, hr⟩ := hwk
  have hgrownKey : Grown annotationsPath (w ++ [k]) m₀.toValue (.map es) := Grown.of_append (r := r) (by
    rw [hr]
    exact hgrown.own hq (by decide))
  have hsome : (m₀.toValue.at? y).isSome := by
    rw [hold y hy]
    rfl
  have hoff₀ := hkey y _ (off_of_placeAlong? hx (hold x hxg) (hold y hy) hne) fun q hq hqp =>
    h.apart g hg p hp s hs x hxg hx q hq hqp y hy hne
  obtain ⟨es'', hes'', hsame⟩ := Entries.entryAlong?_putAt (hoff₀.grown hsome hgrownKey) u
  obtain rfl : es' = es'' := Value.map.inj (hes'.symm.trans hes'')
  rw [hsame]
  exact hkeys w k ⟨q, hq, r, hr⟩ hkey

theorem slot?_eq (p : List Text) (m : Manifest) :
    m.slot? p = (entryAlong? p (text "metadata") m.entries).map Slot.resource := by
  rw [slot?, entryAlong?, Option.map_map]
  rfl

/-- What spreading the maps of the resource along `p` leaves as it was: the slots of all other resources and the
annotations of the resource itself. -/
structure Spared (m₀ : Manifest) (p : List Text) (m m' : Manifest) : Prop where
  follows : Follows m₀ m'
  others : ∀ q ∈ resourcePaths, q ≠ p → m'.slot? q = m.slot? q
  own : entryAlong? (p ++ [text "metadata"]) (text "annotations") m'.entries =
    entryAlong? (p ++ [text "metadata"]) (text "annotations") m.entries

theorem Spared.trans {m'' : Manifest} (h : Spared m₀ p m m') (h' : Spared m₀ p m' m'') : Spared m₀ p m m'' :=
  ⟨h'.follows, fun q hq hqp => (h'.others q hq hqp).trans (h.others q hq hqp), h'.own.trans h.own⟩

theorem spared_spreadAlong (h : m₀.Separate) (hf : Follows m₀ m) (hp : p ∈ m₀.targets) (hs : s ∈ ownPaths) :
    Spared m₀ p m (spreadAlong (p ++ s) m) := by
  obtain ⟨hfollows, hkeys⟩ := spreadAlong_keeps h hf hp hs
  refine ⟨hfollows, fun q hq hqp => ?_, ?_⟩
  · cases hd : m₀.entries.descend? q with
    | none => rw [slot?, slot?, hfollows.descend?_eq_none hq hd, hf.descend?_eq_none hq hd]
    | some sub =>
      have hq : q ∈ m₀.targets := mem_targets_iff.mpr ⟨hq, by rw [hd]; rfl⟩
      rw [slot?_eq, slot?_eq]
      refine congrArg _ (hkeys q _ ⟨q, hq, ?_⟩ fun y v _ hothers => hothers q hq hqp)
      exact prefix_of_mem_ownPaths (by decide) q
  · have hpath : p ++ [text "metadata"] ++ [text "annotations"] = p ++ annotationsPath := List.append_assoc ..
    refine hkeys _ _ ⟨p, hp, by rw [hpath]⟩ fun y v hown _ => ?_
    obtain ⟨r, hr⟩ := prefix_of_mem_ownPaths hs p
    rw [hpath, ← hr]
    exact hown.append r

/-- Neither a resource itself nor its metadata are reached when they are spread. -/
theorem slot?_spreadAlong (h : m₀.Separate) (hf : Follows m₀ m) (hp : p ∈ m₀.targets)
    (hs : s ∈ [[], [text "metadata"]]) : (spreadAlong (p ++ s) m).slot? p = m.slot? p := by
  have hmem : s ∈ ownPaths := by
    revert s
    decide
  have hprefix : s <+: [text "metadata"] := by
    revert s
    decide
  rw [slot?_eq, slot?_eq]
  refine congrArg _ ((spreadAlong_keeps h hf hp hmem).2 p _ ⟨p, hp, ?_⟩ fun y v hown _ => ?_)
  · exact prefix_of_mem_ownPaths (by decide) p
  · obtain ⟨r, hr⟩ := hprefix
    rw [← hr, ← List.append_assoc]
    exact hown.append r

/-- A path that did not lead to a map in the beginning leads to nothing that is shared. -/
theorem spreadAlong_of_no_map (h : m₀.Aligned) (hf : Follows m₀ m)
    (hgrown : Grown annotationsPath w m₀.toValue m.toValue) (hmap : m₀.entries.descend? w = none) :
    spreadAlong w m = m := by
  unfold spreadAlong
  split
  · rfl
  next x hx =>
  refine spread_eq_self fun g hg hxg => ?_
  rw [hf.shared] at hg
  obtain ⟨es, hes⟩ := h.same g hg
  have hx₀ := Entries.placeAlong?_of_grown hgrown hx (hes x hxg)
  rw [Entries.descend?_of_placeAlong? hx₀ (hes x hxg)] at hmap
  cases hmap

/-- Annotations that were no map in the beginning are not shared. -/
theorem spreadAlong_annotations (h : m₀.Aligned) (hf : Follows m₀ m) (hp : p ∈ m₀.targets)
    (hmap : ∀ es, entryAlong? (p ++ [text "metadata"]) (text "annotations") m₀.entries ≠ some (some (.map es))) :
    spreadAlong (p ++ annotationsPath) m = m := by
  refine spreadAlong_of_no_map h hf (hf.grown.own hp (by decide)) ?_
  refine Option.eq_none_iff_forall_ne_some.mpr fun es hes => hmap es (Entries.entryAlong?_of_descend? ?_)
  rw [List.append_assoc]
  exact hes

/-- Where there is no resource, nothing is spread. -/
theorem spreadResource_of_absent (h : m₀.Aligned) (hf : Follows m₀ m) (hp : p ∈ resourcePaths)
    (hnone : m₀.entries.descend? p = none) : m.spreadResource p = m := by
  have hown : ∀ k r, spreadAlong (p ++ k :: r) m = m := by
    intro k r
    unfold spreadAlong
    split
    · rfl
    · next x hx =>
      have hsome := Entries.isSome_descend?_of_placeAlong? hx
      rw [hf.descend?_eq_none hp hnone] at hsome
      cases hsome
  have hself : spreadAlong (p ++ []) m = m := by
    rw [List.append_nil]
    exact spreadAlong_of_no_map h hf (hf.grown.way (subset_wayKeys hp)) hnone
  rw [spreadResource_eq, hself, hown, annotationsPath, hown]

theorem coherent_of_shared_eq_nil (h : m.shared = []) : m.Coherent := by
  simp [Coherent, h]

theorem separate_of_shared_eq_nil (h : m.shared = []) : m.Separate := by
  constructor <;> simp [h]

/-- Nothing is spread in a manifest that has not been changed. -/
theorem spreadAlong_self (h : m.Coherent) (path : List Text) : spreadAlong path m = m := by
  unfold spreadAlong
  split
  · rfl
  · refine spread_eq_self fun g hg hxg y hy => ?_
    obtain ⟨es, hes⟩ := h g hg
    rw [hes y hy, hes _ hxg]

theorem spreadResource_self (h : m.Coherent) (p : List Text) : m.spreadResource p = m := by
  rw [spreadResource_eq, spreadAlong_self h, spreadAlong_self h, spreadAlong_self h]

/-- Spreading the maps of a resource leaves all other slots as they were, and its own annotations. -/
theorem spared_spreadResource (h : m₀.Separate) (hf : Follows m₀ m) (hp : p ∈ m₀.targets) :
    Spared m₀ p m (m.spreadResource p) := by
  have h₁ := spared_spreadAlong (s := []) h hf hp (by decide)
  have h₂ := spared_spreadAlong (s := [text "metadata"]) h h₁.follows hp (by decide)
  have h₃ := spared_spreadAlong (s := annotationsPath) h h₂.follows hp (by decide)
  exact (h₁.trans h₂).trans h₃

/-- A resource whose annotations were no map in the beginning is not reached when it is spread. -/
theorem slot?_spreadResource (h : m₀.Separate) (hf : Follows m₀ m) (hp : p ∈ m₀.targets)
    (hmap : ∀ es, entryAlong? (p ++ [text "metadata"]) (text "annotations") m₀.entries ≠ some (some (.map es))) :
    (m.spreadResource p).slot? p = m.slot? p := by
  have h₁ := spared_spreadAlong (s := []) h hf hp (by decide)
  have h₂ := spared_spreadAlong (s := [text "metadata"]) h h₁.follows hp (by decide)
  rw [spreadResource_eq, spreadAlong_annotations h.aligned h₂.follows hp hmap,
    slot?_spreadAlong (s := [text "metadata"]) h h₁.follows hp (by simp),
    slot?_spreadAlong (s := []) h hf hp (by simp)]

end AnnotationCodec.Manifest
