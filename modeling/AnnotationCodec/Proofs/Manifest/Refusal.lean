import AnnotationCodec.Proofs.Manifest.Opening

/-!
Descriptors that are refused: none where one has to be, or one of another family. Whether a descriptor is refused is found out
at the first resource, when its annotations are open already, so that they are made if they were missing, and nothing else
happens.
-/
namespace AnnotationCodec

/-- The failures of a value that is no descriptor of its family. -/
def Failure.IsRefusal : Failure → Prop
  | .missingDescriptor | .wrongDescriptor _ _ => True
  | _ => False

variable {s : Schema} {family : Family} {descriptor : Value} {e : Failure}

theorem Failure.not_isRefusal_raised {f : Failure} (h : ¬ f.IsRefusal) : ¬ f.raised.IsRefusal := by
  rcases f.raised_cases with hr | hr
  · rw [hr]
    exact h
  · rw [hr]
    exact id

namespace Codec

/-- Whatever keeps a value from being encoded, it is no refusal of a descriptor. -/
theorem not_isRefusal_of_encode {key v : Value} {shape : Shape} (h : encode key shape v = .error e) : ¬ e.IsRefusal := by
  unfold encode at h
  split at h
  · cases h
    exact Failure.not_isRefusal_raised id
  · split at h
    · cases h
      exact Failure.not_isRefusal_raised id
    · split at h
      · cases h
        exact Failure.not_isRefusal_raised id
      · cases h

end Codec

namespace Schema

theorem not_isRefusal_of_storeFields {fs : List (Field × Value)} {es : Entries} (h : (s.storeFields fs es).result = .error e) :
    ¬ e.IsRefusal := by
  induction fs generalizing es with
  | nil => cases h
  | cons x fs ih =>
    obtain ⟨f, v⟩ := x
    rw [storeFields] at h
    split at h
    · exact ih h
    · split at h
      · next e' he =>
        cases h
        exact Codec.not_isRefusal_of_encode he
      · exact ih h

theorem not_isRefusal_of_storeNowhere {fs : List (Field × Value)} (h : s.storeNowhere fs = .error e) : ¬ e.IsRefusal := by
  induction fs with
  | nil => cases h
  | cons x fs ih =>
    obtain ⟨f, v⟩ := x
    rw [storeNowhere] at h
    split at h
    · exact ih h
    · cases he : Codec.encode (.str (s.key f)) f.shape v with
      | error e' =>
        rw [he] at h
        cases h
        exact Codec.not_isRefusal_of_encode he
      | ok t =>
        rw [he] at h
        cases h
        exact id

/-- Storing is refused only for the descriptor, whatever it would be stored into. -/
theorem descriptorFor_of_store {v : Value} (h : (s.store family descriptor v).result = .error e) (he : e.IsRefusal) :
    descriptorFor family descriptor = .error e := by
  rcases descriptorFor_cases family descriptor with ⟨e', he'⟩ | ⟨hnone, -⟩ | ⟨d, hsome, -⟩
  · rw [store_of_refused he'] at h
    cases h
    exact he'
  · unfold store at h
    split at h
    · rw [storeEntries, hnone] at h
      cases h
    · rw [hnone] at h
      cases h
  · unfold store at h
    split at h
    · rw [storeEntries, hsome] at h
      exact (not_isRefusal_of_storeFields h he).elim
    · rw [hsome] at h
      exact (not_isRefusal_of_storeNowhere h he).elim

end Schema

namespace Manifest

variable {m : Manifest} {md : Entries} {change : Value → Outcome Value}

theorem updateAnnotations_error {es : Entries} (h : (es.updateAnnotations change).result = .error e) :
    e = .noAttribute ∨ ∃ v, (change v).result = .error e := by
  cases hmd : Slot.entries? (es.get? (text "metadata")) with
  | none =>
    rw [Entries.updateAnnotations_of_closed hmd] at h
    cases h
    exact .inl rfl
  | some md =>
    rw [Entries.updateAnnotations_of_open hmd] at h
    exact .inr ⟨_, h⟩

/-- A change of one resource fails because the resource cannot be opened, or as the change does. -/
theorem updateResource_error {p : List Text} (h : (m.updateResource change p).result = .error e) :
    e = .noAttribute ∨ ∃ v, (change v).result = .error e := by
  rw [updateResource_eq] at h
  cases hd : m.entries.descend? p with
  | none =>
    rw [Entries.updateAlong_of_none _ hd] at h
    cases h
  | some sub =>
    rw [Entries.updateAlong_of_some _ hd] at h
    exact updateAnnotations_error h

theorem updateResources_error {paths : List (List Text)} (h : (updateResources change paths m).result = .error e) :
    e = .noAttribute ∨ ∃ v, (change v).result = .error e := by
  induction paths generalizing m with
  | nil => cases h
  | cons p paths ih =>
    cases hr : (m.updateResource change p).result with
    | error e' =>
      rw [updateResources_cons_of_error hr] at h
      cases h
      exact updateResource_error hr
    | ok u =>
      rw [updateResources_cons_of_ok hr] at h
      exact ih h

/-- Annotating is refused exactly if the descriptor is and the metadata can be opened. -/
theorem annotate_refused_iff (h : m.Coherent) (he : e.IsRefusal) : (m.annotate s family descriptor).result = .error e ↔
    Schema.descriptorFor family descriptor = .error e ∧ ∃ md, Slot.entries? (m.entries.get? (text "metadata")) = some md := by
  unfold annotate
  constructor
  · intro hr
    constructor
    · rcases updateResources_error hr with rfl | ⟨v, hv⟩
      · exact he.elim
      · exact Schema.descriptorFor_of_store hv he
    · by_contra hclosed
      have hnone := Option.eq_none_iff_forall_ne_some.mpr (not_exists.mp hclosed)
      have hfirst := updateResource_of_closed h hnone (s.store family descriptor)
      rw [updateResources_cons_of_error (congrArg Outcome.result hfirst)] at hr
      cases hr
      exact he
  · rintro ⟨hd, md, hmd⟩
    have hfirst : (m.updateResource (s.store family descriptor) []).result = .error e := by
      rw [updateResource_of_open hmd, Schema.store_of_refused hd]
      rfl
    rw [updateResources_cons_of_error hfirst]
    rfl

/-- A descriptor that is refused leaves the manifest as opening its annotations does. -/
theorem value_of_refused (hd : Schema.descriptorFor family descriptor = .error e)
    (hmd : Slot.entries? (m.entries.get? (text "metadata")) = some md) :
    (m.annotate s family descriptor).value = (m.updateResource .done []).value := by
  have hfirst : m.updateResource (s.store family descriptor) [] = .fail (m.updateResource .done []).value e := by
    rw [updateResource_of_open hmd, updateResource_of_open hmd, Schema.store_of_refused hd]
    rfl
  rw [annotate, updateResources_cons_of_error (congrArg Outcome.result hfirst), hfirst]
  rfl

/-- A descriptor that is refused is not stored anywhere: the manifest is left as it is when its annotations are opened for
writing. So it is as it was if there are annotations. If they are missing or null, they are made in its metadata, at all
places where these are found, and outside of them nothing else changes. Metadata that are found at no other place are the
only entry that changes. -/
theorem annotate_refused_opens (s : Schema) (family : Family) (descriptor : Value) (m : Manifest) (h : m.Coherent)
    (e : Failure) (he : e.IsRefusal) (hr : (m.annotate s family descriptor).result = .error e) :
    (Target.manifest m).openAnnotations.1 = .manifest (m.annotate s family descriptor).value ∧
    ∃ md, Slot.entries? (m.entries.get? (text "metadata")) = some md ∧
      (md.lookup "annotations" ≠ .null → (m.annotate s family descriptor).value = m) ∧
      (md.lookup "annotations" = .null →
        (m.annotate s family descriptor).value.entries.get? (text "metadata") =
          some (.map (md.set (text "annotations") (.map []))) ∧
        (∀ g ∈ m.shared, ∀ i, m.entries.index? (text "metadata") = some i → [i] ∈ g → ∀ y ∈ g,
          (m.annotate s family descriptor).value.toValue.at? y = some (.map (md.set (text "annotations") (.map [])))) ∧
        m.KeptBut [[]] (m.annotate s family descriptor).value ∧
        (m.OwnsMetadata → (m.annotate s family descriptor).value =
          m.withMetadata (md.set (text "annotations") (.map [])))) := by
  obtain ⟨hd, md, hmd⟩ := (annotate_refused_iff h he).mp hr
  have hopen : (Target.manifest m).openAnnotations.1 = .manifest (m.annotate s family descriptor).value := by
    rw [value_of_refused hd hmd]
    rfl
  refine ⟨hopen, md, hmd, fun hne => ?_, fun hnull => ?_⟩
  · rw [openAnnotations_of_present h hmd rfl hne] at hopen
    exact (Target.manifest.inj hopen).symm
  · obtain ⟨m', hm', hmade⟩ := openAnnotations_of_missing h hmd hnull
    rw [hm'] at hopen
    obtain rfl := Target.manifest.inj hopen
    exact ⟨hmade.found, hmade.copies, hmade.kept, hmade.owned⟩

/-- A workload whose metadata are also those of its template, and hold null for the annotations. -/
def oneMetadata : Manifest where
  entries := [(.str (text "metadata"), .map [(.str (text "annotations"), .null)]),
    (.str (text "spec"), .map [(.str (text "template"), .map [(.str (text "metadata"),
      .map [(.str (text "annotations"), .null)])])])]
  shared := [[[0], [1, 0, 0]]]
  endless := false

theorem coherent_oneMetadata : oneMetadata.Coherent := by
  intro g hg
  obtain rfl := List.mem_singleton.mp hg
  refine ⟨[(.str (text "annotations"), .null)], fun x hx => ?_⟩
  rcases List.mem_pair.mp hx with rfl | rfl
  · rfl
  · rfl

theorem outside_oneMetadata : oneMetadata.Outside [] (keys [text "spec", text "replicas"]) := by
  refine ⟨apart_keys_iff.mpr (by decide), fun g hg s hs x hx hplace y hy hne => ?_⟩
  obtain rfl := List.mem_singleton.mp hg
  have hspec : oneMetadata.toValue.subscript? (.str (text "spec")) ≠ some 0 := by
    rw [toValue, Entries.subscript?_str]
    decide
  rcases List.mem_pair.mp hy with rfl | rfl
  · exact Value.beside_cons_iff.mpr ⟨_, rfl, fun hi => (hspec hi).elim⟩
  · -- In the specification the only place is in the template.
    refine Value.beside_cons_iff.mpr ⟨_, rfl, fun _ => Value.beside_cons_iff.mpr ⟨_, rfl, fun hi => ?_⟩⟩
    rw [Entries.subscript?_str] at hi
    exact absurd hi (by decide)

/-- The annotations are made in the metadata of the template, too, and nothing else comes into the specification. -/
theorem annotate_refused_opens_shared :
    (oneMetadata.annotate Schema.default .moniker .null).value.entries.get? (text "metadata") =
      some (.map [(.str (text "annotations"), .map [])]) ∧
    (oneMetadata.annotate Schema.default .moniker .null).value.toValue.at? [1, 0, 0] =
      some (.map [(.str (text "annotations"), .map [])]) ∧
    (oneMetadata.annotate Schema.default .moniker .null).value.toValue.inside? (keys [text "spec", text "replicas"]) = none ∧
    ((ofEntries []).annotate Schema.default .artifact (.list [])).value =
      .ofEntries [(.str (text "metadata"), .map [(.str (text "annotations"), .map [])])] := by
  obtain ⟨-, md, hmd, -, hmissing⟩ := annotate_refused_opens Schema.default .moniker .null oneMetadata
    coherent_oneMetadata .missingDescriptor trivial rfl
  cases hmd
  obtain ⟨hfound, hcopies, hkept, -⟩ := hmissing rfl
  refine ⟨hfound, ?_, ?_, ?_⟩
  · exact hcopies [[0], [1, 0, 0]] (by decide) 0 (by decide) (by decide) [1, 0, 0] (by decide)
  · refine (hkept.kept _ fun p hp => ?_).inside.trans ?_
    · obtain rfl := List.mem_singleton.mp hp
      exact outside_oneMetadata
    · rfl
  · obtain ⟨-, md, hmd, -, hmissing⟩ := annotate_refused_opens Schema.default .artifact (.list []) (.ofEntries [])
      (coherent_of_shared_eq_nil rfl) (.wrongDescriptor .artifact .list) trivial rfl
    cases hmd
    exact (hmissing rfl).2.2.2 (fun g hg => by cases hg)

/-- A manifest without metadata has them when a moniker was refused. -/
theorem annotate_refused_makes_metadata :
    ((ofEntries [(.str (text "kind"), .str (text "Pod"))]).annotate Schema.default .moniker .null).result =
      .error .missingDescriptor ∧
    ((ofEntries [(.str (text "kind"), .str (text "Pod"))]).annotate Schema.default .moniker .null).value.toValue ≠
      (ofEntries [(.str (text "kind"), .str (text "Pod"))]).toValue := by
  refine ⟨rfl, fun h => ?_⟩
  have hentries := congrArg List.length (Value.map.inj h)
  cases hentries

end Manifest

end AnnotationCodec
