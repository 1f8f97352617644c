import AnnotationCodec.CommandLine.Manifests
import AnnotationCodec.Proofs.Annotation.Codec
import AnnotationCodec.Proofs.Log.Message

/-!
The work on many manifests. Reading or writing what each manifest allows comes to its end exactly if every manifest can
be asked for its name, which one whose metadata are null cannot.
-/
namespace AnnotationCodec

namespace Manifest

/-- Whether a manifest can be asked for its name: its metadata are missing or a map. -/
def Named (m : Manifest) : Prop :=
  ∀ v, m.entries.get? (text "metadata") = some v → ∃ metadata, v = .map metadata

/-- Writes descriptors to a manifest and its templates, one after the other. -/
def annotateInTurn (s : Schema) : List (Family × Value) → Manifest → Outcome Manifest
  | [], m => .done m
  | (family, d) :: ds, m => (m.annotate s family d).andThen (annotateInTurn s ds)

variable {m : Manifest}

theorem exists_name (h : m.Named) : ∃ v, m.name = .ok v := by
  unfold name metadataValue
  cases hg : m.entries.get? (text "metadata") with
  | none => exact ⟨_, rfl⟩
  | some v =>
    obtain ⟨metadata, rfl⟩ := h v hg
    exact ⟨_, rfl⟩

theorem name_of_not_named (h : ¬ m.Named) : m.name = .error .noAttribute := by
  unfold name metadataValue
  unfold Named at h
  split
  · next hg => simp [hg] at h
  · next hg => simp [hg] at h
  · rfl

theorem named_iff : m.Named ↔ ∃ v, m.name = .ok v := by
  refine ⟨exists_name, ?_⟩
  rintro ⟨v, hv⟩
  by_contra h
  rw [name_of_not_named h] at hv
  cases hv

end Manifest

namespace CommandLine.Workplace

variable {w : Workplace} {m : Manifest} {ms : List Manifest} {ds : List (Family × Value)} {f : Failure}

/-- An account tells what is read from a manifest. -/
structure Account.Tells (s : Schema) (m : Manifest) (a : Account) : Prop where
  kind : a.kind = m.kind
  name : m.name = .ok a.name
  moniker : m.get s .moniker = .ok a.moniker
  artifact : m.get s .artifact = .ok a.artifact
  relationships : m.get s .relationships = .ok a.relationships

theorem exists_account (hg : ∀ family, ∃ d, m.get w.schema family = .ok d) (hn : m.Named) :
    ∃ a, w.account m = .ok a ∧ a.Tells w.schema m := by
  obtain ⟨name, hname⟩ := Manifest.exists_name hn
  obtain ⟨moniker, hm⟩ := hg .moniker
  obtain ⟨artifact, ha⟩ := hg .artifact
  obtain ⟨relationships, hr⟩ := hg .relationships
  refine ⟨⟨m.kind, name, moniker, artifact, relationships⟩, ?_, rfl, hname, hm, ha, hr⟩
  simp only [account, hname, hm, ha, hr]
  rfl

theorem account_of_not_named (hn : ¬ m.Named) : w.account m = .error .noAttribute := by
  rw [account, Manifest.name_of_not_named hn]
  rfl

/-- The accounts of manifests that can all be named and read, in their order. -/
theorem accounts_of_named (hg : ∀ m ∈ ms, ∀ family, ∃ d, m.get w.schema family = .ok d) (hn : ∀ m ∈ ms, m.Named) :
    ∃ as, (w.accounts ms).result = .ok as ∧ List.Forall₂ (Account.Tells w.schema) ms as := by
  induction ms with
  | nil => exact ⟨[], rfl, .nil⟩
  | cons m ms ih =>
    rw [List.forall_mem_cons] at hg hn
    obtain ⟨a, ha, htells⟩ := exists_account hg.1 hn.1
    obtain ⟨as, has, hrest⟩ := ih hg.2 hn.2
    refine ⟨a :: as, ?_, .cons htells hrest⟩
    simp only [accounts, ha]
    rw [Run.result_bind_of_ok _ has]
    rfl

theorem accounts_ends_iff (hg : ∀ m ∈ ms, ∀ family, ∃ d, m.get w.schema family = .ok d) :
    (w.accounts ms).Ends ↔ ∀ m ∈ ms, m.Named := by
  constructor
  · induction ms with
    | nil => simp
    | cons m ms ih =>
      rw [List.forall_mem_cons] at hg ⊢
      intro h
      by_cases hn : m.Named
      · obtain ⟨a, ha, -⟩ := exists_account hg.1 hn
        simp only [accounts, ha, Run.ends_bind_iff] at h
        obtain ⟨as, has, -⟩ := h
        exact ⟨hn, ih hg.2 ⟨as, has⟩⟩
      · simp only [accounts, account_of_not_named hn] at h
        obtain ⟨as, has⟩ := h
        cases has
  · intro hn
    obtain ⟨as, has, -⟩ := accounts_of_named hg hn
    exact ⟨as, has⟩

/-- Whether a manifest can be announced before work on it: it can be named, and if the announcement is not skipped, then
its kind and its name have texts and the log file can be opened. -/
def Announces (w : Workplace) (m : Manifest) : Prop :=
  ∃ name, m.name = .ok name ∧
    (w.log.skips .debug = true ∨ (Log.Shows m.kind ∧ Log.Shows name) ∧ Log.Opens w.env w.log)

theorem shows_label (family : Family) : Log.Shows (.str family.label) :=
  ⟨_, rfl⟩

theorem shows_int {n : Int} (h : n.natAbs < 10 ^ digitLimit) : Log.Shows (.int n) := by
  have hwrite : Integer.write n = .ok (Integer.decimal n) := Content.write_integer h
  refine ⟨Integer.decimal n, ?_⟩
  simp only [Log.displayed, Value.display, Value.literal, hwrite]
  rfl

/-- A manifest has at most two templates. -/
theorem shows_templates (m : Manifest) : Log.Shows (.int m.templates.length) := by
  have hlength : m.templates.length ≤ 2 := List.length_filter_le _ _
  have hlimit : 2 < 10 ^ digitLimit := Nat.lt_trans (by decide) (Nat.lt_pow_self (by decide))
  exact shows_int (Nat.lt_of_le_of_lt hlength hlimit)

theorem nameOf_eq_ok_iff {attributes : List (Text × Value)} : nameOf m = .ok attributes ↔
    ∃ name, m.name = .ok name ∧ attributes = [(text "kind", m.kind), (text "name", name)] := by
  unfold nameOf
  cases m.name <;> simp [bind, Except.bind, pure, Except.pure, eq_comm]

theorem announces_iff : w.Announces m ↔ ∃ attributes, nameOf m = .ok attributes ∧
    (Log.log w.env w.log .debug [.str (text "annotating manifest")] attributes).Ends := by
  have hword : Log.Shows (.str (text "annotating manifest")) := ⟨_, rfl⟩
  have hattributes (name : Value) :
      (∀ a ∈ [(text "kind", m.kind), (text "name", name)], Log.Shows a.2) ↔ Log.Shows m.kind ∧ Log.Shows name := by
    simp only [List.forall_mem_cons, List.not_mem_nil, false_implies, implies_true, and_true]
  simp only [Announces, nameOf_eq_ok_iff, Log.log_ends_iff, List.forall_mem_singleton, hword, and_true]
  constructor
  · rintro ⟨name, hname, h⟩
    exact ⟨_, ⟨name, hname, rfl⟩, by rwa [hattributes]⟩
  · rintro ⟨_, ⟨name, hname, rfl⟩, h⟩
    exact ⟨name, hname, by rwa [hattributes] at h⟩

/-- Writing that succeeds on a manifest is what the work on it does, as long as debug messages can be logged. -/
theorem annotateWith_of_done (hlog : w.log.skips .debug = true ∨ Log.Opens w.env w.log)
    (hd : (m.annotateInTurn w.schema ds).result = .ok ()) :
    (w.annotateWith ds m).result = .ok (m.annotateInTurn w.schema ds).value := by
  induction ds generalizing m with
  | nil => rfl
  | cons e ds ih =>
    obtain ⟨family, d⟩ := e
    simp only [annotateWith, Manifest.annotateInTurn, Outcome.andThen] at hd ⊢
    cases hone : (m.annotate w.schema family d).result with
    | error f => simp [hone, Outcome.fail] at hd
    | ok u =>
      simp only [hone] at hd ⊢
      have hends : (Log.log w.env w.log .debug [.str (text "annotated manifest")]
          [(text "family", .str family.label),
            (text "templates", .int (m.annotate w.schema family d).value.templates.length),
            (text "skipped", .bool d.isNull)]).Ends := by
        refine Log.log_ends_iff.mpr (hlog.imp_right fun hopens => ⟨⟨?_, ?_⟩, hopens⟩)
        · simp only [List.forall_mem_cons, List.not_mem_nil, false_implies, implies_true, and_true]
          exact ⟨shows_label family, shows_templates _, _, rfl⟩
        · simp only [List.forall_mem_singleton]
          exact ⟨_, rfl⟩
      obtain ⟨u, hu⟩ := hends
      rw [Run.result_bind_of_ok _ hu]
      exact ih hd

/-- The work on manifests one by one: it is announced and done for the first one, and then for the others. -/
theorem annotateAll_cons_eq_ok_iff {ms' : List Manifest} : (w.annotateAll ds (m :: ms)).result = .ok ms' ↔
    w.Announces m ∧ ∃ n ns, (w.annotateWith ds m).result = .ok n ∧ (w.annotateAll ds ms).result = .ok ns ∧
      n :: ns = ms' := by
  rw [announces_iff]
  simp only [annotateAll, Run.result_bind_eq_ok_iff, Run.result_lift_eq_ok_iff, Run.result_pure, Except.ok.injEq]
  constructor
  · rintro ⟨attributes, hname, u, hlog, n, hn, ns, hns, h⟩
    exact ⟨⟨attributes, hname, u, hlog⟩, n, ns, hn, hns, h⟩
  · rintro ⟨⟨attributes, hname, u, hlog⟩, n, ns, hn, hns, h⟩
    exact ⟨attributes, hname, u, hlog, n, hn, ns, hns, h⟩

theorem annotateAll_eq_ok_iff {ms' : List Manifest}
    (hd : ∀ m ∈ ms, (m.annotateInTurn w.schema ds).result = .ok ()) :
    (w.annotateAll ds ms).result = .ok ms' ↔
      (∀ m ∈ ms, w.Announces m) ∧ ms.map (fun m => (m.annotateInTurn w.schema ds).value) = ms' := by
  induction ms generalizing ms' with
  | nil => simp [annotateAll, Run.result_pure]
  | cons m ms ih =>
    rw [List.forall_mem_cons] at hd
    rw [annotateAll_cons_eq_ok_iff, List.forall_mem_cons, List.map_cons, and_assoc]
    refine and_congr_right fun hm => ?_
    obtain ⟨name, -, hlog⟩ := hm
    have hone := annotateWith_of_done (hlog.imp_right And.right) hd.1
    constructor
    · rintro ⟨n, ns, hn, hns, rfl⟩
      obtain ⟨hall, rfl⟩ := (ih hd.2).mp hns
      rw [hone] at hn
      exact ⟨hall, congrArg (· :: _) (Except.ok.inj hn)⟩
    · rintro ⟨hall, rfl⟩
      exact ⟨_, _, hone, (ih hd.2).mpr ⟨hall, rfl⟩, rfl⟩

/-- Where everything can be read from every manifest, reading all comes to its end exactly if every manifest can be
named, and gives the account of each in their order. Where the descriptors of a request can be written to every
manifest, writing all comes to its end exactly if every manifest can be announced, and leaves each as writing the
descriptors to it does. -/
theorem loops_accept_named (w : Workplace) (r : AnnotateRequest) (ms : List Manifest) :
    ((∀ m ∈ ms, ∀ family, ∃ d, m.get w.schema family = .ok d) →
      ((w.accounts ms).Ends ↔ ∀ m ∈ ms, m.Named) ∧
      ∀ as, (w.accounts ms).result = .ok as → List.Forall₂ (Account.Tells w.schema) ms as) ∧
    ((∀ m ∈ ms, (m.annotateInTurn w.schema r.descriptors).result = .ok ()) →
      ((w.annotateAll r.descriptors ms).Ends ↔ ∀ m ∈ ms, w.Announces m) ∧
      ∀ ms', (w.annotateAll r.descriptors ms).result = .ok ms' →
        ms' = ms.map fun m => (m.annotateInTurn w.schema r.descriptors).value) := by
  constructor
  · intro hg
    refine ⟨accounts_ends_iff hg, ?_⟩
    intro as has
    obtain ⟨bs, hbs, htell⟩ := accounts_of_named hg ((accounts_ends_iff hg).mp ⟨as, has⟩)
    rw [has] at hbs
    exact Except.ok.inj hbs ▸ htell
  · intro hd
    constructor
    · simp only [Run.Ends, annotateAll_eq_ok_iff hd]
      constructor
      · rintro ⟨ms', h, -⟩
        exact h
      · intro h
        exact ⟨_, h, rfl⟩
    · intro ms' h
      exact ((annotateAll_eq_ok_iff hd).mp h).2.symm

/-- A place to work with the default schema, where nothing but what is not for debugging is logged. -/
def quietPlace : Workplace :=
  ⟨⟨[], []⟩, .quiet [], .default⟩

/-- A request to name the application of manifests. -/
def naming : AnnotateRequest where
  cluster := none
  app := some (text "a")
  stack := none
  detail := none
  sequence := none
  artifactType := none
  artifactName := none
  artifactLocation := none
  artifactVersion := none
  loadBalancers := []
  securityGroups := []
  manifests := []

/-- A manifest without metadata, and one whose annotations are null. -/
def namedManifests : List Manifest :=
  [.ofEntries [(.str (text "kind"), .str (text "Pod"))],
    .ofEntries [(.str (text "metadata"), .map [(.str (text "annotations"), .null)])]]

theorem loops_accept_two : (quietPlace.accounts namedManifests).Ends ∧
    (quietPlace.annotateAll naming.descriptors namedManifests).Ends := by
  obtain ⟨hget, hannotate⟩ := loops_accept_named quietPlace naming namedManifests
  have hnamed : ∀ m ∈ namedManifests, m.Named := by
    simp only [namedManifests, List.forall_mem_cons, List.not_mem_nil, false_implies, implies_true, and_true]
    exact ⟨Manifest.named_iff.mpr ⟨_, rfl⟩, Manifest.named_iff.mpr ⟨_, rfl⟩⟩
  constructor
  · refine (hget ?_).1.mpr hnamed
    simp only [namedManifests, List.forall_mem_cons, List.not_mem_nil, false_implies, implies_true, and_true]
    constructor <;> intro family <;> cases family <;> exact ⟨_, rfl⟩
  · refine (hannotate ?_).1.mpr fun m hm => ?_
    · simp only [namedManifests, List.forall_mem_cons, List.not_mem_nil, false_implies, implies_true, and_true]
      exact ⟨rfl, rfl⟩
    · obtain ⟨name, hname⟩ := Manifest.exists_name (hnamed m hm)
      exact ⟨name, hname, .inl rfl⟩

/-- A manifest whose metadata are null. -/
def unnamed : Manifest :=
  .ofEntries [(.str (text "kind"), .str (text "Pod")), (.str (text "metadata"), .null)]

/-- From a manifest whose metadata are null everything can be read, and all can be written to it, but the work on it
ends with a failure. -/
theorem loops_refuse_null_metadata :
    (∀ family, ∃ d, unnamed.get quietPlace.schema family = .ok d) ∧
    (quietPlace.accounts [unnamed]).result = .error (.failure .noAttribute) ∧
    (unnamed.annotateInTurn quietPlace.schema naming.descriptors).result = .ok () ∧
    (quietPlace.annotateAll naming.descriptors [unnamed]).result = .error (.failure .noAttribute) := by
  refine ⟨?_, rfl, rfl, rfl⟩
  intro family
  cases family <;> exact ⟨_, rfl⟩

end CommandLine.Workplace

end AnnotationCodec
