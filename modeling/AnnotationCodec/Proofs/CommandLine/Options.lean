import AnnotationCodec.CommandLine.Program
import AnnotationCodec.Proofs.CommandLine.Loops
import AnnotationCodec.Proofs.Manifest.Written

/-!
What the options of a command line do to manifests. Each option that is given is written under the key of its field,
to every resource; only an artifact of which every given part is empty is not written at all.
-/
namespace AnnotationCodec

namespace Integer

variable {t : Text} {n : Int}

theorem digitRun_lt (base : Nat) (afterDigit : Bool) (t : Text) : ∀ d ∈ (digitRun base afterDigit t).1, d < base := by
  induction t generalizing afterDigit with
  | nil => simp [digitRun]
  | cons c r ih =>
    rw [digitRun]
    cases hd : digitOf? base c with
    | none =>
      dsimp only
      split
      · exact ih false
      · simp
    | some d =>
      refine List.forall_mem_cons.mpr ⟨?_, ih true⟩
      simpa using (Option.filter_eq_some_iff.mp hd).2

theorem value_lt {base : Nat} {ds : List Nat} (h : ∀ d ∈ ds, d < base) : Decimal.value base ds < base ^ ds.length := by
  induction ds using List.reverseRecOn with
  | nil => simp [Decimal.value]
  | append_singleton ds d ih =>
    have hd : d < base := h d (by simp)
    have hds := ih fun e he => h e (by simp [he])
    have hvalue : Decimal.value base (ds ++ [d]) = Decimal.value base ds * base + d := by simp [Decimal.value]
    rw [hvalue, List.length_append, List.length_singleton, Nat.pow_succ]
    calc Decimal.value base ds * base + d < Decimal.value base ds * base + base := Nat.add_lt_add_left hd _
      _ = (Decimal.value base ds + 1) * base := (Nat.succ_mul _ _).symm
      _ ≤ base ^ ds.length * base := Nat.mul_le_mul_right _ hds

/-- No integer beyond the digit limit is read. -/
theorem natAbs_lt_of_read (h : read 10 t = .ok n) : n.natAbs < 10 ^ digitLimit := by
  have hdigits (negative : Bool) (ds : List Nat) (rest : Text) (hds : ∀ d ∈ ds, d < 10)
      (h : (if (10 : Nat) = 10 && digitLimit < ds.length then .error (.tooManyDigits ds.length)
        else if ds.isEmpty || !rest.isEmpty then .error (.malformed 10 t)
        else .ok (if negative then -(Decimal.value 10 ds : Int) else Decimal.value 10 ds) :
          Except ReadError Int) = .ok n) : n.natAbs < 10 ^ digitLimit := by
    split at h
    · cases h
    next hcount =>
    split at h
    · cases h
    have hlength : ds.length ≤ digitLimit := by simpa using hcount
    have hlt := Nat.lt_of_lt_of_le (value_lt hds) (Nat.pow_le_pow_right (by decide) hlength)
    cases h
    cases negative <;> simpa using hlt
  exact hdigits _ _ _ (digitRun_lt 10 false _) h

end Integer

namespace CommandLine

/-- The switch that gives a field. -/
def switchOf : Field → String
  | .cluster => "--cluster"
  | .app => "--app"
  | .stack => "--stack"
  | .detail => "--detail"
  | .sequence => "--sequence"
  | .type => "--artifact-type"
  | .name => "--artifact-name"
  | .location => "--artifact-location"
  | .version => "--artifact-version"
  | .loadBalancers => "--load-balancer"
  | .securityGroups => "--security-group"

namespace Arguments

variable (a : Arguments)

/-- The value that is given for a field: the last operand of its switch, or all operands in their order. -/
def option? (f : Field) : Option Value :=
  match f.shape with
  | .string => (a.operand? (switchOf f)).map .str
  | .integer => (a.operand? (switchOf f)).bind fun t => (Integer.read 10 t).toOption.map .int
  | .list =>
    if (a.operands (switchOf f)).isEmpty then none else some (.list ((a.operands (switchOf f)).map .str))

/-- Whether a part of an artifact is given that is not empty. -/
def namesArtifact : Bool :=
  Family.artifact.fields.any fun f => (a.operand? (switchOf f)).any fun t => !t.isEmpty

/-- The value that is written for a field: what is given for it, unless it is a part of an artifact that is not
named. -/
def written? (f : Field) : Option Value :=
  if f.family = .artifact && !a.namesArtifact then none else a.option? f

end Arguments

namespace Command

variable {s : Sources} {a : Arguments} {r : AnnotateRequest}

/-- What a request has from its arguments. -/
structure Asks (a : Arguments) (r : AnnotateRequest) : Prop where
  cluster : r.cluster = a.operand? "--cluster"
  app : r.app = a.operand? "--app"
  stack : r.stack = a.operand? "--stack"
  detail : r.detail = a.operand? "--detail"
  sequence : a.integer? "--sequence" = .ok r.sequence
  artifactType : r.artifactType = a.operand? "--artifact-type"
  artifactName : r.artifactName = a.operand? "--artifact-name"
  artifactLocation : r.artifactLocation = a.operand? "--artifact-location"
  artifactVersion : r.artifactVersion = a.operand? "--artifact-version"
  loadBalancers : r.loadBalancers = a.operands "--load-balancer"
  securityGroups : r.securityGroups = a.operands "--security-group"

theorem asks_of_ofArguments (h : ofArguments s .annotate a = .ok (.annotate r)) : Asks a r := by
  obtain ⟨n, hn, h⟩ := bind_eq_ok_iff.mp h
  obtain ⟨t, -, h⟩ := bind_eq_ok_iff.mp h
  cases h
  exact ⟨rfl, rfl, rfl, rfl, hn, rfl, rfl, rfl, rfl, rfl, rfl⟩

end Command

theorem Arguments.integer?_eq_ok_iff {a : Arguments} {switch : String} {n : Option Int} :
    a.integer? switch = .ok n ↔
      (a.operand? switch = none ∧ n = none) ∨
      ∃ t k, a.operand? switch = some t ∧ Integer.read 10 t = .ok k ∧ n = some k := by
  unfold Arguments.integer?
  cases a.operand? switch with
  | none => simp [eq_comm]
  | some t => cases h : Integer.read 10 t <;> simp [h, eq_comm]

/-! Options on a command line -/

/-- The words that give options, each a switch with its operand. -/
def wordsOf (gs : List (Field × Text)) : List Text :=
  gs.flatMap fun g => [text (switchOf g.1), g.2]

/-- The arguments that give options and the name of a file. -/
def argumentsOf (gs : List (Field × Text)) (file : Text) : Arguments :=
  ⟨gs.map fun g => (text (switchOf g.1), g.2), [file]⟩

theorem switchOf_text (f : Field) : ∃ w, Command.annotate.form.switchOf (text (switchOf f)) = .ok (w, none) ∧
    w.operand ≠ .none ∧ w.name = text (switchOf f) := by
  cases f <;> exact ⟨_, rfl, by decide, rfl⟩

theorem looksLikeSwitch_text (f : Field) :
    text (switchOf f) ≠ text "--" ∧ Form.looksLikeSwitch (text (switchOf f)) = true := by
  cases f <;> decide

theorem switchOf_ne_help (f : Field) : text (switchOf f) ≠ text "--help" := by
  cases f <;> decide

/-- Every option takes the word behind its switch, whatever it looks like. -/
theorem read_wordsOf (gs : List (Field × Text)) {file : Text} (hne : file ≠ text "--")
    (hlooks : Form.looksLikeSwitch file = false) :
    Command.annotate.form.read (wordsOf gs ++ [file]) = .ok (argumentsOf gs file) := by
  induction gs with
  | nil =>
    show Command.annotate.form.read [file] = _
    rw [Form.read, if_neg hne, if_neg (by simp [hlooks]), if_neg (by decide), Form.read]
    rfl
  | cons g gs ih =>
    obtain ⟨w, hw, hoperand, hname⟩ := switchOf_text g.1
    have hg := looksLikeSwitch_text g.1
    show Command.annotate.form.read (text (switchOf g.1) :: g.2 :: (wordsOf gs ++ [file])) = _
    rw [Form.read, if_neg hg.1, if_pos hg.2, hw]
    simp only [if_neg hoperand, ih, hname]
    rfl

/-- Options with a file that can be read make a request, as long as what is given for an integer is one. -/
theorem exists_request {s : Sources} {gs : List (Field × Text)} {file t : Text} (hne : file ≠ text "--")
    (hlooks : Form.looksLikeSwitch file = false) (hread : s.read file = .ok t)
    (hsequence : ∀ u, (argumentsOf gs file).operand? "--sequence" = some u → ∃ n, Integer.read 10 u = .ok n) :
    ∃ r, Command.request s .annotate (wordsOf gs ++ [file]) = .ok (.annotate r) ∧
      Command.ofArguments s .annotate (argumentsOf gs file) = .ok (.annotate r) ∧ r.manifests = t := by
  have hinteger : ∃ n, (argumentsOf gs file).integer? "--sequence" = .ok n := by
    simp only [Arguments.integer?_eq_ok_iff]
    cases hu : (argumentsOf gs file).operand? "--sequence" with
    | none => exact ⟨none, .inl ⟨rfl, rfl⟩⟩
    | some u =>
      obtain ⟨n, hn⟩ := hsequence u hu
      exact ⟨some n, .inr ⟨u, n, rfl, hn, rfl⟩⟩
  have hhelp : (argumentsOf gs file).has "--help" = false := by
    simp only [argumentsOf, Arguments.has, List.any_map, List.any_eq_false]
    intro g _
    simpa using switchOf_ne_help g.1
  obtain ⟨n, hn⟩ := hinteger
  have hmanifests : Command.manifests s (argumentsOf gs file).rest = .ok t := by
    simp only [argumentsOf, Command.manifests, hread]
    rfl
  have hof : ∃ r, Command.ofArguments s .annotate (argumentsOf gs file) = .ok (.annotate r) ∧ r.manifests = t := by
    simp only [Command.ofArguments, hn, hmanifests]
    exact ⟨_, rfl, rfl⟩
  obtain ⟨r, hr, ht⟩ := hof
  have harguments : Command.arguments Command.annotate.form (wordsOf gs ++ [file]) = .ok (argumentsOf gs file) := by
    rw [Command.arguments, read_wordsOf gs hne hlooks]
    show (if (argumentsOf gs file).has "--help" then .error .help else .ok _ : Except Refusal Arguments) = _
    rw [hhelp]
    rfl
  refine ⟨r, ?_, hr, ht⟩
  rw [Command.request, harguments]
  show (Command.ofArguments s .annotate (argumentsOf gs file)).mapError Refusal.usage = _
  rw [hr]
  rfl

namespace AnnotateRequest

variable {a : Arguments} {r : AnnotateRequest} {d : Domain}

theorem isTruthy_ofText (t : Option Text) : (ofText t).isTruthy = t.any fun t => !t.isEmpty := by
  cases t <;> rfl

theorem fits_ofText {shape : Shape} (hs : shape = .string) (t : Option Text) :
    ofText t = .null ∨ (ofText t).Fits shape := by
  subst hs
  cases t with
  | none => exact .inl rfl
  | some t => exact .inr ⟨t, rfl⟩

theorem fits_ofTexts {shape : Shape} (hs : shape = .list) (ts : List Text) :
    ofTexts ts = .null ∨ (ofTexts ts).Fits shape := by
  subst hs
  unfold ofTexts
  split
  · exact .inl rfl
  · exact .inr ⟨_, rfl, by simp⟩

theorem fitsFamily_moniker (h : Command.Asks a r) :
    (Value.descriptor (.moniker r.moniker)).FitsFamily .moniker := by
  refine .inr ⟨_, rfl, rfl, fun f w hw => ?_⟩
  cases f <;> cases hw
  case sequence =>
    rcases Arguments.integer?_eq_ok_iff.mp h.sequence with ⟨-, hn⟩ | ⟨t, k, -, hk, hn⟩
    · rw [moniker, hn]
      exact .inl rfl
    · rw [moniker, hn]
      exact .inr ⟨k, rfl, Integer.natAbs_lt_of_read hk⟩
  all_goals exact fits_ofText rfl _

theorem fitsFamily_artifact (r : AnnotateRequest) :
    (Value.descriptor (.artifact r.artifact)).FitsFamily .artifact := by
  refine .inr ⟨_, rfl, rfl, fun f w hw => ?_⟩
  cases f <;> cases hw <;> exact fits_ofText rfl _

theorem fitsFamily_relationships (r : AnnotateRequest) :
    (Value.descriptor (.relationships r.relationships)).FitsFamily .relationships := by
  refine .inr ⟨_, rfl, rfl, fun f w hw => ?_⟩
  cases f <;> cases hw <;> exact fits_ofTexts rfl _

theorem given_ofText (t : Option Text) : (some (ofText t)).filter (fun v => !v.isNull) = t.map .str := by
  cases t <;> rfl

theorem given_ofTexts (ts : List Text) : (some (ofTexts ts)).filter (fun v => !v.isNull) =
    if ts.isEmpty then none else some (.list (ts.map .str)) := by
  cases ts <;> rfl

theorem given_sequence (h : Command.Asks a r) :
    (some ((r.sequence.map Value.int).getD .null)).filter (fun v => !v.isNull) = a.option? .sequence := by
  have hoption : a.option? .sequence =
      (a.operand? "--sequence").bind fun t => (Integer.read 10 t).toOption.map .int := rfl
  rw [hoption]
  rcases Arguments.integer?_eq_ok_iff.mp h.sequence with ⟨ht, hn⟩ | ⟨t, k, ht, hk, hn⟩
  · rw [hn, ht]
    rfl
  · rw [hn, ht, Option.bind_some, hk]
    rfl

theorem any_isTruthy_artifact (h : Command.Asks a r) :
    [r.artifact.type, r.artifact.name, r.artifact.location, r.artifact.version].any Value.isTruthy =
      a.namesArtifact := by
  simp only [artifact, List.any_cons, List.any_nil, isTruthy_ofText, h.artifactType, h.artifactName,
    h.artifactLocation, h.artifactVersion]
  rfl

theorem written?_of_artifact {f : Field} (hf : f.family = .artifact) :
    a.written? f = if a.namesArtifact then a.option? f else none := by
  rw [Arguments.written?, hf]
  cases a.namesArtifact <;> rfl

theorem given_of_names (names : Bool) (v : Value) (f : Field) :
    Value.given? f (if names then v else .null) = if names then v.given? f else none := by
  cases names <;> rfl

/-- What the descriptors of a request give for a field is what is written for it. -/
theorem given?_descriptors (h : Command.Asks a r) (f : Field) :
    (r.descriptors.map Prod.snd).reverse.findSome? (Value.given? f) = a.written? f := by
  have hthree (x y z : Value) : [x, y, z].reverse.findSome? (Value.given? f) =
      (z.given? f).or ((y.given? f).or (x.given? f)) := by
    cases hz : z.given? f <;> cases hy : y.given? f <;> cases hx : x.given? f <;> simp [hz, hy, hx]
  rw [descriptors, any_isTruthy_artifact h]
  simp only [List.map_cons, List.map_nil, hthree, given_of_names]
  simp only [Value.given?, moniker, artifact, relationships]
  cases f <;> simp only [Descriptor.value?, Option.filter_none, ite_self, given_ofText, given_ofTexts,
    given_sequence h, Option.none_or, Option.or_none]
  case cluster => rw [h.cluster]; rfl
  case app => rw [h.app]; rfl
  case stack => rw [h.stack]; rfl
  case detail => rw [h.detail]; rfl
  case sequence => rfl
  case type => rw [h.artifactType, written?_of_artifact rfl]; rfl
  case name => rw [h.artifactName, written?_of_artifact rfl]; rfl
  case location => rw [h.artifactLocation, written?_of_artifact rfl]; rfl
  case version => rw [h.artifactVersion, written?_of_artifact rfl]; rfl
  case loadBalancers =>
    have hwritten : a.written? .loadBalancers = if r.loadBalancers.isEmpty then none
        else some (.list (r.loadBalancers.map .str)) := by rw [h.loadBalancers]; rfl
    rw [hwritten]
    cases r.loadBalancers.isEmpty <;> simp
  case securityGroups =>
    have hwritten : a.written? .securityGroups = if r.securityGroups.isEmpty then none
        else some (.list (r.securityGroups.map .str)) := by rw [h.securityGroups]; rfl
    rw [hwritten]
    cases r.securityGroups.isEmpty <;> simp

/-- The writes of a request, under a domain. -/
theorem exists_writes (h : Command.Asks a r) (d : Domain) : ∃ ws : List Write,
    (∀ w ∈ ws, w.domain = d) ∧ ws.map (fun w => (w.family, w.descriptor)) = r.descriptors ∧
      ∀ f, Write.last? ws d f = a.written? f := by
  have hartifact : (if [r.artifact.type, r.artifact.name, r.artifact.location, r.artifact.version].any Value.isTruthy
      then Value.descriptor (.artifact r.artifact) else .null).FitsFamily .artifact := by
    split
    · exact fitsFamily_artifact r
    · exact .inl ⟨rfl, by decide⟩
  have hrelationships : (if !r.loadBalancers.isEmpty || !r.securityGroups.isEmpty
      then Value.descriptor (.relationships r.relationships) else .null).FitsFamily .relationships := by
    split
    · exact fitsFamily_relationships r
    · exact .inl ⟨rfl, by decide⟩
  refine ⟨[⟨d, .moniker, _, fitsFamily_moniker h⟩, ⟨d, .artifact, _, hartifact⟩,
    ⟨d, .relationships, _, hrelationships⟩], by simp, rfl, fun f => ?_⟩
  rw [← given?_descriptors h]
  simp only [Write.last?, Write.given?, descriptors, List.map_cons, List.map_nil, List.reverse_cons, List.reverse_nil,
    List.nil_append, List.cons_append, List.findSome?_cons, List.findSome?_nil, if_true]

end AnnotateRequest

end CommandLine

/-- No value is given under a domain that no step writes under. -/
theorem Write.last?_of_ne {ws : List Write} {c d : Domain} (hd : ∀ w ∈ ws, w.domain = d) (hc : c ≠ d) (f : Field) :
    Write.last? ws c f = none := by
  rw [last?, List.findSome?_eq_none_iff]
  intro w hw
  rw [given?, hd w (List.mem_reverse.mp hw), if_neg hc.symm]

namespace Manifest

variable {m₀ m m' : Manifest} {d : Domain}

/-- Descriptors that can be stored are written to every resource, one after the other. -/
theorem annotateInTurn_of_writes (h : m₀.Aligned) {ws : List Write} (hd : ∀ w ∈ ws, w.domain = d) (hf : Follows m₀ m)
    {given : Domain → Field → Option Value} (hb : Became (Write.Wrote given) m₀ m) :
    ∃ m', m.annotateInTurn d.schema (ws.map fun w => (w.family, w.descriptor)) = .done m' ∧ Follows m₀ m' ∧
      Became (Write.Wrote fun d f => (Write.last? ws d f).or (given d f)) m₀ m' := by
  induction ws generalizing m given with
  | nil => exact ⟨m, rfl, hf, hb⟩
  | cons w ws ih =>
    rw [List.forall_mem_cons] at hd
    obtain ⟨m₁, hone, hf₁, hb₁⟩ := annotate_of_maps h hf hb w
    obtain ⟨m', hdone, hf', hb'⟩ := ih hd.2 hf₁ hb₁
    refine ⟨m', ?_, hf', ?_⟩
    · rw [List.map_cons, annotateInTurn, ← hd.1, hone]
      rw [← hd.1] at hdone
      exact hdone
    · simp only [Write.last?_cons, Option.or_assoc]
      exact hb'

/-- The resources of a manifest that has been written to are those that it had. -/
theorem Follows.targets_eq {R : Entries → Entries → Prop} (hf : Follows m₀ m) (hb : Became R m₀ m) : m.targets = m₀.targets := by
  rw [targets_eq_filter, targets_eq_filter]
  refine List.filter_congr fun p hp => ?_
  by_cases ht : p ∈ m₀.targets
  · obtain ⟨-, a, -, ha, -⟩ := hb p ht
    obtain ⟨sub, hsub, -⟩ := Option.bind_eq_some_iff.mp ha
    rw [(mem_targets_iff.mp ht).2, hsub]
    rfl
  · have hnone : m₀.entries.descend? p = none := by simpa [mem_targets_iff, resourcePaths, hp] using ht
    rw [hf.descend?_eq_none hp hnone, hnone]

end Manifest

namespace CommandLine

/-- A manifest has been annotated with the options of a command line: to every resource what is given was written, and
no other annotation is changed. -/
structure Annotated (d : Domain) (a : Arguments) (m m' : Manifest) : Prop where
  targets : m'.targets = m.targets
  written : ∀ p ∈ m.targets, ∀ f v, a.written? f = some v → ∃ es t, m'.annotationsAt? p = some es ∧
    (∀ key, Codec.encode key f.shape v = .ok t) ∧ es.get? (d.schema.key f) = some (.str t)
  kept : ∀ p ∈ m.targets, ∀ es, m.annotationsAt? p = some es → ∃ es', m'.annotationsAt? p = some es' ∧
    ∀ k, (∀ f, k = .str (d.schema.key f) → a.written? f = none) → es'.valueAt? k = es.valueAt? k

variable {w : Workplace} {d : Domain} {s : Sources} {a : Arguments} {r : AnnotateRequest} {m : Manifest}

theorem annotated_of_asks (hr : Command.Asks a r) (hm : m.Aligned)
    (ha : ∀ p ∈ m.targets, (m.annotationsAt? p).isSome) :
    (m.annotateInTurn d.schema r.descriptors).result = .ok () ∧
      Annotated d a m (m.annotateInTurn d.schema r.descriptors).value := by
  obtain ⟨ws, hd, hws, hlast⟩ := AnnotateRequest.exists_writes hr d
  obtain ⟨m', hdone, hf, hb⟩ := Manifest.annotateInTurn_of_writes hm hd (Manifest.Follows.refl m) (.refl ha)
  simp only [Option.or_none] at hb
  rw [hws] at hdone
  rw [hdone]
  refine ⟨rfl, hf.targets_eq hb, fun p hp f v hv => ?_, fun p hp es hes => ?_⟩
  · obtain ⟨es, es', hes, hes', hw⟩ := hb p hp
    obtain ⟨t, ht, hget⟩ := hw.written d f v (by rw [hlast, hv])
    exact ⟨es', t, hes', fun key => (ht key).1, hget⟩
  · obtain ⟨es₀, es', hes₀, hes', hw⟩ := hb p hp
    obtain rfl := Option.some.inj (hes.symm.trans hes₀)
    refine ⟨es', hes', fun k hk => hw.kept k fun c f heq => ?_⟩
    by_cases hc : c = d
    · subst hc
      rw [hlast, hk f heq]
    · exact Write.last?_of_ne hd hc f

/-- Annotating comes to its end if every manifest can be announced, and then it has written the options. -/
theorem annotateAll_of_asks (hw : w.schema = d.schema) (hr : Command.Asks a r) {ms : List Manifest}
    (hms : ∀ m ∈ ms, m.Aligned ∧ ∀ p ∈ m.targets, (m.annotationsAt? p).isSome) :
    ((w.annotateAll r.descriptors ms).Ends ↔ ∀ m ∈ ms, w.Announces m) ∧
      ∀ ms', (w.annotateAll r.descriptors ms).result = .ok ms' → List.Forall₂ (Annotated d a) ms ms' := by
  have hdone : ∀ m ∈ ms, (m.annotateInTurn w.schema r.descriptors).result = .ok () := fun m hm => by
    rw [hw]
    exact (annotated_of_asks hr (hms m hm).1 (hms m hm).2).1
  refine ⟨?_, fun ms' h => ?_⟩
  · simp only [Run.Ends, Workplace.annotateAll_eq_ok_iff hdone]
    constructor
    · rintro ⟨_, h, -⟩
      exact h
    · intro h
      exact ⟨_, h, rfl⟩
  · rw [← ((Workplace.annotateAll_eq_ok_iff hdone).mp h).2, List.forall₂_map_right_iff, List.forall₂_same]
    intro m hm
    rw [hw]
    exact (annotated_of_asks hr (hms m hm).1 (hms m hm).2).2

/-- Any options with a file that can be read make a request. Annotating with it comes to its end if every manifest can
be announced, and then the value of each option stands under its key in every resource, and all other annotations are
as they were, also where resources share their annotations, their metadata or all of them; only the parts of an artifact
are not written if every given one of them is empty. -/
theorem annotate_writes_options (hw : w.schema = d.schema) (gs : List (Field × Text)) {file t : Text}
    (hne : file ≠ text "--") (hlooks : Form.looksLikeSwitch file = false) (hread : s.read file = .ok t)
    (hsequence : ∀ u, (argumentsOf gs file).operand? "--sequence" = some u → ∃ n, Integer.read 10 u = .ok n)
    {ms : List Manifest} (hms : ∀ m ∈ ms, m.Aligned ∧ ∀ p ∈ m.targets, (m.annotationsAt? p).isSome) :
    ∃ r, Command.request s .annotate (wordsOf gs ++ [file]) = .ok (.annotate r) ∧ r.manifests = t ∧
      ((w.annotateAll r.descriptors ms).Ends ↔ ∀ m ∈ ms, w.Announces m) ∧
      ∀ ms', (w.annotateAll r.descriptors ms).result = .ok ms' →
        List.Forall₂ (Annotated d (argumentsOf gs file)) ms ms' := by
  obtain ⟨r, hrequest, hof, ht⟩ := exists_request hne hlooks hread hsequence
  exact ⟨r, hrequest, ht, annotateAll_of_asks hw (Command.asks_of_ofArguments hof) hms⟩

/-- An artifact whose type is empty, though its name is not, and two load balancers. -/
def namedArtifact : List (Field × Text) :=
  [(.loadBalancers, text "b"), (.type, []), (.name, text "n"), (.sequence, text "-07"), (.loadBalancers, text "a")]

/-- A workload whose pods have the same annotations as itself. -/
def sameAnnotations : Manifest where
  entries := [(.str (text "metadata"), .map [(.str (text "annotations"), .map [])]),
    (.str (text "spec"), .map [(.str (text "template"), .map [(.str (text "metadata"),
      .map [(.str (text "annotations"), .map [])])])])]
  shared := [[[0, 0], [1, 0, 0, 0]]]
  endless := false

theorem aligned_sameAnnotations : sameAnnotations.Aligned := by
  constructor
  · intro g hg
    obtain rfl := List.mem_singleton.mp hg
    refine ⟨[], fun x hx => ?_⟩
    rcases List.mem_pair.mp hx with rfl | rfl <;> rfl
  · intro g hg p hp s hs x hx hplace q hq hqp y hy hne
    obtain rfl := List.mem_singleton.mp hg
    have hpart : ∀ p ∈ sameAnnotations.targets, ∀ s ∈ Manifest.ownPaths, ∀ x ∈ [[0, 0], [1, 0, 0, 0]],
        sameAnnotations.entries.placeAlong? (p ++ s) = some x → ∀ q ∈ sameAnnotations.targets, q ≠ p →
        ∀ y ∈ [[0, 0], [1, 0, 0, 0]], y ≠ x → sameAnnotations.entries.placeAlong? (q ++ s) = some y := by decide
    exact .inl (hpart p hp s hs x hx hplace q hq hqp y hy hne)

theorem annotate_writes_named_artifact : ∃ r ms',
    Command.request ⟨⟨[], []⟩, []⟩ .annotate (wordsOf namedArtifact ++ [text "-"]) = .ok (.annotate r) ∧
      (Workplace.quietPlace.annotateAll r.descriptors [.ofEntries [], sameAnnotations]).result = .ok ms' ∧
      List.Forall₂ (Annotated .default (argumentsOf namedArtifact (text "-"))) [.ofEntries [], sameAnnotations] ms' ∧
      (argumentsOf namedArtifact (text "-")).written? .type = some (.str []) ∧
      (argumentsOf namedArtifact (text "-")).written? .loadBalancers =
        some (.list [.str (text "b"), .str (text "a")]) := by
  have hms : ∀ m ∈ [.ofEntries [], sameAnnotations], m.Aligned ∧ ∀ p ∈ m.targets, (m.annotationsAt? p).isSome := by
    intro m hm
    rcases List.mem_pair.mp hm with rfl | rfl
    · exact ⟨(Manifest.separate_of_shared_eq_nil rfl).aligned, by decide⟩
    · exact ⟨aligned_sameAnnotations, by decide⟩
  have hsequence : ∀ u, (argumentsOf namedArtifact (text "-")).operand? "--sequence" = some u →
      ∃ n, Integer.read 10 u = .ok n := by
    intro u hu
    cases hu
    exact ⟨-7, rfl⟩
  obtain ⟨r, hr, -, hends, hall⟩ := annotate_writes_options (w := Workplace.quietPlace) (d := .default)
    (s := ⟨⟨[], []⟩, []⟩) rfl namedArtifact (by decide) (by decide) rfl hsequence hms
  obtain ⟨ms', hms'⟩ := hends.mpr fun m hm => by
    rcases List.mem_pair.mp hm with rfl | rfl
    · exact ⟨_, rfl, .inl rfl⟩
    · exact ⟨_, rfl, .inl rfl⟩
  exact ⟨r, ms', hr, hms', hall ms' hms', rfl, rfl⟩

/-- The type of an artifact is given, but nothing is written for it because it is empty. -/
theorem annotate_skips_empty_artifact :
    (argumentsOf [(.app, text "a"), (.type, [])] (text "-")).option? .type = some (.str []) ∧
    (run ⟨⟨⟨[], []⟩, text "kind: Pod\n"⟩, .quiet [],
      text "annotate" :: (wordsOf [(.app, text "a"), (.type, [])] ++ [text "-"])⟩).output.out =
      text "kind: Pod\nmetadata:\n  annotations:\n    moniker.spinnaker.io/application: '\"a\"'\n" :=
  ⟨rfl, by decide +kernel⟩

end CommandLine

end AnnotationCodec
