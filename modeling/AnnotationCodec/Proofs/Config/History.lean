import AnnotationCodec.Proofs.Config.Layers
import Mathlib.Data.List.Basic
import Mathlib.Data.List.Induction

/-!
Configuration over whole histories. The first step that reads the configuration takes a snapshot of its sources; until
all is forgotten, what is read is the snapshot with the values that were set since laid over it, in whatever way the
variables change.
-/
namespace AnnotationCodec

namespace Config

/-- What can be done with the configuration, and a change of the variables. -/
inductive Step
  | get (key default : Value) (required : Bool)
  | set (key value values : Value)
  | clear
  | replace (bindings : List (Text × Text))

/-- A point of a history. -/
structure Session where
  env : Environment
  config : Config

/-- The pairs of a map whose keys are all texts. -/
def pairs? : Value → Option Settled
  | .map es => es.mapM fun
    | (.str k, v) => some (k, v)
    | _ => none
  | _ => none

/-- The pairs that the arguments of a set give: a key with a truthy value, or else all pairs of a truthy map. -/
def given? (key value values : Value) : Option Settled :=
  if key.isTruthy && value.isTruthy && !values.isTruthy then pairs? (.map [(key, value)])
  else if !key.isTruthy && !value.isTruthy && values.isTruthy then pairs? values
  else none

variable (log : Log.Settings) (env : Environment)

instance : Decidable (Log.Opens env log) :=
  decidable_of_iff (log.hasFile = true → (env.resolve log.path).isOk = true) <| by
    unfold Log.Opens
    cases env.resolve log.path <;> simp [Except.isOk, Except.toBool]

namespace Step

/-- The pairs that a step sets once the configuration is read. It is none if the set cannot be logged. -/
def saved? : Step → Option Settled
  | .set key value values => if Log.Opens env log then given? key value values else none
  | _ => none

/-- The pairs that a step sets, none if it sets nothing. -/
def saved (step : Step) : Settled :=
  (step.saved? log env).getD []

/-- Whether a step reads the configuration where it has not been read. -/
def Reads : Step → Prop
  | .get .. => (fetch env log).Ends
  | .set key value values => ((Step.set key value values).saved? log env).isSome ∧ (fetch env log).Ends
  | _ => False

instance : DecidablePred (Reads log env)
  | .get .. => inferInstanceAs (Decidable (fetch env log).Ends)
  | .set key value values =>
    inferInstanceAs (Decidable (((Step.set key value values).saved? log env).isSome ∧ (fetch env log).Ends))
  | .clear | .replace _ => inferInstanceAs (Decidable False)

/-- The last value that the steps set for a key. -/
def lastSet? (k : Text) (steps : List Step) : Option Value :=
  steps.reverse.findSome? fun s => (s.saved? log env).bind (Settled.last? k)

end Step

/-- A step, which leads to the next point of a history. -/
def Session.after (s : Session) : Step → Session
  | .get key default required => ⟨s.env, (s.config.get s.env log key default required).1⟩
  | .set key value values => ⟨s.env, (s.config.set s.env log key value values).1⟩
  | .clear => ⟨s.env, fresh⟩
  | .replace bindings => ⟨{ s.env with bindings := bindings }, s.config⟩

/-- The point to which steps lead from the start. -/
def Session.run (steps : List Step) : Session :=
  steps.foldl (after log) ⟨env, fresh⟩

/-- A step takes a snapshot: it reads the configuration, and none did since it was last forgotten. -/
structure Snapshot (before : List Step) (snap : Step) : Prop where
  reads : snap.Reads log (Session.run log env before).env
  first : ∀ a s b, before = a ++ s :: b → s.Reads log (Session.run log env a).env → .clear ∈ b

/-- What a get answers if `v` is what it finds for its key. -/
def answer (k : Text) (required : Bool) (v : Value) : Except Stop Value :=
  if required && !v.isTruthy then .error (.failure (.missingConfigValue (.str k))) else .ok v

/-- What a get at a point of a history answers. -/
def Session.answerTo (s : Session) (log : Log.Settings) (k : Text) (default : Value) (required : Bool) :
    Except Stop Value :=
  (s.config.get s.env log (.str k) default required).2.result

/-- The value for a key after steps that begin with the snapshot taken after `before`, from the first source to have
one: what the steps set, the variable and the file at the snapshot, the default, and what is built in. -/
def found (before : List Step) (k : Text) (default : Value) (steps : List Step) : Value :=
  let taken := (Session.run log env before).env
  ((Step.lastSet? log env k steps).or ((variableValue? taken k).or (fileValue? taken k))).getD
    (if default.isNull then (defaults.get? k).getD .null else default)

variable {log env} {c : Config} {key default value values : Value} {required : Bool} {new vs : Settled} {k : Text}
  {step : Step} {steps before : List Step} {s : Session}

theorem textKeys_eq_ok_iff {es : Entries} : textKeys es = .ok new ↔ pairs? (.map es) = some new := by
  induction es generalizing new with
  | nil => simp [textKeys, pairs?, eq_comm]
  | cons e es ih =>
    obtain ⟨key, v⟩ := e
    cases key with
    | str k =>
      simp only [textKeys, map_eq_ok_iff, ih, pairs?, List.mapM_cons]
      simp [Option.bind_eq_some_iff]
    | _ => simp [textKeys, pairs?]

theorem settable_eq_ok_iff : settable value = .ok new ↔ pairs? value = some new := by
  cases value with
  | map es => exact textKeys_eq_ok_iff
  | _ => simp [settable, pairs?]

/-- The arguments that a set accepts are those that give pairs. -/
theorem newValues_settable :
    (∃ v, newValues key value values = .ok v ∧ settable v = .ok new) ↔ given? key value values = some new := by
  simp only [settable_eq_ok_iff, newValues, given?]
  cases hk : key.isTruthy with
  | false => cases value.isTruthy <;> cases values.isTruthy <;> simp
  | true =>
    cases value.isTruthy with
    | false => cases values.isTruthy <;> simp
    | true =>
      cases values.isTruthy with
      | true => simp
      | false =>
        cases hh : key.isHashable with
        | true => simp
        | false => cases key <;> simp_all [pairs?, Value.isHashable]

/-- The checks of a set: it goes on with the pairs to be set. -/
def checked (env : Environment) (log : Log.Settings) (key value values : Value) : Run Settled := do
  let new ← newValues key value values
  let new ← settable new
  let keys := Text.joinWith (text ",") (new.map Prod.fst)
  Log.log env log .debug [.str (text "config/set")] [(text "keys", .str keys)]
  return new

theorem logged_iff {words line : Text} {name : Text} :
    (Log.log env log .debug [.str words] [(name, .str line)]).Ends ↔ Log.Opens env log := by
  have hshows (t : Text) : Log.Shows (.str t) := ⟨t, rfl⟩
  rw [Log.log_ends_iff]
  constructor
  · rintro (h | h)
    · intro hfile
      simp [Log.Settings.skips, hfile] at h
    · exact h.2
  · intro h
    exact .inr ⟨by simp [hshows], h⟩

/-- A set passes its checks when it has pairs to set. -/
theorem checked_eq_ok_iff : (checked env log key value values).result = .ok new ↔
    (Step.set key value values).saved? log env = some new := by
  simp only [checked, Run.result_bind_eq_ok_iff, Run.result_lift_eq_ok_iff, Run.result_pure, Step.saved?,
    Option.ite_none_right_eq_some, ← newValues_settable]
  constructor
  · rintro ⟨v, hv, new, hnew, u, hlog, h⟩
    cases h
    exact ⟨logged_iff.mp ⟨u, hlog⟩, v, hv, hnew⟩
  · rintro ⟨hopens, v, hv, hnew⟩
    obtain ⟨u, hlog⟩ := logged_iff.mpr hopens
    exact ⟨v, hv, new, hnew, u, hlog, rfl⟩

/-- What the configuration holds after a get: the values, if they could be read. -/
theorem get_cache : (c.get env log key default required).1.cache =
    match (c.values env log).result with
    | .ok vs => some vs
    | .error _ => c.cache := by
  unfold get
  cases h : (c.values env log).result <;> simp [h]

/-- A set makes its checks, and then reads the values. -/
theorem set_eq : c.set env log key value values =
    match (checked env log key value values).result with
    | .error s => (c, ⟨(checked env log key value values).output, .error s⟩)
    | .ok new =>
      let run : Run Unit := do
        let _ ← checked env log key value values
        let _ ← c.values env log
        pure ()
      match (c.values env log).result with
      | .error _ => (c, run)
      | .ok vs => (⟨some (vs.update new)⟩, run) :=
  rfl

theorem set_config_of_none (h : (Step.set key value values).saved? log env = none) :
    (c.set env log key value values).1 = c := by
  rw [set_eq]
  cases hc : (checked env log key value values).result with
  | error s => rfl
  | ok new => simp [checked_eq_ok_iff.mp hc] at h

/-- What the configuration holds after a set: the values with the pairs that were set, if they could be read. -/
theorem set_cache (h : (Step.set key value values).saved? log env = some new) :
    (c.set env log key value values).1.cache =
    match (c.values env log).result with
    | .ok vs => some (vs.update new)
    | .error _ => c.cache := by
  rw [set_eq, checked_eq_ok_iff.mpr h]
  cases (c.values env log).result <;> rfl

/-- Where the configuration has not been read, a step that cannot read it leaves it so. -/
theorem after_cache_eq_none (hs : s.config.cache = none) (hstep : ¬ step.Reads log s.env) :
    (s.after log step).config.cache = none := by
  have hfails : ¬ (fetch s.env log).Ends → ∃ e, (s.config.values s.env log).result = .error e := by
    intro hends
    unfold values
    rw [hs]
    cases h : (fetch s.env log).result with
    | error e => exact ⟨e, rfl⟩
    | ok vs => exact absurd ⟨vs, h⟩ hends
  cases step with
  | get key default required =>
    obtain ⟨e, he⟩ := hfails hstep
    simp only [Session.after, get_cache, he, hs]
  | set key value values =>
    cases hsaved : (Step.set key value values).saved? log s.env with
    | none => simp only [Session.after, set_config_of_none hsaved, hs]
    | some new =>
      obtain ⟨e, he⟩ := hfails fun hends => hstep ⟨by simp [hsaved], hends⟩
      simp only [Session.after, set_cache hsaved, he, hs]
  | clear => rfl
  | replace bindings => exact hs

/-- A step that reads the configuration keeps what it reads, with what it sets itself. -/
theorem after_cache_of_reads (hs : s.config.cache = none) (hstep : step.Reads log s.env) :
    ∃ vs, (fetch s.env log).result = .ok vs ∧
      (s.after log step).config.cache = some (vs.update (step.saved log s.env)) := by
  have hvalues : s.config.values s.env log = fetch s.env log := by
    unfold values
    rw [hs]
  cases step with
  | get key default required =>
    obtain ⟨vs, hvs⟩ := hstep
    refine ⟨vs, hvs, ?_⟩
    simp only [Session.after, get_cache, hvalues, hvs]
    rfl
  | set key value values =>
    obtain ⟨hsaved, vs, hvs⟩ := hstep
    obtain ⟨new, hnew⟩ := Option.isSome_iff_exists.mp hsaved
    refine ⟨vs, hvs, ?_⟩
    simp only [Session.after, set_cache hnew, hvalues, hvs, Step.saved, hnew, Option.getD_some]
  | clear => exact hstep.elim
  | replace bindings => exact hstep.elim

/-- Once the configuration is read, only what is set changes it, until it is forgotten. -/
theorem after_cache_of_some (hs : s.config.cache = some vs) (hstep : step ≠ .clear) :
    (s.after log step).config.cache = some (vs.update (step.saved log s.env)) := by
  have hvalues : (s.config.values s.env log).result = .ok vs := by
    unfold values
    rw [hs]
    rfl
  cases step with
  | get key default required =>
    simp only [Session.after, get_cache, hvalues]
    rfl
  | set key value values =>
    cases hsaved : (Step.set key value values).saved? log s.env with
    | none =>
      simp only [Session.after, set_config_of_none hsaved, hs, Step.saved, hsaved]
      rfl
    | some new => simp only [Session.after, set_cache hsaved, hvalues, Step.saved, hsaved, Option.getD_some]
  | clear => exact absurd rfl hstep
  | replace bindings => exact hs

theorem run_append_singleton (log : Log.Settings) (env : Environment) (steps : List Step) (step : Step) :
    Session.run log env (steps ++ [step]) = (Session.run log env steps).after log step :=
  List.foldl_concat ..

theorem run_files (log : Log.Settings) (env : Environment) (steps : List Step) :
    (Session.run log env steps).env.files = env.files := by
  induction steps using List.reverseRecOn with
  | nil => rfl
  | append_singleton steps step ih =>
    rw [run_append_singleton]
    cases step <;> exact ih

/-- Whether a step can be logged depends on the files alone, which stay as they are. -/
theorem saved?_run (steps : List Step) : step.saved? log (Session.run log env steps).env = step.saved? log env := by
  have hopens : Log.Opens (Session.run log env steps).env log ↔ Log.Opens env log := by
    generalize he : (Session.run log env steps).env = env'
    have hfiles := run_files log env steps
    rw [he] at hfiles
    obtain ⟨bindings, files⟩ := env
    obtain ⟨bindings', files'⟩ := env'
    subst hfiles
    exact Iff.rfl
  cases step <;> simp only [Step.saved?, hopens]

theorem lastSet?_append_singleton (log : Log.Settings) (env : Environment) (k : Text) (steps : List Step)
    (step : Step) : Step.lastSet? log env k (steps ++ [step]) =
    (Settled.last? k (step.saved log env)).or (Step.lastSet? log env k steps) := by
  simp only [Step.lastSet?, List.reverse_append, List.reverse_singleton, List.singleton_append, List.findSome?_cons,
    Step.saved]
  cases step.saved? log env with
  | none => rfl
  | some new => cases h : Settled.last? k new <;> simp [h]

/-- Up to a snapshot nothing has been read since it was last forgotten. -/
theorem run_cache_eq_none
    (h : ∀ a s b, before = a ++ s :: b → s.Reads log (Session.run log env a).env → .clear ∈ b) :
    (Session.run log env before).config.cache = none := by
  induction before using List.reverseRecOn with
  | nil => rfl
  | append_singleton steps step ih =>
    rw [run_append_singleton]
    by_cases hclear : step = .clear
    · rw [hclear]
      rfl
    · refine after_cache_eq_none (ih fun a s b hsteps hreads => ?_) fun hreads => ?_
      · have := h a s (b ++ [step]) (by simp [hsteps]) hreads
        simpa [Ne.symm hclear] using this
      · simpa using h steps step [] rfl hreads

/-- After a snapshot the values are those it took, with what was set since laid over them. -/
theorem run_cache_get? {snap : Step} (h : Snapshot log env before snap) (hclear : .clear ∉ steps) :
    ∃ vs, (Session.run log env (before ++ snap :: steps)).config.cache = some vs ∧
      ∀ k, vs.get? k = (Step.lastSet? log env k (snap :: steps)).or
        ((variableValue? (Session.run log env before).env k).or (fileValue? (Session.run log env before).env k)) := by
  induction steps using List.reverseRecOn with
  | nil =>
    obtain ⟨vs, hvs, hcache⟩ := after_cache_of_reads (run_cache_eq_none h.first) h.reads
    refine ⟨_, (congrArg (·.config.cache) (run_append_singleton ..)).trans hcache, fun k => ?_⟩
    have hlast := lastSet?_append_singleton log env k [] snap
    rw [List.nil_append] at hlast
    rw [Settled.get?_update, fetch_get? hvs, hlast, Step.saved, saved?_run]
    simp [Step.saved, Step.lastSet?]
  | append_singleton steps step ih =>
    rw [List.mem_append, not_or, List.mem_singleton] at hclear
    obtain ⟨vs, hcache, hget⟩ := ih hclear.1
    refine ⟨vs.update (step.saved log env), ?_, fun k => ?_⟩
    · rw [← List.cons_append, ← List.append_assoc, run_append_singleton,
        after_cache_of_some hcache (Ne.symm hclear.2)]
      simp only [Step.saved, saved?_run]
    · rw [Settled.get?_update, hget, ← List.cons_append, lastSet?_append_singleton, Option.or_assoc]

/-- What a get answers when the values can be read. -/
theorem get_result (hk : k ≠ []) (hvs : (c.values env log).result = .ok vs) :
    (c.get env log (.str k) default required).2.result = answer k required ((vs.get? k).getD
      (if default.isNull then (defaults.get? k).getD .null else default)) := by
  have htruthy : (Value.str k).isTruthy = true := by simpa [Value.isTruthy] using hk
  simp only [get, hvs, htruthy, if_true, lookup]
  rw [Run.result_bind_of_ok _ hvs]
  generalize (vs.get? k).getD _ = v
  show (if (v.isTruthy || !required) = true then (pure v : Run Value) else _).result = _
  have hraised : (Failure.missingConfigValue (.str k)).raised = .missingConfigValue (.str k) := rfl
  cases hv : v.isTruthy <;> cases required <;> simp [answer, hv, hraised, Run.stop, Run.result_pure]

/-- A get at or after a snapshot finds what was last set since, else what the snapshot found in the variable of a known
key, else in the file, else the default, else the built-in value. -/
theorem answer_of_snapshot {snap : Step} {rest mid : List Step} (hk : k ≠ []) (h : Snapshot log env before snap)
    (hmid : mid ++ [.get (.str k) default required] = snap :: rest) (hclear : .clear ∉ mid) :
    (Session.run log env (before ++ mid)).answerTo log k default required =
      answer k required (found log env before k default mid) := by
  cases mid with
  | nil =>
    obtain ⟨rfl, -⟩ := List.cons.inj hmid
    obtain ⟨vs, hvs⟩ := h.reads
    have hvalues : ((Session.run log env before).config.values (Session.run log env before).env log).result =
        .ok vs := by
      rw [values, run_cache_eq_none h.first, hvs]
    rw [List.append_nil, Session.answerTo, get_result hk hvalues, fetch_get? hvs]
    rfl
  | cons s mid =>
    obtain ⟨rfl, -⟩ := List.cons.inj hmid
    obtain ⟨vs, hcache, hget⟩ := run_cache_get? h (List.not_mem_of_not_mem_cons hclear)
    have hvalues : ((Session.run log env (before ++ s :: mid)).config.values
        (Session.run log env (before ++ s :: mid)).env log).result = .ok vs := by
      rw [values, hcache]
      rfl
    rw [Session.answerTo, get_result hk hvalues, hget]
    rfl

/-- A change of the variables sets nothing. -/
theorem lastSet?_replace (a b : List Step) (bindings : List (Text × Text)) :
    Step.lastSet? log env k (a ++ .replace bindings :: b) = Step.lastSet? log env k (a ++ b) := by
  simp [Step.lastSet?, Step.saved?, List.findSome?_append]

/-- From a snapshot until all is forgotten, a get finds what was last set, else what the snapshot found in the variable
of a known key, else in the file, else the default, else the built-in value; and it does so however the variables change
after the snapshot. -/
theorem get_layers {snap : Step} {rest mid : List Step} (hk : k ≠ []) (h : Snapshot log env before snap)
    (hmid : mid ++ [.get (.str k) default required] = snap :: rest) (hclear : .clear ∉ mid) :
    (Session.run log env (before ++ mid)).answerTo log k default required =
      answer k required (found log env before k default mid) ∧
    ∀ a b bindings, mid = a ++ b → a ≠ [] →
      (Session.run log env (before ++ (a ++ .replace bindings :: b))).answerTo log k default required =
        (Session.run log env (before ++ mid)).answerTo log k default required := by
  refine ⟨answer_of_snapshot hk h hmid hclear, ?_⟩
  intro a b bindings hsplit ha
  obtain ⟨s, a, rfl⟩ := List.exists_cons_of_ne_nil ha
  subst hsplit
  obtain ⟨rfl, -⟩ := List.cons.inj hmid
  have hclear' : .clear ∉ s :: a ++ .replace bindings :: b := by simpa using hclear
  rw [answer_of_snapshot hk h rfl hclear', answer_of_snapshot hk h rfl hclear, found, found, lastSet?_replace]

/-- A set takes the snapshot; the domain that a get then finds is that of the variable, which is gone by then. -/
theorem get_layers_after_set :
    let source : List (Text × Text) := [(text "MANIFEST_ANNOTATIONS_CONFIG", text "config.yaml")]
    let start : Environment := ⟨source, [(text "config.yaml", text "annotation-domain: file.io")]⟩
    let before : List Step := [.get (.str (text "x")) .null false, .clear,
      .replace ((text "MANIFEST_ANNOTATIONS_ANNOTATION_DOMAIN", text "variable.io") :: source)]
    let mid : List Step := [.set (.str (text "x")) (.int 1) .null, .replace source]
    (Session.run (.quiet []) start (before ++ mid)).answerTo (.quiet []) domainKey .null true =
      .ok (.str (text "variable.io")) := by
  intro source start before mid
  have hfirst : ∀ a s b, before = a ++ s :: b → s.Reads (.quiet []) (Session.run (.quiet []) start a).env →
      Step.clear ∈ b := by
    intro a s b hsplit hreads
    cases a with
    | nil =>
      obtain ⟨-, rfl⟩ := List.cons.inj hsplit
      exact List.mem_cons_self
    | cons _ a =>
      obtain ⟨-, htail⟩ := List.cons.inj hsplit
      have hs : s ∈ a ++ s :: b := List.mem_append_right a List.mem_cons_self
      rw [← List.append_eq, ← htail] at hs
      rcases List.mem_pair.mp hs with rfl | rfl
      · exact hreads.elim
      · exact hreads.elim
  have h : Snapshot (.quiet []) start before (.set (.str (text "x")) (.int 1) .null) :=
    ⟨by decide +kernel, hfirst⟩
  refine (get_layers (by decide) h rfl (by simp [mid])).1.trans ?_
  have hset : Step.lastSet? (.quiet []) start domainKey mid = none := rfl
  have hvariable : variableValue? (Session.run (.quiet []) start before).env domainKey =
    some (.str (text "variable.io")) := rfl
  simp only [found, hset, hvariable, Option.none_or, Option.some_or, Option.getD_some]
  rfl

end Config

end AnnotationCodec
