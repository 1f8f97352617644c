import AnnotationCodec.Log.Call
import AnnotationCodec.Proofs.Log.Message
import AnnotationCodec.Proofs.Output

/-!
Sequences of calls, with a log file and without one. Debug messages that are not to be shown are skipped, unless a log file
keeps them. What is kept is shown or not by a test of its own, and the two tests disagree on one choice of the settings.
-/
namespace AnnotationCodec

/-- Whether a text holds no halves of code points, and so can be written to a file. -/
def Text.IsWhole (t : Text) : Prop :=
  t.all (fun c => !c.isHighSurrogate && !c.isLowSurrogate) = true

instance (t : Text) : Decidable t.IsWhole :=
  inferInstanceAs (Decidable (_ = true))

namespace Log

/-- A message on a level. -/
structure Message where
  level : Level
  words : List Value
  attributes : List (Text × Value)

/-- A call of a function by its name. -/
structure Call where
  name : Text
  arguments : Arguments

/-- Whether a value can be printed in a message. -/
def IsPrintable (v : Value) : Prop :=
  ∃ t, displayed v = .ok t ∧ t.IsWhole

theorem IsPrintable.str {t : Text} (h : t.IsWhole) : IsPrintable (.str t) :=
  ⟨t, rfl, h⟩

namespace Message

variable (m : Message)

/-- Whether all that a message shows can be printed. -/
def IsPrintable : Prop :=
  m.level.label.IsWhole ∧ (∀ w ∈ m.words, Log.IsPrintable w) ∧ ∀ a ∈ m.attributes, a.1.IsWhole ∧ Log.IsPrintable a.2

/-- The line of a message, empty if it cannot be written. -/
def line (clock : Text) : Text :=
  match message clock m.level m.words m.attributes with
  | .ok t => t ++ text "\n"
  | .error _ => []

def log (env : Environment) (s : Settings) : Run Unit :=
  Log.log env s m.level m.words m.attributes

theorem line_ne_nil {m : Message} (h : m.IsPrintable) (clock : Text) : m.line clock ≠ [] := by
  have hshows {v : Value} (hv : Log.IsPrintable v) : Shows v := by
    obtain ⟨t, ht, -⟩ := hv
    exact ⟨t, ht⟩
  have htext : ∃ t, message clock m.level m.words m.attributes = .ok t :=
    exists_message_iff.mpr ⟨fun a ha => hshows (h.2.2 a ha).2, fun w hw => hshows (h.2.1 w hw)⟩
  obtain ⟨t, ht⟩ := htext
  simp [line, ht, text]

end Message

/-- The message in front of the end of the program. -/
def catastrophe : Message :=
  ⟨.critical, [.str (text "Catastrophic Failure!")], []⟩

/-- The message of a call on a level, whose arguments may not give the level again. -/
def Arguments.message? (a : Arguments) (l : Level) : Option Message :=
  if a.named.any fun e => e.1 = text "level" then none else some ⟨l, a.positional, a.named⟩

/-- The message of a call that logs its arguments in full. -/
def Arguments.details? (a : Arguments) : Option Message :=
  match Yaml.write .message [.list [.list a.positional, .map (a.named.map fun (k, v) => (.str k, v))]] with
  | .ok t => some ⟨.verbose, [.str t], []⟩
  | .error _ => none

/-- The message that a call is to log. A call that logs none, and one that cannot be made, has none. -/
def Call.message? (c : Call) : Option Message :=
  match levelFunctions.find? fun e => e.1 = c.name with
  | some e => c.arguments.message? e.2
  | none =>
    if c.name = text "log" then
      match leveled c.arguments with
      | .ok (v, a) =>
        match Level.ofValue v with
        | .ok l => a.message? l
        | .error _ => none
      | .error _ => none
    else if c.name = text "debug_verbose" then c.arguments.details?
    else if c.name = text "exit_catastrophic_failure" then
      match c.arguments.bind ["exitcode", "quiet"] with
      | .ok [_, quiet] =>
        if (quiet.map Value.isTruthy).getD false then none else some catastrophe
      | _ => none
    else none

/-- Whether a message is shown: it is not skipped, and displayed. -/
def Settings.shows (s : Settings) (l : Level) : Bool :=
  !s.skips l && s.displays l

/-- What a call sets debug messages and their details to, if it does. -/
def Call.switches? (c : Call) : Option (Bool × Bool) :=
  if c.name = text "set_debug" then
    match c.arguments.bind ["enabled", "verbose"] with
    | .ok [enabled, verbose] =>
      some ((enabled.map Value.isTruthy).getD true, (verbose.map Value.isTruthy).getD false)
    | _ => none
  else none

/-- The settings with debug messages and their details switched as given. -/
def Settings.switched (s : Settings) : Option (Bool × Bool) → Settings
  | some (debug, verbose) => { s with debug, verbose }
  | none => s

/-- The settings that a computation leaves. One that fails changes none. -/
def Settings.leftBy (s : Settings) (x : Run Settings) : Settings :=
  match x.result with
  | .ok s' => s'
  | .error _ => s

/-- The settings after a call. -/
def Settings.after (s : Settings) (env : Environment) (c : Call) : Settings :=
  s.leftBy (call env s c.name c.arguments)

/-- The calls of a sequence, each with the settings that it is made under. -/
def made (env : Environment) : Settings → List Call → List (Settings × Call)
  | _, [] => []
  | s, c :: cs => (s, c) :: made env (s.after env c) cs

/-- What each call of a sequence writes to standard error. -/
def shownBy (env : Environment) (s : Settings) (cs : List Call) : List Text :=
  (made env s cs).map fun (s, c) => (call env s c.name c.arguments).output.err

variable {env : Environment} {s : Settings} {l : Level} {m : Message} {c : Call} {cs : List Call} {path name : Text}

/-- A message that is shown is written as its line, when the log file, if there is one, can be opened. -/
theorem err_log (hopen : Opens env s) (m : Message) :
    (m.log env s).output.err = if s.shows m.level then m.line s.clock else [] := by
  unfold Message.log log Settings.shows Message.line
  cases s.skips m.level with
  | true => rfl
  | false =>
    simp only [Bool.false_eq_true, if_false, Run.err_lift_bind]
    cases message s.clock m.level m.words m.attributes with
    | error e => simp
    | ok t =>
      simp only [put]
      cases hfile : s.hasFile with
      | false => cases s.displays m.level <;> rfl
      | true =>
        obtain ⟨name, hname⟩ := hopen hfile
        rw [hname]
        cases s.displays m.level <;> rfl

/-! What a call does -/

/-- What is written to standard error for a message, if there is one. -/
def written (env : Environment) (s : Settings) : Option Message → Text
  | some m => (m.log env s).output.err
  | none => []

theorem err_logCall (l : Level) (a : Arguments) : (logCall env s l a).output.err = written env s (a.message? l) := by
  unfold logCall Arguments.message?
  split <;> rfl

theorem err_logDetails (a : Arguments) :
    (logDetails env s a.positional a.named).output.err = written env s a.details? := by
  unfold logDetails Arguments.details?
  rw [Run.err_lift_bind]
  cases Yaml.write .message _ <;> rfl

theorem err_print (v : Value) : (print v).output.err = [] := by
  refine (Run.err_lift_bind _ _).trans ?_
  cases Yaml.write .document [v] <;> rfl

theorem leftBy_bind {α : Type} (x : Run α) {f : α → Run Settings} (hf : ∀ a, s.leftBy (f a) = s) :
    s.leftBy (x >>= f) = s := by
  unfold Settings.leftBy
  cases h : x.result with
  | error e => rw [Run.bind_of_error f h]
  | ok a =>
    rw [Run.bind_of_ok f h]
    exact hf a

/-- A computation that ends with the settings that it was given. -/
theorem return_does (s : Settings) {x : Run Unit} {t : Text} (ht : x.output.err = t) :
    (x >>= fun _ => pure s : Run Settings).output.err = t ∧ s.leftBy (x >>= fun _ => pure s) = s :=
  ⟨(Run.err_bind_of_nil x fun _ => rfl).trans ht, leftBy_bind x fun _ => rfl⟩

/-- Switching debug messages writes nothing. -/
theorem set_debug_does (env : Environment) (s : Settings) (hset : c.name = text "set_debug") :
    (call env s c.name c.arguments).output.err = [] ∧ c.message? = none ∧
      s.after env c = s.switched c.switches? := by
  have hlevel : levelFunctions.find? (fun e => e.1 = c.name) = none := by
    rw [hset]
    decide
  have hlog : c.name ≠ text "log" := hset ▸ by decide
  have hdetails : c.name ≠ text "debug_verbose" := hset ▸ by decide
  have hexit : c.name ≠ text "exit_catastrophic_failure" := hset ▸ by decide
  simp only [Settings.after, call, Call.message?, Call.switches?, hlevel, if_neg hlog, if_neg hdetails, if_pos hset,
    if_neg hexit]
  cases c.arguments.bind ["enabled", "verbose"] with
  | error e => exact ⟨rfl, trivial, rfl⟩
  | ok values => rcases values with _ | ⟨enabled, _ | ⟨verbose, _ | ⟨x, values⟩⟩⟩ <;> exact ⟨rfl, trivial, rfl⟩

/-- A call writes to standard error what logging its message does, and leaves the settings that it switches. -/
theorem call_does (env : Environment) (s : Settings) (c : Call) :
    (call env s c.name c.arguments).output.err = written env s c.message? ∧
      s.after env c = s.switched c.switches? := by
  by_cases hset : c.name = text "set_debug"
  · obtain ⟨herr, hmessage, hafter⟩ := set_debug_does env s hset
    rw [hmessage]
    exact ⟨herr, hafter⟩
  -- all other calls end, if they do, with the settings that they were given
  have hnone : s.switched c.switches? = s := by rw [Call.switches?, if_neg hset]; rfl
  rw [hnone]
  unfold Settings.after call Call.message?
  cases levelFunctions.find? fun e => e.1 = c.name with
  | some e => exact return_does s (err_logCall e.2 c.arguments)
  | none =>
    by_cases hlog : c.name = text "log"
    · simp only [if_pos hlog]
      cases leveled c.arguments with
      | error e => exact ⟨rfl, rfl⟩
      | ok x =>
        dsimp only
        rw [Run.lift_ok_bind]
        cases Level.ofValue x.1 with
        | error e => exact ⟨rfl, rfl⟩
        | ok l =>
          rw [Run.lift_ok_bind]
          exact return_does s (err_logCall l x.2)
    by_cases hdetails : c.name = text "debug_verbose"
    · simp only [if_neg hlog, if_pos hdetails]
      exact return_does s (err_logDetails c.arguments)
    by_cases hexit : c.name = text "exit_catastrophic_failure"
    · simp only [if_neg hlog, if_neg hdetails, if_neg hset, if_pos hexit]
      cases c.arguments.bind ["exitcode", "quiet"] with
      | error e => exact ⟨rfl, rfl⟩
      | ok values =>
        rcases values with _ | ⟨code, _ | ⟨quiet, _ | ⟨x, values⟩⟩⟩
        · exact ⟨rfl, rfl⟩
        · exact ⟨rfl, rfl⟩
        · rw [Run.lift_ok_bind]
          dsimp only [exit]
          cases (quiet.map Value.isTruthy).getD false with
          | true => exact ⟨rfl, rfl⟩
          | false => exact ⟨Run.err_bind_of_nil _ fun _ => rfl, leftBy_bind _ fun _ => rfl⟩
        · exact ⟨rfl, rfl⟩
    by_cases hprint : c.name = text "print_yaml_dump"
    · simp only [if_neg hlog, if_neg hdetails, if_neg hset, if_neg hexit, if_pos hprint]
      cases c.arguments.bind ["data"] with
      | error e => exact ⟨rfl, rfl⟩
      | ok values =>
        rcases values with _ | ⟨_ | v, _ | ⟨x, values⟩⟩
        · exact ⟨rfl, rfl⟩
        · exact ⟨rfl, rfl⟩
        · exact ⟨rfl, rfl⟩
        · rw [Run.lift_ok_bind]
          exact return_does s (err_print v)
        · exact ⟨rfl, rfl⟩
    · simp only [if_neg hlog, if_neg hdetails, if_neg hset, if_neg hexit, if_neg hprint]
      exact ⟨rfl, rfl⟩

/-! With a log file and without one -/

/-- The settings with another log file. -/
def Settings.keeping (s : Settings) (path : Text) : Settings :=
  { s with path }

@[simp] theorem Settings.keeping_debug (s : Settings) (path : Text) : (s.keeping path).debug = s.debug :=
  rfl

@[simp] theorem Settings.keeping_verbose (s : Settings) (path : Text) : (s.keeping path).verbose = s.verbose :=
  rfl

theorem keeping_after (s : Settings) (c : Call) : (s.keeping path).after env c = (s.after env c).keeping path := by
  rw [(call_does env _ c).2, (call_does env s c).2]
  cases c.switches? <;> rfl

/-- The calls of a sequence are made under the same settings, but for the log file. -/
theorem made_keeping (s : Settings) (cs : List Call) :
    made env (s.keeping path) cs = (made env s cs).map fun x => (x.1.keeping path, x.2) := by
  induction cs generalizing s with
  | nil => rfl
  | cons c cs ih => rw [made, made, List.map_cons, keeping_after, ih]

theorem mem_of_mem_made {x : Settings × Call} (h : x ∈ made env s cs) : x.2 ∈ cs := by
  induction cs generalizing s with
  | nil => cases h
  | cons c cs ih =>
    rcases List.mem_cons.mp h with rfl | h
    · exact List.mem_cons_self
    · exact List.mem_cons_of_mem c (ih h)

/-- With a log file the same messages are shown as without one, but for debug messages while only their details are
switched on. -/
theorem shows_keeping_iff (s : Settings) (hpath : path ≠ []) :
    (s.keeping path).shows l = (s.keeping []).shows l ↔ (l = .debug → s.verbose = true → s.debug = true) := by
  have hfile : (s.keeping path).hasFile = true := by
    cases path with
    | nil => exact absurd rfl hpath
    | cons c path => rfl
  have hnone : (s.keeping []).hasFile = false := rfl
  unfold Settings.shows Settings.skips Settings.displays
  rw [hfile, hnone]
  simp only [Settings.keeping_debug, Settings.keeping_verbose]
  by_cases hdebug : l = .debug
  · subst hdebug
    cases s.debug <;> cases s.verbose <;> decide
  · by_cases hverbose : l = .verbose
    · subst hverbose
      cases s.debug <;> cases s.verbose <;> decide
    · simp [hdebug, hverbose]

theorem opens_keeping (hname : env.resolve path = .ok name) (s : Settings) : Opens env (s.keeping path) :=
  fun _ => ⟨name, hname⟩

theorem opens_keeping_nil (env : Environment) (s : Settings) : Opens env (s.keeping []) :=
  fun h => by cases h

theorem ne_nil_of_resolve (hname : env.resolve path = .ok name) : path ≠ [] := by
  rintro rfl
  cases hname

/-- With a log file and without one a printable message is shown alike, but for debug messages while only their
details are switched on. -/
theorem err_log_keeping_iff (hname : env.resolve path = .ok name) (s : Settings) (hm : m.IsPrintable) :
    (m.log env (s.keeping path)).output.err = (m.log env (s.keeping [])).output.err ↔
      (m.level = .debug → s.verbose = true → s.debug = true) := by
  rw [err_log (opens_keeping hname s), err_log (opens_keeping_nil env s),
    ← shows_keeping_iff s (ne_nil_of_resolve hname)]
  have hline : m.line s.clock ≠ [] := m.line_ne_nil hm s.clock
  show (if _ then m.line s.clock else []) = (if _ then m.line s.clock else []) ↔ _
  cases (s.keeping path).shows m.level <;> cases (s.keeping []).shows m.level <;> simp [hline, hline.symm]

/-- Calls that are to log printable messages write the same to standard error with a log file that can be opened as
without one, if and only if none of them is to log a debug message while details are switched on and debug messages
are not. -/
theorem file_changes_nothing_iff (env : Environment) (s : Settings) (cs : List Call)
    (hname : env.resolve path = .ok name) (hprintable : ∀ c ∈ cs, ∀ m, c.message? = some m → m.IsPrintable) :
    shownBy env (s.keeping path) cs = shownBy env (s.keeping []) cs ↔
      ∀ x ∈ made env s cs, ∀ m, x.2.message? = some m → m.level = .debug → x.1.verbose = true → x.1.debug = true := by
  unfold shownBy
  rw [made_keeping, made_keeping, List.map_map, List.map_map, List.map_inj_left]
  refine forall₂_congr fun x hx => ?_
  show (call env (x.1.keeping path) x.2.name x.2.arguments).output.err =
    (call env (x.1.keeping []) x.2.name x.2.arguments).output.err ↔ _
  rw [(call_does env _ x.2).1, (call_does env _ x.2).1]
  cases hm : x.2.message? with
  | none => simp [written]
  | some m =>
    have hone : m.IsPrintable := hprintable x.2 (mem_of_mem_made hx) m hm
    simpa [written] using err_log_keeping_iff hname x.1 hone

/-- Nothing is switched on at first, then everything, and then debug messages alone. -/
theorem file_changes_nothing_switching :
    let env : Environment := ⟨[], []⟩
    let s : Settings := .quiet (text "now")
    let word : List Value := [.str (text "m")]
    let cs : List Call :=
      [⟨text "debug", word, []⟩, ⟨text "set_debug", [.bool true], [(text "verbose", .bool true)]⟩,
        ⟨text "debug_verbose", word, []⟩, ⟨text "debug", word, [(text "k", .str (text "v"))]⟩,
        ⟨text "set_debug", [], []⟩, ⟨text "debug", word, []⟩, ⟨text "log", .str (text "verbose debug") :: word, []⟩]
    shownBy env (s.keeping (text "debug.log")) cs = shownBy env (s.keeping []) cs := by
  intro env s word cs
  have hname : env.resolve (text "debug.log") = .ok (text "debug.log") := rfl
  have hword {t : Text} (ht : t.IsWhole) : ∀ w ∈ [Value.str t], IsPrintable w :=
    List.forall_mem_singleton.mpr (.str ht)
  have hattribute : ∀ a ∈ [(text "k", Value.str (text "v"))], a.1.IsWhole ∧ IsPrintable a.2 :=
    List.forall_mem_singleton.mpr ⟨by decide, .str (by decide)⟩
  have hprintable (c : Call) (hc : c ∈ cs) (m : Message) (hm : c.message? = some m) : m.IsPrintable := by
    simp only [cs, List.mem_cons, List.not_mem_nil, or_false] at hc
    rcases hc with rfl | rfl | rfl | rfl | rfl | rfl | rfl <;> cases hm
    · exact ⟨by decide, hword (by decide), by simp⟩
    · exact ⟨by decide, hword (by decide), by simp⟩
    · exact ⟨by decide, hword (by decide), hattribute⟩
    · exact ⟨by decide, hword (by decide), by simp⟩
    · exact ⟨by decide, hword (by decide), by simp⟩
  have hmade : (made env s cs).map (fun x => (x.1.debug, x.1.verbose)) =
      [(false, false), (false, false), (true, true), (true, true), (true, true), (true, false), (true, false)] := by
    rfl
  refine (file_changes_nothing_iff env s cs hname hprintable).mpr fun x hx m _ _ hverbose => ?_
  have hswitches : (x.1.debug, x.1.verbose) ∈ (made env s cs).map fun x => (x.1.debug, x.1.verbose) :=
    List.mem_map_of_mem hx
  rw [hmade, hverbose] at hswitches
  simpa using hswitches

/-- With details switched on and debug messages off, a debug message is shown only when there is a log file to keep it. -/
theorem file_shows_debug :
    let calls : List Call := [⟨text "debug", [.str (text "m")], []⟩]
    let verbose : Text × Text := (text "MANIFEST_ANNOTATIONS_DEBUG_VERBOSE", text "y")
    let file : Text × Text := (text "MANIFEST_ANNOTATIONS_DEBUG_FILE", text "debug.log")
    let s : Settings := ⟨false, true, [], text "now"⟩
    Settings.ofEnvironment ⟨[verbose], []⟩ s.clock = .ok s ∧
      Settings.ofEnvironment ⟨[verbose, file], []⟩ s.clock = .ok (s.keeping (text "debug.log")) ∧
      Environment.resolve ⟨[verbose, file], []⟩ (text "debug.log") = .ok (text "debug.log") ∧
      shownBy ⟨[verbose], []⟩ s calls = [[]] ∧
      shownBy ⟨[verbose, file], []⟩ (s.keeping (text "debug.log")) calls = [text "now DEBUG m\n"] := by
  refine ⟨rfl, rfl, rfl, ?_, ?_⟩ <;> decide

end Log

end AnnotationCodec
