import AnnotationCodec.Config
import AnnotationCodec.Proofs.Except
import AnnotationCodec.Proofs.Log.Message

/-!
The layers of the configuration. What is read for a key is the value of its variable, if the key is known and the
variable not empty, and else the last value under the key in the configuration file.
-/
namespace AnnotationCodec

namespace Settled

/-- The last value under a key. -/
def last? (key : Text) (vs : Settled) : Option Value :=
  vs.reverse.findSome? fun e => if e.1 = key then some e.2 else none

variable {k key : Text} {v : Value} {vs old new : Settled}

theorem get?_set_self (key : Text) (v : Value) (vs : Settled) : (vs.set key v).get? key = some v := by
  induction vs with
  | nil => simp [set, get?]
  | cons e vs ih =>
    obtain ⟨k, w⟩ := e
    by_cases hk : k = key
    · simp [set, get?, hk]
    · simp [set, get?, hk, ih]

theorem get?_set_of_ne (h : key ≠ k) (v : Value) (vs : Settled) : (vs.set key v).get? k = vs.get? k := by
  induction vs with
  | nil => simp [set, get?, h]
  | cons e vs ih =>
    obtain ⟨j, w⟩ := e
    by_cases hj : j = key
    · simp [set, get?, hj, h]
    · simp [set, get?, hj, ih]

theorem last?_cons (e : Text × Value) (vs : Settled) :
    last? k (e :: vs) = (last? k vs).or (if e.1 = k then some e.2 else none) := by
  simp [last?, List.findSome?_append]

/-- After an update a key has the last of the new values for it, and its old one if there is none. -/
theorem get?_update (old new : Settled) : (old.update new).get? k = (last? k new).or (old.get? k) := by
  induction new generalizing old with
  | nil => rfl
  | cons e new ih =>
    show (update (old.set e.1 e.2) new).get? k = _
    rw [ih, last?_cons]
    by_cases he : e.1 = k
    · rw [← he, get?_set_self]
      simp
    · rw [get?_set_of_ne he]
      simp [he]

end Settled

namespace Config

/-- The path of the configuration file, empty if there is none. -/
def filePath (env : Environment) : Text :=
  ((env.named? "CONFIG").getD []).strip

/-- The value in a file, null if the file holds no document. -/
def document (env : Environment) (path : Text) : Except Failure Value := do
  let content ← env.read path
  let stream ← Yaml.Stream.ofText content
  return ((← stream.single?).map Yaml.Document.value).getD .null

/-- The entries that the value in a configuration file stands for: what is not truthy holds none. -/
def entriesOf (path : Text) : Value → Except Failure Entries
  | .map es => .ok es
  | v => if v.isTruthy then .error (.invalidConfigFile path) else .ok []

/-- The entries in the configuration file, if there is one. -/
def fileEntries (env : Environment) : Except Failure Entries :=
  if (filePath env).isEmpty then .ok [] else (document env (filePath env)).bind (entriesOf (filePath env))

/-- The last value under a key that has the text `k`. -/
def lastShown? (k : Text) (es : Entries) : Option Value :=
  es.reverse.findSome? fun e => if (Log.displayed e.1).toOption = some k then some e.2 else none

/-- The last value in the configuration file under a key that has the text `k`. -/
def fileValue? (env : Environment) (k : Text) : Option Value :=
  (fileEntries env).toOption.bind (lastShown? k)

/-- The value of the variable of a known key, unless it is empty. -/
def variableValue? (env : Environment) (k : Text) : Option Value :=
  (defaults.get? k).bind fun _ => (override? env k).map .str

variable {env : Environment} {log : Log.Settings} {es : Entries} {named vs : Settled} {k : Text} {key : Value}

theorem lastShown?_cons {name : Text} (h : Log.displayed key = .ok name) (v : Value) (es : Entries) :
    lastShown? k ((key, v) :: es) = (lastShown? k es).or (if name = k then some v else none) := by
  simp [lastShown?, List.findSome?_append, h, Except.toOption]

/-- The entries of a map have the same last values under the texts of their keys. -/
theorem last?_namedEntries (h : namedEntries es = .ok named) : named.last? k = lastShown? k es := by
  induction es generalizing named with
  | nil =>
    cases h
    rfl
  | cons e es ih =>
    obtain ⟨key, v⟩ := e
    obtain ⟨name, hname, h⟩ := bind_eq_ok_iff.mp h
    obtain ⟨rest, hrest, h⟩ := bind_eq_ok_iff.mp h
    obtain rfl := Except.ok.inj h
    rw [Settled.last?_cons, ih hrest, lastShown?_cons hname]

/-- The values in a file are those of its entries. -/
theorem fileValues_eq (env : Environment) (path : Text) : fileValues env path =
    ((document env path).bind (entriesOf path)).bind fun es => (namedEntries es).map (Settled.update []) := by
  unfold fileValues document
  cases env.read path with
  | error f => rfl
  | ok content =>
    cases hs : Yaml.Stream.ofText content with
    | error f => simp [bind, Except.bind, hs]
    | ok stream =>
      cases hd : stream.single? with
      | error f => simp [bind, Except.bind, hs, hd]
      | ok d =>
        simp only [bind, Except.bind, hs, hd, pure, Except.pure]
        cases (d.map Yaml.Document.value).getD .null with
        | map es => cases es <;> rfl
        | _ =>
          simp only [entriesOf]
          split <;> rfl

/-- Variables are laid over values, for the keys that are known. -/
theorem get?_overrides (ds : Settled) : Settled.get? k (ds.foldl (fun vs e =>
      match override? env e.1 with
      | some t => vs.set e.1 (.str t)
      | none => vs) vs) =
    ((ds.get? k).bind fun _ => (override? env k).map .str).or (vs.get? k) := by
  induction ds generalizing vs with
  | nil => rfl
  | cons e ds ih =>
    obtain ⟨key, v⟩ := e
    rw [List.foldl_cons, ih, Settled.get?]
    by_cases hk : key = k
    · subst hk
      cases hv : override? env key <;> cases Settled.get? key ds <;> simp [Settled.get?_set_self]
    · cases hv : override? env key <;> simp [hk, Settled.get?_set_of_ne]

theorem fileValues_get? (h : fileValues env (filePath env) = .ok vs) (hp : (filePath env).isEmpty = false) :
    vs.get? k = fileValue? env k := by
  rw [fileValues_eq] at h
  obtain ⟨es, hes, h⟩ := bind_eq_ok_iff.mp h
  obtain ⟨named, hnamed, rfl⟩ := map_eq_ok_iff.mp h
  have hentries : fileEntries env = .ok es := by
    rw [fileEntries, if_neg (by simp [hp]), hes]
  rw [Settled.get?_update, last?_namedEntries hnamed, fileValue?, hentries]
  simp [Settled.get?, Except.toOption]

/-- What is read for a key comes from its variable, and else from the file. -/
theorem fetch_get? (h : (fetch env log).result = .ok vs) :
    vs.get? k = (variableValue? env k).or (fileValue? env k) := by
  have hoverrides : ∀ {file : Settled}, file.get? k = fileValue? env k →
      Settled.get? k (defaults.foldl (fun vs e =>
        match override? env e.1 with
        | some t => vs.set e.1 (.str t)
        | none => vs) file) = (variableValue? env k).or (fileValue? env k) := by
    intro file hfile
    rw [get?_overrides, hfile, variableValue?]
  unfold fetch at h
  cases hp : (filePath env).isEmpty with
  | true =>
    have hnone : fileValue? env k = none := by
      rw [fileValue?, fileEntries, if_pos hp]
      rfl
    have hp' : List.isEmpty ((env.named? "CONFIG").getD []).strip = true := hp
    simp only [hp', if_true, Run.result_bind_eq_ok_iff] at h
    obtain ⟨file, hfile, h⟩ := h
    cases hfile
    cases h
    exact hoverrides hnone.symm
  | false =>
    have hp' : List.isEmpty ((env.named? "CONFIG").getD []).strip = false := hp
    simp only [hp', Bool.false_eq_true, if_false, Run.result_bind_eq_ok_iff, Run.result_lift_eq_ok_iff] at h
    obtain ⟨-, -, file, hfile, h⟩ := h
    cases h
    exact hoverrides (fileValues_get? hfile hp)

end Config

end AnnotationCodec
