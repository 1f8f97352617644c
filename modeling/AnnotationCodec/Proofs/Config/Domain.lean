import AnnotationCodec.Config
import AnnotationCodec.Proofs.Annotation.Key
import AnnotationCodec.Proofs.Run
import AnnotationCodec.Proofs.Value.Slash

/-!
Which domains give well-formed keys. A domain is asked whether a slash is in it, which for a text means any part of
it and for a collection only a whole item; then its text is put into the keys. So a text that is accepted gives keys
with one slash each, but a collection may hold slashes that nothing has asked for.
-/
namespace AnnotationCodec

/-- All keys are made with one domain, which is not empty, and each has one slash. -/
def Schema.IsWellFormed (s : Schema) : Prop :=
  ∃ d : Text, d ≠ [] ∧ ∀ f : Field,
    s.key f = f.family.label ++ text "." ++ d ++ text "/" ++ f.suffix ∧ List.count ('/' : CodePoint) (s.key f) = 1

/-- The value that a schema is made of: the domain asked for, or the configured one if that is not truthy. -/
def Config.domain (c : Config) (env : Environment) (log : Log.Settings) (asked : Value) : Run Value :=
  if asked.isTruthy then pure asked else (c.get env log (.str domainKey) .null true).2

variable {v : Value} {t : Text} {s : Schema}

namespace Value

theorem exists_attributeList {d : Descriptor Value} (h : (descriptor d).literal = .ok t) :
    ∃ a, t = literal.attributeList a := by
  rcases d with ⟨a, c, s, d, q⟩ | ⟨t, n, l, v⟩ | ⟨l, s⟩
  · obtain ⟨a, -, h⟩ := bind_eq_ok_iff.mp h
    obtain ⟨c, -, h⟩ := bind_eq_ok_iff.mp h
    obtain ⟨s, -, h⟩ := bind_eq_ok_iff.mp h
    obtain ⟨d, -, h⟩ := bind_eq_ok_iff.mp h
    obtain ⟨q, -, h⟩ := bind_eq_ok_iff.mp h
    exact ⟨_, (Except.ok.inj h).symm⟩
  · obtain ⟨t, -, h⟩ := bind_eq_ok_iff.mp h
    obtain ⟨n, -, h⟩ := bind_eq_ok_iff.mp h
    obtain ⟨l, -, h⟩ := bind_eq_ok_iff.mp h
    obtain ⟨v, -, h⟩ := bind_eq_ok_iff.mp h
    exact ⟨_, (Except.ok.inj h).symm⟩
  · obtain ⟨l, -, h⟩ := bind_eq_ok_iff.mp h
    obtain ⟨s, -, h⟩ := bind_eq_ok_iff.mp h
    exact ⟨_, (Except.ok.inj h).symm⟩

/-- The text of a truthy value that may be asked for a slash is not empty. -/
theorem display_ne_nil {b : Bool} (htruthy : v.isTruthy = true) (hslash : v.hasSlash? = some b)
    (h : v.display = .ok t) : t ≠ [] := by
  cases v with
  | str u =>
    obtain rfl := Except.ok.inj h
    simpa [isTruthy] using htruthy
  | list vs | map es =>
    obtain ⟨ts, -, h⟩ := bind_eq_ok_iff.mp h
    obtain rfl := Except.ok.inj h
    simp [text]
  | tuple vs =>
    obtain ⟨ts, -, h⟩ := bind_eq_ok_iff.mp h
    obtain rfl := Except.ok.inj h
    split <;> simp [text]
  | set vs =>
    cases vs with
    | nil => simp [isTruthy] at htruthy
    | cons v vs =>
      obtain ⟨t, -, h⟩ := bind_eq_ok_iff.mp h
      obtain ⟨ts, -, h⟩ := bind_eq_ok_iff.mp h
      obtain rfl := Except.ok.inj h
      simp [text]
  | descriptor d =>
    obtain ⟨a, rfl⟩ := exists_attributeList h
    simp [literal.attributeList, text]
  | _ => simp [hasSlash?] at hslash

end Value

namespace Schema

theorem make_eq_ok_iff : make v = .ok s ↔
    v.isTruthy = true ∧ v.hasSlash? = some false ∧ v.display = .ok s.label ∧ s.domain = v := by
  unfold make
  cases v.isTruthy with
  | false => simp
  | true =>
    cases v.hasSlash? with
    | none => simp
    | some b =>
      cases b with
      | true => simp
      | false =>
        cases v.display with
        | error e => cases e; simp
        | ok t =>
          obtain ⟨d, l⟩ := s
          simp [eq_comm, and_comm]

theorem count_slash_key (f : Field) :
    List.count ('/' : CodePoint) (s.key f) = List.count ('/' : CodePoint) s.label + 1 := by
  have hfamily : List.count ('/' : CodePoint) f.family.label = 0 := List.count_eq_zero.mpr f.no_slash_family
  have hsuffix : List.count ('/' : CodePoint) f.suffix = 0 := by
    cases f <;> decide
  have hpoint : List.count ('/' : CodePoint) (text ".") = 0 := by decide
  have hslash : List.count ('/' : CodePoint) (text "/") = 1 := by decide
  simp only [key, List.count_append, hfamily, hsuffix, hpoint, hslash]
  omega

/-- The keys that a value gives are well-formed if no slash is in the value, in a text or in bytes, however deep. -/
theorem isWellFormed_iff (h : make v = .ok s) : s.IsWellFormed ↔ ¬ v.HoldsSlash := by
  obtain ⟨htruthy, hasked, hlabel, -⟩ := make_eq_ok_iff.mp h
  rw [← Value.slash_mem_display_iff hlabel, ← List.count_eq_zero]
  constructor
  · rintro ⟨d, -, hkeys⟩
    have hcount := (hkeys .app).2
    rw [count_slash_key] at hcount
    omega
  · intro hcount
    refine ⟨s.label, Value.display_ne_nil htruthy hasked hlabel, fun f => ⟨rfl, ?_⟩⟩
    rw [count_slash_key, hcount]

/-- A text that is accepted holds no slash. -/
theorem isWellFormed_of_text (h : make (.str t) = .ok s) : s.IsWellFormed := by
  obtain ⟨-, hasked, -⟩ := make_eq_ok_iff.mp h
  rw [isWellFormed_iff h]
  simpa [Value.hasSlash?, Value.HoldsSlash] using hasked

end Schema

namespace Config

variable {env : Environment} {log : Log.Settings} {c : Config} {asked : Value}

theorem schema_eq_ok_iff : (c.schema env log asked).2.result = .ok s ↔
    ∃ v, (c.domain env log asked).result = .ok v ∧ Schema.make v = .ok s := by
  cases h : asked.isTruthy with
  | true =>
    simp only [schema, domain, h, if_true, Run.result_lift_eq_ok_iff, Run.result_pure, Except.ok.injEq,
      exists_eq_left']
  | false =>
    simp only [schema, domain, h, Bool.false_eq_true, if_false, Run.result_bind_eq_ok_iff,
      Run.result_lift_eq_ok_iff]

/-- A domain that is accepted, be it asked for or configured, puts a text that is not empty into all keys. They are
well-formed if and only if no slash is in the domain, in a text or in bytes, however deep they are found; so they always
are for a text. -/
theorem keys_of_domain (h : (c.schema env log asked).2.result = .ok s) :
    (c.domain env log asked).result = .ok s.domain ∧ s.label ≠ [] ∧
      (s.IsWellFormed ↔ ¬ s.domain.HoldsSlash) ∧
      ∀ t, s.domain = .str t → s.IsWellFormed := by
  obtain ⟨v, hv, hmake⟩ := schema_eq_ok_iff.mp h
  obtain ⟨htruthy, hasked, hlabel, rfl⟩ := Schema.make_eq_ok_iff.mp hmake
  refine ⟨hv, Value.display_ne_nil htruthy hasked hlabel, Schema.isWellFormed_iff hmake, fun t ht => ?_⟩
  rw [ht] at hmake
  exact Schema.isWellFormed_of_text hmake

/-- A text that is configured gives well-formed keys. -/
theorem keys_of_configured_text :
    let config : Config := ⟨some [(domainKey, .str (text "team.io"))]⟩
    let keys : Schema := ⟨.str (text "team.io"), text "team.io"⟩
    (config.schema ⟨[], []⟩ (.quiet []) .null).2.result = .ok keys ∧ keys.IsWellFormed := by
  intro config keys
  have h : (config.schema ⟨[], []⟩ (.quiet []) .null).2.result = .ok keys := by
    rfl
  exact ⟨h, (keys_of_domain h).2.2.2 _ rfl⟩

/-- A list is accepted unless one of its items is a slash; the slash in this item stays in the keys. -/
theorem keys_of_list_with_slash :
    let keys : Schema := ⟨.list [.str (text "a/b")], text "['a/b']"⟩
    (fresh.schema ⟨[], []⟩ (.quiet []) (.list [.str (text "a/b")])).2.result = .ok keys ∧
      keys.key .cluster = text "moniker.['a/b']/cluster" ∧ ¬ keys.IsWellFormed := by
  intro keys
  have hmake : Schema.make (.list [.str (text "a/b")]) = .ok keys := by
    rfl
  refine ⟨schema_eq_ok_iff.mpr ⟨_, rfl, hmake⟩, by decide, fun h => ?_⟩
  refine (Schema.isWellFormed_iff hmake).mp h (Or.inl ?_)
  show ('/' : CodePoint) ∈ text "a/b"
  decide

end Config

end AnnotationCodec
