import AnnotationCodec.Proofs.Annotation.Reading
import AnnotationCodec.Proofs.Json.Truncation

/-!
Stored texts and lists of texts that were cut. However much is left, even nothing, it is not decoded, and the key is reported.
An integer has no end to miss, so nothing can be said about one.
-/
namespace AnnotationCodec

namespace Codec

variable {key v : Value} {shape : Shape} {t p k : Text}

/-- Where the reader finds something wrong, the key is reported. -/
theorem decode_of_fails (h : Json.Fails (Json.read p)) (hk : key.display = .ok k) (shape : Shape) :
    ∃ reason, decode key shape (.str p) = .error (.decoding key reason) := by
  obtain ⟨problem, left, h⟩ := h
  refine ⟨.json p problem left, ?_⟩
  have hraised : (Failure.decoding key (.json p problem left)).raised = .decoding key (.json p problem left) :=
    Failure.raised_decoding hk rfl
  have hstored : stored key (.str p) = .error (.decoding key (.json p problem left)) := by
    unfold stored
    simp only [h, decodingError, hraised]
  rw [decode, hstored]
  rfl

/-- What is left of an encoded text or list is not read. -/
theorem fails_of_cut (hs : shape ≠ .integer) (h : encode key shape v = .ok t) (hp : Json.Cut p t) :
    Json.Fails (Json.read p) := by
  obtain ⟨c, rfl, -, hw⟩ := encode_eq_ok_iff.mp h
  cases c with
  | string s =>
    cases hw
    exact Json.read_cut_literal (Json.literal_writeString s) hp
  | list ts =>
    cases hw
    exact Json.read_cut_bracketed (Json.bracketed_writeStrings ts) hp
  | integer n => exact (hs rfl).elim

/-- Every proper start of the text of a text or a list is refused with the key. So a descriptor is not read from a map in
which such a text was cut, and the key of it is reported if the fields in front of it are decoded. -/
theorem truncation_is_detected :
    (∀ shape v, shape ≠ .integer → v.Fits shape → ∃ t, (∀ key, encode key shape v = .ok t) ∧
      ∀ p, p <+: t → p ≠ t → ∀ key k, key.display = .ok k →
        ∃ reason, decode key shape (.str p) = .error (.decoding key reason)) ∧
    (∀ (d : Domain) (m : Entries) (f : Field) (before after : List Field) (v : Value) (t p : Text),
      f.family.fields = before ++ f :: after → f.shape ≠ .integer →
      encode (.str (d.schema.key f)) f.shape v = .ok t → p <+: t → p ≠ t →
      m.get? (d.schema.key f) = some (.str p) → (∀ g ∈ before, d.schema.Decodes m g) →
        ∃ reason, d.schema.get f.family (.map m) = .error (.decoding (.str (d.schema.key f)) reason)) := by
  constructor
  · intro shape v hs hv
    obtain ⟨t, ht⟩ := exists_encode hv
    refine ⟨t, fun key => (ht key).1, fun p hp hne key k hk => ?_⟩
    exact decode_of_fails (fails_of_cut hs (ht key).1 (Json.cut_iff.mpr ⟨hp, hne⟩)) hk shape
  · intro d m f before after v t p hfields hs ht hp hne hm hb
    have hheld : d.schema.held? m f = some (.str p) := by
      rw [Schema.held?, hm]
      rfl
    have hkey : (Value.str (d.schema.key f)).display = .ok (d.schema.key f) := rfl
    obtain ⟨reason, hdecode⟩ := decode_of_fails (fails_of_cut hs ht (Json.cut_iff.mpr ⟨hp, hne⟩)) hkey f.shape
    exact ⟨reason, Schema.getEntries_of_error hfields hb ((Schema.readField_of_some hheld).trans hdecode)⟩

/-- A list with a bracket and a quote in its first text and a control character in the second. -/
def bracketed : Value :=
  .list [.str (text "a]\""), .str (text "\x01")]

/-- Relationships whose security groups were cut. -/
def cutGroups (p : Text) : Entries :=
  [(.str (Schema.default.key .securityGroups), .str p), (.str (Schema.default.key .loadBalancers), .null)]

/-- The list is cut behind the bracket and the quote of its first text, and inside the number of the control character. -/
theorem truncation_is_detected_brackets :
    (∃ reason, decode (.str (text "k")) .list (.str (text "[\"a]\\\"")) = .error (.decoding (.str (text "k")) reason)) ∧
    (∃ reason, Schema.default.get .relationships (.map (cutGroups (text "[\"a]\\\"\", \"\\u00"))) =
      .error (.decoding (.str (Schema.default.key .securityGroups)) reason)) := by
  have hencode : ∀ key, encode key .list bracketed = .ok (text "[\"a]\\\"\", \"\\u0001\"]") := fun key => rfl
  constructor
  · obtain ⟨t, ht, hcut⟩ := truncation_is_detected.1 .list bracketed (by decide) ⟨_, rfl, by simp⟩
    obtain rfl := Except.ok.inj ((ht .null).symm.trans (hencode .null))
    exact hcut _ ⟨_, rfl⟩ (by decide) _ _ rfl
  · refine truncation_is_detected.2 ⟨Schema.defaultDomain, by decide, by decide⟩ _ .securityGroups [.loadBalancers] []
      bracketed _ _ rfl (by decide) (hencode _) ⟨_, rfl⟩ (by decide) rfl ?_
    intro g hg v hv
    rw [List.mem_singleton.mp hg] at hv
    cases hv

end Codec

end AnnotationCodec
