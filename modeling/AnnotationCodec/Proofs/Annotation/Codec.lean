import AnnotationCodec.Annotation.Codec
import AnnotationCodec.Proofs.Json.Writer
import Mathlib.Algebra.Group.Int.Defs

/-!
The codec of field values. Decoding accepts the texts of a shape and no others, and what has been encoded is
decoded as it was.
-/
namespace AnnotationCodec

/-- A value that a shape can hold. An integer must be within the digit limit, and a truth value is none. -/
def Value.Fits : Shape → Value → Prop
  | .string, v => ∃ t, v = .str t
  | .list, v => ∃ vs, v = .list vs ∧ ∀ w ∈ vs, ∃ t, w = .str t
  | .integer, v => ∃ n, v = .int n ∧ n.natAbs < 10 ^ digitLimit

namespace Failure

variable {f : Failure} {key : Value} {reason : Reason} {k r start : Text} {m : Option Text}

theorem raised_eq_self (h : f.message? = .ok m) : f.raised = f := by
  rw [raised, h]

theorem keyed_eq_ok (hk : key.display = .ok k) (hr : reason.message = .ok r) :
    keyed start key reason = .ok (some (start ++ text " for '" ++ k ++ text "': " ++ r)) := by
  rw [keyed, hr, hk]
  rfl

theorem raised_encoding (hk : key.display = .ok k) (hr : reason.message = .ok r) :
    (encoding key reason).raised = encoding key reason :=
  raised_eq_self (keyed_eq_ok hk hr)

theorem raised_decoding (hk : key.display = .ok k) (hr : reason.message = .ok r) :
    (decoding key reason).raised = decoding key reason :=
  raised_eq_self (keyed_eq_ok hk hr)

/-- What is met in the place of a failure is the failure, or that its message has no text. -/
theorem raised_cases (f : Failure) : f.raised = f ∨ f.raised = .unwritable := by
  cases h : f.message? with
  | ok m => exact .inl (raised_eq_self h)
  | error e => exact .inr (by rw [raised, h])

end Failure

namespace Content

variable {shape : Shape} {c : Content} {t : Text} {v : Value} {n : Int}

theorem toValue_of_ofValue (h : ofValue shape v = .ok c) : c.shape = shape ∧ v = c.toValue := by
  unfold ofValue at h
  split at h
  · cases h
    exact ⟨rfl, rfl⟩
  · obtain ⟨ts, hts, rfl⟩ := map_eq_ok_iff.mp h
    exact ⟨rfl, congrArg Value.list (eq_map_of_textsFrom hts)⟩
  · cases h
    exact ⟨rfl, rfl⟩
  · cases h

theorem eq_of_toValue {d : Content} (hs : c.shape = d.shape) (hv : c.toValue = d.toValue) : c = d := by
  have h := ofValue_toValue c
  rw [hs, hv, ofValue_toValue] at h
  exact (Except.ok.inj h).symm

theorem write_integer (h : n.natAbs < 10 ^ digitLimit) : write (.integer n) = .ok (Integer.decimal n) := by
  rw [write, Integer.write, Nat.pow_eq, if_pos h]

theorem write_integer_of_le (h : 10 ^ digitLimit ≤ n.natAbs) : write (.integer n) = .error .tooManyDigits := by
  rw [write, Integer.write, Nat.pow_eq, if_neg (Nat.not_lt.mpr h)]

theorem lt_of_write_integer (h : write (.integer n) = .ok t) : n.natAbs < 10 ^ digitLimit := by
  by_contra hn
  rw [write_integer_of_le (Nat.not_lt.mp hn)] at h
  cases h

theorem exists_texts {vs : List Value} (h : ∀ w ∈ vs, ∃ t, w = .str t) : ∃ ts : List Text, vs = ts.map .str := by
  induction vs with
  | nil => exact ⟨[], rfl⟩
  | cons v vs ih =>
    obtain ⟨t, rfl⟩ := h v (by simp)
    obtain ⟨ts, rfl⟩ := ih (fun w hw => h w (by simp [hw]))
    exact ⟨t :: ts, rfl⟩

/-- The values that fit a shape are those of its contents that have a text. -/
theorem fits_iff : v.Fits shape ↔ ∃ (c : Content) (t : Text), c.shape = shape ∧ c.toValue = v ∧ c.write = .ok t := by
  constructor
  · intro h
    cases shape with
    | string =>
      obtain ⟨t, rfl⟩ := h
      exact ⟨.string t, _, rfl, rfl, rfl⟩
    | list =>
      obtain ⟨vs, rfl, hvs⟩ := h
      obtain ⟨ts, rfl⟩ := exists_texts hvs
      exact ⟨.list ts, _, rfl, rfl, rfl⟩
    | integer =>
      obtain ⟨n, rfl, hn⟩ := h
      exact ⟨.integer n, _, rfl, rfl, write_integer hn⟩
  · rintro ⟨c, t, rfl, rfl, ht⟩
    cases c with
    | string s => exact ⟨s, rfl⟩
    | list ts => exact ⟨_, rfl, by simp⟩
    | integer n => exact ⟨n, rfl, lt_of_write_integer ht⟩

/-- The written form of a content denotes its value. -/
theorem denotes_write (h : c.write = .ok t) : Json.Denotes c.shape t c.toValue := by
  have hb : Json.Blank [] := by simp [Json.Blank]
  rw [← List.append_nil t, ← List.nil_append t]
  cases c with
  | string s =>
    cases h
    exact .string hb (Json.literal_writeString s) hb
  | list ts =>
    cases h
    exact .list hb (Json.bracketed_writeStrings ts) hb
  | integer n =>
    have hn := lt_of_write_integer h
    rw [write_integer hn] at h
    cases h
    exact .integer hb (Json.signed_decimal hn) hb

end Content

namespace Json

variable {shape : Shape} {t : Text} {v : Value}

theorem natAbs_lt {ds : Text} (h : Numeral ds) (hl : ds.length ≤ digitLimit) :
    Decimal.ofDigits ds < 10 ^ digitLimit := by
  have hd := Decimal.ofDigits_lt fun c hc => Decimal.isDigit_iff.mp (digit_of_numeral h c hc)
  exact Nat.lt_of_lt_of_le hd (Nat.pow_le_pow_right (by omega) hl)

/-- A value that a text denotes in a shape fits it. -/
theorem fits_of_denotes (h : Denotes shape t v) : v.Fits shape := by
  cases h with
  | @string a x b s => exact ⟨s, rfl⟩
  | @list a x b ss => exact ⟨_, rfl, by simp⟩
  | @integer a x b n ha h hb =>
    refine ⟨n, rfl, ?_⟩
    cases h with
    | @plain ds hn hl => simpa using natAbs_lt hn hl
    | @minus ds hn hl => simpa using natAbs_lt hn hl

end Json

namespace Codec

variable {key : Value} {shape : Shape} {c : Content} {t : Text} {v : Value}

theorem encode_eq_ok_iff :
    encode key shape v = .ok t ↔ ∃ c : Content, c.shape = shape ∧ c.toValue = v ∧ c.write = .ok t := by
  unfold encode
  split
  · next hn =>
    constructor
    · intro h
      cases h
    · rintro ⟨c, rfl, rfl, h⟩
      cases c <;> cases hn
  · split
    · next reason hr =>
      constructor
      · intro h
        cases h
      · rintro ⟨c, rfl, rfl, h⟩
        rw [Content.ofValue_toValue] at hr
        cases hr
    · next c hc =>
      obtain ⟨rfl, rfl⟩ := Content.toValue_of_ofValue hc
      constructor
      · intro h
        split at h
        · cases h
        · next u hu =>
          cases h
          exact ⟨c, rfl, rfl, hu⟩
      · rintro ⟨d, hs, hv, h⟩
        rw [← Content.eq_of_toValue hs hv, h]

theorem stored_eq_ok_iff : stored key (.str t) = .ok v ↔ Json.read t = .ok v := by
  unfold stored
  dsimp only
  constructor
  · intro h
    split at h
    · next w hw => rw [hw, Except.ok.inj h]
    all_goals cases h
  · intro h
    rw [h]

theorem decode_eq_ok_iff_read :
    decode key shape (.str t) = .ok v ↔ Json.read t = .ok v ∧ ∃ c, Content.ofValue shape v = .ok c := by
  constructor
  · intro h
    obtain ⟨w, hw, hd⟩ := bind_eq_ok_iff.mp h
    split at hd
    · next c hc =>
      obtain rfl : w = v := (Content.toValue_of_ofValue hc).2.trans (Except.ok.inj hd)
      exact ⟨stored_eq_ok_iff.mp hw, c, hc⟩
    · cases hd
  · rintro ⟨h, c, hc⟩
    refine bind_eq_ok_iff.mpr ⟨v, stored_eq_ok_iff.mpr h, ?_⟩
    rw [hc, (Content.toValue_of_ofValue hc).2]
    rfl

/-- Decoding gives exactly what a text denotes. -/
theorem decode_eq_ok_iff : decode key shape (.str t) = .ok v ↔ Json.Denotes shape t v := by
  rw [decode_eq_ok_iff_read]
  constructor
  · rintro ⟨h, c, hc⟩
    obtain ⟨rfl, rfl⟩ := Content.toValue_of_ofValue hc
    exact Json.denotes_of_read h
  · intro h
    obtain ⟨c, u, rfl, rfl, -⟩ := Content.fits_iff.mp (Json.fits_of_denotes h)
    exact ⟨Json.read_of_denotes h, c, Content.ofValue_toValue c⟩

/-- What fits a shape is stored as one text, whatever the key, and that text is decoded as the same value. -/
theorem exists_encode (h : v.Fits shape) :
    ∃ t, ∀ key, encode key shape v = .ok t ∧ decode key shape (.str t) = .ok v := by
  obtain ⟨c, t, rfl, rfl, ht⟩ := Content.fits_iff.mp h
  exact ⟨t, fun key => ⟨encode_eq_ok_iff.mpr ⟨c, rfl, rfl, ht⟩, decode_eq_ok_iff.mpr (Content.denotes_write ht)⟩⟩

theorem encode_of_le {n : Int} {k : Text} (hk : key.display = .ok k) (hn : 10 ^ digitLimit ≤ n.natAbs) :
    encode key .integer (.int n) = .error (.encoding key .unwritable) := by
  have hr : (Failure.encoding key .unwritable).raised = .encoding key .unwritable := Failure.raised_encoding hk rfl
  unfold encode
  simp only [Content.ofValue, Content.write_integer_of_le hn, encodingError, hr]
  rfl

/-! Failures -/

theorem key_of_encodingError {α : Type} {reason r : Reason} {k : Value}
    (h : (encodingError key reason : Except Failure α) = .error (.encoding k r)) : k = key := by
  have hraised := Except.error.inj h
  rcases (Failure.encoding key reason).raised_cases with hr | hr
  · exact (Failure.encoding.inj (hr.symm.trans hraised)).1.symm
  · cases hr.symm.trans hraised

theorem key_of_decodingError {α : Type} {reason r : Reason} {k : Value}
    (h : (decodingError key reason : Except Failure α) = .error (.decoding k r)) : k = key := by
  have hraised := Except.error.inj h
  rcases (Failure.decoding key reason).raised_cases with hr | hr
  · exact (Failure.decoding.inj (hr.symm.trans hraised)).1.symm
  · cases hr.symm.trans hraised

/-- A failure to encode a value names the key that it was to be stored under. -/
theorem key_of_encode {r : Reason} {k : Value} (h : encode key shape v = .error (.encoding k r)) : k = key := by
  unfold encode at h
  split at h
  · have hraised := Except.error.inj h
    rcases (Failure.nullValue key).raised_cases with hr | hr <;> cases hr.symm.trans hraised
  · split at h
    · exact key_of_encodingError h
    · split at h
      · exact key_of_encodingError h
      · cases h

theorem key_of_stored {r : Reason} {k : Value} (h : stored key v = .error (.decoding k r)) : k = key := by
  unfold stored at h
  split at h
  · split at h
    · cases h
    · exact key_of_decodingError h
    · exact key_of_decodingError h
    · cases h
  · exact key_of_decodingError h

/-- A failure to decode what is stored names the key that it is stored under. -/
theorem key_of_decode {r : Reason} {k : Value} (h : decode key shape v = .error (.decoding k r)) : k = key := by
  cases hw : stored key v with
  | error e =>
    have he : decode key shape v = .error e := by rw [decode, hw]; rfl
    obtain rfl := Except.error.inj (he.symm.trans h)
    exact key_of_stored hw
  | ok w =>
    cases hc : Content.ofValue shape w with
    | ok c =>
      have hd : decode key shape v = .ok c.toValue := by
        simp only [decode, hw, bind, Except.bind, hc]
        rfl
      cases hd.symm.trans h
    | error reason =>
      have hd : decode key shape v = decodingError key reason := by
        simp only [decode, hw, bind, Except.bind, hc]
      exact key_of_decodingError (hd.symm.trans h)

/-- Decoding returns what a text denotes in the shape, and fails on every text that denotes nothing in it. -/
theorem decode_accepts_grammar (key : Value) (shape : Shape) (t : Text) :
    (∀ v, decode key shape (.str t) = .ok v ↔ Json.Denotes shape t v) ∧
      ((∃ f, decode key shape (.str t) = .error f) ↔ ¬ ∃ v, Json.Denotes shape t v) := by
  refine ⟨fun v => decode_eq_ok_iff, ?_⟩
  have hsome : (∃ v, Json.Denotes shape t v) ↔ ∃ v, decode key shape (.str t) = .ok v :=
    exists_congr fun v => decode_eq_ok_iff.symm
  rw [hsome]
  cases decode key shape (.str t) <;> simp

/-- What fits a shape comes back from its text as it was, and an integer beyond the digit limit has no text.
What a text is decoded as fits the shape, and comes back from the text that is written for it. -/
theorem encode_decode_round_trip :
    (∀ shape v, v.Fits shape →
      ∃ t, ∀ key, encode key shape v = .ok t ∧ decode key shape (.str t) = .ok v) ∧
    (∀ (key : Value) (n : Int), (∃ k, key.display = .ok k) → 10 ^ digitLimit ≤ n.natAbs →
      encode key .integer (.int n) = .error (.encoding key .unwritable)) ∧
    (∀ key shape t w, decode key shape (.str t) = .ok w →
      w.Fits shape ∧ ∃ u, ∀ key, encode key shape w = .ok u ∧ decode key shape (.str u) = .ok w) := by
  refine ⟨fun shape v h => exists_encode h, ?_, ?_⟩
  · rintro key n ⟨k, hk⟩ hn
    exact encode_of_le hk hn
  · intro key shape t w h
    have hw := Json.fits_of_denotes (decode_eq_ok_iff.mp h)
    exact ⟨hw, exists_encode hw⟩

/-- Halves of a code point in texts of their own, an integer just beyond the limit, and a zero with a sign. -/
theorem round_trip_halves_and_limits :
    (∃ t, ∀ key, encode key .list (.list [.str [0xD83D], .str [0xDE00, 0], .str []]) = .ok t ∧
      decode key .list (.str t) = .ok (.list [.str [0xD83D], .str [0xDE00, 0], .str []])) ∧
    encode (.str (text "k")) .integer (.int (10 ^ digitLimit)) = .error (.encoding (.str (text "k")) .unwritable) ∧
    (decode (.str (text "k")) .integer (.str (text " -0")) = .ok (.int 0) ∧ (Value.int 0).Fits .integer) := by
  have hd : decode (.str (text "k")) .integer (.str (text " -0")) = .ok (.int 0) := rfl
  refine ⟨encode_decode_round_trip.1 _ _ ⟨_, rfl, by simp⟩, ?_, hd, (encode_decode_round_trip.2.2 _ _ _ _ hd).1⟩
  exact encode_decode_round_trip.2.1 _ _ ⟨_, rfl⟩ (by simp [Int.natAbs_pow])

end Codec

end AnnotationCodec
