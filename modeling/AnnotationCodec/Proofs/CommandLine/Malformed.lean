import AnnotationCodec.Proofs.Annotation.Decoding
import AnnotationCodec.Proofs.CommandLine.Loops
import AnnotationCodec.Proofs.Manifest.Reading

/-!
What anyone may have stored. Whatever the annotations of a manifest are, a descriptor is read from them or the key of one of
its fields is reported, as long as no text is nested deeper than the reader goes; on deeper texts the reader gives up.
-/
namespace AnnotationCodec

theorem Manifest.get_of_annotations? {m : Manifest} {a : Entries} (h : m.entries.annotations? = some a) (s : Schema)
    (family : Family) : m.get s family = s.getEntries family a := by
  rw [get, readAnnotations_of_annotations? h]
  rfl

/-- The account of a manifest that can be named is given, or the key of an annotation is reported. -/
theorem CommandLine.Workplace.account_of_reachable {w : Workplace} {m : Manifest} {a : Entries} (hn : m.Named)
    (ha : m.entries.annotations? = some a) (h : ∀ f v, w.schema.held? a f = some v → v.IsReachable) :
    (∃ account, w.account m = .ok account) ∨
      ∃ f reason, w.account m = .error (.decoding (.str (w.schema.key f)) reason) := by
  obtain ⟨name, hname⟩ := Manifest.exists_name hn
  have hget (family : Family) : (∃ d, m.get w.schema family = .ok d) ∨
      ∃ f reason, m.get w.schema family = .error (.decoding (.str (w.schema.key f)) reason) := by
    rw [Manifest.get_of_annotations? ha]
    rcases Schema.getEntries_of_reachable (fun f _ v hv => h f v hv) with hok | ⟨f, -, reason, he⟩
    · exact .inl hok
    · exact .inr ⟨f, reason, he⟩
  unfold account
  rw [hname]
  rcases hget .moniker with ⟨moniker, hm⟩ | ⟨f, reason, he⟩
  · rw [hm]
    rcases hget .artifact with ⟨artifact, hf⟩ | ⟨f, reason, he⟩
    · rw [hf]
      rcases hget .relationships with ⟨relationships, hr⟩ | ⟨f, reason, he⟩
      · rw [hr]
        exact .inl ⟨_, rfl⟩
      · exact .inr ⟨f, reason, by rw [he]; rfl⟩
    · exact .inr ⟨f, reason, by rw [he]; rfl⟩
  · exact .inr ⟨f, reason, by rw [he]; rfl⟩

namespace Codec

/-- What is decoded fits its shape. Anything that is stored is decoded or refused with its key, unless it is a text that is
nested deeper than the reader goes or the key has no text. JSON that is nested deeper is never decoded, and a key without a text
is never reported. So a descriptor is read from a map that holds nothing out of reach, or the key of one of its fields is
reported, and the same is true of the account of a manifest. -/
theorem decode_names_key (key : Value) (shape : Shape) (v : Value) :
    (∀ w, decode key shape v = .ok w → w.Fits shape) ∧
    (key.IsBounded → v.IsReachable →
      (∃ w, decode key shape v = .ok w) ∨ ∃ reason, decode key shape v = .error (.decoding key reason)) ∧
    (∀ t, v = .str t → Json.IsJson t → Json.depthLimit < Json.nesting t → decode key shape v = .error .tooDeep) ∧
    (∀ e, ¬ key.IsBounded → decode key shape v = .error e → e = .unwritable ∨ e = .tooDeep) ∧
    (∀ (s : Schema) family (m : Entries), (∀ f ∈ family.fields, ∀ u, s.held? m f = some u → u.IsReachable) →
      (∃ d, s.get family (.map m) = .ok d) ∨
        ∃ f ∈ family.fields, ∃ reason, s.get family (.map m) = .error (.decoding (.str (s.key f)) reason)) ∧
    (∀ (w : CommandLine.Workplace) (m : Manifest) (a : Entries), m.Named → m.entries.annotations? = some a →
      (∀ f u, w.schema.held? a f = some u → u.IsReachable) →
      (∃ account, w.account m = .ok account) ∨
        ∃ f reason, w.account m = .error (.decoding (.str (w.schema.key f)) reason)) := by
  refine ⟨?_, ?_, ?_, ?_, ?_, ?_⟩
  · intro w h
    exact fits_of_decode h
  · intro hk hv
    exact decode_of_reachable key hk hv shape
  · rintro t rfl ht hn
    exact decode_of_tooDeep ((Json.read_tooDeep_iff ht).mpr hn)
  · intro e hk h
    exact decode_of_not_bounded hk h
  · intro s family m h
    exact Schema.getEntries_of_reachable h
  · intro w m a hn ha h
    exact w.account_of_reachable hn ha h

/-- A list that breaks off. -/
def brokenOff : Text :=
  text "[\"a\", "

/-- Annotations with that text for the sequence of a moniker, and with a list for its stack. -/
def broken : Entries :=
  [(.str (Schema.default.key .sequence), .str brokenOff), (.str (Schema.default.key .stack), .list [])]

theorem isReachable_broken (f : Field) (v : Value) (h : Schema.default.held? broken f = some v) : v.IsReachable := by
  rintro t rfl
  have hmem := Entries.mem_of_get? (Option.filter_eq_some_iff.mp h).1
  simp only [broken, List.mem_cons, Prod.mk.injEq, Value.str.injEq, reduceCtorEq, and_false, List.not_mem_nil, or_false] at hmem
  rw [hmem.2]
  decide

theorem decode_names_key_broken :
    (∃ reason, decode (.str (text "k")) .list (.str brokenOff) = .error (.decoding (.str (text "k")) reason)) ∧
    (∃ f ∈ Family.moniker.fields, ∃ reason,
      Schema.default.get .moniker (.map broken) = .error (.decoding (.str (Schema.default.key f)) reason)) ∧
    (∀ env log, ∃ f reason, (⟨env, log, Schema.default⟩ : CommandLine.Workplace).account
        (.ofEntries [(.str (text "metadata"), .map [(.str (text "annotations"), .map broken)])]) =
      .error (.decoding (.str (Schema.default.key f)) reason)) ∧
    decode (.str (text "k")) .list (.str (Json.nestedLists 1000)) = .error .tooDeep ∧
    (∃ e, decode beyondLimit .list .null = .error e ∧ (e = .unwritable ∨ e = .tooDeep)) := by
  obtain ⟨-, hdecode, -, -, hget, haccount⟩ := decode_names_key (.str (text "k")) .list (.str brokenOff)
  obtain ⟨-, -, hdeep, -⟩ := decode_names_key (.str (text "k")) .list (.str (Json.nestedLists 1000))
  obtain ⟨-, -, -, hkey, -⟩ := decode_names_key beyondLimit .list .null
  refine ⟨?_, ?_, ?_, ?_, ?_⟩
  · have hreach : (Value.str brokenOff).IsReachable := by
      rintro t ⟨⟩
      decide
    rcases hdecode trivial hreach with ⟨w, hw⟩ | h
    · cases hw
    · exact h
  · rcases hget Schema.default .moniker broken fun f _ => isReachable_broken f with ⟨d, hd⟩ | h
    · cases hd
    · exact h
  · intro env log
    have hnamed : (Manifest.ofEntries [(.str (text "metadata"), .map [(.str (text "annotations"), .map broken)])]).Named := by
      rintro v ⟨⟩
      exact ⟨_, rfl⟩
    rcases haccount ⟨env, log, Schema.default⟩ _ broken hnamed rfl isReachable_broken with ⟨account, ha⟩ | h
    · cases ha
    · exact h
  · refine hdeep _ rfl (Json.isJson_nestedLists 999) ?_
    exact Nat.lt_of_lt_of_le (by decide) (Json.le_nesting_nestedLists 1000)
  · exact ⟨_, rfl, hkey _ not_isBounded_beyondLimit rfl⟩

/-- Lists in lists are no list of texts, but the reader gives up before it finds that out. -/
theorem decode_gives_up :
    decode (.str (text "k")) .list (.str (Json.nestedLists 50000)) = .error .tooDeep ∧
    ¬ ((∃ w, decode (.str (text "k")) .list (.str (Json.nestedLists 50000)) = .ok w ∧ w.Fits .list) ∨
      ∃ reason, decode (.str (text "k")) .list (.str (Json.nestedLists 50000)) =
        .error (.decoding (.str (text "k")) reason)) := by
  have h : decode (.str (text "k")) .list (.str (Json.nestedLists 50000)) = .error .tooDeep :=
    decode_of_tooDeep (Json.nestedLists_tooDeep (by decide))
  refine ⟨h, ?_⟩
  rw [h]
  rintro (⟨w, ⟨⟩, -⟩ | ⟨reason, ⟨⟩⟩)

end Codec

end AnnotationCodec
