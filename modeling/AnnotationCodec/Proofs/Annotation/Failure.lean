import AnnotationCodec.Proofs.Annotation.Store

/-!
Storing where it may fail. The fields before the one that cannot be encoded are stored and the others are not, and what
could be stored once can be stored in every map, because encoding does not look at where the text goes.
-/
namespace AnnotationCodec

/-- The fields of a value that is a descriptor, in the order in which they are stored. -/
def Value.fields : Value → List (Field × Value)
  | .descriptor d => d.entries
  | _ => []

namespace Schema

/-- What storing fields makes of a value when it comes to its end. In a value that is no map nothing can be stored, so
all of the fields are null. -/
inductive Filled (s : Schema) (fs : List (Field × Value)) : Value → Value → Prop
  | map {es es' : Entries} (h : Stored s fs es es') : Filled s fs (.map es) (.map es')
  | other {v : Value} (hv : ∀ es, v ≠ .map es) (h : ∀ f w, (f, w) ∈ fs → w.isNull = true) : Filled s fs v v

/-- What storing a descriptor makes of a value when it fails with `e`. -/
inductive Broken (s : Schema) (family : Family) (descriptor : Value) (e : Failure) : Value → Value → Prop
  /-- The descriptor is none of the family, and nothing is stored. -/
  | refused {v : Value} (h : descriptorFor family descriptor = .error e) : Broken s family descriptor e v v
  /-- A field cannot be encoded, and those before it are stored. If they are all null, nothing is. -/
  | field {fs rest : List (Field × Value)} {f : Field} {w : Value} {es es' : Entries}
    (h : descriptor.fields = fs ++ (f, w) :: rest) (hw : w.isNull = false)
    (he : Codec.encode (.str (s.key f)) f.shape w = .error e) (hs : Stored s fs es es')
    (hnone : (∀ g u, (g, u) ∈ fs → u.isNull = true) → es' = es) :
    Broken s family descriptor e (.map es) (.map es')
  /-- A field is given, but the value is no map; the field is encoded all the same. -/
  | other {fs rest : List (Field × Value)} {f : Field} {w v : Value} (hv : ∀ es, v ≠ .map es)
    (h : descriptor.fields = fs ++ (f, w) :: rest) (hfs : ∀ g u, (g, u) ∈ fs → u.isNull = true)
    (hw : w.isNull = false)
    (he : Codec.encode (.str (s.key f)) f.shape w = .error e ∨
      (∃ t, Codec.encode (.str (s.key f)) f.shape w = .ok t) ∧ e = .unsupported) :
    Broken s family descriptor e v v

variable {s : Schema} {family : Family} {descriptor v v' : Value} {fs : List (Field × Value)} {e : Failure}

theorem Stored.refl (h : ∀ f w, (f, w) ∈ fs → w.isNull = true) (es : Entries) : Stored s fs es es := by
  refine ⟨fun f w hm hw => ?_, fun _ _ => rfl⟩
  rw [h f w hm] at hw
  cases hw

/-- A value that is encoded under one key is encoded under every key. -/
theorem exists_encode_of_ok {key w : Value} {shape : Shape} {t : Text} (h : Codec.encode key shape w = .ok t) :
    ∀ k, Codec.encode k shape w = .ok t ∧ Codec.decode k shape (.str t) = .ok w := by
  obtain ⟨c, hs, hv, ht⟩ := Codec.encode_eq_ok_iff.mp h
  obtain ⟨u, hu⟩ := Codec.exists_encode (Content.fits_iff.mpr ⟨c, t, hs, hv, ht⟩)
  have htu : t = u := Except.ok.inj (h.symm.trans (hu key).1)
  rw [htu]
  exact hu

theorem storeFields_cases (hk : ∀ f g, s.key f = s.key g → f = g) (hn : (fs.map Prod.fst).Nodup) (es : Entries) :
    (∃ es', s.storeFields fs es = .done es' ∧ Stored s fs es es') ∨
    ∃ gs f w rest e es', fs = gs ++ (f, w) :: rest ∧ w.isNull = false ∧
      Codec.encode (.str (s.key f)) f.shape w = .error e ∧ s.storeFields fs es = .fail es' e ∧ Stored s gs es es' ∧
      ((∀ g u, (g, u) ∈ gs → u.isNull = true) → es' = es) := by
  induction fs generalizing es with
  | nil => exact .inl ⟨es, rfl, Stored.refl (by simp) es⟩
  | cons x fs ih =>
    obtain ⟨f, w⟩ := x
    rw [List.map_cons, List.nodup_cons] at hn
    cases hw : w.isNull with
    | true =>
      have hstep : s.storeFields ((f, w) :: fs) es = s.storeFields fs es := by rw [storeFields, if_pos hw]
      rcases ih hn.2 es with ⟨es', hs, h⟩ | ⟨gs, g, u, rest, e, es', rfl, hu, he, hs, h, hnone⟩
      · exact .inl ⟨es', hstep.trans hs, h.skip hw⟩
      · refine .inr ⟨(f, w) :: gs, g, u, rest, e, es', rfl, hu, he, hstep.trans hs, h.skip hw, fun hnull => ?_⟩
        exact hnone fun g u hm => hnull g u (List.mem_cons_of_mem _ hm)
    | false =>
      cases ht : Codec.encode (.str (s.key f)) f.shape w with
      | error e =>
        refine .inr ⟨[], f, w, fs, e, es, rfl, hw, ht, ?_, Stored.refl (by simp) es, fun _ => rfl⟩
        rw [storeFields, if_neg (by simp [hw]), ht]
      | ok t =>
        have hstep : s.storeFields ((f, w) :: fs) es = s.storeFields fs (es.set (s.key f) (.str t)) := by
          rw [storeFields, if_neg (by simp [hw]), ht]
        -- No later field has the key of this one.
        have hkey : ∀ g u, (g, u) ∈ fs → s.key f ≠ s.key g := by
          intro g u hm heq
          rw [hk f g heq] at hn
          exact hn.1 (List.mem_map.mpr ⟨_, hm, rfl⟩)
        rcases ih hn.2 (es.set (s.key f) (.str t)) with
          ⟨es', hs, h⟩ | ⟨gs, g, u, rest, e, es', rfl, hu, he, hs, h, -⟩
        · exact .inl ⟨es', hstep.trans hs, h.write hw (exists_encode_of_ok ht) hkey⟩
        · refine .inr ⟨(f, w) :: gs, g, u, rest, e, es', rfl, hu, he, hstep.trans hs, ?_, fun hnull => ?_⟩
          · exact h.write hw (exists_encode_of_ok ht) fun g u hm => hkey g u (List.mem_append_left _ hm)
          · rw [hnull f w List.mem_cons_self] at hw
            cases hw

theorem storeNowhere_cases (s : Schema) (fs : List (Field × Value)) :
    (s.storeNowhere fs = .ok () ∧ ∀ f w, (f, w) ∈ fs → w.isNull = true) ∨
    ∃ gs f w rest e, fs = gs ++ (f, w) :: rest ∧ (∀ g u, (g, u) ∈ gs → u.isNull = true) ∧ w.isNull = false ∧
      s.storeNowhere fs = .error e ∧ (Codec.encode (.str (s.key f)) f.shape w = .error e ∨
        (∃ t, Codec.encode (.str (s.key f)) f.shape w = .ok t) ∧ e = .unsupported) := by
  induction fs with
  | nil => exact .inl ⟨rfl, by simp⟩
  | cons x fs ih =>
    obtain ⟨f, w⟩ := x
    cases hw : w.isNull with
    | true =>
      have hstep : s.storeNowhere ((f, w) :: fs) = s.storeNowhere fs := by rw [storeNowhere, if_pos hw]
      rw [hstep]
      rcases ih with ⟨hs, hnull⟩ | ⟨gs, g, u, rest, e, rfl, hgs, hu, hs, he⟩
      · refine .inl ⟨hs, fun g u hm => ?_⟩
        rcases List.mem_cons.mp hm with heq | hm
        · cases heq
          exact hw
        · exact hnull g u hm
      · refine .inr ⟨(f, w) :: gs, g, u, rest, e, rfl, fun h u hm => ?_, hu, hs, he⟩
        rcases List.mem_cons.mp hm with heq | hm
        · cases heq
          exact hw
        · exact hgs h u hm
    | false =>
      have hstep : s.storeNowhere ((f, w) :: fs) =
          (Codec.encode (.str (s.key f)) f.shape w).bind fun _ => .error .unsupported := by
        rw [storeNowhere, if_neg (by simp [hw])]
        rfl
      rw [hstep]
      cases ht : Codec.encode (.str (s.key f)) f.shape w with
      | error e => exact .inr ⟨[], f, w, fs, e, rfl, by simp, hw, rfl, .inl ht⟩
      | ok t => exact .inr ⟨[], f, w, fs, .unsupported, rfl, by simp, hw, rfl, .inr ⟨⟨t, ht⟩, rfl⟩⟩

theorem descriptorFor_cases (family : Family) (v : Value) :
    (∃ e, descriptorFor family v = .error e) ∨ (descriptorFor family v = .ok none ∧ v.fields = []) ∨
      ∃ d, descriptorFor family v = .ok (some d) ∧ v.fields = d.entries ∧ (v.fields.map Prod.fst).Nodup := by
  cases v with
  | null =>
    by_cases hf : family = .moniker
    · exact .inl ⟨_, by rw [descriptorFor, if_pos hf]⟩
    · exact .inr (.inl ⟨by rw [descriptorFor, if_neg hf], rfl⟩)
  | descriptor d =>
    by_cases hf : d.family = family
    · exact .inr (.inr ⟨d, by rw [descriptorFor, if_pos hf], rfl, d.nodup_entries⟩)
    · exact .inl ⟨_, by rw [descriptorFor, if_neg hf]⟩
  | _ => exact .inl ⟨_, rfl⟩

theorem store_of_refused (h : descriptorFor family descriptor = .error e) (s : Schema) (v : Value) :
    s.store family descriptor v = .fail v e := by
  cases v <;> simp [store, storeEntries, h, Outcome.map, Outcome.fail]

theorem store_of_none (hv : ∀ es, v ≠ .map es) (h : descriptorFor family descriptor = .ok none) (s : Schema) :
    s.store family descriptor v = .done v := by
  cases v with
  | map es => exact (hv es rfl).elim
  | _ => simp [store, h]

theorem store_of_some {c : Descriptor Value} (hv : ∀ es, v ≠ .map es)
    (h : descriptorFor family descriptor = .ok (some c)) :
    s.store family descriptor v = ⟨v, s.storeNowhere c.entries⟩ := by
  cases v with
  | map es => exact (hv es rfl).elim
  | _ => simp [store, h]

/-- Storing a descriptor either comes to its end or fails, and what is made of the value is known in both cases. -/
theorem store_cases (d : Domain) (family : Family) (descriptor v : Value) :
    (∃ v', d.schema.store family descriptor v = .done v' ∧ Filled d.schema descriptor.fields v v') ∨
    ∃ e v', d.schema.store family descriptor v = .fail v' e ∧ Broken d.schema family descriptor e v v' := by
  have hkey : ∀ f g, d.schema.key f = d.schema.key g → f = g := fun f g h => (Domain.key_injective h).2
  rcases descriptorFor_cases family descriptor with ⟨e, he⟩ | hwanted
  · exact .inr ⟨e, v, store_of_refused he d.schema v, .refused he⟩
  by_cases hmap : ∃ es, v = .map es
  · obtain ⟨es, rfl⟩ := hmap
    simp only [store, storeEntries]
    rcases hwanted with ⟨hnone, hfs⟩ | ⟨c, hsome, hfs, hn⟩
    · exact .inl ⟨.map es, by rw [hnone]; rfl, .map (Stored.refl (by simp [hfs]) es)⟩
    · rw [hfs] at hn
      rcases storeFields_cases hkey hn es with ⟨es', hs, h⟩ | ⟨gs, f, w, rest, e, es', hgs, hw, he, hs, h, hnone⟩
      · exact .inl ⟨.map es', by rw [hsome]; simp only [hs]; rfl, .map (hfs ▸ h)⟩
      · exact .inr ⟨e, .map es', by rw [hsome]; simp only [hs]; rfl, .field (hfs.trans hgs) hw he h hnone⟩
  · have hv : ∀ es, v ≠ .map es := not_exists.mp hmap
    rcases hwanted with ⟨hnone, hfs⟩ | ⟨c, hsome, hfs, -⟩
    · exact .inl ⟨v, store_of_none hv hnone d.schema, .other hv (by simp [hfs])⟩
    · rw [store_of_some hv hsome]
      rcases storeNowhere_cases d.schema c.entries with ⟨hs, hnull⟩ | ⟨gs, f, w, rest, e, hgs, hnull, hw, hs, he⟩
      · exact .inl ⟨v, by rw [hs]; rfl, .other hv (hfs ▸ hnull)⟩
      · exact .inr ⟨e, v, by rw [hs]; rfl, .other hv (hfs.trans hgs) hnull hw he⟩

/-- What was stored somewhere has a text under every key. -/
theorem Filled.exists_encode (h : Filled s fs v v') {f : Field} {w : Value} (hm : (f, w) ∈ fs)
    (hw : w.isNull = false) : ∃ t, ∀ key, Codec.encode key f.shape w = .ok t := by
  cases h with
  | map h =>
    obtain ⟨t, ht, -⟩ := h.written f w hm hw
    exact ⟨t, fun key => (ht key).1⟩
  | other hv hnull =>
    rw [hnull f w hm] at hw
    cases hw

/-- A descriptor that was stored once fails nowhere but in values that are no maps, and changes nothing there. -/
theorem store_error_of_ok {d : Domain} {u : Value} (hok : (d.schema.store family descriptor v).result = .ok ())
    (he : (d.schema.store family descriptor u).result = .error e) :
    e = .unsupported ∧ (∀ es, u ≠ .map es) ∧ (d.schema.store family descriptor u).value = u := by
  have hfilled : ∃ v', Filled d.schema descriptor.fields v v' := by
    rcases store_cases d family descriptor v with ⟨v', -, h⟩ | ⟨e', v', hs, -⟩
    · exact ⟨v', h⟩
    · rw [hs] at hok
      cases hok
  have hwanted : ∀ e', descriptorFor family descriptor ≠ .error e' := by
    intro e' h
    rw [store_of_refused h] at hok
    cases hok
  obtain ⟨v', hfilled⟩ := hfilled
  rcases store_cases d family descriptor u with ⟨u', hs, -⟩ | ⟨e', u', hs, h⟩
  · rw [hs] at he
    cases he
  · rw [hs] at he ⊢
    cases he
    cases h with
    | refused h => exact (hwanted _ h).elim
    | field h hw he' hs' =>
      obtain ⟨t, ht⟩ := hfilled.exists_encode (h ▸ List.mem_append_right _ List.mem_cons_self) hw
      rw [ht] at he'
      cases he'
    | other hu h hfs hw he' =>
      obtain ⟨t, ht⟩ := hfilled.exists_encode (h ▸ List.mem_append_right _ List.mem_cons_self) hw
      rcases he' with he' | ⟨-, rfl⟩
      · rw [ht] at he'
        cases he'
      · exact ⟨rfl, hu, rfl⟩

end Schema

end AnnotationCodec
