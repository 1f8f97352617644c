import AnnotationCodec.Proofs.Annotation.Record
import AnnotationCodec.Proofs.CommandLine.Loops
import AnnotationCodec.Proofs.Manifest.RoundTrip

/-!
Descriptors in a file. A manifest that is empty but for its annotations is always legible, because the keys of the default
schema are brief and it has three levels. So the descriptors that it was annotated with come back from its text.
-/
namespace AnnotationCodec

namespace Manifest

open Yaml

variable {d : Domain} {s : Schema} {family : Family} {v : Value} {a a' : Entries} {ws : List Write} {ds : List (Descriptor Value)}

/-- A manifest of nothing but annotations. -/
def bare (a : Entries) : Manifest :=
  ofEntries [(.str (text "metadata"), .map [(.str (text "annotations"), .map a)])]

/-! Annotating an empty manifest -/

theorem annotate_empty (h : s.store family v (.map []) = .done (.map a)) :
    (ofEntries []).annotate s family v = .done (bare a) := by
  have hopen : Entries.openAnnotations [] =
      .ok ([(.str (text "metadata"), .map [(.str (text "annotations"), .map [])])], .map []) := rfl
  have hupdate : (ofEntries []).updateResource (s.store family v) [] = .done (bare a) := by
    simp only [updateResource, ofEntries, Entries.updateAlong, Entries.updateAnnotations, hopen, h]
    rfl
  rw [annotate, updateResources, hupdate]
  rfl

theorem annotate_bare (h : s.store family v (.map a) = .done (.map a')) :
    (bare a).annotate s family v = .done (bare a') := by
  have hopen : (bare a).entries.openAnnotations = .ok ((bare a).entries, .map a) := rfl
  have hupdate : (bare a).updateResource (s.store family v) [] = .done (bare a') := by
    simp only [updateResource, Entries.updateAlong, Entries.updateAnnotations, hopen, h]
    rfl
  rw [annotate, updateResources, hupdate]
  rfl

theorem annotateInTurn_bare (hd : ∀ w ∈ ws, w.domain = d) (hrun : Write.run Write.store ws (.map a) = .done (.map a')) :
    (bare a).annotateInTurn d.schema (ws.map fun w => (w.family, w.descriptor)) = .done (bare a') := by
  induction ws generalizing a with
  | nil =>
    obtain rfl : a = a' := Value.map.inj (congrArg Outcome.value hrun)
    rfl
  | cons w ws ih =>
    rw [List.forall_mem_cons] at hd
    obtain ⟨a₁, hone, -⟩ := w.store_map a
    rw [Write.run, hone] at hrun
    rw [Write.store, Write.under_eq, hd.1] at hone
    rw [List.map_cons, annotateInTurn, annotate_bare hone]
    exact ih hd.2 hrun

/-- The metadata and the annotations are made by the first descriptor. -/
theorem annotateInTurn_empty (hne : ws ≠ []) (hd : ∀ w ∈ ws, w.domain = d)
    (hrun : Write.run Write.store ws (.map []) = .done (.map a)) :
    (ofEntries []).annotateInTurn d.schema (ws.map fun w => (w.family, w.descriptor)) = .done (bare a) := by
  cases ws with
  | nil => exact absurd rfl hne
  | cons w ws =>
    rw [List.forall_mem_cons] at hd
    obtain ⟨a₁, hone, -⟩ := w.store_map []
    rw [Write.run, hone] at hrun
    rw [Write.store, Write.under_eq, hd.1] at hone
    rw [List.map_cons, annotateInTurn, annotate_empty hone]
    exact annotateInTurn_bare hd.2 hrun

/-! The document of annotations -/

theorem isPlain_bare (h : s.IsRecord a) : (bare a).toValue.IsPlain := by
  have hentries : Value.IsPlain.entries a := by
    have htexts := h.texts
    clear h
    induction a with
    | nil => trivial
    | cons e a ih =>
      rw [List.forall_mem_cons] at htexts
      obtain ⟨⟨f, t, rfl⟩, hrest⟩ := htexts
      exact ⟨⟨_, rfl⟩, trivial, ih hrest⟩
  exact ⟨List.pairwise_singleton _ _, ⟨_, rfl⟩, ⟨List.pairwise_singleton _ _, ⟨_, rfl⟩, ⟨h.nodup, hentries⟩, trivial⟩, trivial⟩

theorem arranged_bare (h : s.IsRecord a) : (bare a).arranged = bare (Entries.sorted a) := by
  have htexts : ((Entries.sorted a).map fun e => (e.1, e.2.arranged)) = Entries.sorted a := by
    conv_rhs => rw [← List.map_id (Entries.sorted a)]
    refine List.map_congr_left fun e he => ?_
    obtain ⟨f, t, rfl⟩ := h.texts e ((Entries.sorted_perm a).mem_iff.mp he)
    rfl
  have hinner : (Value.map a).arranged = .map (Entries.sorted a) := by rw [Tree.arranged_map, htexts]
  have houter : (bare a).arranged =
      ofEntries [(.str (text "metadata"), .map [(.str (text "annotations"), (Value.map a).arranged)])] := rfl
  rw [houter, hinner]
  rfl

/-- The document has three levels of collections, and no key of the default schema is long. -/
theorem isShallow_bare (h : Schema.default.IsRecord a) : (bare a).toValue.IsShallow 39 := by
  have hentries : Value.IsShallow.entries 36 a := by
    have htexts := h.texts
    clear h
    induction a with
    | nil => trivial
    | cons e a ih =>
      rw [List.forall_mem_cons] at htexts
      obtain ⟨⟨f, t, rfl⟩, hrest⟩ := htexts
      refine ⟨fun k hk => ?_, trivial, ih hrest⟩
      obtain rfl := Value.str.inj hk
      exact .inl (by cases f <;> decide)
  have hbrief {s : String} (hs : (text s).length ≤ 102) : ∀ t, Value.str (text s) = .str t → t.IsBrief := by
    intro t ht
    obtain rfl := Value.str.inj ht
    exact .inl hs
  exact ⟨by decide, hbrief (by decide), ⟨by decide, hbrief (by decide), ⟨by decide, hentries⟩, trivial⟩, trivial⟩

theorem legible_bare (h : Schema.default.IsRecord a) : (bare a).Legible :=
  legible_of_isShallow (isPlain_bare h) (isShallow_bare h)

theorem readAnnotations_bare (a : Entries) : (bare a).readAnnotations = .ok (.map a) := by
  cases a <;> rfl

/-- Descriptors of different families that an empty manifest was annotated with are read from its text. -/
theorem get_reloaded (hne : ds ≠ []) (h : ∀ c ∈ ds, (Value.descriptor c).FitsFamily c.family) (hfamilies : (ds.map Descriptor.family).Nodup) :
    ∃ m n, (ofEntries []).annotateInTurn Schema.default (ds.map fun c => (c.family, .descriptor c)) = .done m ∧
      (writeAll [m]).result = .ok () ∧ readAll (writeAll [m]).text = .ok [n] ∧
      ∀ c ∈ ds, n.get Schema.default c.family = .ok c := by
  have hdefault : Domain.default.schema = Schema.default := rfl
  obtain ⟨ws, hd, hws⟩ := Write.exists_writes_of_fits Domain.default h
  obtain ⟨a, hrun, -⟩ := Write.run_store_map ws []
  have hrecord := Write.isRecord_run hd (Schema.isRecord_nil _) hrun
  have hwsne : ws ≠ [] := by
    rintro rfl
    exact hne (List.map_eq_nil_iff.mp hws.symm)
  have hannotated := annotateInTurn_empty hwsne hd hrun
  rw [hws] at hannotated
  have hfinite : ∀ m ∈ [bare a], m.endless = false := List.forall_mem_singleton.mpr rfl
  have hread := readAll_writeAll hfinite (List.forall_mem_singleton.mpr (isPlain_bare hrecord))
    (List.forall_mem_singleton.mpr (legible_bare hrecord))
  rw [List.map_singleton, arranged_bare hrecord] at hread
  refine ⟨bare a, bare (Entries.sorted a), hannotated, hread.1, hread.2, fun c hc => ?_⟩
  have hget : Schema.default.getEntries c.family (Entries.sorted a) = Schema.default.getEntries c.family a := by
    rw [Schema.getEntries_eq_collect, Schema.getEntries_eq_collect]
    refine Family.collect_congr fun f _ => ?_
    rw [Schema.readField, Schema.readField, ← Entries.get?_perm (Entries.sorted_perm a).symm hrecord.nodup]
  have hfirst := Write.getEntries_of_run hd hws hfamilies hrun hc
  rw [Manifest.get, readAnnotations_bare]
  exact hget.trans hfirst

/-- A moniker, an artifact and relationships that an empty manifest was annotated with, in whatever order, come back from
its text as they were. -/
theorem descriptors_survive_text {moniker : Moniker Value} {artifact : Artifact Value} {relationships : Relationships Value}
    (hmoniker : (Value.descriptor (.moniker moniker)).FitsFamily .moniker)
    (hartifact : (Value.descriptor (.artifact artifact)).FitsFamily .artifact)
    (hrelationships : (Value.descriptor (.relationships relationships)).FitsFamily .relationships)
    (hds : ds.Perm [.moniker moniker, .artifact artifact, .relationships relationships]) :
    ∃ m n, (ofEntries []).annotateInTurn Schema.default (ds.map fun c => (c.family, .descriptor c)) = .done m ∧
      (writeAll [m]).result = .ok () ∧ readAll (writeAll [m]).text = .ok [n] ∧
      n.get Schema.default .moniker = .ok (.moniker moniker) ∧ n.get Schema.default .artifact = .ok (.artifact artifact) ∧
      n.get Schema.default .relationships = .ok (.relationships relationships) := by
  have hne : ds ≠ [] := by
    rintro rfl
    cases hds.length_eq
  have hfits : ∀ c ∈ ds, (Value.descriptor c).FitsFamily c.family := by
    intro c hc
    rcases List.mem_cons.mp (hds.mem_iff.mp hc) with rfl | hc
    · exact hmoniker
    rcases List.mem_cons.mp hc with rfl | hc
    · exact hartifact
    obtain rfl := List.mem_singleton.mp hc
    exact hrelationships
  have hthree : [Family.moniker, .artifact, .relationships].Nodup := by decide
  have hfamilies : (ds.map Descriptor.family).Nodup := ((hds.map Descriptor.family).nodup_iff).mpr hthree
  obtain ⟨m, n, hannotated, hwrite, hread, hget⟩ := get_reloaded hne hfits hfamilies
  refine ⟨m, n, hannotated, hwrite, hread, ?_, ?_, ?_⟩
  · exact hget (.moniker moniker) (hds.mem_iff.mpr (by simp))
  · exact hget (.artifact artifact) (hds.mem_iff.mpr (by simp))
  · exact hget (.relationships relationships) (hds.mem_iff.mpr (by simp))

/-- A moniker with quotes, a backslash, a line break and a character beyond ASCII in its texts. -/
def quoted : Moniker Value :=
  ⟨.str (text "\"x\" \\ y\n"), .str (text "\xE9"), .null, .null, .int 7⟩

/-- Relationships to one load balancer, with a space and quotes in its name. -/
def balanced : Relationships Value :=
  ⟨.list [.str (text "a 'b'")], .null⟩

theorem descriptors_survive_text_quoted :
    ∃ m n, (ofEntries []).annotateInTurn Schema.default [(.relationships, .descriptor (.relationships balanced)),
        (.moniker, .descriptor (.moniker quoted)), (.artifact, .descriptor (.artifact ⟨.null, .null, .null, .null⟩))] = .done m ∧
      (writeAll [m]).result = .ok () ∧ readAll (writeAll [m]).text = .ok [n] ∧
      n.get Schema.default .moniker = .ok (.moniker quoted) ∧
      n.get Schema.default .artifact = .ok (.artifact ⟨.null, .null, .null, .null⟩) ∧
      n.get Schema.default .relationships = .ok (.relationships balanced) := by
  have hlimit : (7 : Int).natAbs < 10 ^ digitLimit :=
    Nat.lt_of_lt_of_le (by decide : 7 < 10 ^ 1) (Nat.pow_le_pow_right (by decide) (by decide))
  have hmoniker : (Value.descriptor (.moniker quoted)).FitsFamily .moniker := by
    refine .inr ⟨_, rfl, rfl, fun f w h => ?_⟩
    cases f <;> cases h
    case sequence => exact .inr ⟨7, rfl, hlimit⟩
    all_goals first | exact .inl rfl | exact .inr ⟨_, rfl⟩
  have hartifact : (Value.descriptor (.artifact ⟨.null, .null, .null, .null⟩)).FitsFamily .artifact := by
    refine .inr ⟨_, rfl, rfl, fun f w h => ?_⟩
    cases f <;> cases h
    all_goals exact .inl rfl
  have hrelationships : (Value.descriptor (.relationships balanced)).FitsFamily .relationships := by
    refine .inr ⟨_, rfl, rfl, fun f w h => ?_⟩
    cases f <;> cases h
    · exact .inr ⟨_, rfl, List.forall_mem_singleton.mpr ⟨_, rfl⟩⟩
    · exact .inl rfl
  have hperm : [Descriptor.relationships balanced, .moniker quoted, .artifact ⟨.null, .null, .null, .null⟩].Perm
      [.moniker quoted, .artifact ⟨.null, .null, .null, .null⟩, .relationships balanced] :=
    (List.Perm.swap _ _ _).trans ((List.Perm.swap _ _ _).cons _)
  have hsurvive := descriptors_survive_text hmoniker hartifact hrelationships hperm
  exact hsurvive

end Manifest

end AnnotationCodec
