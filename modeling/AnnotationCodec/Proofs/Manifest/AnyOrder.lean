import AnnotationCodec.Proofs.Annotation.Record
import AnnotationCodec.Proofs.Manifest.Cut
import AnnotationCodec.Proofs.Manifest.Loading
import AnnotationCodec.Proofs.Manifest.Propagation
import AnnotationCodec.Proofs.Manifest.Refusal
import AnnotationCodec.Proofs.Manifest.Update
import AnnotationCodec.Proofs.Yaml.Unordered

/-!
Writes in any order. Once the maps of a resource have been spread, a write there is done for good, and a manifest to which
descriptors of different families are written has the same text whatever their order was.
-/
namespace AnnotationCodec

open Entries (annotationsPath trail)
open Value (Replaced Tracked Tracks Trail)

namespace Write

variable {ws : List Write} {w : Write} {d : Domain} {f : Field} {v : Value}

/-- A write gives values for fields of its own family only. -/
theorem family_of_given? (h : w.given? d f = some v) : w.domain = d ∧ f.family = w.family := by
  unfold given? at h
  split at h
  · next hd =>
    refine ⟨hd, ?_⟩
    obtain ⟨hnull, -⟩ | ⟨c, hc, hfamily, -⟩ := w.fits
    · rw [hnull] at h
      cases h
    · rw [hc] at h
      rw [← hfamily]
      exact family_of_value? (Option.filter_eq_some_iff.mp h).1
  · cases h

/-- Writes of different families, or under different domains, do not give the same key. -/
theorem agree_of_nodup (h : (ws.map fun w => (w.domain, w.family)).Nodup) : Agree ws := by
  rintro w hw w' hw' k t t' ⟨d, f, v, hv, hkey, ht⟩ ⟨d', f', v', hv', hkey', ht'⟩
  obtain ⟨rfl, rfl⟩ := Domain.key_injective (hkey.symm.trans hkey')
  obtain ⟨hdomain, hfamily⟩ := family_of_given? hv
  obtain ⟨hdomain', hfamily'⟩ := family_of_given? hv'
  have hpair : (w.domain, w.family) = (w'.domain, w'.family) := by
    rw [hdomain, hdomain', ← hfamily, ← hfamily']
  obtain rfl := List.inj_on_of_nodup_map h hw hw' hpair
  obtain rfl := Option.some.inj (hv.symm.trans hv')
  exact Except.ok.inj ((ht .null).symm.trans (ht' .null))

end Write

namespace Manifest

variable {m₀ m m' : Manifest} {ws : List Write} {done : List Text → Write → Prop} {p path : List Text} {w : Write}
  {b c : Trail} {x : Place} {v : Value}

/-! Spreading the maps of a resource -/

/-- The place of a path, if it is that of a map with several, has the path as its trail. -/
theorem tracks_of_together (hg : m₀.IsGraph) (hdata : m₀.toValue.IsData) (htracked : Tracked m₀.toValue m.toValue)
    (hx : m.entries.placeAlong? path = some x) {y : Place} (hxy : m₀.Together x y) : Tracks x (trail path) m₀.toValue := by
  obtain ⟨es, hes, -⟩ := hg.exists_map hxy
  obtain ⟨q, hq⟩ := hdata.exists_tracks hes
  rwa [Entries.trail_of_placeAlong? (htracked x q hq) hx] at hq

/-- A path to a map that has no other trail leads to nothing that is spread. -/
theorem spreadAlong_of_not_twins (path : List Text) (hg : m₀.IsGraph) (hdata : m₀.toValue.IsData) (hs : m.shared = m₀.shared)
    (htracked : Tracked m₀.toValue m.toValue) (hnot : ∀ c, ¬ m₀.Twins (trail path) c) : spreadAlong path m = m := by
  unfold spreadAlong
  split
  · rfl
  next x hx =>
  refine spread_eq_self fun g hgroup hxg y hy => ?_
  have hxy : m₀.Together x y := ⟨g, hs ▸ hgroup, hxg, hy⟩
  have htracks := tracks_of_together hg hdata htracked hx hxy
  exact (hnot _ ⟨x, x, ⟨g, hs ▸ hgroup, hxg, hxg⟩, htracks, htracks⟩).elim

/-- Copying a map to another of its places keeps places where they lead. -/
theorem Reached.tracked_putAt (hg : m₀.IsGraph) (h : m₀.Reached ws done v) {x y : Place} {u : Value} {old : Entries}
    (hxy : m₀.Together x y) (hx : Tracks x b m₀.toValue) (hy : Tracks y c m₀.toValue) (hu : v.at? x = some u)
    (hold : v.at? y = some (.map old)) : Tracked m₀.toValue (Value.putAt y u v) := by
  obtain ⟨es, hesx, hesy⟩ := hg.exists_map hxy
  intro z q hz
  refine Tracks.putAt (h.tracked y c hy) hold (h.tracked z q hz) ?_
  rintro z q rfl rfl
  have hin := (hx.append_iff hesx).mpr ((hy.append_iff hesy).mp hz)
  exact ((h.tracked x b hx).append_iff hu).mp (h.tracked _ _ hin)

/-- What spreading a map on the way to the annotations of a resource does: what is seen of a manifest stays, what was written
at the resource does as well, and the map looks the same from all of its places that are still there. -/
structure Spread (m₀ : Manifest) (ws : List Write) (done : List Text → Write → Prop) (p : List Text) (w : Write) (path : List Text)
    (m m' : Manifest) : Prop where
  reached : m₀.Reached ws done m'.toValue
  stands : Stands p w m'.toValue
  shared : m'.shared = m.shared
  endless : m'.endless = m.endless
  same : ∀ c, m₀.Twins (trail path) c → m'.toValue.look c = some .map →
    ∀ t, m'.toValue.look (c ++ t) = m'.toValue.look (trail path ++ t)

theorem trail_prefix (h : path <+: p ++ annotationsPath) : trail path <+: annotationsTrail p := by
  obtain ⟨r, hr⟩ := h
  rw [annotationsTrail, ← hr, Entries.trail_append]
  exact List.prefix_append _ _

theorem Stands.look_on_way (h : Stands p w v) (hpath : path <+: p ++ annotationsPath) : v.look (trail path) = some .map := by
  obtain ⟨r, hr⟩ := hpath
  have hannotations := h.annotations
  rw [annotationsTrail, ← hr] at hannotations
  exact Entries.look_trail_of_append hannotations

/-- A copy of a map on the way to the annotations of a resource. -/
theorem Reached.copy (hg : m₀.IsGraph) (hp : p ∈ m₀.targets) (hpath : path <+: p ++ annotationsPath) (h : m₀.Reached ws done v)
    (hstands : Stands p w v) {x y : Place} {u : Value} {old : Entries} (hx : Tracks x (trail path) m₀.toValue)
    (hxy : m₀.Together x y) (hne : y ≠ x) (hu : v.at? x = some u) (hold : v.at? y = some (.map old)) :
    m₀.Reached ws done (Value.putAt y u v) ∧ Stands p w (Value.putAt y u v) := by
  obtain ⟨es, hesx, hesy⟩ := hg.exists_map hxy
  have hdata : m₀.toValue.IsData := h.initial
  obtain ⟨c, hy⟩ := hdata.exists_tracks hesy
  have htwins : m₀.Twins (trail path) c := ⟨x, y, hxy, hx, hy⟩
  have htracks := h.tracked y c hy
  have hreplaced := Replaced.putAt htracks hold u
  have hpre := trail_prefix hpath
  constructor
  · refine h.put hg htwins (not_touched_on_way (mem_resourcePaths hp) hpre) ?_ ?_ hreplaced ?_ ?_
    · rw [← (h.tracked x _ hx).at?_eq, hu]
    · rw [Value.look, ← htracks.at?_eq, hold]
      rfl
    · exact h.data.putAt (h.data.at? hu) y
    · exact h.tracked_putAt hg hxy hx hy hu hold
  · refine hstands.put hg htwins ?_ hpre hreplaced
    rintro rfl
    exact hne (hy.eq_of_part? hx (hy.at?_eq.symm.trans hesy))

theorem spread_spreadAlong (hg : m₀.IsGraph) (hs : m.shared = m₀.shared) (hp : p ∈ m₀.targets)
    (hpath : path <+: p ++ annotationsPath) (h : m₀.Reached ws done m.toValue) (hstands : Stands p w m.toValue) :
    Spread m₀ ws done p w path m (spreadAlong path m) := by
  obtain ⟨sub, hsub⟩ := Value.look_eq_map_iff.mp (hstands.look_on_way hpath)
  have hplace : ∀ x, Tracks x (trail path) m₀.toValue → m.entries.placeAlong? path = some x := fun x hx =>
    Entries.placeAlong?_of_tracks (h.tracked x _ hx) (Entries.part?_trail_iff.mp hsub)
  by_cases hany : ∃ c, m₀.Twins (trail path) c
  · obtain ⟨c₀, x, y₀, hxy₀, hx, -⟩ := hany
    have htogether : ∀ y, m.Together x y ↔ m₀.Together x y := fun y => by rw [Together, Together, hs]
    obtain ⟨hend, hagrees⟩ := agrees_spread (m := m) (x := x) (P := fun v => m₀.Reached ws done v ∧ Stands p w v)
      (fun y z hxy hxz hne => hg.not_prefix (hg.trans x y z ((htogether y).mp hxy) ((htogether z).mp hxz)) hne)
      (fun y hxy hne v u old hv hu hold => hv.1.copy hg hp hpath hv.2 hx ((htogether y).mp hxy) hne hu hold)
      (fun v hv => Value.exists_map_of_face (Option.some.inj (hv.2.look_on_way (List.nil_prefix))))
      ⟨h, hstands⟩ ((h.tracked x _ hx).at?_eq.trans hsub)
    obtain ⟨⟨hreached, hstands'⟩, -, hshared, hendless⟩ := hend
    rw [spreadAlong, hplace x hx]
    refine ⟨hreached, hstands', hshared, hendless, ?_⟩
    rintro c ⟨x', y, hxy, hx', hy⟩ hmap t
    obtain rfl := Option.some.inj ((hplace x hx).symm.trans (hplace x' hx'))
    obtain ⟨old, hold⟩ := Value.look_eq_map_iff.mp hmap
    have hsame := hagrees y ((htogether y).mpr hxy) old ((hreached.tracked y c hy).at?_eq.trans hold)
    rw [Value.look_append hold, Value.look_append ((hreached.tracked x _ hx).at?_eq.symm.trans hsame)]
  · rw [spreadAlong_of_not_twins path hg h.initial hs h.tracked fun c hc => hany ⟨c, hc⟩]
    exact ⟨h, hstands, rfl, rfl, fun c hc => (hany ⟨c, hc⟩).elim⟩

/-- After a map on the way has been spread, what lies behind it is seen from its other places. -/
theorem Spread.settles (hg : m₀.IsGraph) (h : Spread m₀ ws done p w path m m') (hmap : m₀.toValue.look (trail path) = some .map)
    {d r s : Trail} (hbc : m₀.Twins b c) (hd : b ++ d = trail path) (hs : s = d ++ r) :
    ∃ d r, s = d ++ r ∧ m₀.Twins (b ++ d) (c ++ d) ∧
      (m'.toValue.look (c ++ d) = some .map → ∀ t, m'.toValue.look (c ++ d ++ t) = m'.toValue.look (b ++ d ++ t)) := by
  have htwins : m₀.Twins (b ++ d) (c ++ d) := hbc.inner hg (by rw [hd, hmap])
  refine ⟨d, r, hs, htwins, ?_⟩
  rw [hd] at htwins ⊢
  exact h.same (c ++ d) htwins

theorem look_trail_of_mem_targets (hp : p ∈ m₀.targets) : m₀.toValue.look (trail p) = some .map := by
  obtain ⟨sub, hsub⟩ := Option.isSome_iff_exists.mp (mem_targets_iff.mp hp).2
  exact Value.look_eq_map_iff.mpr ⟨sub, Entries.part?_trail_iff.mpr hsub⟩

theorem eq_or_exists_of_concat_eq {α : Type} {x y s : List α} {a : α} (h : x ++ [a] = y ++ s) :
    y = x ++ [a] ∨ ∃ d, y ++ d = x ∧ s = d ++ [a] := by
  obtain rfl | ⟨d, a', rfl⟩ := List.eq_nil_or_concat s
  · rw [List.append_nil] at h
    exact .inl h.symm
  · rw [List.concat_eq_append] at h ⊢
    rw [← List.append_assoc] at h
    obtain ⟨rfl, heq⟩ := List.append_inj' h rfl
    exact .inr ⟨d, rfl, by rw [heq]⟩

/-- When the maps of a resource have been spread, the write there is done. -/
theorem Reached.spreadResource (hg : m₀.IsGraph) (hs : m.shared = m₀.shared) (hp : p ∈ m₀.targets) (hw : w ∈ ws)
    (h : m₀.Reached ws done m.toValue) (hstands : Stands p w m.toValue) :
    m₀.Reached ws (fun p' w' => done p' w' ∨ p' = p ∧ w' = w) (m.spreadResource p).toValue ∧
      (m.spreadResource p).shared = m.shared ∧ (m.spreadResource p).endless = m.endless := by
  rw [spreadResource_eq, List.append_nil]
  have hway : p <+: p ++ annotationsPath := List.prefix_append _ _
  have hmetadata : p ++ [text "metadata"] <+: p ++ annotationsPath := prefix_of_mem_ownPaths (by decide) p
  have h₁ := spread_spreadAlong hg hs hp hway h hstands
  have hs₁ := h₁.shared.trans hs
  have h₂ := spread_spreadAlong hg hs₁ hp hmetadata h₁.reached h₁.stands
  have hs₂ := h₂.shared.trans hs₁
  have h₃ := spread_spreadAlong hg hs₂ hp (List.prefix_refl _) h₂.reached h₂.stands
  have hskip₂ := spreadAlong_of_not_twins (p ++ [text "metadata"]) hg h.initial hs₁ h₁.reached.tracked
  have hskip₃ := spreadAlong_of_not_twins (p ++ annotationsPath) hg h.initial hs₂ h₂.reached.tracked
  generalize spreadAlong p m = m₁ at h₁ hs₁ h₂ hs₂ h₃ hskip₂ hskip₃ ⊢
  generalize spreadAlong (p ++ [text "metadata"]) m₁ = m₂ at h₂ hs₂ h₃ hskip₂ hskip₃ ⊢
  generalize spreadAlong (p ++ annotationsPath) m₂ = m₃ at h₃ hskip₃ ⊢
  refine ⟨h₃.reached.finish hg hp hw h₃.stands fun b c s hbc heq => ?_, ?_, ?_⟩
  · have hannotations := annotationsTrail_eq p
    by_cases hthird : ∃ c', m₀.Twins (annotationsTrail p) c'
    · obtain ⟨c', hc'⟩ := hthird
      exact h₃.settles hg (hc'.look_eq_map hg) hbc heq.symm s.append_nil.symm
    rw [hskip₃ fun c hc => hthird ⟨c, hc⟩]
    rw [hannotations] at heq
    obtain rfl | ⟨d, hd, rfl⟩ := eq_or_exists_of_concat_eq heq
    · rw [← hannotations] at hbc
      exact (hthird ⟨c, hbc⟩).elim
    by_cases hsecond : ∃ c', m₀.Twins (metadataTrail p) c'
    · obtain ⟨c', hc'⟩ := hsecond
      exact h₂.settles hg (hc'.look_eq_map hg) hbc hd rfl
    rw [hskip₂ fun c hc => hsecond ⟨c, hc⟩]
    rw [metadataTrail_eq] at hd
    obtain rfl | ⟨d', hd', rfl⟩ := eq_or_exists_of_concat_eq hd.symm
    · rw [← metadataTrail_eq] at hbc
      exact (hsecond ⟨c, hbc⟩).elim
    exact h₁.settles hg (look_trail_of_mem_targets hp) hbc hd' (List.append_assoc ..)
  · rw [h₃.shared, h₂.shared, h₁.shared]
  · rw [h₃.endless, h₂.endless, h₁.endless]

/-! Runs -/

/-- A manifest that another one has become by writes that are done. -/
structure After (m₀ : Manifest) (ws : List Write) (done : List Text → Write → Prop) (m : Manifest) : Prop where
  shared : m.shared = m₀.shared
  endless : m.endless = m₀.endless
  reached : m₀.Reached ws done m.toValue

theorem mem_targets_of_look (hp : p ∈ resourcePaths) (h : m₀.toValue.look (trail p) = some .map) : p ∈ m₀.targets := by
  obtain ⟨sub, hsub⟩ := Value.look_eq_map_iff.mp h
  refine mem_targets_iff.mpr ⟨hp, ?_⟩
  rw [Entries.part?_trail_iff.mp hsub]
  rfl

/-- Where there was no resource, writes make none. -/
theorem Reached.descend?_eq_none {es : Entries} (hg : m₀.IsGraph) (h : m₀.Reached ws done (.map es)) (hp : p ∈ resourcePaths)
    (hnot : p ∉ m₀.targets) : es.descend? p = none := by
  have hmap : m₀.toValue.look (trail p) ≠ some .map := fun hmap => hnot (mem_targets_of_look hp hmap)
  have hlast : (trail p).getLast? = some (.key (text "template")) := by
    have hne : p ≠ [] := by
      rintro rfl
      exact hnot (nil_mem_targets m₀)
    have hall : ∀ p ∈ resourcePaths, p ≠ [] → p.getLast? = some (text "template") := by decide
    rw [trail, List.getLast?_map, hall p hp hne]
    rfl
  have hother : ∀ (q : Trail) (k : Text), k ≠ text "template" → ¬ m₀.Home (q ++ [.key k]) (trail p) := by
    intro q k hk hhome
    have heq := hhome.getLast?_eq hg hmap
    rw [hlast, List.getLast?_concat, Option.some.injEq, Value.Step.key.injEq] at heq
    exact hk heq.symm
  refine Option.eq_none_iff_forall_ne_some.mpr fun sub hsub => ?_
  have hlook : (Value.map es).look (trail p) = some .map :=
    Value.look_eq_map_iff.mpr ⟨sub, Entries.part?_trail_iff.mpr hsub⟩
  have hpre : trail p <+: annotationsTrail p := trail_prefix (List.prefix_append _ _)
  obtain hsame | ⟨⟨p', -, hhome | hhome⟩, -⟩ := h.frame _ (not_touched_on_way hp hpre)
  · exact hmap (hsame.symm.trans hlook)
  · rw [metadataTrail_eq] at hhome
    exact hother _ _ (by decide) hhome
  · rw [annotationsTrail_eq] at hhome
    exact hother _ _ (by decide) hhome

/-- Where there was no resource, nothing is spread. -/
theorem Reached.spreadResource_of_absent (hg : m₀.IsGraph) (h : m₀.Reached ws done m.toValue) (hs : m.shared = m₀.shared)
    (hp : p ∈ resourcePaths) (hnot : p ∉ m₀.targets) : m.spreadResource p = m := by
  have hskip : ∀ r, spreadAlong (p ++ r) m = m := by
    intro r
    refine spreadAlong_of_not_twins _ hg h.initial hs h.tracked fun c hc => ?_
    exact hnot (mem_targets_of_look hp (Entries.look_trail_of_append (hc.look_eq_map hg)))
  rw [spreadResource_eq, hskip, hskip, hskip]

section

variable (hg : m₀.IsGraph) (hopen : ∀ p ∈ m₀.targets, (m₀.annotationsAt? p).isSome) (hagree : Write.Agree ws)

include hg hopen hagree

/-- One write at one path: it is done where there is a resource. -/
theorem After.updateResource (h : m₀.After ws done m) (hp : p ∈ resourcePaths) (hw : w ∈ ws) :
    ∃ m', m.updateResource (w.domain.schema.store w.family w.descriptor) p = .done m' ∧
      m₀.After ws (fun p' w' => done p' w' ∨ (p' = p ∧ p' ∈ m₀.targets) ∧ w' = w) m' := by
  rw [updateResource_eq]
  by_cases htarget : p ∈ m₀.targets
  · obtain ⟨es', hdone, hupdated, hdata, htracked⟩ := h.reached.exists_update htarget (hopen p htarget) w
    have hreached := h.reached.update hagree htarget hw hupdated hdata (h.reached.tracked.trans htracked)
    obtain ⟨hfinished, hshared, hendless⟩ :=
      Reached.spreadResource (m := { m with entries := es' }) hg h.shared htarget hw hreached hupdated.stands
    refine ⟨_, by rw [hdone]; rfl, hshared.trans h.shared, hendless.trans h.endless, hfinished.mono fun p' w' hd => ?_⟩
    exact hd.imp_right fun hp' => ⟨hp'.1.1, hp'.2⟩
  · rw [Entries.updateAlong_of_none _ (h.reached.descend?_eq_none hg hp htarget)]
    refine ⟨m, ?_, h.shared, h.endless, h.reached.mono fun p' w' hd => ?_⟩
    · exact congrArg Outcome.done (h.reached.spreadResource_of_absent hg h.shared hp htarget)
    · obtain hd | ⟨⟨rfl, hp'⟩, -⟩ := hd
      · exact hd
      · exact (htarget hp').elim

theorem After.updateResources (h : m₀.After ws done m) {paths : List (List Text)} (hpaths : paths ⊆ resourcePaths) (hw : w ∈ ws) :
    ∃ m', updateResources (w.domain.schema.store w.family w.descriptor) paths m = .done m' ∧
      m₀.After ws (fun p' w' => done p' w' ∨ (p' ∈ paths ∧ p' ∈ m₀.targets) ∧ w' = w) m' := by
  induction paths generalizing done m with
  | nil =>
    refine ⟨m, rfl, h.shared, h.endless, h.reached.mono fun p' w' hd => ?_⟩
    obtain hd | ⟨⟨hp', -⟩, -⟩ := hd
    · exact hd
    · exact (List.not_mem_nil hp').elim
  | cons p paths ih =>
    rw [List.cons_subset] at hpaths
    obtain ⟨m₁, hone, h₁⟩ := h.updateResource hg hopen hagree hpaths.1 hw
    obtain ⟨m', hdone, h'⟩ := ih h₁ hpaths.2
    refine ⟨m', ?_, h'.shared, h'.endless, h'.reached.mono fun p' w' hd => ?_⟩
    · rw [Manifest.updateResources, hone]
      exact hdone
    · obtain hd | ⟨⟨hp', htarget⟩, rfl⟩ := hd
      · exact .inl (.inl hd)
      · obtain rfl | hp' := List.mem_cons.mp hp'
        · exact .inl (.inr ⟨⟨rfl, htarget⟩, rfl⟩)
        · exact .inr ⟨⟨hp', htarget⟩, rfl⟩

/-- A run comes to its end, and its writes are done at all resources. -/
theorem After.run (h : m₀.After ws done m) {us : List Write} (hus : us ⊆ ws) :
    ∃ m', Write.run Write.annotate us (.manifest m) = .done (.manifest m') ∧
      m₀.After ws (fun p' w' => done p' w' ∨ p' ∈ m₀.targets ∧ w' ∈ us) m' := by
  induction us generalizing done m with
  | nil =>
    refine ⟨m, rfl, h.shared, h.endless, h.reached.mono fun p' w' hd => ?_⟩
    obtain hd | ⟨-, hw'⟩ := hd
    · exact hd
    · exact (List.not_mem_nil hw').elim
  | cons u us ih =>
    rw [List.cons_subset] at hus
    obtain ⟨m₁, hone, h₁⟩ := h.updateResources hg hopen hagree (List.Subset.refl resourcePaths) hus.1
    obtain ⟨m', hdone, h'⟩ := ih h₁ hus.2
    refine ⟨m', ?_, h'.shared, h'.endless, h'.reached.mono fun p' w' hd => ?_⟩
    · have hstep : u.annotate (.manifest m) = .done (.manifest m₁) := by
        rw [Write.annotate, Write.under_eq, Target.annotate, Manifest.annotate]
        rw [resourcePaths] at hone
        rw [hone]
        rfl
      rw [Write.run, hstep]
      exact hdone
    · obtain hd | ⟨htarget, hw'⟩ := hd
      · exact .inl (.inl hd)
      · obtain rfl | hw' := List.mem_cons.mp hw'
        · exact .inl (.inr ⟨⟨mem_resourcePaths htarget, htarget⟩, rfl⟩)
        · exact .inr ⟨htarget, hw'⟩

end

/-! The text -/

theorem After.init (hdata : m.toValue.IsData) (ws : List Write) : m.After ws (fun _ _ => False) m where
  shared := rfl
  endless := rfl
  reached :=
    { sound := fun _ _ h => h.elim
      initial := hdata
      data := hdata
      tracked := .refl _
      frame := fun _ _ => .inl rfl
      opened := fun _ _ h => h.elim
      stored := fun _ _ h => h.elim }

/-- Descriptors of different families can be written in any order: every run comes to its end, and they make the same of a
manifest. -/
theorem exists_runs_same (hdata : m.toValue.IsData) (hg : m.IsGraph) (hopen : ∀ p ∈ m.targets, (m.annotationsAt? p).isSome)
    {us us' : List Write} (hperm : us.Perm us') (hnodup : (us.map fun w => (w.domain, w.family)).Nodup) :
    ∃ n n', Write.run Write.annotate us (.manifest m) = .done (.manifest n) ∧
      Write.run Write.annotate us' (.manifest m) = .done (.manifest n') ∧
      n.toValue.IsData ∧ n.toValue.Same n'.toValue ∧ n.endless = n'.endless := by
  have hagree := Write.agree_of_nodup hnodup
  have hagree' : Write.Agree us' := Write.agree_of_nodup (((hperm.map _).nodup_iff).mp hnodup)
  obtain ⟨n, hrun, hn⟩ := (After.init hdata us).run hg hopen hagree (List.Subset.refl us)
  obtain ⟨n', hrun', hn'⟩ := (After.init hdata us').run hg hopen hagree' (List.Subset.refl us')
  refine ⟨n, n', hrun, hrun', hn.reached.data, ?_, hn.endless.trans hn'.endless.symm⟩
  by_cases hnil : us = []
  · subst hnil
    obtain rfl := hperm.nil_eq
    rw [hrun, Outcome.done, Outcome.done, Outcome.mk.injEq, Target.manifest.injEq] at hrun'
    rw [← hrun'.1]
    exact Value.same_of_look _ _ hn.reached.data hn.reached.data fun q => rfl
  · refine Value.same_of_look _ _ hn.reached.data hn'.reached.data ?_
    exact hn.reached.look_eq (fun w => hperm.mem_iff) hnil (fun p hp w hw => .inr ⟨hp, hw⟩) hn'.reached
      fun p hp w hw => .inr ⟨hp, hw⟩

/-- Manifests that are the same, their maps taken as maps, are written alike. -/
theorem writeAll_eq_of_same {ms ns : List Manifest}
    (h : List.Forall₂ (fun m n : Manifest => m.toValue.IsData ∧ m.toValue.Same n.toValue ∧ m.endless = n.endless) ms ns) :
    writeAll ms = writeAll ns := by
  have htrees : ms.map tree = ns.map tree := by
    induction h with
    | nil => rfl
    | cons hsame _ ih =>
      obtain ⟨hdata, hsame, hendless⟩ := hsame
      rw [List.map_cons, List.map_cons, tree, tree, hendless, Yaml.Tree.ofValue_same hdata hsame, ih]
  rw [writeAll, writeAll, htrees]

/-- The order of insertion does not show in what is written. Documents that are the same, their maps taken as maps, have the
same text or the same failure; a number with a sign of zero is the same only as one with that sign. So the text of a
manifest is the same after descriptors of different families have been written to it, whatever their order was, also where
maps have several places in it, as they have in what is read. -/
theorem writeAll_any_order :
    (∀ vs ws : List Value, (∀ v ∈ vs, v.IsData) → List.Forall₂ Value.Same vs ws →
      Yaml.writeAll .document vs = Yaml.writeAll .document ws) ∧
    (∀ ms ns : List Manifest,
      List.Forall₂ (fun m n : Manifest => m.toValue.IsData ∧ m.toValue.Same n.toValue ∧ m.endless = n.endless) ms ns →
      writeAll ms = writeAll ns) ∧
    (∀ m : Manifest, m.toValue.IsData → m.IsGraph → (∀ p ∈ m.targets, (m.annotationsAt? p).isSome) →
      ∀ us us' : List Write, us.Perm us' → (us.map fun w => (w.domain, w.family)).Nodup →
        ∃ n n', Write.run Write.annotate us (.manifest m) = .done (.manifest n) ∧
          Write.run Write.annotate us' (.manifest m) = .done (.manifest n') ∧
          ∀ before after, writeAll (before ++ n :: after) = writeAll (before ++ n' :: after)) ∧
    ∀ (t : Text) (ms : List Manifest), readAll t = .ok ms → ∀ m ∈ ms, m.IsGraph := by
  refine ⟨fun vs ws => Yaml.writeAll_same, fun ms ns => writeAll_eq_of_same, ?_, fun t ms => isGraph_of_readAll⟩
  intro m hdata hg hopen us us' hperm hnodup
  obtain ⟨n, n', hrun, hrun', hn, hsame, hendless⟩ := exists_runs_same hdata hg hopen hperm hnodup
  refine ⟨n, n', hrun, hrun', fun before after => ?_⟩
  have htree : n.tree = n'.tree := by
    rw [tree, tree, hendless, Yaml.Tree.ofValue_same hn hsame]
  rw [writeAll, writeAll, List.map_append, List.map_append, List.map_cons, List.map_cons, htree]

theorem isData_oneMetadata : oneMetadata.toValue.IsData := by
  have hne : text "metadata" ≠ text "spec" := by decide
  simp [toValue, oneMetadata, Value.IsData, Value.IsData.entries, Entries.TextKeys.cons_iff, Entries.TextKeys.nil, hne]

theorem isGraph_oneMetadata : oneMetadata.IsGraph := by
  constructor
  · exact coherent_oneMetadata
  · rintro x y z ⟨g, hg, -, hy⟩ ⟨g', hg', -, hz⟩
    obtain rfl := List.mem_singleton.mp hg
    obtain rfl := List.mem_singleton.mp hg'
    exact ⟨_, hg, hy, hz⟩
  · rintro x y s es ⟨g, hg, hx, hy⟩ hes
    -- The shared map holds no other map.
    have hnil : s = [] := by
      obtain rfl := List.mem_singleton.mp hg
      have hplace : oneMetadata.toValue.at? x = some (.map [(.str (text "annotations"), .null)]) := by
        rcases List.mem_pair.mp hx with rfl | rfl <;> rfl
      rw [Value.at?_append, hplace, Option.bind_some] at hes
      rcases s with _ | ⟨_ | i, s⟩
      · rfl
      · cases s <;> cases hes
      · cases hes
    rw [hnil, List.append_nil, List.append_nil]
    exact ⟨g, hg, hx, hy⟩

/-- A step that names the image of a resource. -/
def tagging : Write where
  domain := .default
  family := .artifact
  descriptor := .descriptor (.artifact ⟨.str (text "docker"), .str (text "b"), .null, .str (text "1")⟩)
  fits := by
    refine .inr ⟨_, rfl, rfl, fun f w h => ?_⟩
    cases f <;> cases h
    all_goals first | exact .inl rfl | exact .inr ⟨_, rfl⟩

/-- A step without relationships. -/
def unrelated : Write where
  domain := .default
  family := .relationships
  descriptor := .null
  fits := .inl ⟨rfl, by decide⟩

/-- A map that is named twice. -/
def aliasText : Text :=
  text "a: &x \x7b\x7d\nb: *x"

theorem shared_aliasText : (readAll aliasText).toOption.map (fun ms => ms.map Manifest.shared) = some [[[[0], [1]]]] := by
  decide +kernel

theorem writeAll_one_metadata :
    Yaml.writeAll .document [.map [(.str (text "b"), .list [.bool true, .null]), (.str (text "a"), .int 1)]] =
      Yaml.writeAll .document [.map [(.str (text "a"), .int 1), (.str (text "b"), .list [.bool true, .null])]] ∧
    writeAll [.ofEntries [(.str (text "b"), .null), (.str (text "a"), .int 1)]] =
      writeAll [.ofEntries [(.str (text "a"), .int 1), (.str (text "b"), .null)]] ∧
    (∃ n n', Write.run Write.annotate [Write.naming, tagging, unrelated] (.manifest oneMetadata) = .done (.manifest n) ∧
      Write.run Write.annotate [unrelated, tagging, Write.naming] (.manifest oneMetadata) = .done (.manifest n') ∧
      writeAll [n] = writeAll [n']) ∧
    ∃ ms, readAll aliasText = .ok ms ∧ ms.map Manifest.shared = [[[[0], [1]]]] ∧ ∀ m ∈ ms, m.IsGraph := by
  have hne : text "b" ≠ text "a" := by decide
  obtain ⟨hdocuments, hmanifests, hruns, hloaded⟩ := writeAll_any_order
  refine ⟨hdocuments _ _ ?_ ?_, hmanifests _ _ ?_, ?_, ?_⟩
  · simp [Value.IsData, Value.IsData.entries, Value.IsData.all, Entries.TextKeys.cons_iff, Entries.TextKeys.nil, hne]
  · simp [Value.Same, Value.Same.entries, Value.Same.all]
  · simp [toValue, ofEntries, Value.IsData, Value.IsData.entries, Entries.TextKeys.cons_iff, Entries.TextKeys.nil, Value.Same,
      Value.Same.entries, hne]
  · obtain ⟨n, n', hrun, hrun', hsame⟩ := hruns oneMetadata isData_oneMetadata isGraph_oneMetadata (by decide)
      [Write.naming, tagging, unrelated] [unrelated, tagging, Write.naming] ((List.reverse_perm _).symm) (by decide)
    exact ⟨n, n', hrun, hrun', hsame [] []⟩
  · obtain ⟨ms, hms, hshared⟩ := Option.map_eq_some_iff.mp shared_aliasText
    cases hread : readAll aliasText with
    | error e =>
      rw [hread] at hms
      cases hms
    | ok ms' =>
      rw [hread] at hms
      cases hms
      exact ⟨ms, rfl, hshared, hloaded _ ms hread⟩

end Manifest

end AnnotationCodec
