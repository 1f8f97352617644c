import AnnotationCodec.Proofs.Annotation.Writes
import AnnotationCodec.Proofs.Manifest.Alias

/-!
What is seen of a manifest while writes are carried out on it. It is told by the manifest before them and by the writes that
are done, whatever their order: texts stand at the keys that were written, maps where annotations were opened, and the
rest is as it was.
-/
namespace AnnotationCodec

open Entries (annotationsPath trail)
open Value (Replaced Tracked Trail)

namespace Manifest

/-- The trail to the metadata of the resource along a path. -/
def metadataTrail (p : List Text) : Trail :=
  trail (p ++ [text "metadata"])

/-- The trail to the annotations of the resource along a path. -/
def annotationsTrail (p : List Text) : Trail :=
  trail (p ++ annotationsPath)

theorem metadataTrail_eq (p : List Text) : metadataTrail p = trail p ++ [.key (text "metadata")] :=
  Entries.trail_append ..

theorem annotationsTrail_eq (p : List Text) : annotationsTrail p = metadataTrail p ++ [.key (text "annotations")] := by
  rw [annotationsTrail, metadataTrail, annotationsPath, ← List.singleton_append, ← List.append_assoc, Entries.trail_append]
  rfl

end Manifest

namespace Write

/-- A write gives a text for a key. -/
def Gives (w : Write) (k t : Text) : Prop :=
  ∃ d f v, w.given? d f = some v ∧ k = d.schema.key f ∧ ∀ key, Codec.encode key f.shape v = .ok t

/-- Writes that give the same key give the same text for it. -/
def Agree (ws : List Write) : Prop :=
  ∀ w ∈ ws, ∀ w' ∈ ws, ∀ k t t', w.Gives k t → w'.Gives k t' → t = t'

theorem Gives.slash_mem {w : Write} {k t : Text} (h : w.Gives k t) : ('/' : CodePoint) ∈ k := by
  obtain ⟨d, f, v, -, rfl, -⟩ := h
  rw [Domain.key_eq]
  simp

theorem Gives.ne {w : Write} {k t : Text} (h : w.Gives k t) : k ≠ text "metadata" ∧ k ≠ text "annotations" := by
  have hslash := h.slash_mem
  constructor
  · rintro rfl
    revert hslash
    decide
  · rintro rfl
    revert hslash
    decide

/-- The keys that are given are neither those of metadata nor those of annotations. -/
theorem Gives.append_key_ne {w : Write} {k t : Text} (h : w.Gives k t) (a : Trail) (p : List Text) :
    a ++ [.key k] ≠ Manifest.metadataTrail p ∧ a ++ [.key k] ≠ Manifest.annotationsTrail p := by
  have hlast : ∀ (b : Trail) (j : Text), k ≠ j → a ++ [.key k] ≠ b ++ [.key j] := by
    intro b j hne heq
    have hkeys := (List.append_inj' heq rfl).2
    rw [List.singleton_inj, Value.Step.key.injEq] at hkeys
    exact hne hkeys
  rw [Manifest.metadataTrail_eq, Manifest.annotationsTrail_eq]
  exact ⟨hlast _ _ h.ne.1, hlast _ _ h.ne.2⟩

end Write

namespace Manifest

/-- Whether a trail leads to a key of annotations that one of the writes gives a text for, or through it. -/
def Touched (m₀ : Manifest) (ws : List Write) (q : Trail) : Prop :=
  ∃ p ∈ m₀.targets, ∃ a, m₀.Home (annotationsTrail p) a ∧ ∃ w ∈ ws, ∃ k t, w.Gives k t ∧ a ++ [.key k] <+: q

/-- Whether a trail leads to metadata or annotations that are opened. -/
def Opening (m₀ : Manifest) (q : Trail) : Prop :=
  ∃ p ∈ m₀.targets, m₀.Home (metadataTrail p) q ∨ m₀.Home (annotationsTrail p) q

/-- What is seen of a value that a manifest has become by those of the writes `ws` that are done, each of them at a resource. -/
structure Reached (m₀ : Manifest) (ws : List Write) (done : List Text → Write → Prop) (v : Value) : Prop where
  sound : ∀ p w, done p w → p ∈ m₀.targets ∧ w ∈ ws
  initial : m₀.toValue.IsData
  data : v.IsData
  tracked : Tracked m₀.toValue v
  frame : ∀ q, ¬ m₀.Touched ws q → v.look q = m₀.toValue.look q ∨ m₀.Opening q ∧ v.look q = some .map
  opened : ∀ p w, done p w → ∀ q, m₀.Home (annotationsTrail p) q → ¬ m₀.Touched ws q → v.look q = some .map
  stored : ∀ p w, done p w → ∀ k t, w.Gives k t → ∀ a, m₀.Home (annotationsTrail p) a → v.look a = some .map →
    v.look (a ++ [.key k]) = some (.leaf (.str t))

/-- A write shows at a resource: annotations stand there, with the texts that it gives. -/
structure Stands (p : List Text) (w : Write) (v : Value) : Prop where
  annotations : v.look (annotationsTrail p) = some .map
  given : ∀ k t, w.Gives k t → v.look (annotationsTrail p ++ [.key k]) = some (.leaf (.str t))

/-- What a write at a resource changes before its maps are spread. -/
structure Updated (p : List Text) (w : Write) (v v' : Value) : Prop where
  stands : Stands p w v'
  metadata : v'.look (metadataTrail p) = some .map
  others : ∀ q, q ≠ metadataTrail p → q ≠ annotationsTrail p → (∀ k t, w.Gives k t → ¬ annotationsTrail p ++ [.key k] <+: q) →
    v'.look q = v.look q

/-- The maps on the way to the annotations of a resource have been spread: what is seen of the annotations at their other
places is what is seen of themselves. -/
def Settled (m₀ : Manifest) (p : List Text) (v : Value) : Prop :=
  ∀ b c s, m₀.Twins b c → annotationsTrail p = b ++ s → ∃ d r, s = d ++ r ∧ m₀.Twins (b ++ d) (c ++ d) ∧
    (v.look (c ++ d) = some .map → ∀ t, v.look (c ++ d ++ t) = v.look (b ++ d ++ t))

variable {m₀ : Manifest} {ws : List Write} {done : List Text → Write → Prop} {p : List Text} {w : Write} {v v' u : Value}
  {a b c q r s : Trail} {k t : Text}

/-! Trails that are touched -/

theorem Touched.mono (h : m₀.Touched ws q) (hqr : q <+: r) : m₀.Touched ws r := by
  obtain ⟨p, hp, a, ha, w, hw, k, t, hk, hpre⟩ := h
  exact ⟨p, hp, a, ha, w, hw, k, t, hk, hpre.trans hqr⟩

/-- No key on the way to annotations is given a text. -/
theorem not_touched_on_way (hp : p ∈ resourcePaths) (hq : q <+: annotationsTrail p) : ¬ m₀.Touched ws q := by
  rintro ⟨p', -, a, -, w, -, k, t, hk, hpre⟩
  have hmem : Value.Step.key k ∈ annotationsTrail p := by
    refine (hpre.trans hq).subset ?_
    simp
  obtain ⟨k', hk', heq⟩ := List.mem_map.mp hmem
  obtain rfl := Value.Step.key.inj heq
  have hslash : ∀ p ∈ resourcePaths, ∀ k ∈ p ++ annotationsPath, ('/' : CodePoint) ∉ k := by decide
  exact hslash p hp k' hk' hk.slash_mem

/-- A trail that is touched behind a map is so from its other places. -/
theorem Touched.twin (hg : m₀.IsGraph) (h : m₀.Touched ws (b ++ s)) (hbc : m₀.Twins b c) (hb : ¬ m₀.Touched ws b) :
    m₀.Touched ws (c ++ s) := by
  obtain ⟨p, hp, a, ha, w, hw, k, t, hk, hpre⟩ := h
  have hnot : ¬ a ++ [.key k] <+: b := fun h => hb ⟨p, hp, a, ha, w, hw, k, t, hk, h⟩
  have hba : b <+: a ++ [.key k] := (List.prefix_or_prefix_of_prefix (List.prefix_append b s) hpre).resolve_right hnot
  obtain rfl | ⟨r, rfl⟩ := List.prefix_concat_iff.mp hba
  · exact (hnot (List.prefix_refl _)).elim
  · refine ⟨p, hp, c ++ r, ha.twin hg hbc, w, hw, k, t, hk, ?_⟩
    rw [List.append_assoc, List.prefix_append_right_inj] at hpre ⊢
    exact hpre

theorem Opening.twin (hg : m₀.IsGraph) (h : m₀.Opening (b ++ s)) (hbc : m₀.Twins b c) : m₀.Opening (c ++ s) := by
  obtain ⟨p, hp, h | h⟩ := h
  · exact ⟨p, hp, .inl (h.twin hg hbc)⟩
  · exact ⟨p, hp, .inr (h.twin hg hbc)⟩

theorem Reached.mono {done' : List Text → Write → Prop} (h : m₀.Reached ws done v) (hd : ∀ p w, done' p w → done p w) :
    m₀.Reached ws done' v where
  sound p w hw := h.sound p w (hd p w hw)
  initial := h.initial
  data := h.data
  tracked := h.tracked
  frame := h.frame
  opened p w hw := h.opened p w (hd p w hw)
  stored p w hw := h.stored p w (hd p w hw)

/-! Copies -/

/-- A map that is copied to another of its places keeps what is seen of a manifest. -/
theorem Reached.put (hg : m₀.IsGraph) (h : m₀.Reached ws done v) (hbc : m₀.Twins b c) (hb : ¬ m₀.Touched ws b)
    (hu : v.part? b = some u) (hc : v.look c = some .map) (hr : Replaced c u v v') (hdata : v'.IsData)
    (htracked : Tracked m₀.toValue v') : m₀.Reached ws done v' := by
  have hcopy : ∀ s, v'.look (c ++ s) = v.look (b ++ s) := by
    intro s
    rw [hr.inside, Value.look_append hu]
  have hback : ∀ s, m₀.Touched ws (b ++ s) → m₀.Touched ws (c ++ s) := fun s hs => hs.twin hg hbc hb
  refine ⟨h.sound, h.initial, hdata, htracked, fun q hq => ?_, fun p w hd q hq hnot => ?_, fun p w hd k t hk a ha hmap => ?_⟩
  · by_cases hcq : c <+: q
    · obtain ⟨s, rfl⟩ := hcq
      rw [hcopy, ← hbc.look_eq hg]
      obtain hsame | ⟨hopening, hmap⟩ := h.frame (b ++ s) fun hs => hq (hback s hs)
      · exact .inl hsame
      · exact .inr ⟨hopening.twin hg hbc, hmap⟩
    · rw [hr.outside q hcq]
      exact h.frame q hq
  · by_cases hcq : c <+: q
    · obtain ⟨s, rfl⟩ := hcq
      rw [hcopy]
      exact h.opened p w hd _ (hq.twin hg hbc.symm) fun hs => hnot (hback s hs)
    · rw [hr.outside q hcq]
      exact h.opened p w hd q hq hnot
  · by_cases hca : c <+: a
    · obtain ⟨s, rfl⟩ := hca
      rw [hcopy] at hmap
      rw [List.append_assoc, hcopy, ← List.append_assoc]
      exact h.stored p w hd k t hk _ (ha.twin hg hbc.symm) hmap
    · rw [hr.outside a hca] at hmap
      have htext := h.stored p w hd k t hk a ha hmap
      -- The copy is not put where the text is, since no map stands there any more.
      have hck : ¬ c <+: a ++ [.key k] := by
        intro hpre
        obtain rfl | hpre := List.prefix_concat_iff.mp hpre
        · rw [htext] at hc
          cases hc
        · exact hca hpre
      rw [hr.outside _ hck]
      exact htext

/-- What is copied from the way to the annotations of a resource does not reach them. -/
theorem Stands.put (hg : m₀.IsGraph) (h : Stands p w v) (hbc : m₀.Twins b c) (hne : b ≠ c) (hb : b <+: annotationsTrail p)
    (hr : Replaced c u v v') : Stands p w v' := by
  have hout : ∀ s, b <+: s → ¬ c <+: s := by
    intro s hbs hcs
    obtain hcb | hbc' := List.prefix_or_prefix_of_prefix hcs hbs
    · exact hbc.symm.not_prefix hg hne.symm hcb
    · exact hbc.not_prefix hg hne hbc'
  constructor
  · rw [hr.outside _ (hout _ hb)]
    exact h.annotations
  · intro k t hk
    rw [hr.outside _ (hout _ (hb.trans (List.prefix_append _ _)))]
    exact h.given k t hk

/-! One write at one resource -/

theorem Updated.others_of_not_touched (h : Updated p w v v') (hp : p ∈ m₀.targets) (hw : w ∈ ws) (hq : ¬ m₀.Touched ws q) :
    v'.look q = some .map ∨ v'.look q = v.look q := by
  by_cases hmetadata : q = metadataTrail p
  · rw [hmetadata]
    exact .inl h.metadata
  by_cases hannotations : q = annotationsTrail p
  · rw [hannotations]
    exact .inl h.stands.annotations
  exact .inr (h.others q hmetadata hannotations fun k t hk hpre =>
    hq ⟨p, hp, _, .refl m₀ _, w, hw, k, t, hk, hpre⟩)

/-- There is no map at a key that a write gives a text for, nor behind it. -/
theorem Stands.look_ne_map (h : Stands p w v) (hk : w.Gives k t) (hq : annotationsTrail p ++ [.key k] <+: q) :
    v.look q ≠ some .map := by
  obtain ⟨r, rfl⟩ := hq
  by_cases hr : r = []
  · rw [hr, List.append_nil, h.given k t hk]
    simp
  · rw [Value.look_behind_leaf (h.given k t hk) hr]
    simp

/-- A write at a resource keeps what is seen of a manifest. -/
theorem Reached.update (h : m₀.Reached ws done v) (hagree : Write.Agree ws) (hp : p ∈ m₀.targets) (hw : w ∈ ws)
    (hu : Updated p w v v') (hdata : v'.IsData) (htracked : Tracked m₀.toValue v') : m₀.Reached ws done v' := by
  have hown : ¬ m₀.Touched ws (annotationsTrail p) := not_touched_on_way (mem_resourcePaths hp) (List.prefix_refl _)
  refine ⟨h.sound, h.initial, hdata, htracked, fun q hq => ?_, fun p' w' hd q hq hnot => ?_, fun p' w' hd k t hk a ha hmap => ?_⟩
  · by_cases hmetadata : q = metadataTrail p
    · subst hmetadata
      exact .inr ⟨⟨p, hp, .inl (.refl m₀ _)⟩, hu.metadata⟩
    by_cases hannotations : q = annotationsTrail p
    · subst hannotations
      exact .inr ⟨⟨p, hp, .inr (.refl m₀ _)⟩, hu.stands.annotations⟩
    rw [hu.others q hmetadata hannotations fun k t hk hpre => hq ⟨p, hp, _, .refl m₀ _, w, hw, k, t, hk, hpre⟩]
    exact h.frame q hq
  · obtain hmap | hsame := hu.others_of_not_touched hp hw hnot
    · exact hmap
    · rw [hsame]
      exact h.opened p' w' hd q hq hnot
  · obtain ⟨hne, hne'⟩ := hk.append_key_ne a p
    by_cases ha' : a = annotationsTrail p
    · subst ha'
      by_cases hgiven : ∃ t', w.Gives k t'
      · obtain ⟨t', hk'⟩ := hgiven
        rw [hagree w' (h.sound p' w' hd).2 w hw k t t' hk hk']
        exact hu.stands.given k t' hk'
      · rw [hu.others _ hne hne' fun k' t' hk' hpre => ?_]
        · exact h.stored p' w' hd k t hk _ ha (h.opened p' w' hd _ ha hown)
        · have hkeys := hpre.eq_of_length (by simp)
          rw [List.append_right_inj, List.singleton_inj] at hkeys
          cases hkeys
          exact hgiven ⟨t', hk'⟩
    · have hbefore : v.look a = some .map := by
        by_cases hmetadata : a = metadataTrail p
        · subst hmetadata
          refine h.opened p' w' hd _ ha (not_touched_on_way (mem_resourcePaths hp) ?_)
          rw [annotationsTrail_eq]
          exact List.prefix_append _ _
        · rw [← hu.others a hmetadata ha' fun k' t' hk' hpre => hu.stands.look_ne_map hk' hpre hmap]
          exact hmap
      rw [hu.others _ hne hne' fun k' t' hk' hpre => ?_]
      · exact h.stored p' w' hd k t hk a ha hbefore
      · obtain heq | hpre := List.prefix_concat_iff.mp hpre
        · exact ha' (List.append_inj_left' heq rfl).symm
        · exact hu.stands.look_ne_map hk' hpre hmap

theorem exists_key_of_append_eq (h : annotationsTrail p = b ++ (c ++ r)) (hr : r ≠ []) : ∃ k r', r = .key k :: r' := by
  obtain ⟨s, r', rfl⟩ := List.exists_cons_of_ne_nil hr
  have hmem : s ∈ annotationsTrail p := by
    rw [h]
    simp
  obtain ⟨k, -, rfl⟩ := List.mem_map.mp hmem
  exact ⟨k, r', rfl⟩

/-- When the maps of a resource have been spread, the write there is done. -/
theorem Reached.finish (hg : m₀.IsGraph) (h : m₀.Reached ws done v) (hp : p ∈ m₀.targets) (hw : w ∈ ws) (hstands : Stands p w v)
    (hsettled : m₀.Settled p v) : m₀.Reached ws (fun p' w' => done p' w' ∨ p' = p ∧ w' = w) v := by
  refine ⟨?_, h.initial, h.data, h.tracked, h.frame, ?_, ?_⟩
  · rintro p' w' (hd | ⟨rfl, rfl⟩)
    · exact h.sound p' w' hd
    · exact ⟨hp, hw⟩
  · rintro p' w' (hd | ⟨rfl, rfl⟩) q hq hnot
    · exact h.opened p' w' hd q hq hnot
    obtain rfl | ⟨b, c, s, hbc, heq, rfl⟩ := hq
    · exact hstands.annotations
    obtain ⟨d, r, rfl, htwins, hsame⟩ := hsettled b c s hbc heq
    have hmap : v.look (c ++ d) = some .map := by
      have hpre : c ++ d <+: c ++ (d ++ r) := (List.prefix_append_right_inj c).mpr (List.prefix_append d r)
      obtain hsame | ⟨-, hmap⟩ := h.frame (c ++ d) fun hd => hnot (hd.mono hpre)
      · rw [hsame, htwins.symm.look_eq_map hg]
      · exact hmap
    rw [← List.append_assoc, hsame hmap r, List.append_assoc, ← heq]
    exact hstands.annotations
  · rintro p' w' (hd | ⟨rfl, rfl⟩) k t hk a ha hmap
    · exact h.stored p' w' hd k t hk a ha hmap
    obtain rfl | ⟨b, c, s, hbc, heq, rfl⟩ := ha
    · exact hstands.given k t hk
    obtain ⟨d, r, rfl, -, hsame⟩ := hsettled b c s hbc heq
    have hmap' : v.look (c ++ d) = some .map := by
      by_cases hr : r = []
      · rwa [hr, List.append_nil] at hmap
      · obtain ⟨j, r', rfl⟩ := exists_key_of_append_eq heq hr
        refine Value.look_eq_map_of_key (k := j) (r := r') ?_
        rw [List.append_assoc, hmap]
        simp
    rw [← List.append_assoc c, List.append_assoc (c ++ d), hsame hmap', ← List.append_assoc, List.append_assoc b, ← heq]
    exact hstands.given k t hk

/-! What is reached when all is done -/

/-- What is touched is so by a key of annotations that are not touched themselves. -/
theorem Touched.exists_first (h : m₀.Touched ws q) : ∃ p ∈ m₀.targets, ∃ a, m₀.Home (annotationsTrail p) a ∧ ¬ m₀.Touched ws a ∧
    ∃ w ∈ ws, ∃ k t, w.Gives k t ∧ a ++ [.key k] <+: q := by
  induction hn : q.length using Nat.strong_induction_on generalizing q with
  | h n ih =>
    obtain ⟨p, hp, a, ha, w, hw, k, t, hk, hpre⟩ := h
    by_cases hta : m₀.Touched ws a
    · have hlength : a.length < n := by
        have hle := hpre.length_le
        rw [List.length_append, List.length_singleton] at hle
        omega
      obtain ⟨p', hp', a', ha', hnot, w', hw', k', t', hk', hpre'⟩ := ih a.length hlength hta rfl
      exact ⟨p', hp', a', ha', hnot, w', hw', k', t', hk', hpre'.trans ((List.prefix_append a _).trans hpre)⟩
    · exact ⟨p, hp, a, ha, hta, w, hw, k, t, hk, hpre⟩

/-- Where annotations and metadata are opened, a write that is done everywhere has left maps. -/
theorem Reached.look_of_opening (h : m₀.Reached ws done v) (hall : ∀ p ∈ m₀.targets, done p w) (hq : m₀.Opening q)
    (hnot : ¬ m₀.Touched ws q) : v.look q = some .map := by
  obtain ⟨p, hp, hhome | hhome⟩ := hq
  · -- Metadata hold a map since the annotations in them do.
    have hannotations : m₀.Home (annotationsTrail p) (q ++ [.key (text "annotations")]) := by
      rw [annotationsTrail_eq]
      exact hhome.append _
    refine Value.look_eq_map_of_key (k := text "annotations") (r := []) ?_
    rw [h.opened p w (hall p hp) _ hannotations]
    · simp
    rintro ⟨p', hp', a, ha, w', hw', k, t, hk, hpre⟩
    obtain heq | hpre := List.prefix_concat_iff.mp hpre
    · have hkeys := (List.append_inj' heq rfl).2
      rw [List.singleton_inj, Value.Step.key.injEq] at hkeys
      exact hk.ne.2 hkeys
    · exact hnot ⟨p', hp', a, ha, w', hw', k, t, hk, hpre⟩
  · exact h.opened p w (hall p hp) q hhome hnot

/-- When all of the writes are done at all resources, the same is seen whatever their order was. -/
theorem Reached.look_eq {ws' : List Write} {done' : List Text → Write → Prop} (hws : ∀ w, w ∈ ws ↔ w ∈ ws') (hne : ws ≠ [])
    (h : m₀.Reached ws done v) (hall : ∀ p ∈ m₀.targets, ∀ w ∈ ws, done p w)
    (h' : m₀.Reached ws' done' v') (hall' : ∀ p ∈ m₀.targets, ∀ w ∈ ws', done' p w) (q : Trail) : v.look q = v'.look q := by
  have htouched : ∀ q, m₀.Touched ws q ↔ m₀.Touched ws' q := by
    intro q
    simp only [Touched, hws]
  by_cases hq : m₀.Touched ws q
  · obtain ⟨p, hp, a, ha, hnot, w, hw, k, t, hk, r, rfl⟩ := hq.exists_first
    have hw' : w ∈ ws' := (hws w).mp hw
    have htext := h.stored p w (hall p hp w hw) k t hk a ha (h.opened p w (hall p hp w hw) a ha hnot)
    have hnot' : ¬ m₀.Touched ws' a := fun ht => hnot ((htouched a).mpr ht)
    have htext' := h'.stored p w (hall' p hp w hw') k t hk a ha (h'.opened p w (hall' p hp w hw') a ha hnot')
    by_cases hr : r = []
    · rw [hr, List.append_nil, htext, htext']
    · rw [Value.look_behind_leaf htext hr, Value.look_behind_leaf htext' hr]
  have hq' : ¬ m₀.Touched ws' q := fun ht => hq ((htouched q).mpr ht)
  by_cases hopening : m₀.Opening q
  · obtain ⟨w, hw⟩ := List.exists_mem_of_ne_nil ws hne
    rw [h.look_of_opening (fun p hp => hall p hp w hw) hopening hq,
      h'.look_of_opening (fun p hp => hall' p hp w ((hws w).mp hw)) hopening hq']
  · obtain hsame | ⟨h₀, -⟩ := h.frame q hq
    · obtain hsame' | ⟨h₀, -⟩ := h'.frame q hq'
      · rw [hsame, hsame']
      · exact (hopening h₀).elim
    · exact (hopening h₀).elim

end Manifest

end AnnotationCodec
