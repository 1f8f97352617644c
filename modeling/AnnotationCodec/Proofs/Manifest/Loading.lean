import AnnotationCodec.Manifest.Stream
import AnnotationCodec.Proofs.Manifest.Alias
import AnnotationCodec.Proofs.Yaml.Places

/-!
Manifests that were read. The maps of a stream that are named by aliases are shared as the objects of a graph are: their places
hold the same map, and so do the places of the maps in them.
-/
namespace AnnotationCodec.Manifest

variable {m : Manifest} {ms : List Manifest}

/-- The manifest of a document is a graph. -/
theorem isGraph_of_isPlaced {d : Yaml.Document} (hd : d.IsPlaced) (h : ofDocument d = .ok m) : m.IsGraph := by
  obtain ⟨f, b, hb, hvalue, hshared⟩ := hd
  have hm : m.toValue = b.value ∧ m.shared = Yaml.Document.sharedPlaces b.maps := by
    unfold ofDocument at h
    split at h
    · next es hes =>
      cases h
      exact ⟨hes.symm.trans hvalue, hshared⟩
    · cases h
  have htogether : ∀ x y, m.Together x y ↔ ∃ n, (n, x) ∈ b.maps ∧ (n, y) ∈ b.maps ∧ ∃ z, z ≠ x ∧ (n, z) ∈ b.maps := by
    intro x y
    rw [Together, hm.2, Yaml.Document.shared_iff hb.nodup]
  -- What stands at two places of one number was built of one mapping.
  have hpart : ∀ n x y, (n, x) ∈ b.maps → (n, y) ∈ b.maps → ∃ es, m.toValue.at? x = some (.map es) ∧
      m.toValue.at? y = some (.map es) ∧ ∀ k s, (k, x ++ s) ∈ b.maps → (k, y ++ s) ∈ b.maps := by
    intro n x y hx hy
    obtain ⟨c, hc, hvx, ⟨es, hes⟩, hsx⟩ := hb.part n x hx
    obtain ⟨d, hd, hvy, -, hsy⟩ := hb.part n y hy
    obtain rfl := hc.unique hd
    rw [hm.1]
    exact ⟨es, hes ▸ hvx, hes ▸ hvy, fun k s hs => (hsy k s).mpr ((hsx k s).mp hs)⟩
  constructor
  · intro g hg
    cases g with
    | nil => exact ⟨[], by simp⟩
    | cons x g =>
      obtain ⟨n, hx, -⟩ := (htogether x x).mp ⟨_, hg, List.mem_cons_self, List.mem_cons_self⟩
      obtain ⟨es, hes, -⟩ := hpart n x x hx hx
      refine ⟨es, fun y hy => ?_⟩
      obtain ⟨n, hx, hy, -⟩ := (htogether x y).mp ⟨_, hg, List.mem_cons_self, hy⟩
      obtain ⟨es', hes', hy, -⟩ := hpart n x y hx hy
      rw [hy, ← hes', hes]
  · intro x y z hxy hxz
    obtain ⟨n, hx, hy, w, hw, hwn⟩ := (htogether x y).mp hxy
    obtain ⟨k, hxk, hz, -⟩ := (htogether x z).mp hxz
    obtain rfl : n = k := congrArg Prod.fst (List.inj_on_of_nodup_map hb.nodup hx hxk rfl)
    refine (htogether y z).mpr ⟨n, hy, hz, ?_⟩
    by_cases hyx : y = x
    · subst hyx
      exact ⟨w, hw, hwn⟩
    · exact ⟨x, Ne.symm hyx, hx⟩
  · intro x y s es hxy hmap
    obtain ⟨n, hx, hy, w, hw, hwn⟩ := (htogether x y).mp hxy
    rw [hm.1] at hmap
    obtain ⟨k, hk⟩ := hb.listed _ _ hmap
    obtain ⟨-, -, -, hxys⟩ := hpart n x y hx hy
    obtain ⟨-, -, -, hxws⟩ := hpart n x w hx hwn
    exact (htogether _ _).mpr ⟨k, hk, hxys k s hk, w ++ s, fun heq => hw (List.append_cancel_right heq), hxws k s hk⟩

/-- Every manifest of a stream is a graph. -/
theorem isGraph_of_readFrom {fuel : Nat} {s : Yaml.Stream} (hs : s.reading.anchors = []) (h : readFrom fuel s = .ok ms) :
    ∀ m ∈ ms, m.IsGraph := by
  induction fuel generalizing s ms with
  | zero => cases h
  | succ fuel ih =>
    unfold readFrom at h
    obtain ⟨found, hfound, h⟩ := bind_eq_ok_iff.mp h
    split at h
    · cases h
      simp
    · next d rest =>
      obtain ⟨hd, hrest⟩ := Yaml.Stream.isPlaced_next? hs hfound
      split_ifs at h
      · exact ih hrest h
      · obtain ⟨m, hm, h⟩ := bind_eq_ok_iff.mp h
        obtain ⟨ns, hns, h⟩ := bind_eq_ok_iff.mp h
        cases h
        exact List.forall_mem_cons.mpr ⟨isGraph_of_isPlaced hd hm, ih hrest hns⟩

/-- Whatever aliases there are in a text, its manifests are graphs. -/
theorem isGraph_of_readAll {t : Text} (h : readAll t = .ok ms) : ∀ m ∈ ms, m.IsGraph := by
  obtain ⟨s, hs, h⟩ := bind_eq_ok_iff.mp h
  exact isGraph_of_readFrom (Yaml.Stream.anchors_ofText hs) h

theorem coherent_of_readAll {t : Text} (h : readAll t = .ok ms) : ∀ m ∈ ms, m.Coherent :=
  fun m hm => (isGraph_of_readAll h m hm).same

end AnnotationCodec.Manifest
