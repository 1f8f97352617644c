import AnnotationCodec.Proofs.Yaml.Numbering
import AnnotationCodec.Yaml.Document
import Mathlib.Data.List.Forall2
import Mathlib.Data.List.Nodup

/-!
What is built of a node. It is built of what its parts become, and in one way only, so that a node that stands at several places
becomes the same at all of them.
-/
namespace AnnotationCodec.Yaml

namespace Node

variable {α β : Type} {x : Except Misfit α} {y : Except Misfit β} {xs : List (Except Misfit α)} {a : α} {b : β}
  {as : List α}

theorem both_eq_ok_iff : both x y = .ok (a, b) ↔ x = .ok a ∧ y = .ok b := by
  cases x <;> cases y <;> simp [both]

theorem every_eq_ok_iff : every xs = .ok as ↔ List.Forall₂ (fun x a => x = .ok a) xs as := by
  induction xs generalizing as with
  | nil => simp [every, eq_comm]
  | cons x xs ih =>
    rw [every, map_eq_ok_iff, List.forall₂_cons_left_iff]
    constructor
    · rintro ⟨⟨a, as'⟩, hboth, rfl⟩
      obtain ⟨hx, hxs⟩ := both_eq_ok_iff.mp hboth
      exact ⟨a, as', hx, ih.mp hxs, rfl⟩
    · rintro ⟨a, as', hx, hxs, rfl⟩
      exact ⟨(a, as'), both_eq_ok_iff.mpr ⟨hx, ih.mpr hxs⟩, rfl⟩

/-- How an entry of a mapping is built: its key is the value of what the one node becomes, and the other node becomes its part. -/
def BuildsEntry (R : Node → Built → Prop) (e : Node × Node) (p : Value × Built) : Prop :=
  (∃ b, R e.1 b ∧ b.value = p.1) ∧ R e.2 p.2

/-- How an item of a list of pairs is built: it is a mapping of one entry. -/
def BuildsPair (R : Node → Built → Prop) (x : Node) (b : Built) : Prop :=
  ∃ n tag k v c d, x = .mapping n tag [(k, v)] ∧ R k c ∧ R v d ∧ b = .pair c d

/-- The entries of a map, of which the last one for a key counts. -/
def mapEntries (ps : List (Value × Built)) : List (Value × Built) :=
  ps.foldl (fun acc e => Built.put e.1 e.2 acc) []

/-- How a node is built of what its parts become, where `R` tells what they do. -/
inductive Builds (R : Node → Built → Prop) : Node → Built → Prop
  | loop : Builds R .loop ⟨.null, [], true⟩
  | list {xs bs} : List.Forall₂ R xs bs → Builds R (.sequence .seq xs) (.list bs)
  | pairs {tag xs bs} : tag = .omap ∨ tag = .pairs → List.Forall₂ (BuildsPair R) xs bs → Builds R (.sequence tag xs) (.list bs)
  | map {n es fs ps} : flatten es = .ok fs → List.Forall₂ (BuildsEntry R) fs ps →
      Builds R (.mapping n .map es) (.map n (mapEntries ps))
  | set {n es fs ps} : flatten es = .ok fs → List.Forall₂ (BuildsEntry R) fs ps →
      Builds R (.mapping n .set es) (.set ((mapEntries ps).map Prod.fst))
  | leaf {x tag v} : x.tag? = some tag → x.isCollection = false → x.scalarValue tag = .ok v → Builds R x (.leaf v)

variable {R R' : Node → Built → Prop} {z : Node} {c d : Built} {fuel level : Nat}

theorem keyOf_eq_ok {k : Except Misfit Built} {v : Value} (h : keyOf level k = .ok v) : ∃ b, k = .ok b ∧ b.value = v := by
  unfold keyOf at h
  split at h
  · cases h
  · next b =>
    split_ifs at h
    cases h
    exact ⟨b, rfl, rfl⟩

theorem buildsEntries_of_every {fs : List (Node × Node)} {ps : List (Value × Built)}
    (h : every (fs.map fun e =>
      both (if e.1.isCollection then .error ⟨level, .document .node⟩ else keyOf level (build fuel level e.1))
        (build fuel level e.2)) = .ok ps) : List.Forall₂ (BuildsEntry fun x b => build fuel level x = .ok b) fs ps := by
  refine (List.forall₂_map_left_iff.mp (every_eq_ok_iff.mp h)).imp fun e p hboth => ?_
  obtain ⟨hkey, hvalue⟩ := both_eq_ok_iff.mp hboth
  split_ifs at hkey
  exact ⟨keyOf_eq_ok hkey, hvalue⟩

/-- What has been built is built of what has been built of the parts. -/
theorem builds_of_build (h : build (fuel + 1) level z = .ok c) : Builds (fun x b => build fuel (level + 1) x = .ok b) z c := by
  unfold build at h
  split at h
  · cases h
    exact .loop
  · split at h
    · next htag =>
      obtain rfl := Option.some.inj htag
      obtain ⟨bs, hbs, rfl⟩ := map_eq_ok_iff.mp h
      exact .list (List.forall₂_map_left_iff.mp (every_eq_ok_iff.mp hbs))
    · next htag =>
      obtain rfl := Option.some.inj htag
      obtain ⟨entries, hentries, rfl⟩ := map_eq_ok_iff.mp h
      dsimp only at hentries
      split at hentries
      · cases hentries
      · next fs hfs =>
        obtain ⟨ps, hps, rfl⟩ := map_eq_ok_iff.mp hentries
        exact .map hfs (buildsEntries_of_every hps)
    · next htag =>
      obtain rfl := Option.some.inj htag
      obtain ⟨entries, hentries, rfl⟩ := map_eq_ok_iff.mp h
      dsimp only at hentries
      split at hentries
      · cases hentries
      · next fs hfs =>
        obtain ⟨ps, hps, rfl⟩ := map_eq_ok_iff.mp hentries
        exact .set hfs (buildsEntries_of_every hps)
    iterate 2
      · next htag =>
        obtain rfl := Option.some.inj htag
        obtain ⟨bs, hbs, rfl⟩ := map_eq_ok_iff.mp h
        refine .pairs (by decide) ((List.forall₂_map_left_iff.mp (every_eq_ok_iff.mp hbs)).imp fun x b hx => ?_)
        split at hx
        · obtain ⟨⟨k, v⟩, hboth, rfl⟩ := map_eq_ok_iff.mp hx
          obtain ⟨hk, hv⟩ := both_eq_ok_iff.mp hboth
          exact ⟨_, _, _, _, k, v, rfl, hk, hv, rfl⟩
        · cases hx
    · next htag =>
      split_ifs at h with hcollection
      split at h
      · next v hv =>
        cases h
        exact .leaf htag (eq_false_of_ne_true hcollection) hv
      · cases h
    · cases h

/-! One way to build -/

theorem forall₂_unique {R S : α → β → Prop} {as : List α} {bs bs' : List β} (hbs : List.Forall₂ R as bs)
    (hbs' : List.Forall₂ S as bs') (h : ∀ a b b', R a b → S a b' → b = b') : bs = bs' := by
  induction hbs generalizing bs' with
  | nil => exact (List.forall₂_nil_left_iff.mp hbs').symm
  | cons hb _ ih =>
    obtain ⟨b', bs'', hb', hbs'', rfl⟩ := List.forall₂_cons_left_iff.mp hbs'
    rw [h _ _ _ hb hb', ih hbs'']

theorem BuildsEntry.unique (h : ∀ x b b', R x b → R' x b' → b = b') {e : Node × Node} {p p' : Value × Built}
    (hp : BuildsEntry R e p) (hp' : BuildsEntry R' e p') : p = p' := by
  obtain ⟨⟨b, hb, hkey⟩, hvalue⟩ := hp
  obtain ⟨⟨b', hb', hkey'⟩, hvalue'⟩ := hp'
  exact Prod.ext (by rw [← hkey, ← hkey', h _ _ _ hb hb']) (h _ _ _ hvalue hvalue')

theorem BuildsPair.unique (h : ∀ x b b', R x b → R' x b' → b = b') {b b' : Built} (hb : BuildsPair R z b)
    (hb' : BuildsPair R' z b') : b = b' := by
  obtain ⟨n, tag, k, v, c, d, rfl, hk, hv, rfl⟩ := hb
  obtain ⟨n', tag', k', v', c', d', heq, hk', hv', rfl⟩ := hb'
  cases heq
  rw [h _ _ _ hk hk', h _ _ _ hv hv']

/-- A node is built in one way if its parts are. -/
theorem Builds.unique (hc : Builds R z c) (hd : Builds R' z d) (h : ∀ x b b', R x b → R' x b' → b = b') : c = d := by
  cases hc with
  | loop =>
    cases hd with
    | loop => rfl
    | leaf htag => cases htag
  | list hxs =>
    cases hd with
    | list hxs' => rw [forall₂_unique hxs hxs' h]
    | pairs htag => exact absurd htag (by decide)
    | leaf _ hcollection => cases hcollection
  | pairs htag hxs =>
    cases hd with
    | list => exact absurd htag (by decide)
    | pairs _ hxs' => rw [forall₂_unique hxs hxs' fun _ _ _ => BuildsPair.unique h]
    | leaf _ hcollection => obtain rfl | rfl := htag <;> cases hcollection
  | map hfs hps =>
    cases hd with
    | map hfs' hps' =>
      cases hfs.symm.trans hfs'
      rw [forall₂_unique hps hps' fun _ _ _ => BuildsEntry.unique h]
    | leaf _ hcollection => cases hcollection
  | set hfs hps =>
    cases hd with
    | set hfs' hps' =>
      cases hfs.symm.trans hfs'
      rw [forall₂_unique hps hps' fun _ _ _ => BuildsEntry.unique h]
    | leaf _ hcollection => cases hcollection
  | leaf htag hcollection hv =>
    cases hd with
    | loop => cases htag
    | list => cases hcollection
    | pairs htag' => obtain rfl | rfl := htag' <;> cases hcollection
    | map => cases hcollection
    | set => cases hcollection
    | leaf htag' _ hv' =>
      cases htag.symm.trans htag'
      cases hv.symm.trans hv'
      rfl

/-- What a node becomes, with fuel enough and on some level. -/
def Becomes (x : Node) (b : Built) : Prop :=
  ∃ fuel level, build fuel level x = .ok b

/-- The fuel and the level do not show in what a node becomes. -/
theorem Becomes.unique (hc : Becomes z c) (hd : Becomes z d) : c = d := by
  obtain ⟨fuel, level, hc⟩ := hc
  obtain ⟨fuel', level', hd⟩ := hd
  -- The parts are built with less fuel and one level below, of whichever node they are.
  induction fuel generalizing level fuel' level' z c d with
  | zero => cases hc
  | succ fuel ih =>
    cases fuel' with
    | zero => cases hd
    | succ fuel' => exact (builds_of_build hc).unique (builds_of_build hd) fun x b b' hb hb' => ih _ hb _ _ hb'

end Node

end AnnotationCodec.Yaml
