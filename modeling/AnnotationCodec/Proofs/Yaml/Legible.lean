import AnnotationCodec.Proofs.Yaml.Layout
import AnnotationCodec.Proofs.Yaml.Representation
import Mathlib.Algebra.Order.BigOperators.Group.List
import Mathlib.Algebra.Order.Group.Nat

/-!
Which values are legible: those of fewer than forty levels of collections, whose indentation stays below the width, if no key
on the line of its value grows past the span of a candidate by its escapes.
-/
namespace AnnotationCodec

/-- A key that fits a candidate even if all of its characters are escaped. Each takes ten characters then, but for those of
the first plane, which take six at most. -/
def Text.IsBrief (t : Text) : Prop :=
  t.length ≤ 102 ∨ ∀ c ∈ t, c.val ≤ 0xFFFF

/-- Whether collections are nested in at most so many levels, and the keys of maps are brief. -/
def Value.IsShallow (levels : Nat) : Value → Prop
  | .list vs => 0 < levels ∧ all (levels - 1) vs
  | .map es => 0 < levels ∧ entries (levels - 1) es
  | _ => True
where
  all (levels : Nat) : List Value → Prop
    | [] => True
    | v :: vs => v.IsShallow levels ∧ all levels vs
  entries (levels : Nat) : List (Value × Value) → Prop
    | [] => True
    | (k, v) :: es => (∀ t, k = .str t → t.IsBrief) ∧ v.IsShallow levels ∧ entries levels es

namespace Yaml

variable {m : Margin} {t : Text} {n indent levels : Nat}

/-! Keys -/

theorem length_flatMap_le {α β : Type} {f : α → List β} {l : List α} (h : ∀ a ∈ l, (f a).length ≤ n) :
    (l.flatMap f).length ≤ l.length * n := by
  rw [List.length_flatMap]
  have hsum := List.sum_le_card_nsmul (l.map fun a => (f a).length) n (by simpa using h)
  simpa using hsum

/-- In whatever style, a text of one line is written in no more characters than its escapes would take, and two quotes. -/
theorem length_writeStyled_le (hm : m.tight = false) (hfolds : m.folds = false) (hline : isMultiline t = false) (hn : 2 ≤ n)
    (hescape : ∀ c ∈ t, (escapePoint c).length ≤ n) (tag : Tag) :
    (writeStyled (documentStyle true tag t) m false t).length ≤ t.length * n + 2 := by
  obtain ⟨hstyle, -⟩ | ⟨hstyle, -⟩ | hstyle := documentStyle_cases true tag t
  · have hlength : t.length ≤ t.length * n := Nat.le_mul_of_pos_right _ (by omega)
    rw [hstyle, writeStyled, writePlain, writePlainFrom_unfolded hm hfolds]
    omega
  · have hcontent : ∀ c : CodePoint, c ∈ t → (if c = '\'' then text "''" else [c]).length ≤ n := by
      intro c _
      split
      · exact hn
      · exact Nat.le_of_succ_le hn
    rw [hstyle, writeStyled, writeSingle, writeSingleFrom_unfolded hfolds hline]
    simpa [text] using length_flatMap_le hcontent
  · have hcontent : ∀ c ∈ t, (if isQuotable false c then [c] else escapePoint c).length ≤ n := by
      intro c hc
      split
      · exact Nat.le_of_succ_le hn
      · exact hescape c hc
    rw [hstyle, writeStyled, writeDouble, writeDoubleFrom_unfolded hm hfolds]
    simpa [text] using length_flatMap_le hcontent

/-- A brief key on the line of its value is a candidate. -/
theorem length_shortKey_le (hbrief : t.IsBrief) (hshort : (Tree.scalar .str t false).isShortKey .document) (indent : Nat) :
    (writeNode.shortKey .document indent (.scalar .str t false)).length ≤ Lexer.keySpan := by
  simp only [Tree.isShortKey, Bool.and_eq_true, Bool.not_eq_true', decide_eq_true_eq] at hshort
  obtain ⟨⟨-, hline⟩, hlimit⟩ := hshort
  have himplied : IsImplied .str t := .inl rfl
  have hkey : true = true → Tag.str = .str := fun _ => rfl
  obtain ⟨m, -, hfolds, hm, hwrite⟩ := exists_margin himplied hkey ⟨indent, true, false⟩ (indent + 2)
  have hspace : (⟨indent, true, false⟩ : Opening).space = [] := rfl
  rw [writeNode.shortKey, hwrite, hspace, List.nil_append]
  obtain hfew | hplane := hbrief
  · have hescape : ∀ c ∈ t, (escapePoint c).length ≤ 10 := fun c _ => by
      have := length_escapePoint_le c
      split at this <;> omega
    have hlength := length_writeStyled_le hm hfolds hline (by decide) hescape .str
    have hspan : Lexer.keySpan = 1024 := rfl
    omega
  · have hescape : ∀ c ∈ t, (escapePoint c).length ≤ 6 := fun c hc => by
      have := length_escapePoint_le c
      rwa [if_pos (hplane c hc)] at this
    have hlength := length_writeStyled_le hm hfolds hline (by decide) hescape .str
    have hspan : Lexer.keySpan = 1024 := rfl
    have hlimit' : keyLimit = 128 := rfl
    omega

/-! Trees -/

namespace Tree

variable {es : List (Value × Value)} {ts : List (Tree × Tree)}

/-- Where the indentation is below the width, no line is broken inside of a marked blank. -/
theorem legible_scalar (parent : Option Nat) (h : (parent.map (· + 2)).getD 0 < lineWidth) (tag : Tag) (t : Text)
    (lines loose : Bool) : (scalar tag t lines).Legible parent loose := by
  intro _
  left
  cases parent with
  | none => decide
  | some i => exact h

/-- The trees of entries in any order. -/
theorem legible_pairs (hlow : indent + 2 < lineWidth)
    (h : ∀ e ∈ es, (∃ t, e.1 = .str t ∧ t.IsBrief) ∧
      ∀ x, ofValue .document e.2 = .ok x → ∀ loose, x.Legible (some indent) loose)
    (hts : collect (es.map ofEntry) = .ok ts) : Legible.pairs indent ts := by
  induction es generalizing ts with
  | nil =>
    obtain rfl : [] = ts := Except.ok.inj hts
    trivial
  | cons e es ih =>
    rw [List.forall_mem_cons] at h
    obtain ⟨⟨⟨t, hkey, hbrief⟩, hvalue⟩, hes⟩ := h
    rw [collect_eq_ok_iff, List.map_cons] at hts
    obtain ⟨p, ts, rfl, hp, hrest⟩ := List.map_eq_cons_iff.mp hts.symm
    have hpairs := ih hes (collect_eq_ok_iff.mpr hrest.symm)
    obtain ⟨x, hx, rfl⟩ : ∃ x, ofValue .document e.2 = .ok x ∧ (scalar .str t false, x) = p := by
      rw [ofEntry, hkey] at hp
      cases hx : ofValue .document e.2 with
      | error f =>
        rw [hx] at hp
        cases hp
      | ok x =>
        rw [hx] at hp
        exact ⟨x, rfl, (Except.ok.inj hp).symm⟩
    refine ⟨?_, hpairs⟩
    split
    · next hshort => exact ⟨length_shortKey_le hbrief hshort indent, hvalue x hx true⟩
    · exact ⟨legible_scalar (some indent) hlow .str t false false, hvalue x hx false⟩

mutual

/-- Each level of collections takes two columns. -/
theorem legible_of_isShallow {levels : Nat} {x : Tree} (v : Value) (parent : Option Nat) (hplain : v.IsPlain)
    (h : v.IsShallow levels) (hlow : (parent.map (· + 2)).getD 0 + 2 * levels < lineWidth) (loose : Bool) (hx : ofValue .document v = .ok x) :
    x.Legible parent loose := by
  have hhere : (parent.map (· + 2)).getD 0 < lineWidth := by omega
  cases v with
  | list vs =>
    obtain ⟨hpos, hvs⟩ := h
    obtain ⟨xs, hxs, rfl⟩ := map_eq_ok_iff.mp hx
    refine legible_items vs hplain hvs ?_ hxs
    cases parent with
    | none =>
      simp only [Option.map_none, Option.getD_none] at hlow ⊢
      omega
    | some i =>
      simp only [Option.map_some, Option.getD_some] at hlow ⊢
      split <;> omega
  | map es =>
    obtain ⟨hpos, hes⟩ := h
    rw [ofValue_map] at hx
    obtain ⟨ts, hts, rfl⟩ := map_eq_ok_iff.mp hx
    have hinner : (parent.map (· + 2)).getD 0 + 2 + 2 * (levels - 1) < lineWidth := by omega
    have hall := forall_legible es hplain.2 hes hinner
    exact legible_pairs (by omega) (fun e he => hall e ((Entries.sorted_perm es).mem_iff.mp he)) hts
  | int n =>
    rw [ofValue] at hx
    obtain ⟨s, -, rfl⟩ := map_eq_ok_iff.mp hx
    exact legible_scalar parent hhere _ _ _ loose
  | null | bool _ | str _ =>
    obtain rfl := Except.ok.inj hx
    exact legible_scalar parent hhere _ _ _ loose
  | _ => cases hplain

theorem legible_items {levels indent : Nat} (vs : List Value) (hplain : Value.IsPlain.all vs) (h : Value.IsShallow.all levels vs)
    (hlow : indent + 2 + 2 * levels < lineWidth) {xs : List Tree} (hxs : collect (ofValue.items .document vs) = .ok xs) :
    Legible.items indent xs := by
  rw [collect_eq_ok_iff] at hxs
  cases vs with
  | nil =>
    obtain rfl := List.map_eq_nil_iff.mp hxs.symm
    trivial
  | cons v vs =>
    obtain ⟨x, xs, rfl, hx, hrest⟩ := List.map_eq_cons_iff.mp hxs.symm
    exact ⟨legible_of_isShallow v (some indent) hplain.1 h.1 hlow false hx.symm,
      legible_items vs hplain.2 h.2 hlow (collect_eq_ok_iff.mpr hrest.symm)⟩

theorem forall_legible {levels indent : Nat} (es : List (Value × Value)) (hplain : Value.IsPlain.entries es)
    (h : Value.IsShallow.entries levels es) (hlow : indent + 2 + 2 * levels < lineWidth) :
    ∀ e ∈ es, (∃ t, e.1 = .str t ∧ t.IsBrief) ∧
      ∀ x, ofValue .document e.2 = .ok x → ∀ loose, x.Legible (some indent) loose := by
  cases es with
  | nil => exact fun e he => absurd he List.not_mem_nil
  | cons e es =>
    obtain ⟨k, v⟩ := e
    obtain ⟨⟨t, rfl⟩, hv, hes⟩ := hplain
    obtain ⟨hbrief, hshallow, hrest⟩ := h
    have hvalue : ∀ x, ofValue .document v = .ok x → ∀ loose, x.Legible (some indent) loose :=
      fun x hx loose => legible_of_isShallow v (some indent) hv hshallow hlow loose hx
    exact List.forall_mem_cons.mpr ⟨⟨⟨t, rfl, hbrief t rfl⟩, hvalue⟩, forall_legible es hes hrest hlow⟩

end

end Tree

end Yaml

end AnnotationCodec
