import AnnotationCodec.Proofs.Json.Shape

/-!
Texts that were cut. No literal goes on in another one, and a list needs its last bracket, so the reader finds the end
missing wherever the cut was. What it reports is a place in the text and never the depth.
-/
namespace AnnotationCodec.Json

/-- A text is the start of another one, which goes on. -/
def Cut (p t : Text) : Prop :=
  ∃ r, r ≠ [] ∧ p ++ r = t

/-- A reader has found something wrong at a place of its text. -/
def Fails {α : Type} (x : Except Error α) : Prop :=
  ∃ problem left, x = .error (.malformed problem left)

variable {p q x y t s s' r b : Text} {ss : List Text} {fuel depth : Nat}

theorem fails_fail {α : Type} (problem : Problem) (r : Text) : Fails (fail problem r : Except Error α) :=
  ⟨problem, r.length, rfl⟩

theorem Fails.map {α β : Type} {e : Except Error α} (h : Fails e) (f : α → β) : Fails (e.map f) := by
  obtain ⟨problem, left, rfl⟩ := h
  exact ⟨problem, left, rfl⟩

/-! Where a text is cut -/

theorem cut_iff : Cut p t ↔ p <+: t ∧ p ≠ t := by
  constructor
  · rintro ⟨r, hr, rfl⟩
    exact ⟨List.prefix_append p r, fun h => hr (List.self_eq_append_right.mp h)⟩
  · rintro ⟨⟨r, rfl⟩, hne⟩
    refine ⟨r, ?_, rfl⟩
    rintro rfl
    exact hne (List.append_nil p).symm

/-- A cut goes through the first part of a text or through what is behind it. -/
theorem cut_append (h : Cut p (x ++ y)) : Cut p x ∨ ∃ q, p = x ++ q ∧ Cut q y := by
  obtain ⟨r, hr, he⟩ := h
  rcases List.append_eq_append_iff.mp he with ⟨a, rfl, rfl⟩ | ⟨q, rfl, rfl⟩
  · cases a with
    | nil => exact .inr ⟨[], by simp, y, hr, rfl⟩
    | cons c a => exact .inl ⟨c :: a, by simp, rfl⟩
  · exact .inr ⟨q, rfl, r, hr, rfl⟩

theorem cut_singleton {c : CodePoint} (h : Cut p [c]) : p = [] := by
  obtain ⟨r, hr, he⟩ := h
  cases p with
  | nil => rfl
  | cons d p => exact (hr (List.append_eq_nil_iff.mp (List.cons.inj he).2).2).elim

theorem blank_of_cut (hb : Blank b) (h : Cut p b) : Blank p := by
  obtain ⟨r, -, rfl⟩ := h
  exact fun c hc => hb c (List.mem_append_left r hc)

/-- Where a text begins with what is no blank, so does what is left of it. -/
theorem stops_of_cut (ht : Stops isSpace t) (h : Cut p t) : Stops isSpace p := by
  obtain ⟨r, -, rfl⟩ := h
  cases p with
  | nil => exact fun _ hc => by cases hc
  | cons c p => exact ht

/-! Literals -/

/-- A literal that is the start of another one is the whole of it: the reader stops at the first end. -/
theorem literal_eq_of_prefix (h : Literal x s) (h' : Literal y s') (hp : x <+: y) : x = y := by
  obtain ⟨r, rfl⟩ := hp
  obtain ⟨q, hq⟩ := quote_of_literal h'
  have hshort : string q = .ok (s, r) := string_eq_ok_iff.mpr ⟨x, h, hq.symm⟩
  have hlong : string q = .ok (s', []) := string_eq_ok_iff.mpr ⟨x ++ r, h', by rw [hq, List.append_nil]⟩
  obtain ⟨-, rfl⟩ := Prod.mk.inj (Except.ok.inj (hshort.symm.trans hlong))
  exact (List.append_nil x).symm

/-- The rest of a string is read, or something is wrong in it. -/
theorem stringFrom_cases (left skip : Nat) (t : Text) : (∃ u, stringFrom left skip t = .ok u) ∨ Fails (stringFrom left skip t) := by
  fun_induction stringFrom left skip t with
  | case1 => exact .inr ⟨_, _, rfl⟩
  | case2 skip c r ih => exact ih
  | case3 c r hc => exact .inl ⟨_, rfl⟩
  | case4 c r point width hi ih =>
    refine ih.imp ?_ fun hf => hf.map _
    rintro ⟨u, hu⟩
    exact ⟨_, by rw [hu]; rfl⟩
  | case5 => exact .inr ⟨_, _, rfl⟩
  | case6 => exact .inr ⟨_, _, rfl⟩

/-- No value begins in what is left of a literal. -/
theorem value_cut_literal (h : Literal x s) (hp : Cut p x) : Fails (value (fuel + 1) depth p) := by
  obtain ⟨q, rfl⟩ := quote_of_literal h
  rcases cut_append hp with hp | ⟨q', rfl, hq⟩
  · rw [cut_singleton hp]
    exact fails_fail _ _
  rw [value_quote]
  refine Fails.map ?_ _
  rcases stringFrom_cases (q'.length + 1) 0 q' with ⟨⟨u, rest⟩, hu⟩ | hf
  · obtain ⟨y, hy, hrest⟩ := string_eq_ok_iff.mp hu
    obtain ⟨r, hr, rfl⟩ := hq
    -- The literal that was read ends before the cut, and so inside the one that was cut.
    have hsame := literal_eq_of_prefix hy h ⟨rest ++ r, by rw [← List.append_assoc, ← hrest, List.append_assoc]⟩
    have hlength := congrArg List.length hrest
    rw [hsame] at hlength
    simp only [List.length_append] at hlength
    exact (hr (List.eq_nil_of_length_eq_zero (by omega))).elim
  · exact hf

/-! Lists -/

theorem elements_of_fails (h : Fails (value fuel depth t)) : Fails (elements (fuel + 1) depth t) := by
  obtain ⟨problem, left, h⟩ := h
  rw [elements, h]
  exact ⟨problem, left, rfl⟩

theorem elements_blank (hb : Blank b) : Fails (elements (fuel + 2) depth (skipSpace b)) := by
  rw [skipSpace_blank hb]
  exact elements_of_fails (fails_fail _ _)

/-- Elements that are cut in the first literal, or in the blanks around it, cannot be read. -/
theorem cut_padded (ht : Padded t s) (hp : Cut p (t ++ y)) :
    Fails (elements (fuel + 2) depth (skipSpace p)) ∨ ∃ q, p = t ++ q ∧ Cut q y := by
  rcases cut_append hp with hp | hp
  · refine .inl ?_
    obtain ⟨a, l, b, ha, hl, hb, rfl⟩ := ht
    rw [List.append_assoc] at hp
    rcases cut_append hp with hp | ⟨q, rfl, hq⟩
    · exact elements_blank (blank_of_cut ha hp)
    rcases cut_append hq with hq | ⟨c, rfl, hc⟩
    · have hstops : Stops isSpace q := stops_of_cut (List.append_nil l ▸ stops_literal hl) hq
      rw [skipSpace_append ha hstops]
      exact elements_of_fails (value_cut_literal hl hq)
    · have hpadded : Padded (a ++ l ++ c) s := ⟨a, l, c, ha, hl, blank_of_cut hb hc, rfl⟩
      have hend : elements (fuel + 2) depth (skipSpace (a ++ l ++ c ++ [])) = fail .expectingComma [] :=
        elements_padded hpadded fun _ h => by cases h
      rw [← List.append_assoc, ← List.append_nil (a ++ l ++ c), hend]
      exact fails_fail _ _
  · exact .inr hp

/-- Elements that are cut before the bracket behind them cannot be read. -/
theorem elements_cut (h : Series x ss) (hp : Cut p (x ++ text "]")) (hf : p.length + 1 < fuel) :
    Fails (elements fuel depth (skipSpace p)) := by
  induction h generalizing p fuel with
  | @one t s ht =>
    obtain ⟨k, rfl⟩ : ∃ k, fuel = k + 2 := ⟨fuel - 2, by omega⟩
    rcases cut_padded ht hp with hfails | ⟨q, rfl, hq⟩
    · exact hfails
    · rw [cut_singleton hq, elements_padded ht (fun _ h => by cases h)]
      exact fails_fail _ _
  | @more t s r ss ht hr ih =>
    obtain ⟨k, rfl⟩ : ∃ k, fuel = k + 2 := ⟨fuel - 2, by omega⟩
    rw [List.append_assoc, List.append_assoc] at hp
    rcases cut_padded ht hp with hfails | ⟨q, rfl, hq⟩
    · exact hfails
    rcases cut_append hq with hq | ⟨u, rfl, hu⟩
    · rw [cut_singleton hq, elements_padded ht (fun _ h => by cases h)]
      exact fails_fail _ _
    · have hrest : Fails (elements (k + 1) depth (skipSpace u)) := by
        refine ih hu ?_
        simp only [List.length_append] at hf
        have hcomma : (text ",").length = 1 := rfl
        have ht' : 1 ≤ t.length := length_series (.one ht)
        omega
      rw [elements_padded ht (by rintro c ⟨⟩; rfl)]
      exact hrest.map _

/-- What is left of a series begins with a quote, if it is not blank. -/
theorem skipSpace_cut (h : Series x ss) (hp : Cut p (x ++ y)) : skipSpace p = [] ∨ ∃ q, skipSpace p = text "\"" ++ q := by
  obtain ⟨r, -, hr⟩ := hp
  obtain ⟨u, hu⟩ := skipSpace_series h y
  rw [← hr, skipSpace, List.dropWhile_append] at hu
  cases hs : skipSpace p with
  | nil => exact .inl rfl
  | cons c q =>
    rw [skipSpace] at hs
    rw [hs] at hu
    obtain ⟨rfl, -⟩ := List.cons.inj hu
    exact .inr ⟨q, rfl⟩

/-- What is left of a list between brackets is no value. -/
theorem value_cut_bracketed (h : Bracketed x ss) (hp : Cut p x) (hf : p.length + 1 < fuel) :
    Fails (value fuel (depth + 1) p) := by
  obtain ⟨k, rfl⟩ : ∃ k, fuel = k + 1 := ⟨fuel - 1, by omega⟩
  cases h with
  | @empty b hb =>
    rw [List.append_assoc] at hp
    rcases cut_append hp with hp | ⟨q, rfl, hq⟩
    · rw [cut_singleton hp]
      exact fails_fail _ _
    have hblank : Blank q := by
      rcases cut_append hq with hq | ⟨u, rfl, hu⟩
      · exact blank_of_cut hb hq
      · rw [cut_singleton hu, List.append_nil]
        exact hb
    rw [value_bracket, skipSpace_blank hblank]
    exact fails_fail _ _
  | @series t ss h =>
    rw [List.append_assoc] at hp
    rcases cut_append hp with hp | ⟨q, rfl, hq⟩
    · rw [cut_singleton hp]
      exact fails_fail _ _
    have helements : Fails (elements k depth (skipSpace q)) := by
      refine elements_cut h hq ?_
      simp only [List.length_append] at hf
      have hopen : (text "[").length = 1 := rfl
      omega
    rw [value_bracket]
    rcases skipSpace_cut h hq with hs | ⟨u, hs⟩
    · rw [hs]
      exact fails_fail _ _
    · rw [hs] at helements ⊢
      exact helements.map _

/-! Whole texts -/

/-- A text that begins with something visible is read from its start. -/
theorem read_of_fails (hp : Stops isSpace p) (hmark : p.head? ≠ some ('\uFEFF' : CodePoint))
    (h : Fails (value (2 * p.length + 2) depthLimit p)) : Fails (read p) := by
  obtain ⟨problem, left, h⟩ := h
  have hstart : skipSpace p = p := skipSpace_append (b := []) (by simp [Blank]) hp
  rw [read, if_neg hmark, hstart, h]
  exact ⟨problem, left, rfl⟩

theorem opens_of_cut (h : Opens x) (hp : Cut p x) : Stops isSpace p ∧ p.head? ≠ some ('\uFEFF' : CodePoint) := by
  obtain ⟨c, q, rfl, hc, hlt⟩ := h
  refine ⟨stops_of_cut (by rintro d ⟨⟩; exact hc) hp, ?_⟩
  obtain ⟨r, -, hr⟩ := hp
  cases p with
  | nil => simp
  | cons d p =>
    obtain ⟨rfl, -⟩ := List.cons.inj hr
    rintro ⟨⟩
    exact absurd hlt (by decide)

theorem read_cut_literal (h : Literal x s) (hp : Cut p x) : Fails (read p) := by
  obtain ⟨hstops, hmark⟩ := opens_of_cut (opens_of_literal h) hp
  exact read_of_fails hstops hmark (value_cut_literal h hp)

theorem read_cut_bracketed (h : Bracketed x ss) (hp : Cut p x) : Fails (read p) := by
  obtain ⟨hstops, hmark⟩ := opens_of_cut (opens_of_bracketed h) hp
  exact read_of_fails hstops hmark (value_cut_bracketed h hp (by omega))

end AnnotationCodec.Json
