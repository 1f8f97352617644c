import AnnotationCodec.Annotation.Content
import AnnotationCodec.Proofs.Json.Literal
import AnnotationCodec.Proofs.Json.Numeral

/-! The reader accepts the texts of a shape, and reads no other text as a value of the shape. -/
namespace AnnotationCodec.Json

variable {t x b r rest s : Text} {ss : List Text} {v : Value} {n : Int} {fuel depth : Nat}

theorem isSpace_iff {c : CodePoint} : isSpace c = true ↔ c = ' ' ∨ c = '\t' ∨ c = '\n' ∨ c = '\r' := by
  simp [isSpace, or_assoc]

theorem blank_iff : Blank b ↔ ∀ c ∈ b, isSpace c := by
  simp only [Blank, isSpace_iff]

theorem blank_append {a : Text} (ha : Blank a) (hb : Blank b) : Blank (a ++ b) := by
  intro c hc
  rcases List.mem_append.mp hc with hc | hc
  · exact ha c hc
  · exact hb c hc

theorem skipSpace_append (hb : Blank b) (hr : Stops isSpace r) : skipSpace (b ++ r) = r :=
  dropWhile_append_of_stops (blank_iff.mp hb) hr

theorem skipSpace_blank (hb : Blank b) : skipSpace b = [] := by
  simpa using skipSpace_append hb (r := []) (by simp [Stops])

/-- What is passed over is blank. -/
theorem exists_blank (t : Text) : ∃ b, Blank b ∧ t = b ++ skipSpace t :=
  ⟨t.takeWhile isSpace, blank_iff.mpr fun _ hc => List.mem_takeWhile_imp hc,
    List.takeWhile_append_dropWhile.symm⟩

/-- The values that are not made of parts. -/
def Plain : Value → Prop
  | .null | .bool _ | .int _ | .float _ => True
  | _ => False

theorem plain_of_unsignedNumber {negative : Bool} (h : unsignedNumber negative t = some (.ok (v, rest))) :
    Plain v := by
  unfold unsignedNumber at h
  split at h
  · cases h
  · dsimp only at h
    split at h
    · split at h <;> cases h
      trivial
    · cases h
      trivial

theorem plain_of_scalar (h : scalar t = .ok (v, rest)) : Plain v := by
  unfold scalar at h
  split at h
  · next w u hw =>
    cases h
    have hm := List.mem_of_find?_eq_some hw
    simp only [words, List.mem_cons, List.not_mem_nil, or_false, Prod.mk.injEq] at hm
    rcases hm with hm | hm | hm | hm | hm | hm <;> rw [hm.2] <;> trivial
  · have hu := getD_fail_eq_ok h
    split at hu
    · split at hu <;> exact plain_of_unsignedNumber hu
    · cases hu

theorem value_quote (q : Text) :
    value (fuel + 1) depth (text "\"" ++ q) = (string q).map fun (s, rest) => (.str s, rest) := by
  rfl

theorem value_scalar {c : CodePoint} (hq : c ≠ '"') (hb : c ≠ '[') (hc : c ≠ '\x7b') :
    value (fuel + 1) depth (c :: r) = scalar (c :: r) := by
  simp [value, hq, hb, hc]

theorem value_bracket (q : Text) : value (fuel + 1) (depth + 1) (text "[" ++ q) =
    match skipSpace q with
    | [] => fail .expectingValue []
    | d :: q =>
      if d = ']' then .ok (.list [], q)
      else (elements fuel depth (d :: q)).map fun (xs, rest) => (.list xs, rest) := by
  rfl

/-- How a value that was read starts, and which reader read it. -/
theorem value_cases (h : value fuel depth t = .ok (v, rest)) :
    (∃ q s, t = text "\"" ++ q ∧ string q = .ok (s, rest) ∧ v = .str s) ∨
    (∃ q k d, t = text "[" ++ q ∧ fuel = k + 1 ∧ depth = d + 1 ∧
      ((skipSpace q = text "]" ++ rest ∧ v = .list []) ∨
        ∃ vs, elements k d (skipSpace q) = .ok (vs, rest) ∧ v = .list vs)) ∨
    (∃ es, v = .map es) ∨
    scalar t = .ok (v, rest) := by
  cases fuel with
  | zero => cases h
  | succ k =>
    unfold value at h
    split at h
    · cases h
    · next c r =>
      split_ifs at h with hq hb hc
      · obtain ⟨⟨s, q⟩, hs, he⟩ := map_eq_ok_iff.mp h
        cases he
        exact Or.inl ⟨r, s, by rw [hq]; rfl, hs, rfl⟩
      · split at h
        · cases h
        · next d =>
          refine Or.inr (Or.inl ⟨r, k, d, by rw [hb]; rfl, rfl, rfl, ?_⟩)
          split at h
          · cases h
          · next e q hsp =>
            rw [hsp]
            split_ifs at h with he
            · cases h
              exact Or.inl ⟨by rw [he]; rfl, rfl⟩
            · obtain ⟨⟨vs, q⟩, hs, hv⟩ := map_eq_ok_iff.mp h
              cases hv
              exact Or.inr ⟨vs, hs, rfl⟩
      · refine Or.inr (Or.inr (Or.inl ?_))
        split at h
        · cases h
        · split at h
          · cases h
          · split at h
            · cases h
              exact ⟨_, rfl⟩
            · obtain ⟨found, hs, hv⟩ := map_eq_ok_iff.mp h
              cases hv
              exact ⟨_, rfl⟩
      · exact Or.inr (Or.inr (Or.inr h))

theorem quote_of_literal (h : Literal x s) : ∃ q, x = text "\"" ++ q := by
  obtain ⟨y, ms, hy, rfl, rfl⟩ := h
  exact ⟨y ++ text "\"", List.append_assoc _ _ _⟩

theorem value_literal (h : Literal x s) : value (fuel + 1) depth (x ++ rest) = .ok (.str s, rest) := by
  obtain ⟨q, hq⟩ := quote_of_literal h
  have hs : string (q ++ rest) = .ok (s, rest) :=
    string_eq_ok_iff.mpr ⟨x, h, by rw [hq, List.append_assoc]⟩
  rw [hq, List.append_assoc, value_quote, hs]
  rfl

theorem literal_of_value (h : value fuel depth t = .ok (.str s, rest)) : ∃ l, Literal l s ∧ t = l ++ rest := by
  rcases value_cases h with ⟨q, u, rfl, hs, hv⟩ | ⟨q, k, d, -, -, -, ⟨-, hv⟩ | ⟨vs, -, hv⟩⟩ | ⟨es, hv⟩ | hs
  · cases hv
    exact string_eq_ok_iff.mp hs
  · cases hv
  · cases hv
  · cases hv
  · exact (plain_of_scalar hs).elim

theorem stops_quote (q : Text) : Stops isSpace (text "\"" ++ q) := by
  intro c hc
  cases hc
  rfl

theorem stops_literal (h : Literal x s) : Stops isSpace (x ++ r) := by
  obtain ⟨q, rfl⟩ := quote_of_literal h
  rw [List.append_assoc]
  exact stops_quote _

/-- A series and what is behind it start with a literal, once the blanks are passed over. -/
theorem skipSpace_series (h : Series x ss) (r : Text) : ∃ q, skipSpace (x ++ r) = text "\"" ++ q := by
  have key : ∀ {p u q : Text}, Padded p u → ∃ q', skipSpace (p ++ q) = text "\"" ++ q' := by
    rintro p u q ⟨a, l, b, ha, hl, hb, rfl⟩
    obtain ⟨q', rfl⟩ := quote_of_literal hl
    refine ⟨q' ++ (b ++ q), ?_⟩
    simp only [List.append_assoc]
    exact skipSpace_append ha (stops_quote _)
  cases h with
  | one hp => exact key hp
  | more hp hr =>
    simp only [List.append_assoc]
    exact key hp

/-- What becomes of the elements that begin with a literal depends on what is behind it and the blanks. -/
theorem elements_padded (ht : Padded t s) (hr : Stops isSpace r) : elements (fuel + 2) depth (skipSpace (t ++ r)) =
    match r with
    | [] => fail .expectingComma []
    | c :: q =>
      if c = ']' then .ok ([.str s], q)
      else if c = ',' then (elements (fuel + 1) depth (skipSpace q)).map fun (vs, rest) => (.str s :: vs, rest)
      else fail .expectingComma (c :: q) := by
  obtain ⟨a, l, b, ha, hl, hb, rfl⟩ := ht
  have hstart : skipSpace (a ++ l ++ b ++ r) = l ++ (b ++ r) := by
    simp only [List.append_assoc]
    exact skipSpace_append ha (stops_literal hl)
  rw [hstart, elements, value_literal hl]
  dsimp only
  rw [skipSpace_append hb hr]
  cases r <;> rfl

theorem elements_series (h : Series x ss) (hf : ss.length < fuel) :
    elements fuel depth (skipSpace (x ++ (text "]" ++ rest))) = .ok (ss.map .str, rest) := by
  induction h generalizing fuel with
  | @one t s ht =>
    obtain ⟨k, rfl⟩ : ∃ k, fuel = k + 2 := ⟨fuel - 2, by simp at hf; omega⟩
    rw [elements_padded ht (by rintro c ⟨⟩; rfl)]
    rfl
  | @more t s r ss ht hr ih =>
    obtain ⟨k, rfl⟩ : ∃ k, fuel = k + 2 := ⟨fuel - 2, by simp at hf; omega⟩
    have hrest := @ih (k + 1) (by simp at hf; omega)
    rw [List.append_assoc, List.append_assoc, elements_padded ht (by rintro c ⟨⟩; rfl)]
    show (elements (k + 1) depth (skipSpace (r ++ (text "]" ++ rest)))).map _ = _
    rw [hrest]
    rfl

theorem series_prepend {a : Text} (ha : Blank a) (h : Series x ss) : Series (a ++ x) ss := by
  have key : ∀ {p u : Text}, Padded p u → Padded (a ++ p) u := by
    rintro p u ⟨c, l, b, hc, hl, hb, rfl⟩
    exact ⟨a ++ c, l, b, blank_append ha hc, hl, hb, by simp only [List.append_assoc]⟩
  cases h with
  | one hp => exact .one (key hp)
  | more hp hr => simpa only [List.append_assoc] using Series.more (key hp) hr

theorem series_of_elements (h : elements fuel depth t = .ok (ss.map .str, rest)) :
    ∃ x, Series x ss ∧ t = x ++ (text "]" ++ rest) := by
  induction fuel generalizing t ss with
  | zero => cases h
  | succ k ih =>
    unfold elements at h
    split at h
    · cases h
    · next v r hv =>
      obtain ⟨b, hb, hr⟩ := exists_blank r
      split at h
      · cases h
      · next c q hsp =>
        rw [hsp] at hr
        split_ifs at h with hc hm
        · obtain ⟨s, rfl⟩ : ∃ s, ss = [s] := by
            cases ss with
            | nil => cases h
            | cons s ss =>
              cases ss with
              | nil => exact ⟨s, rfl⟩
              | cons _ _ => cases h
          cases h
          obtain ⟨l, hl, rfl⟩ := literal_of_value hv
          refine ⟨l ++ b, .one ⟨[], l, b, by simp [Blank], hl, hb, by simp⟩, ?_⟩
          rw [hr, hc]
          simp [text]
        · obtain ⟨⟨vs, u⟩, he, hvs⟩ := map_eq_ok_iff.mp h
          cases ss with
          | nil => cases hvs
          | cons s ss =>
            cases hvs
            obtain ⟨x, hx, hq⟩ := ih he
            obtain ⟨l, hl, rfl⟩ := literal_of_value hv
            obtain ⟨a, ha, hqa⟩ := exists_blank q
            refine ⟨_, .more ⟨[], l, b, by simp [Blank], hl, hb, rfl⟩ (series_prepend ha hx), ?_⟩
            rw [hr, hm, hqa, hq]
            simp [text]
        · cases h

theorem value_bracketed (h : Bracketed x ss) (hf : ss.length + 1 < fuel) :
    value fuel (depth + 1) (x ++ rest) = .ok (.list (ss.map .str), rest) := by
  obtain ⟨k, rfl⟩ : ∃ k, fuel = k + 1 := ⟨fuel - 1, by omega⟩
  cases h with
  | @empty b hb =>
    have hs : skipSpace (b ++ (text "]" ++ rest)) = text "]" ++ rest :=
      skipSpace_append hb (by rintro c ⟨⟩; rfl)
    simp only [List.append_assoc]
    rw [value_bracket, hs]
    rfl
  | @series t ss h =>
    obtain ⟨q, hq⟩ := skipSpace_series h (text "]" ++ rest)
    have he : elements k depth (skipSpace (t ++ (text "]" ++ rest))) = .ok (ss.map .str, rest) :=
      elements_series h (by omega)
    simp only [List.append_assoc]
    rw [hq] at he
    rw [value_bracket, hq]
    show (elements k depth (text "\"" ++ q)).map _ = _
    rw [he]
    rfl

theorem bracketed_of_value (h : value fuel depth t = .ok (.list (ss.map .str), rest)) :
    ∃ x, Bracketed x ss ∧ t = x ++ rest := by
  rcases value_cases h with ⟨q, u, -, -, hv⟩ | ⟨q, k, d, rfl, rfl, rfl, hr⟩ | ⟨es, hv⟩ | hs
  · cases hv
  · obtain ⟨b, hb, hq⟩ := exists_blank q
    rcases hr with ⟨hsp, hv⟩ | ⟨vs, he, hv⟩
    · obtain rfl : ss = [] := by simpa using hv
      rw [hsp] at hq
      exact ⟨_, .empty hb, by rw [hq]; simp only [List.append_assoc]⟩
    · cases hv
      obtain ⟨x, hx, hsp⟩ := series_of_elements he
      rw [hsp] at hq
      exact ⟨_, .series (series_prepend hb hx), by rw [hq]; simp only [List.append_assoc]⟩
  · cases hv
  · exact (plain_of_scalar hs).elim

theorem signed_start (h : Signed x n) : ∃ c q, x = c :: q ∧ (c = '-' ∨ c.isDigit) := by
  cases h with
  | plain hn hl =>
    obtain ⟨d, q, rfl⟩ := List.exists_cons_of_ne_nil (ne_nil_of_numeral hn)
    exact ⟨d, q, rfl, Or.inr (digit_of_numeral hn d (by simp))⟩
  | minus hn hl => exact ⟨_, _, rfl, Or.inl rfl⟩

theorem value_signed (h : Signed x n) (hr : EndsNumber rest) :
    value (fuel + 1) depth (x ++ rest) = .ok (.int n, rest) := by
  have hs := scalar_signed h hr
  obtain ⟨c, q, rfl, hc⟩ := signed_start h
  simp only [List.cons_append] at hs ⊢
  have hne : c ≠ '"' ∧ c ≠ '[' ∧ c ≠ '\x7b' := by
    refine ⟨?_, ?_, ?_⟩ <;> rintro rfl <;> revert hc <;> decide
  rw [value_scalar hne.1 hne.2.1 hne.2.2, hs]

theorem signed_of_value (h : value fuel depth t = .ok (.int n, rest)) : ∃ x, Signed x n ∧ t = x ++ rest := by
  rcases value_cases h with ⟨q, u, -, -, hv⟩ | ⟨q, k, d, -, -, -, ⟨-, hv⟩ | ⟨vs, -, hv⟩⟩ | ⟨es, hv⟩ | hs
  · cases hv
  · cases hv
  · cases hv
  · cases hv
  · exact signed_of_scalar hs

/-- A text starts a value with something visible that is ASCII. -/
def Opens (x : Text) : Prop :=
  ∃ c q, x = c :: q ∧ isSpace c = false ∧ c.val < 0x80

theorem opens_of_literal (h : Literal x s) : Opens x := by
  obtain ⟨q, rfl⟩ := quote_of_literal h
  exact ⟨_, q, rfl, by decide, by decide⟩

theorem opens_of_bracketed (h : Bracketed x ss) : Opens x := by
  cases h <;> exact ⟨_, _, rfl, by decide, by decide⟩

theorem opens_of_signed (h : Signed x n) : Opens x := by
  obtain ⟨c, q, rfl, hc⟩ := signed_start h
  refine ⟨c, q, rfl, ?_, ?_⟩
  · rw [Bool.eq_false_iff]
    intro hs
    rcases isSpace_iff.mp hs with rfl | rfl | rfl | rfl <;> revert hc <;> decide
  · rcases hc with rfl | hc
    · decide
    · rw [Decimal.isDigit_iff] at hc
      omega

theorem read_padded {a : Text} (ha : Blank a) (hx : Opens x) (hb : Blank b)
    (hv : value (2 * (a ++ x ++ b).length + 2) depthLimit (x ++ b) = .ok (v, b)) :
    read (a ++ x ++ b) = .ok v := by
  obtain ⟨c, q, rfl, hc, hlt⟩ := hx
  have hbom : (a ++ (c :: q) ++ b).head? ≠ some ('\uFEFF' : CodePoint) := by
    cases a with
    | nil =>
      rintro ⟨⟩
      exact absurd hlt (by decide)
    | cons d a =>
      rintro ⟨⟩
      exact absurd (ha ('\uFEFF' : CodePoint) (by simp)) (by decide)
  have hs : skipSpace (a ++ (c :: q) ++ b) = c :: q ++ b := by
    rw [List.append_assoc]
    exact skipSpace_append ha (by rintro d ⟨⟩; exact hc)
  rw [read, if_neg hbom, hs, hv]
  dsimp only
  rw [skipSpace_blank hb]

theorem exists_of_read (h : read t = .ok v) :
    ∃ a r b, Blank a ∧ Blank b ∧ t = a ++ r ∧ ∃ fuel depth, value fuel depth r = .ok (v, b) := by
  unfold read at h
  split at h
  · cases h
  · split at h
    · cases h
    · next v' rest hv =>
      split at h
      · next hr =>
        cases h
        obtain ⟨a, ha, ht⟩ := exists_blank t
        obtain ⟨b, hb, hrest⟩ := exists_blank rest
        rw [hr, List.append_nil] at hrest
        exact ⟨a, _, rest, ha, hrest ▸ hb, ht, _, _, hv⟩
      · cases h

theorem length_series (h : Series x ss) : ss.length ≤ x.length := by
  have key : ∀ {p u : Text}, Padded p u → 1 ≤ p.length := by
    rintro p u ⟨a, l, b, -, hl, -, rfl⟩
    obtain ⟨q, rfl⟩ := quote_of_literal hl
    simp [text]
    omega
  induction h with
  | one hp => simpa using key hp
  | more hp hr ih =>
    have := key hp
    simp only [List.length_cons, List.length_append]
    omega

theorem length_bracketed (h : Bracketed x ss) : ss.length ≤ x.length := by
  cases h with
  | empty hb => exact Nat.zero_le _
  | series h =>
    have := length_series h
    simp only [List.length_append]
    omega

theorem endsNumber_blank (hb : Blank b) : EndsNumber b := by
  intro c hc
  have := hb c (List.mem_of_mem_head? hc)
  rcases this with rfl | rfl | rfl | rfl <;> decide

/-- Whatever denotes a value in a shape is read as that value. -/
theorem read_of_denotes {shape : Shape} (h : Denotes shape t v) : read t = .ok v := by
  cases h with
  | string ha hl hb => exact read_padded ha (opens_of_literal hl) hb (value_literal hl)
  | @list a x b ss ha hx hb =>
    apply read_padded ha (opens_of_bracketed hx) hb
    apply value_bracketed hx
    have := length_bracketed hx
    simp only [List.length_append]
    omega
  | integer ha hx hb => exact read_padded ha (opens_of_signed hx) hb (value_signed hx (endsNumber_blank hb))

/-- What is read as the value of a content denotes it. -/
theorem denotes_of_read {c : Content} (h : read t = .ok c.toValue) : Denotes c.shape t c.toValue := by
  obtain ⟨a, r, b, ha, hb, rfl, fuel, depth, hv⟩ := exists_of_read h
  cases c with
  | string s =>
    obtain ⟨l, hl, rfl⟩ := literal_of_value hv
    rw [← List.append_assoc]
    exact .string ha hl hb
  | list ss =>
    obtain ⟨x, hx, rfl⟩ := bracketed_of_value hv
    rw [← List.append_assoc]
    exact .list ha hx hb
  | integer n =>
    obtain ⟨x, hx, rfl⟩ := signed_of_value hv
    rw [← List.append_assoc]
    exact .integer ha hx hb

end AnnotationCodec.Json
