import AnnotationCodec.Proofs.Json.Brackets

/-!
How deep the reader goes. It gives up on a text only if the brackets of the text are nested deeper than the limit, and it does
give up on every such text that is JSON. What has been read leaves the level where it was, and has reached no level that was
not allowed.
-/
namespace AnnotationCodec.Json

variable {t r rest s : Text} {v : Value} {es found : Entries} {vs : List Value} {fuel depth up : Nat}

/-! Values -/

/-- What was read of a text, up to what is left, is not empty and ends `up` levels below where it starts. -/
def Consumes (up depth : Nat) (t rest : Text) : Prop :=
  ∃ x, x ≠ [] ∧ t = x ++ rest ∧ Spans up depth x

theorem Consumes.length_lt (h : Consumes up depth t rest) : rest.length < t.length := by
  obtain ⟨x, hx, rfl, -⟩ := h
  have hpos := List.length_pos_iff.mpr hx
  simp only [List.length_append]
  omega

theorem Consumes.trans (h : Consumes 0 depth t r) (h' : Consumes up depth r rest) : Consumes up depth t rest := by
  obtain ⟨x, hx, rfl, hs⟩ := h
  obtain ⟨y, hy, rfl, hs'⟩ := h'
  exact ⟨x ++ y, by simp [hx], (List.append_assoc x y rest).symm, hs.append hs'⟩

/-- Blanks in front are consumed as well. -/
theorem Consumes.blank (h : Consumes up depth (skipSpace t) rest) : Consumes up depth t rest := by
  obtain ⟨x, hx, hskip, hs⟩ := h
  obtain ⟨b, hb, ht⟩ := exists_blank t
  rw [hskip, ← List.append_assoc] at ht
  exact ⟨b ++ x, by simp [hx], ht, (spans_quiet (isQuiet_of_blank hb)).append hs⟩

theorem Consumes.cons {c : CodePoint} (hc : isQuiet c = true) (h : Consumes up depth t rest) :
    Consumes up depth (c :: t) rest := by
  obtain ⟨x, hx, rfl, hs⟩ := h
  exact ⟨c :: x, by simp, rfl, (spans_quiet (x := [c]) (by simpa using hc)).append hs⟩

theorem Consumes.opening {c : CodePoint} (hc : isOpening c = true) (h : Consumes 1 depth t rest) :
    Consumes 0 (depth + 1) (c :: t) rest := by
  obtain ⟨x, hx, rfl, hs⟩ := h
  exact ⟨c :: x, by simp, rfl, hs.opening hc⟩

theorem consumes_closing {c : CodePoint} (hc : isClosing c = true) : Consumes 1 depth (c :: rest) rest :=
  ⟨[c], by simp, rfl, spans_closing hc⟩

theorem consumes_string (h : string t = .ok (s, rest)) : Consumes 0 depth (text "\"" ++ t) rest := by
  obtain ⟨l, hl, ht⟩ := string_eq_ok_iff.mp h
  refine ⟨l, ?_, ht, spans_literal hl⟩
  obtain ⟨q, rfl⟩ := quote_of_literal hl
  simp [text]

theorem consumes_scalar (h : scalar t = .ok (v, rest)) : Consumes 0 depth t rest := by
  obtain ⟨⟨x, rfl, hx⟩, hl⟩ := quietly_scalar h
  refine ⟨x, ?_, rfl, spans_quiet hx⟩
  rintro rfl
  simp at hl

/-- What the readers of values consume with some fuel. Where elements or members begin, one bracket is open. -/
structure Consuming (fuel : Nat) : Prop where
  value : ∀ {depth t v rest}, value fuel depth t = .ok (v, rest) → Consumes 0 depth t rest
  elements : ∀ {depth t vs rest}, elements fuel depth t = .ok (vs, rest) → Consumes 1 depth t rest
  members : ∀ {depth found t es rest}, members fuel depth found t = .ok (es, rest) → Consumes 1 depth t rest

theorem Consuming.succ_value (hk : Consuming fuel) (h : Json.value (fuel + 1) depth t = .ok (v, rest)) :
    Consumes 0 depth t rest := by
  unfold Json.value at h
  split at h
  · cases h
  next c r =>
  split_ifs at h with hq hb hc
  · subst hq
    obtain ⟨⟨s, rest'⟩, hs, heq⟩ := map_eq_ok_iff.mp h
    cases heq
    exact consumes_string hs
  · subst hb
    split at h
    · cases h
    next d =>
    refine .opening (by decide) (.blank ?_)
    split at h
    · cases h
    next e q hskip =>
    rw [hskip]
    split_ifs at h with he
    · subst he
      cases h
      exact consumes_closing (by decide)
    · obtain ⟨⟨vs, rest'⟩, hvs, heq⟩ := map_eq_ok_iff.mp h
      cases heq
      exact hk.elements hvs
  · subst hc
    split at h
    · cases h
    next d =>
    refine .opening (by decide) (.blank ?_)
    split at h
    · cases h
    next e q hskip =>
    rw [hskip]
    split_ifs at h with he
    · subst he
      cases h
      exact consumes_closing (by decide)
    · obtain ⟨⟨es, rest'⟩, hes, heq⟩ := map_eq_ok_iff.mp h
      cases heq
      exact hk.members hes
  · exact consumes_scalar h

theorem Consuming.succ_elements (hk : Consuming fuel) (h : Json.elements (fuel + 1) depth t = .ok (vs, rest)) :
    Consumes 1 depth t rest := by
  unfold Json.elements at h
  split at h
  · cases h
  next v r hv =>
  refine (hk.value hv).trans (.blank ?_)
  split at h
  · cases h
  next c q hskip =>
  rw [hskip]
  split_ifs at h with hclose hcomma
  · subst hclose
    cases h
    exact consumes_closing (by decide)
  · subst hcomma
    obtain ⟨⟨ws, rest'⟩, hws, heq⟩ := map_eq_ok_iff.mp h
    cases heq
    exact .cons (by decide) (.blank (hk.elements hws))
  · cases h

theorem Consuming.succ_members (hk : Consuming fuel) (h : Json.members (fuel + 1) depth found t = .ok (es, rest)) :
    Consumes 1 depth t rest := by
  unfold Json.members at h
  split at h
  · cases h
  next q r =>
  split_ifs at h with hq
  · subst hq
    split at h
    · cases h
    next name r hname =>
    refine (consumes_string hname).trans (.blank ?_)
    split at h
    · cases h
    next c p hskip =>
    rw [hskip]
    split_ifs at h with hcolon
    · subst hcolon
      split at h
      · cases h
      next v r hv =>
      refine .cons (by decide) (.blank ((hk.value hv).trans (.blank ?_)))
      dsimp only at h
      split at h
      · cases h
      next d p hskip =>
      rw [hskip]
      split_ifs at h with hclose hcomma
      · subst hclose
        cases h
        exact consumes_closing (by decide)
      · subst hcomma
        exact .cons (by decide) (.blank (hk.members h))
      · cases h
    · cases h
  · cases h

theorem consuming (fuel : Nat) : Consuming fuel := by
  induction fuel with
  | zero =>
    constructor
    · intro depth t v rest h
      cases h
    · intro depth t vs rest h
      cases h
    · intro depth found t es rest h
      cases h
  | succ k ih => exact ⟨ih.succ_value, ih.succ_elements, ih.succ_members⟩

/-! Giving up -/

/-- The brackets of a text reach a level that is more than `depth` above where it starts. -/
def Exceeds (depth : Nat) (t : Text) : Prop :=
  ∀ level, level + depth < deepest .outside level t

theorem Exceeds.of_consumes (h : Consumes 0 depth t rest) (hr : Exceeds depth rest) : Exceeds depth t := by
  obtain ⟨x, -, rfl, hx⟩ := h
  intro level
  have hspan := (hx level rest).1
  have hrest := hr level
  rw [Nat.add_zero] at hspan
  omega

theorem Exceeds.quiet {c : CodePoint} (hc : isQuiet c = true) (h : Exceeds depth t) : Exceeds depth (c :: t) := by
  intro level
  rw [deepest_quiet hc]
  exact h level

theorem Exceeds.blank (h : Exceeds depth (skipSpace t)) : Exceeds depth t := by
  obtain ⟨b, hb, ht⟩ := exists_blank t
  have hquiet := isQuiet_of_blank hb
  generalize skipSpace t = r at h ht
  subst ht
  induction b with
  | nil => exact h
  | cons c b ih =>
    rw [List.forall_mem_cons] at hquiet
    exact .quiet hquiet.1 (ih (fun d hd => hb d (List.mem_cons_of_mem c hd)) hquiet.2)

theorem Exceeds.opening {c : CodePoint} (hc : isOpening c = true) (h : Exceeds depth t) : Exceeds (depth + 1) (c :: t) := by
  intro level
  have hdeep := h (level + 1)
  rw [deepest_opening hc]
  omega

theorem exceeds_opening {c : CodePoint} (hc : isOpening c = true) (t : Text) : Exceeds 0 (c :: t) := by
  intro level
  have hle := le_deepest .outside (level + 1) t
  rw [deepest_opening hc]
  omega

theorem length_skipSpace_le (t : Text) : (skipSpace t).length ≤ t.length := by
  obtain ⟨b, -, ht⟩ := exists_blank t
  have hlength := congrArg List.length ht
  simp only [List.length_append] at hlength
  omega

/-- Where the readers of values give up, though they have fuel for the whole text, the text goes too deep. -/
structure Exceeding (fuel : Nat) : Prop where
  value : ∀ {depth t}, 2 * t.length < fuel → value fuel depth t = .error .tooDeep → Exceeds depth t
  elements : ∀ {depth t}, 2 * t.length + 1 < fuel → elements fuel depth t = .error .tooDeep → Exceeds depth t
  members : ∀ {depth found t}, 2 * t.length < fuel → members fuel depth found t = .error .tooDeep → Exceeds depth t

theorem Exceeding.succ_value (hk : Exceeding fuel) (hf : 2 * t.length < fuel + 1)
    (h : Json.value (fuel + 1) depth t = .error .tooDeep) : Exceeds depth t := by
  unfold Json.value at h
  split at h
  · cases h
  next c r =>
  have hlength := length_skipSpace_le r
  rw [List.length_cons] at hf
  split_ifs at h with hq hb hc
  · exact (string_ne_tooDeep r (map_eq_error_iff.mp h)).elim
  · have hopen : isOpening c = true := by rw [hb]; rfl
    split at h
    · exact exceeds_opening hopen r
    refine .opening hopen (.blank ?_)
    split at h
    · cases h
    next e q hskip =>
    rw [hskip] at hlength ⊢
    split_ifs at h with he
    exact hk.elements (by omega) (map_eq_error_iff.mp h)
  · have hopen : isOpening c = true := by rw [hc]; rfl
    split at h
    · exact exceeds_opening hopen r
    refine .opening hopen (.blank ?_)
    split at h
    · cases h
    next e q hskip =>
    rw [hskip] at hlength ⊢
    split_ifs at h with he
    exact hk.members (by omega) (map_eq_error_iff.mp h)
  · exact (scalar_ne_tooDeep _ h).elim

theorem Exceeding.succ_elements (hk : Exceeding fuel) (hf : 2 * t.length + 1 < fuel + 1)
    (h : Json.elements (fuel + 1) depth t = .error .tooDeep) : Exceeds depth t := by
  unfold Json.elements at h
  split at h
  · next e he =>
    cases h
    exact hk.value (by omega) he
  next v r hv =>
  have hconsumes := (consuming fuel).value hv
  have hlt := hconsumes.length_lt
  refine .of_consumes hconsumes (.blank ?_)
  have hlength := length_skipSpace_le r
  split at h
  · cases h
  next c q hskip =>
  rw [hskip] at hlength ⊢
  split_ifs at h with hclose hcomma
  · have hlength' := length_skipSpace_le q
    rw [List.length_cons] at hlength
    refine .quiet (by rw [hcomma]; rfl) (.blank ?_)
    exact hk.elements (by omega) (map_eq_error_iff.mp h)
  · cases h

theorem Exceeding.succ_members (hk : Exceeding fuel) (hf : 2 * t.length < fuel + 1)
    (h : Json.members (fuel + 1) depth found t = .error .tooDeep) : Exceeds depth t := by
  unfold Json.members at h
  split at h
  · cases h
  next q r =>
  split_ifs at h with hq
  · subst hq
    split at h
    · next e he =>
      cases h
      exact (string_ne_tooDeep r he).elim
    next name p hname =>
    have hstring : Consumes 0 depth ('"' :: r) p := consumes_string hname
    have hlt := hstring.length_lt
    have hlength := length_skipSpace_le p
    refine .of_consumes hstring (.blank ?_)
    split at h
    · cases h
    next c u hskip =>
    rw [hskip] at hlength ⊢
    rw [List.length_cons] at hlength
    have hlength' := length_skipSpace_le u
    split_ifs at h with hcolon
    · refine .quiet (by rw [hcolon]; rfl) (.blank ?_)
      split at h
      · next e he =>
        cases h
        exact hk.value (by omega) he
      next v w hv =>
      have hvalue := (consuming fuel).value hv
      have hlt' := hvalue.length_lt
      have hlength := length_skipSpace_le w
      refine .of_consumes hvalue (.blank ?_)
      dsimp only at h
      split at h
      · cases h
      next d u' hskip =>
      rw [hskip] at hlength ⊢
      rw [List.length_cons] at hlength
      have hlength' := length_skipSpace_le u'
      split_ifs at h with hclose hcomma
      · refine .quiet (by rw [hcomma]; rfl) (.blank ?_)
        exact hk.members (by omega) h
      · cases h
    · cases h
  · cases h

theorem exceeding (fuel : Nat) : Exceeding fuel := by
  induction fuel with
  | zero =>
    constructor
    · intro depth t hf h
      omega
    · intro depth t hf h
      omega
    · intro depth found t hf h
      omega
  | succ k ih => exact ⟨ih.succ_value, ih.succ_elements, ih.succ_members⟩

/-! More levels -/

/-- Where the readers of values do not give up, they do the same when they may open one more level. -/
structure Settling (fuel : Nat) : Prop where
  value : ∀ {depth t}, value fuel depth t ≠ .error .tooDeep → value fuel (depth + 1) t = value fuel depth t
  elements : ∀ {depth t}, elements fuel depth t ≠ .error .tooDeep → elements fuel (depth + 1) t = elements fuel depth t
  members : ∀ {depth found t}, members fuel depth found t ≠ .error .tooDeep →
    members fuel (depth + 1) found t = members fuel depth found t

theorem value_brace (q : Text) : value (fuel + 1) (depth + 1) (text "\x7b" ++ q) =
    match skipSpace q with
    | [] => fail .expectingName []
    | d :: q =>
      if d = '\x7d' then .ok (.map [], q)
      else (members fuel depth [] (d :: q)).map fun (es, rest) => (.map es, rest) := by
  rfl

theorem Settling.succ_value (hk : Settling fuel) (h : Json.value (fuel + 1) depth t ≠ .error .tooDeep) :
    Json.value (fuel + 1) (depth + 1) t = Json.value (fuel + 1) depth t := by
  cases t with
  | nil => rfl
  | cons c r =>
    by_cases hq : c = '"'
    · subst hq
      rfl
    by_cases hb : c = '['
    · subst hb
      cases depth with
      | zero => exact (h rfl).elim
      | succ depth =>
        have hopen : ('[' : CodePoint) :: r = text "[" ++ r := rfl
        rw [hopen, value_bracket] at h ⊢
        rw [value_bracket]
        split
        · rfl
        next d q hskip =>
        simp only [hskip] at h
        split_ifs at h ⊢ with hd
        · rfl
        · rw [hk.elements fun hdeep => h (map_eq_error_iff.mpr hdeep)]
    by_cases hc : c = '\x7b'
    · subst hc
      cases depth with
      | zero => exact (h rfl).elim
      | succ depth =>
        have hopen : ('\x7b' : CodePoint) :: r = text "\x7b" ++ r := rfl
        rw [hopen, value_brace] at h ⊢
        rw [value_brace]
        split
        · rfl
        next d q hskip =>
        simp only [hskip] at h
        split_ifs at h ⊢ with hd
        · rfl
        · rw [hk.members fun hdeep => h (map_eq_error_iff.mpr hdeep)]
    rw [value_scalar hq hb hc, value_scalar hq hb hc]

theorem Settling.succ_elements (hk : Settling fuel) (h : Json.elements (fuel + 1) depth t ≠ .error .tooDeep) :
    Json.elements (fuel + 1) (depth + 1) t = Json.elements (fuel + 1) depth t := by
  unfold Json.elements at h ⊢
  have hvalue : Json.value fuel (depth + 1) t = Json.value fuel depth t := by
    refine hk.value fun hdeep => ?_
    simp [hdeep] at h
  rw [hvalue]
  cases hv : Json.value fuel depth t with
  | error e => rfl
  | ok u =>
    simp only [hv] at h ⊢
    split
    · rfl
    next c q hskip =>
    simp only [hskip] at h
    split_ifs at h ⊢ with hclose hcomma
    · rfl
    · rw [hk.elements fun hdeep => h (map_eq_error_iff.mpr hdeep)]
    · rfl

theorem Settling.succ_members (hk : Settling fuel) (h : Json.members (fuel + 1) depth found t ≠ .error .tooDeep) :
    Json.members (fuel + 1) (depth + 1) found t = Json.members (fuel + 1) depth found t := by
  unfold Json.members at h ⊢
  split
  · rfl
  next q r =>
  simp only at h
  split_ifs at h ⊢ with hq
  · cases hs : string r with
    | error e => rfl
    | ok u =>
      simp only [hs] at h ⊢
      split
      · rfl
      next c p hskip =>
      simp only [hskip] at h
      split_ifs at h ⊢ with hcolon
      · have hvalue : Json.value fuel (depth + 1) (skipSpace p) = Json.value fuel depth (skipSpace p) := by
          refine hk.value fun hdeep => ?_
          simp [hdeep] at h
        rw [hvalue]
        cases hv : Json.value fuel depth (skipSpace p) with
        | error e => rfl
        | ok w =>
          simp only [hv] at h ⊢
          split
          · rfl
          next d p' hskip' =>
          simp only [hskip'] at h
          split_ifs at h ⊢ with hclose hcomma
          · rfl
          · exact hk.members h
          · rfl
      · rfl
  · rfl

theorem settling (fuel : Nat) : Settling fuel := by
  induction fuel with
  | zero =>
    constructor
    · intro depth t h
      rfl
    · intro depth t h
      rfl
    · intro depth found t h
      rfl
  | succ k ih => exact ⟨ih.succ_value, ih.succ_elements, ih.succ_members⟩

theorem value_of_le {limit : Nat} (h : value fuel depth t ≠ .error .tooDeep) (hle : depth ≤ limit) :
    value fuel limit t = value fuel depth t := by
  induction hle with
  | refl => rfl
  | @step m _ ih =>
    rw [← ih]
    refine (settling fuel).value ?_
    rw [ih]
    exact h

/-! Whole texts -/

theorem nesting_skipSpace (t : Text) : nesting t = nesting (skipSpace t) := by
  obtain ⟨b, hb, ht⟩ := exists_blank t
  have hspan : Spans 0 0 b := spans_quiet (isQuiet_of_blank hb)
  have hdeepest := hspan 0 (skipSpace t)
  rw [Nat.add_zero, ← ht] at hdeepest
  unfold nesting
  omega

/-- The reader gives up only on texts that are nested too deep. -/
theorem nesting_of_tooDeep (h : read t = .error .tooDeep) : depthLimit < nesting t := by
  unfold read at h
  split_ifs at h with hmark
  · cases h
  split at h
  · next e he =>
    cases h
    have hlength := length_skipSpace_le t
    have hexceeds := (exceeding _).value (by omega) he 0
    rw [nesting_skipSpace]
    unfold nesting
    omega
  · split at h
    · cases h
    · cases h

/-- A text is JSON if it is read as one value when as many levels may be opened as it takes. -/
def IsJson (t : Text) : Prop :=
  ∃ depth v rest, value (2 * t.length + 2) depth (skipSpace t) = .ok (v, rest) ∧ skipSpace rest = []

/-- What has been read is not nested deeper than was allowed. -/
theorem nesting_le (h : value fuel depth (skipSpace t) = .ok (v, rest)) (hrest : skipSpace rest = []) : nesting t ≤ depth := by
  obtain ⟨x, -, hx, hs⟩ := (consuming fuel).value h
  have hspan := (hs 0 rest).2
  have hend := nesting_skipSpace rest
  rw [Nat.add_zero, ← hx] at hspan
  rw [nesting_skipSpace]
  rw [hrest] at hend
  unfold nesting at hend ⊢
  simp only [deepest] at hend
  omega

/-- No JSON begins with a mark of the byte order. -/
theorem head_of_isJson (h : IsJson t) : t.head? ≠ some ('\uFEFF' : CodePoint) := by
  intro hmark
  obtain ⟨depth, v, rest, h, -⟩ := h
  cases t with
  | nil => cases hmark
  | cons c r =>
    obtain rfl := Option.some.inj hmark
    cases h

/-- JSON is given up on exactly if it is nested too deep. -/
theorem read_tooDeep_iff (h : IsJson t) : read t = .error .tooDeep ↔ depthLimit < nesting t := by
  refine ⟨nesting_of_tooDeep, fun hn => ?_⟩
  have hmark := head_of_isJson h
  obtain ⟨depth, v, rest, h, hrest⟩ := h
  have hle := nesting_le h hrest
  rw [read, if_neg hmark]
  by_cases hdeep : value (2 * t.length + 2) depthLimit (skipSpace t) = .error .tooDeep
  · rw [hdeep]
  · have hsame := value_of_le hdeep (show depthLimit ≤ depth by omega)
    have hread := nesting_le (hsame.symm.trans h) hrest
    omega

/-! Lists in lists -/

/-- So many brackets are opened and then closed. -/
def nestedLists (n : Nat) : Text :=
  List.replicate n ('[' : CodePoint) ++ List.replicate n (']' : CodePoint)

theorem nestedLists_succ (n : Nat) (r : Text) :
    nestedLists (n + 1) ++ r = text "[" ++ (nestedLists n ++ (text "]" ++ r)) := by
  have hopen : List.replicate (n + 1) ('[' : CodePoint) = text "[" ++ List.replicate n ('[' : CodePoint) := rfl
  have hclose : List.replicate (n + 1) (']' : CodePoint) = List.replicate n (']' : CodePoint) ++ text "]" :=
    List.replicate_succ'
  rw [nestedLists, nestedLists, hopen, hclose]
  simp only [List.append_assoc]

theorem le_nesting_nestedLists (n : Nat) : n ≤ nesting (nestedLists n) := by
  have hopen : ∀ level r, level + n ≤ deepest .outside level (List.replicate n ('[' : CodePoint) ++ r) := by
    induction n with
    | zero => exact fun level r => le_deepest _ _ _
    | succ n ih =>
      intro level r
      have hdeep := ih (level + 1) r
      rw [List.replicate_succ, List.cons_append, deepest_opening (by decide)]
      omega
  have h := hopen 0 (List.replicate n (']' : CodePoint))
  unfold nesting nestedLists
  omega

theorem value_nestedLists (n k : Nat) (r : Text) :
    ∃ v, value (2 * n + k + 1) (n + 1) (nestedLists (n + 1) ++ r) = .ok (v, r) := by
  induction n generalizing k r with
  | zero => exact ⟨.list [], rfl⟩
  | succ n ih =>
    obtain ⟨v, hv⟩ := ih k (text "]" ++ r)
    refine ⟨.list [v], ?_⟩
    have helements : elements (2 * n + k + 2) (n + 1) (nestedLists (n + 1) ++ (text "]" ++ r)) = .ok ([v], r) := by
      rw [elements, hv]
      rfl
    have hfuel : 2 * (n + 1) + k + 1 = 2 * n + k + 2 + 1 := by omega
    rw [hfuel, nestedLists_succ, value_bracket]
    have hskip : skipSpace (nestedLists (n + 1) ++ (text "]" ++ r)) = nestedLists (n + 1) ++ (text "]" ++ r) := by
      rw [nestedLists_succ]
      rfl
    rw [hskip]
    rw [nestedLists_succ] at helements ⊢
    exact map_eq_ok_iff.mpr ⟨([v], r), helements, rfl⟩

theorem isJson_nestedLists (n : Nat) : IsJson (nestedLists (n + 1)) := by
  obtain ⟨v, hv⟩ := value_nestedLists n (2 * n + 5) []
  refine ⟨n + 1, v, [], ?_, rfl⟩
  have hfuel : 2 * (nestedLists (n + 1)).length + 2 = 2 * n + (2 * n + 5) + 1 := by
    simp only [nestedLists, List.length_append, List.length_replicate]
    omega
  have hskip : skipSpace (nestedLists (n + 1)) = nestedLists (n + 1) := rfl
  rw [List.append_nil] at hv
  rw [hfuel, hskip, hv]

/-- Lists in lists are given up on if there are more of them than the limit. -/
theorem nestedLists_tooDeep {n : Nat} (h : depthLimit < n) : read (nestedLists n) = .error .tooDeep := by
  obtain ⟨m, rfl⟩ : ∃ m, n = m + 1 := ⟨n - 1, by omega⟩
  exact (read_tooDeep_iff (isJson_nestedLists m)).mpr (Nat.lt_of_lt_of_le h (le_nesting_nestedLists _))

end AnnotationCodec.Json
