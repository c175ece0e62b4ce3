import SecureChaincode.JsonRoundTrip

/-! parson never reads behind the NUL that ends its text, so the result is the same whatever
the memory holds there. -/
namespace SecureChaincode

section
variable {ι β : Type}

/-- Of the memory behind the NUL, which the index decides on, the scan of the text `t` sees
nothing: either it returns NULL, or it stops within the text, at the same place with the same
result. -/
def Confined (behind : ι → Bytes) (t : Bytes) (scan : ι → Scan (β × Bytes)) : Prop :=
  (∀ i, scan i = .error .null) ∨ ∃ v t', t' <:+ t ∧ ∀ i, scan i = .ok (v, t' ++ 0 :: behind i)

variable {behind : ι → Bytes} {t t' : Bytes} {scan : ι → Scan (β × Bytes)}

theorem Confined.mono (h : Confined behind t' scan) (ht : t' <:+ t) : Confined behind t scan := by
  rcases h with h | ⟨v, t'', ht'', h⟩
  · exact Or.inl h
  · exact Or.inr ⟨v, t'', ht''.trans ht, h⟩

/-- One scan continues where another has stopped. -/
theorem Confined.andThen {γ : Type} {next : ι → β × Bytes → Scan (γ × Bytes)}
    (h : Confined behind t scan)
    (hnext : ∀ v t', t' <:+ t → Confined behind t' (fun i => next i (v, t' ++ 0 :: behind i))) :
    Confined behind t (fun i => scan i >>= next i) := by
  rcases h with h | ⟨v, t', ht', h⟩
  · left
    intro i
    simp only [h, bind, Except.bind]
  · simp only [h, bind, Except.bind]
    exact (hnext v t' ht').mono ht'

theorem Confined.map {γ : Type} (h : Confined behind t scan) (g : β → γ) :
    Confined behind t (fun i => (scan i).map (fun r => (g r.1, r.2))) := by
  rcases h with h | ⟨v, t', ht', h⟩
  · left
    intro i
    exact congrArg _ (h i)
  · refine Or.inr ⟨g v, t', ht', ?_⟩
    intro i
    exact congrArg _ (h i)

theorem confined_error : Confined (β := β) behind t (fun _ => .error .null) := Or.inl (fun _ => rfl)

theorem confined_ok (v : β) : Confined behind t (fun i => .ok (v, t ++ 0 :: behind i)) :=
  Or.inr ⟨v, t, List.suffix_rfl, fun _ => rfl⟩

/-- The byte at the pointer is the NUL, with which no case goes on, or one of the text. -/
theorem confined_look {next : ι → UInt8 × Bytes → Scan (β × Bytes)}
    (hzero : ∀ i s, next i (0, s) = .error .null)
    (hnext : ∀ c t', (c :: t') <:+ t → Confined behind t' (fun i => next i (c, t' ++ 0 :: behind i))) :
    Confined behind t (fun i => look (t ++ 0 :: behind i) >>= next i) := by
  cases t with
  | nil =>
    left
    intro i
    exact hzero i _
  | cons c t => exact (hnext c t List.suffix_rfl).mono (List.suffix_cons c t)

end

theorem skipWhitespaces_terminated (t rest : Bytes) :
    skipWhitespaces (t ++ 0 :: rest) = t.dropWhile isspace ++ 0 :: rest := by
  induction t with
  | nil => exact skipWhitespaces_cons (by decide) rest
  | cons c t ih =>
    by_cases hc : isspace c = true
    · rw [List.cons_append, skipWhitespaces, List.dropWhile_cons_of_pos hc, List.dropWhile_cons_of_pos hc]
      exact ih
    · rw [List.dropWhile_cons_of_neg hc]
      exact skipWhitespaces_cons (Bool.eq_false_iff.mpr hc) _

/-- `Confined` behind white space. -/
theorem confined_look_skip {ι β : Type} {behind : ι → Bytes} {t : Bytes}
    {next : ι → UInt8 × Bytes → Scan (β × Bytes)} (hzero : ∀ i s, next i (0, s) = .error .null)
    (hnext : ∀ c t', (c :: t') <:+ t → Confined behind t' (fun i => next i (c, t' ++ 0 :: behind i))) :
    Confined behind t (fun i => look (skipWhitespaces (t ++ 0 :: behind i)) >>= next i) := by
  have hsuffix : t.dropWhile isspace <:+ t := List.dropWhile_suffix isspace
  simp only [skipWhitespaces_terminated]
  exact (confined_look hzero (fun c t' ht' => hnext c t' (ht'.trans hsuffix))).mono hsuffix

/-! Tokens and strings. -/

theorem skipToken_confined {ι : Type} (behind : ι → Bytes) (token : Bytes) (htoken : (0 : UInt8) ∉ token)
    (t : Bytes) :
    (∀ i, skipToken token (t ++ 0 :: behind i) = .error .null) ∨
      ∃ t', t' <:+ t ∧ ∀ i, skipToken token (t ++ 0 :: behind i) = .ok (t' ++ 0 :: behind i) := by
  induction token generalizing t with
  | nil => exact Or.inr ⟨t, List.suffix_rfl, fun _ => rfl⟩
  | cons k token ih =>
    obtain ⟨hk, htoken⟩ := not_or.mp (mt List.mem_cons.mpr htoken)
    cases t with
    | nil => exact Or.inl (fun _ => if_neg hk)
    | cons c t =>
      simp only [List.cons_append, skipToken]
      by_cases hc : c = k
      · simp only [if_pos hc]
        rcases ih htoken t with h | ⟨t', ht', h⟩
        · exact Or.inl h
        · exact Or.inr ⟨t', ht'.trans (List.suffix_cons c t), h⟩
      · exact Or.inl (fun _ => if_neg hc)

theorem skipQuotes_confined {ι : Type} (behind : ι → Bytes) (t : Bytes) :
    Confined behind t (fun i => skipQuotes (t ++ 0 :: behind i)) := by
  -- an escape takes two bytes at once
  induction hlen : t.length using Nat.strong_induction_on generalizing t with
  | _ n ih =>
  cases t with
  | nil =>
    left
    intro i
    show skipQuotes (0 :: behind i) = _
    rw [skipQuotes.eq_def]
    rfl
  | cons c t =>
    simp only [List.cons_append, skipQuotes.eq_def (c :: _)]
    split_ifs with hquote hnul hescape
    · exact (confined_ok []).mono (List.suffix_cons c t)
    · exact confined_error
    · cases t with
      | nil => exact confined_error
      | cons e t =>
        simp only [List.cons_append]
        split_ifs
        · exact confined_error
        · have hrest := ih t.length (by rw [← hlen]; simp) t rfl
          have hsuffix : t <:+ c :: e :: t := (List.suffix_cons e t).trans (List.suffix_cons c _)
          exact (hrest.map (fun text => c :: e :: text)).mono hsuffix
    · have hrest := ih t.length (by rw [← hlen]; simp) t rfl
      exact (hrest.map (fun text => c :: text)).mono (List.suffix_cons c t)

theorem parseUtf16Short_eq_null {digits behind : Bytes} (h : (0 : UInt8) ∈ behind) :
    parseUtf16Short digits behind = .null := if_pos (Or.inr h)

theorem map_ne_fault {β γ : Type} {scan : Scan β} (h : scan ≠ .error .fault) (f : β → γ) :
    scan.map f ≠ .error .fault := by
  cases scan with
  | ok v =>
    intro he
    cases he
  | error e =>
    intro he
    exact h (congrArg _ (Except.error.inj he))

theorem processString_ne_fault {behind : Bytes} (h : (0 : UInt8) ∈ behind) (text : Bytes) :
    processString behind text ≠ .error .fault := by
  fun_induction processString behind text
  case case4 ih => exact map_ne_fault ih _
  case case7 ih => exact map_ne_fault ih _
  case case13 ih => exact map_ne_fault ih _
  case case16 ih => exact map_ne_fault ih _
  all_goals simp [parseUtf16Short_eq_null h]

/-- Only where an escape is cut short does the memory behind the string come in, and there a NUL
is enough for an error. -/
theorem processString_congr {behind behind' : Bytes} (h : (0 : UInt8) ∈ behind) (h' : (0 : UInt8) ∈ behind')
    (text : Bytes) : processString behind text = processString behind' text := by
  fun_induction processString behind text <;> conv_rhs => rw [processString.eq_def]
  all_goals simp [*, parseUtf16Short_eq_null h, parseUtf16Short_eq_null h']

/-- The text between the quotes is the same whatever follows, so its escapes are. -/
theorem getQuotedString_confined {ι : Type} (behind : ι → Bytes) (t : Bytes) :
    Confined behind t (fun i => getQuotedString (t ++ 0 :: behind i)) := by
  refine confined_look (fun _ _ => rfl) ?_
  intro c t₁ _
  dsimp only
  split_ifs with hquote
  · refine (skipQuotes_confined behind t₁).andThen ?_
    intro text t₂ _
    have hnul (i : ι) : (0 : UInt8) ∈ t₂ ++ 0 :: behind i := List.mem_append_right _ List.mem_cons_self
    have hstring (i : ι) : processString (t₂ ++ 0 :: behind i) text = processString [0] text :=
      processString_congr (hnul i) List.mem_cons_self text
    simp only [hstring]
    cases hp : processString [0] text with
    | ok v => exact confined_ok (cstr v)
    | error e =>
      cases e with
      | null => exact confined_error
      | fault => exact absurd hp (processString_ne_fault List.mem_cons_self text)
  · exact confined_error

/-! The loops, for any scan of a value. -/

section
variable {ι : Type} {behind : ι → Bytes} {parse : Bytes → Scan (Json × Bytes)}
  (hparse : ∀ t, Confined behind t (fun i => parse (t ++ 0 :: behind i)))
include hparse

/-- A round leaves less of the text, so that the rounds do not run out. -/
theorem parseItems_confined {fuel : ι → ℕ} {t : Bytes} (hfuel : ∀ i, t.length < fuel i) :
    Confined behind t (fun i => parseItems parse (fuel i) (t ++ 0 :: behind i)) := by
  induction hlen : t.length using Nat.strong_induction_on generalizing t fuel with
  | _ n ih =>
  obtain ⟨m, hm⟩ : ∃ m : ι → ℕ, ∀ i, fuel i = m i+1 :=
    ⟨fun i => fuel i-1, fun i => (Nat.succ_pred_eq_of_pos (Nat.zero_lt_of_lt (hfuel i))).symm⟩
  simp only [hm, parseItems]
  refine (hparse t).andThen ?_
  intro item t₁ ht₁
  refine confined_look_skip (fun _ _ => rfl) ?_
  intro c t₂ ht₂
  dsimp only
  split_ifs with hcomma hend
  · -- behind the comma
    have hle : t₂.length+1 ≤ t.length := (ht₂.trans ht₁).length_le
    have hshort : (t₂.dropWhile isspace).length ≤ t₂.length := (List.dropWhile_suffix isspace).length_le
    have hfuel' : ∀ i, (t₂.dropWhile isspace).length < m i := by
      intro i
      have := hfuel i
      have := hm i
      omega
    have hrest := ih _ (by omega) hfuel' rfl
    simp only [skipWhitespaces_terminated]
    refine (hrest.andThen ?_).mono (List.dropWhile_suffix isspace)
    intro items t₃ _
    exact confined_ok (item :: items)
  · exact confined_ok [item]
  · exact confined_error

theorem parseMembers_confined {fuel : ι → ℕ} {t : Bytes} (hfuel : ∀ i, t.length < fuel i)
    (members : List (Bytes × Json)) :
    Confined behind t (fun i => parseMembers parse (fuel i) members (t ++ 0 :: behind i)) := by
  induction hlen : t.length using Nat.strong_induction_on generalizing t fuel members with
  | _ n ih =>
  obtain ⟨m, hm⟩ : ∃ m : ι → ℕ, ∀ i, fuel i = m i+1 :=
    ⟨fun i => fuel i-1, fun i => (Nat.succ_pred_eq_of_pos (Nat.zero_lt_of_lt (hfuel i))).symm⟩
  simp only [hm, parseMembers]
  refine (getQuotedString_confined behind t).andThen ?_
  intro newKey t₁ ht₁
  refine confined_look_skip (fun _ _ => rfl) ?_
  intro c t₂ ht₂
  dsimp only
  split_ifs with hcolon hold
  · refine (hparse t₂).andThen ?_
    intro newValue t₃ _
    exact confined_error
  · refine (hparse t₂).andThen ?_
    intro newValue t₃ ht₃
    refine confined_look_skip (fun _ _ => rfl) ?_
    intro d t₄ ht₄
    dsimp only
    split_ifs with hcomma hend
    · have hle : t₂.length+1 ≤ t.length := (ht₂.trans ht₁).length_le
      have hle' : t₄.length+1 ≤ t₂.length := (ht₄.trans ht₃).length_le
      have hshort : (t₄.dropWhile isspace).length ≤ t₄.length := (List.dropWhile_suffix isspace).length_le
      have hfuel' : ∀ i, (t₄.dropWhile isspace).length < m i := by
        intro i
        have := hfuel i
        have := hm i
        omega
      have hrest := ih _ (by omega) hfuel' (members ++ [(newKey, newValue)]) rfl
      simp only [skipWhitespaces_terminated]
      exact hrest.mono (List.dropWhile_suffix isspace)
    · exact confined_ok (members ++ [(newKey, newValue)])
    · exact confined_error
  · exact confined_error

theorem parseArrayValue_confined (t : Bytes) :
    Confined behind t (fun i => parseArrayValue parse (t ++ 0 :: behind i)) := by
  have hsuffix : t.dropWhile isspace <:+ t := List.dropWhile_suffix isspace
  simp only [parseArrayValue, skipWhitespaces_terminated]
  refine Confined.mono ?_ hsuffix
  generalize t.dropWhile isspace = t₁
  have hitems : Confined behind t₁
      (fun i => parseItems parse (t₁ ++ 0 :: behind i).length (t₁ ++ 0 :: behind i)) := by
    apply parseItems_confined hparse
    intro i
    rw [List.length_append, List.length_cons]
    omega
  have harray := hitems.map Json.array
  cases t₁ with
  | nil => exact harray
  | cons c t₂ =>
    simp only [List.cons_append, look, bind, Except.bind] at harray ⊢
    split_ifs with hend
    · exact (confined_ok (Json.array [])).mono (List.suffix_cons c t₂)
    · exact harray

theorem parseObjectValue_confined (t : Bytes) :
    Confined behind t (fun i => parseObjectValue parse (t ++ 0 :: behind i)) := by
  have hsuffix : t.dropWhile isspace <:+ t := List.dropWhile_suffix isspace
  simp only [parseObjectValue, skipWhitespaces_terminated]
  refine Confined.mono ?_ hsuffix
  generalize t.dropWhile isspace = t₁
  have hmembers : Confined behind t₁
      (fun i => parseMembers parse (t₁ ++ 0 :: behind i).length [] (t₁ ++ 0 :: behind i)) := by
    apply parseMembers_confined hparse
    intro i
    rw [List.length_append, List.length_cons]
    omega
  have hobject := hmembers.map Json.object
  cases t₁ with
  | nil => exact hobject
  | cons c t₂ =>
    simp only [List.cons_append, look, bind, Except.bind] at hobject ⊢
    split_ifs with hend
    · exact (confined_ok (Json.object [])).mono (List.suffix_cons c t₂)
    · exact hobject

end

/-- `strtod` does not read behind a NUL either, and what it has read is part of the text. -/
def Libc.Confined (libc : Libc) : Prop :=
  ∀ t : Bytes, (∀ behind, libc.strtod (t ++ 0 :: behind) = .error .null) ∨
    ∃ n len, len ≤ t.length ∧ ∀ behind, libc.strtod (t ++ 0 :: behind) = .ok (n, len)

section
variable {ι : Type} (behind : ι → Bytes)

theorem parseNumberValue_confined {libc : Libc} (hlibc : libc.Confined) (t : Bytes) :
    Confined behind t (fun i => parseNumberValue libc (t ++ 0 :: behind i)) := by
  rcases hlibc t with h | ⟨n, len, hlen, h⟩
  · simp only [parseNumberValue, h, bind, Except.bind]
    exact confined_error
  · have htake (i : ι) : (t ++ 0 :: behind i).take len = t.take len := List.take_append_of_le_length hlen
    have hdrop (i : ι) : (t ++ 0 :: behind i).drop len = t.drop len ++ 0 :: behind i :=
      List.drop_append_of_le_length hlen
    simp only [parseNumberValue, h, bind, Except.bind, htake, hdrop]
    split_ifs
    · exact (confined_ok (Json.number n)).mono (List.drop_suffix len t)
    · exact confined_error

theorem parseBooleanValue_confined (t : Bytes) :
    Confined behind t (fun i => parseBooleanValue (t ++ 0 :: behind i)) := by
  rcases skipToken_confined behind (str "true") (by decide) t with h | ⟨t', ht', h⟩
  · simp only [parseBooleanValue, h]
    rcases skipToken_confined behind (str "false") (by decide) t with h' | ⟨t', ht', h'⟩
    · simp only [h']
      exact confined_error
    · simp only [h']
      exact (confined_ok (Json.boolean false)).mono ht'
  · simp only [parseBooleanValue, h]
    exact (confined_ok (Json.boolean true)).mono ht'

theorem parseNullValue_confined (t : Bytes) :
    Confined behind t (fun i => parseNullValue (t ++ 0 :: behind i)) := by
  rcases skipToken_confined behind (str "null") (by decide) t with h | ⟨t', ht', h⟩
  · simp only [parseNullValue, h]
    exact confined_error
  · simp only [parseNullValue, h]
    exact (confined_ok Json.null).mono ht'

/-- By induction on the levels. -/
theorem parseValue_confined {libc : Libc} (hlibc : libc.Confined) (levels : ℕ) (t : Bytes) :
    Confined behind t (fun i => parseValue libc levels (t ++ 0 :: behind i)) := by
  induction levels generalizing t with
  | zero => exact confined_error
  | succ levels ih =>
    simp only [parseValue, skipWhitespaces_terminated]
    refine Confined.mono ?_ (List.dropWhile_suffix isspace)
    generalize t.dropWhile isspace = t₁
    cases t₁ with
    | nil => exact confined_error
    | cons c t₂ =>
      have hsuffix : t₂ <:+ c :: t₂ := List.suffix_cons c t₂
      simp only [List.cons_append, look, bind, Except.bind]
      split_ifs
      · exact (parseObjectValue_confined ih t₂).mono hsuffix
      · exact (parseArrayValue_confined ih t₂).mono hsuffix
      · exact (getQuotedString_confined behind (c :: t₂)).map Json.string
      · exact parseBooleanValue_confined behind (c :: t₂)
      · exact parseNumberValue_confined behind hlibc (c :: t₂)
      · exact parseNullValue_confined behind (c :: t₂)
      · exact confined_error

end

/-- Whatever the text, parson returns NULL or a value, without a read behind the NUL, and what
the memory holds there makes no difference. -/
theorem parse_confined {libc : Libc} (hlibc : libc.Confined) (text : Bytes) :
    (∀ behind, jsonParseString libc (text ++ 0 :: behind) = .error .null) ∨
      ∃ v, ∀ behind, jsonParseString libc (text ++ 0 :: behind) = .ok v := by
  have hvalue := parseValue_confined (fun behind : Bytes => behind) hlibc (maxNesting+1)
  have hread (t : Bytes) :
      (∀ behind, (parseValue libc (maxNesting+1) (t ++ 0 :: behind)).map Prod.fst = .error .null) ∨
        ∃ v, ∀ behind, (parseValue libc (maxNesting+1) (t ++ 0 :: behind)).map Prod.fst = .ok v := by
    rcases hvalue t with h | ⟨v, t', -, h⟩
    · exact Or.inl (fun behind => congrArg _ (h behind))
    · exact Or.inr ⟨v, fun behind => congrArg _ (h behind)⟩
  -- the value is looked for behind the byte order mark if there is one
  rcases skipToken_confined (fun behind : Bytes => behind) [0xef, 0xbb, 0xbf] (by decide) text with h | ⟨t, -, h⟩
  · simp only [jsonParseString, h]
    exact hread text
  · simp only [jsonParseString, h]
    exact hread t

theorem digitLibc_confined : digitLibc.Confined := by
  intro t
  cases t with
  | nil => exact Or.inl (fun _ => rfl)
  | cons c t =>
    -- the NUL is no digit, so the sign is not looked for behind the text
    have hsign (behind : Bytes) : (c :: t ++ 0 :: behind).take 2 = str "-0" ↔ (c :: t).take 2 = str "-0" := by
      cases t with
      | nil => simp [str]
      | cons d t => rfl
    by_cases hzero : (c :: t).take 2 = str "-0"
    · have hlen : 2 ≤ (c :: t).length := by
        have htake := congrArg List.length hzero
        rw [List.length_take] at htake
        exact min_eq_left_iff.mp htake
      exact Or.inr ⟨_, 2, hlen, fun behind => if_pos ((hsign behind).mpr hzero)⟩
    have hno (behind : Bytes) : ¬(c :: t ++ 0 :: behind).take 2 = str "-0" := fun h => hzero ((hsign behind).mp h)
    by_cases hc : isDigit c = true
    · exact Or.inr ⟨_, 1, Nat.le_add_left 1 _, fun behind => (if_neg (hno behind)).trans (if_pos hc)⟩
    · exact Or.inl (fun behind => (if_neg (hno behind)).trans (if_neg hc))

/-- An escape that ends with the text: the two bytes it lacks are not looked for behind the NUL. -/
theorem parse_confined_escape : digitLibc.Confined ∧
    ∀ behind, jsonParseString digitLibc (str "[1,\"\\u00\"" ++ 0 :: behind) = .error .null := by
  refine ⟨digitLibc_confined, ?_⟩
  rcases parse_confined digitLibc_confined (str "[1,\"\\u00\"") with h | ⟨v, h⟩
  · exact h
  · have hnull : (jsonParseString digitLibc (str "[1,\"\\u00\"" ++ [0])).isOk = false := by decide +kernel
    rw [h []] at hnull
    cases hnull

end SecureChaincode
