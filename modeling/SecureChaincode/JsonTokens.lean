import SecureChaincode.ParsonStrings

/-! Where the strings of a parsed value come from: each of them stands in the text, between two
quotes and without another one that is not escaped. So a text that was put together without escapes
gives back a string with a quote only if it stands in the text in a longer form. -/
namespace SecureChaincode

/-- What `skip_quotes` goes over: bytes other than the quote, and escapes. -/
inductive Unquoted : Bytes → Prop
  | nil : Unquoted []
  | byte {c : UInt8} {r : Bytes} (hquote : c ≠ 0x22) (hescape : c ≠ 0x5c) (hnul : c ≠ 0) (h : Unquoted r) :
    Unquoted (c :: r)
  | escape {e : UInt8} {r : Bytes} (hnul : e ≠ 0) (h : Unquoted r) : Unquoted (0x5c :: e :: r)

theorem Unquoted.tail {c : UInt8} {r : Bytes} (h : Unquoted (c :: r)) (hc : c ≠ 0x5c) : Unquoted r := by
  cases h with
  | byte _ _ _ h => exact h
  | escape _ _ => exact absurd rfl hc

theorem Unquoted.head {c : UInt8} {r : Bytes} (h : Unquoted (c :: r)) : c ≠ 0x22 := by
  cases h with
  | byte hquote _ _ _ => exact hquote
  | escape _ _ => decide

theorem Unquoted.no_nul {r : Bytes} (h : Unquoted r) : (0 : UInt8) ∉ r := by
  induction h with
  | nil => exact List.not_mem_nil
  | byte _ _ hnul _ ih =>
    intro hmem
    rcases List.mem_cons.mp hmem with hzero | hmem
    · exact hnul hzero.symm
    · exact ih hmem
  | escape hnul _ ih =>
    intro hmem
    rcases List.mem_cons.mp hmem with hzero | hmem
    · exact absurd hzero (by decide)
    rcases List.mem_cons.mp hmem with hzero | hmem
    · exact hnul hzero.symm
    · exact ih hmem

/-- A quote in it has a backslash in front. -/
theorem Unquoted.getLast_of_quote {r before behind : Bytes} (h : Unquoted r) (hr : r = before ++ 0x22 :: behind) :
    before.getLast? = some 0x5c := by
  induction h generalizing before with
  | nil => cases before <;> cases hr
  | byte hquote _ _ _ ih =>
    cases before with
    | nil => exact absurd (List.cons.inj hr).1 hquote
    | cons b before =>
      have hlast := ih (List.cons.inj hr).2
      rw [List.getLast?_cons, hlast]
      rfl
  | escape _ _ ih =>
    cases before with
    | nil => exact absurd (List.cons.inj hr).1 (by decide)
    | cons b before =>
      cases before with
      | nil => exact congrArg some (List.cons.inj hr).1.symm
      | cons b' before =>
        have hlast := ih (List.cons.inj (List.cons.inj hr).2).2
        rw [List.getLast?_cons, List.getLast?_cons, hlast]
        rfl

/-- So it does not go across a quote that is not escaped. -/
theorem Unquoted.infix_of_quote {r x y : Bytes} (h : Unquoted r) (hx : x.getLast? ≠ some 0x5c)
    (hr : r <:+: x ++ 0x22 :: y) : r <:+: x ∨ r <:+: y := by
  obtain ⟨before, behind, heq⟩ := hr
  rw [List.append_assoc] at heq
  rcases List.append_eq_append_iff.mp heq with ⟨start, hstart, hrest⟩ | ⟨gap, hgap, hrest⟩
  · -- it begins in front of the quote
    rcases List.append_eq_append_iff.mp hrest with ⟨past, hpast, -⟩ | ⟨past, hpast, hquote⟩
    · left
      exact ⟨before, past, by rw [hstart, hpast, List.append_assoc]⟩
    · cases past with
      | nil =>
        left
        exact ⟨before, [], by rw [hstart, hpast, List.append_nil, List.append_nil]⟩
      | cons c past =>
        obtain ⟨rfl, -⟩ := List.cons.inj hquote
        have hlast := h.getLast_of_quote hpast
        refine absurd ?_ hx
        rw [hstart, List.getLast?_append, hlast]
        rfl
  · -- or at the quote or behind it
    cases gap with
    | nil =>
      cases r with
      | nil => exact Or.inl ⟨[], x, rfl⟩
      | cons c r =>
        obtain ⟨rfl, -⟩ := List.cons.inj hrest
        exact absurd rfl h.head
    | cons c gap =>
      right
      obtain ⟨-, hy⟩ := List.cons.inj hrest
      exact ⟨gap, behind, by rw [hy, List.append_assoc]; rfl⟩

/-- It lies in one of the parts of a text between which quotes stand that are not escaped. -/
theorem Unquoted.infix_of_parts {r : Bytes} (h : Unquoted r) {parts : List Bytes} {last : Bytes}
    (hparts : ∀ q ∈ parts, q.getLast? ≠ some 0x5c) (hr : r <:+: parts.flatMap (fun q => q ++ [0x22]) ++ last) :
    (∃ q ∈ parts, r <:+: q) ∨ r <:+: last := by
  induction parts with
  | nil => exact Or.inr hr
  | cons q parts ih =>
    obtain ⟨hq, hparts⟩ := List.forall_mem_cons.mp hparts
    rw [List.flatMap_cons, List.append_assoc, List.append_assoc, List.singleton_append] at hr
    rcases h.infix_of_quote hq hr with hin | hin
    · exact Or.inl ⟨q, List.mem_cons_self, hin⟩
    rcases ih hparts hin with ⟨q', hq', hin⟩ | hin
    · exact Or.inl ⟨q', List.mem_cons_of_mem q hq', hin⟩
    · exact Or.inr hin

theorem skipQuotes_eq_ok {s r rest : Bytes} (h : skipQuotes s = .ok (r, rest)) :
    s = r ++ 0x22 :: rest ∧ Unquoted r := by
  fun_induction skipQuotes s generalizing r with
  | case1 => cases h
  | case2 s =>
    cases h
    exact ⟨rfl, .nil⟩
  | case3 => cases h
  | case4 => cases h
  | case5 => cases h
  | case6 e s he _ _ ih =>
    obtain ⟨⟨r', rest'⟩, hr, hpair⟩ := map_eq_ok h
    cases hpair
    obtain ⟨rfl, hunquoted⟩ := ih hr
    exact ⟨rfl, .escape he hunquoted⟩
  | case7 c s hquote hnul hescape ih =>
    obtain ⟨⟨r', rest'⟩, hr, hpair⟩ := map_eq_ok h
    cases hpair
    obtain ⟨rfl, hunquoted⟩ := ih hr
    exact ⟨rfl, .byte hquote hescape hnul hunquoted⟩

/-- Without an escape it stands for itself. -/
theorem processString_of_no_escape {behind r w : Bytes} (h : processString behind r = .ok w)
    (hr : Unquoted r) (hescape : 0x5c ∉ r) : PlainText w := by
  induction hr generalizing w with
  | nil =>
    cases h
    exact fun c hc => absurd hc List.not_mem_nil
  | byte hquote hbackslash _ _ ih =>
    rw [processString.eq_def] at h
    simp only [if_neg hbackslash] at h
    split_ifs at h with hcontrol
    obtain ⟨w', hw, rfl⟩ := map_eq_ok h
    have hplain := ih hw (fun hmem => hescape (List.mem_cons_of_mem _ hmem))
    exact List.forall_mem_cons.mpr ⟨⟨UInt8.not_lt.mp hcontrol, hquote, hbackslash⟩, hplain⟩
  | escape _ _ _ => exact absurd List.mem_cons_self hescape

/-- The string `t` stands in the text `s`, between quotes, and in a longer form if it cannot stand
there as it is. -/
def StandsIn (t s : Bytes) : Prop :=
  ∃ r, r <:+: s ∧ Unquoted r ∧ (¬PlainText t → 0x5c ∈ r ∧ t.length < r.length)

theorem StandsIn.mono {t s s' : Bytes} (h : StandsIn t s) (hs : s <:+ s') : StandsIn t s' := by
  obtain ⟨r, hr, hunquoted, hlonger⟩ := h
  exact ⟨r, hr.trans hs.isInfix, hunquoted, hlonger⟩

theorem getQuotedString_standsIn {s t rest : Bytes} (h : getQuotedString s = .ok (t, rest)) :
    rest <:+ s ∧ StandsIn t s := by
  obtain ⟨⟨c, s'⟩, hlook, h⟩ := bind_eq_ok h
  dsimp only at h
  split_ifs at h with hc
  obtain ⟨⟨r, behind⟩, hskip, h⟩ := bind_eq_ok h
  obtain ⟨w, hw, h⟩ := bind_eq_ok h
  cases h
  cases s with
  | nil => cases hlook
  | cons c' s =>
    cases hlook
    obtain ⟨rfl, hunquoted⟩ := skipQuotes_eq_ok hskip
    refine ⟨⟨c :: (r ++ [0x22]), by simp⟩, r, ⟨[c], 0x22 :: behind, by simp⟩, hunquoted, ?_⟩
    intro hspecial
    have hescape : 0x5c ∈ r := by
      by_contra hno
      exact hspecial (fun b hb => processString_of_no_escape hw hunquoted hno b ((List.takeWhile_sublist _).mem hb))
    refine ⟨hescape, ?_⟩
    have hle : (cstr w).length ≤ w.length := (List.takeWhile_sublist _).length_le
    exact hle.trans_lt ((length_processString hw).2 hescape)

/-- A string at any depth of a value. -/
inductive Json.HasString : Json → Bytes → Prop
  | string (t : Bytes) : HasString (.string t) t
  | item {items : List Json} {v : Json} {t : Bytes} (hv : v ∈ items) (h : HasString v t) :
    HasString (.array items) t
  | member {members : List (Bytes × Json)} {m : Bytes × Json} {t : Bytes} (hm : m ∈ members)
      (h : HasString m.2 t) :
    HasString (.object members) t

theorem skipWhitespaces_suffix (s : Bytes) : skipWhitespaces s <:+ s := List.dropWhile_suffix _

theorem look_suffix {s s' : Bytes} {c : UInt8} (h : look s = .ok (c, s')) : s' <:+ s := by
  cases s with
  | nil => cases h
  | cons b s =>
    cases h
    exact List.suffix_cons _ _

theorem skipToken_suffix {token s s' : Bytes} (h : skipToken token s = .ok s') : s' <:+ s := by
  induction token generalizing s with
  | nil =>
    cases h
    exact List.suffix_rfl
  | cons t token ih =>
    cases s with
    | nil => cases h
    | cons c s =>
      rw [skipToken] at h
      split_ifs at h
      exact (ih h).trans (List.suffix_cons _ _)

/-- The scan leaves an end of the text, and the strings of its value stand in it. -/
def Quotes (parse : Bytes → Scan (Json × Bytes)) : Prop :=
  ∀ s v rest, parse s = .ok (v, rest) → rest <:+ s ∧ ∀ t, v.HasString t → StandsIn t s

section
variable {parse : Bytes → Scan (Json × Bytes)} (hparse : Quotes parse)
include hparse

theorem parseItems_quotes {n : ℕ} {s rest : Bytes} {items : List Json}
    (h : parseItems parse n s = .ok (items, rest)) :
    rest <:+ s ∧ ∀ v ∈ items, ∀ t, v.HasString t → StandsIn t s := by
  induction n generalizing s items with
  | zero => cases h
  | succ n ih =>
    obtain ⟨⟨item, s₁⟩, hitem, h⟩ := bind_eq_ok h
    obtain ⟨⟨c, s₂⟩, hlook, h⟩ := bind_eq_ok h
    obtain ⟨hs₁, hstrings⟩ := hparse s item s₁ hitem
    have hs₂ : s₂ <:+ s := ((look_suffix hlook).trans (skipWhitespaces_suffix s₁)).trans hs₁
    dsimp only at h
    split_ifs at h with hcomma hend
    · obtain ⟨⟨items', s₃⟩, hitems, h⟩ := bind_eq_ok h
      cases h
      obtain ⟨hrest, hothers⟩ := ih hitems
      have hs₃ := (skipWhitespaces_suffix s₂).trans hs₂
      refine ⟨hrest.trans hs₃, List.forall_mem_cons.mpr ⟨hstrings, ?_⟩⟩
      exact fun v hv t ht => (hothers v hv t ht).mono hs₃
    · cases h
      exact ⟨hs₂, List.forall_mem_singleton.mpr hstrings⟩

theorem parseMembers_quotes {n : ℕ} {s rest : Bytes} {members members' : List (Bytes × Json)}
    (h : parseMembers parse n members s = .ok (members', rest)) :
    rest <:+ s ∧ ∀ m ∈ members', m ∉ members → ∀ t, m.2.HasString t → StandsIn t s := by
  induction n generalizing s members with
  | zero => cases h
  | succ n ih =>
    obtain ⟨⟨name, s₁⟩, hname, h⟩ := bind_eq_ok h
    obtain ⟨⟨c, s₂⟩, hcolon, h⟩ := bind_eq_ok h
    have hs₂ : s₂ <:+ s :=
      ((look_suffix hcolon).trans (skipWhitespaces_suffix s₁)).trans (getQuotedString_standsIn hname).1
    dsimp only at h
    split_ifs at h with hc hnew
    · obtain ⟨-, -, h⟩ := bind_eq_ok h
      cases h
    obtain ⟨⟨value, s₃⟩, hvalue, h⟩ := bind_eq_ok h
    obtain ⟨hs₃, hstrings⟩ := hparse s₂ value s₃ hvalue
    obtain ⟨⟨c', s₄⟩, hlook, h⟩ := bind_eq_ok h
    have hs₄ : s₄ <:+ s := ((look_suffix hlook).trans (skipWhitespaces_suffix s₃)).trans (hs₃.trans hs₂)
    -- the new member is the only one of this round
    have hround : ∀ m ∈ members ++ [(name, value)], m ∉ members → ∀ t, m.2.HasString t → StandsIn t s := by
      intro m hm hnot t ht
      obtain rfl := List.mem_singleton.mp ((List.mem_append.mp hm).resolve_left hnot)
      exact (hstrings t ht).mono hs₂
    dsimp only at h
    split_ifs at h with hcomma hend
    · obtain ⟨hrest, hothers⟩ := ih h
      have hs₅ := (skipWhitespaces_suffix s₄).trans hs₄
      refine ⟨hrest.trans hs₅, fun m hm hnot t ht => ?_⟩
      by_cases hmem : m ∈ members ++ [(name, value)]
      · exact hround m hmem hnot t ht
      · exact (hothers m hm hmem t ht).mono hs₅
    · cases h
      exact ⟨hs₄, hround⟩

theorem parseArrayValue_quotes : Quotes (parseArrayValue parse) := by
  intro s v rest h
  obtain ⟨⟨c, s'⟩, hlook, h⟩ := bind_eq_ok h
  have hs' := (look_suffix hlook).trans (skipWhitespaces_suffix s)
  dsimp only at h
  split_ifs at h with hend
  · cases h
    refine ⟨hs', fun t ht => ?_⟩
    cases ht with
    | item hv _ => exact absurd hv List.not_mem_nil
  · obtain ⟨⟨items, s''⟩, hitems, h⟩ := bind_eq_ok h
    cases h
    obtain ⟨hrest, hstrings⟩ := parseItems_quotes hparse hitems
    refine ⟨hrest.trans (skipWhitespaces_suffix s), fun t ht => ?_⟩
    cases ht with
    | item hv ht => exact (hstrings _ hv t ht).mono (skipWhitespaces_suffix s)

theorem parseObjectValue_quotes : Quotes (parseObjectValue parse) := by
  intro s v rest h
  obtain ⟨⟨c, s'⟩, hlook, h⟩ := bind_eq_ok h
  have hs' := (look_suffix hlook).trans (skipWhitespaces_suffix s)
  dsimp only at h
  split_ifs at h with hend
  · cases h
    refine ⟨hs', fun t ht => ?_⟩
    cases ht with
    | member hm _ => exact absurd hm List.not_mem_nil
  · obtain ⟨⟨members, s''⟩, hmembers, h⟩ := bind_eq_ok h
    cases h
    obtain ⟨hrest, hstrings⟩ := parseMembers_quotes hparse hmembers
    refine ⟨hrest.trans (skipWhitespaces_suffix s), fun t ht => ?_⟩
    cases ht with
    | member hm ht => exact (hstrings _ hm List.not_mem_nil t ht).mono (skipWhitespaces_suffix s)

end

theorem parseStringValue_quotes : Quotes parseStringValue := by
  intro s v rest h
  obtain ⟨⟨text, s'⟩, htext, h⟩ := bind_eq_ok h
  cases h
  obtain ⟨hrest, hstands⟩ := getQuotedString_standsIn htext
  refine ⟨hrest, fun t ht => ?_⟩
  cases ht with
  | string => exact hstands

theorem parseBooleanValue_quotes : Quotes parseBooleanValue := by
  intro s v rest h
  have hnone (b : Bool) (t : Bytes) (ht : (Json.boolean b).HasString t) : StandsIn t s := by
    cases ht
  rw [parseBooleanValue] at h
  cases htrue : skipToken (str "true") s with
  | ok s' =>
    rw [htrue] at h
    cases h
    exact ⟨skipToken_suffix htrue, hnone true⟩
  | error e =>
    rw [htrue] at h
    cases e with
    | fault => cases h
    | null =>
      obtain ⟨s', hfalse, hpair⟩ := map_eq_ok h
      cases hpair
      exact ⟨skipToken_suffix hfalse, hnone false⟩

theorem parseNumberValue_quotes (libc : Libc) : Quotes (parseNumberValue libc) := by
  intro s v rest h
  obtain ⟨⟨number, len⟩, -, h⟩ := bind_eq_ok h
  dsimp only at h
  split_ifs at h
  cases h
  refine ⟨List.drop_suffix _ _, fun t ht => ?_⟩
  cases ht

theorem parseNullValue_quotes : Quotes parseNullValue := by
  intro s v rest h
  obtain ⟨s', hnull, hpair⟩ := map_eq_ok h
  cases hpair
  refine ⟨skipToken_suffix hnull, fun t ht => ?_⟩
  cases ht

/-- By induction on the levels. -/
theorem parseValue_quotes (libc : Libc) (levels : ℕ) : Quotes (parseValue libc levels) := by
  induction levels with
  | zero =>
    intro s v rest h
    cases h
  | succ levels ih =>
    intro s v rest h
    have hspace := skipWhitespaces_suffix s
    obtain ⟨⟨c, s'⟩, hlook, h⟩ := bind_eq_ok h
    have hs' := (look_suffix hlook).trans hspace
    have hscan {parse : Bytes → Scan (Json × Bytes)} (hparse : Quotes parse) {s₁ : Bytes} (hs₁ : s₁ <:+ s)
        (h : parse s₁ = .ok (v, rest)) : rest <:+ s ∧ ∀ t, v.HasString t → StandsIn t s := by
      obtain ⟨hrest, hstrings⟩ := hparse s₁ v rest h
      exact ⟨hrest.trans hs₁, fun t ht => (hstrings t ht).mono hs₁⟩
    dsimp only at h
    split_ifs at h with hobject harray hstring hboolean hnumber hnull
    · exact hscan (parseObjectValue_quotes ih) hs' h
    · exact hscan (parseArrayValue_quotes ih) hs' h
    · exact hscan parseStringValue_quotes hspace h
    · exact hscan parseBooleanValue_quotes hspace h
    · exact hscan (parseNumberValue_quotes libc) hspace h
    · exact hscan parseNullValue_quotes hspace h

/-- Every string of a value that parson returns stands in its text. -/
theorem jsonParseString_standsIn {libc : Libc} {s t : Bytes} {v : Json} (h : jsonParseString libc s = .ok v)
    (ht : v.HasString t) : StandsIn t s := by
  rw [jsonParseString] at h
  have hread {s' : Bytes} (hs' : s' <:+ s)
      (h : (parseValue libc (maxNesting+1) s' >>= fun r => pure r.1) = .ok v) : StandsIn t s := by
    obtain ⟨⟨w, rest⟩, hw, h⟩ := bind_eq_ok h
    cases h
    exact ((parseValue_quotes libc _ s' w rest hw).2 t ht).mono hs'
  cases hmark : skipToken [0xef, 0xbb, 0xbf] s with
  | ok s' =>
    rw [hmark] at h
    exact hread (skipToken_suffix hmark) h
  | error e =>
    rw [hmark] at h
    cases e with
    | null => exact hread List.suffix_rfl h
    | fault => cases h

end SecureChaincode
