import SecureChaincode.FoldExcept
import SecureChaincode.JsonTexts
import SecureChaincode.ShimRuns

/-! Strings on their way through parson: what it returns is a C string, and a C string that it
has printed is read back. -/
namespace SecureChaincode

theorem getQuotedString_no_nul {s t rest : Bytes} (h : getQuotedString s = .ok (t, rest)) :
    (0 : UInt8) ∉ t := by
  obtain ⟨⟨c, s'⟩, -, h⟩ := bind_eq_ok h
  dsimp only at h
  split_ifs at h with hc
  obtain ⟨⟨text, behind⟩, -, h⟩ := bind_eq_ok h
  obtain ⟨w, -, h⟩ := bind_eq_ok h
  cases h
  exact zero_notMem_cstr w

theorem skipToken_map_eq_ok {token s rest : Bytes} {v w : Json}
    (h : (skipToken token s).map (fun s => (v, s)) = .ok (w, rest)) : w = v := by
  cases hs : skipToken token s with
  | error e =>
    rw [hs] at h
    cases h
  | ok s' =>
    rw [hs] at h
    cases h
    rfl

/-- What a value can be: an array or a string of a text, or something else. -/
theorem parseValue_cases {libc : Libc} {levels : ℕ} {s rest : Bytes} {v : Json}
    (h : parseValue libc (levels+1) s = .ok (v, rest)) :
    (∃ s', parseArrayValue (parseValue libc levels) s' = .ok (v, rest)) ∨
      (∃ s', parseStringValue s' = .ok (v, rest)) ∨
      (∀ items, v ≠ .array items) ∧ ∀ t, v ≠ .string t := by
  obtain ⟨⟨c, s'⟩, -, h⟩ := bind_eq_ok h
  dsimp only at h
  split_ifs at h with hobject harray hstring hboolean hnumber hnull
  · -- objects
    right; right
    obtain ⟨⟨c', s''⟩, -, h⟩ := bind_eq_ok h
    dsimp only at h
    split_ifs at h with hend
    · cases h
      exact ⟨nofun, nofun⟩
    · obtain ⟨r, -, h⟩ := bind_eq_ok h
      cases h
      exact ⟨nofun, nofun⟩
  · exact Or.inl ⟨s', h⟩
  · exact Or.inr (Or.inl ⟨_, h⟩)
  · right; right
    rw [parseBooleanValue] at h
    split at h
    · cases h
      exact ⟨nofun, nofun⟩
    · cases h
    · rw [skipToken_map_eq_ok h]
      exact ⟨nofun, nofun⟩
  · right; right
    obtain ⟨r, -, h⟩ := bind_eq_ok h
    dsimp only at h
    split_ifs at h
    cases h
    exact ⟨nofun, nofun⟩
  · right; right
    rw [skipToken_map_eq_ok h]
    exact ⟨nofun, nofun⟩

theorem parseArrayValue_ne_string {parse : Bytes → Scan (Json × Bytes)} {s t rest : Bytes} :
    parseArrayValue parse s ≠ .ok (.string t, rest) := by
  intro h
  obtain ⟨⟨c, s'⟩, -, h⟩ := bind_eq_ok h
  dsimp only at h
  split_ifs at h with hend
  · cases h
  · obtain ⟨r, -, h⟩ := bind_eq_ok h
    cases h

theorem parseValue_string_no_nul {libc : Libc} {levels : ℕ} {s t rest : Bytes}
    (h : parseValue libc levels s = .ok (.string t, rest)) : (0 : UInt8) ∉ t := by
  cases levels with
  | zero => cases h
  | succ levels =>
    rcases parseValue_cases h with ⟨s', harray⟩ | ⟨s', hstring⟩ | ⟨-, hother⟩
    · exact absurd harray parseArrayValue_ne_string
    · obtain ⟨r, hr, hstring⟩ := bind_eq_ok hstring
      cases hstring
      exact getQuotedString_no_nul hr
    · exact absurd rfl (hother t)

/-- Every item of an array was read as a value. -/
theorem parseItems_mem {parse : Bytes → Scan (Json × Bytes)} {n : ℕ} {s rest : Bytes} {items : List Json}
    (h : parseItems parse n s = .ok (items, rest)) {item : Json} (hi : item ∈ items) :
    ∃ s' rest', parse s' = .ok (item, rest') := by
  induction n generalizing s items rest with
  | zero => cases h
  | succ n ih =>
    obtain ⟨⟨first, s'⟩, hfirst, h⟩ := bind_eq_ok h
    obtain ⟨⟨c, s''⟩, -, h⟩ := bind_eq_ok h
    dsimp only at h
    split_ifs at h with hcomma hend
    · obtain ⟨⟨others, r⟩, hothers, h⟩ := bind_eq_ok h
      cases h
      rcases List.mem_cons.mp hi with rfl | hi
      · exact ⟨s, s', hfirst⟩
      · exact ih hothers hi
    · cases h
      obtain rfl := List.mem_singleton.mp hi
      exact ⟨s, s', hfirst⟩

theorem parseValue_array_mem {libc : Libc} {levels : ℕ} {s rest : Bytes} {items : List Json}
    (h : parseValue libc (levels+1) s = .ok (.array items, rest)) {item : Json} (hi : item ∈ items) :
    ∃ s' rest', parseValue libc levels s' = .ok (item, rest') := by
  rcases parseValue_cases h with ⟨s', h⟩ | ⟨s', hstring⟩ | ⟨hother, -⟩
  · obtain ⟨⟨c, s''⟩, -, h⟩ := bind_eq_ok h
    dsimp only at h
    split_ifs at h with hend
    · cases h
      cases hi
    · obtain ⟨r, hr, h⟩ := bind_eq_ok h
      cases h
      exact parseItems_mem hr hi
  · obtain ⟨r, -, hstring⟩ := bind_eq_ok hstring
    cases hstring
  · exact absurd rfl (hother items)

theorem jsonParseString_eq_ok {libc : Libc} {s : Bytes} {v : Json} (h : jsonParseString libc s = .ok v) :
    ∃ s' rest, parseValue libc (maxNesting+1) s' = .ok (v, rest) := by
  have hread {s' : Bytes} (h : (parseValue libc (maxNesting+1) s' >>= fun r => pure r.1) = .ok v) :
      ∃ s' rest, parseValue libc (maxNesting+1) s' = .ok (v, rest) := by
    obtain ⟨⟨w, rest⟩, hw, h⟩ := bind_eq_ok h
    cases h
    exact ⟨s', rest, hw⟩
  rw [jsonParseString] at h
  -- with a byte order mark, without one, and a text that ends in it
  split at h
  · exact hread h
  · exact hread h
  · cases h

theorem mapM_some_mem {α β : Type} {f : α → Option β} {l : List α} {bs : List β} (h : l.mapM f = some bs)
    {b : β} (hb : b ∈ bs) : ∃ a ∈ l, f a = some b := by
  induction l generalizing bs with
  | nil =>
    cases h
    cases hb
  | cons a l ih =>
    rw [List.mapM_cons] at h
    obtain ⟨b', ha, h⟩ := Option.bind_eq_some_iff.mp h
    obtain ⟨bs', hl, h⟩ := Option.bind_eq_some_iff.mp h
    cases h
    rcases List.mem_cons.mp hb with rfl | hb
    · exact ⟨a, List.mem_cons_self, ha⟩
    · obtain ⟨a', ha', hf⟩ := ih hl hb
      exact ⟨a', List.mem_cons_of_mem a ha', hf⟩

/-- The arguments of an invocation are C strings. -/
theorem unmarshalArgs_no_nul {libc : Libc} {args : Bytes} {argss : List Bytes}
    (h : unmarshalArgs libc args = some argss) {a : Bytes} (ha : a ∈ argss) : (0 : UInt8) ∉ a := by
  rw [unmarshalArgs] at h
  cases hparse : jsonParseString libc (cstr args ++ [0]) with
  | error e =>
    rw [hparse] at h
    cases e with
    | null =>
      cases h
      cases ha
    | fault => cases h
  | ok root =>
    rw [hparse] at h
    cases root with
    | array items =>
      -- the argument is one of the items
      have hitems : items.mapM (fun item => Json.getString (some item)) = some argss := h
      obtain ⟨item, hitem, hstring⟩ := mapM_some_mem hitems ha
      obtain ⟨s, rest, hroot⟩ := jsonParseString_eq_ok hparse
      obtain ⟨s', rest', hvalue⟩ := parseValue_array_mem hroot hitem
      cases item with
      | string t =>
        cases hstring
        exact parseValue_string_no_nul hvalue
      | _ => cases hstring
    | _ =>
      cases h
      cases ha

/-! Escapes. -/

theorem hexDigits_of_control {c : UInt8} (hc : c < 0x20) :
    let d1 : UInt8 := if c < 0x10 then 0x30 else 0x31
    let d2 := (str "0123456789abcdef").getD (c.toNat%16) 0
    PlainByte d1 ∧ PlainByte d2 ∧ parseUtf16Hex 0x30 0x30 d1 d2 = some c.toNat := by
  have hall : ∀ n < 32,
      let c := UInt8.ofNat n
      let d1 : UInt8 := if c < 0x10 then 0x30 else 0x31
      let d2 := (str "0123456789abcdef").getD (c.toNat%16) 0
      PlainByte d1 ∧ PlainByte d2 ∧ parseUtf16Hex 0x30 0x30 d1 d2 = some c.toNat := by decide
  have hc' := hall c.toNat (UInt8.lt_iff_toNat_lt.mp hc)
  rwa [UInt8.ofNat_toNat] at hc'

/-- The three ways in which a byte is printed. -/
theorem escape_cases {c : UInt8} :
    PlainByte c ∧ escape c = [c] ∨
      (∃ e, e ≠ 0 ∧ e ≠ 0x75 ∧ unescape e = some c ∧ escape c = [0x5c, e]) ∨
      ∃ d1 d2, PlainByte d1 ∧ PlainByte d2 ∧ parseUtf16Hex 0x30 0x30 d1 d2 = some c.toNat ∧ c.toNat < 0x20 ∧
        escape c = [0x5c, 0x75, 0x30, 0x30, d1, d2] := by
  rw [escape]
  split_ifs with hself hb hf hn hr ht hcontrol hlow
  · right; left
    refine ⟨c, ?_, ?_, if_pos hself, rfl⟩
    · rcases hself with rfl | rfl | rfl <;> decide
    · rcases hself with rfl | rfl | rfl <;> decide
  · subst hb
    exact Or.inr (Or.inl ⟨0x62, by decide, by decide, by decide, rfl⟩)
  · subst hf
    exact Or.inr (Or.inl ⟨0x66, by decide, by decide, by decide, rfl⟩)
  · subst hn
    exact Or.inr (Or.inl ⟨0x6e, by decide, by decide, by decide, rfl⟩)
  · subst hr
    exact Or.inr (Or.inl ⟨0x72, by decide, by decide, by decide, rfl⟩)
  · subst ht
    exact Or.inr (Or.inl ⟨0x74, by decide, by decide, by decide, rfl⟩)
  · obtain ⟨h1, h2, hhex⟩ := hexDigits_of_control hcontrol
    rw [if_pos hlow] at h1 hhex
    exact Or.inr (Or.inr ⟨_, _, h1, h2, hhex, UInt8.lt_iff_toNat_lt.mp hcontrol, rfl⟩)
  · obtain ⟨h1, h2, hhex⟩ := hexDigits_of_control hcontrol
    rw [if_neg hlow] at h1 hhex
    exact Or.inr (Or.inr ⟨_, _, h1, h2, hhex, UInt8.lt_iff_toNat_lt.mp hcontrol, rfl⟩)
  · left
    push Not at hself
    exact ⟨⟨UInt8.not_lt.mp hcontrol, hself.1, hself.2.1⟩, rfl⟩

theorem skipQuotes_plain_cons {c : UInt8} (hc : PlainByte c) (s : Bytes) :
    skipQuotes (c :: s) = (skipQuotes s).map (fun r => (c :: r.1, r.2)) := by
  rw [skipQuotes.eq_def]
  simp only [if_neg hc.2.1, if_neg hc.ne_zero, if_neg hc.2.2]

theorem skipQuotes_backslash {e : UInt8} (he : e ≠ 0) (s : Bytes) :
    skipQuotes (0x5c :: e :: s) = (skipQuotes s).map (fun r => (0x5c :: e :: r.1, r.2)) := by
  rw [skipQuotes.eq_def]
  simp only [if_neg he]
  rfl

/-- An escape does not end the string. -/
theorem skipQuotes_escape (c : UInt8) (s : Bytes) :
    skipQuotes (escape c ++ s) = (skipQuotes s).map (fun r => (escape c ++ r.1, r.2)) := by
  rcases escape_cases (c := c) with ⟨hc, hesc⟩ | ⟨e, he, -, -, hesc⟩ | ⟨d1, d2, h1, h2, -, -, hesc⟩
  · rw [hesc]
    exact skipQuotes_plain_cons hc s
  · rw [hesc]
    exact skipQuotes_backslash he s
  · rw [hesc]
    have hzero : PlainByte 0x30 := by decide
    simp only [List.cons_append, List.nil_append]
    rw [skipQuotes_backslash (by decide), skipQuotes_plain_cons hzero, skipQuotes_plain_cons hzero,
      skipQuotes_plain_cons h1, skipQuotes_plain_cons h2]
    cases skipQuotes s <;> rfl

/-- And it is undone. -/
theorem processString_escape (behind : Bytes) (c : UInt8) (s : Bytes) :
    processString behind (escape c ++ s) = (processString behind s).map (c :: ·) := by
  rcases escape_cases (c := c) with ⟨hc, hesc⟩ | ⟨e, -, hu, hunescape, hesc⟩ | ⟨d1, d2, -, -, hhex, hlt, hesc⟩
  · rw [hesc, List.singleton_append, processString.eq_def]
    simp only [if_neg hc.2.2, if_neg (UInt8.not_lt.mpr hc.1)]
  · rw [hesc]
    simp only [List.cons_append, List.nil_append]
    rw [processString.eq_def]
    simp only [if_neg hu, hunescape]
    rfl
  · have hbytes : utf8Bytes c.toNat = [c] := by
      have hascii : c.toNat < 0x80 := by omega
      rw [utf8Bytes, if_pos hascii, Nat.toUInt8_eq, UInt8.ofNat_toNat]
    have hscalar : c.toNat < 0xd800 ∨ 0xdfff < c.toNat := by omega
    rw [hesc]
    simp only [List.cons_append, List.nil_append]
    rw [processString.eq_def]
    simp only [hhex, if_pos hscalar, hbytes]
    rfl

theorem length_utf8Bytes_le (cp : ℕ) : (utf8Bytes cp).length ≤ 4 := by
  rw [utf8Bytes]
  split_ifs
  all_goals
    simp only [List.length_cons, List.length_nil]
    omega

/-- A text stands for no more bytes than it has, and for fewer if it has an escape. -/
theorem length_processString {behind r w : Bytes} (h : processString behind r = .ok w) :
    w.length ≤ r.length ∧ (0x5c ∈ r → w.length < r.length) := by
  fun_induction processString behind r generalizing w with
  | case1 =>
    cases h
    exact ⟨le_rfl, fun hmem => absurd hmem List.not_mem_nil⟩
  | case4 x1 x2 x3 x4 s cp _ _ ih =>
    obtain ⟨w', hw, rfl⟩ := map_eq_ok h
    have hle := (ih hw).1
    have hbytes := length_utf8Bytes_le cp
    simp only [List.length_append, List.length_cons]
    omega
  | case7 x1 x2 x3 x4 cp _ _ _ b u _ y1 y2 y3 y4 s trail _ _ ih =>
    obtain ⟨w', hw, hcons⟩ := map_eq_ok h
    have hle := (ih hw).1
    have hbytes := length_utf8Bytes_le ((cp-0xd800)*0x400+(trail-0xdc00)+0x10000)
    rw [hcons]
    simp only [List.length_append, List.length_cons]
    omega
  | case13 e s _ b _ ih =>
    obtain ⟨w', hw, rfl⟩ := map_eq_ok h
    have hle := (ih hw).1
    simp only [List.length_cons]
    omega
  | case16 c s hescape _ ih =>
    obtain ⟨w', hw, rfl⟩ := map_eq_ok h
    obtain ⟨hle, hlt⟩ := ih hw
    refine ⟨Nat.succ_le_succ hle, fun hmem => Nat.succ_lt_succ (hlt ?_)⟩
    exact (List.mem_cons.mp hmem).resolve_left (fun he => hescape he.symm)
  | _ => cases h

theorem skipQuotes_flatMap_escape (w rest : Bytes) :
    skipQuotes (w.flatMap escape ++ 0x22 :: rest) = .ok (w.flatMap escape, rest) := by
  induction w with
  | nil =>
    rw [List.flatMap_nil, List.nil_append, skipQuotes.eq_def]
    rfl
  | cons c w ih =>
    rw [List.flatMap_cons, List.append_assoc, skipQuotes_escape, ih]
    rfl

theorem processString_flatMap_escape (behind w : Bytes) :
    processString behind (w.flatMap escape) = .ok w := by
  induction w with
  | nil => rfl
  | cons c w ih =>
    rw [List.flatMap_cons, processString_escape, ih]
    rfl

theorem getQuotedString_jsonSerializeString {w : Bytes} (rest : Bytes) (hw : (0 : UInt8) ∉ w) :
    getQuotedString (jsonSerializeString w ++ rest) = .ok (w, rest) := by
  have htext : jsonSerializeString w ++ rest = 0x22 :: (w.flatMap escape ++ 0x22 :: rest) := by
    simp [jsonSerializeString, str]
  rw [htext, getQuotedString, look]
  simp only [bind, Except.bind, if_pos, skipQuotes_flatMap_escape, processString_flatMap_escape]
  rw [cstr_eq_self hw]
  rfl

/-- A C string is read as it was printed. -/
theorem reads_jsonSerializeString (libc : Libc) (levels : ℕ) {w : Bytes} (hw : (0 : UInt8) ∉ w) :
    Reads (parseValue libc (levels+1)) (jsonSerializeString w) (.string w) := by
  refine ⟨⟨0x22, _, rfl, by decide, by decide⟩, ?_⟩
  intro rest
  have hstring : parseValue libc (levels+1) (jsonSerializeString w ++ rest) =
      parseStringValue (jsonSerializeString w ++ rest) := rfl
  rw [hstring, parseStringValue, getQuotedString_jsonSerializeString rest hw]
  rfl

end SecureChaincode
