import SecureChaincode.AuctionRecords
import SecureChaincode.JsonSerializer

/-! What parson has parsed and printed again, compact or pretty, it parses to the same value. -/
namespace SecureChaincode

/-! White space between the parts of a text. -/

theorem skipWhitespaces_append {g : Bytes} (hg : ∀ c ∈ g, isspace c = true) (s : Bytes) :
    skipWhitespaces (g ++ s) = skipWhitespaces s := by
  induction g with
  | nil => rfl
  | cons c g ih =>
    obtain ⟨hc, hg⟩ := List.forall_mem_cons.mp hg
    rw [List.cons_append, skipWhitespaces, List.dropWhile_cons_of_pos hc]
    exact ih hg

theorem parseValue_append_space (libc : Libc) (levels : ℕ) {g : Bytes} (hg : ∀ c ∈ g, isspace c = true)
    (s : Bytes) : parseValue libc levels (g ++ s) = parseValue libc levels s := by
  cases levels with
  | zero => rfl
  | succ levels => rw [parseValue, parseValue, skipWhitespaces_append hg]

theorem isspace_of_mem_lineBreak {isPretty : Bool} {level : ℕ} {c : UInt8}
    (hc : c ∈ lineBreak isPretty level) : isspace c = true := by
  cases isPretty with
  | false => cases hc
  | true =>
    rcases List.mem_cons.mp hc with rfl | hc
    · decide
    · rw [List.eq_of_mem_replicate hc]
      decide

/-- The bytes that the serializer puts behind a value. -/
def EndsValue (c : UInt8) : Prop := c = 0x2c ∨ c = 0x5d ∨ c = 0x7d ∨ c = 0x0a ∨ c = 0

/-- In front of a closing bracket there is a line break or nothing. -/
theorem lineBreak_endsValue (isPretty : Bool) (level : ℕ) {c : UInt8} (hc : EndsValue c) (rest : Bytes) :
    ∃ c' s, lineBreak isPretty level ++ c :: rest = c' :: s ∧ EndsValue c' := by
  cases isPretty with
  | false => exact ⟨c, rest, rfl, hc⟩
  | true => exact ⟨0x0a, _, rfl, Or.inr (Or.inr (Or.inr (Or.inl rfl)))⟩

/-- The parser reads the text as the value, up to a byte that may follow. The text has no
white space, closing bracket or byte order mark in front. -/
structure ReadsUpTo (parse : Bytes → Scan (Json × Bytes)) (text : Bytes) (value : Json) : Prop where
  head : ∃ c s, text = c :: s ∧ isspace c = false ∧ c ≠ 0x5d ∧ c ≠ 0xef
  read : ∀ (c : UInt8) (rest : Bytes), EndsValue c → parse (text ++ c :: rest) = .ok (value, c :: rest)

section
variable {parse : Bytes → Scan (Json × Bytes)} (isPretty : Bool) (level : ℕ)

theorem ReadsUpTo.skip {text : Bytes} {value : Json} (h : ReadsUpTo parse text value) (rest : Bytes) :
    skipWhitespaces (text ++ rest) = text ++ rest := by
  obtain ⟨c, s, rfl, hc, -, -⟩ := h.head
  rw [List.cons_append, skipWhitespaces_cons hc]

/-- The texts behind the first, each with its comma and its line. -/
def furtherTexts (isPretty : Bool) (level : ℕ) (ts : List Bytes) : Bytes :=
  ts.flatMap (fun t => 0x2c :: (lineBreak isPretty level ++ t))

theorem length_le_furtherTexts (ts : List Bytes) : ts.length ≤ (furtherTexts isPretty level ts).length := by
  induction ts with
  | nil => exact Nat.le_refl 0
  | cons t ts ih =>
    rw [furtherTexts, List.flatMap_cons, List.length_append, List.length_cons, List.length_cons]
    rw [furtherTexts] at ih
    omega

/-- One round for every item, and the break in front of the bracket is skipped. -/
theorem parseItems_readsUpTo {p : Bytes × Json} {items : List (Bytes × Json)}
    (hp : ReadsUpTo parse p.1 p.2) (h : ∀ q ∈ items, ReadsUpTo parse q.1 q.2) (rest : Bytes) {n : ℕ}
    (hn : items.length < n) :
    parseItems parse n (p.1 ++ (furtherTexts isPretty (level+1) (items.map Prod.fst) ++
        (lineBreak isPretty level ++ 0x5d :: rest))) =
      .ok (p.2 :: items.map Prod.snd, rest) := by
  obtain ⟨n, rfl⟩ := Nat.exists_eq_succ_of_ne_zero (Nat.ne_zero_of_lt hn)
  induction items generalizing n p with
  | nil =>
    obtain ⟨c, s, hs, hc⟩ := lineBreak_endsValue isPretty level (c := 0x5d) (Or.inr (Or.inl rfl)) rest
    have hread : parse (p.1 ++ (lineBreak isPretty level ++ 0x5d :: rest)) =
        .ok (p.2, lineBreak isPretty level ++ 0x5d :: rest) := by
      rw [hs]
      exact hp.read c s hc
    have hskip : skipWhitespaces (lineBreak isPretty level ++ 0x5d :: rest) = 0x5d :: rest := by
      rw [skipWhitespaces_append (fun _ => isspace_of_mem_lineBreak)]
      exact skipWhitespaces_cons (by decide) rest
    rw [List.map_nil, furtherTexts, List.flatMap_nil, List.nil_append, parseItems, hread]
    simp only [bind, Except.bind, hskip, look]
    rfl
  | cons q items ih =>
    have hn' : items.length < n := Nat.lt_of_succ_lt_succ hn
    obtain ⟨m, rfl⟩ := Nat.exists_eq_succ_of_ne_zero (Nat.ne_zero_of_lt hn')
    obtain ⟨hq, hitems⟩ := List.forall_mem_cons.mp h
    -- behind the comma the remaining items are read in the same way
    have htail := ih hq hitems m hn'
    have htext : furtherTexts isPretty (level+1) ((q :: items).map Prod.fst) ++
          (lineBreak isPretty level ++ 0x5d :: rest) =
        0x2c :: (lineBreak isPretty (level+1) ++ (q.1 ++ (furtherTexts isPretty (level+1) (items.map Prod.fst) ++
          (lineBreak isPretty level ++ 0x5d :: rest)))) := by
      simp only [furtherTexts, List.map_cons, List.flatMap_cons, List.cons_append, List.append_assoc]
    have hskip (s : Bytes) : skipWhitespaces (lineBreak isPretty (level+1) ++ (q.1 ++ s)) = q.1 ++ s := by
      rw [skipWhitespaces_append (fun _ => isspace_of_mem_lineBreak), hq.skip]
    rw [htext, parseItems, hp.read 0x2c _ (Or.inl rfl)]
    simp only [bind, Except.bind, skipWhitespaces_cons (c := 0x2c) (by decide), look, if_pos, hskip, htail]
    rfl

/-- One member, up to the loop's decision what comes next. -/
theorem parseMembers_member (libc : Libc) (levels : ℕ) {name text : Bytes} {value : Json}
    (hname : (0 : UInt8) ∉ name) {rest : Bytes}
    (hread : parseValue libc levels (text ++ rest) = .ok (value, rest)) {members : List (Bytes × Json)}
    (hnew : name ∉ members.map Prod.fst) (n : ℕ) :
    parseMembers (parseValue libc levels) (n+1) members (memberText isPretty name text ++ rest) = (do
      let (c, s) ← look (skipWhitespaces rest)
      if c = 0x2c then parseMembers (parseValue libc levels) n (members ++ [(name, value)]) (skipWhitespaces s)
      else if c = 0x7d then return (members ++ [(name, value)], s)
      else .error .null) := by
  have hblank : ∀ c ∈ (if isPretty then [0x20] else [] : Bytes), isspace c = true := by
    intro c hc
    cases isPretty with
    | false => cases hc
    | true =>
      rw [List.mem_singleton.mp hc]
      decide
  have hcolon (s : Bytes) : skipWhitespaces (0x3a :: s) = 0x3a :: s := skipWhitespaces_cons (by decide) s
  have hno : members.any (fun p => p.1 == name) = false := by
    rw [List.any_eq_false]
    intro p hp he
    exact hnew (List.mem_map.mpr ⟨p, hp, beq_iff_eq.mp he⟩)
  rw [parseMembers, memberText, List.append_assoc, getQuotedString_jsonSerializeString _ hname]
  simp only [bind, Except.bind, List.cons_append, List.append_assoc, hcolon, look, if_pos,
    parseValue_append_space libc levels hblank, hread, hno, Bool.false_eq_true, if_false]

theorem skip_memberText (name text rest : Bytes) :
    skipWhitespaces (memberText isPretty name text ++ rest) = memberText isPretty name text ++ rest :=
  skipWhitespaces_cons (by decide) _

/-- A member is its name, the text of its value, and the value. -/
theorem parseMembers_readsUpTo {libc : Libc} {levels : ℕ} {m : Member} {ms : List Member}
    (h : ∀ m' ∈ m :: ms, (0 : UInt8) ∉ m'.name ∧ ReadsUpTo (parseValue libc levels) m'.text m'.value)
    {members : List (Bytes × Json)} (hnew : (members.map Prod.fst ++ (m :: ms).map Member.name).Nodup)
    (rest : Bytes) {n : ℕ} (hn : ms.length < n) :
    parseMembers (parseValue libc levels) n members
        (memberText isPretty m.name m.text ++
          (furtherTexts isPretty (level+1) (ms.map (fun m => memberText isPretty m.name m.text)) ++
            (lineBreak isPretty level ++ 0x7d :: rest))) =
      .ok (members ++ (m :: ms).map Member.pair, rest) := by
  obtain ⟨n, rfl⟩ := Nat.exists_eq_succ_of_ne_zero (Nat.ne_zero_of_lt hn)
  induction ms generalizing n m members with
  | nil =>
    obtain ⟨hname, hm⟩ := h m List.mem_cons_self
    obtain ⟨c, s, hs, hc⟩ := lineBreak_endsValue isPretty level (c := 0x7d) (Or.inr (Or.inr (Or.inl rfl))) rest
    have hread : parseValue libc levels (m.text ++ (lineBreak isPretty level ++ 0x7d :: rest)) =
        .ok (m.value, lineBreak isPretty level ++ 0x7d :: rest) := by
      rw [hs]
      exact hm.read c s hc
    have hfresh : m.name ∉ members.map Prod.fst :=
      fun hmem => (List.nodup_append.mp hnew).2.2 _ hmem _ List.mem_cons_self rfl
    have hskip : skipWhitespaces (lineBreak isPretty level ++ 0x7d :: rest) = 0x7d :: rest := by
      rw [skipWhitespaces_append (fun _ => isspace_of_mem_lineBreak)]
      exact skipWhitespaces_cons (by decide) rest
    rw [List.map_nil, furtherTexts, List.flatMap_nil, List.nil_append,
      parseMembers_member isPretty libc levels hname hread hfresh, hskip]
    rfl
  | cons m' ms ih =>
    have hn' : ms.length < n := Nat.lt_of_succ_lt_succ hn
    obtain ⟨k, rfl⟩ := Nat.exists_eq_succ_of_ne_zero (Nat.ne_zero_of_lt hn')
    obtain ⟨⟨hname, hm⟩, hms⟩ := List.forall_mem_cons.mp h
    have hfresh : m.name ∉ members.map Prod.fst :=
      fun hmem => (List.nodup_append.mp hnew).2.2 _ hmem _ List.mem_cons_self rfl
    have hnew' : ((members ++ [m.pair]).map Prod.fst ++ (m' :: ms).map Member.name).Nodup := by
      simpa [Member.pair] using hnew
    have htail := ih hms hnew' k hn'
    have htext : furtherTexts isPretty (level+1)
            ((m' :: ms).map (fun m => memberText isPretty m.name m.text)) ++
          (lineBreak isPretty level ++ 0x7d :: rest) =
        0x2c :: (lineBreak isPretty (level+1) ++ (memberText isPretty m'.name m'.text ++
          (furtherTexts isPretty (level+1) (ms.map (fun m => memberText isPretty m.name m.text)) ++
            (lineBreak isPretty level ++ 0x7d :: rest)))) := by
      simp only [furtherTexts, List.map_cons, List.flatMap_cons, List.cons_append, List.append_assoc]
    have hskip (s : Bytes) : skipWhitespaces (lineBreak isPretty (level+1) ++
          (memberText isPretty m'.name m'.text ++ s)) =
        memberText isPretty m'.name m'.text ++ s := by
      rw [skipWhitespaces_append (fun _ => isspace_of_mem_lineBreak), skip_memberText]
    rw [Member.pair] at htail
    rw [htext, parseMembers_member isPretty libc levels hname (hm.read 0x2c _ (Or.inl rfl)) hfresh]
    simp only [bind, Except.bind, skipWhitespaces_cons (c := 0x2c) (by decide), look, if_pos, hskip, htail]
    rw [List.append_assoc]
    rfl

theorem bracketed_append (o c : UInt8) (t : Bytes) (ts : List Bytes) (rest : Bytes) :
    bracketed o c isPretty level (t :: ts) ++ rest =
      o :: (lineBreak isPretty (level+1) ++ (t ++ (furtherTexts isPretty (level+1) ts ++
        (lineBreak isPretty level ++ c :: rest)))) := by
  simp only [bracketed, furtherTexts, List.cons_append, List.append_assoc, List.nil_append]

/-- An array of printed items. -/
theorem readsUpTo_array (libc : Libc) (levels : ℕ) {items : List (Bytes × Json)}
    (h : ∀ p ∈ items, ReadsUpTo (parseValue libc levels) p.1 p.2) :
    ReadsUpTo (parseValue libc (levels+1)) (bracketed 0x5b 0x5d isPretty level (items.map Prod.fst))
      (.array (items.map Prod.snd)) := by
  have hbracket : ∃ s, bracketed 0x5b 0x5d isPretty level (items.map Prod.fst) = 0x5b :: s := by
    cases items <;> exact ⟨_, rfl⟩
  obtain ⟨s, hs⟩ := hbracket
  refine ⟨⟨0x5b, s, hs, by decide, by decide, by decide⟩, ?_⟩
  intro c rest _
  cases items with
  | nil => rfl
  | cons p items =>
    obtain ⟨hp, hitems⟩ := List.forall_mem_cons.mp h
    obtain ⟨d, t, hd, -, hclosing, -⟩ := hp.head
    have hfuel : items.length < (p.1 ++ (furtherTexts isPretty (level+1) (items.map Prod.fst) ++
        (lineBreak isPretty level ++ 0x5d :: c :: rest))).length := by
      have hle := length_le_furtherTexts isPretty (level+1) (items.map Prod.fst)
      rw [List.length_map] at hle
      simp only [List.length_append, List.length_cons]
      omega
    have hread := parseItems_readsUpTo isPretty level hp hitems (c :: rest) hfuel
    rw [List.map_cons, bracketed_append]
    show parseArrayValue (parseValue libc levels) _ = _
    rw [parseArrayValue, skipWhitespaces_append (fun _ => isspace_of_mem_lineBreak), hp.skip]
    have hlook (s : Bytes) : look (p.1 ++ s) = .ok (d, t ++ s) := by
      rw [hd]
      rfl
    simp only [hlook, bind, Except.bind, if_neg hclosing, hread]
    rfl

/-- An object of printed members with different names. -/
theorem readsUpTo_object (libc : Libc) (levels : ℕ) {ms : List Member}
    (h : ∀ m ∈ ms, (0 : UInt8) ∉ m.name ∧ ReadsUpTo (parseValue libc levels) m.text m.value)
    (hnew : (ms.map Member.name).Nodup) :
    ReadsUpTo (parseValue libc (levels+1))
      (bracketed 0x7b 0x7d isPretty level (ms.map (fun m => memberText isPretty m.name m.text)))
      (.object (ms.map Member.pair)) := by
  have hbrace : ∃ s, bracketed 0x7b 0x7d isPretty level
      (ms.map (fun m => memberText isPretty m.name m.text)) = 0x7b :: s := by
    cases ms <;> exact ⟨_, rfl⟩
  obtain ⟨s, hs⟩ := hbrace
  refine ⟨⟨0x7b, s, hs, by decide, by decide, by decide⟩, ?_⟩
  intro c rest _
  cases ms with
  | nil => rfl
  | cons m ms =>
    have hfuel : ms.length < (memberText isPretty m.name m.text ++
        (furtherTexts isPretty (level+1) (ms.map (fun m => memberText isPretty m.name m.text)) ++
          (lineBreak isPretty level ++ 0x7d :: c :: rest))).length := by
      have hle := length_le_furtherTexts isPretty (level+1)
        (ms.map (fun m => memberText isPretty m.name m.text))
      rw [List.length_map] at hle
      simp only [List.length_append, List.length_cons]
      omega
    have hnone : (([] : List (Bytes × Json)).map Prod.fst ++ (m :: ms).map Member.name).Nodup := hnew
    have hread := parseMembers_readsUpTo isPretty level h hnone (c :: rest) hfuel
    rw [List.map_cons, bracketed_append]
    show parseObjectValue (parseValue libc levels) _ = _
    rw [parseObjectValue, skipWhitespaces_append (fun _ => isspace_of_mem_lineBreak), skip_memberText]
    -- the first name starts with its quote
    have hlook (s : Bytes) : ∃ s', look (memberText isPretty m.name m.text ++ s) = .ok (0x22, s') :=
      ⟨_, rfl⟩
    obtain ⟨s', hs'⟩ := hlook (furtherTexts isPretty (level+1)
      (ms.map (fun m => memberText isPretty m.name m.text)) ++ (lineBreak isPretty level ++ 0x7d :: c :: rest))
    simp only [hs', bind, Except.bind, hread]
    rfl

end

/-! What the parser returns. -/

/-- A value that is parsed with so many levels to go: besides being well formed it is nested at
most so deeply, and its numbers are numbers that `strtod` has read. -/
inductive Json.Parsed (libc : Libc) : ℕ → Json → Prop
  | null (levels : ℕ) : Parsed libc (levels+1) .null
  | boolean (levels : ℕ) (b : Bool) : Parsed libc (levels+1) (.boolean b)
  | number (levels : ℕ) {n : Double} {s : Bytes} {len : ℕ} (hn : libc.strtod s = .ok (n, len)) :
      Parsed libc (levels+1) (.number n)
  | string (levels : ℕ) {s : Bytes} (hs : (0 : UInt8) ∉ s) : Parsed libc (levels+1) (.string s)
  | array {levels : ℕ} {items : List Json} (h : ∀ v ∈ items, Parsed libc levels v) :
      Parsed libc (levels+1) (.array items)
  | object {levels : ℕ} {members : List (Bytes × Json)} (hnames : (members.map Prod.fst).Nodup)
      (hplain : ∀ m ∈ members, (0 : UInt8) ∉ m.1) (h : ∀ m ∈ members, Parsed libc levels m.2) :
      Parsed libc (levels+1) (.object members)

theorem Json.Parsed.wellFormed {libc : Libc} {levels : ℕ} {v : Json} (h : v.Parsed libc levels) :
    v.WellFormed := by
  induction h with
  | null => exact .null
  | boolean _ b => exact .boolean b
  | number => exact .number _
  | string _ hs => exact .string hs
  | array _ ih => exact .array ih
  | object hnames hplain _ ih => exact .object hnames hplain ih

/-- The members that the loop collects have different names, which are C strings, and values
that were parsed. -/
structure Collected (parse : Bytes → Scan (Json × Bytes)) (members : List (Bytes × Json)) : Prop where
  names : (members.map Prod.fst).Nodup
  plain : ∀ m ∈ members, (0 : UInt8) ∉ m.1
  values : ∀ m ∈ members, ∃ s rest, parse s = .ok (m.2, rest)

theorem Collected.snoc {parse : Bytes → Scan (Json × Bytes)} {members : List (Bytes × Json)}
    (h : Collected parse members) {name s rest : Bytes} {value : Json} (hname : (0 : UInt8) ∉ name)
    (hnew : ¬members.any (fun m => m.1 == name) = true) (hvalue : parse s = .ok (value, rest)) :
    Collected parse (members ++ [(name, value)]) where
  names := by
    have hfresh : name ∉ members.map Prod.fst := by
      intro hmem
      obtain ⟨m, hm, he⟩ := List.mem_map.mp hmem
      exact hnew (List.any_eq_true.mpr ⟨m, hm, beq_iff_eq.mpr he⟩)
    rw [List.map_append, List.map_singleton, List.nodup_append]
    refine ⟨h.names, List.nodup_singleton _, ?_⟩
    intro a ha b hb hab
    have hname : a = name := hab.trans (List.mem_singleton.mp hb)
    rw [hname] at ha
    exact hfresh ha
  plain := by
    intro m hm
    rcases List.mem_append.mp hm with hm | hm
    · exact h.plain m hm
    · rw [List.mem_singleton.mp hm]
      exact hname
  values := by
    intro m hm
    rcases List.mem_append.mp hm with hm | hm
    · exact h.values m hm
    · rw [List.mem_singleton.mp hm]
      exact ⟨s, rest, hvalue⟩

theorem collected_nil (parse : Bytes → Scan (Json × Bytes)) : Collected parse [] :=
  ⟨List.nodup_nil, by simp, by simp⟩

theorem parseMembers_collected {parse : Bytes → Scan (Json × Bytes)} {n : ℕ}
    {members members' : List (Bytes × Json)} {s rest : Bytes} (hmembers : Collected parse members)
    (h : parseMembers parse n members s = .ok (members', rest)) : Collected parse members' := by
  induction n generalizing members s with
  | zero => cases h
  | succ n ih =>
    obtain ⟨⟨newKey, s₁⟩, hkey, h⟩ := bind_eq_ok h
    obtain ⟨⟨c, s₂⟩, -, h⟩ := bind_eq_ok h
    dsimp only at h
    split_ifs at h with hcolon hold
    · obtain ⟨-, -, h⟩ := bind_eq_ok h
      cases h
    · obtain ⟨⟨newValue, s₃⟩, hvalue, h⟩ := bind_eq_ok h
      have hsnoc := hmembers.snoc (getQuotedString_no_nul hkey) hold hvalue
      obtain ⟨⟨d, s₄⟩, -, h⟩ := bind_eq_ok h
      dsimp only at h
      split_ifs at h with hcomma hend
      · exact ih hsnoc h
      · cases h
        exact hsnoc

/-- By induction on the levels. -/
theorem parseValue_parsed {libc : Libc} {levels : ℕ} {s rest : Bytes} {v : Json}
    (h : parseValue libc levels s = .ok (v, rest)) : v.Parsed libc levels := by
  induction levels generalizing s v rest with
  | zero => cases h
  | succ levels ih =>
    obtain ⟨⟨c, s₁⟩, -, h⟩ := bind_eq_ok h
    dsimp only at h
    split_ifs at h with hobject harray hstring hboolean hnumber hnull
    · obtain ⟨⟨c', s₂⟩, -, h⟩ := bind_eq_ok h
      dsimp only at h
      split_ifs at h with hend
      · cases h
        exact .object List.nodup_nil (by simp) (by simp)
      · obtain ⟨⟨members, s₃⟩, hmembers, h⟩ := bind_eq_ok h
        cases h
        have hall := parseMembers_collected (collected_nil _) hmembers
        refine .object hall.names hall.plain ?_
        intro m hm
        obtain ⟨s', rest', hvalue⟩ := hall.values m hm
        exact ih hvalue
    · obtain ⟨⟨c', s₂⟩, -, h⟩ := bind_eq_ok h
      dsimp only at h
      split_ifs at h with hend
      · cases h
        exact .array (by simp)
      · obtain ⟨⟨items, s₃⟩, hitems, h⟩ := bind_eq_ok h
        cases h
        apply Json.Parsed.array
        intro item hitem
        obtain ⟨s', rest', hvalue⟩ := parseItems_mem hitems hitem
        exact ih hvalue
    · obtain ⟨r, hr, h⟩ := bind_eq_ok h
      cases h
      exact .string levels (getQuotedString_no_nul hr)
    · rw [parseBooleanValue] at h
      split at h
      · cases h
        exact .boolean levels true
      · cases h
      · rw [skipToken_map_eq_ok h]
        exact .boolean levels false
    · obtain ⟨⟨n, len⟩, hn, h⟩ := bind_eq_ok h
      dsimp only at h
      split_ifs at h
      cases h
      exact .number levels hn
    · rw [skipToken_map_eq_ok h]
      exact .null levels

/-! What is printed is read. -/

/-- The number is printed so that it can be read again. -/
structure Libc.Rereads (libc : Libc) (n : Double) : Prop where
  head : ∃ c s, libc.printDouble n = c :: s ∧ (c = 0x2d ∨ 0x30 ≤ c ∧ c ≤ 0x39)
  decimal : isDecimal (libc.printDouble n) = true
  strtod : ∀ (c : UInt8) (rest : Bytes), EndsValue c →
    libc.strtod (libc.printDouble n ++ c :: rest) = .ok (n, (libc.printDouble n).length)

theorem ne_of_sign_or_digit {c k : UInt8} (hc : c = 0x2d ∨ 0x30 ≤ c ∧ c ≤ 0x39)
    (hk : ¬(0x2d ≤ k ∧ k ≤ 0x39)) : c ≠ k := by
  rintro rfl
  apply hk
  rcases hc with rfl | ⟨hlow, hhigh⟩
  · decide
  · exact ⟨UInt8.le_trans (by decide) hlow, hhigh⟩

theorem isspace_of_sign_or_digit {c : UInt8} (hc : c = 0x2d ∨ 0x30 ≤ c ∧ c ≤ 0x39) : isspace c = false := by
  rw [Bool.eq_false_iff]
  intro h
  simp only [isspace, Bool.or_eq_true, beq_iff_eq, Bool.and_eq_true, decide_eq_true_eq] at h
  rcases h with h | ⟨-, h⟩
  · exact ne_of_sign_or_digit hc (by decide) h
  · rcases hc with rfl | ⟨hlow, -⟩
    · exact absurd h (by decide)
    · exact absurd (UInt8.le_trans hlow h) (by decide)

/-- No other kind of value starts with a sign or a digit. -/
theorem parseValue_number (libc : Libc) (levels : ℕ) {c : UInt8} (hc : c = 0x2d ∨ 0x30 ≤ c ∧ c ≤ 0x39)
    (s : Bytes) : parseValue libc (levels+1) (c :: s) = parseNumberValue libc (c :: s) := by
  have hne {k : UInt8} (hk : ¬(0x2d ≤ k ∧ k ≤ 0x39)) : c ≠ k := ne_of_sign_or_digit hc hk
  have hbool : ¬(c = 0x66 ∨ c = 0x74) := not_or.mpr ⟨hne (by decide), hne (by decide)⟩
  rw [parseValue, skipWhitespaces_cons (isspace_of_sign_or_digit hc)]
  simp only [look, bind, Except.bind]
  rw [if_neg (hne (by decide)), if_neg (hne (by decide)), if_neg (hne (by decide)), if_neg hbool, if_pos hc]

theorem Libc.Rereads.readsUpTo {libc : Libc} {n : Double} (h : libc.Rereads n) (levels : ℕ) :
    ReadsUpTo (parseValue libc (levels+1)) (libc.printDouble n) (.number n) := by
  obtain ⟨c, s, hs, hc⟩ := h.head
  constructor
  · exact ⟨c, s, hs, isspace_of_sign_or_digit hc, ne_of_sign_or_digit hc (by decide),
      ne_of_sign_or_digit hc (by decide)⟩
  · intro d rest hd
    have hnumber : parseValue libc (levels+1) (libc.printDouble n ++ d :: rest) =
        parseNumberValue libc (libc.printDouble n ++ d :: rest) := by
      rw [hs, List.cons_append]
      exact parseValue_number libc levels hc _
    rw [hnumber, parseNumberValue, h.strtod d rest hd]
    simp only [bind, Except.bind, List.take_left, List.drop_left, h.decimal, if_true]
    rfl

/-- By induction over the value. -/
theorem readsUpTo_jsonText {libc : Libc} (hlibc : ∀ s n len, libc.strtod s = .ok (n, len) → libc.Rereads n)
    (isPretty : Bool) {levels : ℕ} {v : Json} (h : v.Parsed libc levels) (level : ℕ) :
    ReadsUpTo (parseValue libc levels) (jsonText libc isPretty level v) v := by
  induction h generalizing level with
  | null levels => exact ⟨⟨0x6e, _, rfl, by decide, by decide, by decide⟩, fun _ _ _ => rfl⟩
  | boolean levels b =>
    cases b with
    | true => exact ⟨⟨0x74, _, rfl, by decide, by decide, by decide⟩, fun _ _ _ => rfl⟩
    | false => exact ⟨⟨0x66, _, rfl, by decide, by decide, by decide⟩, fun _ _ _ => rfl⟩
  | number levels hn => exact (hlibc _ _ _ hn).readsUpTo levels
  | @string levels s hs =>
    have hreads := reads_jsonSerializeString libc levels hs
    exact ⟨⟨0x22, _, rfl, by decide, by decide, by decide⟩, fun c rest _ => hreads.read (c :: rest)⟩
  | @array levels items _ ih =>
    have hitems : ∀ p ∈ items.map (fun v => (jsonText libc isPretty (level+1) v, v)),
        ReadsUpTo (parseValue libc levels) p.1 p.2 :=
      List.forall_mem_map.mpr (fun v hv => ih v hv (level+1))
    have harray := readsUpTo_array isPretty level libc levels hitems
    rw [List.map_map, List.map_map] at harray
    rw [jsonText, itemTexts_eq_map]
    simpa [Function.comp_def] using harray
  | @object levels members hnames hplain _ ih =>
    let printed (m : Bytes × Json) : Member := ⟨m.1, jsonText libc isPretty (level+1) m.2, m.2⟩
    have hmembers : ∀ m ∈ members.map printed,
        (0 : UInt8) ∉ m.name ∧ ReadsUpTo (parseValue libc levels) m.text m.value :=
      List.forall_mem_map.mpr (fun m hm => ⟨hplain m hm, ih m hm (level+1)⟩)
    have hnew : ((members.map printed).map Member.name).Nodup := by
      rw [List.map_map]
      exact hnames
    have hobject := readsUpTo_object isPretty level libc levels hmembers hnew
    rw [List.map_map, List.map_map] at hobject
    rw [jsonText, memberTexts_eq_map]
    simpa [Function.comp_def, printed, Member.pair] using hobject

/-- What stands in memory behind the NUL does not matter. -/
theorem jsonParseString_readsUpTo {libc : Libc} {text : Bytes} {value : Json}
    (h : ReadsUpTo (parseValue libc (maxNesting+1)) text value) (rest : Bytes) :
    jsonParseString libc (text ++ 0 :: rest) = .ok value := by
  obtain ⟨c, s, hs, -, -, hbom⟩ := h.head
  have htoken : skipToken [0xef, 0xbb, 0xbf] (text ++ 0 :: rest) = .error .null := by
    rw [hs, List.cons_append, skipToken, if_neg hbom]
  have hread := h.read 0 rest (Or.inr (Or.inr (Or.inr (Or.inr rfl))))
  rw [jsonParseString, htoken]
  simp only [bind, Except.bind, hread]
  rfl

/-- What the model prints for an object of strings, booleans and numbers is its compact text. -/
theorem jsonSerializeObject_eq_jsonText (libc : Libc) {members : List (Bytes × Json)}
    (h : ∀ m ∈ members, (∀ items, m.2 ≠ .array items) ∧ ∀ ms, m.2 ≠ .object ms) :
    jsonSerializeObject libc members = jsonText libc false 0 (.object members) := by
  have hscalar : ∀ m ∈ members, memberText false m.1 (jsonText libc false 1 m.2) =
      jsonSerializeString m.1 ++ str ":" ++ jsonSerializeScalar libc m.2 := by
    intro m hm
    obtain ⟨harray, hobject⟩ := h m hm
    have hvalue : jsonText libc false 1 m.2 = jsonSerializeScalar libc m.2 := by
      cases hv : m.2 with
      | array items => exact absurd hv (harray items)
      | object ms => exact absurd hv (hobject ms)
      | null => rfl
      | boolean b => rfl
      | number n => rfl
      | string s => rfl
    have hcolon : str ":" = [0x3a] := by decide
    rw [hvalue, memberText, hcolon, List.append_assoc]
    rfl
  have hbracket : ∀ ts : List Bytes, bracketed 0x7b 0x7d false 0 ts =
      str "\x7b" ++ (str ",").intercalate ts ++ str "\x7d" := by
    intro ts
    cases ts with
    | nil => decide
    | cons t ts =>
      have hnone (level : ℕ) : lineBreak false level = [] := rfl
      have hopening : str "\x7b" = [0x7b] := by decide
      have hclosing : str "\x7d" = [0x7d] := by decide
      rw [intercalate_eq_commaSeparated, bracketed, commaSeparated, hopening, hclosing]
      simp only [hnone, List.nil_append, List.append_nil, List.cons_append]
  rw [jsonText, hbracket, memberTexts_eq_map, List.map_congr_left hscalar, jsonSerializeObject]


/-- Every value that is parsed can be serialized, compact and pretty, unless there is no memory
left or the text does not fit into an `int` with its NUL, and the text is parsed to the same value. -/
theorem parsed_value_reparsed {libc : Libc} (hfits : libc.FitsNumBuf)
    (hlibc : ∀ s n len, libc.strtod s = .ok (n, len) → libc.Rereads n) {s : Bytes} {v : Json}
    (h : jsonParseString libc s = .ok v) (isPretty : Bool)
    (hlen : (jsonText libc isPretty 0 v).length < Writer.intMax) {malloc : ℕ → Option Bytes}
    (hmalloc : ∀ n, ∃ mem, malloc n = some mem ∧ mem.length = n) :
    ∃ text, jsonSerializeToString libc isPretty v malloc = .ok text ∧ jsonParseString libc text = .ok v := by
  obtain ⟨s', rest, hvalue⟩ := jsonParseString_eq_ok h
  have hparsed := parseValue_parsed hvalue
  have hlength : ∀ n mem, malloc n = some mem → mem.length = n := by
    intro n mem hmem
    obtain ⟨mem', hmem', hn⟩ := hmalloc n
    rw [hmem] at hmem'
    rw [Option.some.inj hmem', hn]
  obtain ⟨mem, hmem, -⟩ := hmalloc ((jsonText libc isPretty 0 v).length+1)
  refine ⟨jsonText libc isPretty 0 v ++ [0], ?_, ?_⟩
  · rw [jsonSerializeToString_eq hfits isPretty hparsed.wellFormed hlength, if_neg (Nat.not_le_of_lt hlen), hmem,
      Option.elim_some]
  · exact jsonParseString_readsUpTo (readsUpTo_jsonText hlibc isPretty hparsed 0) []

/-- A C library for numbers of one digit and for the negative zero. -/
def digitLibc : Libc where
  strtod s :=
    if s.take 2 = str "-0" then .ok (.negZero, 2)
    else
      match s with
      | [] => .error .fault
      | c :: _ => if isDigit c then .ok (.rat (c.toNat-0x30 : ℕ), 1) else .error .null
  printDouble
    | .negZero => str "-0"
    | .rat q => [(q.num.toNat+0x30).toUInt8]

theorem digitLibc_rereads {s : Bytes} {n : Double} {len : ℕ} (h : digitLibc.strtod s = .ok (n, len)) :
    digitLibc.Rereads n := by
  by_cases hzero : s.take 2 = str "-0"
  · have hok : digitLibc.strtod s = .ok (.negZero, 2) := if_pos hzero
    rw [hok] at h
    obtain rfl : Double.negZero = n := congrArg Prod.fst (Except.ok.inj h)
    exact ⟨⟨0x2d, [0x30], rfl, Or.inl rfl⟩, by decide, fun _ _ _ => rfl⟩
  cases s with
  | nil => cases h
  | cons c s =>
    by_cases hc : isDigit c = true
    · have hok : digitLibc.strtod (c :: s) = .ok (.rat (c.toNat-0x30 : ℕ), 1) :=
        (if_neg hzero).trans (if_pos hc)
      rw [hok] at h
      obtain rfl : Double.rat (c.toNat-0x30 : ℕ) = n := congrArg Prod.fst (Except.ok.inj h)
      have hrange : 0x30 ≤ c ∧ c ≤ 0x39 := by simpa [isDigit] using hc
      have hprint : digitLibc.printDouble (.rat (c.toNat-0x30 : ℕ)) = [c] := by
        have hlow : 0x30 ≤ c.toNat := UInt8.le_iff_toNat_le.mp hrange.1
        show [((((c.toNat-0x30 : ℕ) : ℚ)).num.toNat+0x30).toUInt8] = [c]
        rw [Rat.num_natCast, Int.toNat_natCast, Nat.sub_add_cancel hlow]
        simp
      have hdecimal : ∀ k : UInt8, isDigit k = true → isDecimal [k] = true := by decide +kernel
      constructor
      · exact ⟨c, [], hprint, Or.inr hrange⟩
      · rw [hprint]
        exact hdecimal c hc
      · intro d rest _
        rw [hprint]
        have hsign : ¬([c] ++ d :: rest).take 2 = str "-0" := by
          intro he
          have hminus : c = 0x2d := (List.cons.inj he).1
          rw [hminus] at hc
          exact absurd hc (by decide)
        exact (if_neg hsign).trans (if_pos hc)
    · have herror : digitLibc.strtod (c :: s) = .error .null := (if_neg hzero).trans (if_neg hc)
      rw [herror] at h
      cases h

/-- An object within a list, with numbers. -/
theorem parsed_value_reparsed_list :
    ∃ v text, jsonParseString digitLibc (str "[1, \x7b\"a\\n\":[-0] \x7d]" ++ [0]) = .ok v ∧
      jsonSerializeToString digitLibc true v (fun n => some (List.replicate n 0)) = .ok text ∧
      jsonParseString digitLibc text = .ok v := by
  have hok : (jsonParseString digitLibc (str "[1, \x7b\"a\\n\":[-0] \x7d]" ++ [0])).toOption.any
      (fun v => (jsonText digitLibc true 0 v).length < Writer.intMax) = true := by
    decide +kernel
  cases hv : jsonParseString digitLibc (str "[1, \x7b\"a\\n\":[-0] \x7d]" ++ [0]) with
  | error e =>
    rw [hv] at hok
    cases hok
  | ok v =>
    rw [hv] at hok
    have hlen : (jsonText digitLibc true 0 v).length < Writer.intMax := of_decide_eq_true hok
    have hfits : digitLibc.FitsNumBuf := by
      intro n
      cases n with
      | negZero => decide
      | rat q => exact (by decide : 1 < numBufSize)
    obtain ⟨text, htext, hread⟩ := parsed_value_reparsed hfits (fun _ _ _ => digitLibc_rereads) hv true hlen
      (fun n => ⟨List.replicate n 0, rfl, List.length_replicate⟩)
    exact ⟨v, text, rfl, htext, hread⟩

end SecureChaincode
