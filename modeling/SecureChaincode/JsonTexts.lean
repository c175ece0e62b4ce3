import SecureChaincode.Parson

/-! What parson reads in texts that were printed without white space and without escapes,
whatever stands behind them. -/
namespace SecureChaincode

/-- A byte that stands for itself between quotes. -/
def PlainByte (c : UInt8) : Prop := 0x20 ≤ c ∧ c ≠ 0x22 ∧ c ≠ 0x5c

instance : DecidablePred PlainByte := fun c =>
  inferInstanceAs (Decidable (0x20 ≤ c ∧ c ≠ 0x22 ∧ c ≠ 0x5c))

/-- A text that parson reads as a C string of the same bytes. -/
def PlainText (w : Bytes) : Prop := ∀ c ∈ w, PlainByte c

instance : DecidablePred PlainText := fun w => inferInstanceAs (Decidable (∀ c ∈ w, PlainByte c))

theorem PlainByte.ne_zero {c : UInt8} (h : PlainByte c) : c ≠ 0 := by
  rintro rfl
  exact absurd h.1 (by decide)

theorem PlainText.no_nul {w : Bytes} (h : PlainText w) : (0 : UInt8) ∉ w :=
  fun hm => (h 0 hm).ne_zero rfl

theorem PlainText.append {w w' : Bytes} (h : PlainText w) (h' : PlainText w') : PlainText (w ++ w') := by
  intro c hc
  rcases List.mem_append.mp hc with hc | hc
  · exact h c hc
  · exact h' c hc

theorem skipQuotes_plain {w : Bytes} (rest : Bytes) (hw : PlainText w) :
    skipQuotes (w ++ 0x22 :: rest) = .ok (w, rest) := by
  induction w with
  | nil => rw [List.nil_append, skipQuotes.eq_def]; rfl
  | cons c w ih =>
    obtain ⟨hc, hw⟩ := List.forall_mem_cons.mp hw
    rw [List.cons_append, skipQuotes.eq_def]
    simp only [if_neg hc.2.1, if_neg hc.ne_zero, if_neg hc.2.2, ih hw]
    rfl

theorem processString_plain {w : Bytes} (behind : Bytes) (hw : PlainText w) :
    processString behind w = .ok w := by
  induction w with
  | nil => rfl
  | cons c w ih =>
    obtain ⟨hc, hw⟩ := List.forall_mem_cons.mp hw
    rw [processString.eq_def]
    simp only [if_neg hc.2.2, if_neg (UInt8.not_lt.mpr hc.1), ih hw]
    rfl

/-- The text between quotes. -/
def quoted (w : Bytes) : Bytes := 0x22 :: (w ++ [0x22])

theorem getQuotedString_plain {w : Bytes} (rest : Bytes) (hw : PlainText w) :
    getQuotedString (quoted w ++ rest) = .ok (w, rest) := by
  have htext : quoted w ++ rest = 0x22 :: (w ++ 0x22 :: rest) := by
    rw [quoted, List.cons_append, List.append_assoc]
    rfl
  rw [htext, getQuotedString, look]
  simp only [bind, Except.bind, if_pos, skipQuotes_plain rest hw, processString_plain rest hw]
  rw [cstr_eq_self hw.no_nul]
  rfl

theorem skipWhitespaces_cons {c : UInt8} (h : isspace c = false) (s : Bytes) :
    skipWhitespaces (c :: s) = c :: s := by
  rw [skipWhitespaces, List.dropWhile_cons_of_neg (by rw [h]; exact Bool.false_ne_true)]

/-- The parser reads the text as the value and leaves what follows. The text starts neither
with white space nor with a closing bracket. -/
structure Reads (parse : Bytes → Scan (Json × Bytes)) (text : Bytes) (value : Json) : Prop where
  head : ∃ c s, text = c :: s ∧ isspace c = false ∧ c ≠ 0x5d
  read : ∀ rest, parse (text ++ rest) = .ok (value, rest)

theorem Reads.skip {parse : Bytes → Scan (Json × Bytes)} {text : Bytes} {value : Json}
    (h : Reads parse text value) (rest : Bytes) : skipWhitespaces (text ++ rest) = text ++ rest := by
  obtain ⟨c, s, rfl, hc, -⟩ := h.head
  rw [List.cons_append, skipWhitespaces_cons hc]

/-- The same in front of a comma or of a closing brace, as behind the value of a member. -/
def ReadsMember (parse : Bytes → Scan (Json × Bytes)) (text : Bytes) (value : Json) : Prop :=
  ∀ (c : UInt8) (rest : Bytes), c = 0x2c ∨ c = 0x7d → parse (text ++ c :: rest) = .ok (value, c :: rest)

theorem Reads.member {parse : Bytes → Scan (Json × Bytes)} {text : Bytes} {value : Json}
    (h : Reads parse text value) : ReadsMember parse text value :=
  fun c rest _ => h.read (c :: rest)

theorem reads_quoted (libc : Libc) (levels : ℕ) {w : Bytes} (hw : PlainText w) :
    Reads (parseValue libc (levels+1)) (quoted w) (.string w) := by
  refine ⟨⟨0x22, _, rfl, by decide, by decide⟩, ?_⟩
  intro rest
  have hstring : parseValue libc (levels+1) (quoted w ++ rest) = parseStringValue (quoted w ++ rest) := rfl
  rw [hstring, parseStringValue, getQuotedString_plain rest hw]
  rfl

section
variable {parse : Bytes → Scan (Json × Bytes)}

/-- Texts with commas between them. -/
def commaSeparated : List Bytes → Bytes
  | [] => []
  | t :: ts => t ++ ts.flatMap (fun t => 0x2c :: t)

theorem length_le_commaSeparated (t : Bytes) (ts : List Bytes) :
    ts.length ≤ (commaSeparated (t :: ts)).length := by
  have hts : ts.length ≤ (ts.flatMap (fun t => (0x2c : UInt8) :: t)).length := by
    rw [List.length_flatMap]
    calc ts.length = (ts.map (fun _ => 1)).sum := by simp
      _ ≤ (ts.map (fun t => ((0x2c : UInt8) :: t).length)).sum :=
          List.sum_le_sum (fun t _ => Nat.succ_le_succ (Nat.zero_le _))
  rw [commaSeparated, List.length_append]
  omega

/-- One round of the loop for every item. -/
theorem parseItems_reads {p : Bytes × Json} {items : List (Bytes × Json)} (hp : Reads parse p.1 p.2)
    (h : ∀ q ∈ items, Reads parse q.1 q.2) (rest : Bytes) {n : ℕ} (hn : items.length < n) :
    parseItems parse n (commaSeparated ((p :: items).map Prod.fst) ++ 0x5d :: rest) =
      .ok ((p :: items).map Prod.snd, rest) := by
  obtain ⟨n, rfl⟩ := Nat.exists_eq_succ_of_ne_zero (Nat.ne_zero_of_lt hn)
  induction items generalizing n p with
  | nil =>
    have htext : commaSeparated ([p].map Prod.fst) = p.1 := List.append_nil p.1
    rw [htext, parseItems, hp.read]
    rfl
  | cons q items ih =>
    have hn' : items.length < n := Nat.lt_of_succ_lt_succ hn
    obtain ⟨m, rfl⟩ := Nat.exists_eq_succ_of_ne_zero (Nat.ne_zero_of_lt hn')
    obtain ⟨hq, hitems⟩ := List.forall_mem_cons.mp h
    have htext : commaSeparated ((p :: q :: items).map Prod.fst) ++ 0x5d :: rest =
        p.1 ++ 0x2c :: (commaSeparated ((q :: items).map Prod.fst) ++ 0x5d :: rest) := by
      simp [commaSeparated]
    have hskip : skipWhitespaces (commaSeparated ((q :: items).map Prod.fst) ++ 0x5d :: rest) =
        commaSeparated ((q :: items).map Prod.fst) ++ 0x5d :: rest := by
      rw [List.map_cons, commaSeparated, List.append_assoc, hq.skip]
    have htail := ih hq hitems m hn'
    -- behind the comma the remaining items are read in the same way
    rw [htext, parseItems, hp.read]
    simp only [bind, Except.bind, skipWhitespaces_cons (c := 0x2c) (by decide), look, if_pos, hskip, htail]
    rfl

/-- An array of printed items. -/
theorem reads_array (libc : Libc) (levels : ℕ) {items : List (Bytes × Json)}
    (h : ∀ p ∈ items, Reads (parseValue libc levels) p.1 p.2) :
    Reads (parseValue libc (levels+1)) (0x5b :: (commaSeparated (items.map Prod.fst) ++ [0x5d]))
      (.array (items.map Prod.snd)) := by
  refine ⟨⟨0x5b, _, rfl, by decide, by decide⟩, ?_⟩
  intro rest
  rw [List.cons_append, List.append_assoc, List.singleton_append]
  have harray : parseValue libc (levels+1)
        (0x5b :: (commaSeparated (items.map Prod.fst) ++ 0x5d :: rest)) =
      parseArrayValue (parseValue libc levels) (commaSeparated (items.map Prod.fst) ++ 0x5d :: rest) := rfl
  rw [harray]
  cases items with
  | nil => rfl
  | cons p items =>
    obtain ⟨hp, hitems⟩ := List.forall_mem_cons.mp h
    have hskip : skipWhitespaces (commaSeparated ((p :: items).map Prod.fst) ++ 0x5d :: rest) =
        commaSeparated ((p :: items).map Prod.fst) ++ 0x5d :: rest := by
      rw [List.map_cons, commaSeparated, List.append_assoc, hp.skip]
    obtain ⟨c, s, hc, -, hbracket⟩ := hp.head
    have hlook : look (commaSeparated ((p :: items).map Prod.fst) ++ 0x5d :: rest) =
        .ok (c, s ++ (items.map Prod.fst).flatMap (fun t => 0x2c :: t) ++ 0x5d :: rest) := by
      rw [List.map_cons, commaSeparated, hc]
      rfl
    have hfuel : items.length < (commaSeparated ((p :: items).map Prod.fst) ++ 0x5d :: rest).length := by
      have hle := length_le_commaSeparated p.1 (items.map Prod.fst)
      rw [List.length_map] at hle
      rw [List.length_append, List.length_cons, List.map_cons]
      omega
    rw [parseArrayValue, hskip]
    simp only [hlook, bind, Except.bind, if_neg hbracket, parseItems_reads hp hitems rest hfuel]
    rfl

/-- A member of an object: its name, the text of its value, and the value. -/
structure Member where
  name : Bytes
  text : Bytes
  value : Json

def Member.print (m : Member) : Bytes := quoted m.name ++ 0x3a :: m.text

def Member.pair (m : Member) : Bytes × Json := (m.name, m.value)

theorem Member.skip_print (m : Member) (rest : Bytes) :
    skipWhitespaces (m.print ++ rest) = m.print ++ rest :=
  skipWhitespaces_cons (by decide) _

/-- One member, up to the loop's decision what comes next. -/
theorem parseMembers_round {m : Member} (hname : PlainText m.name) {rest : Bytes}
    (hm : parse (m.text ++ rest) = .ok (m.value, rest)) {members : List (Bytes × Json)}
    (hnew : m.name ∉ members.map Prod.fst) (n : ℕ) :
    parseMembers parse (n+1) members (m.print ++ rest) = (do
      let (c, s) ← look (skipWhitespaces rest)
      if c = 0x2c then parseMembers parse n (members ++ [m.pair]) (skipWhitespaces s)
      else if c = 0x7d then return (members ++ [m.pair], s)
      else .error .null) := by
  have hcolon : skipWhitespaces (0x3a :: m.text ++ rest) = 0x3a :: (m.text ++ rest) :=
    skipWhitespaces_cons (by decide) _
  have hno : (members.any (fun p => p.1 == m.name)) = false := by
    rw [List.any_eq_false]
    intro p hp he
    exact hnew (List.mem_map.mpr ⟨p, hp, beq_iff_eq.mp he⟩)
  rw [parseMembers, Member.print, List.append_assoc, getQuotedString_plain _ hname]
  simp only [bind, Except.bind, hcolon, look, if_pos, hm, hno, Bool.false_eq_true, if_false]
  rfl

theorem parseMembers_reads {m : Member} {ms : List Member}
    (h : ∀ m' ∈ m :: ms, PlainText m'.name ∧ ReadsMember parse m'.text m'.value)
    {members : List (Bytes × Json)}
    (hnew : (members.map Prod.fst ++ (m :: ms).map Member.name).Nodup) (rest : Bytes) {n : ℕ}
    (hn : ms.length < n) :
    parseMembers parse n members (commaSeparated ((m :: ms).map Member.print) ++ 0x7d :: rest) =
      .ok (members ++ (m :: ms).map Member.pair, rest) := by
  obtain ⟨n, rfl⟩ := Nat.exists_eq_succ_of_ne_zero (Nat.ne_zero_of_lt hn)
  induction ms generalizing n m members with
  | nil =>
    have htext : commaSeparated ([m].map Member.print) = m.print := List.append_nil m.print
    obtain ⟨hname, hm⟩ := h m List.mem_cons_self
    have hfresh : m.name ∉ members.map Prod.fst :=
      fun hmem => (List.nodup_append.mp hnew).2.2 _ hmem _ List.mem_cons_self rfl
    rw [htext, parseMembers_round hname (hm 0x7d rest (Or.inr rfl)) hfresh]
    rfl
  | cons m' ms ih =>
    have hn' : ms.length < n := Nat.lt_of_succ_lt_succ hn
    obtain ⟨k, rfl⟩ := Nat.exists_eq_succ_of_ne_zero (Nat.ne_zero_of_lt hn')
    obtain ⟨⟨hname, hm⟩, hms⟩ := List.forall_mem_cons.mp h
    have hfresh : m.name ∉ members.map Prod.fst :=
      fun hmem => (List.nodup_append.mp hnew).2.2 _ hmem _ List.mem_cons_self rfl
    have htext : commaSeparated ((m :: m' :: ms).map Member.print) ++ 0x7d :: rest =
        m.print ++ 0x2c :: (commaSeparated ((m' :: ms).map Member.print) ++ 0x7d :: rest) := by
      simp [commaSeparated]
    have hskip : skipWhitespaces (commaSeparated ((m' :: ms).map Member.print) ++ 0x7d :: rest) =
        commaSeparated ((m' :: ms).map Member.print) ++ 0x7d :: rest := by
      rw [List.map_cons, commaSeparated, List.append_assoc, Member.skip_print]
    have hnew' : ((members ++ [m.pair]).map Prod.fst ++ (m' :: ms).map Member.name).Nodup := by
      simpa [Member.pair] using hnew
    have htail := ih hms hnew' k hn'
    rw [htext, parseMembers_round hname (hm 0x2c _ (Or.inl rfl)) hfresh]
    simp only [bind, Except.bind, skipWhitespaces_cons (c := 0x2c) (by decide), look, if_pos, hskip, htail]
    rw [List.append_assoc]
    rfl

/-- An object of printed members with different names. -/
theorem reads_object (libc : Libc) (levels : ℕ) {ms : List Member}
    (h : ∀ m ∈ ms, PlainText m.name ∧ ReadsMember (parseValue libc levels) m.text m.value)
    (hnew : (ms.map Member.name).Nodup) :
    Reads (parseValue libc (levels+1)) (0x7b :: (commaSeparated (ms.map Member.print) ++ [0x7d]))
      (.object (ms.map Member.pair)) := by
  refine ⟨⟨0x7b, _, rfl, by decide, by decide⟩, ?_⟩
  intro rest
  rw [List.cons_append, List.append_assoc, List.singleton_append]
  have hobject : parseValue libc (levels+1)
        (0x7b :: (commaSeparated (ms.map Member.print) ++ 0x7d :: rest)) =
      parseObjectValue (parseValue libc levels) (commaSeparated (ms.map Member.print) ++ 0x7d :: rest) :=
    rfl
  rw [hobject]
  cases ms with
  | nil => rfl
  | cons m ms =>
    have hskip : skipWhitespaces (commaSeparated ((m :: ms).map Member.print) ++ 0x7d :: rest) =
        commaSeparated ((m :: ms).map Member.print) ++ 0x7d :: rest := by
      rw [List.map_cons, commaSeparated, List.append_assoc, Member.skip_print]
    have hfuel : ms.length < (commaSeparated ((m :: ms).map Member.print) ++ 0x7d :: rest).length := by
      have hle := length_le_commaSeparated m.print (ms.map Member.print)
      rw [List.length_map] at hle
      rw [List.length_append, List.length_cons, List.map_cons]
      omega
    -- the first name starts with its quote
    obtain ⟨s, hlook⟩ : ∃ s, look (commaSeparated ((m :: ms).map Member.print) ++ 0x7d :: rest) =
        .ok (0x22, s) := ⟨_, rfl⟩
    have hnone : (([] : List (Bytes × Json)).map Prod.fst ++ (m :: ms).map Member.name).Nodup := hnew
    rw [parseObjectValue, hskip]
    simp only [hlook, bind, Except.bind, parseMembers_reads h hnone rest hfuel]
    rfl

end

/-- A text that is read as a value is parsed, whatever follows it. -/
theorem jsonParseString_reads {libc : Libc} {text : Bytes} {value : Json}
    (h : Reads (parseValue libc (maxNesting+1)) text value) (hbom : text.head? ≠ some 0xef)
    (rest : Bytes) : jsonParseString libc (text ++ rest) = .ok value := by
  obtain ⟨c, s, hc, -, -⟩ := h.head
  have htoken : skipToken [0xef, 0xbb, 0xbf] (text ++ rest) = .error .null := by
    have hne : c ≠ 0xef := by
      rintro rfl
      exact hbom (by rw [hc]; rfl)
    rw [hc, List.cons_append, skipToken, if_neg hne]
  rw [jsonParseString, htoken]
  simp only [bind, Except.bind, h.read]
  rfl

end SecureChaincode
