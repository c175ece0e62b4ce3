import SecureChaincode.Auction
import SecureChaincode.ParsonStrings

/-! The records of the auction chaincode, from `auction_json.cpp`: what was marshalled is
unmarshalled again. -/
namespace SecureChaincode

theorem intercalate_eq_commaSeparated (ts : List Bytes) : (str ",").intercalate ts = commaSeparated ts := by
  cases ts with
  | nil => rfl
  | cons t ts =>
    induction ts generalizing t with
    | nil => simp [commaSeparated]
    | cons u ts ih =>
      have hrest := ih u
      rw [List.intercalate_cons_cons, hrest]
      simp [commaSeparated, str]

section
variable {libc : Libc}

/-- A name without an escape. -/
def PlainName (key : Bytes) : Prop := PlainText key ∧ jsonSerializeString key = quoted key

instance : DecidablePred PlainName := fun key =>
  inferInstanceAs (Decidable (PlainText key ∧ jsonSerializeString key = quoted key))

variable (libc) in
/-- A member that is read back from its text. -/
structure RoundMember (m : Bytes × Json) : Prop where
  name : PlainName m.1
  value : ReadsMember (parseValue libc maxNesting) (jsonSerializeScalar libc m.2) m.2

/-- What was serialized is parsed again, whatever follows it. -/
theorem jsonParseString_jsonSerializeObject {members : List (Bytes × Json)}
    (h : ∀ m ∈ members, RoundMember libc m) (hnew : (members.map Prod.fst).Nodup) (rest : Bytes) :
    jsonParseString libc (jsonSerializeObject libc members ++ rest) = .ok (.object members) := by
  let printed (m : Bytes × Json) : Member := ⟨m.1, jsonSerializeScalar libc m.2, m.2⟩
  have hpairs : (members.map printed).map Member.pair = members := by
    rw [List.map_map]
    exact List.map_id members
  have hnames : (members.map printed).map Member.name = members.map Prod.fst := List.map_map
  have htexts : members.map (fun m => jsonSerializeString m.1 ++ str ":" ++ jsonSerializeScalar libc m.2) =
      (members.map printed).map Member.print := by
    rw [List.map_map]
    apply List.map_congr_left
    intro m hm
    rw [(h m hm).name.2, List.append_assoc]
    rfl
  have htext : jsonSerializeObject libc members =
      0x7b :: (commaSeparated ((members.map printed).map Member.print) ++ [0x7d]) := by
    rw [jsonSerializeObject, htexts, intercalate_eq_commaSeparated]
    rfl
  have hmembers : ∀ m ∈ members.map printed,
      PlainText m.name ∧ ReadsMember (parseValue libc maxNesting) m.text m.value :=
    List.forall_mem_map.mpr (fun m hm => ⟨(h m hm).name.1, (h m hm).value⟩)
  have hreads := reads_object libc maxNesting hmembers (hnames ▸ hnew)
  rw [← htext, hpairs] at hreads
  apply jsonParseString_reads hreads
  rw [htext]
  exact nofun

theorem stringMember_of_utf8 (key : Bytes) {s : Bytes} (hnul : (0 : UInt8) ∉ s) (hutf8 : isValidUtf8 s = true) :
    stringMember key s = [(key, .string s)] := by
  rw [stringMember, cstr_eq_self hnul, if_pos hutf8]

/-- A C string. -/
theorem roundMember_string {key s : Bytes} (hkey : PlainName key) (hnul : (0 : UInt8) ∉ s) :
    RoundMember libc (key, .string s) :=
  ⟨hkey, (reads_jsonSerializeString libc 2047 hnul).member⟩

theorem roundMember_isOpen (libc : Libc) (isOpen : Bool) : RoundMember libc (str "is_open", .boolean isOpen) := by
  have hname : PlainName (str "is_open") := by decide +kernel
  refine ⟨hname, ?_⟩
  intro c rest _
  cases isOpen with
  | true => rfl
  | false => rfl

/-! Auctions. -/

section
variable {name : Bytes} (hnul : (0 : UInt8) ∉ name)
include hnul

/-- A record with a name that is UTF-8 is read back. -/
theorem unmarshalAuction_marshalAuction (hutf8 : isValidUtf8 name = true) (isOpen : Bool) (rest : Bytes) :
    unmarshalAuction libc (marshalAuction libc ⟨name, isOpen⟩ ++ rest) = some ⟨name, isOpen⟩ := by
  have hmembers : ∀ m ∈ [(str "name", .string name), (str "is_open", .boolean isOpen)], RoundMember libc m := by
    intro m hm
    rcases List.mem_pair.mp hm with rfl | rfl
    · exact roundMember_string (by decide +kernel) hnul
    · exact roundMember_isOpen libc isOpen
  have hnew : [str "name", str "is_open"].Nodup := by decide
  rw [unmarshalAuction, marshalAuction, stringMember_of_utf8 _ hnul hutf8, List.singleton_append,
    jsonParseString_jsonSerializeObject hmembers hnew]
  rfl

/-- Of another name nothing is stored, and the record cannot be read. -/
theorem unmarshalAuction_of_not_utf8 (hutf8 : isValidUtf8 name = false) (isOpen : Bool) (rest : Bytes) :
    unmarshalAuction libc (marshalAuction libc ⟨name, isOpen⟩ ++ rest) = none := by
  have hmember : stringMember (str "name") name = [] := by
    rw [stringMember, cstr_eq_self hnul, hutf8]
    rfl
  have hmembers : ∀ m ∈ [(str "is_open", .boolean isOpen)], RoundMember libc m :=
    List.forall_mem_singleton.mpr (roundMember_isOpen libc isOpen)
  rw [unmarshalAuction, marshalAuction, hmember, List.nil_append,
    jsonParseString_jsonSerializeObject hmembers (List.nodup_singleton _)]
  rfl

end

/-! Numbers and bids. -/

/-- A number is read back if it is printed with a digit first and `strtod` reads it back. -/
theorem readsMember_number {x : Double} {d : UInt8} {digits : Bytes} (hprint : libc.printDouble x = d :: digits)
    (hdigit : isDigit d = true) (hdecimal : isDecimal (d :: digits) = true)
    (hstrtod : ∀ (c : UInt8) (rest : Bytes), c = 0x2c ∨ c = 0x7d →
      libc.strtod (d :: digits ++ c :: rest) = .ok (x, (d :: digits).length)) :
    ReadsMember (parseValue libc maxNesting) (libc.printDouble x) (.number x) := by
  intro c rest hc
  have hrange : 0x30 ≤ d ∧ d ≤ 0x39 := by simpa [isDigit] using hdigit
  have hne {k : UInt8} (hk : isDigit k = false) : d ≠ k := by
    rintro rfl
    rw [hk] at hdigit
    cases hdigit
  have hspace : isspace d = false := by
    rw [Bool.eq_false_iff]
    intro h
    simp only [isspace, Bool.or_eq_true, beq_iff_eq, Bool.and_eq_true, decide_eq_true_eq] at h
    rcases h with h | ⟨-, h⟩
    · exact hne (by decide) h
    · exact absurd (UInt8.le_trans hrange.1 h) (by decide)
  -- no other kind of value starts with a digit
  have hnumber : parseValue libc maxNesting (d :: digits ++ c :: rest) =
      parseNumberValue libc (d :: digits ++ c :: rest) := by
    rw [maxNesting, parseValue]
    simp only [List.cons_append, skipWhitespaces_cons hspace, look, bind, Except.bind]
    rw [if_neg (hne (by decide)), if_neg (hne (by decide)), if_neg (hne (by decide)), if_neg, if_pos (Or.inr hrange)]
    rintro (h | h)
    · exact hne (by decide) h
    · exact hne (by decide) h
  rw [hprint, hnumber, parseNumberValue, hstrtod c rest hc]
  simp only [bind, Except.bind, List.take_left, List.drop_left, hdecimal, if_true]
  rfl

theorem doubleToInt_of_nonneg {n : ℤ} (h0 : 0 ≤ n) (h : n ≤ 2147483647) : doubleToInt n = some n := by
  have hpos : (0 : ℚ) ≤ n := Int.cast_nonneg h0
  have hrat : (n : Double).toRat = n := rfl
  rw [doubleToInt, hrat, if_pos hpos, Int.floor_intCast, if_pos ⟨by omega, h⟩]

/-- A record is read back if the number in it is. -/
theorem unmarshalBid_marshalBid {bidder : Bytes} {value : ℤ} (hnul : (0 : UInt8) ∉ bidder)
    (hutf8 : isValidUtf8 bidder = true) (h0 : 0 ≤ value) (hmax : value ≤ 2147483647)
    (hnumber : ReadsMember (parseValue libc maxNesting) (libc.printDouble value) (.number value)) (rest : Bytes) :
    unmarshalBid libc (marshalBid libc ⟨bidder, value⟩ ++ rest) = some ⟨bidder, value⟩ := by
  have hname : PlainName (str "value") := by decide +kernel
  have hmembers : ∀ m ∈ [(str "bidder", .string bidder), (str "value", .number value)], RoundMember libc m := by
    intro m hm
    rcases List.mem_pair.mp hm with rfl | rfl
    · exact roundMember_string (by decide +kernel) hnul
    · exact ⟨hname, hnumber⟩
  have hnew : [str "bidder", str "value"].Nodup := by decide
  rw [unmarshalBid, marshalBid, stringMember_of_utf8 _ hnul hutf8, List.singleton_append,
    jsonParseString_jsonSerializeObject hmembers hnew]
  have hvalue : doubleToInt (Json.getNumber (jsonObjectGetValue (str "value")
      (some (.object [(str "bidder", .string bidder), (str "value", .number value)])))) = some value :=
    doubleToInt_of_nonneg h0 hmax
  simp only [orNull, bind, Option.bind_some, hvalue]
  rfl

end

end SecureChaincode
