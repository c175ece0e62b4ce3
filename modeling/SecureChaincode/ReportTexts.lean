import SecureChaincode.Base64
import SecureChaincode.JsonTexts

/-! The texts that are sent around in JSON: objects whose members are strings, and in them values in
base64, PEM blocks and the escapes of a URL. -/
namespace SecureChaincode

/-- A character that stands for itself between quotes. -/
def plainChar (c : Char) : Bool :=
  decide (32 ≤ c.toNat) && (decide (c.toNat < 256) && (c.toNat != 34 && c.toNat != 92))

/-- A literal is tested character by character. -/
theorem plainText_str {s : String} (h : s.toList.all plainChar = true) : PlainText (str s) := by
  intro b hb
  obtain ⟨c, hc, rfl⟩ := List.mem_map.mp hb
  have hplain := List.all_eq_true.mp h c hc
  simp only [plainChar, Bool.and_eq_true, decide_eq_true_eq, bne_iff_ne] at hplain
  obtain ⟨hlow, hhigh, hquote, hslash⟩ := hplain
  have hnat : c.toNat.toUInt8.toNat = c.toNat := UInt8.toNat_ofNat_of_lt' hhigh
  refine ⟨UInt8.le_iff_toNat_le.mpr (by rw [hnat]; exact hlow), ?_, ?_⟩
  · intro heq
    exact hquote (hnat.symm.trans (congrArg UInt8.toNat heq))
  · intro heq
    exact hslash (hnat.symm.trans (congrArg UInt8.toNat heq))

/-- The letters of base64, and so the values that the enclave stores, need no escape. -/
theorem plainText_of_base64 {v : Bytes} (h : ∀ c ∈ v, c ∈ base64Chars ∨ c = 0x3d) : PlainText v := by
  have hchars : PlainText base64Chars := plainText_str (by decide)
  intro c hc
  rcases h c hc with hc | rfl
  · exact hchars c hc
  · decide

theorem plainText_base64Encode (b : Bytes) : PlainText (base64Encode b) :=
  plainText_of_base64 (fun _ hc => mem_base64Encode hc)

/-- The string member that parson finds in a text, with `rest` behind it in memory. -/
def parsonGetString (libc : Libc) (rest json name : Bytes) : Option Bytes :=
  (orNull (jsonParseString libc (json ++ rest))).bind (jsonObjectGetString name)

/-- A member that is a string. -/
def textMember (m : Bytes × Bytes) : Member := ⟨m.1, quoted m.2, .string m.2⟩

/-- A JSON object of strings without escapes. -/
def textObject (ms : List (Bytes × Bytes)) : Bytes :=
  0x7b :: (commaSeparated ((ms.map textMember).map Member.print) ++ [0x7d])

theorem lookup_textMember {ms : List (Bytes × Bytes)} (hnew : (ms.map Prod.fst).Nodup) {name value : Bytes}
    (h : (name, value) ∈ ms) : ((ms.map textMember).map Member.pair).lookup name = some (.string value) := by
  induction ms with
  | nil => exact absurd h List.not_mem_nil
  | cons m ms ih =>
    rw [List.map_cons, List.nodup_cons] at hnew
    rw [List.map_cons, List.map_cons, List.lookup_cons]
    rcases List.mem_cons.mp h with rfl | hmem
    · simp [textMember, Member.pair]
    · have hne : name ≠ m.1 := by
        rintro rfl
        exact hnew.1 (List.mem_map.mpr ⟨_, hmem, rfl⟩)
      have hother : (name == (textMember m).pair.1) = false := beq_false_of_ne hne
      rw [hother]
      exact ih hnew.2 hmem

/-- parson finds the members of such an object under their names. -/
theorem parsonGetString_textObject (libc : Libc) (rest : Bytes) {ms : List (Bytes × Bytes)}
    (hplain : ∀ m ∈ ms, PlainText m.1 ∧ PlainText m.2) (hnew : (ms.map Prod.fst).Nodup) {name value : Bytes}
    (h : (name, value) ∈ ms) : parsonGetString libc rest (textObject ms) name = some value := by
  have hmembers : ∀ m ∈ ms.map textMember,
      PlainText m.name ∧ ReadsMember (parseValue libc maxNesting) m.text m.value := by
    intro m hm
    obtain ⟨p, hp, rfl⟩ := List.mem_map.mp hm
    exact ⟨(hplain p hp).1, (reads_quoted libc 2047 (hplain p hp).2).member⟩
  have hnames : ((ms.map textMember).map Member.name).Nodup := by
    rw [List.map_map]
    exact hnew
  have hreads : Reads (parseValue libc (maxNesting+1)) (textObject ms)
      (.object ((ms.map textMember).map Member.pair)) := reads_object libc maxNesting hmembers hnames
  have hhead : (textObject ms).head? ≠ some 0xef := by
    rw [textObject, List.head?_cons]
    decide
  rw [parsonGetString, jsonParseString_reads hreads hhead]
  simp only [orNull, Option.bind_some, jsonObjectGetString, jsonObjectGetValue, lookup_textMember hnew h, Json.getString]

/-! PEM and the escapes of a URL. -/

/-- The bytes before a mark, and the bytes behind it. -/
def cutAt (mark : Bytes) : Bytes → Option (Bytes × Bytes)
  | [] => none
  | c :: s =>
    if mark.isPrefixOf (c :: s) then some ([], (c :: s).drop mark.length)
    else (cutAt mark s).map (fun r => (c :: r.1, r.2))

/-- `pem.Decode` for blocks without headers: the bytes of the first block, and what comes after it. -/
def pemDecode (data : Bytes) : Option Bytes × Bytes :=
  let found := do
    let (_, s) ← cutAt (str "-----BEGIN ") data
    let (_, s) ← cutAt (str "-----\n") s
    let (body, s) ← cutAt (str "\n-----END ") s
    let (_, rest) ← cutAt (str "-----") s
    return (body, rest)
  match found with
  | none => (none, data)
  | some (body, rest) => (some (base64Decode (body.filter (· ≠ 0x0a))), rest)

def hexDigit (c : UInt8) : Option UInt8 :=
  if 0x30 ≤ c ∧ c ≤ 0x39 then some (c - 0x30)
  else if 0x41 ≤ c ∧ c ≤ 0x46 then some (c - 0x37)
  else if 0x61 ≤ c ∧ c ≤ 0x66 then some (c - 0x57)
  else none

/-- The text with its escapes replaced, unless one of them is not complete. -/
def percentDecode : Bytes → Option Bytes
  | [] => some []
  | 0x25 :: a :: b :: s => do return (16*(← hexDigit a) + (← hexDigit b)) :: (← percentDecode s)
  | 0x25 :: _ => none
  | 0x2b :: s => (percentDecode s).map (0x20 :: ·)
  | c :: s => (percentDecode s).map (c :: ·)

/-- `url.QueryUnescape`: with an error comes the empty string. -/
def queryUnescape (s : Bytes) : Bytes := (percentDecode s).getD []

example : pemDecode (queryUnescape (str "-----BEGIN%20KEY-----%0ATWFu%0A-----END%20KEY-----%0A")) =
    (some (str "Man"), str "\n") := by decide +kernel

end SecureChaincode
