import SecureChaincode.Delimited

/-! UTF-8 on lists of bytes, and where an ASCII byte can stand in it. -/
namespace SecureChaincode

/-- The UTF-8 bytes of the characters. -/
def utf8 (cs : List Char) : List UInt8 := cs.flatMap String.utf8EncodeChar

/-- The characters of a valid string. -/
def runes (b : List UInt8) : Option (List Char) := b.toByteArray.utf8Decode?.map Array.toList

theorem runes_utf8 (cs : List Char) : runes (utf8 cs) = some cs := by
  have hdecode : (utf8 cs).toByteArray.utf8Decode? = some cs.toArray := List.utf8Decode?_utf8Encode
  rw [runes, hdecode, Option.map_some]

theorem utf8_of_runes {b : List UInt8} {cs : List Char} (h : runes b = some cs) : utf8 cs = b := by
  rw [runes, Option.map_eq_some_iff] at h
  obtain ⟨chars, hchars, rfl⟩ := h
  have hsome : b.toByteArray.utf8Decode?.isSome = true := by rw [hchars, Option.isSome_some]
  have hencode := @ByteArray.utf8Encode_get_utf8Decode? b.toByteArray hsome
  simp only [hchars, Option.get_some, List.utf8Encode] at hencode
  have hbytes := congrArg (fun a : ByteArray => a.data.toList) hencode
  simp only [List.toList_data_toByteArray] at hbytes
  exact hbytes

theorem utf8_injective {cs cs' : List Char} (h : utf8 cs = utf8 cs') : cs = cs' := by
  have hrunes := congrArg runes h
  rw [runes_utf8, runes_utf8] at hrunes
  exact Option.some.inj hrunes

theorem utf8_cons (c : Char) (cs : List Char) : utf8 (c :: cs) = String.utf8EncodeChar c ++ utf8 cs :=
  List.flatMap_cons

theorem utf8_append (cs cs' : List Char) : utf8 (cs ++ cs') = utf8 cs ++ utf8 cs' :=
  List.flatMap_append

section
-- an ASCII character
variable {a : Char} (ha : a.toNat < 128)
include ha

theorem utf8EncodeChar_ascii : String.utf8EncodeChar a = [a.toNat.toUInt8] := by
  have hle : a.val.toNat ≤ 127 := Nat.le_of_lt_succ ha
  rw [String.utf8EncodeChar, if_pos hle]
  rfl

/-- The bytes of any other character are different from that of an ASCII character: a longer
encoding has only bytes from 128 on. -/
theorem mem_utf8EncodeChar {c : Char} : a.toNat.toUInt8 ∈ String.utf8EncodeChar c ↔ c = a := by
  constructor
  · intro h
    have hval : a.toNat.toUInt8.toNat = a.toNat := by
      rw [Nat.toUInt8_eq, UInt8.toNat_ofNat']
      omega
    have hchar : c.toNat = a.toNat := by
      -- every byte of the encoding as a number
      have hbytes : ∃ b ∈ String.utf8EncodeChar c, b.toNat = a.toNat := ⟨_, h, hval⟩
      have hc : c.toNat = c.val.toNat := rfl
      simp only [String.utf8EncodeChar] at hbytes
      split_ifs at hbytes
      all_goals
        simp only [List.mem_cons, List.not_mem_nil, or_false, exists_eq_or_imp, exists_eq_left,
          UInt8.toNat_ofNat'] at hbytes
        omega
    exact Char.toNat_inj.mp hchar
  · rintro rfl
    rw [utf8EncodeChar_ascii ha]
    exact List.mem_singleton_self _

theorem mem_utf8 {cs : List Char} : a.toNat.toUInt8 ∈ utf8 cs ↔ a ∈ cs := by
  rw [utf8, List.mem_flatMap]
  constructor
  · rintro ⟨c, hc, hmem⟩
    exact (mem_utf8EncodeChar ha).mp hmem ▸ hc
  · intro hmem
    exact ⟨a, hmem, (mem_utf8EncodeChar ha).mpr rfl⟩

theorem head?_utf8 {cs : List Char} (h : (utf8 cs).head? = some a.toNat.toUInt8) :
    cs.head? = some a := by
  cases cs with
  | nil => cases h
  | cons c cs =>
    rw [utf8_cons, List.head?_append_of_ne_nil _ String.utf8EncodeChar_ne_nil] at h
    rw [List.head?_cons, (mem_utf8EncodeChar ha).mp (List.mem_of_head? h)]

theorem getLast?_utf8 {cs : List Char} (h : (utf8 cs).getLast? = some a.toNat.toUInt8) :
    cs.getLast? = some a := by
  rcases List.eq_nil_or_concat cs with rfl | ⟨cs, c, rfl⟩
  · cases h
  · have hlast : utf8 [c] = String.utf8EncodeChar c := List.flatMap_singleton ..
    rw [List.concat_eq_append, utf8_append, hlast,
      List.getLast?_append_of_ne_nil _ String.utf8EncodeChar_ne_nil] at h
    rw [List.concat_eq_append, List.getLast?_concat, (mem_utf8EncodeChar ha).mp (List.mem_of_getLast? h)]

theorem utf8_closed (ws : List (List Char)) :
    utf8 (closed a ws) = closed a.toNat.toUInt8 (ws.map utf8) := by
  induction ws with
  | nil => rfl
  | cons w ws ih =>
    rw [closed_cons, utf8_append, utf8_cons, utf8EncodeChar_ascii ha, ih, List.map_cons, closed_cons]
    rfl

/-- The words of a string of characters are the words of its bytes. -/
theorem utf8_delimited (ws : List (List Char)) :
    utf8 (delimited a ws) = delimited a.toNat.toUInt8 (ws.map utf8) := by
  rw [delimited, utf8_cons, utf8EncodeChar_ascii ha, utf8_closed ha]
  rfl

end

/-- Texts of ASCII are UTF-8. -/
theorem runes_of_ascii {b : List UInt8} (h : ∀ c ∈ b, c.toNat < 128) : (runes b).isSome = true := by
  have hutf8 : utf8 (b.map (fun c => Char.ofNat c.toNat)) = b := by
    induction b with
    | nil => rfl
    | cons c b ih =>
      obtain ⟨hc, hb⟩ := List.forall_mem_cons.mp h
      have hvalid : c.toNat.isValidChar := Or.inl (hc.trans (by decide))
      have hnat : (Char.ofNat c.toNat).toNat = c.toNat := by
        rw [Char.ofNat, dif_pos hvalid]
        rfl
      rw [List.map_cons, utf8_cons, ih hb, utf8EncodeChar_ascii (hnat.trans_lt hc), hnat, Nat.toUInt8_eq,
        UInt8.ofNat_toNat]
      rfl
  rw [← hutf8, runes_utf8]
  rfl

end SecureChaincode
