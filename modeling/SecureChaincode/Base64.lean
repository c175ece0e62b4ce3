import SecureChaincode.KeyNames

/-! `common/base64`: the encoder, and a lenient decoder that stops at the first character
outside the alphabet and never reports an error. -/
namespace SecureChaincode

def base64Chars : Bytes :=
  str "ABCDEFGHIJKLMNOPQRSTUVWXYZabcdefghijklmnopqrstuvwxyz0123456789+/"

/-- The bytes of the complete groups of four, then what the rest of one, two or three
characters still gives. -/
def base64Groups : List UInt8 → Bytes
  | a :: b :: c :: d :: rest =>
    ((a <<< 2) + ((b &&& 0x30) >>> 4)) :: (((b &&& 0xf) <<< 4) + ((c &&& 0x3c) >>> 2)) ::
      (((c &&& 0x3) <<< 6) + d) :: base64Groups rest
  | [a, b, c] => [(a <<< 2) + ((b &&& 0x30) >>> 4), ((b &&& 0xf) <<< 4) + ((c &&& 0x3c) >>> 2)]
  | [a, b] => [(a <<< 2) + ((b &&& 0x30) >>> 4)]
  | [_] => []
  | [] => []

def base64Decode (s : Bytes) : Bytes :=
  base64Groups ((s.takeWhile (base64Chars.contains ·)).map (fun c => (base64Chars.idxOf c).toUInt8))

example : base64Decode (str "TWFu") = str "Man" := by decide
example : base64Decode (str "TWE=") = str "Ma" := by decide

/-- The numbers of the characters that `base64_encode` puts out before the padding. -/
def base64Sextets : Bytes → List UInt8
  | a :: b :: c :: rest =>
    ((a &&& 0xfc) >>> 2) :: (((a &&& 0x03) <<< 4) + ((b &&& 0xf0) >>> 4)) ::
      (((b &&& 0x0f) <<< 2) + ((c &&& 0xc0) >>> 6)) :: (c &&& 0x3f) :: base64Sextets rest
  -- the missing bytes of the last group are zeros, and what only depends on them is left out
  | [a, b] => [(a &&& 0xfc) >>> 2, ((a &&& 0x03) <<< 4) + ((b &&& 0xf0) >>> 4), (b &&& 0x0f) <<< 2]
  | [a] => [(a &&& 0xfc) >>> 2, (a &&& 0x03) <<< 4]
  | [] => []

def base64Encode (b : Bytes) : Bytes :=
  (base64Sextets b).map (fun s => base64Chars.getD s.toNat 0) ++
    List.replicate ((3-b.length%3)%3) 0x3d

example : base64Encode (str "Ma") = str "TWE=" := by decide

/-! The bit operations of encoder and decoder as arithmetic. -/

/-- A field of `w` bits from position `k` on, moved down. -/
theorem toNat_high (a : UInt8) {mask k : UInt8} (w : ℕ) (hmask : mask.toNat >>> (k.toNat%8) = 2^w - 1) :
    ((a &&& mask) >>> k).toNat = a.toNat/2^(k.toNat%8)%2^w := by
  rw [UInt8.toNat_shiftRight, UInt8.toNat_and, Nat.shiftRight_and_distrib, hmask,
    Nat.and_two_pow_sub_one_eq_mod, Nat.shiftRight_eq_div_pow]

theorem toNat_up (a k : UInt8) : (a <<< k).toNat = a.toNat*2^(k.toNat%8)%256 := by
  rw [UInt8.toNat_shiftLeft, Nat.shiftLeft_eq]

/-- The lowest `w` bits, moved up. -/
theorem toNat_low (a : UInt8) {mask k : UInt8} (w : ℕ) (hmask : mask.toNat = 2^w - 1) :
    ((a &&& mask) <<< k).toNat = a.toNat%2^w*2^(k.toNat%8)%256 := by
  rw [toNat_up, UInt8.toNat_and, hmask, Nat.and_two_pow_sub_one_eq_mod]

theorem toNat_high6 (a : UInt8) : ((a &&& 0xfc) >>> 2).toNat = a.toNat/4%64 := toNat_high a 6 rfl

theorem toNat_high4 (a : UInt8) : ((a &&& 0xf0) >>> 4).toNat = a.toNat/16%16 := toNat_high a 4 rfl

theorem toNat_high2 (a : UInt8) : ((a &&& 0xc0) >>> 6).toNat = a.toNat/64%4 := toNat_high a 2 rfl

theorem toNat_low2 (a : UInt8) : ((a &&& 0x03) <<< 4).toNat = a.toNat%4*16%256 := toNat_low a 2 rfl

theorem toNat_low4 (a : UInt8) : ((a &&& 0x0f) <<< 2).toNat = a.toNat%16*4%256 := toNat_low a 4 rfl

theorem toNat_low6 (a : UInt8) : (a &&& 0x3f).toNat = a.toNat%64 := by
  rw [UInt8.toNat_and]
  exact Nat.and_two_pow_sub_one_eq_mod a.toNat 6

theorem toNat_first (s : UInt8) : (s <<< 2).toNat = s.toNat*4%256 := toNat_up s 2

theorem toNat_second_high (s : UInt8) : ((s &&& 0x30) >>> 4).toNat = s.toNat/16%4 := toNat_high s 2 rfl

theorem toNat_second_low (s : UInt8) : ((s &&& 0xf) <<< 4).toNat = s.toNat%16*16%256 := toNat_low s 4 rfl

theorem toNat_third_high (s : UInt8) : ((s &&& 0x3c) >>> 2).toNat = s.toNat/4%16 := toNat_high s 4 rfl

theorem toNat_third_low (s : UInt8) : ((s &&& 0x3) <<< 6).toNat = s.toNat%4*64%256 := toNat_low s 2 rfl

/-- The three bytes of a group come back from its four sextets. -/
theorem group_first (a b : UInt8) :
    ((a &&& 0xfc) >>> 2) <<< 2 + ((((a &&& 0x03) <<< 4) + ((b &&& 0xf0) >>> 4)) &&& 0x30) >>> 4 = a := by
  apply UInt8.toNat_inj.mp
  have ha := a.toNat_lt
  have hb := b.toNat_lt
  rw [UInt8.toNat_add, toNat_first, toNat_second_high, UInt8.toNat_add, toNat_high6, toNat_low2,
    toNat_high4]
  omega

theorem group_second (a b c : UInt8) :
    ((((a &&& 0x03) <<< 4) + ((b &&& 0xf0) >>> 4)) &&& 0xf) <<< 4 +
      ((((b &&& 0x0f) <<< 2) + ((c &&& 0xc0) >>> 6)) &&& 0x3c) >>> 2 = b := by
  apply UInt8.toNat_inj.mp
  have ha := a.toNat_lt
  have hb := b.toNat_lt
  have hc := c.toNat_lt
  rw [UInt8.toNat_add, toNat_second_low, toNat_third_high, UInt8.toNat_add, UInt8.toNat_add, toNat_low2,
    toNat_high4, toNat_low4, toNat_high2]
  omega

theorem group_third (b c : UInt8) :
    ((((b &&& 0x0f) <<< 2) + ((c &&& 0xc0) >>> 6)) &&& 0x3) <<< 6 + (c &&& 0x3f) = c := by
  apply UInt8.toNat_inj.mp
  have hb := b.toNat_lt
  have hc := c.toNat_lt
  rw [UInt8.toNat_add, toNat_third_low, UInt8.toNat_add, toNat_low4, toNat_high2, toNat_low6]
  omega

theorem base64Groups_base64Sextets (b : Bytes) : base64Groups (base64Sextets b) = b := by
  induction b using base64Sextets.induct with
  | case1 a b c rest ih =>
    rw [base64Sextets, base64Groups, group_first, group_second, group_third, ih]
  | case2 a b =>
    -- with no third byte its bits are zero
    have hsecond := group_second a b 0
    rw [show ((0 : UInt8) &&& 0xc0) >>> 6 = 0 from rfl, UInt8.add_zero] at hsecond
    rw [base64Sextets, base64Groups, group_first, hsecond]
  | case3 a =>
    have hfirst := group_first a 0
    rw [show ((0 : UInt8) &&& 0xf0) >>> 4 = 0 from rfl, UInt8.add_zero] at hfirst
    rw [base64Sextets, base64Groups, hfirst]
  | case4 => rfl

theorem base64Sextets_lt (b : Bytes) : ∀ s ∈ base64Sextets b, s.toNat < 64 := by
  have h6 (a : UInt8) : ((a &&& 0xfc) >>> 2).toNat < 64 := by
    have ha := a.toNat_lt
    rw [toNat_high6]
    omega
  have h2 (a b : UInt8) : (((a &&& 0x03) <<< 4) + ((b &&& 0xf0) >>> 4)).toNat < 64 := by
    have hb := b.toNat_lt
    rw [UInt8.toNat_add, toNat_low2, toNat_high4]
    omega
  have h4 (b c : UInt8) : (((b &&& 0x0f) <<< 2) + ((c &&& 0xc0) >>> 6)).toNat < 64 := by
    have hc := c.toNat_lt
    rw [UInt8.toNat_add, toNat_low4, toNat_high2]
    omega
  have hl (c : UInt8) : (c &&& 0x3f).toNat < 64 := by
    rw [toNat_low6]
    omega
  induction b using base64Sextets.induct with
  | case1 a b c rest ih =>
    simp only [base64Sextets, List.mem_cons, forall_eq_or_imp]
    exact ⟨h6 a, h2 a b, h4 b c, hl c, ih⟩
  | case2 a b =>
    have hb := h4 b 0
    rw [show ((0 : UInt8) &&& 0xc0) >>> 6 = 0 from rfl, UInt8.add_zero] at hb
    simp only [base64Sextets, List.mem_cons, forall_eq_or_imp, List.not_mem_nil, or_false, forall_eq]
    exact ⟨h6 a, h2 a b, hb⟩
  | case3 a =>
    have ha := h2 a 0
    rw [show ((0 : UInt8) &&& 0xf0) >>> 4 = 0 from rfl, UInt8.add_zero] at ha
    simp only [base64Sextets, List.mem_cons, forall_eq_or_imp, List.not_mem_nil, or_false, forall_eq]
    exact ⟨h6 a, ha⟩
  | case4 => simp [base64Sextets]

/-- Every number below 64 has its character, and is its place in the alphabet. -/
theorem base64Chars_sextet {n : ℕ} (h : n < 64) :
    base64Chars.contains (base64Chars.getD n 0) = true ∧ base64Chars.idxOf (base64Chars.getD n 0) = n := by
  have hall : ∀ n : Fin 64, base64Chars.contains (base64Chars.getD n 0) = true ∧
      base64Chars.idxOf (base64Chars.getD n 0) = n := by
    decide +kernel
  exact hall ⟨n, h⟩

/-- The characters of an encoded text are letters of the alphabet or the padding. -/
theorem mem_base64Encode {b : Bytes} {c : UInt8} (h : c ∈ base64Encode b) :
    c ∈ base64Chars ∨ c = 0x3d := by
  rcases List.mem_append.mp h with h | h
  · obtain ⟨s, hs, rfl⟩ := List.mem_map.mp h
    exact Or.inl (List.contains_iff_mem.mp (base64Chars_sextet (base64Sextets_lt b s hs)).1)
  · exact Or.inr (List.eq_of_mem_replicate h)

/-- The decoder gives back what was encoded, whatever stands behind the padding or another
character outside the alphabet. -/
theorem base64Decode_sextets (b : Bytes) {rest : Bytes}
    (hrest : ∀ c, rest.head? = some c → c ∉ base64Chars) :
    base64Decode ((base64Sextets b).map (fun s => base64Chars.getD s.toNat 0) ++ rest) = b := by
  have hin : ∀ c ∈ (base64Sextets b).map (fun s => base64Chars.getD s.toNat 0),
      base64Chars.contains c = true := by
    intro c hc
    obtain ⟨s, hs, rfl⟩ := List.mem_map.mp hc
    exact (base64Chars_sextet (base64Sextets_lt b s hs)).1
  have hstop : rest.takeWhile (base64Chars.contains ·) = [] := by
    cases rest with
    | nil => rfl
    | cons c rest =>
      rw [List.takeWhile_cons_of_neg]
      rw [List.contains_iff_mem]
      exact hrest c rfl
  rw [base64Decode, List.takeWhile_append_of_pos hin, hstop, List.append_nil, List.map_map]
  have hidx : ∀ s ∈ base64Sextets b,
      ((fun c => (base64Chars.idxOf c).toUInt8) ∘ fun s : UInt8 => base64Chars.getD s.toNat 0) s = s := by
    intro s hs
    rw [Function.comp_apply, (base64Chars_sextet (base64Sextets_lt b s hs)).2]
    exact UInt8.ofNat_toNat
  rw [List.map_congr_left hidx, List.map_id', base64Groups_base64Sextets]

theorem base64Decode_base64Encode (b : Bytes) : base64Decode (base64Encode b) = b := by
  apply base64Decode_sextets b
  intro c hc
  rw [List.eq_of_mem_replicate (List.mem_of_head? hc)]
  decide

theorem length_base64Sextets (b : Bytes) : (base64Sextets b).length = (4*b.length+2)/3 := by
  induction b using base64Sextets.induct with
  | case1 a b c rest ih =>
    simp only [base64Sextets, List.length_cons, ih]
    omega
  | case2 a b => simp [base64Sextets]
  | case3 a => simp [base64Sextets]
  | case4 => simp [base64Sextets]

/-- Every group of three bytes that is begun takes four characters. -/
theorem length_base64Encode (b : Bytes) : (base64Encode b).length = 4*((b.length+2)/3) := by
  rw [base64Encode, List.length_append, List.length_map, List.length_replicate, length_base64Sextets]
  omega

end SecureChaincode
