import SecureChaincode.BigEndian

/-! DER for pairs of integers: every value has a tag, its length and its contents. Lengths are below
128 here, so one byte is enough for them. -/
namespace SecureChaincode

def derTlv (tag : UInt8) (contents : List UInt8) : List UInt8 := tag :: contents.length.toUInt8 :: contents

/-- The contents of an integer that is not negative. A number that would start with a set bit gets
a zero byte in front. -/
def derContents (n : ℕ) : List UInt8 :=
  match toBigEndian n with
  | [] => [0]
  | c :: rest => if c < 0x80 then c :: rest else 0 :: c :: rest

def derInteger (n : ℕ) : List UInt8 := derTlv 0x02 (derContents n)

def derPair (r s : ℕ) : List UInt8 := derTlv 0x30 (derInteger r ++ derInteger s)

/-- The contents of a value with this tag, and what follows it. -/
def readTlv (tag : UInt8) : List UInt8 → Option (List UInt8 × List UInt8)
  | t :: len :: rest =>
    if t = tag ∧ len < 0x80 ∧ len.toNat ≤ rest.length then some (rest.take len.toNat, rest.drop len.toNat) else none
  | _ => none

/-- The number of a byte string in two's complement. -/
def ofSignedBigEndian (b : List UInt8) : ℤ :=
  if b.headD 0 < 0x80 then ofBigEndian b else ofBigEndian b-256^b.length

/-- There is a first byte, and it is not just a repetition of the sign. -/
def isMinimal : List UInt8 → Bool
  | [] => false
  | [_] => true
  | c :: d :: _ => !(c == 0 && d < 0x80) && !(c == 0xff && 0x80 ≤ d)

def readInteger (b : List UInt8) : Option (ℤ × List UInt8) := do
  let (contents, rest) ← readTlv 0x02 b
  if isMinimal contents then return (ofSignedBigEndian contents, rest) else none

def readPair (b : List UInt8) : Option (ℤ × ℤ) := do
  let (contents, _) ← readTlv 0x30 b
  let (r, rest) ← readInteger contents
  let (s, _) ← readInteger rest
  return (r, s)

theorem length_derTlv (tag : UInt8) (contents : List UInt8) : (derTlv tag contents).length = contents.length+2 := rfl

theorem readTlv_derTlv (tag : UInt8) {contents : List UInt8} (h : contents.length < 128) (rest : List UInt8) :
    readTlv tag (derTlv tag contents ++ rest) = some (contents, rest) := by
  have hlen : contents.length.toUInt8.toNat = contents.length := by
    rw [Nat.toUInt8_eq, UInt8.toNat_ofNat', Nat.mod_eq_of_lt (by omega)]
  have hshort : contents.length.toUInt8 < 0x80 := by
    rw [UInt8.lt_iff_toNat_lt, hlen]
    exact h
  have hfits : contents.length.toUInt8.toNat ≤ (contents ++ rest).length := by
    rw [hlen, List.length_append]
    omega
  rw [derTlv, List.cons_append, List.cons_append, readTlv, if_pos ⟨rfl, hshort, hfits⟩, hlen, List.take_left,
    List.drop_left]

section
variable {n : ℕ}

theorem head_toBigEndian_ne_zero {c : UInt8} {rest : List UInt8} (h : toBigEndian n = c :: rest) : c ≠ 0 := by
  rintro rfl
  have hvalue : ofBigEndian rest = n := by
    have hzeros := ofBigEndian_zeros 1 rest
    rw [List.replicate_one, List.singleton_append, ← h, ofBigEndian_toBigEndian] at hzeros
    exact hzeros.symm
  -- then the rest would do for the number
  have hle := length_toBigEndian_le_iff.mpr (hvalue ▸ ofBigEndian_lt rest)
  rw [h, List.length_cons] at hle
  omega

theorem isMinimal_derContents (n : ℕ) : isMinimal (derContents n) = true := by
  rw [derContents]
  cases h : toBigEndian n with
  | nil => rfl
  | cons c rest =>
    have hc := head_toBigEndian_ne_zero h
    by_cases hlow : c < 0x80
    · simp only [if_pos hlow]
      cases rest with
      | nil => rfl
      | cons d rest =>
        have hff : c ≠ 0xff := by
          rintro rfl
          exact absurd hlow (by decide)
        simp [isMinimal, hc, hff]
    · simp only [if_neg hlow]
      simp [isMinimal, hlow]

theorem ofSignedBigEndian_derContents (n : ℕ) : ofSignedBigEndian (derContents n) = n := by
  have hvalue := ofBigEndian_toBigEndian n
  rw [derContents]
  cases h : toBigEndian n with
  | nil =>
    rw [h] at hvalue
    rw [← hvalue]
    rfl
  | cons c rest =>
    rw [h] at hvalue
    by_cases hlow : c < 0x80
    · simp only [if_pos hlow]
      rw [ofSignedBigEndian, List.headD_cons, if_pos hlow, hvalue]
    · simp only [if_neg hlow]
      have hzeros := ofBigEndian_zeros 1 (c :: rest)
      rw [List.replicate_one, List.singleton_append, hvalue] at hzeros
      rw [ofSignedBigEndian, List.headD_cons, if_pos (by decide), hzeros]

theorem length_derContents_le {k : ℕ} (h : n < 256^k) : (derContents n).length ≤ k+1 := by
  have hle := length_toBigEndian_le_iff.mpr h
  rw [derContents]
  cases hb : toBigEndian n with
  | nil => simp
  | cons c rest =>
    rw [hb, List.length_cons] at hle
    by_cases hlow : c < 0x80
    · simp only [if_pos hlow, List.length_cons]
      omega
    · simp only [if_neg hlow, List.length_cons]
      omega

theorem length_derInteger_le {k : ℕ} (h : n < 256^k) : (derInteger n).length ≤ k+3 := by
  have hle := length_derContents_le h
  rw [derInteger, length_derTlv]
  omega

theorem readInteger_derInteger (h : n < 256^126) (rest : List UInt8) :
    readInteger (derInteger n ++ rest) = some ((n : ℤ), rest) := by
  have hle := length_derContents_le h
  rw [readInteger, derInteger, readTlv_derTlv 0x02 (by omega) rest]
  simp [isMinimal_derContents, ofSignedBigEndian_derContents]

end

section
variable {r s k : ℕ} (hr : r < 256^k) (hs : s < 256^k)
include hr hs

theorem length_derPair_le : (derPair r s).length ≤ 2*k+8 := by
  have hle := length_derInteger_le hr
  have hle' := length_derInteger_le hs
  rw [derPair, length_derTlv, List.length_append]
  omega

/-- Both numbers are read back, as long as they have at most 60 bytes. -/
theorem readPair_derPair (hk : k ≤ 60) : readPair (derPair r s) = some ((r : ℤ), (s : ℤ)) := by
  have hle := length_derInteger_le hr
  have hle' := length_derInteger_le hs
  have hmono : 256^k ≤ 256^126 := Nat.pow_le_pow_right (by decide) (by omega)
  have hlen : (derInteger r ++ derInteger s).length < 128 := by
    rw [List.length_append]
    omega
  have houter := readTlv_derTlv 0x30 hlen []
  have hfirst := readInteger_derInteger (hr.trans_le hmono) (derInteger s)
  have hsecond := readInteger_derInteger (hs.trans_le hmono) []
  rw [List.append_nil] at houter hsecond
  rw [readPair, derPair, houter]
  simp [hfirst, hsecond]

end

end SecureChaincode
