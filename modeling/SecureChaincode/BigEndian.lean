import Mathlib

/-! Numbers as bytes with the most significant one first: without leading zeros, and in a field
of fixed width. -/
namespace SecureChaincode

/-- The number of a byte string. -/
def ofBigEndian (b : List UInt8) : ℕ := Nat.ofDigits 256 (b.map UInt8.toNat).reverse

/-- The bytes of a number, without leading zeros. -/
def toBigEndian (n : ℕ) : List UInt8 := ((Nat.digits 256 n).map Nat.toUInt8).reverse

/-- The bytes of a number behind as many zeros as a field of `k` bytes needs. -/
def fixedBytes (k n : ℕ) : List UInt8 := List.replicate (k-(toBigEndian n).length) 0 ++ toBigEndian n

theorem length_toBigEndian (n : ℕ) : (toBigEndian n).length = (Nat.digits 256 n).length := by
  rw [toBigEndian, List.length_reverse, List.length_map]

theorem length_toBigEndian_le_iff {n k : ℕ} : (toBigEndian n).length ≤ k ↔ n < 256^k := by
  rw [length_toBigEndian]
  exact Nat.digits_length_le_iff (by decide) n

theorem ofBigEndian_toBigEndian (n : ℕ) : ofBigEndian (toBigEndian n) = n := by
  have hdigits : (Nat.digits 256 n).map (UInt8.toNat ∘ Nat.toUInt8) = Nat.digits 256 n := by
    conv_rhs => rw [← List.map_id (Nat.digits 256 n)]
    apply List.map_congr_left
    intro d hd
    have hlt : d < 256 := Nat.digits_lt_base (by decide) hd
    rw [Function.comp_apply, Nat.toUInt8_eq, UInt8.toNat_ofNat', Nat.mod_eq_of_lt hlt]
    rfl
  rw [ofBigEndian, toBigEndian, List.map_reverse, List.reverse_reverse, List.map_map, hdigits, Nat.ofDigits_digits]

theorem ofBigEndian_append (b b' : List UInt8) :
    ofBigEndian (b ++ b') = 256^b'.length*ofBigEndian b+ofBigEndian b' := by
  rw [ofBigEndian, ofBigEndian, ofBigEndian, List.map_append, List.reverse_append, Nat.ofDigits_append,
    List.length_reverse, List.length_map, add_comm]

theorem ofBigEndian_replicate_zero (k : ℕ) : ofBigEndian (List.replicate k 0) = 0 := by
  induction k with
  | zero => rfl
  | succ k ih =>
    rw [List.replicate_succ', ofBigEndian_append, ih]
    rfl

/-- Zeros in front change nothing. -/
theorem ofBigEndian_zeros (k : ℕ) (b : List UInt8) : ofBigEndian (List.replicate k 0 ++ b) = ofBigEndian b := by
  rw [ofBigEndian_append, ofBigEndian_replicate_zero, mul_zero, zero_add]

/-- Zeros behind multiply. -/
theorem ofBigEndian_append_zeros (k : ℕ) (b : List UInt8) :
    ofBigEndian (b ++ List.replicate k 0) = 256^k*ofBigEndian b := by
  rw [ofBigEndian_append, ofBigEndian_replicate_zero, add_zero, List.length_replicate]

section
variable {k n : ℕ}

theorem ofBigEndian_fixedBytes (k n : ℕ) : ofBigEndian (fixedBytes k n) = n := by
  rw [fixedBytes, ofBigEndian_zeros, ofBigEndian_toBigEndian]

theorem length_fixedBytes (h : n < 256^k) : (fixedBytes k n).length = k := by
  have hle := length_toBigEndian_le_iff.mpr h
  rw [fixedBytes, List.length_append, List.length_replicate]
  omega

theorem ofBigEndian_lt (b : List UInt8) : ofBigEndian b < 256^b.length := by
  have hlt : ∀ d ∈ (b.map UInt8.toNat).reverse, d < 256 := by
    intro d hd
    obtain ⟨c, -, rfl⟩ := List.mem_map.mp (List.mem_reverse.mp hd)
    exact c.toNat_lt
  have hpow := Nat.ofDigits_lt_base_pow_length (by decide) hlt
  rwa [List.length_reverse, List.length_map] at hpow

/-- A number fills its field when its first byte is not zero. -/
theorem length_toBigEndian_eq_iff (h : n < 256^(k+1)) : (toBigEndian n).length = k+1 ↔ 256^k ≤ n := by
  have hle := length_toBigEndian_le_iff.mpr h
  have hk := @length_toBigEndian_le_iff n k
  constructor
  · intro heq
    by_contra hlt
    have hshort := hk.mpr (Nat.lt_of_not_le hlt)
    omega
  · intro hge
    by_contra hne
    have hlt := hk.mp (by omega)
    omega

/-- Bytes at the wrong end of a field are another number, unless there is nothing to put there. -/
theorem padded_eq_fixedBytes_iff (h : n < 256^(k+1)) :
    toBigEndian n ++ List.replicate (k+1-(toBigEndian n).length) 0 = fixedBytes (k+1) n ↔ n = 0 ∨ 256^k ≤ n := by
  have hle := length_toBigEndian_le_iff.mpr h
  constructor
  · intro heq
    have hvalue := congrArg ofBigEndian heq
    rw [ofBigEndian_append_zeros, ofBigEndian_toBigEndian, ofBigEndian_fixedBytes] at hvalue
    by_contra hn
    obtain ⟨hne, hlt⟩ := not_or.mp hn
    have hshort := length_toBigEndian_le_iff.mpr (Nat.lt_of_not_le hlt)
    -- at least one zero is appended
    have hpow : 256^(k+1-(toBigEndian n).length) = 1 := Nat.eq_of_mul_eq_mul_right (Nat.pos_of_ne_zero hne)
      (by rw [hvalue, one_mul])
    have hexp : k+1-(toBigEndian n).length ≠ 0 := by omega
    exact absurd hpow (Nat.one_lt_pow hexp (by decide)).ne'
  · rintro (rfl | hge)
    · simp [fixedBytes, toBigEndian]
    · have hfull := (length_toBigEndian_eq_iff h).mpr hge
      rw [fixedBytes, hfull, Nat.sub_self, List.replicate_zero, List.append_nil, List.nil_append]

theorem toBigEndian_of_full (h : (toBigEndian n).length = k) : toBigEndian n = fixedBytes k n := by
  rw [fixedBytes, h, Nat.sub_self, List.replicate_zero, List.nil_append]

end

end SecureChaincode
