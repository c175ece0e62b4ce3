import SecureChaincode.EnclaveKeys
import SecureChaincode.ShortCurve

/-! The curve P-256 as a group, and `ScalarMult` on it. -/
namespace SecureChaincode

/-- The large prime factors on the way to `p256`. -/
def p256Tests : List LucasTest :=
  [⟨204061199, 11, [2, 11, 23, 107, 3769]⟩,
    ⟨34282281433, 17, [2, 2, 2, 3, 7, 204061199]⟩,
    ⟨66417393611, 6, [2, 5, 53, 173, 197, 3677]⟩,
    ⟨11290956913871, 13, [2, 5, 17, 66417393611]⟩,
    ⟨46076956964474543, 5, [2, 23, 18169, 78283, 704251]⟩,
    ⟨774023187263532362759620327192479577272145303, 3,
      [2, 3, 3, 2411, 34282281433, 11290956913871, 46076956964474543]⟩,
    ⟨835945042244614951780389953367877943453916927241, 11,
      [2, 2, 2, 3, 3, 3, 5, 774023187263532362759620327192479577272145303]⟩,
    ⟨p256, 6, [2, 3, 5, 5, 17, 257, 641, 1531, 65537, 490463, 6700417,
      835945042244614951780389953367877943453916927241]⟩]

theorem p256_prime : p256.Prime := by
  have hknown : ∀ q ∈ [2, 3, 5, 7, 11, 17, 23, 53, 107, 173, 197, 257, 641, 1531, 2411, 3677, 3769, 18169, 65537, 78283,
      490463, 704251, 6700417], q.Prime := by
    intro q hq
    fin_cases hq <;> norm_num
  have hcheck : chainCheck [2, 3, 5, 7, 11, 17, 23, 53, 107, 173, 197, 257, 641, 1531, 2411, 3677, 3769, 18169, 65537,
      78283, 490463, 704251, 6700417] p256Tests = true := by decide +kernel
  apply primes_of_chainCheck hknown hcheck ⟨p256, 6, _⟩
  exact List.getLast_mem (l := p256Tests) (List.cons_ne_nil _ _)

instance : Fact p256.Prime := ⟨p256_prime⟩

/-- The coefficient -3. -/
def p256A : ℕ := p256-3

theorem two_lt_p256 : 2 < p256 := by decide +kernel

theorem cast_p256A : (p256A : ZMod p256) = -3 := by
  rw [p256A, Nat.cast_sub (by decide +kernel), ZMod.natCast_self, zero_sub]
  rfl

theorem p256_nonsingular {x y : ZMod p256} (h : (shortCurve p256 p256A p256B).Equation x y) :
    (shortCurve p256 p256A p256B).Nonsingular x y := by
  have hne : ¬ p256 ∣ 64*p256A^3+432*p256B^2 := by decide +kernel
  have hdisc : (shortCurve p256 p256A p256B).Δ = -((64*p256A^3+432*p256B^2 : ℕ) : ZMod p256) := by
    push_cast
    simp only [WeierstrassCurve.Δ, WeierstrassCurve.b₂, WeierstrassCurve.b₄, WeierstrassCurve.b₆,
      WeierstrassCurve.b₈, shortCurve]
    ring
  apply (WeierstrassCurve.Affine.equation_iff_nonsingular_of_Δ_ne_zero _).mp h
  rw [hdisc, neg_ne_zero]
  exact fun hzero => hne ((ZMod.natCast_eq_zero_iff _ _).mp hzero)

namespace AffinePoint

theorem equation (P : AffinePoint) : (shortCurve p256 p256A p256B).Equation (P.x : ZMod p256) (P.y : ZMod p256) := by
  have honCurve : ((P.x : ℤ)^3-3*P.x+p256B) % p256 = (P.y : ℤ)*P.y % p256 := beq_iff_eq.mp P.onCurve
  have hcast := (ZMod.intCast_eq_intCast_iff' _ _ _).mpr honCurve
  push_cast at hcast
  rw [WeierstrassCurve.Affine.equation_iff]
  simp only [shortCurve, cast_p256A]
  linear_combination -hcast

/-- The point in the group. -/
def toPoint (P : AffinePoint) : (shortCurve p256 p256A p256B).Point := .some P.x P.y (p256_nonsingular P.equation)

theorem coords_toPoint (P : AffinePoint) : coords P.toPoint = some (P.x, P.y) := by
  rw [toPoint, coords, ZMod.val_natCast_of_lt P.x_lt, ZMod.val_natCast_of_lt P.y_lt]

/-- A multiple of the point; `none` is the point at infinity. -/
def mul (P : AffinePoint) (k : ℕ) : Option (ℕ × ℕ) := mulPoint p256 p256A (some (P.x, P.y)) k.size k

theorem coords_nsmul_toPoint (P : AffinePoint) (k : ℕ) : coords (k•P.toPoint) = P.mul k := by
  rw [coords_nsmul two_lt_p256 _ k.lt_size_self, coords_toPoint, mul]

theorem mul_lt {P : AffinePoint} {k : ℕ} {S : ℕ × ℕ} (h : P.mul k = some S) : S.1 < p256 := by
  rw [← coords_nsmul_toPoint] at h
  cases hpoint : k•P.toPoint with
  | zero =>
    rw [hpoint] at h
    cases h
  | some x y hxy =>
    rw [hpoint] at h
    cases h
    exact ZMod.val_lt x

/-- Two multiples of one point have the same multiples of each other. -/
theorem mul_comm {B P Q : AffinePoint} {k l : ℕ} (hP : B.mul k = some (P.x, P.y)) (hQ : B.mul l = some (Q.x, Q.y)) :
    P.mul l = Q.mul k := by
  have hk : k•B.toPoint = P.toPoint := coords_injective (by rw [coords_nsmul_toPoint, hP, coords_toPoint])
  have hl : l•B.toPoint = Q.toPoint := coords_injective (by rw [coords_nsmul_toPoint, hQ, coords_toPoint])
  rw [← coords_nsmul_toPoint, ← coords_nsmul_toPoint, ← hk, ← hl, ← mul_nsmul, ← mul_nsmul, Nat.mul_comm]

end AffinePoint

/-- `ScalarMult` of the curve, for a factor in big-endian bytes. The point at infinity is (0, 0). -/
def scalarMult (x y : ℕ) (k : List UInt8) : ℕ × ℕ :=
  (mulPoint p256 p256A (some (x, y)) (8*k.length) (ofBigEndian k)).getD (0, 0)

theorem scalarMult_eq (P : AffinePoint) (k : List UInt8) :
    scalarMult P.x P.y k = (P.mul (ofBigEndian k)).getD (0, 0) := by
  have hlt : ofBigEndian k < 2^(8*k.length) := by
    rw [pow_mul]
    exact ofBigEndian_lt k
  rw [scalarMult, ← P.coords_toPoint, ← coords_nsmul two_lt_p256 _ hlt, AffinePoint.coords_nsmul_toPoint]

end SecureChaincode
