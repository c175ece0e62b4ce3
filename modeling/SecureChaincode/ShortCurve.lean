import SecureChaincode.Pratt

/-! The points of a curve y² = x³+ax+b over a prime field, computed with on the remainders of
their coordinates, and the group that Mathlib has on them. -/
namespace SecureChaincode

section
variable (p : ℕ)

def modSub (x y : ℕ) : ℕ := (x+(p-y % p)) % p

/-- The inverse, by Fermat. -/
def modInv (x : ℕ) : ℕ := powMod p x p.size (p-2)

/-- The reflection of the third point on a line with the slope `l` through a point, by the second
one's first coordinate. -/
def chord (l x₁ y₁ x₂ : ℕ) : ℕ × ℕ :=
  let x := modSub p (modSub p (l*l) x₁) x₂
  (x, modSub p (l*modSub p x₁ x) y₁)

/-- The sum of two points; `none` is the point at infinity. -/
def addPoints (a : ℕ) : Option (ℕ × ℕ) → Option (ℕ × ℕ) → Option (ℕ × ℕ)
  | none, Q => Q
  | P, none => P
  | some (x₁, y₁), some (x₂, y₂) =>
    if x₁ ≠ x₂ then some (chord p (modSub p y₁ y₂*modInv p (modSub p x₁ x₂)) x₁ y₁ x₂)
    else if (y₁+y₂) % p = 0 then none
    else some (chord p ((3*x₁*x₁+a)*modInv p (2*y₁)) x₁ y₁ x₂)

/-- A multiple of a point, from the highest of the bits of the factor. -/
def mulPoint (a : ℕ) (P : Option (ℕ × ℕ)) : (bits k : ℕ) → Option (ℕ × ℕ)
  | 0, _ => none
  | bits+1, k =>
    let Q := mulPoint a P bits (k/2)
    if k % 2 = 0 then addPoints p a Q Q else addPoints p a (addPoints p a Q Q) P

end

section
variable {p : ℕ} [Fact p.Prime]

theorem cast_modSub (x y : ℕ) : (modSub p x y : ZMod p) = x-y := by
  have hle : y % p ≤ p := (Nat.mod_lt y (Fact.out : p.Prime).pos).le
  rw [modSub, ZMod.natCast_mod, Nat.cast_add, Nat.cast_sub hle, ZMod.natCast_self, ZMod.natCast_mod, zero_sub,
    sub_eq_add_neg]

theorem modSub_lt (x y : ℕ) : modSub p x y < p := Nat.mod_lt _ (Fact.out : p.Prime).pos

theorem cast_modInv (hp : 2 < p) (x : ℕ) : (modInv p x : ZMod p) = (x : ZMod p)⁻¹ := by
  have hlt : p-2 < 2^p.size := (Nat.sub_le p 2).trans_lt p.lt_size_self
  rw [modInv, powMod_eq p x hlt, ZMod.natCast_mod, Nat.cast_pow]
  by_cases hx : (x : ZMod p) = 0
  · rw [hx, zero_pow (by omega), inv_zero]
  · apply eq_inv_of_mul_eq_one_left
    rw [← pow_succ, show p-2+1 = p-1 by omega, ZMod.pow_card_sub_one_eq_one hx]

end

section
variable (p a b : ℕ)

/-- The curve with Mathlib's notions. -/
def shortCurve : WeierstrassCurve.Affine (ZMod p) := ⟨0, 0, 0, a, b⟩

end

section
variable {p a b : ℕ} [Fact p.Prime]

/-- The coordinates as remainders. -/
def coords : (shortCurve p a b).Point → Option (ℕ × ℕ)
  | .zero => none
  | .some x y _ => some (x.val, y.val)

theorem coords_injective : Function.Injective (coords (p := p) (a := a) (b := b)) := by
  intro A B h
  cases A with
  | zero =>
    cases B with
    | zero => rfl
    | some x y hB => cases h
  | some x y hA =>
    cases B with
    | zero => cases h
    | some x' y' hB =>
      obtain ⟨hx, hy⟩ := Prod.mk.inj (Option.some.inj h)
      obtain rfl := ZMod.val_injective p hx
      obtain rfl := ZMod.val_injective p hy
      rfl

/-- The numbers of `chord` are the formulas of the group law. -/
theorem chord_eq {l x₁ y₁ x₂ : ℕ} : chord p l x₁ y₁ x₂ =
    (((shortCurve p a b).addX x₁ x₂ l).val, ((shortCurve p a b).addY x₁ x₂ y₁ l).val) := by
  have hval {n : ℕ} {x : ZMod p} (hn : n < p) (h : (n : ZMod p) = x) : n = x.val := by
    rw [← h, ZMod.val_natCast_of_lt hn]
  have hx : (modSub p (modSub p (l*l) x₁) x₂ : ZMod p) = (shortCurve p a b).addX x₁ x₂ l := by
    simp only [cast_modSub, Nat.cast_mul, WeierstrassCurve.Affine.addX, shortCurve]
    ring
  apply Prod.ext
  · exact hval (modSub_lt _ _) hx
  · apply hval (modSub_lt _ _)
    rw [cast_modSub, Nat.cast_mul, cast_modSub, hx]
    simp only [WeierstrassCurve.Affine.addY, WeierstrassCurve.Affine.negAddY, WeierstrassCurve.Affine.negY, shortCurve]
    ring

/-- The coordinates of a sum are those that `addPoints` computes. -/
theorem coords_add (hp : 2 < p) (A B : (shortCurve p a b).Point) :
    coords (A+B) = addPoints p a (coords A) (coords B) := by
  cases A with
  | zero => rw [← WeierstrassCurve.Affine.Point.zero_def, zero_add]; rfl
  | some x₁ y₁ hA =>
    cases B with
    | zero => rw [← WeierstrassCurve.Affine.Point.zero_def, add_zero]; rfl
    | some x₂ y₂ hB =>
      -- the formulas of the group law at the slope that was computed
      have hchord {l : ℕ} (hxy : ¬ (x₁ = x₂ ∧ y₁ = (shortCurve p a b).negY x₂ y₂))
          (hl : (l : ZMod p) = (shortCurve p a b).slope x₁ x₂ y₁ y₂) :
          coords (WeierstrassCurve.Affine.Point.some x₁ y₁ hA+.some x₂ y₂ hB) =
            some (chord p l x₁.val y₁.val x₂.val) := by
        rw [WeierstrassCurve.Affine.Point.add_some hxy, chord_eq (a := a) (b := b), hl]
        simp only [ZMod.natCast_zmod_val]
        rfl
      have hsum : coords (WeierstrassCurve.Affine.Point.some x₁ y₁ hA) = some (x₁.val, y₁.val) := rfl
      have hsum' : coords (WeierstrassCurve.Affine.Point.some x₂ y₂ hB) = some (x₂.val, y₂.val) := rfl
      have hneg : (y₁.val+y₂.val) % p = 0 ↔ y₁ = (shortCurve p a b).negY x₂ y₂ := by
        rw [← Nat.dvd_iff_mod_eq_zero, ← ZMod.natCast_eq_zero_iff, Nat.cast_add, ZMod.natCast_zmod_val,
          ZMod.natCast_zmod_val, add_eq_zero_iff_eq_neg]
        simp [WeierstrassCurve.Affine.negY, shortCurve]
      rw [hsum, hsum', addPoints]
      split_ifs with hx hy
      · have hne : x₁ ≠ x₂ := fun h => hx (congrArg ZMod.val h)
        apply hchord (fun h => hne h.1)
        rw [WeierstrassCurve.Affine.slope_of_X_ne hne, Nat.cast_mul, cast_modInv hp, cast_modSub, cast_modSub,
          div_eq_mul_inv]
        simp only [ZMod.natCast_zmod_val]
      · have heq : x₁ = x₂ := ZMod.val_injective p (not_not.mp hx)
        rw [WeierstrassCurve.Affine.Point.add_of_Y_eq heq (hneg.mp hy)]
        rfl
      · have heq : x₁ = x₂ := ZMod.val_injective p (not_not.mp hx)
        apply hchord (fun h => hy (hneg.mpr h.2))
        rw [WeierstrassCurve.Affine.slope_of_Y_ne heq (fun h => hy (hneg.mpr h)), Nat.cast_mul, cast_modInv hp,
          div_eq_mul_inv]
        simp only [WeierstrassCurve.Affine.negY, shortCurve, Nat.cast_add, Nat.cast_mul, ZMod.natCast_zmod_val]
        push_cast
        congr 1
        · ring
        · congr 1
          ring

theorem coords_nsmul (hp : 2 < p) (A : (shortCurve p a b).Point) {bits k : ℕ} (h : k < 2^bits) :
    coords (k•A) = mulPoint p a (coords A) bits k := by
  induction bits generalizing k with
  | zero =>
    obtain rfl : k = 0 := by omega
    rw [zero_nsmul]
    rfl
  | succ bits ih =>
    have hhalf : k/2 < 2^bits := by
      rw [pow_succ] at h
      omega
    rw [mulPoint, ← ih hhalf, ← coords_add hp, ← coords_add hp, ← add_nsmul, ← succ_nsmul]
    split_ifs with heven
    · rw [show k/2+k/2 = k by omega]
    · rw [show k/2+k/2+1 = k by omega]

end

end SecureChaincode
