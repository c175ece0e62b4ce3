import Mathlib

/-! Powers modulo a number, and primes certified by Lucas's test. -/
namespace SecureChaincode

/-- The power modulo `m` for an exponent of at most `bits` bits, by squaring. -/
def powMod (m a : ℕ) : (bits n : ℕ) → ℕ
  | 0, _ => 1 % m
  | bits+1, n =>
    let r := powMod m a bits (n/2)
    if n % 2 = 0 then r*r % m else r*r % m*a % m

theorem powMod_eq (m a : ℕ) {bits n : ℕ} (h : n < 2^bits) : powMod m a bits n = a^n % m := by
  induction bits generalizing n with
  | zero =>
    obtain rfl : n = 0 := by omega
    rfl
  | succ bits ih =>
    have hhalf : n/2 < 2^bits := by
      rw [pow_succ] at h
      omega
    have hsquare : a^(n/2) % m*(a^(n/2) % m) % m = a^(2*(n/2)) % m := by
      rw [← Nat.mul_mod, ← pow_add, two_mul]
    rw [powMod, ih hhalf, hsquare]
    split_ifs with heven
    · rw [show 2*(n/2) = n by omega]
    · rw [Nat.mod_mul_mod, ← pow_succ, show 2*(n/2)+1 = n by omega]

/-- Lucas's test with the prime factors of `p-1`, each as often as it divides. -/
def lucasCheck (p a : ℕ) (factors : List ℕ) : Bool :=
  2 ≤ p && factors.prod == p-1 && powMod p a p.size (p-1) == 1 &&
    factors.all (fun q => powMod p a p.size ((p-1)/q) != 1)

theorem prime_of_lucasCheck {p a : ℕ} {factors : List ℕ} (h : lucasCheck p a factors = true)
    (hprimes : ∀ q ∈ factors, q.Prime) : p.Prime := by
  simp only [lucasCheck, Bool.and_eq_true, decide_eq_true_eq, beq_iff_eq, List.all_eq_true, bne_iff_ne, ne_eq] at h
  obtain ⟨⟨⟨htwo, hprod⟩, hone⟩, hfactors⟩ := h
  have hpow {n : ℕ} (hn : n < p) : (a : ZMod p)^n = 1 ↔ powMod p a p.size n = 1 := by
    rw [powMod_eq p a (hn.trans p.lt_size_self), ← Nat.cast_pow, ← Nat.cast_one, ZMod.natCast_eq_natCast_iff',
      Nat.mod_eq_of_lt htwo]
  apply lucas_primality p (a : ZMod p)
  · exact (hpow (by omega)).mpr hone
  · intro q hq hdvd hcontra
    have hmem : q ∈ factors := by
      rw [← hprod] at hdvd
      exact mem_list_primes_of_dvd_prod hq.prime (fun r hr => (hprimes r hr).prime) hdvd
    have hlt : (p-1)/q < p := (Nat.div_le_self _ _).trans_lt (by omega)
    exact hfactors q hmem ((hpow hlt).mp hcontra)

/-- A number, the base for its test, and the prime factors of its predecessor. -/
structure LucasTest where
  p : ℕ
  a : ℕ
  factors : List ℕ

/-- Every test only uses factors that are known, or that were tested before. -/
def chainCheck : List ℕ → List LucasTest → Bool
  | _, [] => true
  | known, t :: tests =>
    t.factors.all (fun q => q ∈ known) && lucasCheck t.p t.a t.factors && chainCheck (t.p :: known) tests

theorem primes_of_chainCheck {known : List ℕ} {tests : List LucasTest} (hknown : ∀ q ∈ known, q.Prime)
    (h : chainCheck known tests = true) : ∀ t ∈ tests, t.p.Prime := by
  induction tests generalizing known with
  | nil =>
    intro t ht
    cases ht
  | cons t tests ih =>
    simp only [chainCheck, Bool.and_eq_true, List.all_eq_true, decide_eq_true_eq] at h
    obtain ⟨⟨hfactors, htest⟩, hrest⟩ := h
    have hprime : t.p.Prime := prime_of_lucasCheck htest (fun q hq => hknown q (hfactors q hq))
    have hmore : ∀ q ∈ t.p :: known, q.Prime := List.forall_mem_cons.mpr ⟨hprime, hknown⟩
    exact List.forall_mem_cons.mpr ⟨hprime, ih hmore hrest⟩

end SecureChaincode
