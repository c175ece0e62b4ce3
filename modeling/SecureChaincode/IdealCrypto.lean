import Mathlib

/-! Hashing and authentication in the ideal: a hash without collisions, and codes and
signatures that verify for one message only. A hash into 32 bytes has collisions, so digests
are written in an alphabet of their own, of which the bytes are a part. -/
namespace SecureChaincode

/-- A hash over words of the alphabet `ω`, with digests of 32 letters. -/
structure IdealHash (ω : Type) where
  byte : UInt8 → ω
  sha256 : List ω → List ω
  byte_injective : Function.Injective byte
  sha256_injective : Function.Injective sha256
  length_sha256 : ∀ m, (sha256 m).length = 32
  sha256_ne_zeros : ∀ m, sha256 m ≠ List.replicate 32 (byte 0)

/-- An authentication code under one key. -/
structure IdealMac (ω τ : Type) where
  cmac : List ω → τ
  cmac_injective : Function.Injective cmac

/-- Signatures of the type `σ` under public keys of the type `κ`. -/
structure IdealSig (ω κ σ : Type) where
  verify : κ → List ω → σ → Bool
  verify_unique : ∀ pk m m' s, verify pk m s = true → verify pk m' s = true → m = m'

/-- The code that is the message itself. -/
def IdealMac.plain (ω : Type) : IdealMac ω (List ω) := ⟨id, Function.injective_id⟩

/-- Only the message `m₀` has been signed. -/
def IdealSig.only {ω : Type} [DecidableEq ω] (κ σ : Type) (m₀ : List ω) : IdealSig ω κ σ where
  verify _ m _ := m = m₀
  verify_unique _ _ _ _ h h' := (of_decide_eq_true h).trans (of_decide_eq_true h').symm

/-- Digests that spell out a number for the message, above all bytes. -/
def IdealHash.numbered : IdealHash ℕ where
  byte := UInt8.toNat
  sha256 m := List.replicate 32 (256+Encodable.encode m)
  byte_injective := fun _ _ h => UInt8.toNat_inj.mp h
  sha256_injective := by
    intro m m' h
    have hl := List.replicate_right_injective (by decide : (32 : ℕ) ≠ 0) h
    exact Encodable.encode_injective (Nat.add_left_cancel hl)
  length_sha256 := fun _ => List.length_replicate
  sha256_ne_zeros := by
    intro m h
    have hl := List.replicate_right_injective (by decide : (32 : ℕ) ≠ 0) h
    have hz : (0 : UInt8).toNat = 0 := rfl
    omega

section
variable {ω τ : Type} (H : IdealHash ω)

/-- A byte string in the alphabet. -/
def IdealHash.bytes (b : List UInt8) : List ω := b.map H.byte

def IdealHash.zeros : List ω := List.replicate 32 (H.byte 0)

theorem IdealHash.bytes_injective : Function.Injective H.bytes :=
  List.map_injective_iff.mpr H.byte_injective

/-- A text with a digest behind it can be taken apart again. -/
theorem IdealHash.bytes_append_inj {b b' : List UInt8} {d d' : List ω} (hd : d.length = 32)
    (hd' : d'.length = 32) (h : H.bytes b ++ d = H.bytes b' ++ d') : b = b' ∧ d = d' := by
  obtain ⟨hb, he⟩ := List.append_inj' h (hd.trans hd'.symm)
  exact ⟨H.bytes_injective hb, he⟩

end

end SecureChaincode
