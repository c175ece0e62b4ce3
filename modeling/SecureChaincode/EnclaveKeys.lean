import SecureChaincode.BigEndian
import SecureChaincode.ErccVscc
import SecureChaincode.Shim

/-! The keys and signatures of the enclave between the format of SGX, two numbers of 32 bytes
each, and that of Go's library, from `ecc/crypto/ecdsa.go`. -/
namespace SecureChaincode

/-- The prime of the curve P-256. -/
def p256 : ℕ := 0xffffffff00000001000000000000000000000000ffffffffffffffffffffffff

def p256B : ℕ := 0x5ac635d8aa3a93e7b3ebbd55769886bc651d06b0cc53b0f63bce3c3e27d2604b

/-- `IsOnCurve`, the equation y² = x³-3x+b. -/
def isOnCurve (x y : ℕ) : Bool := ((x : ℤ)^3-3*x+p256B) % p256 == (y : ℤ)*y % p256

/-- The functions of `crypto/x509` and `encoding/asn1` for keys on P-256 and for signatures. -/
structure PkixLibs (ρ : Type) where
  marshalPKIXPublicKey : ℕ → ℕ → Except String Bytes
  parsePKIXPublicKey : Bytes → Except String (PkixKey ρ)
  marshalASN1 : ℕ → ℕ → Except String Bytes

section
variable {ρ : Type} (X : PkixLibs ρ)

/-- `input[:32]` and `input[32:]`. -/
def halves (input : Bytes) : Go (Bytes × Bytes) :=
  if input.length < 32 then .error .panic else .ok (input.take 32, input.drop 32)

def enclavePk2ECDSAPK (input : Bytes) : Go (ℕ × ℕ) := do
  let (first, second) ← halves input
  let x := ofBigEndian first
  let y := ofBigEndian second
  failUnless (isOnCurve x y) "Public key not valid (Point not on curve)"
  return (x, y)

def marshalEnclavePk (input : Bytes) : Go Bytes := do
  let (x, y) ← enclavePk2ECDSAPK input
  (X.marshalPKIXPublicKey x y).mapError (fun err => .error ("Failed marshalling key [" ++ err ++ "]"))

/-- The bytes of the two numbers are copied to the start of their fields. A key of another type
fails the assertion. -/
def unmarshalEnclavePk (input : Bytes) : Go Bytes := do
  let re ← (X.parsePKIXPublicKey input).mapError
    (fun err => .error ("Failed to parse DER encoded public key [" ++ err ++ "]"))
  match re with
  | .ecdsa x y => return outBuffer 32 x ++ outBuffer 32 y
  | _ => .error .panic

def marshalEnclaveSignature (input : Bytes) : Go Bytes := do
  let (first, second) ← halves input
  let r := ofBigEndian first
  let s := ofBigEndian second
  failUnless (r != 0) "Invalid signature. R must be larger than zero"
  failUnless (s != 0) "Invalid signature. S must be larger than zero"
  (X.marshalASN1 r s).mapError GoExit.error

/-- A key that is written in the format of Go is read as the same point. -/
def PkixLibs.RoundTrip : Prop :=
  ∀ x y, x < p256 → y < p256 → isOnCurve x y = true →
    ∃ der, X.marshalPKIXPublicKey x y = .ok der ∧
      X.parsePKIXPublicKey der = .ok (.ecdsa (toBigEndian x) (toBigEndian y))

end

/-- A point of the curve that is not at infinity. -/
structure AffinePoint where
  x : ℕ
  y : ℕ
  x_lt : x < p256
  y_lt : y < p256
  onCurve : isOnCurve x y = true

namespace AffinePoint

/-- The base point of P-256. -/
def base : AffinePoint where
  x := 0x6b17d1f2e12c4247f8bce6e563a440f277037d812deb33a0f4a13945d898c296
  y := 0x4fe342e2fe1a7f9b8ee7eb4a7c0f9e162bce33576b315ececbb6406837bf51f5
  x_lt := by decide +kernel
  y_lt := by decide +kernel
  onCurve := by decide +kernel

/-- The public key as `ecall_get_pk` and `ecall_create_report` copy it out. -/
def bytes (P : AffinePoint) : Bytes := fixedBytes 32 P.x ++ fixedBytes 32 P.y

/-- Neither coordinate starts with a zero byte. -/
def FullWidth (P : AffinePoint) : Prop := 2^248 ≤ P.x ∧ 2^248 ≤ P.y

/-- A coordinate is zero or does not start with a zero byte. -/
def FieldsKept (P : AffinePoint) : Prop := (P.x = 0 ∨ 2^248 ≤ P.x) ∧ (P.y = 0 ∨ 2^248 ≤ P.y)

theorem p256_lt : p256 < 256^32 := by decide +kernel

theorem lt_field {n : ℕ} (h : n < p256) : n < 256^32 := h.trans p256_lt

theorem pow_31 : (256 : ℕ)^31 = 2^248 := by decide +kernel

theorem length_toBigEndian_le {n : ℕ} (h : n < p256) : (toBigEndian n).length ≤ 32 :=
  length_toBigEndian_le_iff.mpr (lt_field h)

/-- A coordinate fills its field if it does not start with a zero byte. -/
theorem length_toBigEndian_eq {n : ℕ} (h : n < p256) : (toBigEndian n).length = 32 ↔ 2^248 ≤ n := by
  rw [← pow_31]
  exact length_toBigEndian_eq_iff (lt_field h)

theorem length_x (P : AffinePoint) : (fixedBytes 32 P.x).length = 32 := length_fixedBytes (lt_field P.x_lt)

theorem length_y (P : AffinePoint) : (fixedBytes 32 P.y).length = 32 := length_fixedBytes (lt_field P.y_lt)

theorem length_bytes (P : AffinePoint) : P.bytes.length = 64 := by
  rw [bytes, List.length_append, P.length_x, P.length_y]

theorem eq_of_bytes {P Q : AffinePoint} (h : P.bytes = Q.bytes) : P = Q := by
  obtain ⟨hx, hy⟩ := List.append_inj h (P.length_x.trans Q.length_x.symm)
  have hx' : P.x = Q.x := by rw [← ofBigEndian_fixedBytes 32 P.x, hx, ofBigEndian_fixedBytes]
  have hy' : P.y = Q.y := by rw [← ofBigEndian_fixedBytes 32 P.y, hy, ofBigEndian_fixedBytes]
  cases P
  cases Q
  cases hx'
  cases hy'
  rfl

/-- The two numbers without leading zeros have 64 bytes only if both have 32. -/
theorem fullWidth_iff (P : AffinePoint) :
    P.FullWidth ↔ (toBigEndian P.x ++ toBigEndian P.y).length = 64 := by
  have hx := length_toBigEndian_le P.x_lt
  have hy := length_toBigEndian_le P.y_lt
  rw [FullWidth, ← length_toBigEndian_eq P.x_lt, ← length_toBigEndian_eq P.y_lt, List.length_append]
  omega

/-- Then the numbers are the fields. -/
theorem minimal_of_fullWidth {P : AffinePoint} (h : P.FullWidth) :
    toBigEndian P.x = fixedBytes 32 P.x ∧ toBigEndian P.y = fixedBytes 32 P.y := by
  have hlen := P.fullWidth_iff.mp h
  have hx := length_toBigEndian_le P.x_lt
  have hy := length_toBigEndian_le P.y_lt
  rw [List.length_append] at hlen
  exact ⟨toBigEndian_of_full (by omega), toBigEndian_of_full (by omega)⟩

/-- The numbers of one point are the fields of another only if it is the same one. -/
theorem minimal_eq_bytes_iff (P Q : AffinePoint) :
    toBigEndian Q.x ++ toBigEndian Q.y = P.bytes ↔ Q = P ∧ P.FullWidth := by
  constructor
  · intro h
    have hfull : Q.FullWidth := Q.fullWidth_iff.mpr (by rw [h, P.length_bytes])
    obtain ⟨hx, hy⟩ := minimal_of_fullWidth hfull
    have heq : Q = P := by
      apply eq_of_bytes
      rw [← h, hx, hy]
      rfl
    exact ⟨heq, heq ▸ hfull⟩
  · rintro ⟨rfl, hfull⟩
    obtain ⟨hx, hy⟩ := minimal_of_fullWidth hfull
    rw [hx, hy]
    rfl

theorem base_fullWidth : base.FullWidth := by
  constructor
  · decide +kernel
  · decide +kernel

theorem FullWidth.fieldsKept {P : AffinePoint} (h : P.FullWidth) : P.FieldsKept := ⟨Or.inr h.1, Or.inr h.2⟩

end AffinePoint

theorem enclavePk2ECDSAPK_bytes (P : AffinePoint) : enclavePk2ECDSAPK P.bytes = .ok (P.x, P.y) := by
  have hhalves : halves P.bytes = .ok (fixedBytes 32 P.x, fixedBytes 32 P.y) := by
    have hlen : ¬ P.bytes.length < 32 := by
      rw [P.length_bytes]
      decide
    rw [halves, if_neg hlen, AffinePoint.bytes, List.take_left' P.length_x, List.drop_left' P.length_x]
  simp only [enclavePk2ECDSAPK, hhalves, bind, Except.bind, ofBigEndian_fixedBytes, P.onCurve, failUnless, if_true, pure,
    Except.pure]

theorem unmarshalEnclavePk_ecdsa {ρ : Type} {X : PkixLibs ρ} {der x y : Bytes}
    (h : X.parsePKIXPublicKey der = .ok (.ecdsa x y)) :
    unmarshalEnclavePk X der = .ok (outBuffer 32 x ++ outBuffer 32 y) := by
  rw [unmarshalEnclavePk, h]
  rfl

theorem length_unmarshalEnclavePk {ρ : Type} {X : PkixLibs ρ} {der b : Bytes}
    (h : unmarshalEnclavePk X der = .ok b) : b.length = 64 := by
  obtain ⟨re, -, hre⟩ := bind_eq_ok h
  cases re with
  | ecdsa x y =>
    cases hre
    rw [List.length_append, length_outBuffer, length_outBuffer]
  | rsa key => cases hre
  | other => cases hre

section
variable {ρ : Type} {X : PkixLibs ρ} (hX : X.RoundTrip)
include hX

/-- The exported key in the format of Go, and what Go reads in it. -/
theorem marshalEnclavePk_bytes (P : AffinePoint) : ∃ der, marshalEnclavePk X P.bytes = .ok der ∧
    X.parsePKIXPublicKey der = .ok (.ecdsa (toBigEndian P.x) (toBigEndian P.y)) := by
  obtain ⟨der, hmarshal, hparse⟩ := hX P.x P.y P.x_lt P.y_lt P.onCurve
  refine ⟨der, ?_, hparse⟩
  rw [marshalEnclavePk, enclavePk2ECDSAPK_bytes]
  simp only [bind, Except.bind, hmarshal, Except.mapError]

/-- The way back to the format of SGX ends at the same key exactly if each coordinate is zero or
does not start with a zero byte. -/
theorem unmarshalEnclavePk_iff {P : AffinePoint} {der : Bytes} (h : marshalEnclavePk X P.bytes = .ok der) :
    unmarshalEnclavePk X der = .ok P.bytes ↔ P.FieldsKept := by
  obtain ⟨der', hmarshal, hparse⟩ := marshalEnclavePk_bytes hX P
  obtain rfl : der = der' := Except.ok.inj (h.symm.trans hmarshal)
  have hread := unmarshalEnclavePk_ecdsa hparse
  have hfield {n : ℕ} (hn : n < p256) :
      outBuffer 32 (toBigEndian n) = fixedBytes 32 n ↔ n = 0 ∨ 2^248 ≤ n := by
    have hle := length_toBigEndian_le_iff.mpr (AffinePoint.lt_field hn)
    rw [outBuffer, List.take_append, List.take_of_length_le hle, List.take_replicate, Nat.min_eq_left (by omega),
      ← AffinePoint.pow_31]
    exact padded_eq_fixedBytes_iff (AffinePoint.lt_field hn)
  rw [hread, Except.ok.injEq, AffinePoint.bytes, AffinePoint.FieldsKept, ← hfield P.x_lt, ← hfield P.y_lt]
  constructor
  · intro heq
    apply List.append_inj heq
    rw [length_outBuffer, P.length_x]
  · rintro ⟨hx, hy⟩
    rw [hx, hy]

end

/-- Libraries that write a key as its two fields. -/
def plainPkix : PkixLibs Unit where
  marshalPKIXPublicKey x y := .ok (fixedBytes 32 x ++ fixedBytes 32 y)
  parsePKIXPublicKey der :=
    .ok (.ecdsa (toBigEndian (ofBigEndian (der.take 32))) (toBigEndian (ofBigEndian (der.drop 32))))
  marshalASN1 r s := .ok (toBigEndian r ++ toBigEndian s)

theorem plainPkix_roundTrip : plainPkix.RoundTrip := by
  intro x y hx _ _
  have hlen := length_fixedBytes (AffinePoint.lt_field hx)
  refine ⟨fixedBytes 32 x ++ fixedBytes 32 y, rfl, ?_⟩
  simp only [plainPkix, List.take_left' hlen, List.drop_left' hlen, ofBigEndian_fixedBytes]

end SecureChaincode
