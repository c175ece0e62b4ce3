import SecureChaincode.FailClosed
import SecureChaincode.P256
import SecureChaincode.Setup

/-! The key for encrypted arguments: the client derives it in Go with `ecc/crypto/enc.go`, the
enclave in `invoke_enc` from the public key that the client sends. -/
namespace SecureChaincode

/-- A private key with the public key that belongs to it. -/
structure KeyPair where
  d : ℕ
  pub : AffinePoint
  pub_eq : AffinePoint.base.mul d = some (pub.x, pub.y)

section
variable {ρ : Type} (X : PkixLibs ρ) (sum256 : Bytes → Bytes)

def parseECDSAPubKey (raw : Bytes) : Except String (ℕ × ℕ) :=
  match X.parsePKIXPublicKey raw with
  | .error err => .error ("Failed parsing ecdsa public key [" ++ err ++ "]")
  | .ok (.ecdsa x y) => .ok (ofBigEndian x, ofBigEndian y)
  | .ok _ => .error "Verification key is not of type ECDSA"

/-- The numbers are hashed without leading zeros. -/
def genSharedKey (pub : ℕ × ℕ) (d : ℕ) : Bytes :=
  (sum256 (toBigEndian (scalarMult pub.1 pub.2 (toBigEndian d)).1)).take 16

/-- The public key in the format that is sent. -/
def pubBytes (pub : AffinePoint) : Bytes := toBigEndian pub.x ++ toBigEndian pub.y

/-- The key and the public key of the client, with the key pair that is generated for it. A key of
the enclave that cannot be parsed is a panic. -/
def genCrypto (enclavePk : Bytes) (pair : KeyPair) : Go (Bytes × Bytes) :=
  match parseECDSAPubKey X enclavePk with
  | .error _ => .error .panic
  | .ok enclavePub => .ok (genSharedKey sum256 enclavePub pair.d, pubBytes pair.pub)

end

/-- The key of the client as the enclave reads it, in the format of SGX. -/
def readClientPk (pk : Bytes) : Option Bytes :=
  let pkBytes := base64Decode pk ++ [0]
  if pkBytes.length < 64 then none
  else some ((pkBytes.take 32).reverse ++ ((pkBytes.drop 32).take 32).reverse)

section
variable {η τ σ : Type} (E : Enclave η τ σ)

/-- The key of `invoke_enc`, with `some none` for an error of the SGX library. -/
def invokeEncKey (pk : Bytes) : Option (Option Bytes) :=
  (readClientPk pk).map fun clientPk => (E.computeSharedDhkey clientPk).map fun shared => E.deriveKey shared.reverse

/-- `invoke_enc` decrypts the arguments with this key. -/
theorem invokeEnc_eq_key (invoke : ChaincodeEntry) (args pk : Bytes) (maxResponseLen : ℕ) :
    invokeEnc E invoke args pk maxResponseLen =
      match invokeEncKey E pk with
      | none => .fault
      | some none => .done none
      | some (some key) =>
        let cipher := base64Decode args
        let neededSize := argsNeededSize cipher.length
        if plainOverflows E neededSize then .fault
        else
          match E.gcm.decrypt key (cipher.take 12) ((cipher.drop 12).take 16)
            ((cipher.drop 28).take neededSize.toNat) with
          | (false, _) => .done none
          | (true, plain) => invoke (cstr plain) maxResponseLen := by
  rw [invokeEnc, invokeEncKey, readClientPk]
  dsimp only
  by_cases hshort : (base64Decode pk ++ [0]).length < 64
  · rw [if_pos hshort, if_pos hshort]
    rfl
  · rw [if_neg hshort, if_neg hshort, Option.map_some]
    cases E.computeSharedDhkey _ with
    | none => rfl
    | some shared => rfl

/-- The SGX library with the private key `d`: the first coordinate of the shared point, from the
least significant byte. -/
def ComputesSharedKey (d : ℕ) : Prop :=
  ∀ P : AffinePoint, E.computeSharedDhkey P.sgxBytes = (P.mul d).map fun S => (fixedBytes 32 S.1).reverse

end

/-- With one byte missing, the byte behind the string does not make up for it. -/
theorem pubBytes_append_zero_ne (P : AffinePoint) : pubBytes P ++ [0] ≠ P.bytes := by
  intro h
  have hx := AffinePoint.length_toBigEndian_le P.x_lt
  have hy := AffinePoint.length_toBigEndian_le P.y_lt
  have hlen := congrArg List.length h
  have hvalue := congrArg ofBigEndian h
  rw [P.length_bytes, pubBytes, List.length_append, List.length_append, List.length_singleton] at hlen
  rw [AffinePoint.bytes, pubBytes, ofBigEndian_append, ofBigEndian_append, ofBigEndian_append, ofBigEndian_toBigEndian,
    ofBigEndian_toBigEndian, ofBigEndian_fixedBytes, ofBigEndian_fixedBytes, P.length_y, List.length_singleton,
    show ofBigEndian [0] = 0 from rfl] at hvalue
  have hpos {n : ℕ} (hn : (toBigEndian n).length = 31) : n ≠ 0 := by
    rintro rfl
    cases hn
  -- the missing byte is one of the first or of the second coordinate
  obtain hlen' | hlen' : (toBigEndian P.y).length = 32 ∨ (toBigEndian P.y).length = 31 := by omega
  · have hne := hpos (show (toBigEndian P.x).length = 31 by omega)
    rw [hlen'] at hvalue
    omega
  · have hne := hpos hlen'
    rw [hlen'] at hvalue
    omega

theorem readClientPk_eq_some {P : AffinePoint} {b : Bytes} (h : readClientPk (base64Encode b) = some P.sgxBytes) :
    63 ≤ b.length ∧ (b ++ [0]).take 64 = P.bytes := by
  rw [readClientPk, base64Decode_base64Encode] at h
  split_ifs at h with hshort
  obtain ⟨hfirst, hsecond⟩ := List.append_inj (Option.some.inj h) (by
    rw [List.length_reverse, List.length_reverse, P.length_x, List.length_take_of_le (by omega)])
  rw [List.length_append, List.length_singleton] at hshort
  refine ⟨by omega, ?_⟩
  rw [show 64 = 32+32 from rfl, List.take_add, List.reverse_injective hfirst, List.reverse_injective hsecond]
  rfl

/-- A key that is written without leading zeros is read as the same point exactly if there are
none. -/
theorem readClientPk_iff (P : AffinePoint) :
    readClientPk (base64Encode (pubBytes P)) = some P.sgxBytes ↔ P.FullWidth := by
  constructor
  · intro h
    obtain ⟨hlong, hread⟩ := readClientPk_eq_some h
    apply P.fullWidth_iff.mpr
    rw [← pubBytes]
    have hx := AffinePoint.length_toBigEndian_le P.x_lt
    have hy := AffinePoint.length_toBigEndian_le P.y_lt
    have hlen : (pubBytes P).length = (toBigEndian P.x).length+(toBigEndian P.y).length := List.length_append
    by_contra hne
    apply pubBytes_append_zero_ne P
    rw [← hread, List.take_of_length_le]
    rw [List.length_append, List.length_singleton]
    omega
  · intro hfull
    obtain ⟨hx, hy⟩ := AffinePoint.minimal_of_fullWidth hfull
    have hbytes : pubBytes P = fixedBytes 32 P.x ++ fixedBytes 32 P.y := by rw [pubBytes, hx, hy]
    have hlong : ¬ (pubBytes P ++ [0]).length < 64 := by
      rw [hbytes, List.length_append, List.length_append, P.length_x, P.length_y]
      decide
    rw [readClientPk, base64Decode_base64Encode, if_neg hlong, hbytes, List.append_assoc, List.take_left' P.length_x,
      List.drop_left' P.length_x, List.take_left' P.length_y]
    rfl

section
variable {η τ σ : Type} {E : Enclave η τ σ} {sum256 : Bytes → Bytes}

theorem genSharedKey_eq (P : AffinePoint) (d : ℕ) :
    genSharedKey sum256 (P.x, P.y) d = (sum256 (toBigEndian ((P.mul d).getD (0, 0)).1)).take 16 := by
  rw [genSharedKey, scalarMult_eq, ofBigEndian_toBigEndian]

/-- The first coordinate has 32 bytes exactly if it does not start with a zero byte. -/
theorem minimal_eq_field_iff {x : ℕ} (hx : x < p256) : toBigEndian x = fixedBytes 32 x ↔ 2^248 ≤ x := by
  rw [← AffinePoint.length_toBigEndian_eq hx]
  constructor
  · intro h
    rw [h, length_fixedBytes (AffinePoint.lt_field hx)]
  · exact toBigEndian_of_full

/-- The enclave reads the key of the client as the same point and derives the key that the client
has derived, exactly if neither the coordinates of the client's key nor the first coordinate of the
shared point start with a zero byte. -/
theorem shared_keys_agree_iff (client enclave : KeyPair) (hE : ComputesSharedKey E enclave.d)
    (hderive : ∀ b, E.deriveKey b = (sum256 b).take 16)
    (hhash : ∀ x, E.deriveKey (toBigEndian x) = E.deriveKey (fixedBytes 32 x) → toBigEndian x = fixedBytes 32 x) :
    (readClientPk (base64Encode (pubBytes client.pub)) = some client.pub.sgxBytes ∧
      invokeEncKey E (base64Encode (pubBytes client.pub)) =
        some (some (genSharedKey sum256 (enclave.pub.x, enclave.pub.y) client.d))) ↔
    client.pub.FullWidth ∧ ∃ S, enclave.pub.mul client.d = some S ∧ 2^248 ≤ S.1 := by
  have hshared : client.pub.mul enclave.d = enclave.pub.mul client.d :=
    AffinePoint.mul_comm client.pub_eq enclave.pub_eq
  rw [readClientPk_iff]
  apply and_congr_right
  intro hfull
  rw [invokeEncKey, (readClientPk_iff _).mpr hfull, Option.map_some, hE, hshared, genSharedKey_eq, ← hderive]
  cases hS : enclave.pub.mul client.d with
  | none => simp
  | some S =>
    have hlt : S.1 < p256 := AffinePoint.mul_lt hS
    simp only [Option.map_some, Option.getD_some, List.reverse_reverse, Option.some.injEq, exists_eq_left']
    rw [← minimal_eq_field_iff hlt]
    constructor
    · intro h
      exact hhash S.1 h.symm
    · intro h
      rw [h]

end

/-- A hash that tells texts of different lengths apart. -/
def lengthHash (b : Bytes) : Bytes := List.replicate 32 b.length.toUInt8

/-- An enclave with the private key `d`. -/
def dhEnclave (d : ℕ) : Enclave Bytes Bool Unit :=
  { frankEnclave with
    computeSharedDhkey := fun pk =>
      (mulPoint p256 p256A (some (ofBigEndian (pk.take 32).reverse, ofBigEndian (pk.drop 32).reverse)) d.size d).map
        fun S => (fixedBytes 32 S.1).reverse
    deriveKey := fun b => (lengthHash b).take 16 }

theorem computesSharedKey_dhEnclave (d : ℕ) : ComputesSharedKey (dhEnclave d) d := by
  intro P
  have hlen : (fixedBytes 32 P.x).reverse.length = 32 := by rw [List.length_reverse, P.length_x]
  simp only [dhEnclave, AffinePoint.sgxBytes, AffinePoint.mul, List.take_left' hlen, List.drop_left' hlen,
    List.reverse_reverse, ofBigEndian_fixedBytes]

theorem lengthHash_separates (x : ℕ) (h : (lengthHash (toBigEndian x)).take 16 = (lengthHash (fixedBytes 32 x)).take 16) :
    toBigEndian x = fixedBytes 32 x := by
  by_cases hx : x < 256^32
  · have hle := length_toBigEndian_le_iff.mpr hx
    rw [lengthHash, lengthHash, length_fixedBytes hx, List.take_replicate, List.take_replicate] at h
    have hbyte : (toBigEndian x).length.toUInt8 = (32 : ℕ).toUInt8 := (List.replicate_inj.mp h).2.resolve_left (by decide)
    have hmod : (toBigEndian x).length % 256 = 32 % 256 := by
      simpa using congrArg UInt8.toNat hbyte
    exact toBigEndian_of_full (by omega)
  · have hlong : ¬ (toBigEndian x).length ≤ 32 := fun hle => hx (length_toBigEndian_le_iff.mp hle)
    rw [fixedBytes, show 32-(toBigEndian x).length = 0 by omega]
    rfl

/-- The key pairs with the private keys 1, 2, 43 and 379. -/
def pair1 : KeyPair := ⟨1, .base, by decide +kernel⟩

def pair2 : KeyPair where
  d := 2
  pub :=
    { x := 0x7cf27b188d034f7e8a52380304b51ac3c08969e277f21b35a60b48fc47669978
      y := 0x7775510db8ed040293d9ac69f7430dbba7dade63ce982299e04b79d227873d1
      x_lt := by decide +kernel
      y_lt := by decide +kernel
      onCurve := by decide +kernel }
  pub_eq := by decide +kernel

def pair43 : KeyPair where
  d := 43
  pub :=
    { x := 0x986ae2506f1ff104d04230861d8f4b498f4bc4c6d009b30f7544dc129b82d28d
      y := 0x3cccc0a6460e0ae328a4d97d3c7b61d86fc6289c189f2525110c441bb07e97
      x_lt := by decide +kernel
      y_lt := by decide +kernel
      onCurve := by decide +kernel }
  pub_eq := by decide +kernel

def pair379 : KeyPair where
  d := 379
  pub :=
    { x := 0x5543894af3d00ed7d740abdbd75c96b06877b787db5f70eea78b90a8d7c00a
      y := 0xbb4c85a3d8ea29efaafa24406912dd84d5b14dc32bf656ef6c6bd58a5d943f92
      x_lt := by decide +kernel
      y_lt := by decide +kernel
      onCurve := by decide +kernel }
  pub_eq := by decide +kernel

/-- Two key pairs for which both sides agree. -/
theorem pair1_agrees_with_pair2 :
    readClientPk (base64Encode (pubBytes pair1.pub)) = some pair1.pub.sgxBytes ∧
      invokeEncKey (dhEnclave 2) (base64Encode (pubBytes pair1.pub)) =
        some (some (genSharedKey lengthHash (pair2.pub.x, pair2.pub.y) 1)) := by
  apply (shared_keys_agree_iff pair1 pair2 (computesSharedKey_dhEnclave 2) (fun _ => rfl) lengthHash_separates).mpr
  exact ⟨AffinePoint.base_fullWidth, (pair2.pub.x, pair2.pub.y), by decide +kernel, by decide +kernel⟩

/-- With the private key 379 of the enclave the shared coordinate has 31 bytes: the keys differ. The
public key of the client's private key 43 has 63 bytes and is read as another one. -/
theorem short_coordinates_disagree :
    (invokeEncKey (dhEnclave 379) (base64Encode (pubBytes pair1.pub)) = some (some (List.replicate 16 32)) ∧
      genSharedKey lengthHash (pair379.pub.x, pair379.pub.y) 1 = List.replicate 16 31) ∧
    ((pubBytes pair43.pub).length = 63 ∧
      readClientPk (base64Encode (pubBytes pair43.pub)) ≠ some pair43.pub.sgxBytes) := by
  refine ⟨⟨by decide +kernel, by decide +kernel⟩, by decide +kernel, ?_⟩
  rw [ne_eq, readClientPk_iff]
  intro hfull
  exact absurd hfull.2 (by decide +kernel)

end SecureChaincode
