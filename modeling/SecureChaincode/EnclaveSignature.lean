import SecureChaincode.FoldExcept
import SecureChaincode.IdealCrypto
import SecureChaincode.KeyNames

/-! `ECDSAVerifier`, by which the validator checks the signature of a chaincode enclave over
the arguments, the response and the read and write sets of a transaction. -/
namespace SecureChaincode

/-- What `x509.ParsePKIXPublicKey` returns: a key for ECDSA or one of another kind. -/
inductive PublicKey (κ : Type)
  | ecdsa (pk : κ)
  | other

/-- The decoders of Go's library, which return a value or the text of an error. -/
structure Der (κ : Type) where
  asn1Unmarshal : Bytes → Except String (Option ℤ × Option ℤ)
  parsePKIXPublicKey : Bytes → Except String (PublicKey κ)

section
variable {ω κ : Type} (D : Der κ) (H : IdealHash ω) (S : IdealSig ω κ (ℤ × ℤ))

def unmarshalECDSASignature (raw : Bytes) : Except String (ℤ × ℤ) := do
  let sig ← (D.asn1Unmarshal raw).mapError
    (fun err => "Failed unmashalling signature [" ++ err ++ "]")
  match sig with
  | (none, _) => .error "Invalid signature. R must be different from nil"
  | (some _, none) => .error "Invalid signature. S must be different from nil"
  | (some r, some s) =>
    if r.sign ≠ 1 then .error "Invalid signature. R must be larger than zero"
    else if s.sign ≠ 1 then .error "Invalid signature. S must be larger than zero"
    else return (r, s)

/-- The bytes that are written into the hash, one after another and without lengths. -/
def signedBytes (args responseData : Bytes) (readset writeset : List Bytes) : Bytes :=
  args ++ responseData ++ readset.flatten ++ writeset.flatten

/-- `ECDSAVerifier.Verify`. -/
def verify (args responseData : Bytes) (readset writeset : List Bytes)
    (signature enclavePk : Bytes) : Except String Bool := do
  let rs ← (unmarshalECDSASignature D signature).mapError
    (fun err => "Failed unmarshalling signature [" ++ err ++ "]")
  let pk ← (D.parsePKIXPublicKey enclavePk).mapError
    (fun err => "Failed parsing ecdsa public key [" ++ err ++ "]")
  match pk with
  | .other => .error "Verification key is not of type ECDSA"
  | .ecdsa ecdsaPublickey =>
    let hash := H.sha256 (H.bytes (signedBytes args responseData readset writeset))
    -- `sgx_ecdsa_sign` hashes what it is given once more
    let hash2 := H.sha256 hash
    return S.verify ecdsaPublickey hash2 rs

/-- An accepted call has a well-formed signature and key, and the signature holds for the
hash of the hash. -/
theorem verify_eq_true_iff {args responseData : Bytes} {readset writeset : List Bytes}
    {signature enclavePk : Bytes} :
    verify D H S args responseData readset writeset signature enclavePk = .ok true ↔
      ∃ rs pk, unmarshalECDSASignature D signature = .ok rs ∧
        D.parsePKIXPublicKey enclavePk = .ok (.ecdsa pk) ∧
        S.verify pk (H.sha256 (H.sha256
          (H.bytes (signedBytes args responseData readset writeset)))) rs = true := by
  rw [verify]
  constructor
  · intro h
    obtain ⟨rs, hrs, h⟩ := bind_eq_ok h
    obtain ⟨pk, hpk, h⟩ := bind_eq_ok h
    cases pk with
    | other => cases h
    | ecdsa pk => exact ⟨rs, pk, mapError_eq_ok hrs, mapError_eq_ok hpk, Except.ok.inj h⟩
  · rintro ⟨rs, pk, hrs, hpk, hv⟩
    rw [hrs, hpk]
    exact congrArg Except.ok hv

/-- The boundaries between the fields are the only thing the signed bytes leave open. -/
theorem signedBytes_fields_eq_iff {args args' responseData responseData' : Bytes}
    {readset readset' writeset writeset' : List Bytes}
    (h : signedBytes args responseData readset writeset =
      signedBytes args' responseData' readset' writeset') :
    (args = args' ∧ responseData = responseData' ∧ readset = readset' ∧ writeset = writeset') ↔
      args.length = args'.length ∧ responseData.length = responseData'.length ∧
        readset.map List.length = readset'.map List.length ∧
        writeset.map List.length = writeset'.map List.length := by
  constructor
  · rintro ⟨rfl, rfl, rfl, rfl⟩
    exact ⟨rfl, rfl, rfl, rfl⟩
  · rintro ⟨ha, hd, hr, hw⟩
    have hflat : readset.flatten.length = readset'.flatten.length := by
      rw [List.length_flatten, List.length_flatten, hr]
    simp only [signedBytes, List.append_assoc] at h
    -- field after field is split off at its length
    obtain ⟨hargs, h⟩ := List.append_inj h ha
    obtain ⟨hdata, h⟩ := List.append_inj h hd
    obtain ⟨hreads, hwrites⟩ := List.append_inj h hflat
    exact ⟨hargs, hdata, List.eq_iff_flatten_eq.mpr ⟨hreads, hr⟩,
      List.eq_iff_flatten_eq.mpr ⟨hwrites, hw⟩⟩

/-- A signature that is accepted for one transaction is accepted for those with the same
signed bytes and for no other, and it fixes the fields once their lengths are known. -/
theorem accepted_signature_binds {args responseData : Bytes} {readset writeset : List Bytes}
    {signature enclavePk : Bytes}
    (h : verify D H S args responseData readset writeset signature enclavePk = .ok true)
    (args' responseData' : Bytes) (readset' writeset' : List Bytes) :
    (verify D H S args' responseData' readset' writeset' signature enclavePk = .ok true ↔
      signedBytes args responseData readset writeset =
        signedBytes args' responseData' readset' writeset') ∧
    (verify D H S args' responseData' readset' writeset' signature enclavePk = .ok true →
      ((args = args' ∧ responseData = responseData' ∧ readset = readset' ∧ writeset = writeset') ↔
        args.length = args'.length ∧ responseData.length = responseData'.length ∧
          readset.map List.length = readset'.map List.length ∧
          writeset.map List.length = writeset'.map List.length)) := by
  obtain ⟨rs, pk, hrs, hpk, hv⟩ := (verify_eq_true_iff D H S).mp h
  have hiff : verify D H S args' responseData' readset' writeset' signature enclavePk = .ok true ↔
      signedBytes args responseData readset writeset =
        signedBytes args' responseData' readset' writeset' := by
    constructor
    · intro h'
      obtain ⟨rs', pk', hrs', hpk', hv'⟩ := (verify_eq_true_iff D H S).mp h'
      cases Except.ok.inj (hrs.symm.trans hrs')
      cases Except.ok.inj (hpk.symm.trans hpk')
      apply H.bytes_injective
      apply H.sha256_injective
      apply H.sha256_injective
      exact S.verify_unique pk _ _ rs hv hv'
    · intro he
      rw [he] at hv
      exact (verify_eq_true_iff D H S).mpr ⟨rs, pk, hrs, hpk, hv⟩
  exact ⟨hiff, fun h' => signedBytes_fields_eq_iff (hiff.mp h')⟩

end

/-- What PKIX puts before the 64 bytes of a point on P-256. -/
def pkixHeader : Bytes := [0x30, 0x59, 0x30, 0x13, 6, 7, 0x2a, 0x86, 0x48, 0xce, 0x3d, 2, 1, 6, 8,
  0x2a, 0x86, 0x48, 0xce, 0x3d, 3, 1, 7, 3, 0x42, 0, 4]

/-- The key whose point is the generator of the curve. -/
def generatorPk : Bytes := pkixHeader ++ [
  0x6b, 0x17, 0xd1, 0xf2, 0xe1, 0x2c, 0x42, 0x47, 0xf8, 0xbc, 0xe6, 0xe5, 0x63, 0xa4, 0x40, 0xf2,
  0x77, 0x03, 0x7d, 0x81, 0x2d, 0xeb, 0x33, 0xa0, 0xf4, 0xa1, 0x39, 0x45, 0xd8, 0x98, 0xc2, 0x96,
  0x4f, 0xe3, 0x42, 0xe2, 0xfe, 0x1a, 0x7f, 0x9b, 0x8e, 0xe7, 0xeb, 0x4a, 0x7c, 0x0f, 0x9e, 0x16,
  0x2b, 0xce, 0x33, 0x57, 0x6b, 0x31, 0x5e, 0xce, 0xcb, 0xb6, 0x40, 0x68, 0x37, 0xbf, 0x51, 0xf5]

/-- DER for pairs of one-byte numbers and for keys on P-256. -/
def shortDer : Der Bytes where
  asn1Unmarshal
    | [0x30, 6, 2, 1, r, 2, 1, s] => .ok (some r.toBitVec.toInt, some s.toBitVec.toInt)
    | _ => .error "asn1: structure error"
  parsePKIXPublicKey b :=
    if b.take 27 = pkixHeader ∧ b.length = 91 then .ok (.ecdsa (b.drop 27))
    else .error "asn1: structure error"

/-- The pair of ones, in DER. -/
def shortSignature : Bytes := [0x30, 6, 2, 1, 1, 2, 1, 1]

/-- The one signature made so far is over these fields. -/
def signedOnly (args responseData : Bytes) (readset writeset : List Bytes) :
    IdealSig ℕ Bytes (ℤ × ℤ) :=
  IdealSig.only Bytes (ℤ × ℤ) (IdealHash.numbered.sha256 (IdealHash.numbered.sha256
    (IdealHash.numbered.bytes (signedBytes args responseData readset writeset))))

theorem shortDer_generatorPk : shortDer.parsePKIXPublicKey generatorPk = .ok (.ecdsa (generatorPk.drop 27)) := by
  have hform : generatorPk.take 27 = pkixHeader ∧ generatorPk.length = 91 := by decide
  simp only [shortDer, if_pos hform]

theorem verify_signedOnly {args args' responseData responseData' : Bytes}
    {readset readset' writeset writeset' : List Bytes}
    (h : signedBytes args responseData readset writeset =
      signedBytes args' responseData' readset' writeset') :
    verify shortDer IdealHash.numbered (signedOnly args responseData readset writeset)
      args' responseData' readset' writeset' shortSignature generatorPk =
        .ok true := by
  apply (verify_eq_true_iff _ _ _).mpr
  refine ⟨(1, 1), generatorPk.drop 27, rfl, shortDer_generatorPk, ?_⟩
  rw [← h]
  exact decide_eq_true rfl

/-- A bid on an auction, which has read the record of the auction and written the bid. -/
theorem signature_binds_one_bid :
    verify shortDer IdealHash.numbered (signedOnly (str "bid") (str "OK") [str "a"] [str ".a.x.", str "5"])
        (str "bid") (str "OK") [str "a"] [str ".a.x.", str "5"] shortSignature generatorPk = .ok true ∧
      verify shortDer IdealHash.numbered (signedOnly (str "bid") (str "OK") [str "a"] [str ".a.x.", str "5"])
        (str "bid") (str "OK") [str "a"] [str ".a.x.", str "6"] shortSignature generatorPk ≠ .ok true := by
  have h : verify shortDer IdealHash.numbered
      (signedOnly (str "bid") (str "OK") [str "a"] [str ".a.x.", str "5"]) (str "bid") (str "OK") [str "a"]
      [str ".a.x.", str "5"] shortSignature generatorPk = .ok true := verify_signedOnly rfl
  refine ⟨h, fun h' => ?_⟩
  have hsame := (accepted_signature_binds _ _ _ h (str "bid") (str "OK") [str "a"] [str ".a.x.", str "6"]).1.mp h'
  revert hsame
  decide

/-- The last byte of the arguments can pass for the response. -/
theorem signature_accepted_for_two_splits :
    verify shortDer IdealHash.numbered (signedOnly (str "ab") [] [] []) (str "ab") [] [] []
        shortSignature generatorPk = .ok true ∧
      verify shortDer IdealHash.numbered (signedOnly (str "ab") [] [] []) (str "a") (str "b") [] []
        shortSignature generatorPk = .ok true ∧
      ¬(str "ab" = str "a" ∧ ([] : Bytes) = str "b") :=
  ⟨verify_signedOnly rfl, verify_signedOnly rfl, by decide⟩

end SecureChaincode
