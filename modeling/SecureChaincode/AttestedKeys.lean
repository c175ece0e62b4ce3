import SecureChaincode.Setup

/-! The hash of the enclave's key: `ecall_create_report` takes it over fields of a fixed width,
`CheckEnclavePkHash` over the numbers that Go has read. The key that is handed to
`ecall_bind_tlcc` has come back from the format of Go. -/
namespace SecureChaincode

/-- The key that the enclave exports. -/
theorem exported_key (O : SgxOutcomes) {e : EccEnclave} {P : AffinePoint} (h : e.enclavePk = P.sgxBytes) :
    (ecallCreateReport O e).2.2 = P.bytes := by
  rw [ecallCreateReport, h, swapFields_sgxBytes]
  split_ifs
  · rfl
  · rfl

section
variable {ρ γ π : Type} {L : AttestationLibs ρ γ π} {X : PkixLibs ρ}

/-- The check compares the hash of the two numbers with the first half of the report data. -/
theorem checkEnclavePkHash_ecdsa {report : IASAttestationReport} {quote : EnclaveQuote} {der x y : Bytes}
    (hquote : quoteFromAttestionReport L report = .ok quote) (hparse : L.parsePKIXPublicKey der = .ok (.ecdsa x y)) :
    checkEnclavePkHash L der report = .ok (L.sum256 (x ++ y) == quote.reportData.take 32) := by
  rw [checkEnclavePkHash, hquote, bind, hparse]
  rfl

/-- The quote of an enclave with key `P` is accepted for the key `Q` exactly if the two are the
same and neither coordinate starts with a zero byte. -/
theorem enclave_key_attested_iff (hX : X.RoundTrip) (hparse : L.parsePKIXPublicKey = X.parsePKIXPublicKey)
    {O : SgxOutcomes} (hsha : O.sha256 = L.sum256) (hhash : O.hashEnclavePk = 0) {e e' : EccEnclave}
    {P Q : AffinePoint} (hP : e.enclavePk = P.sgxBytes) (hQ : e'.enclavePk = Q.sgxBytes)
    (hlen : (L.sum256 P.bytes).length = 32) (hinj : ∀ b, L.sum256 b = L.sum256 P.bytes → b = P.bytes)
    {report : IASAttestationReport} {quote : EnclaveQuote} (hquote : quoteFromAttestionReport L report = .ok quote)
    (hdata : quote.reportData = reportData O (ecallCreateReport O e).2.2) :
    ∃ der accepted, marshalEnclavePk X (ecallCreateReport O e').2.2 = .ok der ∧
      checkEnclavePkHash L der report = .ok accepted ∧ (accepted = true ↔ Q = P ∧ P.FullWidth) := by
  obtain ⟨der, hder, hread⟩ := marshalEnclavePk_bytes hX Q
  have hfirst : quote.reportData.take 32 = L.sum256 P.bytes := by
    rw [hdata, exported_key O hP, reportData, if_neg (not_not.mpr hhash), hsha, List.take_left' hlen]
  have hcheck := checkEnclavePkHash_ecdsa hquote ((congrFun hparse der).trans hread)
  refine ⟨der, _, (exported_key O hQ).symm ▸ hder, hcheck, ?_⟩
  rw [beq_iff_eq, hfirst, ← P.minimal_eq_bytes_iff Q]
  exact ⟨hinj _, congrArg L.sum256⟩

end

/-- Libraries with a hash that tells this text from all others. -/
def libsFor (text : Bytes) : AttestationLibs Unit UInt8 UInt8 :=
  { demoLibs with
    parsePKIXPublicKey := plainPkix.parsePKIXPublicKey
    sum256 := fun b => List.replicate 32 (if b = text then 1 else 0) }

/-- A point whose first coordinate has one byte. -/
def shortPoint : AffinePoint where
  x := 5
  y := 0x459243b9aa581806fe913bce99817ade11ca503c64d9a3c533415c083248fbcc
  x_lt := by decide +kernel
  y_lt := by decide +kernel
  onCurve := by decide +kernel

/-- An enclave with this key, and the outcomes of its calls. -/
def enclaveWith (P : AffinePoint) : EccEnclave := ⟨P.sgxBytes, List.replicate 64 0⟩

def outcomesFor (P : AffinePoint) : SgxOutcomes := { demoOutcomes 0 0 with sha256 := (libsFor P.bytes).sum256 }

/-- The report of the service, with the report data in the quote. -/
def reportWith (data : Bytes) : IASAttestationReport :=
  ⟨[], [], [], bodyText (str "OK") (base64Encode (List.replicate 368 0 ++ data))⟩

/-- The report data of an enclave with this key. -/
def dataOf (P : AffinePoint) : Bytes := reportData (outcomesFor P) (ecallCreateReport (outcomesFor P) (enclaveWith P)).2.2

theorem dataOf_eq (P : AffinePoint) : dataOf P = List.replicate 32 1 ++ List.replicate 32 0 := by
  have hhash : (outcomesFor P).hashEnclavePk = 0 := rfl
  have hsha : (outcomesFor P).sha256 P.bytes = List.replicate 32 (if P.bytes = P.bytes then 1 else 0) := rfl
  rw [if_pos rfl] at hsha
  rw [dataOf, exported_key (outcomesFor P) rfl, reportData, if_neg (not_not.mpr hhash), hsha]

theorem quote_reportWith (P : AffinePoint) :
    quoteFromAttestionReport (libsFor P.bytes) (reportWith (dataOf P)) = .ok ⟨List.replicate 32 0, dataOf P⟩ := by
  have hquote (b : Bytes) : quoteFromAttestionReport (libsFor P.bytes)
      ⟨[], [], [], bodyText (str "OK") (base64Encode b)⟩ = quoteFromBytes b := by
    have hbody : (libsFor P.bytes).unmarshalReportBody = demoLibs.unmarshalReportBody := rfl
    have hdecode : decodeBase64 (libsFor P.bytes) = decodeBase64 demoLibs := rfl
    obtain ⟨spare, hb⟩ := decodeBase64_base64Encode b
    rw [quoteFromAttestionReport, hbody, demoLibs_unmarshalReportBody plainText_ok (plainText_base64Encode b), quoteFromBase64,
      hdecode, hb]
    rfl
  have hlen : (List.replicate 368 (0 : UInt8) ++ dataOf P).length = 432 := by
    rw [dataOf_eq]
    decide +kernel
  have hmr : ((List.replicate 368 (0 : UInt8) ++ dataOf P).drop 112).take 32 = List.replicate 32 0 := by
    rw [dataOf_eq]
    decide +kernel
  have hdata : ((List.replicate 368 (0 : UInt8) ++ dataOf P).drop 368).take 64 = dataOf P := by
    rw [dataOf_eq]
    decide +kernel
  rw [reportWith, hquote, quoteFromBytes, if_pos hlen.ge, hmr, hdata]

theorem libsFor_separates (text b : Bytes) (h : (libsFor text).sum256 b = (libsFor text).sum256 text) : b = text := by
  by_contra hne
  simp [libsFor, if_neg hne] at h

/-- The base point is accepted with its own quote, another point is not. -/
theorem base_attested :
    (∃ der, marshalEnclavePk plainPkix AffinePoint.base.bytes = .ok der ∧
      checkEnclavePkHash (libsFor AffinePoint.base.bytes) der (reportWith (dataOf .base)) = .ok true) ∧
    ∃ der, marshalEnclavePk plainPkix shortPoint.bytes = .ok der ∧
      checkEnclavePkHash (libsFor AffinePoint.base.bytes) der (reportWith (dataOf .base)) = .ok false := by
  have hattested (Q : AffinePoint) : ∃ der accepted,
      marshalEnclavePk plainPkix (ecallCreateReport (outcomesFor .base) (enclaveWith Q)).2.2 = .ok der ∧
        checkEnclavePkHash (libsFor AffinePoint.base.bytes) der (reportWith (dataOf .base)) = .ok accepted ∧
          (accepted = true ↔ Q = .base ∧ AffinePoint.base.FullWidth) :=
    enclave_key_attested_iff plainPkix_roundTrip rfl rfl rfl (e := enclaveWith .base) rfl rfl
      List.length_replicate (libsFor_separates _) (quote_reportWith .base) rfl
  constructor
  · obtain ⟨der, accepted, hder, hcheck, hiff⟩ := hattested .base
    rw [exported_key (outcomesFor .base) rfl] at hder
    rw [hiff.mpr ⟨rfl, AffinePoint.base_fullWidth⟩] at hcheck
    exact ⟨der, hder, hcheck⟩
  · obtain ⟨der, accepted, hder, hcheck, hiff⟩ := hattested shortPoint
    have hne : shortPoint.x ≠ AffinePoint.base.x := by decide +kernel
    have hfalse : accepted = false := Bool.eq_false_iff.mpr fun h => hne (congrArg AffinePoint.x (hiff.mp h).1)
    rw [exported_key (outcomesFor .base) rfl] at hder
    rw [hfalse] at hcheck
    exact ⟨der, hder, hcheck⟩

/-- The key with a short coordinate is not accepted with its own quote. -/
theorem short_key_rejected : ∃ der, marshalEnclavePk plainPkix shortPoint.bytes = .ok der ∧
    quoteFromAttestionReport (libsFor shortPoint.bytes) (reportWith (dataOf shortPoint)) =
      .ok ⟨List.replicate 32 0, dataOf shortPoint⟩ ∧
    checkEnclavePkHash (libsFor shortPoint.bytes) der (reportWith (dataOf shortPoint)) = .ok false := by
  obtain ⟨der, hder, hread⟩ := marshalEnclavePk_bytes plainPkix_roundTrip shortPoint
  refine ⟨der, hder, quote_reportWith shortPoint, ?_⟩
  rw [checkEnclavePkHash_ecdsa (quote_reportWith shortPoint) hread, dataOf_eq]
  decide +kernel

/-- The key of the ledger enclave in the format of Go, and back in `Bind`: what is handed to
`ecall_bind_tlcc` is the key that the hash was taken over, exactly if each coordinate is zero or does
not start with a zero byte. -/
theorem bound_key_iff {ρ : Type} {X : PkixLibs ρ} (hX : X.RoundTrip) (P : AffinePoint) (report : Bytes) :
    ∃ der transPk, marshalEnclavePk X P.bytes = .ok der ∧ unmarshalEnclavePk X der = .ok transPk ∧
      StubImpl.bind X (some report) (some der) = StubImpl.bindWith (some (report, transPk)) ∧
      (∀ O e, O.hashTlccPk = 0 → (ecallBindTlcc O (some (report, transPk)) e).1 = 0 →
        O.sha256 transPk = (report.drop 320).take 32) ∧
      (transPk = P.bytes ↔ P.FieldsKept) := by
  obtain ⟨der, hder, hparse⟩ := marshalEnclavePk_bytes hX P
  have hread := unmarshalEnclavePk_ecdsa hparse
  refine ⟨der, _, hder, hread, ?_, ?_, ?_⟩
  · rw [StubImpl.bind, hread]
    rfl
  · intro O e hhash hbind
    have hlen := length_unmarshalEnclavePk hread
    by_contra hne
    have hdiffers : tlccPkHash O ((outBuffer 32 (toBigEndian P.x) ++ outBuffer 32 (toBigEndian P.y)).take 64) ≠
        (report.drop 320).take 32 := by
      rwa [tlccPkHash, if_neg (not_not.mpr hhash), List.take_of_length_le hlen.le]
    rw [ecallBindTlcc, if_pos hdiffers] at hbind
    exact absurd (show sgxErrorInvalidParameter = 0 from hbind) (by decide)
  · rw [← unmarshalEnclavePk_iff hX hder, hread, Except.ok.injEq]

theorem base_bound : ∃ der, marshalEnclavePk plainPkix AffinePoint.base.bytes = .ok der ∧
    unmarshalEnclavePk plainPkix der = .ok AffinePoint.base.bytes := by
  obtain ⟨der, transPk, hder, hread, -, -, hiff⟩ := bound_key_iff plainPkix_roundTrip .base []
  rw [hiff.mpr AffinePoint.base_fullWidth.fieldsKept] at hread
  exact ⟨der, hder, hread⟩

/-- The coordinate 5 comes back as 5 followed by 31 zeros. -/
theorem short_key_not_restored : ∃ der transPk, plainPkix.RoundTrip ∧
    marshalEnclavePk plainPkix shortPoint.bytes = .ok der ∧ unmarshalEnclavePk plainPkix der = .ok transPk ∧
    transPk.take 32 = 5 :: List.replicate 31 0 ∧ shortPoint.bytes.take 32 = List.replicate 31 0 ++ [5] := by
  obtain ⟨der, hder, hparse⟩ := marshalEnclavePk_bytes plainPkix_roundTrip shortPoint
  exact ⟨der, _, plainPkix_roundTrip, hder, unmarshalEnclavePk_ecdsa hparse, by decide +kernel, by decide +kernel⟩

end SecureChaincode
