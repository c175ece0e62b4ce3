import SecureChaincode.ErccVscc
import SecureChaincode.Utf8

/-! The registration of an enclave in `ercc`, with the request to the attestation service, and
the validation of its write by the plugin of the registry. -/
namespace SecureChaincode

/-- What comes back from a request. A header that is missing is empty. -/
structure HttpResponse where
  statusCode : ℤ
  status : String
  body : Except String Bytes
  header : Bytes → Bytes

/-- More functions of Go's library, over a type of client certificates. `post` sends a body to the
attestation service. -/
structure RegistryLibs (κ : Type) where
  x509KeyPair : Bytes → Bytes → Except String κ
  marshalRequest : Bytes → Bytes
  post : κ → Bytes → Except String HttpResponse
  marshalReport : IASAttestationReport → Except String Bytes

section
variable {ρ γ π κ : Type} (L : AttestationLibs ρ γ π) (R : RegistryLibs κ) (now : ℤ)

def requestAttestationReport (cert : κ) (quoteAsBytes : Bytes) : Go IASAttestationReport := do
  let quoteAsBase64 := base64Encode quoteAsBytes
  let resp ← (R.post cert (R.marshalRequest quoteAsBase64)).mapError
    (fun err => .error ("IAS connection error: " ++ err))
  failUnless (resp.statusCode == 200) ("IAS returned error: Code " ++ resp.status)
  let bodyData ← resp.body.mapError (fun err => .error ("Can not read response body: " ++ err))
  -- an error of the decoding is dropped
  let reportBody := L.unmarshalReportBody bodyData
  failUnless (reportBody.isvEnclaveQuoteBody.isPrefixOf quoteAsBase64)
    "Report does not contain submitted quote"
  return ⟨[], resp.header (str "X-IASReport-Signature"), resp.header (str "X-IASReport-Signing-Certificate"),
    bodyData⟩

def publicKeyFromPem (bytes : Bytes) : Go (PkixKey ρ) :=
  match (L.pemDecode bytes).1 with
  | none => .error (.error "Failed to parse PEM block containing the public key")
  | some block => (L.parsePKIXPublicKey block).mapError (fun err => .error ("Public key is invalid: " ++ err))

def getIntelVerificationKey : Go (PkixKey ρ) := publicKeyFromPem L intelPubPEM

/-- The checks of `registerEnclave`, up to the report with the public key in it. Certificate and
key of the client come from the arguments or from the decorations of the peer. -/
def attestedReport (decorations : Bytes → Bytes) (args : List Bytes) : Go IASAttestationReport := do
  match args with
  | enclavePkBase64 :: quoteBase64 :: rest =>
    let enclavePkAsBytes := (← wrapError "Can not parse enclavePkHash: " (decodeBase64 L enclavePkBase64)).data
    let quoteAsBytes := (← wrapError "Can not parse quoteBase64 string: " (decodeBase64 L quoteBase64)).data
    let certPem := rest[0]?.getD (decorations (str "certPEM"))
    let keyPem := rest[1]?.getD (decorations (str "keyPEM"))
    let cert ← (R.x509KeyPair certPem keyPem).mapError (fun err => .error ("Can not load client cert: " ++ err))
    let attestationReport ← wrapError "Error while retrieving attestation report: "
      (requestAttestationReport L R cert quoteAsBytes)
    let verificationPK ← wrapError "Can not parse verifiaction key: " (getIntelVerificationKey L)
    let isValid ← wrapError "Error while attestation report verification: "
      (verifyAttestionReport L now verificationPK attestationReport)
    failUnless isValid "Attestation report is not valid"
    let isValid ← wrapError "Error while checking enclave PK: "
      (checkEnclavePkHash L enclavePkAsBytes attestationReport)
    failUnless isValid "Enclave PK does not match attestation report!"
    return { attestationReport with enclavePk := enclavePkAsBytes }
  | _ => .error (.error "Incorrect number of arguments. Expecting enclave pk and quote to register")

/-- The write that `registerEnclave` gives to `PutState`. The answer is then a success, whatever
`PutState` says. -/
def registerEnclave (decorations : Bytes → Bytes) (args : List Bytes) : Go Peer.KVWrite := do
  let attestationReport ← attestedReport L R now decorations args
  let attestationReportAsBytes ← (R.marshalReport attestationReport).mapError GoExit.error
  return ⟨registryName L.sum256 attestationReport.enclavePk, attestationReportAsBytes⟩

variable {L R now}

/-- The registry and the plugin find the same key of Intel. -/
theorem intelVerificationKey_of_get {key : PkixKey ρ} (h : getIntelVerificationKey L = .ok key) :
    intelVerificationKey L = .ok key := by
  rw [getIntelVerificationKey, publicKeyFromPem] at h
  cases hblock : (L.pemDecode intelPubPEM).1 with
  | none =>
    rw [hblock] at h
    cases h
  | some block =>
    rw [hblock] at h
    rw [intelVerificationKey, hblock]
    simp only [orPanic, bind, Except.bind, mapError_eq_ok h, Except.mapError]

/-- What has been checked about a report that gets a public key. These checks do not look at the
public key in the report itself, so they hold of the report that is stored as well. -/
theorem attestedReport_ok {decorations : Bytes → Bytes} {args : List Bytes} {report : IASAttestationReport}
    (h : attestedReport L R now decorations args = .ok report) :
    (∃ key, intelVerificationKey L = .ok key ∧ verifyAttestionReport L now key report = .ok true) ∧
      checkEnclavePkHash L report.enclavePk report = .ok true := by
  match args, h with
  | enclavePkBase64 :: quoteBase64 :: rest, h =>
    obtain ⟨pk, -, h⟩ := bind_eq_ok h
    obtain ⟨quote, -, h⟩ := bind_eq_ok h
    obtain ⟨cert, -, h⟩ := bind_eq_ok h
    obtain ⟨attestationReport, -, h⟩ := bind_eq_ok h
    obtain ⟨key, hkey, h⟩ := bind_eq_ok h
    obtain ⟨valid, hvalid, h⟩ := bind_eq_ok h
    obtain ⟨⟨⟩, hisValid, h⟩ := bind_eq_ok h
    obtain ⟨pkValid, hpk, h⟩ := bind_eq_ok h
    obtain ⟨⟨⟩, hpkValid, h⟩ := bind_eq_ok h
    cases h
    rw [failUnless_eq_ok hisValid] at hvalid
    rw [failUnless_eq_ok hpkValid] at hpk
    exact ⟨⟨key, intelVerificationKey_of_get (wrapError_eq_ok hkey), wrapError_eq_ok hvalid⟩,
      wrapError_eq_ok hpk⟩

/-- Conversely the report gets the public key when each of the checks is passed. Certificate and key
of the client come from the decorations. -/
theorem attestedReport_of {decorations : Bytes → Bytes} {enclavePkBase64 quoteBase64 : Bytes} {pk quote : Slice}
    {cert : κ} {report : IASAttestationReport} {key : PkixKey ρ} (hp : decodeBase64 L enclavePkBase64 = .ok pk)
    (hq : decodeBase64 L quoteBase64 = .ok quote)
    (hc : R.x509KeyPair (decorations (str "certPEM")) (decorations (str "keyPEM")) = .ok cert)
    (hr : requestAttestationReport L R cert quote.data = .ok report) (hk : getIntelVerificationKey L = .ok key)
    (hv : verifyAttestionReport L now key report = .ok true)
    (hpk : checkEnclavePkHash L pk.data report = .ok true) :
    attestedReport L R now decorations [enclavePkBase64, quoteBase64] = .ok { report with enclavePk := pk.data } := by
  simp only [attestedReport, hp, hq, hc, hr, hk, hv, hpk, wrapError, Except.mapError, bind, Except.bind, failUnless,
    if_true, List.getElem?_nil, Option.getD_none]
  rfl

theorem registerEnclave_of {decorations : Bytes → Bytes} {args : List Bytes} {report : IASAttestationReport}
    {value : Bytes} (h : attestedReport L R now decorations args = .ok report)
    (hm : R.marshalReport report = .ok value) :
    registerEnclave L R now decorations args = .ok ⟨registryName L.sum256 report.enclavePk, value⟩ := by
  simp only [registerEnclave, h, hm, bind, Except.bind, Except.mapError]
  rfl

/-- With a stored value of at least 32 bytes, the comparison with the MRENCLAVE of the quote. -/
theorem checkMrEnclave_iff {stored : Bytes} {report : IASAttestationReport} {quote : EnclaveQuote}
    (hquote : quoteFromAttestionReport L report = .ok quote)
    (hlong : ∀ mrenclave, decodeBase64 L stored = .ok mrenclave → 32 ≤ mrenclave.data.length) :
    checkMrEnclave L stored report = .ok true ↔
      ∃ mrenclave, decodeBase64 L stored = .ok mrenclave ∧ mrenclave.data.take 32 = quote.mrEnclave := by
  have hupTo {s : Slice} (hs : 32 ≤ s.data.length) : s.upTo 32 = .ok (s.data.take 32) := by
    have hle : 32 ≤ (s.data ++ s.spare).length := by
      rw [List.length_append]
      omega
    rw [Slice.upTo, if_pos hle, List.take_append_of_le_length hs]
  constructor
  · intro h
    obtain ⟨quote', mrenclave, hquote', hdecode, hupto⟩ := checkMrEnclave_ok h
    obtain rfl : quote = quote' := Except.ok.inj (hquote.symm.trans hquote')
    rw [hupTo (hlong mrenclave hdecode)] at hupto
    exact ⟨mrenclave, hdecode, Except.ok.inj hupto⟩
  · rintro ⟨mrenclave, hdecode, heq⟩
    rw [checkMrEnclave, hquote, hdecode]
    simp only [bind, Except.bind, hupTo (hlong mrenclave hdecode), heq, BEq.rfl]
    rfl

variable (L) in
/-- The signing certificate of the report verifies at a time against the roots that come with it. -/
def SigningCertificateHolds (time : ℤ) (report : IASAttestationReport) : Prop :=
  ∃ block signCert roots,
    (L.pemDecode (L.queryUnescape report.iasReportSigningCertificate)).1 = some block ∧
      L.parseCertificate block = .ok signCert ∧
      L.appendCertsFromPEM (L.pemDecode (L.queryUnescape report.iasReportSigningCertificate)).2 = some roots ∧
      L.verifyCertificate signCert roots time = true

/-- Of a report that was found valid, only the certificate is not the same at another time. -/
theorem verifyAttestionReport_again_iff {key : PkixKey ρ} {report : IASAttestationReport}
    (h : verifyAttestionReport L now key report = .ok true) (later : ℤ) :
    verifyAttestionReport L later key report = .ok true ↔ SigningCertificateHolds L later report := by
  rw [SigningCertificateHolds]
  simp only [verifyAttestionReport] at h ⊢
  obtain ⟨block, hblock, h⟩ := bind_eq_ok h
  obtain ⟨signCert, hcert, h⟩ := bind_eq_ok h
  have hblock := orPanic_eq_ok hblock
  have hcert := mapError_eq_ok hcert
  cases hroots : L.appendCertsFromPEM
      (L.pemDecode (L.queryUnescape report.iasReportSigningCertificate)).2 with
  | none =>
    rw [hroots] at h
    cases h
  | some roots =>
    rw [hroots] at h
    obtain ⟨⟨⟩, -, hsignature⟩ := bind_eq_ok h
    simp only [hblock, hcert, orPanic, Except.mapError, bind, Except.bind]
    constructor
    · intro hlater
      cases hv : L.verifyCertificate signCert roots later with
      | true => exact ⟨block, signCert, roots, rfl, hcert, rfl, hv⟩
      | false =>
        rw [hv] at hlater
        cases hlater
    · rintro ⟨block', signCert', roots', hb, hc, hr, hv⟩
      cases hb
      cases hr
      cases Except.ok.inj (hcert.symm.trans hc)
      rw [hv]
      exact hsignature

/-- Of the entries of an action, the one of the registry decides. -/
theorem checkAttestation_single {fetchState : Except String ChannelState} {respPayload : Peer.ChaincodeAction}
    {before behind : List Peer.NsRwSet} {ns : Peer.NsRwSet}
    (hrw : respPayload.results.unmarshal = .ok (before ++ ns :: behind))
    (hothers : ∀ other ∈ before ++ behind, other.nameSpace ≠ str "ercc") :
    checkAttestation L now fetchState respPayload = .ok () ↔ checkErccNamespace L now fetchState ns = .ok () := by
  have hother : ∀ other ∈ before ++ behind, checkErccNamespace L now fetchState other = .ok () := by
    intro other hmem
    rw [checkErccNamespace, if_pos (hothers other hmem)]
    rfl
  have hmem : ns ∈ before ++ ns :: behind := List.mem_append_right before List.mem_cons_self
  constructor
  · intro h
    obtain ⟨txRWSet, hget, h⟩ := bind_eq_ok h
    cases Except.ok.inj (hrw.symm.trans (mapError_eq_ok hget))
    exact forM_eq_ok_mem h hmem
  · intro h
    have hget : respPayload.results.get = .ok (before ++ ns :: behind) := by
      rw [Wire.get, hrw]
      rfl
    rw [checkAttestation, hget]
    apply forM_eq_ok_of_forall
    intro other hmem
    rcases List.mem_append.mp hmem with hb | hb
    · exact hother other (List.mem_append_left _ hb)
    · rcases List.mem_cons.mp hb with rfl | hb
      · exact h
      · exact hother other (List.mem_append_right _ hb)

/-- What `registerEnclave` has written at one time is accepted by the plugin at another exactly when
the signing certificate of the report holds then, and the channel has the MRENCLAVE of the quote. -/
theorem registration_accepted_iff {decorations : Bytes → Bytes} {args : List Bytes} {write : Peer.KVWrite}
    (hreg : registerEnclave L R now decorations args = .ok write)
    (hround : ∀ report value, (runes report.iasReportSignature).isSome = true →
      (runes report.iasReportSigningCertificate).isSome = true → R.marshalReport report = .ok value →
        L.unmarshalReport value = .ok report)
    (hutf8 : ∀ report, attestedReport L R now decorations args = .ok report →
      (runes report.iasReportSignature).isSome = true ∧ (runes report.iasReportSigningCertificate).isSome = true) :
    ∃ report quote, L.unmarshalReport write.value = .ok report ∧
      quoteFromAttestionReport L report = .ok quote ∧
      ∀ (later : ℤ) (fetchState : Except String ChannelState) (respPayload : Peer.ChaincodeAction)
        (before behind : List Peer.NsRwSet) (ns : Peer.NsRwSet),
        respPayload.results.unmarshal = .ok (before ++ ns :: behind) → ns.nameSpace = str "ercc" →
        ns.kvRwSet.writes = [write] → (∀ other ∈ before ++ behind, other.nameSpace ≠ str "ercc") →
        (∀ stored mrenclave, storedMrenclave fetchState = .ok stored → decodeBase64 L stored = .ok mrenclave →
          32 ≤ mrenclave.data.length) →
        (checkAttestation L later fetchState respPayload = .ok () ↔
          SigningCertificateHolds L later report ∧
            ∃ stored mrenclave, storedMrenclave fetchState = .ok stored ∧
              decodeBase64 L stored = .ok mrenclave ∧ mrenclave.data.take 32 = quote.mrEnclave) := by
  obtain ⟨report, hreport, h⟩ := bind_eq_ok hreg
  obtain ⟨value, hvalue, h⟩ := bind_eq_ok h
  cases h
  obtain ⟨⟨key, hkey, hverify⟩, hpk⟩ := attestedReport_ok hreport
  obtain ⟨quote, x, y, hquote, -⟩ := checkEnclavePkHash_ok hpk
  have hread := hround report value (hutf8 report hreport).1 (hutf8 report hreport).2 (mapError_eq_ok hvalue)
  refine ⟨report, quote, hread, hquote, ?_⟩
  intro later fetchState respPayload before behind ns hrw hns hwrites hothers hlong
  rw [checkAttestation_single hrw hothers, ← verifyAttestionReport_again_iff hverify later]
  constructor
  · intro hcheck
    obtain ⟨write', report', key', stored, hwrites', hread', hkey', hverify', -, -, hstored, hmatch⟩ :=
      checkErccNamespace_checks hns hcheck
    obtain rfl : _ = write' := List.head_eq_of_cons_eq (hwrites.symm.trans hwrites')
    obtain rfl : report = report' := Except.ok.inj (hread.symm.trans hread')
    obtain rfl : key = key' := Except.ok.inj (hkey.symm.trans hkey')
    obtain ⟨mrenclave, hdecode, hmr⟩ := (checkMrEnclave_iff hquote (hlong stored · hstored)).mp hmatch
    exact ⟨hverify', stored, mrenclave, hstored, hdecode, hmr⟩
  · rintro ⟨hverify', stored, mrenclave, hstored, hdecode, hmr⟩
    exact checkErccNamespace_of hwrites hread hkey hverify' rfl hpk hstored
      ((checkMrEnclave_iff hquote (hlong stored · hstored)).mpr ⟨mrenclave, hdecode, hmr⟩)

end

/-! A service that finds every quote genuine. -/

/-- The PEM text of a certificate, which also serves as the client's. -/
def clientPem : Bytes := str "-----BEGIN CERTIFICATE-----\nMAMCAQo=\n-----END CERTIFICATE-----\n"

/-- The headers of the answer. -/
def answerHeader (body name : Bytes) : Bytes :=
  if name = str "X-IASReport-Signature" then base64Encode (demoLibs.sum256 body)
  else if name = str "X-IASReport-Signing-Certificate" then certificates
  else []

/-- The service answers a quote with a signed body. Reports are encoded if their headers need no
escapes. -/
def demoService : RegistryLibs Unit where
  x509KeyPair cert key :=
    if (pemDecode cert).1.isSome ∧ (pemDecode key).1.isSome then .ok () else .error "failed to find any PEM data"
  marshalRequest quote := textObject [(str "isvEnclaveQuote", quote)]
  post _ request :=
    match parsonGetString signedLibc [] request (str "isvEnclaveQuote") with
    | some quote =>
      .ok ⟨200, "200 OK", .ok (bodyText (str "OK") quote), answerHeader (bodyText (str "OK") quote)⟩
    | none => .ok ⟨400, "400 Bad Request", .ok [], fun _ => []⟩
  marshalReport report :=
    if PlainText report.iasReportSignature ∧ PlainText report.iasReportSigningCertificate then .ok (reportText report)
    else .error "unsupported value"

/-- The quote comes back in the body. -/
theorem requestAttestationReport_quote7 :
    requestAttestationReport demoLibs demoService () quote7 =
      .ok ⟨[], base64Encode (demoLibs.sum256 (body7 (str "OK"))), certificates, body7 (str "OK")⟩ := by
  have hname : PlainText (str "isvEnclaveQuote") := plainText_str (by decide)
  have hmembers : ∀ m ∈ [(str "isvEnclaveQuote", base64Encode quote7)], PlainText m.1 ∧ PlainText m.2 :=
    List.forall_mem_singleton.mpr ⟨hname, plainText_base64Encode quote7⟩
  have hget : parsonGetString signedLibc [] (demoService.marshalRequest (base64Encode quote7))
      (str "isvEnclaveQuote") = some (base64Encode quote7) :=
    parsonGetString_textObject signedLibc [] hmembers (List.nodup_singleton _) List.mem_cons_self
  have hpost : demoService.post () (demoService.marshalRequest (base64Encode quote7)) =
      .ok ⟨200, "200 OK", .ok (body7 (str "OK")), answerHeader (body7 (str "OK"))⟩ := by
    have hmatch (request : Bytes) {quote : Bytes}
        (h : parsonGetString signedLibc [] request (str "isvEnclaveQuote") = some quote) :
        demoService.post () request =
          .ok ⟨200, "200 OK", .ok (bodyText (str "OK") quote), answerHeader (bodyText (str "OK") quote)⟩ := by
      simp only [demoService, h]
    exact hmatch _ hget
  have hsame : (base64Encode quote7).isPrefixOf (base64Encode quote7) = true :=
    List.isPrefixOf_iff_prefix.mpr List.prefix_rfl
  have hsignature (body : Bytes) : answerHeader body (str "X-IASReport-Signature") =
      base64Encode (demoLibs.sum256 body) := if_pos rfl
  have hcertificate (body : Bytes) : answerHeader body (str "X-IASReport-Signing-Certificate") = certificates :=
    (if_neg (by decide)).trans (if_pos rfl)
  simp only [requestAttestationReport, hpost, bind, Except.bind, Except.mapError, failUnless,
    unmarshalReportBody_body7 plainText_ok, hsame, hsignature, hcertificate]
  rfl

theorem attestedReport_quote7 {now : ℤ} (hnow : now ≤ 10) :
    attestedReport demoLibs demoService now (fun _ => clientPem) [base64Encode generatorPk, base64Encode quote7] =
      .ok (report7 (str "OK")) := by
  obtain ⟨sparePk, hdecodePk⟩ := decodeBase64_base64Encode generatorPk
  obtain ⟨spareQuote, hdecodeQuote⟩ := decodeBase64_base64Encode quote7
  have hkey : getIntelVerificationKey demoLibs = .ok (.rsa ()) := by
    obtain ⟨block, hpem, hparse⟩ := bind_eq_ok intelVerificationKey_demoLibs
    have hpem := orPanic_eq_ok hpem
    rw [getIntelVerificationKey, publicKeyFromPem, hpem]
    simp only [mapError_eq_ok hparse, Except.mapError]
  have hcert : demoService.x509KeyPair clientPem clientPem = .ok () := by
    have hpem : (pemDecode clientPem).1.isSome = true := by decide +kernel
    have hpair {cert key : Bytes} (h : (pemDecode cert).1.isSome ∧ (pemDecode key).1.isSome) :
        demoService.x509KeyPair cert key = .ok () := if_pos h
    exact hpair ⟨hpem, hpem⟩
  exact attestedReport_of hdecodePk hdecodeQuote hcert requestAttestationReport_quote7 hkey
    (verifyAttestionReport_body7 hnow [] (str "OK")) (checkEnclavePkHash_body7 plainText_ok _ _ _)

theorem registerEnclave_quote7 {now : ℤ} (hnow : now ≤ 10) :
    registerEnclave demoLibs demoService now (fun _ => clientPem)
      [base64Encode generatorPk, base64Encode quote7] = .ok (write7 (str "OK")) := by
  have hplain {report : IASAttestationReport}
      (h : PlainText report.iasReportSignature ∧ PlainText report.iasReportSigningCertificate) :
      demoService.marshalReport report = .ok (reportText report) := if_pos h
  have hmarshal : demoService.marshalReport (report7 (str "OK")) = .ok (reportText (report7 (str "OK"))) :=
    hplain ⟨plainText_base64Encode _, plainText_certificates⟩
  exact registerEnclave_of (attestedReport_quote7 hnow) hmarshal

/-- The action that writes the registration. -/
def action7 : Peer.ChaincodeAction := ⟨⟨.ok [⟨str "ercc", [], [], [write7 (str "OK")]⟩]⟩, none⟩

theorem signingCertificateHolds_report7 {time : ℤ} (status : Bytes) :
    SigningCertificateHolds demoLibs time (report7 status) ↔ time ≤ 10 := by
  constructor
  · rintro ⟨block, signCert, roots, hblock, hcert, -, hverify⟩
    have hten : demoLibs.verifyCertificate signCert roots time = true → time ≤ signCert.toNat := by
      intro h
      exact of_decide_eq_true (Bool.and_eq_true_iff.mp h).1
    have hheader : (report7 status).iasReportSigningCertificate = certificates := rfl
    rw [hheader, pemDecode_certificates] at hblock
    cases hblock
    cases hcert
    exact hten hverify
  · intro htime
    exact (verifyAttestionReport_again_iff (verifyAttestionReport_body7 htime generatorPk status) time).mp
      (verifyAttestionReport_body7 htime generatorPk status)

/-- Two hypotheses of the theorem. -/
theorem demoService_roundTrip {report : IASAttestationReport} {value : Bytes}
    (h : demoService.marshalReport report = .ok value) : demoLibs.unmarshalReport value = .ok report := by
  simp only [demoService] at h
  split_ifs at h with hplain
  cases h
  exact demoLibs_unmarshalReport hplain.1 hplain.2

theorem report7_utf8 (status : Bytes) : (runes (report7 status).iasReportSignature).isSome = true ∧
    (runes (report7 status).iasReportSigningCertificate).isSome = true := by
  have hascii {s : String} (h : s.toList.all (fun c => decide (c.toNat < 128)) = true) : ∀ c ∈ str s, c.toNat < 128 := by
    intro b hb
    obtain ⟨c, hc, rfl⟩ := List.mem_map.mp hb
    have hlow := of_decide_eq_true (List.all_eq_true.mp h c hc)
    rw [Nat.toUInt8_eq, UInt8.toNat_ofNat']
    omega
  have hletters : ∀ c ∈ base64Chars, c.toNat < 128 := hascii (by decide +kernel)
  have hcert : ∀ c ∈ certificates, c.toNat < 128 :=
    List.forall_mem_append.mpr ⟨hascii (by decide +kernel), hascii (by decide +kernel)⟩
  refine ⟨runes_of_ascii ?_, runes_of_ascii hcert⟩
  intro c hc
  rcases mem_base64Encode hc with hc | rfl
  · exact hletters c hc
  · decide

/-- The registration is accepted at another time while the certificate holds, on a channel with the
MRENCLAVE of the quote and on no other. -/
theorem registration7_accepted_iff :
    registerEnclave demoLibs demoService 5 (fun _ => clientPem)
        [base64Encode generatorPk, base64Encode quote7] = .ok (write7 (str "OK")) ∧
      checkAttestation demoLibs 7 (channelWith mrenclave7) action7 = .ok () ∧
      checkAttestation demoLibs 7 (channelWith (List.replicate 32 8)) action7 ≠ .ok () := by
  have hreg := registerEnclave_quote7 (show (5 : ℤ) ≤ 10 by decide)
  obtain ⟨report, quote, hread, hquote, hiff⟩ := registration_accepted_iff hreg
    (fun _ _ _ _ h => demoService_roundTrip h) (by
      intro report h
      cases Except.ok.inj ((attestedReport_quote7 (by decide)).symm.trans h)
      exact report7_utf8 (str "OK"))
  have hreport : report7 (str "OK") = report :=
    Except.ok.inj ((unmarshalReport_write7 (str "OK")).symm.trans hread)
  rw [← hreport] at hquote hiff
  obtain rfl : _ = quote := Except.ok.inj ((quoteFromAttestionReport_body7 plainText_ok _ _ _).symm.trans hquote)
  have hchannel (mrenclave : Bytes) (hlen : mrenclave.length = 32) := hiff 7 (channelWith mrenclave) action7 [] [] _
    rfl rfl rfl (by simp) (by
      intro stored decoded hstored hdecoded
      cases hstored
      obtain ⟨spare, hspare⟩ := decodeBase64_base64Encode mrenclave
      cases Except.ok.inj (hspare.symm.trans hdecoded)
      exact hlen.ge)
  refine ⟨hreg, ?_, ?_⟩
  · obtain ⟨spare, hspare⟩ := decodeBase64_base64Encode mrenclave7
    exact (hchannel mrenclave7 rfl).mpr
      ⟨(signingCertificateHolds_report7 (str "OK")).mpr (by decide), _, _, rfl, hspare, rfl⟩
  · intro haccepted
    obtain ⟨-, stored, decoded, hstored, hdecoded, hsame⟩ := (hchannel (List.replicate 32 8) rfl).mp haccepted
    cases hstored
    obtain ⟨spare, hspare⟩ := decodeBase64_base64Encode (List.replicate 32 8)
    cases Except.ok.inj (hspare.symm.trans hdecoded)
    have hfirst : (List.replicate 32 (8 : UInt8)).take 32 = mrenclave7 := hsame
    exact absurd hfirst (by decide)

/-- The registration has the MRENCLAVE of the channel, and is refused once the certificate is out of
date. -/
theorem registration7_expires :
    registerEnclave demoLibs demoService 5 (fun _ => clientPem)
        [base64Encode generatorPk, base64Encode quote7] = .ok (write7 (str "OK")) ∧
      quoteFromAttestionReport demoLibs (report7 (str "OK")) =
        .ok ⟨mrenclave7, demoLibs.sum256 generatorXY ++ List.replicate 32 0⟩ ∧
      storedMrenclave (channelWith mrenclave7) = .ok (base64Encode mrenclave7) ∧
      checkAttestation demoLibs 7 (channelWith mrenclave7) action7 = .ok () ∧
      checkAttestation demoLibs 11 (channelWith mrenclave7) action7 ≠ .ok () := by
  have hsingle (now : ℤ) : checkAttestation demoLibs now (channelWith mrenclave7) action7 = .ok () ↔
      checkErccNamespace demoLibs now (channelWith mrenclave7) ⟨str "ercc", [], [], [write7 (str "OK")]⟩ = .ok () :=
    @checkAttestation_single _ _ _ demoLibs now _ action7 [] [] _ rfl (by simp)
  refine ⟨registerEnclave_quote7 (by decide), quoteFromAttestionReport_body7 plainText_ok _ _ _, rfl, ?_, ?_⟩
  · exact (hsingle 7).mpr (checkErccNamespace_write7 (by decide) plainText_ok rfl)
  · intro h
    obtain ⟨write, report, key, stored, hwrites, hread, hkey, hverify, -⟩ := checkErccNamespace_checks rfl ((hsingle 11).mp h)
    obtain rfl : _ = write := List.head_eq_of_cons_eq hwrites
    obtain rfl : _ = report := Except.ok.inj ((unmarshalReport_write7 (str "OK")).symm.trans hread)
    have hlate := (signingCertificateHolds_report7 (str "OK")).mp ((verifyAttestionReport_again_iff hverify 11).mp hverify)
    exact absurd hlate (by decide)

end SecureChaincode
