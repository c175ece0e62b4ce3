import SecureChaincode.EccVscc

/-! The validation plugin of the registry `ercc` and the checks of an attestation report
that it makes. -/
namespace SecureChaincode

/-- A public key, by what the code asks for: an RSA key, or the bytes of the coordinates
of an ECDSA key, which `big.Int` gives without leading zeros. -/
inductive PkixKey (ρ : Type)
  | rsa (key : ρ)
  | ecdsa (x y : Bytes)
  | other

/-- A Go slice with what its array holds behind it. -/
structure Slice where
  data : Bytes
  spare : Bytes

/-- `s[:n]`, which may reach into the rest of the array. -/
def Slice.upTo (s : Slice) (n : ℕ) : Go Bytes :=
  if n ≤ (s.data ++ s.spare).length then .ok ((s.data ++ s.spare).take n) else .error .panic

/-- The parts of a quote that are looked at. -/
structure EnclaveQuote where
  mrEnclave : Bytes
  reportData : Bytes

structure IASReportBody where
  isvEnclaveQuoteStatus : Bytes
  isvEnclaveQuoteBody : Bytes

structure IASAttestationReport where
  enclavePk : Bytes
  iasReportSignature : Bytes
  iasReportSigningCertificate : Bytes
  iasReportBody : Bytes

/-- Functions of Go's library, over types of RSA keys, of certificates and of pools of them.
Where the code drops an error, the value that comes with it is used. A certificate is verified
at a time. -/
structure AttestationLibs (ρ γ π : Type) where
  queryUnescape : Bytes → Bytes
  pemDecode : Bytes → Option Bytes × Bytes
  parseCertificate : Bytes → Except String γ
  appendCertsFromPEM : Bytes → Option π
  verifyCertificate : γ → π → ℤ → Bool
  parsePKIXPublicKey : Bytes → Except String (PkixKey ρ)
  verifyPKCS1v15 : ρ → Bytes → Bytes → Except String Unit
  sum256 : Bytes → Bytes
  decodeString : Bytes → Slice × Option String
  unmarshalReport : Bytes → Except String IASAttestationReport
  unmarshalReportBody : Bytes → IASReportBody

def intelPubPEM : Bytes :=
  str "\n" ++ str "-----BEGIN PUBLIC KEY-----\n" ++
  str "MIIBIjANBgkqhkiG9w0BAQEFAAOCAQ8AMIIBCgKCAQEAqXot4OZuphR8nudFrAFi\n" ++
  str "aGxxkgma/Es/BA+tbeCTUR106AL1ENcWA4FX3K+E9BBL0/7X5rj5nIgX/R/1ubhk\n" ++
  str "KWw9gfqPG3KeAtIdcv/uTO1yXv50vqaPvE1CRChvzdS/ZEBqQ5oVvLTPZ3VEicQj\n" ++
  str "lytKgN9cLnxbwtuvLUK7eyRPfJW/ksddOzP8VBBniolYnRCD2jrMRZ8nBM2ZWYwn\n" ++
  str "XnwYeOAHV+W9tOhAImwRwKF/95yAsVwd21ryHMJBcGH70qLagZ7Ttyt++qO/6+KA\n" ++
  str "XJuKwZqjRlEtSEz8gZQeFfVYgcwSfo96oSMAzVr7V0L6HSDLRnpb6xxmbPdqNol4\n" ++
  str "tQIDAQAB\n" ++
  str "-----END PUBLIC KEY-----"

/-- An error that is wrapped into a text; a panic goes through. -/
def wrapError {α : Type} (text : String) (p : Go α) : Go α :=
  p.mapError (fun e => match e with
    | .error err => .error (text ++ err)
    | .panic => .panic)

def failUnless (c : Bool) (text : String) : Go Unit := if c then .ok () else .error (.error text)

section
variable {ρ γ π : Type} (L : AttestationLibs ρ γ π)

/-- `binary.Read` into the 432 bytes of an `EnclaveQuote`. -/
def quoteFromBytes (quoteAsBytes : Bytes) : Go EnclaveQuote :=
  if 432 ≤ quoteAsBytes.length then
    .ok ⟨(quoteAsBytes.drop 112).take 32, (quoteAsBytes.drop 368).take 64⟩
  else .error (.error (if quoteAsBytes = [] then "EOF" else "unexpected EOF"))

/-- `base64.StdEncoding.DecodeString` with its error passed on. -/
def decodeBase64 (s : Bytes) : Go Slice :=
  match L.decodeString s with
  | (data, none) => .ok data
  | (_, some err) => .error (.error err)

def quoteFromBase64 (quoteBase64 : Bytes) : Go EnclaveQuote := do
  quoteFromBytes (← decodeBase64 L quoteBase64).data

def quoteFromAttestionReport (report : IASAttestationReport) : Go EnclaveQuote :=
  quoteFromBase64 L (L.unmarshalReportBody report.iasReportBody).isvEnclaveQuoteBody

-- the time at which the code runs
variable (now : ℤ)

/-- The signing certificate is checked against the roots that come with it, the signature
of the body against the key given. The options of the check leave the time at zero, which is
the time of the call. -/
def verifyAttestionReport (verificationPubKey : PkixKey ρ) (report : IASAttestationReport) :
    Go Bool := do
  let (block, rest) := L.pemDecode (L.queryUnescape report.iasReportSigningCertificate)
  let signCert ← (L.parseCertificate (← orPanic block)).mapError
    (fun err => .error ("failed to parse signing certificate:" ++ err))
  match L.appendCertsFromPEM rest with
  | none => .error (.error "Failed to parse root certificate")
  | some roots =>
    failUnless (L.verifyCertificate signCert roots now) "Failed to verify signing certificate"
    match verificationPubKey with
    | .rsa rsaPublickey =>
      (L.verifyPKCS1v15 rsaPublickey (L.sum256 report.iasReportBody)
        (L.decodeString report.iasReportSignature).1.data).mapError
          (fun err => .error ("Signature verification failed: " ++ err))
      return true
    | _ => .error (.error "Verification key is not of type RSA")

def checkMrEnclave (mrEnclaveBase64 : Bytes) (report : IASAttestationReport) : Go Bool := do
  let quote ← quoteFromAttestionReport L report
  let mrenclave ← decodeBase64 L mrEnclaveBase64
  return (← mrenclave.upTo 32) == quote.mrEnclave

def checkEnclavePkHash (pkBytes : Bytes) (report : IASAttestationReport) : Go Bool := do
  let quote ← quoteFromAttestionReport L report
  let pub ← (L.parsePKIXPublicKey pkBytes).mapError
    (fun err => .error ("x509.ParsePKIXPublicKey error " ++ err))
  match pub with
  | .ecdsa x y => return L.sum256 (x ++ y) == quote.reportData.take 32
  | _ => .error (.error "enclave key is not ecdsa key")

/-- Intel's key, from the PEM text of the code. -/
def intelVerificationKey : Go (PkixKey ρ) := do
  let block ← orPanic (L.pemDecode intelPubPEM).1
  (L.parsePKIXPublicKey block).mapError
    (fun err => .error ("x509.ParsePKIXPublicKey failed, err: " ++ err))

/-- The MRENCLAVE value that `ecc` has stored. -/
def storedMrenclave (fetchState : Except String ChannelState) : Go Bytes := do
  let channelState ← fetchState.mapError
    (fun err => .error ("Fetch channel state failed, err " ++ err))
  match channelState.getState (str "ecc") (str "MRENCLAVE") with
  | .error _ => .error (.error "mrenclave does not exist")
  | .ok none => .error (.error "mrenclave is empty")
  | .ok (some mrenclave) => .ok mrenclave

/-- The checks of the report in a write, once Intel's key is there. -/
def checkReport (fetchState : Except String ChannelState) (write : Peer.KVWrite)
    (report : IASAttestationReport) (verificationPK : PkixKey ρ) : Go Unit := do
  let isValid ← wrapError "VerifyAttestionReport failed, err "
    (verifyAttestionReport L now verificationPK report)
  failUnless isValid "Attestation report is not valid"
  failUnless (write.key == registryName L.sum256 report.enclavePk)
    "Error: write.Key does not match enclave public key hash from attestation"
  let isValid ← wrapError "Error while checking enclave PK: "
    (checkEnclavePkHash L report.enclavePk report)
  failUnless isValid " Enclave PK does not match attestation report!"
  let mrenclave ← storedMrenclave fetchState
  let matched ← wrapError "Error while attestation report verification: "
    (checkMrEnclave L mrenclave report)
  failUnless matched "Attestation report does not match MRENCLAVE!"

/-- One round of the loop over the namespaces. -/
def checkErccNamespace (fetchState : Except String ChannelState) (ns : Peer.NsRwSet) : Go Unit := do
  if ns.nameSpace ≠ str "ercc" then return ()
  else
    match ns.kvRwSet.writes with
    | [write] =>
      let report ← (L.unmarshalReport write.value).mapError
        (fun err => .error ("txRWSet.Unmarshal failed, err " ++ err))
      let verificationPK ← intelVerificationKey L
      checkReport L now fetchState write report verificationPK
    | _ => .error (.error "Expected one write")

def checkAttestation (fetchState : Except String ChannelState) (respPayload : Peer.ChaincodeAction) :
    Go Unit := do
  let txRWSet ← respPayload.results.get
  txRWSet.forM (checkErccNamespace L now fetchState)

/-- One round of the loop over the actions. -/
def validateErccAction (fetchState : Except String ChannelState)
    (act : Wire Peer.ChaincodeActionPayload) : Go Unit := do
  let (_, ccAction) ← getCcAction act
  checkAttestation L now fetchState ccAction

/-- `VSCCERCC.Validate`. -/
def validateErcc (fetchState : Except String ChannelState) (envelope : Wire Peer.Envelope) : Go Unit := do
  let tx ← getTransaction envelope
  tx.actions.forM (validateErccAction L now fetchState)

/-- The attestation service: which report bodies it has issued, and for which of them the
quote that was submitted is genuine. Its key signs what it has issued and nothing else, and the
status of a body is `OK` for a genuine quote only. -/
structure AttestationService where
  issued : Bytes → Prop
  genuine : Bytes → Prop
  signs_issued : ∀ key, intelVerificationKey L = .ok (.rsa key) →
    ∀ body, (∃ signature, L.verifyPKCS1v15 key (L.sum256 body) signature = .ok ()) ↔ issued body
  genuine_iff : ∀ body, issued body →
    (genuine body ↔ (L.unmarshalReportBody body).isvEnclaveQuoteStatus = str "OK")

/-- What the plugin has established about a write of the registry: it files a report that
the service has issued under the hash of its public key; the quote in the report has the
MRENCLAVE of `ecc`, and for its report data the hash of the same public key. -/
structure Attests (ias : AttestationService L) (fetchState : Except String ChannelState)
    (write : Peer.KVWrite) (report : IASAttestationReport) (quote : EnclaveQuote) : Prop where
  report_eq : L.unmarshalReport write.value = .ok report
  key_eq : write.key = registryName L.sum256 report.enclavePk
  issued : ias.issued report.iasReportBody
  quote_eq : quoteFromAttestionReport L report = .ok quote
  mrEnclave_eq : ∃ stored mrenclave, storedMrenclave fetchState = .ok stored ∧
    decodeBase64 L stored = .ok mrenclave ∧ mrenclave.upTo 32 = .ok quote.mrEnclave
  reportData_eq : ∃ x y, L.parsePKIXPublicKey report.enclavePk = .ok (.ecdsa x y) ∧
    quote.reportData.take 32 = L.sum256 (x ++ y)

variable {L now}

theorem wrapError_eq_ok {α : Type} {text : String} {p : Go α} {a : α} (h : wrapError text p = .ok a) :
    p = .ok a :=
  mapError_eq_ok h

theorem failUnless_eq_ok {c : Bool} {text : String} {u : Unit} (h : failUnless c text = .ok u) :
    c = true := by
  cases c with
  | false => cases h
  | true => rfl

/-- A report that is found valid carries a signature of the RSA key. -/
theorem verifyAttestionReport_ok {key : PkixKey ρ} {report : IASAttestationReport} {valid : Bool}
    (h : verifyAttestionReport L now key report = .ok valid) :
    ∃ rsaKey signature, key = .rsa rsaKey ∧
      L.verifyPKCS1v15 rsaKey (L.sum256 report.iasReportBody) signature = .ok () := by
  unfold verifyAttestionReport at h
  obtain ⟨block, -, h⟩ := bind_eq_ok h
  obtain ⟨signCert, -, h⟩ := bind_eq_ok h
  cases hroots : L.appendCertsFromPEM
      (L.pemDecode (L.queryUnescape report.iasReportSigningCertificate)).2 with
  | none =>
    rw [hroots] at h
    cases h
  | some roots =>
    rw [hroots] at h
    obtain ⟨⟨⟩, -, h⟩ := bind_eq_ok h
    cases key with
    | rsa rsaKey =>
      obtain ⟨⟨⟩, hsig, -⟩ := bind_eq_ok h
      exact ⟨rsaKey, _, rfl, mapError_eq_ok hsig⟩
    | ecdsa x y => cases h
    | other => cases h

theorem checkMrEnclave_ok {stored : Bytes} {report : IASAttestationReport}
    (h : checkMrEnclave L stored report = .ok true) :
    ∃ quote mrenclave, quoteFromAttestionReport L report = .ok quote ∧
      decodeBase64 L stored = .ok mrenclave ∧ mrenclave.upTo 32 = .ok quote.mrEnclave := by
  obtain ⟨quote, hquote, h⟩ := bind_eq_ok h
  obtain ⟨mrenclave, hm, h⟩ := bind_eq_ok h
  obtain ⟨bytes, hbytes, h⟩ := bind_eq_ok h
  have heq : bytes = quote.mrEnclave := beq_iff_eq.mp (Except.ok.inj h)
  exact ⟨quote, mrenclave, hquote, hm, heq ▸ hbytes⟩

theorem checkEnclavePkHash_ok {pkBytes : Bytes} {report : IASAttestationReport}
    (h : checkEnclavePkHash L pkBytes report = .ok true) :
    ∃ quote x y, quoteFromAttestionReport L report = .ok quote ∧
      L.parsePKIXPublicKey pkBytes = .ok (.ecdsa x y) ∧ quote.reportData.take 32 = L.sum256 (x ++ y) := by
  obtain ⟨quote, hquote, h⟩ := bind_eq_ok h
  obtain ⟨pub, hpub, h⟩ := bind_eq_ok h
  cases pub with
  | rsa key => cases h
  | other => cases h
  | ecdsa x y => exact ⟨quote, x, y, hquote, mapError_eq_ok hpub, (beq_iff_eq.mp (Except.ok.inj h)).symm⟩

/-- An entry of the registry is passed only with one write that passes each of the checks. -/
theorem checkErccNamespace_checks {fetchState : Except String ChannelState} {ns : Peer.NsRwSet}
    (hns : ns.nameSpace = str "ercc") (h : checkErccNamespace L now fetchState ns = .ok ()) :
    ∃ write report key stored, ns.kvRwSet.writes = [write] ∧ L.unmarshalReport write.value = .ok report ∧
      intelVerificationKey L = .ok key ∧ verifyAttestionReport L now key report = .ok true ∧
      write.key = registryName L.sum256 report.enclavePk ∧
      checkEnclavePkHash L report.enclavePk report = .ok true ∧
      storedMrenclave fetchState = .ok stored ∧ checkMrEnclave L stored report = .ok true := by
  rw [checkErccNamespace, if_neg (not_not.mpr hns)] at h
  split at h
  · rename_i write hwrites
    obtain ⟨report, hreport, h⟩ := bind_eq_ok h
    obtain ⟨key, hkey, h⟩ := bind_eq_ok h
    obtain ⟨valid, hverify, h⟩ := bind_eq_ok h
    obtain ⟨⟨⟩, hvalid, h⟩ := bind_eq_ok h
    obtain ⟨⟨⟩, hname, h⟩ := bind_eq_ok h
    obtain ⟨pkValid, hpk, h⟩ := bind_eq_ok h
    obtain ⟨⟨⟩, hpkValid, h⟩ := bind_eq_ok h
    obtain ⟨stored, hstored, h⟩ := bind_eq_ok h
    obtain ⟨matched, hmatch, h⟩ := bind_eq_ok h
    rw [failUnless_eq_ok hvalid] at hverify
    rw [failUnless_eq_ok hpkValid] at hpk
    rw [failUnless_eq_ok h] at hmatch
    exact ⟨write, report, key, stored, hwrites, mapError_eq_ok hreport, hkey, wrapError_eq_ok hverify,
      beq_iff_eq.mp (failUnless_eq_ok hname), wrapError_eq_ok hpk, hstored, wrapError_eq_ok hmatch⟩
  · cases h

/-- Conversely the round is passed when each of its checks is. -/
theorem checkErccNamespace_of {fetchState : Except String ChannelState} {ns : Peer.NsRwSet}
    {write : Peer.KVWrite} {report : IASAttestationReport} {key : PkixKey ρ} {stored : Bytes}
    (hw : ns.kvRwSet.writes = [write]) (hr : L.unmarshalReport write.value = .ok report)
    (hk : intelVerificationKey L = .ok key) (hv : verifyAttestionReport L now key report = .ok true)
    (hn : write.key = registryName L.sum256 report.enclavePk)
    (hp : checkEnclavePkHash L report.enclavePk report = .ok true)
    (hs : storedMrenclave fetchState = .ok stored) (hm : checkMrEnclave L stored report = .ok true) :
    checkErccNamespace L now fetchState ns = .ok () := by
  rw [checkErccNamespace]
  split_ifs
  · rfl
  · rw [hw]
    simp only [hr, hk, checkReport, hv, hn, hp, hs, hm, wrapError, Except.mapError, failUnless, bind, Except.bind,
      BEq.rfl, if_true]

/-- The write of an entry that is passed attests a key. -/
theorem checkErccNamespace_ok (ias : AttestationService L) {fetchState : Except String ChannelState}
    {ns : Peer.NsRwSet} (hns : ns.nameSpace = str "ercc")
    (h : checkErccNamespace L now fetchState ns = .ok ()) :
    ∃ write report quote, ns.kvRwSet.writes = [write] ∧ Attests L ias fetchState write report quote := by
  obtain ⟨write, report, key, stored, hwrites, hreport, hkey, hverify, hname, hpk, hstored, hmatch⟩ :=
    checkErccNamespace_checks hns h
  obtain ⟨rsaKey, signature, rfl, hsig⟩ := verifyAttestionReport_ok hverify
  -- the two checks of the quote have parsed the same one
  obtain ⟨quote, x, y, hquote, hpub, hdata⟩ := checkEnclavePkHash_ok hpk
  obtain ⟨quote', mrenclave, hquote', hm, hmr⟩ := checkMrEnclave_ok hmatch
  cases Except.ok.inj (hquote.symm.trans hquote')
  refine ⟨write, report, quote, hwrites, ?_⟩
  exact
    { report_eq := hreport
      key_eq := hname
      issued := (ias.signs_issued rsaKey hkey report.iasReportBody).mp ⟨signature, hsig⟩
      quote_eq := hquote
      mrEnclave_eq := ⟨stored, mrenclave, hstored, hm, hmr⟩
      reportData_eq := ⟨x, y, hpub, hdata⟩ }

theorem validateErcc_peerEnvelope (fetchState : Except String ChannelState) (args : List Bytes)
    (response : Bytes) (txRWSet : List Peer.NsRwSet) :
    validateErcc L now fetchState (peerEnvelope args response txRWSet) =
      (txRWSet.forM (checkErccNamespace L now fetchState) >>= fun _ => pure ()) :=
  rfl

/-- In a transaction that is accepted, every entry of the registry has one write, which
attests the key it is filed under. The quote is genuine exactly when the status that came
with it is `OK`, and that status has not been looked at. -/
theorem accepted_registration_genuine_iff (ias : AttestationService L) (now : ℤ)
    (fetchState : Except String ChannelState) (envelope : Wire Peer.Envelope) (tx : Peer.Transaction)
    (ht : getTransaction envelope = .ok tx) (h : validateErcc L now fetchState envelope = .ok ())
    (act : Wire Peer.ChaincodeActionPayload) (hact : act ∈ tx.actions) (cap : Peer.ChaincodeActionPayload)
    (ccAction : Peer.ChaincodeAction) (hu : getCcAction act = .ok (cap, ccAction))
    (txRWSet : List Peer.NsRwSet) (hrw : ccAction.results.unmarshal = .ok txRWSet) (ns : Peer.NsRwSet)
    (hmem : ns ∈ txRWSet) (hns : ns.nameSpace = str "ercc") :
    ∃ write report quote, ns.kvRwSet.writes = [write] ∧ Attests L ias fetchState write report quote ∧
      (ias.genuine report.iasReportBody ↔
        (L.unmarshalReportBody report.iasReportBody).isvEnclaveQuoteStatus = str "OK") := by
  rw [validateErcc, ht] at h
  have hround := forM_eq_ok_mem h hact
  rw [validateErccAction, hu] at hround
  have hcheck : checkAttestation L now fetchState ccAction = .ok () := hround
  obtain ⟨txRWSet', hrw', hloop⟩ := bind_eq_ok hcheck
  cases Except.ok.inj (hrw.symm.trans (mapError_eq_ok hrw'))
  obtain ⟨write, report, quote, hwrites, hatt⟩ := checkErccNamespace_ok ias hns (forM_eq_ok_mem hloop hmem)
  exact ⟨write, report, quote, hwrites, hatt, ias.genuine_iff _ hatt.issued⟩

end

/-- The DER of the algorithm in a public key of RSA with 2048 bits. -/
def rsaHeader : Bytes := [0x30, 0x82, 1, 0x22, 0x30, 0x0d, 6, 9, 0x2a, 0x86, 0x48, 0x86, 0xf7, 0x0d, 1, 1, 1, 5, 0,
  3, 0x82, 1, 0x0f, 0]

/-- The members of a report. Go writes bytes in base64. -/
def reportMembers (report : IASAttestationReport) : List (Bytes × Bytes) :=
  [(str "EnclavePk", base64Encode report.enclavePk), (str "IASReport-Signature", report.iasReportSignature),
    (str "IASReport-Signing-Certificate", report.iasReportSigningCertificate),
    (str "IASResponseBody", base64Encode report.iasReportBody)]

/-- The JSON text of a report. -/
def reportText (report : IASAttestationReport) : Bytes := textObject (reportMembers report)

def bodyMembers (status quoteBody : Bytes) : List (Bytes × Bytes) :=
  [(str "id", str "1"), (str "isvEnclaveQuoteStatus", status), (str "isvEnclaveQuoteBody", quoteBody),
    (str "timestamp", str "2018-10-01T12:00:00")]

/-- The JSON text of a report body. -/
def bodyText (status quoteBody : Bytes) : Bytes := textObject (bodyMembers status quoteBody)

/-- Small libraries. A certificate is the DER of a sequence with one number, the time until which it
holds; a pool is the one number of its certificate. The signature of a hash is the hash. -/
def demoLibs : AttestationLibs Unit UInt8 UInt8 where
  queryUnescape := queryUnescape
  pemDecode := pemDecode
  parseCertificate
    | [0x30, 3, 2, 1, t] => .ok t
    | _ => .error "asn1: structure error"
  appendCertsFromPEM b :=
    match (pemDecode b).1 with
    | some [0x30, 3, 2, 1, t] => some t
    | _ => none
  verifyCertificate signCert root now := decide (now ≤ signCert.toNat) && decide (now ≤ root.toNat)
  parsePKIXPublicKey b :=
    if b.take 24 = rsaHeader then .ok (.rsa ())
    else if b.take 27 = pkixHeader ∧ b.length = 91 then
      .ok (.ecdsa (((b.drop 27).take 32).dropWhile (· = 0)) ((b.drop 59).dropWhile (· = 0)))
    else .error "asn1: structure error"
  verifyPKCS1v15 _ hashed signature :=
    if signature = hashed then .ok () else .error "crypto/rsa: verification error"
  sum256 := firstBytes
  decodeString s :=
    if s.all (fun c => base64Chars.contains c || c == 0x3d) then
      -- the array behind the slice has three bytes for each group of four letters
      (⟨base64Decode s, List.replicate (s.length/4*3 - (base64Decode s).length) 0⟩, none)
    else (⟨[], []⟩, some "illegal base64 data")
  unmarshalReport value :=
    match parsonGetString signedLibc [] value (str "EnclavePk"),
      parsonGetString signedLibc [] value (str "IASReport-Signature"),
      parsonGetString signedLibc [] value (str "IASReport-Signing-Certificate"),
      parsonGetString signedLibc [] value (str "IASResponseBody") with
    | some pk, some signature, some cert, some body => .ok ⟨base64Decode pk, signature, cert, base64Decode body⟩
    | _, _, _, _ => .error "unexpected end of JSON input"
  unmarshalReportBody body :=
    ⟨(parsonGetString signedLibc [] body (str "isvEnclaveQuoteStatus")).getD [],
      (parsonGetString signedLibc [] body (str "isvEnclaveQuoteBody")).getD []⟩

/-- A service that has issued every body there is. -/
def openService : AttestationService demoLibs where
  issued _ := True
  genuine body := (demoLibs.unmarshalReportBody body).isvEnclaveQuoteStatus = str "OK"
  signs_issued _ _ _ := ⟨fun _ => trivial, fun _ => ⟨_, if_pos rfl⟩⟩
  genuine_iff _ _ := Iff.rfl

/-! What the libraries do with the texts of a report. -/

theorem demoLibs_unmarshalReport {report : IASAttestationReport} (hsignature : PlainText report.iasReportSignature)
    (hcert : PlainText report.iasReportSigningCertificate) :
    demoLibs.unmarshalReport (reportText report) = .ok report := by
  have hnames : PlainText (str "EnclavePk") ∧ PlainText (str "IASReport-Signature") ∧
      PlainText (str "IASReport-Signing-Certificate") ∧ PlainText (str "IASResponseBody") := by
    refine ⟨?_, ?_, ?_, ?_⟩
    all_goals exact plainText_str (by decide)
  have hplain : ∀ m ∈ reportMembers report, PlainText m.1 ∧ PlainText m.2 := by
    simp [reportMembers, hnames, plainText_base64Encode, hsignature, hcert]
  have hnew : ((reportMembers report).map Prod.fst).Nodup := by
    simp only [reportMembers, List.map_cons, List.map_nil]
    decide
  have hget {name value : Bytes} (h : (name, value) ∈ reportMembers report) :
      parsonGetString signedLibc [] (reportText report) name = some value :=
    parsonGetString_textObject signedLibc [] hplain hnew h
  have hpk := hget (List.mem_cons_self ..)
  have hsig := hget (List.mem_cons_of_mem _ List.mem_cons_self)
  have hcertificate := hget (List.mem_cons_of_mem _ (List.mem_cons_of_mem _ List.mem_cons_self))
  have hbody := hget (List.mem_cons_of_mem _ (List.mem_cons_of_mem _ (List.mem_cons_of_mem _ List.mem_cons_self)))
  simp only [demoLibs, hpk, hsig, hcertificate, hbody, base64Decode_base64Encode]

theorem demoLibs_unmarshalReportBody {status quoteBody : Bytes} (hstatus : PlainText status)
    (hquote : PlainText quoteBody) : demoLibs.unmarshalReportBody (bodyText status quoteBody) = ⟨status, quoteBody⟩ := by
  have hnames : PlainText (str "id") ∧ PlainText (str "1") ∧ PlainText (str "isvEnclaveQuoteStatus") ∧
      PlainText (str "isvEnclaveQuoteBody") ∧ PlainText (str "timestamp") ∧
      PlainText (str "2018-10-01T12:00:00") := by
    refine ⟨?_, ?_, ?_, ?_, ?_, ?_⟩
    all_goals exact plainText_str (by decide)
  have hplain : ∀ m ∈ bodyMembers status quoteBody, PlainText m.1 ∧ PlainText m.2 := by
    simp [bodyMembers, hnames, hstatus, hquote]
  have hnew : ((bodyMembers status quoteBody).map Prod.fst).Nodup := by
    simp only [bodyMembers, List.map_cons, List.map_nil]
    decide
  have hget {name value : Bytes} (h : (name, value) ∈ bodyMembers status quoteBody) :
      parsonGetString signedLibc [] (bodyText status quoteBody) name = some value :=
    parsonGetString_textObject signedLibc [] hplain hnew h
  have hs := hget (List.mem_cons_of_mem _ List.mem_cons_self)
  have hq := hget (List.mem_cons_of_mem _ (List.mem_cons_of_mem _ List.mem_cons_self))
  simp only [demoLibs, hs, hq, Option.getD_some]

theorem decodeString_base64Encode (b : Bytes) : ∃ spare, demoLibs.decodeString (base64Encode b) = (⟨b, spare⟩, none) := by
  have hletters : (base64Encode b).all (fun c => base64Chars.contains c || c == 0x3d) = true := by
    rw [List.all_eq_true]
    intro c hc
    simpa using mem_base64Encode hc
  refine ⟨List.replicate ((base64Encode b).length/4*3 - b.length) 0, ?_⟩
  simp only [demoLibs, hletters, if_true, base64Decode_base64Encode]

theorem decodeBase64_base64Encode (b : Bytes) : ∃ spare, decodeBase64 demoLibs (base64Encode b) = .ok ⟨b, spare⟩ := by
  obtain ⟨spare, hdecode⟩ := decodeString_base64Encode b
  refine ⟨spare, ?_⟩
  rw [decodeBase64, hdecode]

theorem intelVerificationKey_demoLibs : intelVerificationKey demoLibs = .ok (.rsa ()) := by
  have hheader : (pemDecode intelPubPEM).1.map (fun b => b.take 24) = some rsaHeader := by decide +kernel
  obtain ⟨block, hpem, hrsa⟩ := Option.map_eq_some_iff.mp hheader
  have hparse : demoLibs.parsePKIXPublicKey block = .ok (.rsa ()) := if_pos hrsa
  have hdecode : demoLibs.pemDecode = pemDecode := rfl
  simp only [intelVerificationKey, hdecode, hpem, orPanic, bind, Except.bind, hparse, Except.mapError]

/-! A registration. -/

/-- The certificates as they come from the service: one that holds until 10, and a root until 20. -/
def certificates : Bytes :=
  str "-----BEGIN%20CERTIFICATE-----%0AMAMCAQo%3D%0A-----END%20CERTIFICATE-----%0A" ++
    str "-----BEGIN%20CERTIFICATE-----%0AMAMCARQ%3D%0A-----END%20CERTIFICATE-----%0A"

def mrenclave7 : Bytes := List.replicate 32 7

/-- The coordinates of the generator. -/
def generatorXY : Bytes := generatorPk.drop 27

/-- A quote with this MRENCLAVE and, in its report data, the hash of the generator. -/
def quote7 : Bytes :=
  List.replicate 112 0 ++ mrenclave7 ++ List.replicate 224 0 ++ demoLibs.sum256 generatorXY ++
    List.replicate 32 0

/-- The body of a report about this quote. -/
def body7 (status : Bytes) : Bytes := bodyText status (base64Encode quote7)

/-- The report about this quote, signed. -/
def report7 (status : Bytes) : IASAttestationReport :=
  ⟨generatorPk, base64Encode (demoLibs.sum256 (body7 status)), certificates, body7 status⟩

def channelWith (mrenclave : Bytes) : Except String ChannelState :=
  .ok ⟨fun _ _ => .ok [some (base64Encode mrenclave)]⟩

/-- The write that registers the generator with a report of the given status. -/
def write7 (status : Bytes) : Peer.KVWrite :=
  ⟨registryName demoLibs.sum256 generatorPk, reportText (report7 status)⟩

def registration (status : Bytes) : List Peer.NsRwSet := [⟨str "ercc", [], [], [write7 status]⟩]

theorem plainText_ok : PlainText (str "OK") := plainText_str (by decide)

theorem plainText_certificates : PlainText certificates :=
  (plainText_str (by decide)).append (plainText_str (by decide))

theorem unmarshalReport_write7 (status : Bytes) :
    demoLibs.unmarshalReport (write7 status).value = .ok (report7 status) := by
  have hvalue : (write7 status).value = reportText (report7 status) := rfl
  rw [hvalue]
  exact demoLibs_unmarshalReport (plainText_base64Encode _) plainText_certificates

theorem unmarshalReportBody_body7 {status : Bytes} (hstatus : PlainText status) :
    demoLibs.unmarshalReportBody (body7 status) = ⟨status, base64Encode quote7⟩ :=
  demoLibs_unmarshalReportBody hstatus (plainText_base64Encode quote7)

/-- The quote is read from the report, whatever status stands before it. -/
theorem quoteFromAttestionReport_body7 {status : Bytes} (hstatus : PlainText status) (pk signature cert : Bytes) :
    quoteFromAttestionReport demoLibs ⟨pk, signature, cert, body7 status⟩ =
      .ok ⟨mrenclave7, demoLibs.sum256 generatorXY ++ List.replicate 32 0⟩ := by
  have hlen : 432 ≤ quote7.length := by decide +kernel
  have hmr : (quote7.drop 112).take 32 = mrenclave7 := by decide +kernel
  have hdata : (quote7.drop 368).take 64 = demoLibs.sum256 generatorXY ++ List.replicate 32 0 := by
    decide +kernel
  obtain ⟨spare, hdecode⟩ := decodeBase64_base64Encode quote7
  rw [quoteFromAttestionReport, unmarshalReportBody_body7 hstatus, quoteFromBase64, hdecode]
  simp only [bind, Except.bind, quoteFromBytes, if_pos hlen, hmr, hdata]

theorem checkEnclavePkHash_body7 {status : Bytes} (hstatus : PlainText status) (pk signature cert : Bytes) :
    checkEnclavePkHash demoLibs generatorPk ⟨pk, signature, cert, body7 status⟩ = .ok true := by
  have hparse : demoLibs.parsePKIXPublicKey generatorPk = .ok (.ecdsa (generatorXY.take 32) (generatorXY.drop 32)) := by
    have hrsa : generatorPk.take 24 ≠ rsaHeader := by decide
    have hform : generatorPk.take 27 = pkixHeader ∧ generatorPk.length = 91 := by decide
    have hx : ((generatorPk.drop 27).take 32).dropWhile (· = 0) = generatorXY.take 32 := by decide +kernel
    have hy : (generatorPk.drop 59).dropWhile (· = 0) = generatorXY.drop 32 := by decide +kernel
    simp only [demoLibs, if_neg hrsa, if_pos hform, hx, hy]
  have hdata : (demoLibs.sum256 generatorXY ++ List.replicate 32 0).take 32 = demoLibs.sum256 generatorXY := by
    decide +kernel
  rw [checkEnclavePkHash, quoteFromAttestionReport_body7 hstatus]
  simp only [bind, Except.bind, hparse, Except.mapError, List.take_append_drop, hdata, BEq.rfl]
  rfl

theorem checkMrEnclave_body7 {status : Bytes} (hstatus : PlainText status) (pk signature cert : Bytes) :
    checkMrEnclave demoLibs (base64Encode mrenclave7) ⟨pk, signature, cert, body7 status⟩ = .ok true := by
  obtain ⟨spare, hdecode⟩ := decodeBase64_base64Encode mrenclave7
  have hupTo : Slice.upTo ⟨mrenclave7, spare⟩ 32 = .ok mrenclave7 := by
    have hlen : mrenclave7.length = 32 := rfl
    have hle : 32 ≤ (mrenclave7 ++ spare).length := by
      rw [List.length_append]
      omega
    rw [Slice.upTo, if_pos hle, List.take_left' hlen]
  rw [checkMrEnclave, quoteFromAttestionReport_body7 hstatus, hdecode]
  simp only [bind, Except.bind, hupTo, BEq.rfl]
  rfl

/-- The first of the certificates, and the text behind it. -/
theorem pemDecode_certificates : demoLibs.pemDecode (demoLibs.queryUnescape certificates) =
    (some [0x30, 3, 2, 1, 10], str "\n-----BEGIN CERTIFICATE-----\nMAMCARQ=\n-----END CERTIFICATE-----\n") := by
  decide +kernel

/-- The certificates hold until 10. -/
theorem verifyAttestionReport_body7 {now : ℤ} (hnow : now ≤ 10) (pk status : Bytes) :
    verifyAttestionReport demoLibs now (.rsa ())
      ⟨pk, base64Encode (demoLibs.sum256 (body7 status)), certificates, body7 status⟩ = .ok true := by
  have hroots : demoLibs.appendCertsFromPEM
      (str "\n-----BEGIN CERTIFICATE-----\nMAMCARQ=\n-----END CERTIFICATE-----\n") = some 20 := by
    decide +kernel
  have hcert : demoLibs.verifyCertificate 10 20 now = true := by
    have h10 : now ≤ ((10 : UInt8).toNat : ℤ) := hnow
    have h20 : now ≤ ((20 : UInt8).toNat : ℤ) := hnow.trans (by decide)
    simp only [demoLibs, h10, h20, decide_true, Bool.and_self]
  obtain ⟨spare, hdecode⟩ := decodeString_base64Encode (demoLibs.sum256 (body7 status))
  have hsignature (hashed : Bytes) : demoLibs.verifyPKCS1v15 () hashed hashed = .ok () := if_pos rfl
  have hparse : demoLibs.parseCertificate [0x30, 3, 2, 1, 10] = .ok 10 := rfl
  simp only [verifyAttestionReport, pemDecode_certificates, orPanic, bind, Except.bind, hparse, Except.mapError, hroots, hcert,
    failUnless, if_true, hdecode, hsignature]
  rfl

/-- The registration passes while the certificates hold, with every status. -/
theorem checkErccNamespace_write7 {now : ℤ} (hnow : now ≤ 10) {status : Bytes} (hstatus : PlainText status)
    {fetchState : Except String ChannelState} (hstored : storedMrenclave fetchState = .ok (base64Encode mrenclave7)) :
    checkErccNamespace demoLibs now fetchState ⟨str "ercc", [], [], [write7 status]⟩ = .ok () := by
  have hkey : (write7 status).key = registryName demoLibs.sum256 (report7 status).enclavePk := rfl
  have hverify : verifyAttestionReport demoLibs now (.rsa ()) (report7 status) = .ok true :=
    verifyAttestionReport_body7 hnow generatorPk status
  have hpk : checkEnclavePkHash demoLibs (report7 status).enclavePk (report7 status) = .ok true :=
    checkEnclavePkHash_body7 hstatus _ _ _
  have hmr : checkMrEnclave demoLibs (base64Encode mrenclave7) (report7 status) = .ok true :=
    checkMrEnclave_body7 hstatus _ _ _
  exact checkErccNamespace_of rfl (unmarshalReport_write7 status) intelVerificationKey_demoLibs hverify hkey hpk hstored hmr

theorem validate_registration {now : ℤ} (hnow : now ≤ 10) {status : Bytes} (hstatus : PlainText status) :
    validateErcc demoLibs now (channelWith mrenclave7) (peerEnvelope [] [] (registration status)) = .ok () := by
  have hround : ∀ ns ∈ registration status, checkErccNamespace demoLibs now (channelWith mrenclave7) ns = .ok () :=
    List.forall_mem_singleton.mpr (checkErccNamespace_write7 hnow hstatus rfl)
  rw [validateErcc_peerEnvelope, forM_eq_ok_of_forall hround]
  rfl

theorem registration_with_status_ok_genuine :
    validateErcc demoLibs 5 (channelWith mrenclave7) (peerEnvelope [] [] (registration (str "OK"))) = .ok () ∧
      ∃ write report quote, Attests demoLibs openService (channelWith mrenclave7) write report quote ∧
        write.key = registryName demoLibs.sum256 generatorPk ∧ openService.genuine report.iasReportBody := by
  have hv : validateErcc demoLibs 5 (channelWith mrenclave7) (peerEnvelope [] [] (registration (str "OK"))) = .ok () :=
    validate_registration (by decide) plainText_ok
  obtain ⟨write, report, quote, hw, hatt, hiff⟩ := accepted_registration_genuine_iff openService 5
    (channelWith mrenclave7) (peerEnvelope [] [] (registration (str "OK"))) _ rfl hv _ List.mem_cons_self _ _ rfl
    (registration (str "OK")) rfl _ List.mem_cons_self rfl
  obtain rfl : _ = write := List.head_eq_of_cons_eq hw
  have hreport : report7 (str "OK") = report :=
    Except.ok.inj ((unmarshalReport_write7 (str "OK")).symm.trans hatt.report_eq)
  rw [← hreport] at hatt hiff
  have hstatus : (demoLibs.unmarshalReportBody (body7 (str "OK"))).isvEnclaveQuoteStatus = str "OK" := by
    rw [unmarshalReportBody_body7 plainText_ok]
  exact ⟨hv, _, _, quote, hatt, rfl, hiff.mpr hstatus⟩

/-- A body that reports an invalid quote is issued and signed like any other, and its key
is registered. -/
theorem registration_of_invalid_quote_accepted :
    validateErcc demoLibs 5 (channelWith mrenclave7) (peerEnvelope [] [] (registration (str "SIGNATURE_INVALID"))) =
        .ok () ∧
      openService.issued (body7 (str "SIGNATURE_INVALID")) ∧ ¬openService.genuine (body7 (str "SIGNATURE_INVALID")) ∧
      demoLibs.unmarshalReport (write7 (str "SIGNATURE_INVALID")).value = .ok (report7 (str "SIGNATURE_INVALID")) := by
  have hplain : PlainText (str "SIGNATURE_INVALID") := plainText_str (by decide)
  refine ⟨validate_registration (by decide) hplain, trivial, ?_, unmarshalReport_write7 _⟩
  intro h
  have hstatus : (demoLibs.unmarshalReportBody (body7 (str "SIGNATURE_INVALID"))).isvEnclaveQuoteStatus = str "OK" := h
  rw [unmarshalReportBody_body7 hplain] at hstatus
  exact absurd hstatus (by decide)

end SecureChaincode
