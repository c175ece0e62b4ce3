import SecureChaincode.ErccVscc

/-! Where the two validation plugins panic: at which missing part of a transaction, and what
must have gone well before it is looked at. -/
namespace SecureChaincode

section
variable {α β : Type}

/-! A panic comes from a nil pointer or an index out of range, never from a library function
that returns an error. -/

theorem orPanic_panics {p : Option α} : orPanic p = .error .panic ↔ p = none := by
  cases p with
  | none => exact ⟨fun _ => rfl, fun _ => rfl⟩
  | some a => exact ⟨nofun, nofun⟩

theorem orPanic_eq_ok_iff {p : Option α} {a : α} : orPanic p = .ok a ↔ p = some a := by
  constructor
  · exact orPanic_eq_ok
  · intro h
    rw [h]
    rfl

theorem mapError_not_panics {ε : Type} {p : Except ε α} {text : ε → String} :
    p.mapError (fun e => GoExit.error (text e)) ≠ .error .panic := by
  cases p <;> nofun

theorem get_not_panics {w : Wire α} : w.get ≠ .error .panic := mapError_not_panics

theorem get_eq_ok_iff {w : Wire α} {a : α} : w.get = .ok a ↔ w.unmarshal = .ok a := by
  constructor
  · exact mapError_eq_ok
  · intro h
    rw [Wire.get, h]
    rfl

theorem wrapError_panics {text : String} {p : Go α} : wrapError text p = .error .panic ↔ p = .error .panic := by
  rw [wrapError]
  cases p with
  | ok a =>
    refine iff_of_false ?_ ?_
    · intro h
      cases h
    · intro h
      cases h
  | error e =>
    cases e with
    | panic => exact iff_of_true rfl rfl
    | error err =>
      refine iff_of_false ?_ ?_
      · intro h
        cases h
      · intro h
        cases h

theorem failUnless_not_panics {c : Bool} {text : String} : failUnless c text ≠ .error .panic := by
  cases c <;> nofun

end

theorem getTransaction_not_panics (env : Wire Peer.Envelope) : getTransaction env ≠ .error .panic := by
  intro h
  rcases bind_eq_error h with h | ⟨e, -, h⟩
  · exact get_not_panics h
  rcases bind_eq_error h with h | ⟨payl, -, h⟩
  · exact get_not_panics h
  · exact get_not_panics h

/-- Both plugins go through the action of an action payload. -/
theorem getCcAction_panics {act : Wire Peer.ChaincodeActionPayload} :
    getCcAction act = .error .panic ↔ ∃ cap, act.unmarshal = .ok cap ∧ cap.action = none := by
  rw [getCcAction, bind_eq_error_iff]
  constructor
  · rintro (h | ⟨cap, hcap, h⟩)
    · exact absurd h get_not_panics
    refine ⟨cap, get_eq_ok_iff.mp hcap, ?_⟩
    rcases bind_eq_error h with h | ⟨action, -, h⟩
    · exact orPanic_panics.mp h
    rcases bind_eq_error h with h | ⟨resp, -, h⟩
    · exact absurd h get_not_panics
    rcases bind_eq_error h with h | ⟨ccAction, -, h⟩
    · exact absurd h get_not_panics
    · cases h
  · rintro ⟨cap, hcap, haction⟩
    refine Or.inr ⟨cap, get_eq_ok_iff.mpr hcap, ?_⟩
    rw [haction]
    rfl

/-! The plugin of `ecc`. -/

/-- A range query whose reads are summarised by hashes. -/
def HasSummary (kv : Peer.KVRWSet) : Prop := ∃ rqi ∈ kv.rangeQueriesInfo, rqi.rawReads = none

theorem mapM_orPanic_panics {l : List Peer.RangeQueryInfo} :
    l.mapM (fun rqi => orPanic rqi.rawReads) = .error .panic ↔ ∃ rqi ∈ l, rqi.rawReads = none := by
  induction l with
  | nil => exact ⟨nofun, fun ⟨_, h, _⟩ => absurd h List.not_mem_nil⟩
  | cons rqi l ih =>
    rw [List.mapM_cons, bind_eq_error_iff, orPanic_panics, List.exists_mem_cons_iff, ← ih]
    apply or_congr_right'
    intro hsome
    obtain ⟨reads, hreads⟩ := Option.ne_none_iff_exists'.mp hsome
    rw [hreads]
    constructor
    · rintro ⟨reads', -, h⟩
      rcases bind_eq_error h with h | ⟨rest, -, h⟩
      · exact h
      · cases h
    · intro h
      exact ⟨reads, rfl, bind_eq_error_iff.mpr (Or.inl h)⟩

theorem readset_panics {kv : Peer.KVRWSet} : readset kv = .error .panic ↔ HasSummary kv := by
  rw [readset, bind_eq_error_iff, readKeys, bind_eq_error_iff, mapM_orPanic_panics]
  constructor
  · rintro ((h | ⟨ranges, -, h⟩) | ⟨keys, -, h⟩)
    · exact h
    · cases h
    · cases h
  · intro h
    exact Or.inl (Or.inl h)

/-- A namespace on which the plugin panics: arguments or response are missing, or the response
names a registered key and there is a query without raw reads. -/
def EccEntryPanics (V : VSCCECC) (state : ChannelState) (cis : Peer.ChaincodeInvocationSpec)
    (ccAction : Peer.ChaincodeAction) (ns : Peer.NsRwSet) : Prop :=
  ns.nameSpace = str "ecc" ∧ (arguments cis = none ∨ ccAction.response = none ∨
    ∃ payload response attestation, ccAction.response = some payload ∧
      V.jsonUnmarshal payload = .ok response ∧
      state.getState (str "ercc") (registryName V.sum256 response.publicKey) = .ok (some attestation) ∧
      HasSummary ns.kvRwSet)

/-- The three steps to the arguments are one. -/
theorem orPanic_arguments {α : Type} (cis : Peer.ChaincodeInvocationSpec) (k : Bytes → Go α) :
    (do
      let spec ← orPanic cis.chaincodeSpec
      let inputs ← orPanic spec.input
      let args ← orPanic inputs[0]?
      k args) = orPanic (arguments cis) >>= k := by
  rw [arguments]
  cases cis.chaincodeSpec with
  | none => rfl
  | some spec =>
    rw [Option.bind_some]
    cases hinput : spec.input with
    | none => simp [orPanic, bind, Except.bind, hinput]
    | some inputs => simp [orPanic, bind, Except.bind, hinput]

theorem checkNamespace_eq {V : VSCCECC} {state : ChannelState} {cis : Peer.ChaincodeInvocationSpec}
    {ccAction : Peer.ChaincodeAction} {ns : Peer.NsRwSet} (hns : ns.nameSpace = str "ecc") :
    checkNamespace V state cis ccAction ns = (do
      let args ← orPanic (arguments cis)
      let payload ← orPanic ccAction.response
      checkResponse V state ns.kvRwSet args payload) := by
  rw [checkNamespace, if_neg (not_not.mpr hns), ← orPanic_arguments]

theorem checkResponse_panics {V : VSCCECC} {state : ChannelState} {kv : Peer.KVRWSet} {args payload : Bytes} :
    checkResponse V state kv args payload = .error .panic ↔
      ∃ response attestation, V.jsonUnmarshal payload = .ok response ∧
        state.getState (str "ercc") (registryName V.sum256 response.publicKey) = .ok (some attestation) ∧
        HasSummary kv := by
  rw [checkResponse, bind_eq_error_iff]
  constructor
  · rintro (h | ⟨response, hresponse, h⟩)
    · exact absurd h mapError_not_panics
    cases ha : state.getState (str "ercc") (registryName V.sum256 response.publicKey) with
    | error e =>
      rw [ha] at h
      cases h
    | ok found =>
      rw [ha] at h
      cases found with
      | none => cases h
      | some attestation =>
        refine ⟨response, attestation, mapError_eq_ok hresponse, ha, ?_⟩
        rcases bind_eq_error h with h | ⟨reads, -, h⟩
        · exact readset_panics.mp h
        -- the verdict on the signature is an error at worst
        rcases bind_eq_error h with h | ⟨isValid, -, h⟩
        · exact absurd h mapError_not_panics
        · cases isValid <;> cases h
  · rintro ⟨response, attestation, hresponse, ha, hsummary⟩
    refine Or.inr ⟨response, by rw [hresponse]; rfl, ?_⟩
    rw [ha]
    exact bind_eq_error_iff.mpr (Or.inl (readset_panics.mpr hsummary))

theorem checkNamespace_panics {V : VSCCECC} {state : ChannelState} {cis : Peer.ChaincodeInvocationSpec}
    {ccAction : Peer.ChaincodeAction} {ns : Peer.NsRwSet} :
    checkNamespace V state cis ccAction ns = .error .panic ↔ EccEntryPanics V state cis ccAction ns := by
  rw [EccEntryPanics]
  by_cases hns : ns.nameSpace = str "ecc"
  swap
  · -- other namespaces are passed over
    rw [checkNamespace_other V state cis ccAction hns]
    refine iff_of_false ?_ (fun h => hns h.1)
    intro h
    cases h
  rw [checkNamespace_eq hns, bind_eq_error_iff, orPanic_panics]
  constructor
  · rintro (h | ⟨args, -, h⟩)
    · exact ⟨hns, Or.inl h⟩
    rcases bind_eq_error h with h | ⟨payload, hpayload, h⟩
    · exact ⟨hns, Or.inr (Or.inl (orPanic_panics.mp h))⟩
    · obtain ⟨response, attestation, hrest⟩ := checkResponse_panics.mp h
      exact ⟨hns, Or.inr (Or.inr ⟨payload, response, attestation, orPanic_eq_ok hpayload, hrest⟩)⟩
  · rintro ⟨-, hmissing⟩
    cases hargs : arguments cis with
    | none => exact Or.inl rfl
    | some args =>
      refine Or.inr ⟨args, rfl, bind_eq_error_iff.mpr ?_⟩
      rcases hmissing with h | h | ⟨payload, response, attestation, hpayload, hrest⟩
      · rw [hargs] at h
        cases h
      · exact Or.inl (orPanic_panics.mpr h)
      · exact Or.inr ⟨payload, orPanic_eq_ok_iff.mpr hpayload, checkResponse_panics.mpr ⟨response, attestation, hrest⟩⟩

/-- An action on which the plugin panics: the action payload has no action, or everything is
there and one of the namespaces is the first that is not passed. -/
def EccActionPanics (V : VSCCECC) (act : Wire Peer.ChaincodeActionPayload) : Prop :=
  (∃ cap, act.unmarshal = .ok cap ∧ cap.action = none) ∨
    ∃ cis ccAction state txRWSet pre ns post, unwrapEccAction act = .ok (cis, ccAction) ∧
      V.fetchState = .ok state ∧ ccAction.results.unmarshal = .ok txRWSet ∧ txRWSet = pre ++ ns :: post ∧
      (∀ ns' ∈ pre, checkNamespace V state cis ccAction ns' = .ok ()) ∧
      EccEntryPanics V state cis ccAction ns

theorem unwrapEccAction_panics {act : Wire Peer.ChaincodeActionPayload} :
    unwrapEccAction act = .error .panic ↔ ∃ cap, act.unmarshal = .ok cap ∧ cap.action = none := by
  rw [unwrapEccAction, bind_eq_error_iff, getCcAction_panics]
  constructor
  · rintro (h | ⟨⟨cap, ccAction⟩, -, h⟩)
    · exact h
    rcases bind_eq_error h with h | ⟨cpp, -, h⟩
    · exact absurd h get_not_panics
    rcases bind_eq_error h with h | ⟨cis, -, h⟩
    · exact absurd h get_not_panics
    · cases h
  · exact Or.inl

theorem checkEnclaveEndorsement_panics {V : VSCCECC} {cis : Peer.ChaincodeInvocationSpec}
    {ccAction : Peer.ChaincodeAction} :
    checkEnclaveEndorsement V cis ccAction = .error .panic ↔
      ∃ state txRWSet pre ns post, V.fetchState = .ok state ∧ ccAction.results.unmarshal = .ok txRWSet ∧
        txRWSet = pre ++ ns :: post ∧ (∀ ns' ∈ pre, checkNamespace V state cis ccAction ns' = .ok ()) ∧
        EccEntryPanics V state cis ccAction ns := by
  rw [checkEnclaveEndorsement, bind_eq_error_iff]
  constructor
  · rintro (h | ⟨state, hstate, h⟩)
    · exact absurd h mapError_not_panics
    rcases bind_eq_error h with h | ⟨txRWSet, hrw, h⟩
    · exact absurd h get_not_panics
    obtain ⟨pre, ns, post, hsplit, hpre, hns⟩ := forM_eq_error_iff.mp h
    exact ⟨state, txRWSet, pre, ns, post, mapError_eq_ok hstate, get_eq_ok_iff.mp hrw, hsplit, hpre,
      checkNamespace_panics.mp hns⟩
  · rintro ⟨state, txRWSet, pre, ns, post, hstate, hrw, hsplit, hpre, hns⟩
    refine Or.inr ⟨state, by rw [hstate]; rfl, bind_eq_error_iff.mpr (Or.inr ⟨txRWSet, get_eq_ok_iff.mpr hrw, ?_⟩)⟩
    exact forM_eq_error_iff.mpr ⟨pre, ns, post, hsplit, hpre, checkNamespace_panics.mpr hns⟩

theorem validateEccAction_panics {V : VSCCECC} {act : Wire Peer.ChaincodeActionPayload} :
    validateEccAction V act = .error .panic ↔ EccActionPanics V act := by
  rw [validateEccAction, bind_eq_error_iff, unwrapEccAction_panics, EccActionPanics]
  apply or_congr_right
  constructor
  · rintro ⟨⟨cis, ccAction⟩, hu, h⟩
    obtain ⟨state, txRWSet, pre, ns, post, hrest⟩ := checkEnclaveEndorsement_panics.mp h
    exact ⟨cis, ccAction, state, txRWSet, pre, ns, post, hu, hrest⟩
  · rintro ⟨cis, ccAction, state, txRWSet, pre, ns, post, hu, hrest⟩
    exact ⟨(cis, ccAction), hu, checkEnclaveEndorsement_panics.mpr ⟨state, txRWSet, pre, ns, post, hrest⟩⟩

/-! The plugin of the registry. -/

section
variable {ρ γ π : Type} {L : AttestationLibs ρ γ π} {now : ℤ} {fetchState : Except String ChannelState}

theorem Slice.upTo_panics {s : Slice} {n : ℕ} : s.upTo n = .error .panic ↔ (s.data ++ s.spare).length < n := by
  rw [Slice.upTo]
  split_ifs with h
  · constructor
    · intro hpanic
      cases hpanic
    · intro hlt
      omega
  · exact ⟨fun _ => by omega, fun _ => rfl⟩

theorem quoteFromBytes_not_panics {b : Bytes} : quoteFromBytes b ≠ .error .panic := by
  rw [quoteFromBytes]
  split_ifs
  all_goals
    intro h
    cases h

theorem decodeBase64_not_panics {b : Bytes} : decodeBase64 L b ≠ .error .panic := by
  rw [decodeBase64]
  intro h
  split at h <;> cases h

theorem quoteFromAttestionReport_not_panics {report : IASAttestationReport} :
    quoteFromAttestionReport L report ≠ .error .panic := by
  intro h
  rcases bind_eq_error h with h | ⟨quote, -, h⟩
  · exact decodeBase64_not_panics h
  · exact quoteFromBytes_not_panics h

theorem storedMrenclave_not_panics : storedMrenclave fetchState ≠ .error .panic := by
  intro h
  rcases bind_eq_error h with h | ⟨state, -, h⟩
  · exact mapError_not_panics h
  · split at h <;> cases h

theorem checkEnclavePkHash_not_panics {pk : Bytes} {report : IASAttestationReport} :
    checkEnclavePkHash L pk report ≠ .error .panic := by
  intro h
  rcases bind_eq_error h with h | ⟨quote, -, h⟩
  · exact quoteFromAttestionReport_not_panics h
  rcases bind_eq_error h with h | ⟨pub, -, h⟩
  · exact mapError_not_panics h
  · cases pub <;> cases h

theorem intelVerificationKey_panics :
    intelVerificationKey L = .error .panic ↔ (L.pemDecode intelPubPEM).1 = none := by
  rw [intelVerificationKey, bind_eq_error_iff, orPanic_panics]
  constructor
  · rintro (h | ⟨block, -, h⟩)
    · exact h
    · exact absurd h mapError_not_panics
  · exact Or.inl

/-- The signing certificate is no PEM text. -/
theorem verifyAttestionReport_panics {key : PkixKey ρ} {report : IASAttestationReport} :
    verifyAttestionReport L now key report = .error .panic ↔
      (L.pemDecode (L.queryUnescape report.iasReportSigningCertificate)).1 = none := by
  unfold verifyAttestionReport
  rw [bind_eq_error_iff, orPanic_panics]
  constructor
  · rintro (h | ⟨block, -, h⟩)
    · exact h
    rcases bind_eq_error h with h | ⟨signCert, -, h⟩
    · exact absurd h mapError_not_panics
    cases hroots : L.appendCertsFromPEM
        (L.pemDecode (L.queryUnescape report.iasReportSigningCertificate)).2 with
    | none =>
      rw [hroots] at h
      cases h
    | some roots =>
      rw [hroots] at h
      rcases bind_eq_error h with h | ⟨⟨⟩, -, h⟩
      · exact absurd h failUnless_not_panics
      cases key with
      | ecdsa x y => cases h
      | other => cases h
      | rsa rsaKey =>
        rcases bind_eq_error h with h | ⟨⟨⟩, -, h⟩
        · exact absurd h mapError_not_panics
        · cases h
  · exact Or.inl

/-- The stored MRENCLAVE is too short to be cut. -/
theorem checkMrEnclave_panics {stored : Bytes} {report : IASAttestationReport} :
    checkMrEnclave L stored report = .error .panic ↔
      ∃ quote mrenclave, quoteFromAttestionReport L report = .ok quote ∧ decodeBase64 L stored = .ok mrenclave ∧
        (mrenclave.data ++ mrenclave.spare).length < 32 := by
  rw [checkMrEnclave, bind_eq_error_iff]
  constructor
  · rintro (h | ⟨quote, hquote, h⟩)
    · exact absurd h quoteFromAttestionReport_not_panics
    rcases bind_eq_error h with h | ⟨mrenclave, hm, h⟩
    · exact absurd h decodeBase64_not_panics
    rcases bind_eq_error h with h | ⟨bytes, -, h⟩
    · exact ⟨quote, mrenclave, hquote, hm, Slice.upTo_panics.mp h⟩
    · cases h
  · rintro ⟨quote, mrenclave, hquote, hm, hshort⟩
    refine Or.inr ⟨quote, hquote, bind_eq_error_iff.mpr (Or.inr ⟨mrenclave, hm, bind_eq_error_iff.mpr (Or.inl ?_)⟩)⟩
    exact Slice.upTo_panics.mpr hshort

variable (L now fetchState) in
/-- All checks of a report before the one against the stored MRENCLAVE are passed, and the array
into which that value is decoded has room for fewer than 32 bytes. -/
def ShortMrenclave (key : PkixKey ρ) (write : Peer.KVWrite) (report : IASAttestationReport) : Prop :=
  verifyAttestionReport L now key report = .ok true ∧ write.key = registryName L.sum256 report.enclavePk ∧
    checkEnclavePkHash L report.enclavePk report = .ok true ∧
    ∃ stored mrenclave, storedMrenclave fetchState = .ok stored ∧ decodeBase64 L stored = .ok mrenclave ∧
      (mrenclave.data ++ mrenclave.spare).length < 32

variable (L now fetchState) in
/-- A namespace on which the plugin panics: one write with a report, and the PEM text of the key
or the certificate is none, or the stored MRENCLAVE is too short. -/
def ErccEntryPanics (ns : Peer.NsRwSet) : Prop :=
  ns.nameSpace = str "ercc" ∧ ∃ write report, ns.kvRwSet.writes = [write] ∧
    L.unmarshalReport write.value = .ok report ∧
    ((L.pemDecode intelPubPEM).1 = none ∨
      ∃ key, intelVerificationKey L = .ok key ∧
        ((L.pemDecode (L.queryUnescape report.iasReportSigningCertificate)).1 = none ∨
          ShortMrenclave L now fetchState key write report))

theorem checkErccNamespace_eq {ns : Peer.NsRwSet} {write : Peer.KVWrite} (hns : ns.nameSpace = str "ercc")
    (hw : ns.kvRwSet.writes = [write]) :
    checkErccNamespace L now fetchState ns = (do
      let report ← (L.unmarshalReport write.value).mapError
        (fun err => .error ("txRWSet.Unmarshal failed, err " ++ err))
      let verificationPK ← intelVerificationKey L
      checkReport L now fetchState write report verificationPK) := by
  rw [checkErccNamespace, if_neg (not_not.mpr hns), hw]

theorem failUnless_ok_iff {c : Bool} {text : String} : failUnless c text = .ok () ↔ c = true := by
  cases c with
  | false => exact ⟨nofun, nofun⟩
  | true => exact ⟨fun _ => rfl, fun _ => rfl⟩

theorem checkReport_panics {write : Peer.KVWrite} {report : IASAttestationReport} {key : PkixKey ρ} :
    checkReport L now fetchState write report key = .error .panic ↔
      (L.pemDecode (L.queryUnescape report.iasReportSigningCertificate)).1 = none ∨
        ShortMrenclave L now fetchState key write report := by
  rw [checkReport, bind_eq_error_iff, wrapError_panics, verifyAttestionReport_panics]
  apply or_congr_right
  constructor
  · rintro ⟨isValid, hvalid, h⟩
    rcases bind_eq_error h with h | ⟨⟨⟩, hv, h⟩
    · exact absurd h failUnless_not_panics
    rcases bind_eq_error h with h | ⟨⟨⟩, hname, h⟩
    · exact absurd h failUnless_not_panics
    rcases bind_eq_error h with h | ⟨pkValid, hpk, h⟩
    · exact absurd (wrapError_panics.mp h) checkEnclavePkHash_not_panics
    rcases bind_eq_error h with h | ⟨⟨⟩, hp, h⟩
    · exact absurd h failUnless_not_panics
    rcases bind_eq_error h with h | ⟨stored, hstored, h⟩
    · exact absurd h storedMrenclave_not_panics
    rcases bind_eq_error h with h | ⟨matched, -, h⟩
    · obtain ⟨quote, mrenclave, -, hm, hshort⟩ := checkMrEnclave_panics.mp (wrapError_panics.mp h)
      rw [failUnless_ok_iff.mp hv] at hvalid
      rw [failUnless_ok_iff.mp hp] at hpk
      exact ⟨wrapError_eq_ok hvalid, beq_iff_eq.mp (failUnless_ok_iff.mp hname), wrapError_eq_ok hpk, stored,
        mrenclave, hstored, hm, hshort⟩
    · exact absurd h failUnless_not_panics
  · rintro ⟨hvalid, hname, hpk, stored, mrenclave, hstored, hm, hshort⟩
    -- the check of the key has read the quote already
    obtain ⟨quote, x, y, hquote, -⟩ := checkEnclavePkHash_ok hpk
    have hmr : checkMrEnclave L stored report = .error .panic :=
      checkMrEnclave_panics.mpr ⟨quote, mrenclave, hquote, hm, hshort⟩
    refine ⟨true, by rw [hvalid]; rfl, ?_⟩
    simp only [failUnless, hname, hpk, hstored, hmr, wrapError, Except.mapError, bind, Except.bind, BEq.rfl,
      if_true]

theorem checkErccNamespace_panics {ns : Peer.NsRwSet} :
    checkErccNamespace L now fetchState ns = .error .panic ↔ ErccEntryPanics L now fetchState ns := by
  rw [ErccEntryPanics]
  by_cases hns : ns.nameSpace = str "ercc"
  swap
  · rw [checkErccNamespace, if_pos hns]
    refine iff_of_false ?_ (fun h => hns h.1)
    intro h
    cases h
  simp only [hns, true_and]
  rcases hw : ns.kvRwSet.writes with _ | ⟨write, _ | ⟨write', rest⟩⟩
  · rw [checkErccNamespace, if_neg (not_not.mpr hns), hw]
    refine iff_of_false ?_ ?_
    · intro h
      cases h
    · rintro ⟨_, _, h, -⟩
      cases h
  · rw [checkErccNamespace_eq hns hw, bind_eq_error_iff]
    constructor
    · rintro (h | ⟨report, hreport, h⟩)
      · exact absurd h mapError_not_panics
      refine ⟨write, report, rfl, mapError_eq_ok hreport, ?_⟩
      rcases bind_eq_error h with h | ⟨key, hkey, h⟩
      · exact Or.inl (intelVerificationKey_panics.mp h)
      · exact Or.inr ⟨key, hkey, checkReport_panics.mp h⟩
    · rintro ⟨write', report, hwrite, hreport, hmissing⟩
      cases hwrite
      refine Or.inr ⟨report, by rw [hreport]; rfl, bind_eq_error_iff.mpr ?_⟩
      rcases hmissing with h | ⟨key, hkey, h⟩
      · exact Or.inl (intelVerificationKey_panics.mpr h)
      · exact Or.inr ⟨key, hkey, checkReport_panics.mpr h⟩
  · rw [checkErccNamespace, if_neg (not_not.mpr hns), hw]
    refine iff_of_false ?_ ?_
    · intro h
      cases h
    · rintro ⟨_, _, h, -⟩
      cases h

variable (L now fetchState) in
def ErccActionPanics (act : Wire Peer.ChaincodeActionPayload) : Prop :=
  (∃ cap, act.unmarshal = .ok cap ∧ cap.action = none) ∨
    ∃ cap ccAction txRWSet pre ns post, getCcAction act = .ok (cap, ccAction) ∧
      ccAction.results.unmarshal = .ok txRWSet ∧ txRWSet = pre ++ ns :: post ∧
      (∀ ns' ∈ pre, checkErccNamespace L now fetchState ns' = .ok ()) ∧ ErccEntryPanics L now fetchState ns

theorem checkAttestation_panics {ccAction : Peer.ChaincodeAction} :
    checkAttestation L now fetchState ccAction = .error .panic ↔
      ∃ txRWSet pre ns post, ccAction.results.unmarshal = .ok txRWSet ∧ txRWSet = pre ++ ns :: post ∧
        (∀ ns' ∈ pre, checkErccNamespace L now fetchState ns' = .ok ()) ∧ ErccEntryPanics L now fetchState ns := by
  rw [checkAttestation, bind_eq_error_iff]
  constructor
  · rintro (h | ⟨txRWSet, hrw, h⟩)
    · exact absurd h get_not_panics
    obtain ⟨pre, ns, post, hsplit, hpre, hns⟩ := forM_eq_error_iff.mp h
    exact ⟨txRWSet, pre, ns, post, get_eq_ok_iff.mp hrw, hsplit, hpre, checkErccNamespace_panics.mp hns⟩
  · rintro ⟨txRWSet, pre, ns, post, hrw, hsplit, hpre, hns⟩
    refine Or.inr ⟨txRWSet, get_eq_ok_iff.mpr hrw, ?_⟩
    exact forM_eq_error_iff.mpr ⟨pre, ns, post, hsplit, hpre, checkErccNamespace_panics.mpr hns⟩

theorem validateErccAction_panics {act : Wire Peer.ChaincodeActionPayload} :
    validateErccAction L now fetchState act = .error .panic ↔ ErccActionPanics L now fetchState act := by
  rw [validateErccAction, bind_eq_error_iff, getCcAction_panics, ErccActionPanics]
  apply or_congr_right
  constructor
  · rintro ⟨⟨cap, ccAction⟩, hu, h⟩
    obtain ⟨txRWSet, pre, ns, post, hrest⟩ := checkAttestation_panics.mp h
    exact ⟨cap, ccAction, txRWSet, pre, ns, post, hu, hrest⟩
  · rintro ⟨cap, ccAction, txRWSet, pre, ns, post, hu, hrest⟩
    exact ⟨(cap, ccAction), hu, checkAttestation_panics.mpr ⟨txRWSet, pre, ns, post, hrest⟩⟩

/-- Some action of the transaction is the first that is not accepted, and it has the property. -/
def FirstRefused (check : Wire Peer.ChaincodeActionPayload → Go Unit) (envelope : Wire Peer.Envelope)
    (P : Wire Peer.ChaincodeActionPayload → Prop) : Prop :=
  ∃ tx pre act post, getTransaction envelope = .ok tx ∧ tx.actions = pre ++ act :: post ∧
    (∀ a ∈ pre, check a = .ok ()) ∧ P act

theorem actions_panic_iff {check : Wire Peer.ChaincodeActionPayload → Go Unit} {envelope : Wire Peer.Envelope}
    {P : Wire Peer.ChaincodeActionPayload → Prop} (hcheck : ∀ act, check act = .error .panic ↔ P act) :
    (getTransaction envelope >>= fun tx => tx.actions.forM check) = .error .panic ↔
      FirstRefused check envelope P := by
  rw [bind_eq_error_iff]
  constructor
  · rintro (h | ⟨tx, htx, h⟩)
    · exact absurd h (getTransaction_not_panics envelope)
    obtain ⟨pre, act, post, hsplit, hpre, hact⟩ := forM_eq_error_iff.mp h
    exact ⟨tx, pre, act, post, htx, hsplit, hpre, (hcheck act).mp hact⟩
  · rintro ⟨tx, pre, act, post, htx, hsplit, hpre, hact⟩
    exact Or.inr ⟨tx, htx, forM_eq_error_iff.mpr ⟨pre, act, post, hsplit, hpre, (hcheck act).mpr hact⟩⟩

/-- The transactions on which the plugins panic. -/
theorem plugins_panic_iff (V : VSCCECC) (L : AttestationLibs ρ γ π) (now : ℤ) (fetchState : Except String ChannelState)
    (envelope : Wire Peer.Envelope) :
    (validateEcc V envelope = .error .panic ↔
        FirstRefused (validateEccAction V) envelope (EccActionPanics V)) ∧
      (validateErcc L now fetchState envelope = .error .panic ↔
        FirstRefused (validateErccAction L now fetchState) envelope (ErccActionPanics L now fetchState)) :=
  ⟨actions_panic_iff (fun _ => validateEccAction_panics), actions_panic_iff (fun _ => validateErccAction_panics)⟩

end

/-- The invocation has no chaincode spec. -/
def withoutSpec : Wire Peer.Envelope :=
  wire ⟨wire ⟨wire ⟨[wire
    { action := some (wire ⟨wire bidCcAction⟩)
      chaincodeProposalPayload := wire ⟨wire ⟨none⟩⟩ }]⟩⟩⟩

/-- The action payload has no action. -/
def withoutAction : Wire Peer.Envelope :=
  wire ⟨wire ⟨wire ⟨[wire { action := none, chaincodeProposalPayload := wire ⟨wire ⟨none⟩⟩ }]⟩⟩⟩

/-- A bid with a range query that is summarised by hashes. -/
def summarisedBid : List Peer.NsRwSet := [⟨str "ecc", { bidSet with rangeQueriesInfo := [⟨none⟩] }⟩]

/-- A report without a certificate. -/
def bareReport : IASAttestationReport := ⟨generatorPk, [], [], body7 (str "OK")⟩

def bareWrite : Peer.KVWrite := ⟨registryName demoLibs.sum256 generatorPk, reportText bareReport⟩

def bareRegistration : List Peer.NsRwSet := [⟨str "ercc", [], [], [bareWrite]⟩]

theorem validateEcc_peerEnvelope (V : VSCCECC) {state : ChannelState} (hs : V.fetchState = .ok state)
    (args : List Bytes) (response : Bytes) (txRWSet : List Peer.NsRwSet) :
    validateEcc V (peerEnvelope args response txRWSet) =
      (txRWSet.forM (checkNamespace V state ⟨some ⟨some args⟩⟩ ⟨wire txRWSet, some response⟩) >>= fun _ => pure ()) := by
  have hact (act : Wire Peer.ChaincodeActionPayload) : [act].forM (validateEccAction V) =
      validateEccAction V act >>= fun _ => pure () := rfl
  have htx : getTransaction (peerEnvelope args response txRWSet) = .ok ⟨[wire
    { action := some (wire ⟨wire ⟨wire txRWSet, some response⟩⟩)
      chaincodeProposalPayload := wire ⟨wire ⟨some ⟨some args⟩⟩⟩ }]⟩ := rfl
  have hcheck (cis : Peer.ChaincodeInvocationSpec) : checkEnclaveEndorsement V cis ⟨wire txRWSet, some response⟩ =
      txRWSet.forM (checkNamespace V state cis ⟨wire txRWSet, some response⟩) := by
    rw [checkEnclaveEndorsement, hs]
    rfl
  rw [validateEcc, htx, ← hcheck]
  exact hact _

theorem bid_panics {ns : Peer.NsRwSet} {args : List Bytes} {response : Bytes}
    (h : EccEntryPanics (bidVscc generatorChannel) generatorChannel ⟨some ⟨some args⟩⟩ ⟨wire [ns], some response⟩ ns) :
    validateEcc (bidVscc generatorChannel) (peerEnvelope args response [ns]) = .error .panic := by
  have hloop : [ns].forM (checkNamespace (bidVscc generatorChannel) generatorChannel ⟨some ⟨some args⟩⟩
      ⟨wire [ns], some response⟩) = .error .panic :=
    forM_eq_error_iff.mpr ⟨[], ns, [], rfl, fun _ h => absurd h List.not_mem_nil, checkNamespace_panics.mpr h⟩
  rw [validateEcc_peerEnvelope _ rfl, hloop]
  rfl

theorem registration_panics {fetchState : Except String ChannelState} {ns : Peer.NsRwSet}
    (h : ErccEntryPanics demoLibs 5 fetchState ns) :
    validateErcc demoLibs 5 fetchState (peerEnvelope [] [] [ns]) = .error .panic := by
  have hloop : [ns].forM (checkErccNamespace demoLibs 5 fetchState) = .error .panic :=
    forM_eq_error_iff.mpr ⟨[], ns, [], rfl, fun _ h => absurd h List.not_mem_nil, checkErccNamespace_panics.mpr h⟩
  rw [validateErcc_peerEnvelope, hloop]
  rfl

/-- A missing action, a missing chaincode spec, no arguments and a query summarised by hashes;
no certificate, and an MRENCLAVE of one byte. -/
theorem missing_parts_panic :
    validateEcc (bidVscc generatorChannel) withoutAction = .error .panic ∧
      validateEcc (bidVscc generatorChannel) withoutSpec = .error .panic ∧
      validateEcc (bidVscc generatorChannel) (peerEnvelope [] (jsonMarshal okResponse) [⟨str "ecc", bidSet⟩]) =
        .error .panic ∧
      validateEcc (bidVscc generatorChannel) (peerEnvelope [str "bid"] (jsonMarshal okResponse) summarisedBid) =
        .error .panic ∧
      validateErcc demoLibs 5 (channelWith mrenclave7) (peerEnvelope [] [] bareRegistration) = .error .panic ∧
      validateErcc demoLibs 5 (channelWith [7]) (peerEnvelope [] [] (registration (str "OK"))) = .error .panic := by
  refine ⟨rfl, rfl, bid_panics ⟨rfl, Or.inl rfl⟩, bid_panics ⟨rfl, Or.inr (Or.inr ?_)⟩, registration_panics ?_,
    registration_panics ?_⟩
  · have hjson : (bidVscc generatorChannel).jsonUnmarshal (jsonMarshal okResponse) = .ok okResponse := by
      have hfield : (bidVscc generatorChannel).jsonUnmarshal = unmarshalResponse := rfl
      rw [hfield, unmarshalResponse_jsonMarshal]
    have hregistered : generatorChannel.getState (str "ercc")
        (registryName (bidVscc generatorChannel).sum256 okResponse.publicKey) = .ok (some (str "attestation")) :=
      getState_generatorChannel
    exact ⟨jsonMarshal okResponse, okResponse, str "attestation", rfl, hjson, hregistered, ⟨none⟩, List.mem_cons_self,
      rfl⟩
  · have hempty : PlainText [] := fun c hc => absurd hc List.not_mem_nil
    have hvalue : bareWrite.value = reportText bareReport := rfl
    have hreport : demoLibs.unmarshalReport bareWrite.value = .ok bareReport := by
      rw [hvalue]
      exact demoLibs_unmarshalReport hempty hempty
    exact ⟨rfl, bareWrite, bareReport, rfl, hreport, Or.inr ⟨_, intelVerificationKey_demoLibs, Or.inl rfl⟩⟩
  · have hdecode : decodeBase64 demoLibs (base64Encode [7]) = .ok ⟨[7], [0, 0]⟩ := rfl
    have hkey : (write7 (str "OK")).key = registryName demoLibs.sum256 (report7 (str "OK")).enclavePk := rfl
    have hverify : verifyAttestionReport demoLibs 5 (.rsa ()) (report7 (str "OK")) = .ok true :=
      verifyAttestionReport_body7 (by decide) generatorPk (str "OK")
    have hpk : checkEnclavePkHash demoLibs (report7 (str "OK")).enclavePk (report7 (str "OK")) = .ok true :=
      checkEnclavePkHash_body7 plainText_ok _ _ _
    exact ⟨rfl, _, report7 (str "OK"), rfl, unmarshalReport_write7 (str "OK"), Or.inr ⟨_, intelVerificationKey_demoLibs,
      Or.inr ⟨hverify, hkey, hpk, base64Encode [7], ⟨[7], [0, 0]⟩, rfl, hdecode, by decide⟩⟩⟩

end SecureChaincode
