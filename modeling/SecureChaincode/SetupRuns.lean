import SecureChaincode.Setup

/-! What a `setup` that returns a success has done. -/
namespace SecureChaincode

/-- Also for a call whose answer comes from elsewhere. -/
theorem run_ofStub {α : Type} (O : SgxOutcomes) (peers : SetupPeers) (p : StubProgram α) (s : HostState) :
    (ofStub p).run (setupStep O peers) s = p.run (libraryStep O) s := by
  induction p generalizing s with
  | done a => rfl
  | fault => rfl
  | call c next ih =>
    rw [ofStub, Program.run, Program.run, setupStep]
    cases libraryStep O s c with
    | mk answer t =>
      cases answer with
      | none => rfl
      | some a => exact ih a t

section
variable {step : HostState → (c : SetupCall) → Option c.Answer × HostState}

/-- A success at the end is a success of each part. -/
theorem run_orReturn_eq_ok {α β : Type} {text : String → String} {p : SetupProgram (Except String α)}
    {next : α → SetupProgram (Except String β)} {s t : HostState} {x : β}
    (h : (orReturn text p next).run step s = (some (.ok x), t)) :
    ∃ a u, p.run step s = (some (.ok a), u) ∧ (next a).run step u = (some (.ok x), t) := by
  obtain ⟨r, u, hp, hnext⟩ := Program.run_bind_eq_some h
  cases r with
  | error err => cases hnext
  | ok a => exact ⟨a, u, hp, hnext⟩

end

section
variable {ρ : Type} {X : PkixLibs ρ} {O : SgxOutcomes} {s t : HostState}

/-- The program goes on with the key that Go has written, or ends there. -/
theorem run_ofGo_eq_ok {α : Type} {r : Go α} {a : α}
    (h : (ofGo r).run (libraryStep O) s = (some (.ok a), t)) : r = .ok a ∧ t = s := by
  cases r with
  | ok b =>
    cases h
    exact ⟨rfl, rfl⟩
  | error e =>
    cases e with
    | error err => cases h
    | panic => cases h

theorem run_create {enclaveFile : Bytes}
    (h : (StubImpl.create enclaveFile).run (libraryStep O) s = (some (.ok ()), t)) :
    (sgxccCreateEnclave O enclaveFile).1.1 = 0 ∧ t = ⟨(sgxccCreateEnclave O enclaveFile).2,
      (sgxccCreateEnclave O enclaveFile).2, s.registered⟩ := by
  obtain ⟨_, u, hacquire, h⟩ := Program.run_bind_eq_some h
  cases hacquire
  obtain ⟨⟨ret, eid⟩, u, hcreate, h⟩ := Program.run_bind_eq_some h
  rw [stubCall, Program.run_request] at hcreate
  obtain ⟨hret, rfl⟩ := Prod.mk.inj hcreate
  have hret' : (sgxccCreateEnclave O enclaveFile).1 = (ret, eid) := Option.some.inj hret
  dsimp only at h
  split_ifs at h with h0
  · cases h
  · rw [hret']
    refine ⟨not_not.mp h0, ?_⟩
    cases h
    rfl

theorem run_getRemoteAttestationReport {spid quote pk : Bytes}
    (h : (StubImpl.getRemoteAttestationReport X spid).run (libraryStep O) s = (some (.ok (quote, pk)), t)) :
    t = s ∧ ∃ ret pubkey, sgxccGetRemoteAttestationReport O spid s.current = some (ret, quote, pubkey) ∧
      marshalEnclavePk X pubkey = .ok pk := by
  obtain ⟨_, u, hacquire, h⟩ := Program.run_bind_eq_some h
  cases hacquire
  obtain ⟨⟨ret, quote', pubkey⟩, u, hcall, h⟩ := Program.run_bind_eq_some h
  rw [stubCall, Program.run_request] at hcall
  obtain ⟨hret, rfl⟩ := Prod.mk.inj hcall
  obtain ⟨_, u, hrelease, h⟩ := Program.run_bind_eq_some h
  cases hrelease
  obtain ⟨hpk, rfl⟩ := run_ofGo_eq_ok h
  obtain ⟨pk', hpk', hpair⟩ := bind_eq_ok hpk
  cases hpair
  exact ⟨rfl, ret, pubkey, hret, hpk'⟩

theorem run_getTargetInfo : (StubImpl.getTargetInfo).run (libraryStep O) s =
    (some (.ok (sgxccGetTargetInfo O).2), s) := rfl

theorem run_bind {report pk : Option Bytes}
    (h : (StubImpl.bind X report pk).run (libraryStep O) s = (some (.ok ()), t)) :
    ∃ binding ret e, sgxccBind O binding s.current = some (ret, e) ∧ t = { s with current := e } ∧
      ((binding = none ∧ (report = none ∨ pk = none)) ∨
        ∃ r k transPk, report = some r ∧ pk = some k ∧ unmarshalEnclavePk X k = .ok transPk ∧
          binding = some (r, transPk)) := by
  have hwith {binding : Option (Bytes × Bytes)}
      (h : (StubImpl.bindWith binding).run (libraryStep O) s = (some (.ok ()), t)) :
      ∃ ret e, sgxccBind O binding s.current = some (ret, e) ∧ t = { s with current := e } := by
    obtain ⟨_, u, hacquire, h⟩ := Program.run_bind_eq_some h
    cases hacquire
    obtain ⟨ret, u, hcall, h⟩ := Program.run_bind_eq_some h
    rw [stubCall, Program.run_request, libraryStep] at hcall
    cases hbind : sgxccBind O binding s.current with
    | none =>
      rw [hbind] at hcall
      cases hcall
    | some answer =>
      rw [hbind] at hcall
      cases hcall
      cases h
      exact ⟨_, _, rfl, rfl⟩
  cases report with
  | none =>
    obtain ⟨ret, e, hbind, ht⟩ := hwith h
    exact ⟨none, ret, e, hbind, ht, Or.inl ⟨rfl, Or.inl rfl⟩⟩
  | some r =>
    cases pk with
    | none =>
      obtain ⟨ret, e, hbind, ht⟩ := hwith h
      exact ⟨none, ret, e, hbind, ht, Or.inl ⟨rfl, Or.inr rfl⟩⟩
    | some k =>
      obtain ⟨trans, u, hgo, hrest⟩ := Program.run_bind_eq_some h
      cases trans with
      | error err => cases hrest
      | ok transPk =>
        obtain ⟨hread, rfl⟩ := run_ofGo_eq_ok hgo
        obtain ⟨ret, e, hbind, ht⟩ := hwith hrest
        exact ⟨some (r, transPk), ret, e, hbind, ht, Or.inr ⟨r, k, transPk, rfl, rfl, hread, rfl⟩⟩

/-- What a run to the end has been answered, and the state it has left. -/
structure SetUpWith (X : PkixLibs ρ) (O : SgxOutcomes) (peers : SetupPeers) (t : HostState)
    (spid quote pubkey pk : Bytes) (report tlccPk : Option Bytes) : Prop where
  createdEnclave : (sgxccCreateEnclave O enclaveLibFile).1.1 = 0
  created_eq : t.created = (sgxccCreateEnclave O enclaveLibFile).2
  spid_eq : peers.getSPID = .ok spid
  quote_eq : ∃ ret, sgxccGetRemoteAttestationReport O spid t.created = some (ret, quote, pubkey)
  pk_eq : marshalEnclavePk X pubkey = .ok pk
  registered_eq : t.registered.getLast? = some (base64Encode pk, base64Encode quote)
  report_eq : peers.getReport (sgxccGetTargetInfo O).2 = .ok (report, tlccPk)
  bound : ∃ binding ret, sgxccBind O binding t.created = some (ret, t.current) ∧
    ((binding = none ∧ (report = none ∨ tlccPk = none)) ∨
      ∃ r k transPk, report = some r ∧ tlccPk = some k ∧ unmarshalEnclavePk X k = .ok transPk ∧
        binding = some (r, transPk))

theorem setUpWith_of_run {peers : SetupPeers} {hasEnclave : Bool} {args : List Bytes} {channelName payload : Bytes}
    (h : (setup X hasEnclave args channelName).run (setupStep O peers) s = (some (.ok payload), t)) :
    ∃ spid quote pubkey pk report tlccPk, SetUpWith X O peers t spid quote pubkey pk report tlccPk := by
  obtain ⟨erccName, -, h⟩ := Program.run_orFault_bind_eq_some h
  cases hasEnclave with
  | false => cases h
  | true =>
    obtain ⟨_, u, hcreate, h⟩ := run_orReturn_eq_ok h
    rw [run_ofStub] at hcreate
    obtain ⟨hcreated, rfl⟩ := run_create hcreate
    obtain ⟨spid, u, hspid, h⟩ := run_orReturn_eq_ok h
    obtain ⟨hspid', rfl⟩ := Prod.mk.inj hspid
    obtain ⟨⟨quote, pk⟩, u, hquote, h⟩ := run_orReturn_eq_ok h
    rw [run_ofStub] at hquote
    obtain ⟨rfl, ret, pubkey, hquote, hpk⟩ := run_getRemoteAttestationReport hquote
    obtain ⟨_, u, hregister, h⟩ := run_orReturn_eq_ok h
    rw [setupCall, Program.run_request, setupStep] at hregister
    obtain ⟨targetInfo, v, htarget, h⟩ := run_orReturn_eq_ok h
    rw [run_ofStub, run_getTargetInfo] at htarget
    cases htarget
    obtain ⟨⟨report, tlccPk⟩, w, hreport, h⟩ := run_orReturn_eq_ok h
    obtain ⟨hreport', rfl⟩ := Prod.mk.inj hreport
    obtain ⟨_, w, hbind, h⟩ := run_orReturn_eq_ok h
    rw [run_ofStub] at hbind
    cases h
    cases hanswer : peers.registerEnclave (base64Encode pk) (base64Encode quote) with
    | error err =>
      rw [hanswer] at hregister
      cases hregister
    | ok _ =>
      rw [hanswer] at hregister
      cases hregister
      obtain ⟨binding, ret', e, hcall, rfl, hbinding⟩ := run_bind hbind
      exact ⟨spid, quote, pubkey, pk, report, tlccPk, hcreated, rfl, Option.some.inj hspid', ⟨ret, hquote⟩, hpk,
        List.getLast?_concat, Option.some.inj hreport', binding, ret', hcall, hbinding⟩

/-- The outcomes under which the enclave is initialised. -/
theorem sgxccCreateEnclave_of_zero (h : (sgxccCreateEnclave O enclaveLibFile).1.1 = 0) :
    O.access enclaveLibFile = true ∧ O.createEnclave = 0 ∧ O.ecallInit = 0 ∧
      (sgxccCreateEnclave O enclaveLibFile).2 = (ecallInit O .fresh).2 := by
  rw [sgxccCreateEnclave] at h ⊢
  split_ifs at h ⊢ with haccess hcreate hinit
  · cases h
  · exact absurd h hcreate
  · exact absurd h hinit
  · refine ⟨by simpa using haccess, not_not.mp hcreate, not_not.mp hinit, ?_⟩
    rcases ecallInit O .fresh with ⟨enclaveRet, e⟩
    dsimp only
    split_ifs
    · rfl
    · rfl

theorem ecallInit_eq_zero_iff (e : EccEnclave) :
    (ecallInit O e).1 = 0 ↔ O.openContext = 0 ∧ O.createKeyPair = 0 := by
  rw [ecallInit]
  split_ifs with hopen hkeys
  · simp [hopen]
  · simp [hkeys]
  · exact ⟨fun _ => ⟨not_not.mp hopen, not_not.mp hkeys⟩, fun _ => rfl⟩

theorem ecallBindTlcc_some_iff {report pubkey : Bytes} (e e' : EccEnclave) :
    ecallBindTlcc O (some (report, pubkey)) e = (0, e') ↔
      tlccPkHash O (pubkey.take 64) = (report.drop 320).take 32 ∧ O.verifyReport report = 0 ∧
        e' = { e with tlccPk := pubkey.take 64 } := by
  rw [ecallBindTlcc]
  split_ifs with hhash hverify
  · simp [hhash, sgxErrorInvalidParameter]
  · simp [hverify]
  · simp [not_not.mp hhash, not_not.mp hverify, eq_comm]

/-- The quote is made, from a report with the hash of the key. -/
def QuoteProduced (O : SgxOutcomes) : Prop :=
  O.initQuote = 0 ∧ O.ecallCreateReport = 0 ∧ O.hashEnclavePk = 0 ∧ O.createReport = 0 ∧
    O.neededSize ≤ O.quoteSize ∧ O.getQuote = 0

theorem sgxccGetRemoteAttestationReport_of_zero {spid quote pubkey : Bytes} {e : EccEnclave}
    (h : sgxccGetRemoteAttestationReport O spid e = some (0, quote, pubkey)) :
    O.initQuote = 0 ∧ O.ecallCreateReport = 0 ∧ O.neededSize ≤ O.quoteSize ∧ O.getQuote = 0 := by
  rw [sgxccGetRemoteAttestationReport] at h
  split_ifs at h with hinit hecall hsize hspid hget
  · exact absurd (Prod.mk.inj (Option.some.inj h)).1 hinit
  · exact absurd (Prod.mk.inj (Option.some.inj h)).1 hecall
  · cases h
  · exact absurd (Prod.mk.inj (Option.some.inj h)).1 hget
  · exact ⟨not_not.mp hinit, not_not.mp hecall, not_lt.mp hsize, not_not.mp hget⟩

theorem sgxccGetRemoteAttestationReport_of_produced {spid quote pubkey : Bytes} {e : EccEnclave} {ret : ℤ}
    (hO : QuoteProduced O) (h : sgxccGetRemoteAttestationReport O spid e = some (ret, quote, pubkey)) :
    ret = 0 ∧ pubkey = swapFields e.enclavePk ∧
      quote = O.makeQuote (O.makeReport (O.sha256 (swapFields e.enclavePk) ++ List.replicate 32 0)) spid := by
  obtain ⟨hinit, hecall, hhash, hreport, hsize, hget⟩ := hO
  simp only [sgxccGetRemoteAttestationReport, ecallCreateReport, reportData, hinit, hecall, hhash, hreport, hget,
    hsize.not_gt, ne_eq, not_true_eq_false, if_false] at h
  split_ifs at h
  cases h
  exact ⟨rfl, rfl, rfl⟩

/-- What `setup` is there for: the enclave is initialised, its key is registered with a quote for
it, and it is bound to the key of `tlcc`. -/
structure ReallySetUp (X : PkixLibs ρ) (O : SgxOutcomes) (peers : SetupPeers) (t : HostState) : Prop where
  initialised : O.access enclaveLibFile = true ∧ O.createEnclave = 0 ∧ O.ecallInit = 0 ∧
    ecallInit O .fresh = (0, t.created)
  attested : ∃ spid quote der, ∃ P : AffinePoint, peers.getSPID = .ok spid ∧ t.current.enclavePk = P.sgxBytes ∧
    marshalEnclavePk X P.bytes = .ok der ∧ O.hashEnclavePk = 0 ∧
    ecallCreateReport O t.created = (0, O.makeReport (O.sha256 P.bytes ++ List.replicate 32 0), P.bytes) ∧
    sgxccGetRemoteAttestationReport O spid t.created = some (0, quote, P.bytes) ∧
    t.registered.getLast? = some (base64Encode der, base64Encode quote)
  bound : ∃ report der transPk, ∃ T : AffinePoint, peers.getReport (sgxccGetTargetInfo O).2 = .ok (some report, some der) ∧
    marshalEnclavePk X T.bytes = .ok der ∧ unmarshalEnclavePk X der = .ok transPk ∧ O.ecallBind = 0 ∧
    ecallBindTlcc O (some (report, transPk)) t.created = (0, t.current) ∧ t.current.tlccPk = T.bytes

/-- The outcomes of the calls whose status is dropped on the way to `setup`. -/
structure AllSucceeded (X : PkixLibs ρ) (O : SgxOutcomes) (peers : SetupPeers) : Prop where
  initialised : O.openContext = 0 ∧ O.createKeyPair = 0
  quote : QuoteProduced O
  bound : ∃ report der, ∃ T : AffinePoint, peers.getReport (sgxccGetTargetInfo O).2 = .ok (some report, some der) ∧
    marshalEnclavePk X T.bytes = .ok der ∧ T.FieldsKept ∧ O.ecallBind = 0 ∧
    tlccPkHash O T.bytes = (report.drop 320).take 32 ∧ O.verifyReport report = 0

/-- Binding changes nothing but the key of `tlcc`. -/
theorem enclavePk_of_sgxccBind {binding : Option (Bytes × Bytes)} {e e' : EccEnclave} {ret : ℤ}
    (h : sgxccBind O binding e = some (ret, e')) : e'.enclavePk = e.enclavePk := by
  rw [sgxccBind] at h
  split_ifs at h
  · cases h
    rfl
  · have he : (ecallBindTlcc O binding e).2 = e' := congrArg Prod.snd (Option.some.inj h)
    rw [← he]
    cases binding with
    | none => rfl
    | some pair =>
      rw [ecallBindTlcc]
      split_ifs
      · rfl
      · rfl
      · rfl

section
variable {peers : SetupPeers}

theorem AllSucceeded.of_reallySetUp (hX : X.RoundTrip) (h : ReallySetUp X O peers t) : AllSucceeded X O peers := by
  obtain ⟨⟨-, -, -, hinit⟩, ⟨spid, quote, der, P, -, -, -, hhash, hreport, hquote, -⟩,
    report, tlccDer, transPk, T, hpeers, hder, hread, hecall, hbind, htlcc⟩ := h
  obtain ⟨hinitQuote, hcreate, hsize, hget⟩ := sgxccGetRemoteAttestationReport_of_zero hquote
  obtain ⟨hsame, hverify, hcurrent⟩ := (ecallBindTlcc_some_iff _ _).mp hbind
  -- the key in the enclave is the one that was handed over, so nothing was lost on the way
  have htake : transPk.take 64 = transPk := List.take_of_length_le (length_unmarshalEnclavePk hread).le
  have htrans : transPk = T.bytes := by rw [← htlcc, hcurrent, htake]
  subst htrans
  rw [htake] at hsame
  have hstatus : O.createReport = 0 := by
    rw [ecallCreateReport] at hreport
    split_ifs at hreport with hne
    · exact (Prod.mk.inj hreport).1
    · exact not_not.mp hne
  exact ⟨(ecallInit_eq_zero_iff _).mp (by rw [hinit]), ⟨hinitQuote, hcreate, hhash, hstatus, hsize, hget⟩,
    report, tlccDer, T, hpeers, hder, (unmarshalEnclavePk_iff hX hder).mp hread, hecall, hsame, hverify⟩

theorem ReallySetUp.of_allSucceeded (hX : X.RoundTrip) {spid quote pubkey pk : Bytes} {report tlccPk : Option Bytes}
    (hO : AllSucceeded X O peers) (h : SetUpWith X O peers t spid quote pubkey pk report tlccPk) :
    ReallySetUp X O peers t := by
  obtain ⟨⟨hopen, hkeys⟩, hproduced, r, der, T, hpeers, hder, hkept, hecall, hsame, hverify⟩ := hO
  obtain ⟨haccess, hcreate, hinit, hstate⟩ := sgxccCreateEnclave_of_zero h.createdEnclave
  have hcreated : ecallInit O .fresh = (0, t.created) := by
    rw [h.created_eq, hstate, ← (ecallInit_eq_zero_iff .fresh).mpr ⟨hopen, hkeys⟩]
  obtain ⟨P, hP⟩ := O.genuine hkeys
  have hkey : t.created.enclavePk = P.sgxBytes := by
    rw [← hP, h.created_eq, hstate, ecallInit, if_neg (not_not.mpr hopen), if_neg (not_not.mpr hkeys)]
  obtain ⟨ret, hquote⟩ := h.quote_eq
  obtain ⟨rfl, hpubkey, -⟩ := sgxccGetRemoteAttestationReport_of_produced hproduced hquote
  rw [hkey, swapFields_sgxBytes] at hpubkey
  subst hpubkey
  have hreport : ecallCreateReport O t.created =
      (0, O.makeReport (O.sha256 P.bytes ++ List.replicate 32 0), P.bytes) := by
    obtain ⟨-, -, hhash, hstatus, -, -⟩ := hproduced
    rw [ecallCreateReport, if_neg (not_not.mpr hstatus), hkey, swapFields_sgxBytes, reportData,
      if_neg (not_not.mpr hhash)]
  have hread : unmarshalEnclavePk X der = .ok T.bytes := (unmarshalEnclavePk_iff hX hder).mpr hkept
  have htake : T.bytes.take 64 = T.bytes := List.take_of_length_le T.length_bytes.le
  obtain ⟨binding, ret, hbind, hbinding⟩ := h.bound
  have hanswer : report = some r ∧ tlccPk = some der := by
    have heq := h.report_eq.symm.trans hpeers
    exact Prod.mk.inj (Except.ok.inj heq)
  obtain ⟨rfl, rfl⟩ := hanswer
  -- with a report and a key the pointers are not NULL
  have hcall : binding = some (r, T.bytes) := by
    rcases hbinding with ⟨-, hnone | hnone⟩ | ⟨r', k, transPk, hr, hk, hread', hbinding⟩
    · cases hnone
    · cases hnone
    · cases hr
      cases hk
      rw [hbinding, Except.ok.inj (hread'.symm.trans hread)]
  have hbound : ecallBindTlcc O (some (r, T.bytes)) t.created = (0, t.current) := by
    have hstate := (ecallBindTlcc_some_iff (O := O) t.created _).mpr
      ⟨(congrArg (tlccPkHash O) htake).trans hsame, hverify, rfl⟩
    rw [hcall, sgxccBind, hecall] at hbind
    split_ifs at hbind with hlen
    · exact absurd rfl ‹¬_›
    · rw [hstate] at hbind
      rw [hstate, (Prod.mk.inj (Option.some.inj hbind)).2]
  have hcurrent := (ecallBindTlcc_some_iff (O := O) _ _).mp hbound
  refine ⟨⟨haccess, hcreate, hinit, hcreated⟩, ⟨spid, quote, pk, P, h.spid_eq, ?_, h.pk_eq, hproduced.2.2.1, hreport,
    hquote, h.registered_eq⟩, r, der, T.bytes, T, hpeers, hder, hread, hecall, hbound, ?_⟩
  · rw [enclavePk_of_sgxccBind hbind, hkey]
  · rw [hcurrent.2.2, htake]

/-- When `setup` returns a success, the enclave is set up exactly if the calls whose status is
dropped have succeeded. -/
theorem setup_success_iff (hX : X.RoundTrip) {hasEnclave : Bool} {args : List Bytes} {channelName payload : Bytes}
    (h : (setup X hasEnclave args channelName).run (setupStep O peers) s = (some (.ok payload), t)) :
    ReallySetUp X O peers t ↔ AllSucceeded X O peers := by
  obtain ⟨spid, quote, pubkey, pk, report, tlccPk, hrun⟩ := setUpWith_of_run h
  exact ⟨AllSucceeded.of_reallySetUp hX, fun hO => .of_allSucceeded hX hO hrun⟩

end

end

/-- Peers with the base point as the key of `tlcc`. -/
def demoPeers : SetupPeers where
  getSPID := .ok (List.replicate 16 0)
  registerEnclave _ _ := .ok ()
  getReport _ := .ok (some (List.replicate 320 0 ++ AffinePoint.base.bytes.take 32 ++ List.replicate 80 0),
    some AffinePoint.base.bytes)

/-- A `setup` under these outcomes. -/
def demoSetup (getQuote verifyReport : ℤ) : Option (Except String Bytes) × HostState :=
  (setup plainPkix true [str "setup", str "ercc"] (str "mychannel")).run
    (setupStep (demoOutcomes getQuote verifyReport) demoPeers) ⟨.fresh, .fresh, []⟩

theorem allSucceeded_demo : AllSucceeded plainPkix (demoOutcomes 0 0) demoPeers where
  initialised := ⟨rfl, rfl⟩
  quote := ⟨rfl, rfl, rfl, rfl, le_rfl, rfl⟩
  bound := ⟨_, _, AffinePoint.base, rfl, by decide +kernel, AffinePoint.base_fullWidth.fieldsKept, rfl,
    by decide +kernel, rfl⟩

theorem demoSetup_sets_up : (demoSetup 0 0).1 = some (.ok (base64Encode AffinePoint.base.bytes)) ∧
    ReallySetUp plainPkix (demoOutcomes 0 0) demoPeers (demoSetup 0 0).2 := by
  have hrun : (demoSetup 0 0).1 = some (.ok (base64Encode AffinePoint.base.bytes)) := by decide +kernel
  have heq : demoSetup 0 0 = (some (.ok (base64Encode AffinePoint.base.bytes)), (demoSetup 0 0).2) := by
    rw [← hrun]
  exact ⟨hrun, (setup_success_iff plainPkix_roundTrip heq).mpr allSucceeded_demo⟩

/-- A report that does not verify, or a quote that could not be made, is not noticed: the enclave is
not bound to `tlcc`, or what was in the buffer is registered as the quote. -/
theorem failures_unnoticed :
    ((demoSetup 0 1).1 = some (.ok (base64Encode AffinePoint.base.bytes)) ∧
      (demoSetup 0 1).2.current.tlccPk = List.replicate 64 0 ∧
      ¬ ReallySetUp plainPkix (demoOutcomes 0 1) demoPeers (demoSetup 0 1).2) ∧
    ((demoSetup 1 0).1 = some (.ok (base64Encode AffinePoint.base.bytes)) ∧
      (demoSetup 1 0).2.registered = [(base64Encode AffinePoint.base.bytes, base64Encode [])] ∧
      ¬ ReallySetUp plainPkix (demoOutcomes 1 0) demoPeers (demoSetup 1 0).2) := by
  refine ⟨⟨by decide +kernel, by decide +kernel, ?_⟩, by decide +kernel, by decide +kernel, ?_⟩
  · intro h
    obtain ⟨_, _, _, _, _, _, _, _, hverify⟩ := (AllSucceeded.of_reallySetUp plainPkix_roundTrip h).bound
    exact absurd hverify one_ne_zero
  · intro h
    obtain ⟨_, _, _, _, _, hget⟩ := (AllSucceeded.of_reallySetUp plainPkix_roundTrip h).quote
    exact absurd hget one_ne_zero

end SecureChaincode
