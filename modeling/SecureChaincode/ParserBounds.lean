import SecureChaincode.LedgerCalls

/-! Which blocks `parse_block` gets through without an access out of bounds: what it needs of
the messages, of the state and of the updates before it, along the plan of the block. -/
namespace SecureChaincode

/-- What the write loop needs of the writes of a namespace. -/
def WritesSafe (state updates : Kvs) (ns : Bytes) (writes : List KVWrite) : Prop :=
  if ns = str "lscc" then
    -- no write without a value
    ∀ w ∈ writes, w.key.isSome ∧ w.value.isSome
  else if ns = str "ercc" then
    -- `writes[0]` is there and has a value, `ecc.MRENCLAVE` is found and fits into 32 bytes
    ∃ w, writes.head? = some w ∧ w.key.isSome ∧ w.value.isSome ∧
      ∃ mrenclave, updates[mrenclaveKey]?.or state[mrenclaveKey]? = some mrenclave ∧
        (base64Decode mrenclave.1).length ≤ 32
  else if ns = str "ecc" then
    -- every key ends where it should, and the value of `writes[0]` is there
    ∀ w ∈ writes, (eccFirstWrite ns writes w).isSome
  else True

def NsSafe (state updates : Kvs) (n : NsReadWriteSet) : Prop :=
  ∀ d, decodedNs n = some d → WritesSafe state updates d.1 d.2.writes

/-- The namespaces in order, each over the writes offered before it. -/
def RwsetSafe (state : Kvs) (version : Version) : Kvs → List NsReadWriteSet → Prop
  | _, [] => True
  | updates, n :: ns =>
    NsSafe state updates n ∧
      RwsetSafe state version (insertAll updates (stamp version (nsWriteList n))) ns

/-- The response of an `ecc` invocation has its members, and they fit into their buffers. -/
def ResponseSafe (libs : Libs) (a : TransactionAction) : Prop :=
  ∀ function ccAction, unwrapAction a = .ok (function, ccAction) → ccAction.results.isSome →
    validateEccTx libs function ccAction = .ok ()

/-- An action that does not decode is left, one with a conflict is passed over, any other is
written. -/
def ActionSafe (libs : Libs) (state : Kvs) (version : Version) (updates : Kvs) (a : TransactionAction) : Prop :=
  match actionReads a with
  | .error x => x = .decoding
  | .ok reads => reads.all (fresh state updates) = true →
      RwsetSafe state version updates (actionNs a) ∧ ResponseSafe libs a

/-- The actions in order, each over the writes offered before it, up to the first that does not
decode. -/
def TxSafe (libs : Libs) (state : Kvs) (version : Version) : Kvs → List TransactionAction → Prop
  | _, [] => True
  | updates, a :: as =>
    ActionSafe libs state version updates a ∧ ∀ reads, actionReads a = .ok reads →
      TxSafe libs state version (insertAll updates
        (stamp version (if reads.all (fresh state updates) then actionWrites a else []))) as

/-- What is needed of the payload of an envelope, by the type in its channel header. -/
def PayloadSafe (libs : Libs) (state : Kvs) (version : Version) (updates : Kvs) (certs : RootCerts)
    (chdr : ChannelHeader) (payload : Payload) : Prop :=
  if chdr.type = 1 then
    version.blockNum = 0 → ∃ data, payload.data = some data ∧
      ∀ certs', parseConfig libs data.configEnvelope certs ≠ .error (.fault, certs')
  else if chdr.type = 3 then
    ∃ data, payload.data = some data ∧
      ∀ t, data.transaction.decoded = some t → TxSafe libs state version updates t.actions
  else True

/-- The envelopes in order, each over the updates and certificates before it. An envelope that
does not decode ends the block. -/
def EnvelopesSafe (libs : Libs) (state : Kvs) (number : ℕ) (txFilter : Bytes) :
    Kvs → RootCerts → List (Encoded Envelope × ℕ) → Prop
  | _, _, [] => True
  | updates, certs, e :: es =>
    let o := planEnvelope state number txFilter updates e
    let rest := EnvelopesSafe libs state number txFilter (insertAll updates (stamp ⟨number, e.2⟩ o.writes))
      ((envelopeOffers libs number txFilter e).1.foldl addRootCert certs) es
    if txFilter[e.2]? = some 1 then rest
    else
      match unwrapEnvelope number e.1 with
      | .error x => x = .decoding
      | .ok (chdr, payload) => PayloadSafe libs state ⟨number, e.2⟩ updates certs chdr payload ∧ rest

/-- The metadata of a block: the two entries are there, the block signatures are complete, there
is an envelope, and the transaction filter has at most one byte for each of them. -/
def MetadataSafe (block : Block) : Prop :=
  ∃ signatures, block.metadata[0]? = some signatures ∧
    ∀ metadata, signatures.metadata.decoded = some metadata →
      metadata.signatures.forM blockSignature ≠ .error .fault ∧
        (metadata.signatures.forM blockSignature = .ok () →
          ∃ txFilter, block.metadata[2]? = some txFilter ∧ 0 < block.data.length ∧
            txFilter.bytes.length ≤ block.data.length)

/-- A block that is out of sequence is not looked at. -/
def BlockSafe (libs : Libs) (L : Ledger) (block : Block) : Prop :=
  UInt32.ofNat block.number = L.sequenceNumber + 1 → MetadataSafe block ∧
    ∀ txFilter, blockMetadata block = .ok txFilter →
      EnvelopesSafe libs L.state block.number txFilter ∅ L.rootCerts block.data.zipIdx

section
variable {libs : Libs} {state : Kvs} {version : Version}

theorem lsccWrite_isOk_iff (ns : Bytes) (acc : WritePhase) (w : KVWrite) :
    (∃ acc', lsccWrite ns version acc w = .ok acc') ↔ w.key.isSome ∧ w.value.isSome := by
  rw [lsccWrite]
  cases w.key with
  | none =>
    refine iff_of_false ?_ (fun h => Bool.false_ne_true h.1)
    rintro ⟨_, h⟩
    cases h
  | some key =>
    cases w.value with
    | none =>
      refine iff_of_false ?_ (fun h => Bool.false_ne_true h.2)
      rintro ⟨_, h⟩
      cases h
    | some value => exact ⟨fun _ => ⟨rfl, rfl⟩, fun _ => ⟨_, rfl⟩⟩

theorem eccWrite_isOk_iff (ns : Bytes) (writes : List KVWrite) (acc : WritePhase) (w : KVWrite) :
    (∃ acc', eccWrite ns version writes acc w = .ok acc') ↔ (eccFirstWrite ns writes w).isSome := by
  constructor
  · rintro ⟨acc', h⟩
    obtain ⟨p, hp, -⟩ := eccWrite_ok h
    rw [hp]
    rfl
  · intro h
    obtain ⟨p, hp⟩ := Option.isSome_iff_exists.mp h
    obtain ⟨key, hkey, hp⟩ := Option.bind_eq_some_iff.mp hp
    obtain ⟨name, hname, hp⟩ := Option.bind_eq_some_iff.mp hp
    obtain ⟨first, hfirst, hp⟩ := Option.bind_eq_some_iff.mp hp
    obtain ⟨value, hvalue, -⟩ := Option.bind_eq_some_iff.mp hp
    simp only [eccWrite, hkey, hname, hfirst, hvalue, leaving, deref, Except.mapError, bind, Except.bind]
    exact ⟨_, rfl⟩

theorem erccWrites_isOk_iff (ns : Bytes) (acc : WritePhase) (writes : List KVWrite) :
    (∃ acc', erccWrites state ns version acc writes = .ok acc') ↔
      ∃ w, writes.head? = some w ∧ w.key.isSome ∧ w.value.isSome ∧
        ∃ mrenclave, acc.updates[mrenclaveKey]?.or state[mrenclaveKey]? = some mrenclave ∧
          (base64Decode mrenclave.1).length ≤ 32 := by
  constructor
  · rintro ⟨acc', h⟩
    obtain ⟨w, hw, h⟩ := bind_eq_ok h
    obtain ⟨key, hkey, h⟩ := bind_eq_ok h
    obtain ⟨mrenclave, hm, h⟩ := bind_eq_ok h
    split_ifs at h with hlen
    obtain ⟨value, hvalue, -⟩ := bind_eq_ok h
    refine ⟨w, deref_eq_ok (leaving_eq_ok hw), ?_, ?_, mrenclave, deref_eq_ok (leaving_eq_ok hm), hlen⟩
    · rw [deref_eq_ok (leaving_eq_ok hkey)]
      rfl
    · rw [deref_eq_ok (leaving_eq_ok hvalue)]
      rfl
  · rintro ⟨w, hw, hkey, hvalue, mrenclave, hm, hlen⟩
    obtain ⟨key, hkey⟩ := Option.isSome_iff_exists.mp hkey
    obtain ⟨value, hvalue⟩ := Option.isSome_iff_exists.mp hvalue
    simp only [erccWrites, hw, hkey, hvalue, hm, hlen, leaving, deref, Except.mapError, bind, Except.bind, if_true]
    exact ⟨_, rfl⟩

/-- A namespace that the read loop has been through is written to its end when it is safe. -/
theorem nsWrites_isOk_iff {n : NsReadWriteSet} {l : List (Bytes × Version)} (hn : nsReadList n = .ok l)
    (acc : WritePhase) :
    (∃ acc', nsWrites state version acc n = .ok acc') ↔ NsSafe state acc.updates n := by
  obtain ⟨e, kv, b, ranges, points, hrw, hkv, hb, -⟩ := nsReadList_eq_ok hn
  have hd : decodedNs n = some (cstr b, kv) := by simp [decodedNs, hb, hrw, hkv]
  have hsafe : NsSafe state acc.updates n ↔ WritesSafe state acc.updates (cstr b) kv.writes := by
    constructor
    · intro h
      exact h _ hd
    · intro h d hd'
      rw [hd] at hd'
      cases hd'
      exact h
  rw [hsafe, WritesSafe]
  simp only [nsWrites, hrw, hkv, hb, leaving, deref, decodePb, Except.mapError, bind, Except.bind]
  split_ifs
  · exact foldlM_isOk_iff (fun acc w => lsccWrite_isOk_iff (cstr b) acc w) acc kv.writes
  · exact erccWrites_isOk_iff (cstr b) acc kv.writes
  · exact foldlM_isOk_iff (fun acc w => eccWrite_isOk_iff (cstr b) kv.writes acc w) acc kv.writes
  · exact ⟨fun _ => trivial, fun _ => ⟨_, rfl⟩⟩

/-- The write loop over the namespaces. -/
theorem foldlM_nsWrites_isOk_iff {ns : List NsReadWriteSet} (hns : ∀ n ∈ ns, ∃ l, nsReadList n = .ok l)
    (acc : WritePhase) :
    (∃ acc', ns.foldlM (nsWrites state version) acc = .ok acc') ↔ RwsetSafe state version acc.updates ns := by
  induction ns generalizing acc with
  | nil => exact ⟨fun _ => trivial, fun _ => ⟨acc, rfl⟩⟩
  | cons n ns ih =>
    obtain ⟨l, hl⟩ := hns n List.mem_cons_self
    have hrest := ih (fun m hm => hns m (List.mem_cons_of_mem n hm))
    rw [List.foldlM_cons, RwsetSafe, ← nsWrites_isOk_iff hl]
    constructor
    · rintro ⟨acc'', h⟩
      obtain ⟨acc', hn, h⟩ := bind_eq_ok h
      refine ⟨⟨acc', hn⟩, ?_⟩
      rw [← (nsWrites_offers hn).updates_eq]
      exact (hrest acc').mp ⟨acc'', h⟩
    · rintro ⟨⟨acc', hn⟩, hsafe⟩
      rw [← (nsWrites_offers hn).updates_eq] at hsafe
      obtain ⟨acc'', h⟩ := (hrest acc').mpr hsafe
      exact ⟨acc'', by rw [hn]; exact h⟩

theorem exists_readList_of_mem {rws : TxReadWriteSet} {l : List (Bytes × Version)} (h : readList rws = .ok l)
    {n : NsReadWriteSet} (hn : n ∈ rws.nsRwset) : ∃ l', nsReadList n = .ok l' := by
  obtain ⟨ls, hls, -⟩ := bind_eq_ok h
  obtain ⟨l', -, hl'⟩ := mapM_eq_ok_mem hls hn
  exact ⟨l', hl'⟩

variable (libs state version) in
/-- The part of `parseAction` behind the reads. -/
def writeAction (s : TxState) (function : Bytes) (ccAction : ChaincodeAction) (rws : TxReadWriteSet) :
    Leaving TxState TxState := do
  let w ← (writeSet state version s.updates rws).mapError (fun e => (e.1, ⟨e.2, s.validTx⟩))
  leaving ⟨w.updates, s.validTx⟩ (validateEccTx libs function ccAction)
  return ⟨w.updates, s.validTx && w.validTx⟩

theorem writeAction_faults_iff {rws : TxReadWriteSet} {l : List (Bytes × Version)} (hl : readList rws = .ok l)
    (s : TxState) (function : Bytes) (ccAction : ChaincodeAction) :
    (∃ s', writeAction libs state version s function ccAction rws = .error (.fault, s')) ↔
      ¬(RwsetSafe state version s.updates rws.nsRwset ∧ validateEccTx libs function ccAction = .ok ()) := by
  rw [writeAction]
  have hns : ∀ n ∈ rws.nsRwset, ∃ l', nsReadList n = .ok l' := fun n hn => exists_readList_of_mem hl hn
  have hiff := @foldlM_nsWrites_isOk_iff state version _ hns ⟨s.updates, true, ∅⟩
  have hiff' : (∃ w, writeSet state version s.updates rws = .ok w) ↔
      RwsetSafe state version s.updates rws.nsRwset := hiff
  rw [← hiff']
  cases hw : writeSet state version s.updates rws with
  | error e =>
    have hfault : e.1 = .fault := writeSet_faults hl e hw
    constructor
    · rintro - ⟨⟨w, h⟩, -⟩
      cases h
    · intro _
      refine ⟨⟨e.2, s.validTx⟩, ?_⟩
      rw [← hfault]
      rfl
  | ok w =>
    cases hv : validateEccTx libs function ccAction with
    | error x =>
      have hfault : x = .fault := validateEccTx_faults libs function ccAction x hv
      constructor
      · rintro - ⟨-, h⟩
        cases h
      · intro _
        refine ⟨⟨w.updates, s.validTx⟩, ?_⟩
        rw [← hfault]
        rfl
    | ok u =>
      constructor
      · rintro ⟨s', h⟩
        cases h
      · intro h
        exact absurd ⟨⟨w, rfl⟩, rfl⟩ h

theorem responseSafe_iff {a : TransactionAction} {function : Bytes} {ccAction : ChaincodeAction}
    (hu : unwrapAction a = .ok (function, ccAction)) (hres : ccAction.results.isSome) :
    ResponseSafe libs a ↔ validateEccTx libs function ccAction = .ok () := by
  constructor
  · intro h
    exact h function ccAction hu hres
  · intro h function' ccAction' hu' _
    rw [hu] at hu'
    cases hu'
    exact h

theorem parseAction_faults_iff (s : TxState) (a : TransactionAction) :
    (∃ s', parseAction libs state version s a = .error (.fault, s')) ↔
      ¬ActionSafe libs state version s.updates a := by
  rw [ActionSafe]
  cases hu : unwrapAction a with
  | error x =>
    have hreads : actionReads a = .error x := by simp [actionReads, actionRwset, hu, bind, Except.bind]
    rw [hreads, parseAction, hu]
    cases x with
    | fault =>
      refine iff_of_true ⟨s, rfl⟩ ?_
      intro h
      cases h
    | decoding =>
      refine iff_of_false ?_ (not_not_intro rfl)
      rintro ⟨_, h⟩
      cases h
  | ok r =>
    obtain ⟨function, ccAction⟩ := r
    cases hres : ccAction.results with
    | none =>
      -- an action without results is left as it is
      have hrw : actionRwset a = .ok none := by
        simp [actionRwset, hu, hres, bind, Except.bind, pure, Except.pure]
      have hparse : parseAction libs state version s a = .ok s := by
        simp [parseAction, hu, hres, leaving, Except.mapError, bind, Except.bind, pure, Except.pure]
      have hreads : actionReads a = .ok [] := by simp [actionReads, hrw, bind, Except.bind, pure, Except.pure]
      have hsafe : ResponseSafe libs a := by
        intro function' ccAction' hu' hsome
        rw [hu] at hu'
        cases hu'
        rw [hres] at hsome
        cases hsome
      rw [hparse, hreads]
      refine iff_of_false ?_ (not_not_intro fun _ => ⟨?_, hsafe⟩)
      · rintro ⟨_, h⟩
        cases h
      · rw [actionNs, hrw]
        trivial
    | some results =>
      cases hd : results.decoded with
      | none =>
        have hreads : actionReads a = .error .decoding := by
          simp [actionReads, actionRwset, hu, hres, hd, decodePb, bind, Except.bind]
        have hparse : parseAction libs state version s a = .error (.decoding, s) := by
          simp [parseAction, hu, hres, hd, decodePb, leaving, Except.mapError, bind, Except.bind]
        rw [hreads, hparse]
        refine iff_of_false ?_ (not_not_intro rfl)
        rintro ⟨_, h⟩
        cases h
      | some rws =>
        have hrw : actionRwset a = .ok (some rws) := by
          simp [actionRwset, hu, hres, hd, decodePb, bind, Except.bind, pure, Except.pure]
        have hreads : actionReads a = readList rws := by simp [actionReads, hrw, bind, Except.bind]
        have hns : actionNs a = rws.nsRwset := by simp [actionNs, hrw]
        cases hr : readSet state s.updates rws with
        | error x =>
          have hparse : parseAction libs state version s a = .error (x, s) := by
            simp [parseAction, hu, hres, hd, hr, decodePb, leaving, Except.mapError, bind, Except.bind]
          rw [hreads, readSet_error hr, hparse]
          cases x with
          | fault =>
            refine iff_of_true ⟨s, rfl⟩ ?_
            intro h
            cases h
          | decoding =>
            refine iff_of_false ?_ (not_not_intro rfl)
            rintro ⟨_, h⟩
            cases h
        | ok reads =>
          obtain ⟨l, hl, hvalid⟩ := readSet_ok hr
          have hparse : parseAction libs state version s a =
              if reads.validTx then writeAction libs state version s function ccAction rws
              else .ok ⟨s.updates, false⟩ := by
            simp [parseAction, writeAction, hu, hres, hd, hr, decodePb, leaving, Except.mapError, bind,
              Except.bind, pure, Except.pure]
          rw [hreads, hl, hparse, hvalid, hns, responseSafe_iff hu (by rw [hres]; rfl)]
          by_cases hf : l.all (fresh state s.updates) = true
          · rw [if_pos hf, writeAction_faults_iff hl]
            simp only [hf, forall_const]
          · rw [if_neg hf]
            refine iff_of_false ?_ (not_not_intro fun ht => absurd ht hf)
            rintro ⟨_, h⟩
            cases h

/-- The loop over the actions. -/
theorem foldlM_parseAction_faults_iff (s : TxState) (as : List TransactionAction) :
    (∃ s', as.foldlM (parseAction libs state version) s = .error (.fault, s')) ↔
      ¬TxSafe libs state version s.updates as := by
  induction as generalizing s with
  | nil =>
    refine iff_of_false ?_ (not_not_intro trivial)
    rintro ⟨_, h⟩
    cases h
  | cons a as ih =>
    rw [List.foldlM_cons, TxSafe]
    constructor
    · rintro ⟨s', h⟩ ⟨hsafe, hrest⟩
      rcases bind_eq_error h with h | ⟨t, ht, h⟩
      · exact (parseAction_faults_iff s a).mp ⟨s', h⟩ hsafe
      · obtain ⟨reads, hreads, hupd, -⟩ := parseAction_ok ht
        apply (ih t).mp ⟨s', h⟩
        rw [hupd]
        exact hrest reads hreads
    · intro hunsafe
      by_cases hsafe : ActionSafe libs state version s.updates a
      · -- the action is left behind, and the fault is in the rest
        obtain ⟨reads, hreads, hrest⟩ : ∃ reads, actionReads a = .ok reads ∧
            ¬TxSafe libs state version (insertAll s.updates (stamp version
              (if reads.all (fresh state s.updates) then actionWrites a else []))) as := by
          by_contra hno
          push Not at hno
          exact hunsafe ⟨hsafe, hno⟩
        cases ht : parseAction libs state version s a with
        | error e =>
          obtain ⟨x, t⟩ := e
          cases x with
          | fault => exact absurd hsafe ((parseAction_faults_iff s a).mp ⟨t, ht⟩)
          | decoding =>
            rw [(parseAction_decoding ht).2] at hreads
            cases hreads
        | ok t =>
          obtain ⟨reads', hreads', hupd, -⟩ := parseAction_ok ht
          rw [hreads] at hreads'
          cases hreads'
          rw [← hupd] at hrest
          exact (ih t).mpr hrest
      · obtain ⟨s', h⟩ := (parseAction_faults_iff s a).mpr hsafe
        exact ⟨s', by rw [h]; rfl⟩

theorem parseEndorserTransaction_eq_none_iff (txData : Encoded Transaction) (updates : Kvs) :
    parseEndorserTransaction libs state txData updates version = none ↔
      ¬∀ t, txData.decoded = some t → TxSafe libs state version updates t.actions := by
  rw [parseEndorserTransaction]
  cases txData.decoded with
  | none =>
    refine iff_of_false (Option.some_ne_none _) (not_not_intro ?_)
    intro _ ht
    cases ht
  | some t =>
    have hiff := @foldlM_parseAction_faults_iff libs state version
      ⟨updates, true⟩ t.actions
    have hall : (∀ t', some t = some t' → TxSafe libs state version updates t'.actions) ↔
        TxSafe libs state version updates t.actions :=
      ⟨fun h => h t rfl, fun h t' ht => by cases ht; exact h⟩
    rw [hall, ← hiff]
    dsimp only
    cases t.actions.foldlM (parseAction libs state version) ⟨updates, true⟩ with
    | ok s =>
      refine iff_of_false (Option.some_ne_none _) ?_
      rintro ⟨_, h⟩
      cases h
    | error e =>
      obtain ⟨x, s⟩ := e
      cases x with
      | fault => exact ⟨fun _ => ⟨s, rfl⟩, fun _ => rfl⟩
      | decoding =>
        refine iff_of_false (Option.some_ne_none _) ?_
        rintro ⟨_, h⟩
        cases h

theorem applyPayload_faults_iff (s : BlockPhase) (chdr : ChannelHeader) (payload : Payload) :
    (∃ s', applyPayload libs state version s chdr payload = .error (.fault, s')) ↔
      ¬PayloadSafe libs state version s.updates s.rootCerts chdr payload := by
  rw [applyPayload, PayloadSafe]
  by_cases hconfig : chdr.type = 1
  · rw [if_pos hconfig, if_pos hconfig]
    by_cases hzero : version.blockNum = 0
    · rw [if_pos hzero]
      simp only [hzero, forall_const]
      cases payload.data with
      | none =>
        refine iff_of_true ⟨s, rfl⟩ ?_
        rintro ⟨_, h, -⟩
        cases h
      | some data =>
        simp only [leaving_deref_some, Option.some.injEq, exists_eq_left']
        cases parseConfig libs data.configEnvelope s.rootCerts with
        | ok certs =>
          refine iff_of_false ?_ (not_not_intro ?_)
          · rintro ⟨_, h⟩
            cases h
          · intro _ h
            cases h
        | error x =>
          obtain ⟨x, certs⟩ := x
          cases x with
          | fault => exact ⟨fun _ h => h certs rfl, fun _ => ⟨_, rfl⟩⟩
          | decoding =>
            refine iff_of_false ?_ (not_not_intro ?_)
            · rintro ⟨_, h⟩
              cases h
            · intro _ h
              cases h
    · rw [if_neg hzero]
      refine iff_of_false ?_ (not_not_intro fun hz => absurd hz hzero)
      rintro ⟨_, h⟩
      cases h
  · rw [if_neg hconfig, if_neg hconfig]
    by_cases htype : chdr.type = 3
    · rw [if_pos htype, if_pos htype]
      cases payload.data with
      | none =>
        refine iff_of_true ⟨s, rfl⟩ ?_
        rintro ⟨_, h, -⟩
        cases h
      | some data =>
        simp only [leaving_deref_some, Option.some.injEq, exists_eq_left']
        rw [← parseEndorserTransaction_eq_none_iff]
        cases parseEndorserTransaction libs state data.transaction s.updates version with
        | none => exact ⟨fun _ => rfl, fun _ => ⟨s, rfl⟩⟩
        | some r =>
          refine iff_of_false ?_ (Option.some_ne_none r)
          rintro ⟨_, h⟩
          cases h
    · rw [if_neg htype, if_neg htype]
      refine iff_of_false ?_ (not_not_intro trivial)
      rintro ⟨_, h⟩
      cases h

/-- The `switch` drops the errors of the two parsers, so that only faults are left. -/
theorem applyPayload_exits (s : BlockPhase) (chdr : ChannelHeader) (payload : Payload) :
    ExitsWith (fun x => x.1 = .fault) (applyPayload libs state version s chdr payload) := by
  intro x h
  rw [applyPayload] at h
  split_ifs at h with hconfig hzero htype
  · rcases bind_eq_error h with h | ⟨data, -, h⟩
    · exact leaving_faults (deref_faults payload.data) s x h
    · split at h <;> cases h
      rfl
  · cases h
  · rcases bind_eq_error h with h | ⟨data, -, h⟩
    · exact leaving_faults (deref_faults payload.data) s x h
    · split at h <;> cases h
      rfl
  · cases h

/-- The loop over the envelopes. -/
theorem foldlM_processEnvelope_faults_iff (number : ℕ) (txFilter : Bytes) (s : BlockPhase)
    (es : List (Encoded Envelope × ℕ)) :
    (∃ s', es.foldlM (processEnvelope libs state number txFilter) s = .error (.fault, s')) ↔
      ¬EnvelopesSafe libs state number txFilter s.updates s.rootCerts es := by
  induction es generalizing s with
  | nil =>
    refine iff_of_false ?_ (not_not_intro trivial)
    rintro ⟨_, h⟩
    cases h
  | cons e es ih =>
    rw [List.foldlM_cons, EnvelopesSafe]
    -- what an envelope that is processed to its end leaves for the next one
    have hnext (t : BlockPhase) (ht : processEnvelope libs state number txFilter s e = .ok t) :
        (∃ s', es.foldlM (processEnvelope libs state number txFilter) t = .error (.fault, s')) ↔
          ¬EnvelopesSafe libs state number txFilter
            (insertAll s.updates (stamp ⟨number, e.2⟩ (planEnvelope state number txFilter s.updates e).writes))
            ((envelopeOffers libs number txFilter e).1.foldl addRootCert s.rootCerts) es := by
      have hoffers := @processEnvelope_takesUp libs state number txFilter s e
      rw [ht] at hoffers
      rw [ih t, processEnvelope_ok ht, hoffers.2]
    by_cases hskip : txFilter[e.2]? = some 1
    · have ht : processEnvelope libs state number txFilter s e = .ok s := by
        rw [processEnvelope, if_pos hskip]
        rfl
      simp only [if_pos hskip]
      rw [← hnext s ht, ht]
      rfl
    · simp only [if_neg hskip]
      cases hu : unwrapEnvelope number e.1 with
      | error x =>
        have ht : processEnvelope libs state number txFilter s e = .error (x, s) := by
          rw [processEnvelope, if_neg hskip, hu]
          rfl
        rw [ht]
        cases x with
        | fault =>
          refine iff_of_true ⟨s, rfl⟩ ?_
          intro h
          cases h
        | decoding =>
          refine iff_of_false ?_ (not_not_intro rfl)
          rintro ⟨_, h⟩
          cases h
      | ok r =>
        obtain ⟨chdr, payload⟩ := r
        have ht : processEnvelope libs state number txFilter s e =
            applyPayload libs state ⟨number, e.2⟩ s chdr payload := by
          rw [processEnvelope, if_neg hskip, hu]
          rfl
        have hpayload := @applyPayload_faults_iff libs state ⟨number, e.2⟩ s chdr payload
        rw [← ht] at hpayload
        cases hp : processEnvelope libs state number txFilter s e with
        | ok t =>
          have hsafe : PayloadSafe libs state ⟨number, e.2⟩ s.updates s.rootCerts chdr payload := by
            by_contra hunsafe
            obtain ⟨s', hs'⟩ := hpayload.mpr hunsafe
            rw [hp] at hs'
            cases hs'
          simp only [hsafe, true_and]
          exact hnext t hp
        | error x =>
          obtain ⟨x, t⟩ := x
          have hfault : x = .fault := applyPayload_exits s chdr payload _ (ht.symm.trans hp)
          rw [hfault] at hp ⊢
          exact ⟨fun _ h => hpayload.mp ⟨t, hp⟩ h.1, fun _ => ⟨t, rfl⟩⟩

theorem blockMetadata_faults_iff (block : Block) :
    blockMetadata block = .error .fault ↔ ¬MetadataSafe block := by
  rw [blockMetadata, MetadataSafe]
  cases block.metadata[0]? with
  | none =>
    refine iff_of_true rfl ?_
    rintro ⟨_, h, -⟩
    cases h
  | some signatures =>
    simp only [Option.some.injEq, exists_eq_left']
    cases hd : signatures.metadata.decoded with
    | none =>
      simp only [deref, decodePb, hd, bind, Except.bind]
      refine iff_of_false ?_ (not_not_intro ?_)
      · intro h
        cases h
      · intro _ hm
        cases hm
    | some metadata =>
      simp only [deref, decodePb, hd, bind, Except.bind, Option.some.injEq, forall_eq']
      cases metadata.signatures.forM blockSignature with
      | error x =>
        cases x with
        | fault => simp
        | decoding => simp
      | ok u =>
        cases block.metadata[2]? with
        | none => simp
        | some txFilter =>
          by_cases hlen : 0 < block.data.length ∧ txFilter.bytes.length ≤ block.data.length
          · simp [hlen, pure, Except.pure]
          · simp [hlen]

end

/-- `parse_block` gets through, to a commit or a rejection, exactly when the block is safe. -/
theorem parse_block_in_bounds_iff (libs : Libs) (L : Ledger) (block : Block) :
    (∃ L' code, parseBlock libs L (encode block) = some (L', code)) ↔ BlockSafe libs L block := by
  have hdecoded : (encode block).decoded = some block := rfl
  rw [parseBlock, hdecoded, BlockSafe]
  dsimp only
  by_cases hseq : UInt32.ofNat block.number = L.sequenceNumber + 1
  swap
  · rw [if_neg hseq]
    exact ⟨fun _ h => absurd h hseq, fun _ => ⟨_, _, rfl⟩⟩
  rw [if_pos hseq]
  simp only [hseq, forall_const]
  have hmeta := blockMetadata_faults_iff block
  cases hm : blockMetadata block with
  | error x =>
    rw [hm] at hmeta
    cases x with
    | fault =>
      refine iff_of_false ?_ (fun h => hmeta.mp rfl h.1)
      rintro ⟨_, _, h⟩
      cases h
    | decoding =>
      have hsafe : MetadataSafe block := by
        by_contra hunsafe
        cases hmeta.mpr hunsafe
      refine iff_of_true ⟨_, _, rfl⟩ ⟨hsafe, ?_⟩
      intro _ h
      cases h
  | ok txFilter =>
    have hsafe : MetadataSafe block := by
      by_contra hunsafe
      rw [hmeta.mpr hunsafe] at hm
      cases hm
    have hloop := @foldlM_processEnvelope_faults_iff libs L.state block.number txFilter
      ⟨∅, L.rootCerts⟩ block.data.zipIdx
    have hall : (∀ f, Except.ok txFilter = (.ok f : Parse Bytes) →
        EnvelopesSafe libs L.state block.number f ∅ L.rootCerts block.data.zipIdx) ↔
        EnvelopesSafe libs L.state block.number txFilter ∅ L.rootCerts block.data.zipIdx :=
      ⟨fun h => h txFilter rfl, fun h f hf => by cases hf; exact h⟩
    simp only [hsafe, true_and, hall]
    cases hf : block.data.zipIdx.foldlM (processEnvelope libs L.state block.number txFilter)
        ⟨∅, L.rootCerts⟩ with
    | ok s =>
      rw [hf] at hloop
      simp only [commitStateUpdates, if_true, Option.map_some]
      refine ⟨fun _ => ?_, fun _ => ⟨_, _, rfl⟩⟩
      by_contra hunsafe
      obtain ⟨s', hs'⟩ := hloop.mpr hunsafe
      cases hs'
    | error x =>
      obtain ⟨x, s⟩ := x
      rw [hf] at hloop
      cases x with
      | fault =>
        refine iff_of_false ?_ (hloop.mp ⟨s, rfl⟩)
        rintro ⟨_, _, h⟩
        cases h
      | decoding =>
        refine ⟨fun _ => ?_, fun _ => ⟨_, _, rfl⟩⟩
        by_contra hunsafe
        obtain ⟨s', hs'⟩ := hloop.mpr hunsafe
        cases hs'

/-- An MRENCLAVE of 33 bytes, in base64. -/
def wideMrenclave : Bytes := List.replicate 44 0x41

def genesisOnly : List (Encoded Block) := [configBlock 0]

/-- A block without envelopes; a filter that is longer than the block; a registry transaction
without a write; a deletion, which is a write without a value; a registration before there is an
MRENCLAVE, and one after an MRENCLAVE that does not fit. -/
theorem accesses_out_of_bounds :
    run parsonLibs [wrapBlock 0 [] []] = none ∧
      run parsonLibs [wrapBlock 0 [0, 0] [configTx]] = none ∧
      (run parsonLibs genesisOnly).isSome ∧
      run parsonLibs (genesisOnly ++ [wrapBlock 1 [] [writeTx "ercc" []]]) = none ∧
      run parsonLibs (genesisOnly ++ [wrapBlock 1 [] [writeTx "lscc" [⟨some (str "cc"), none⟩]]]) = none ∧
      run parsonLibs (genesisOnly ++ [wrapBlock 1 [] [writeTx "ercc" [⟨some (str "pk"), some (str "v")⟩]]]) = none ∧
      (run parsonLibs (genesisOnly ++
        [wrapBlock 1 [] [writeTx "ecc" [⟨some (str "MRENCLAVE"), some wideMrenclave⟩]]])).isSome ∧
      run parsonLibs (genesisOnly ++ [wrapBlock 1 [] [writeTx "ecc" [⟨some (str "MRENCLAVE"), some wideMrenclave⟩]],
        wrapBlock 2 [] [writeTx "ercc" [⟨some (str "pk"), some (str "v")⟩]]]) = none := by
  refine ⟨rfl, rfl, rfl, rfl, rfl, rfl, rfl, ?_⟩
  have h : (run parsonLibs (genesisOnly ++
      [wrapBlock 1 [] [writeTx "ecc" [⟨some (str "MRENCLAVE"), some wideMrenclave⟩]],
      wrapBlock 2 [] [writeTx "ercc" [⟨some (str "pk"), some (str "v")⟩]]])).isNone = true := by decide +kernel
  exact Option.isNone_iff_eq_none.mp h

end SecureChaincode
