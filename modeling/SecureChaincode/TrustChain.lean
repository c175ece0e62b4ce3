import SecureChaincode.ErccVscc

/-! The validation plugins at work on a channel: `ercc` registers the keys of enclaves, and `ecc`
takes what an enclave with a registered key has signed. -/
namespace SecureChaincode

/-- The types of the errors that a validator returns. -/
inductive TxError
  | vsccExecutionFailure (text : String)
  | vsccEndorsementPolicy (text : String)
  | other (text : String)

/-- How a plugin ends when it does not accept. -/
inductive PluginExit
  | error (text : String)
  | executionFailure (reason : String)
  | vsccEndorsementPolicy (text : String)
  | panic

/-- The first datum should be the policy. -/
inductive ContextDatum
  | serializedPolicy (bytes : Bytes)
  | other

/-- A block as it is passed to a plugin: the number in the header, and the envelopes. -/
structure PluginBlock where
  header : Option ℕ
  data : Option (List (Wire Peer.Envelope))

def convertErrorTypeOrPanic : Option TxError → Except PluginExit Unit
  | none => .ok ()
  | some (.vsccExecutionFailure text) => .error (.executionFailure text)
  | some (.vsccEndorsementPolicy text) => .error (.vsccEndorsementPolicy text)
  | some (.other _) => .error .panic

/-- The default validator, which is Fabric's. -/
abbrev DefaultValidator :=
  PluginBlock → (ns : Bytes) → (txPosition actionPosition : ℤ) → List ContextDatum → Option TxError

/-- An envelope of the block; Go panics for a negative index. -/
def PluginBlock.envelopeAt (data : List (Wire Peer.Envelope)) (txPosition : ℤ) : Option (Wire Peer.Envelope) :=
  if txPosition < 0 then none else data[txPosition.toNat]?

/-- `Validate` of both plugins, which differ in the validator that comes last. Its errors are errors of
the endorsement policy. -/
def pluginValidate (defaultTxValidator : DefaultValidator) (txValidator : Wire Peer.Envelope → Go Unit)
    (block : Option PluginBlock) (ns : Bytes) (txPosition actionPosition : ℤ) (contextData : List ContextDatum) :
    Except PluginExit Unit :=
  match contextData.head? with
  | some (.serializedPolicy _) =>
    match block with
    | some ⟨header, some data⟩ =>
      if (data.length : ℤ) ≤ txPosition then
        .error (.error ("block has only " ++ toString data.length ++ " transactions, but requested tx at position " ++
          toString txPosition))
      else if header = none then .error (.error "no block header")
      else
        match defaultTxValidator ⟨header, some data⟩ ns txPosition actionPosition contextData with
        | some err => convertErrorTypeOrPanic (some err)
        | none =>
          match PluginBlock.envelopeAt data txPosition with
          | none => .error .panic
          | some envelope =>
            match txValidator envelope with
            | .ok _ => convertErrorTypeOrPanic none
            | .error (.error err) => convertErrorTypeOrPanic (some (.vsccEndorsementPolicy err))
            | .error .panic => .error .panic
    | _ => .error (.error "empty block")
  | _ => .error .panic

/-- A plugin accepts only what its own validator accepts. -/
theorem pluginValidate_ok {defaultTxValidator : DefaultValidator} {txValidator : Wire Peer.Envelope → Go Unit}
    {block : Option PluginBlock} {ns : Bytes} {txPosition actionPosition : ℤ} {contextData : List ContextDatum}
    (h : pluginValidate defaultTxValidator txValidator block ns txPosition actionPosition contextData = .ok ()) :
    ∃ header data envelope, block = some ⟨header, some data⟩ ∧ PluginBlock.envelopeAt data txPosition = some envelope ∧
      defaultTxValidator ⟨header, some data⟩ ns txPosition actionPosition contextData = none ∧
      txValidator envelope = .ok () := by
  unfold pluginValidate at h
  split at h
  · split at h
    · rename_i header data
      split_ifs at h
      split at h
      · rename_i err _
        cases err <;> cases h
      · rename_i hdefault
        split at h
        · cases h
        · rename_i envelope henvelope
          split at h
          · rename_i u htx
            exact ⟨header, data, envelope, rfl, henvelope, hdefault, htx⟩
          · cases h
          · cases h
    · cases h
  · cases h

/-! The state of the channel. -/

/-- The values by namespace and key. -/
abbrev ChannelData := Bytes → Bytes → Option Bytes

/-- The state as the plugins fetch it. -/
def ChannelData.view (d : ChannelData) : ChannelState := ⟨fun ns keys => .ok (keys.map (d ns))⟩

theorem ChannelData.getState_view (d : ChannelData) (ns key : Bytes) : d.view.getState ns key = .ok (d ns key) := rfl

def ChannelData.put (d : ChannelData) (ns key value : Bytes) : ChannelData :=
  fun n k => if n = ns ∧ k = key then some value else d n k

/-- The registry plugin finds what the channel has for `MRENCLAVE`. -/
theorem storedMrenclave_view {d : ChannelData} {stored : Bytes} (h : storedMrenclave (.ok d.view) = .ok stored) :
    d (str "ecc") (str "MRENCLAVE") = some stored := by
  have hget := d.getState_view (str "ecc") (str "MRENCLAVE")
  cases hd : d (str "ecc") (str "MRENCLAVE") with
  | none =>
    rw [hd] at hget
    simp only [storedMrenclave, Except.mapError, bind, Except.bind, hget] at h
    cases h
  | some value =>
    rw [hd] at hget
    simp only [storedMrenclave, Except.mapError, bind, Except.bind, hget] at h
    cases h
    rfl

/-- The read/write sets of an action. -/
def actionSets (act : Wire Peer.ChaincodeActionPayload) : List Peer.NsRwSet :=
  match getCcAction act with
  | .error _ => []
  | .ok (_, ccAction) =>
    match ccAction.results.unmarshal with
    | .error _ => []
    | .ok txRWSet => txRWSet

def envelopeSets (envelope : Wire Peer.Envelope) : List Peer.NsRwSet :=
  match getTransaction envelope with
  | .error _ => []
  | .ok tx => tx.actions.flatMap actionSets

/-- The pairs of an envelope, each with its namespace. -/
def envelopeWrites (envelope : Wire Peer.Envelope) : List (Bytes × Peer.KVWrite) :=
  (envelopeSets envelope).flatMap (fun s => s.kvRwSet.writes.map (fun w => (s.nameSpace, w)))

/-- The state after the writes of an envelope. -/
def applyEnvelope (d : ChannelData) (envelope : Wire Peer.Envelope) : ChannelData :=
  (envelopeWrites envelope).foldl (fun d w => d.put w.1 w.2.key w.2.value) d

theorem foldl_put_some {writes : List (Bytes × Peer.KVWrite)} {d : ChannelData} {ns key value : Bytes}
    (h : writes.foldl (fun d w => d.put w.1 w.2.key w.2.value) d ns key = some value) :
    d ns key = some value ∨ (ns, ⟨key, value⟩) ∈ writes := by
  induction writes generalizing d with
  | nil => exact Or.inl h
  | cons w writes ih =>
    rcases ih h with hput | hmem
    · dsimp only [ChannelData.put] at hput
      split_ifs at hput with hw
      · obtain ⟨rfl, rfl⟩ := hw
        cases hput
        exact Or.inr List.mem_cons_self
      · exact Or.inl hput
    · exact Or.inr (List.mem_cons_of_mem w hmem)

/-- A value of a later state was there before, or one of the envelopes has written it. -/
theorem foldl_applyEnvelope_some {es : List (Wire Peer.Envelope)} {d : ChannelData} {ns key value : Bytes}
    (h : es.foldl applyEnvelope d ns key = some value) :
    d ns key = some value ∨ ∃ e ∈ es, (ns, ⟨key, value⟩) ∈ envelopeWrites e := by
  induction es generalizing d with
  | nil => exact Or.inl h
  | cons e es ih =>
    rcases ih h with happly | ⟨e', he', hmem⟩
    · rcases foldl_put_some happly with hd | hmem
      · exact Or.inl hd
      · exact Or.inr ⟨e, List.mem_cons_self, hmem⟩
    · exact Or.inr ⟨e', List.mem_cons_of_mem e he', hmem⟩

/-! Runs of the channel. -/

section
variable {ρ γ π : Type} (L : AttestationLibs ρ γ π) (V : VSCCECC) (defaultTxValidator : DefaultValidator)

/-- `ecc-vscc` on a state of the channel. -/
def VSCCECC.at (d : ChannelData) : VSCCECC := { V with fetchState := .ok d.view }

/-- The envelope was given to a plugin at some position of a block, and the plugin has accepted it. -/
def Passes (txValidator : Wire Peer.Envelope → Go Unit) (ns : Bytes) (envelope : Wire Peer.Envelope) : Prop :=
  ∃ header data txPosition actionPosition contextData, PluginBlock.envelopeAt data txPosition = some envelope ∧
    pluginValidate defaultTxValidator txValidator (some ⟨header, some data⟩) ns txPosition actionPosition contextData =
      .ok ()

/-- Fabric asks the plugin of each namespace that a transaction writes. The plugin of the registry
reads the clock. -/
structure Accepted (d : ChannelData) (envelope : Wire Peer.Envelope) : Prop where
  ecc : (∃ w, (str "ecc", w) ∈ envelopeWrites envelope) →
    Passes defaultTxValidator (validateEcc (V.at d)) (str "ecc") envelope
  ercc : (∃ w, (str "ercc", w) ∈ envelopeWrites envelope) →
    ∃ now, Passes defaultTxValidator (validateErcc L now (.ok d.view)) (str "ercc") envelope

/-- What happens on the channel: the chaincode is instantiated with the MRENCLAVE of its enclave, or
a transaction is committed that was validated on an earlier state. -/
inductive ChannelEvent
  | instantiated (mrenclave : Bytes)
  | committed (seen : ChannelData) (envelope : Wire Peer.Envelope)

/-- The transactions of a block are validated on the state before it; some of them may not be
committed. -/
inductive ChannelRun : ChannelData → List ChannelEvent → Prop
  | start {d : ChannelData} (hercc : ∀ key, d (str "ercc") key = none) (hmr : d (str "ecc") (str "MRENCLAVE") = none) :
    ChannelRun d []
  | instantiate {d : ChannelData} {events : List ChannelEvent} (h : ChannelRun d events) (mrenclave : Bytes) :
    ChannelRun (d.put (str "ecc") (str "MRENCLAVE") mrenclave) (events ++ [.instantiated mrenclave])
  | block {d : ChannelData} {events : List ChannelEvent} (h : ChannelRun d events) (es : List (Wire Peer.Envelope))
    (hes : ∀ e ∈ es, Accepted L V defaultTxValidator d e) :
    ChannelRun (es.foldl applyEnvelope d) (events ++ es.map (ChannelEvent.committed d))

/-- Where the MRENCLAVE in the state comes from: the instantiation, or a write of a transaction. -/
def Measured (events : List ChannelEvent) (mrenclave : Bytes) : Prop :=
  .instantiated mrenclave ∈ events ∨
    ∃ seen e, .committed seen e ∈ events ∧ (str "ecc", ⟨str "MRENCLAVE", mrenclave⟩) ∈ envelopeWrites e

/-- The envelope has an action with these arguments and this response, and with `kv` for the reads
and writes of `ecc`; the signature of the response holds for all of it under its public key. -/
structure SignedEntry (e : Wire Peer.Envelope) (kv : Peer.KVRWSet) (args : Bytes) (response : Response) : Prop where
  inEnvelope : ∃ tx act cis ccAction txRWSet payload, getTransaction e = .ok tx ∧ act ∈ tx.actions ∧
    unwrapEccAction act = .ok (cis, ccAction) ∧ ccAction.results.unmarshal = .ok txRWSet ∧ ⟨str "ecc", kv⟩ ∈ txRWSet ∧
    arguments cis = some args ∧ ccAction.response = some payload ∧ V.jsonUnmarshal payload = .ok response
  signed : ∃ reads, readset kv = .ok reads ∧
    V.verifier args response.responseData reads (writeset kv) response.signature response.publicKey = .ok true

variable {L} in
/-- Where the entries of the registry and the MRENCLAVE come from. -/
structure Provenance (ias : AttestationService L) (d : ChannelData) (events : List ChannelEvent) : Prop where
  registered : ∀ key value, d (str "ercc") key = some value → ∃ seen e report quote, .committed seen e ∈ events ∧
    (str "ercc", ⟨key, value⟩) ∈ envelopeWrites e ∧ Attests L ias (.ok seen.view) ⟨key, value⟩ report quote
  measured : ∀ mrenclave, d (str "ecc") (str "MRENCLAVE") = some mrenclave → Measured events mrenclave

variable {L V defaultTxValidator} {ias : AttestationService L} {d : ChannelData} {events : List ChannelEvent}
  {e : Wire Peer.Envelope}

theorem Passes.validated {txValidator : Wire Peer.Envelope → Go Unit} {ns : Bytes}
    (h : Passes defaultTxValidator txValidator ns e) : txValidator e = .ok () := by
  obtain ⟨header, data, txPosition, actionPosition, contextData, hat, hvalidate⟩ := h
  obtain ⟨header', data', envelope, hblock, hat', -, htx⟩ := pluginValidate_ok hvalidate
  cases hblock
  cases hat.symm.trans hat'
  exact htx

/-- The write of an envelope, with the action and the read/write set it is in. -/
theorem mem_envelopeWrites {ns : Bytes} {w : Peer.KVWrite} (h : (ns, w) ∈ envelopeWrites e) :
    ∃ tx act cap ccAction txRWSet s, getTransaction e = .ok tx ∧ act ∈ tx.actions ∧
      getCcAction act = .ok (cap, ccAction) ∧ ccAction.results.unmarshal = .ok txRWSet ∧ s ∈ txRWSet ∧
      s.nameSpace = ns ∧ w ∈ s.kvRwSet.writes := by
  rw [envelopeWrites, List.mem_flatMap] at h
  obtain ⟨s, hs, hw⟩ := h
  obtain ⟨w', hw', heq⟩ := List.mem_map.mp hw
  cases heq
  rw [envelopeSets] at hs
  cases htx : getTransaction e with
  | error err =>
    rw [htx] at hs
    exact absurd hs List.not_mem_nil
  | ok tx =>
    rw [htx] at hs
    obtain ⟨act, hact, hs⟩ := List.mem_flatMap.mp hs
    rw [actionSets] at hs
    cases hu : getCcAction act with
    | error err =>
      rw [hu] at hs
      exact absurd hs List.not_mem_nil
    | ok r =>
      obtain ⟨cap, ccAction⟩ := r
      rw [hu] at hs
      dsimp only at hs
      cases hrw : ccAction.results.unmarshal with
      | error err =>
        rw [hrw] at hs
        exact absurd hs List.not_mem_nil
      | ok txRWSet =>
        rw [hrw] at hs
        exact ⟨tx, act, cap, ccAction, txRWSet, s, rfl, hact, hu, hrw, hs, rfl, hw'⟩

/-- A write of the registry that is accepted attests a key. -/
theorem Accepted.attests (h : Accepted L V defaultTxValidator d e) (ias : AttestationService L) {w : Peer.KVWrite}
    (hw : (str "ercc", w) ∈ envelopeWrites e) : ∃ report quote, Attests L ias (.ok d.view) w report quote := by
  obtain ⟨now, hpasses⟩ := h.ercc ⟨w, hw⟩
  have hvalid := hpasses.validated
  obtain ⟨tx, act, cap, ccAction, txRWSet, s, htx, hact, hu, hrw, hs, hns, hws⟩ := mem_envelopeWrites hw
  rw [validateErcc, htx] at hvalid
  have hround := forM_eq_ok_mem hvalid hact
  rw [validateErccAction, hu] at hround
  have hcheck : checkAttestation L now (.ok d.view) ccAction = .ok () := hround
  obtain ⟨txRWSet', hrw', hloop⟩ := bind_eq_ok hcheck
  cases Except.ok.inj (hrw.symm.trans (mapError_eq_ok hrw'))
  obtain ⟨write, report, quote, hwrites, hatt⟩ := checkErccNamespace_ok ias hns (forM_eq_ok_mem hloop hs)
  rw [hwrites, List.mem_singleton] at hws
  exact ⟨report, quote, hws ▸ hatt⟩

/-- A write of the chaincode that is accepted is in an entry that was signed under a registered
key. -/
theorem Accepted.endorsed (h : Accepted L V defaultTxValidator d e) {w : Peer.KVWrite}
    (hw : (str "ecc", w) ∈ envelopeWrites e) :
    ∃ kv args response attestation, w ∈ kv.writes ∧ SignedEntry V e kv args response ∧
      d (str "ercc") (registryName V.sum256 response.publicKey) = some attestation := by
  have hvalid := (h.ecc ⟨w, hw⟩).validated
  obtain ⟨tx, act, cap, ccAction, txRWSet, s, htx, hact, hu, hrw, hs, hns, hws⟩ := mem_envelopeWrites hw
  rw [validateEcc, htx] at hvalid
  have hround := forM_eq_ok_mem hvalid hact
  rw [validateEccAction] at hround
  obtain ⟨⟨cis, ccAction'⟩, hunwrap, hcheck⟩ := bind_eq_ok hround
  -- both plugins have unwrapped the same action
  have hsame : ccAction' = ccAction := by
    obtain ⟨r, hr, hunwrap⟩ := bind_eq_ok hunwrap
    obtain ⟨cpp, -, hunwrap⟩ := bind_eq_ok hunwrap
    obtain ⟨cis', -, hunwrap⟩ := bind_eq_ok hunwrap
    cases hu.symm.trans hr
    cases hunwrap
    rfl
  subst hsame
  obtain ⟨spec, inputs, args, payload, response, state, attestation, reads, hspec, hinputs, hargs, hpayload, hresponse,
    hstate, hregistered, hreads, hverify⟩ := checkEnclaveEndorsement_ok hcheck ((mem_eccSets hrw).mpr ⟨s, hs, hns, rfl⟩)
  cases hstate
  have harguments : arguments cis = some args := by
    rw [arguments, hspec, Option.bind_some, hinputs, Option.bind_some, hargs]
  obtain ⟨ns, kv⟩ := s
  obtain rfl : ns = str "ecc" := hns
  exact ⟨kv, args, response, attestation, hws,
    ⟨⟨tx, act, cis, ccAction', txRWSet, payload, htx, hact, hunwrap, hrw, hs, harguments, hpayload, hresponse⟩,
      reads, hreads, hverify⟩, Except.ok.inj hregistered⟩

theorem Measured.mono {events' : List ChannelEvent} {mrenclave : Bytes} (h : Measured events mrenclave)
    (hsub : events ⊆ events') : Measured events' mrenclave := by
  rcases h with h | ⟨seen, e, h, hw⟩
  · exact Or.inl (hsub h)
  · exact Or.inr ⟨seen, e, hsub h, hw⟩

theorem Provenance.mono {events' : List ChannelEvent} (h : Provenance ias d events) (hsub : events ⊆ events') :
    Provenance ias d events' := by
  refine ⟨fun key value hd => ?_, fun mrenclave hd => (h.measured mrenclave hd).mono hsub⟩
  obtain ⟨seen, e, report, quote, hmem, hrest⟩ := h.registered key value hd
  exact ⟨seen, e, report, quote, hsub hmem, hrest⟩

/-- Step lemma: a block with accepted transactions. -/
theorem Provenance.block (h : Provenance ias d events) {es : List (Wire Peer.Envelope)}
    (hes : ∀ e ∈ es, Accepted L V defaultTxValidator d e) :
    Provenance ias (es.foldl applyEnvelope d) (events ++ es.map (ChannelEvent.committed d)) := by
  have hlater {e : Wire Peer.Envelope} (he : e ∈ es) :
      ChannelEvent.committed d e ∈ events ++ es.map (ChannelEvent.committed d) :=
    List.mem_append_right _ (List.mem_map_of_mem he)
  have hold := h.mono (List.subset_append_left events (es.map (ChannelEvent.committed d)))
  constructor
  · intro key value hvalue
    rcases foldl_applyEnvelope_some hvalue with hd | ⟨e, he, hw⟩
    · exact hold.registered key value hd
    · obtain ⟨report, quote, hatt⟩ := (hes e he).attests ias hw
      exact ⟨d, e, report, quote, hlater he, hw, hatt⟩
  · intro mrenclave hvalue
    rcases foldl_applyEnvelope_some hvalue with hd | ⟨e, he, hw⟩
    · exact hold.measured mrenclave hd
    · exact Or.inr ⟨d, e, hlater he, hw⟩

theorem Provenance.instantiate (h : Provenance ias d events) (mrenclave : Bytes) :
    Provenance ias (d.put (str "ecc") (str "MRENCLAVE") mrenclave) (events ++ [.instantiated mrenclave]) := by
  have hold := h.mono (List.subset_append_left events [.instantiated mrenclave])
  constructor
  · intro key value hvalue
    have hne : ¬(str "ercc" = str "ecc" ∧ key = str "MRENCLAVE") := fun hc => absurd hc.1 (by decide)
    rw [ChannelData.put, if_neg hne] at hvalue
    exact hold.registered key value hvalue
  · intro mrenclave' hvalue
    rw [ChannelData.put, if_pos ⟨rfl, rfl⟩, Option.some_inj] at hvalue
    rw [← hvalue]
    exact Or.inl (List.mem_append_right _ List.mem_cons_self)

/-- The events before a transaction account for the state on which it was validated. -/
def Accounted (ias : AttestationService L) (V : VSCCECC) (defaultTxValidator : DefaultValidator)
    (events : List ChannelEvent) : Prop :=
  ∀ pre seen e post, events = pre ++ .committed seen e :: post →
    Provenance ias seen pre ∧ Accepted L V defaultTxValidator seen e

theorem Accounted.append {events' : List ChannelEvent} (h : Accounted ias V defaultTxValidator events)
    (hnew : ∀ mid seen e post, events' = mid ++ .committed seen e :: post →
      Provenance ias seen (events ++ mid) ∧ Accepted L V defaultTxValidator seen e) :
    Accounted ias V defaultTxValidator (events ++ events') := by
  intro pre seen e post heq
  rcases List.append_eq_append_iff.mp heq with ⟨mid, rfl, hmid⟩ | ⟨mid, hmid, hrest⟩
  · exact hnew mid seen e post hmid
  · cases mid with
    | nil =>
      rw [List.append_nil] at hmid
      have hlast := hnew [] seen e post hrest.symm
      rwa [List.append_nil, hmid] at hlast
    | cons x mid =>
      rw [List.cons_append, List.cons.injEq] at hrest
      rw [← hrest.1] at hmid
      exact h pre seen e mid hmid

/-- Run lemma. -/
theorem run_accounted (ias : AttestationService L) (h : ChannelRun L V defaultTxValidator d events) :
    Provenance ias d events ∧ Accounted ias V defaultTxValidator events := by
  induction h with
  | start hercc hmr =>
    refine ⟨⟨fun key value hd => ?_, fun mrenclave hd => ?_⟩, fun pre seen e post heq => ?_⟩
    · rw [hercc] at hd
      cases hd
    · rw [hmr] at hd
      cases hd
    · exact absurd heq (by simp)
  | instantiate _ mrenclave ih =>
    refine ⟨ih.1.instantiate mrenclave, ih.2.append (fun mid seen e post heq => ?_)⟩
    -- the only new event is no transaction
    have hmem : ChannelEvent.committed seen e ∈ [ChannelEvent.instantiated mrenclave] := by
      rw [heq]
      exact List.mem_append_right _ List.mem_cons_self
    cases List.mem_singleton.mp hmem
  | @block d events _ es hes ih =>
    refine ⟨ih.1.block hes, ih.2.append (fun mid seen e post heq => ?_)⟩
    have hmem : ChannelEvent.committed seen e ∈ es.map (ChannelEvent.committed d) := by
      rw [heq]
      exact List.mem_append_right _ List.mem_cons_self
    obtain ⟨e', he', hcommitted⟩ := List.mem_map.mp hmem
    cases hcommitted
    exact ⟨ih.1.mono (List.subset_append_left events mid), hes e he'⟩

/-- The chain of trust on a channel. Every write of the chaincode that is committed is in an action
whose arguments, response, reads and writes are signed under a key. An earlier transaction has
registered this key, up to its hash, with a report that the attestation service has issued, for an
enclave with the MRENCLAVE that the channel had at that time; the quote in the report is genuine
exactly if its status is `OK`. This MRENCLAVE comes from the instantiation of the chaincode, or
was itself written by a transaction. -/
theorem committed_writes_attested (L : AttestationLibs ρ γ π) (V : VSCCECC) (defaultTxValidator : DefaultValidator)
    (ias : AttestationService L) (hsum : V.sum256 = L.sum256) (d : ChannelData) (events : List ChannelEvent)
    (hrun : ChannelRun L V defaultTxValidator d events) (pre post : List ChannelEvent) (seen : ChannelData)
    (e : Wire Peer.Envelope) (hevents : events = pre ++ .committed seen e :: post) (w : Peer.KVWrite)
    (hw : (str "ecc", w) ∈ envelopeWrites e) :
    ∃ (kv : Peer.KVRWSet) (args : Bytes) (response : Response), w ∈ kv.writes ∧ SignedEntry V e kv args response ∧
      ∃ seen' e' write report quote mrenclave slice, .committed seen' e' ∈ pre ∧
        (str "ercc", write) ∈ envelopeWrites e' ∧ Attests L ias (.ok seen'.view) write report quote ∧
        L.sum256 report.enclavePk = L.sum256 response.publicKey ∧
        (ias.genuine report.iasReportBody ↔
          (L.unmarshalReportBody report.iasReportBody).isvEnclaveQuoteStatus = str "OK") ∧
        seen' (str "ecc") (str "MRENCLAVE") = some mrenclave ∧ decodeBase64 L mrenclave = .ok slice ∧
        slice.upTo 32 = .ok quote.mrEnclave ∧ Measured pre mrenclave := by
  obtain ⟨-, haccounted⟩ := run_accounted ias hrun
  obtain ⟨hseen, haccepted⟩ := haccounted pre seen e post hevents
  obtain ⟨kv, args, response, attestation, hkv, hsigned, hregistered⟩ := haccepted.endorsed hw
  refine ⟨kv, args, response, hkv, hsigned, ?_⟩
  -- the transaction that has registered the key
  obtain ⟨seen', e', report, quote, hmem, hwrite, hatt⟩ := hseen.registered _ _ hregistered
  have hhash : L.sum256 report.enclavePk = L.sum256 response.publicKey := by
    have hname := congrArg base64Decode hatt.key_eq
    dsimp only at hname
    rw [registryName, registryName, base64Decode_base64Encode, base64Decode_base64Encode, hsum] at hname
    exact hname.symm
  -- the state on which it was validated
  obtain ⟨pre', post', hpre⟩ := List.append_of_mem hmem
  have hbefore := (haccounted pre' seen' e' (post' ++ .committed seen e :: post) (by rw [hevents, hpre]; simp)).1
  obtain ⟨stored, slice, hstored, hdecode, hupTo⟩ := hatt.mrEnclave_eq
  have hmr := storedMrenclave_view hstored
  have hsub : pre' ⊆ pre := by
    rw [hpre]
    exact List.subset_append_left _ _
  exact ⟨seen', e', _, report, quote, stored, slice, hmem, hwrite, hatt, hhash, ias.genuine_iff _ hatt.issued, hmr,
    hdecode, hupTo, (hbefore.measured stored hmr).mono hsub⟩

end

/-! A channel on which the generator is registered, and then a bid is signed under it. -/

def acceptingValidator : DefaultValidator := fun _ _ _ _ _ => none

theorem passes_of_validated {txValidator : Wire Peer.Envelope → Go Unit} {e : Wire Peer.Envelope}
    (h : txValidator e = .ok ()) (ns : Bytes) : Passes acceptingValidator txValidator ns e := by
  refine ⟨some 0, [e], 0, 0, [.serializedPolicy []], rfl, ?_⟩
  have hat : PluginBlock.envelopeAt [e] 0 = some e := rfl
  simp [pluginValidate, acceptingValidator, hat, h, convertErrorTypeOrPanic]

def instantiatedChannel : ChannelData :=
  ChannelData.put (fun _ _ => none) (str "ecc") (str "MRENCLAVE") (base64Encode mrenclave7)

def registrationEnvelope : Wire Peer.Envelope := peerEnvelope [] [] (registration (str "OK"))

def registeredChannel : ChannelData := [registrationEnvelope].foldl applyEnvelope instantiatedChannel

/-- The validator on the channel as it is before the registration. -/
def channelVscc : VSCCECC := bidVscc instantiatedChannel.view

theorem envelopeWrites_registration :
    envelopeWrites registrationEnvelope = [(str "ercc", write7 (str "OK"))] := rfl

theorem envelopeWrites_bid :
    envelopeWrites bidEnvelope = [(str "ecc", ⟨str "\x00a\x00x\x00", str "5"⟩)] := rfl

theorem accepted_registration :
    Accepted demoLibs channelVscc acceptingValidator instantiatedChannel registrationEnvelope := by
  constructor
  · rintro ⟨w, hw⟩
    rw [envelopeWrites_registration, List.mem_singleton] at hw
    have hns : str "ecc" = str "ercc" := congrArg Prod.fst hw
    exact absurd hns (by decide)
  · intro _
    have hstored : storedMrenclave (.ok instantiatedChannel.view) = .ok (base64Encode mrenclave7) := rfl
    have hround : ∀ ns ∈ registration (str "OK"),
        checkErccNamespace demoLibs 5 (.ok instantiatedChannel.view) ns = .ok () :=
      List.forall_mem_singleton.mpr (checkErccNamespace_write7 (by decide) plainText_ok hstored)
    refine ⟨5, passes_of_validated ?_ _⟩
    rw [registrationEnvelope, validateErcc_peerEnvelope, forM_eq_ok_of_forall hround]
    rfl

theorem accepted_bid : Accepted demoLibs channelVscc acceptingValidator registeredChannel bidEnvelope := by
  constructor
  · intro _
    have hentry : registeredChannel (str "ercc") (registryName firstBytes generatorPk) =
        some (write7 (str "OK")).value := by
      have hput : registeredChannel = instantiatedChannel.put (str "ercc") (write7 (str "OK")).key
          (write7 (str "OK")).value := by
        rw [registeredChannel, List.foldl_cons, List.foldl_nil, applyEnvelope, envelopeWrites_registration,
          List.foldl_cons, List.foldl_nil]
      rw [hput, ChannelData.put, if_pos ⟨rfl, rfl⟩]
    apply passes_of_validated
    exact validateEcc_bidEnvelope ((registeredChannel.getState_view _ _).trans (congrArg Except.ok hentry))
  · rintro ⟨w, hw⟩
    rw [envelopeWrites_bid, List.mem_singleton] at hw
    have hns : str "ercc" = str "ecc" := congrArg Prod.fst hw
    exact absurd hns (by decide)

theorem run_registered : ChannelRun demoLibs channelVscc acceptingValidator
    ([bidEnvelope].foldl applyEnvelope registeredChannel)
    [.instantiated (base64Encode mrenclave7), .committed instantiatedChannel registrationEnvelope,
      .committed registeredChannel bidEnvelope] := by
  have hstart : ChannelRun demoLibs channelVscc acceptingValidator (fun _ _ => none) [] := .start (fun _ => rfl) rfl
  have hregistered := (hstart.instantiate (base64Encode mrenclave7)).block [registrationEnvelope]
    (List.forall_mem_singleton.mpr accepted_registration)
  exact hregistered.block [bidEnvelope] (List.forall_mem_singleton.mpr accepted_bid)

theorem committed_bid_attested :
    ∃ kv args response, (⟨str "\x00a\x00x\x00", str "5"⟩ : Peer.KVWrite) ∈ kv.writes ∧
      SignedEntry channelVscc bidEnvelope kv args response ∧
      ∃ seen e write report quote,
        .committed seen e ∈ [ChannelEvent.instantiated (base64Encode mrenclave7),
          .committed instantiatedChannel registrationEnvelope] ∧
        (str "ercc", write) ∈ envelopeWrites e ∧ Attests demoLibs openService (.ok seen.view) write report quote ∧
        demoLibs.sum256 report.enclavePk = demoLibs.sum256 response.publicKey := by
  obtain ⟨kv, args, response, hkv, hsigned, seen, e, write, report, quote, -, -, hmem, hwrite, hatt, hhash, -⟩ :=
    committed_writes_attested demoLibs channelVscc acceptingValidator openService rfl _ _ run_registered
      [.instantiated (base64Encode mrenclave7), .committed instantiatedChannel registrationEnvelope] []
      registeredChannel bidEnvelope rfl ⟨str "\x00a\x00x\x00", str "5"⟩
      (by rw [envelopeWrites_bid]; exact List.mem_cons_self)
  exact ⟨kv, args, response, hkv, hsigned, seen, e, write, report, quote, hmem, hwrite, hatt, hhash⟩

end SecureChaincode
