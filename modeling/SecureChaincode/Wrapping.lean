import SecureChaincode.EccResponse
import SecureChaincode.TxRefinement
import SecureChaincode.ParseBlock

/-! Complete messages around a read/write set, as a client, a peer and an orderer that
leave no field out would build them, and what the parser finds in them. -/
namespace SecureChaincode

/-- The wire form of a message. -/
def encode {α : Type} (m : α) : Encoded α := ⟨some m⟩

/-- Bytes that are no message. -/
def garbled {α : Type} : Encoded α := ⟨none⟩

def wrapNs (ns : Bytes) (kvrwset : KVRWSet) : NsReadWriteSet := ⟨some ns, some (encode kvrwset)⟩

/-- An action of a chaincode, with the arguments it was called with and a signed response. -/
def wrapAction (chaincodeName : Bytes) (args : List Bytes) (rws : TxReadWriteSet) :
    TransactionAction :=
  ⟨some (encode
    { chaincodeProposalPayload := some (encode ⟨some (encode ⟨args⟩)⟩)
      proposalResponsePayload := some (encode ⟨some (encode
        { results := some (encode rws)
          responsePayload := some (jsonMarshal okResponse)
          chaincodeName := some chaincodeName })⟩) })⟩

def wrapIdentity (cert : Bytes) : Encoded SerializedIdentity := encode ⟨some cert⟩

/-- An envelope of the given header type. -/
def wrapData (type : ℤ) (data : PayloadData) : Encoded Envelope :=
  encode
    { payload := some (encode
        { channelHeader := some (encode ⟨type, some []⟩)
          signatureHeader := some (encode ⟨some (wrapIdentity []), some []⟩)
          data := some data })
      signature := some [] }

/-- An envelope of the given header type around a transaction. -/
def wrapEnvelope (type : ℤ) (t : Transaction) : Encoded Envelope := wrapData type ⟨garbled, encode t⟩

/-- An envelope of type `ENDORSER_TRANSACTION`. -/
def endorserTx (t : Transaction) : Encoded Envelope := wrapEnvelope 3 t

/-- A transaction of the setup of a chaincode, with writes in one namespace. -/
def writeTx (ns : String) (writes : List KVWrite) : Encoded Envelope :=
  endorserTx ⟨[wrapAction (str ns) [str "setup"] ⟨[wrapNs (str ns) ⟨[], [], writes⟩]⟩]⟩

/-- An envelope of type `CONFIG`, of a channel whose two groups have no members yet. -/
def configTx : Encoded Envelope :=
  wrapData 1 ⟨encode ⟨[⟨some (str "Orderer"), []⟩, ⟨some (str "Application"), []⟩]⟩, garbled⟩

/-- An unsigned block with a transaction filter. -/
def plainBlock (number : ℕ) (txFilter : Bytes) (data : List (Encoded Envelope)) : Block :=
  { number := number
    data := data
    metadata := [⟨[], encode ⟨[]⟩⟩, ⟨[], garbled⟩, ⟨txFilter, garbled⟩] }

def wrapBlock (number : ℕ) (txFilter : Bytes) (data : List (Encoded Envelope)) : Encoded Block :=
  encode (plainBlock number txFilter data)

/-- A block that only configures the channel. -/
def configBlock (number : ℕ) : Encoded Block := wrapBlock number [0] [configTx]

/-- Libraries that find no certificate, and an empty text for every JSON member. What parson finds
in the responses of the actions above makes no difference to the ledger, so the runs on them are
computed with these. -/
def bareLibs : Libs := ⟨fun _ => false, fun _ _ => some []⟩

theorem sameAnswer_wrapAction (chaincodeName : Bytes) (args : List Bytes) (rws : TxReadWriteSet) :
    SameAnswer parsonLibs bareLibs (wrapAction chaincodeName args rws) := by
  intro function ccAction h
  cases h
  rw [validateEccTx_okResponse]
  simp only [validateEccTx, deref, bind, Except.bind]
  split_ifs
  · rfl
  · rfl

/-- The envelopes that are built here. -/
inductive Wrapped : Encoded Envelope → Prop
  | config : Wrapped configTx
  | endorser (as : List TransactionAction) (h : ∀ a ∈ as, SameAnswer parsonLibs bareLibs a) :
    Wrapped (endorserTx ⟨as⟩)

theorem wrapped_action (chaincodeName : Bytes) (args : List Bytes) (rws : TxReadWriteSet) :
    Wrapped (endorserTx ⟨[wrapAction chaincodeName args rws]⟩) :=
  .endorser _ (List.forall_mem_singleton.mpr (sameAnswer_wrapAction chaincodeName args rws))

theorem unwrapEnvelope_wrapData (number : ℕ) (type : ℤ) (data : PayloadData) :
    unwrapEnvelope number (wrapData type data) =
      .ok (⟨type, some []⟩, ⟨some (encode ⟨type, some []⟩),
        some (encode ⟨some (wrapIdentity []), some []⟩), some data⟩) := by
  -- the fields that are looked at outside the genesis block only are there as well
  by_cases hn : number > 0
  · simp [unwrapEnvelope, wrapData, wrapIdentity, encode, decodePb, deref, hn, bind,
      Except.bind, pure, Except.pure]
  · simp [unwrapEnvelope, wrapData, wrapIdentity, encode, decodePb, deref, hn, bind,
      Except.bind, pure, Except.pure]

theorem processEnvelope_wrapped {e : Encoded Envelope} (h : Wrapped e) (state : Kvs) (number : ℕ)
    (txFilter : Bytes) (s : BlockPhase) (i : ℕ) :
    processEnvelope parsonLibs state number txFilter s (e, i) =
      processEnvelope bareLibs state number txFilter s (e, i) := by
  rw [processEnvelope, processEnvelope]
  dsimp only
  split_ifs with hskip
  · rfl
  cases h with
  | config =>
    rw [configTx, unwrapEnvelope_wrapData]
    rfl
  | endorser as h =>
    have htx : parseEndorserTransaction parsonLibs state (encode ⟨as⟩) s.updates ⟨number, i⟩ =
        parseEndorserTransaction bareLibs state (encode ⟨as⟩) s.updates ⟨number, i⟩ :=
      parseEndorserTransaction_congr h state s.updates ⟨number, i⟩
    rw [endorserTx, wrapEnvelope, unwrapEnvelope_wrapData]
    simp only [leaving, Except.mapError, bind, Except.bind, applyPayload, deref, htx]
    rfl

theorem blockMetadata_plainBlock (number : ℕ) {txFilter : Bytes} {data : List (Encoded Envelope)}
    (hne : data ≠ []) (hl : txFilter.length ≤ data.length) :
    blockMetadata (plainBlock number txFilter data) =
      .ok (txFilter ++ List.replicate (data.length-txFilter.length) 0) := by
  have hpos : 0 < data.length := List.length_pos_iff.mpr hne
  simp [blockMetadata, plainBlock, decodePb, deref, encode, hl, hpos, bind, Except.bind, pure, Except.pure]

/-- Blocks of such envelopes. -/
def WrappedBlock (blockData : Encoded Block) : Prop :=
  ∀ block, blockData.decoded = some block → ∀ e ∈ block.data, Wrapped e

theorem wrappedBlock_wrapBlock (number : ℕ) (txFilter : Bytes) {data : List (Encoded Envelope)}
    (h : ∀ e ∈ data, Wrapped e) : WrappedBlock (wrapBlock number txFilter data) := by
  intro block hb
  cases hb
  exact h

theorem wrappedBlock_singleton (number : ℕ) (txFilter : Bytes) {e : Encoded Envelope} (h : Wrapped e) :
    WrappedBlock (wrapBlock number txFilter [e]) :=
  wrappedBlock_wrapBlock number txFilter (List.forall_mem_singleton.mpr h)

theorem wrappedBlock_configBlock (number : ℕ) : WrappedBlock (configBlock number) :=
  wrappedBlock_singleton number [0] .config

/-- The parser does with such a block what it does without the members of its responses. -/
theorem parseBlock_wrapped {blockData : Encoded Block} (h : WrappedBlock blockData) (L : Ledger) :
    parseBlock parsonLibs L blockData = parseBlock bareLibs L blockData := by
  rw [parseBlock, parseBlock]
  cases hb : blockData.decoded with
  | none => rfl
  | some block =>
    have hloop (f : Bytes) :
        block.data.zipIdx.foldlM (processEnvelope parsonLibs L.state block.number f) ⟨∅, L.rootCerts⟩ =
          block.data.zipIdx.foldlM (processEnvelope bareLibs L.state block.number f) ⟨∅, L.rootCerts⟩ := by
      refine foldlM_congr (fun s e he => ?_) _
      exact processEnvelope_wrapped (h block hb e.1 (List.fst_mem_of_mem_zipIdx he)) L.state block.number f s e.2
    simp only [hloop]

/-- A block of configuration only moves the counter. -/
theorem parseBlock_configBlock (libs : Libs) (L : Ledger) (number : ℕ)
    (hn : UInt32.ofNat number = L.sequenceNumber + 1) :
    parseBlock libs L (configBlock number) = some ({ L with sequenceNumber := UInt32.ofNat number }, .success) := by
  have hm : blockMetadata (plainBlock number [0] [configTx]) = .ok [0] :=
    blockMetadata_plainBlock number (List.cons_ne_nil _ _) (Nat.le_refl 1)
  have hround : processEnvelope libs L.state number [0] ⟨∅, L.rootCerts⟩ (configTx, 0) = .ok ⟨∅, L.rootCerts⟩ := by
    rw [processEnvelope, if_neg (by decide), configTx, unwrapEnvelope_wrapData]
    -- in the genesis block the groups are looked at, and they are empty
    by_cases hzero : number = 0
    · subst hzero
      rfl
    · simp only [leaving, Except.mapError, bind, Except.bind, applyPayload, if_true, if_neg hzero]
      rfl
  have hloop : (plainBlock number [0] [configTx]).data.zipIdx.foldlM (processEnvelope libs L.state number [0])
      ⟨∅, L.rootCerts⟩ = .ok ⟨∅, L.rootCerts⟩ := by
    rw [show (plainBlock number [0] [configTx]).data.zipIdx = [(configTx, 0)] from rfl, List.foldlM_cons, hround]
    rfl
  have hnum : (plainBlock number [0] [configTx]).number = number := rfl
  simp only [parseBlock, configBlock, wrapBlock, encode, hnum]
  rw [if_pos hn, hm]
  dsimp only
  rw [hloop]
  simp [commitStateUpdates, hn, assignAll_empty]

end SecureChaincode
