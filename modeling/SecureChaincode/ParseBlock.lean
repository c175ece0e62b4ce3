import SecureChaincode.EndorserTransaction

/-! `parse_block`: the sequence check, the envelopes of the block and the commit. -/
namespace SecureChaincode

/-- The store that a channel group's certificates go to, NULL for an unknown group. -/
inductive CertStore
  | orderer
  | apps
  | null

def selectStore (group : Bytes) : CertStore :=
  if group = str "Orderer" then .orderer
  else if group = str "Application" then .apps
  else .null

/-- `X509_STORE_add_cert` keeps one copy of a certificate. -/
def addPem (pem : Bytes) (l : List Bytes) : List Bytes := if pem ∈ l then l else l ++ [pem]

/-- `X509_STORE_add_cert` on a NULL store is a fault; a text that is no certificate is
only reported. -/
def storeRootCert (libs : Libs) (store : CertStore) (certs : RootCerts) (pem : Bytes) :
    Leaving RootCerts RootCerts := do
  if libs.pemReadX509 pem then
    match store with
    | .orderer => return { certs with orderer := some (addPem pem (← leaving certs (deref certs.orderer))) }
    | .apps => return { certs with apps := some (addPem pem (← leaving certs (deref certs.apps))) }
    | .null => .error (.fault, certs)
  else return certs

def parseConfigValue (libs : Libs) (store : CertStore) (certs : RootCerts)
    (value : Option (Encoded MSPConfig)) : Leaving RootCerts RootCerts := do
  let mspConfig ← leaving certs (do decodePb (← deref value))
  let fabricMspConfig ← leaving certs (do decodePb (← deref mspConfig.config))
  fabricMspConfig.rootCerts.foldlM (storeRootCert libs store) certs

def parseConfigGroup (libs : Libs) (certs : RootCerts) (g : ChannelGroup) :
    Leaving RootCerts RootCerts := do
  let store := selectStore (cstr (← leaving certs (deref g.key)))
  g.groups.foldlM (fun certs org => org.values.foldlM (parseConfigValue libs store) certs) certs

def parseConfig (libs : Libs) (config : Encoded ConfigEnvelope) (certs : RootCerts) :
    Leaving RootCerts RootCerts := do
  let configEnvelope ← leaving certs (decodePb config)
  configEnvelope.channelGroups.foldlM (parseConfigGroup libs) certs

/-- A block signature is unwrapped and verified; the verdict only reaches the log. -/
def blockSignature (sig : MetadataSignature) : Parse Unit := do
  let header ← decodePb (← deref sig.signatureHeader)
  let identity ← decodePb (← deref header.creator)
  let _ ← deref sig.signature
  let _ ← deref identity.idBytes
  return ()

/-- The metadata of the block: its signatures at `SIGNATURES`, and the transaction filter
at `TRANSACTIONS_FILTER`, copied into an array of one zeroed byte for each envelope. -/
def blockMetadata (b : Block) : Parse Bytes := do
  let signatures ← deref b.metadata[0]?
  let metadata ← decodePb signatures.metadata
  metadata.signatures.forM blockSignature
  let txFilter ← deref b.metadata[2]?
  -- `= {0}` stores the first byte of the array also where it has none
  if 0 < b.data.length ∧ txFilter.bytes.length ≤ b.data.length then
    return txFilter.bytes ++ List.replicate (b.data.length-txFilter.bytes.length) 0
  else .error .fault

/-- The headers of an envelope. Outside the genesis block its signature and transaction id
are checked too, again only for the log. -/
def unwrapEnvelope (number : ℕ) (e : Encoded Envelope) : Parse (ChannelHeader × Payload) := do
  let envelope ← decodePb e
  let payload ← decodePb (← deref envelope.payload)
  let header ← decodePb (← deref payload.signatureHeader)
  let identity ← decodePb (← deref header.creator)
  if number > 0 then
    let _ ← deref envelope.signature
    let _ ← deref identity.idBytes
  let chdr ← decodePb (← deref payload.channelHeader)
  if number > 0 then
    let _ ← deref header.nonce
    let _ ← deref chdr.txId
  return (chdr, payload)

/-- What the loop over the envelopes works on. -/
structure BlockPhase where
  updates : Kvs
  rootCerts : RootCerts

/-- The `switch` under the lock. The return codes of the two parsers are dropped. -/
def applyPayload (libs : Libs) (state : Kvs) (version : Version) (s : BlockPhase)
    (chdr : ChannelHeader) (payload : Payload) : Leaving BlockPhase BlockPhase := do
  if chdr.type = 1 then
    -- CONFIG, of which only the genesis block's is used
    if version.blockNum = 0 then
      let data ← leaving s (deref payload.data)
      match parseConfig libs data.configEnvelope s.rootCerts with
      | .ok certs => return { s with rootCerts := certs }
      | .error (.decoding, certs) => return { s with rootCerts := certs }
      | .error (.fault, certs) => .error (.fault, { s with rootCerts := certs })
    else return s
  else if chdr.type = 3 then
    -- ENDORSER_TRANSACTION
    let data ← leaving s (deref payload.data)
    match parseEndorserTransaction libs state data.transaction s.updates version with
    | some r => return { s with updates := r.tx.updates }
    | none => .error (.fault, s)
  else return s

/-- One round of the loop over the envelopes, on envelope and index. -/
def processEnvelope (libs : Libs) (state : Kvs) (number : ℕ) (txFilter : Bytes) (s : BlockPhase)
    (e : Encoded Envelope × ℕ) : Leaving BlockPhase BlockPhase := do
  if txFilter[e.2]? = some 1 then return s
  else
    let (chdr, payload) ← leaving s (unwrapEnvelope number e.1)
    applyPayload libs state ⟨number, e.2⟩ s chdr payload

/-- `none` when the enclave faults or aborts. -/
def parseBlock (libs : Libs) (L : Ledger) (blockData : Encoded Block) : Option (Ledger × RetCode) :=
  match blockData.decoded with
  | none => some (L, .errorDecoding)
  | some block =>
    -- the 64-bit header number is narrowed to 32 bits
    let blockSequenceNumber := UInt32.ofNat block.number
    if blockSequenceNumber = L.sequenceNumber + 1 then
      match blockMetadata block with
      | .error .decoding => some (L, .errorDecoding)
      | .error .fault => none
      | .ok txFilter =>
        match block.data.zipIdx.foldlM (processEnvelope libs L.state block.number txFilter)
            ⟨∅, L.rootCerts⟩ with
        | .ok s =>
          (commitStateUpdates { L with rootCerts := s.rootCerts } s.updates
            blockSequenceNumber).map (fun L' => (L', .success))
        | .error (.decoding, s) => some ({ L with rootCerts := s.rootCerts }, .errorDecoding)
        | .error (.fault, _) => none
    else some (L, .invalidBlockNumber)

end SecureChaincode
