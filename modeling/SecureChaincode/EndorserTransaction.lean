import SecureChaincode.Base64
import SecureChaincode.PbMessages

/-! `parse_endorser_transaction`: the conflict check of the read set and the writes that
go into the update map of the block. -/
namespace SecureChaincode

open Std

/-- The library calls of the parser. `pemReadX509` tells whether `PEM_read_bio_X509` of OpenSSL
finds a certificate, `jsonGetString` is the string member that parson finds in the JSON object
of a text. -/
structure Libs where
  pemReadX509 : Bytes → Bool
  jsonGetString : Bytes → Bytes → Option Bytes

inductive RetCode
  | success
  | errorDecoding
  | invalidBlockNumber
deriving DecidableEq

abbrev ReadSet := ExtTreeSet Bytes compare
abbrev WriteSet := ExtTreeMap Bytes Bytes compare

/-- The local variables of the loop over the reads. -/
structure ReadPhase where
  validTx : Bool
  eccReadSet : ReadSet

/-- What the two read loops do with a key once they have named it. A conflict does not
end the loop, so every key gets into the read set. -/
def checkRead (state updates : Kvs) (ns key kkey : Bytes) (v : Version) (acc : ReadPhase) :
    ReadPhase :=
  { validTx := acc.validTx &&
      !(hasVersionConflict key state v || hasVersionConflict key updates v)
    eccReadSet := if ns = str "ecc" then acc.eccReadSet.insert kkey else acc.eccReadSet }

/-- A read of a range query: the first byte of its key is skipped whatever it is. -/
def rangeRead (state updates : Kvs) (ns : Bytes) (acc : ReadPhase) (r : KVRead) :
    Parse ReadPhase := do
  let key ← deref (compositeName ns (← deref r.key))
  return checkRead state updates ns key (key.drop 3) r.version acc

def pointRead (state updates : Kvs) (ns : Bytes) (acc : ReadPhase) (r : KVRead) :
    Parse ReadPhase := do
  let key := simpleName ns (← deref r.key)
  return checkRead state updates ns key (key.drop 4) r.version acc

/-- `reads_info.raw_reads` whatever the union holds. The count of a Merkle summary comes
with a pointer that points nowhere. -/
def rawReads : ReadsInfo → Parse (List KVRead)
  | .unset => .ok []
  | .rawReads kvReads => .ok kvReads
  | .readsMerkleHashes maxDegree => if maxDegree = 0 then .ok [] else .error .fault

def rangeQuery (state updates : Kvs) (ns : Bytes) (acc : ReadPhase) (q : RangeQueryInfo) :
    Parse ReadPhase := do
  (← rawReads q.readsInfo).foldlM (rangeRead state updates ns) acc

/-- The reads of one namespace: its range queries, then its point reads. -/
def nsReads (state updates : Kvs) (acc : ReadPhase) (n : NsReadWriteSet) : Parse ReadPhase := do
  let kvrwset ← decodePb (← deref n.rwset)
  let ns := cstr (← deref n.ns)
  let acc ← kvrwset.rangeQueriesInfo.foldlM (rangeQuery state updates ns) acc
  kvrwset.reads.foldlM (pointRead state updates ns) acc

def readSet (state updates : Kvs) (rws : TxReadWriteSet) : Parse ReadPhase :=
  rws.nsRwset.foldlM (nsReads state updates) ⟨true, ∅⟩

/-- The local variables of the loop over the writes, with the update map it fills. -/
structure WritePhase where
  updates : Kvs
  validTx : Bool
  eccWriteSet : WriteSet

def lsccWrite (ns : Bytes) (version : Version) (acc : WritePhase) (w : KVWrite) :
    Leaving Kvs WritePhase := do
  let key ← leaving acc.updates (deref w.key)
  let val ← leaving acc.updates (deref w.value)
  return { acc with updates := acc.updates.insertIfNew (simpleName ns key) (val, version) }

def mrenclaveKey : Bytes := str "ecc.MRENCLAVE"

/-- The registry makes one write. Another number marks the transaction invalid, but the
first write is stored all the same. The stored MRENCLAVE is copied into 32 bytes. -/
def erccWrites (state : Kvs) (ns : Bytes) (version : Version) (acc : WritePhase)
    (writes : List KVWrite) : Leaving Kvs WritePhase := do
  let validTx := acc.validTx && writes.length == 1
  let w ← leaving acc.updates (deref writes.head?)
  let key ← leaving acc.updates (deref w.key)
  let mrenclave ← leaving acc.updates
    (deref (acc.updates[mrenclaveKey]?.or state[mrenclaveKey]?))
  if (base64Decode mrenclave.1).length ≤ 32 then
    let val ← leaving acc.updates (deref w.value)
    return { acc with
      updates := acc.updates.insertIfNew (simpleName ns key) (val, version)
      validTx := validTx }
  else
    .error (.fault, acc.updates)

/-- One round of the `ecc` write loop. The key is that of the write at hand, the value
is that of `writes[0]`. -/
def eccWrite (ns : Bytes) (version : Version) (writes : List KVWrite) (acc : WritePhase)
    (w : KVWrite) : Leaving Kvs WritePhase := do
  let wkey ← leaving acc.updates (deref w.key)
  let key ← leaving acc.updates (deref (eccName ns wkey))
  let kkey := if (wkey ++ [0]).head? = some 0 then key.drop 3 else cstr wkey
  let first ← leaving acc.updates (deref writes.head?)
  let val ← leaving acc.updates (deref first.value)
  return { acc with
    updates := acc.updates.insertIfNew key (val, version)
    eccWriteSet := acc.eccWriteSet.insertIfNew kkey val }

/-- The writes of one namespace; other chaincodes are not supported. -/
def nsWrites (state : Kvs) (version : Version) (acc : WritePhase) (n : NsReadWriteSet) :
    Leaving Kvs WritePhase := do
  let kvrwset ← leaving acc.updates (do decodePb (← deref n.rwset))
  let ns := cstr (← leaving acc.updates (deref n.ns))
  if ns = str "lscc" then kvrwset.writes.foldlM (lsccWrite ns version) acc
  else if ns = str "ercc" then erccWrites state ns version acc kvrwset.writes
  else if ns = str "ecc" then kvrwset.writes.foldlM (eccWrite ns version kvrwset.writes) acc
  else return acc

def writeSet (state : Kvs) (version : Version) (updates : Kvs) (rws : TxReadWriteSet) :
    Leaving Kvs WritePhase :=
  rws.nsRwset.foldlM (nsWrites state version) ⟨updates, true, ∅⟩

/-- The three members of the response are copied into buffers of 96 bytes. -/
def unmarshalEccResponse (libs : Libs) (json : Bytes) : Parse (Bytes × Bytes × Bytes) := do
  let field (name : String) : Parse Bytes := do
    let data := base64Decode (← deref (libs.jsonGetString json (str name)))
    if data.length ≤ 96 then return data else .error .fault
  return (← field "ResponseData", ← field "Signature", ← field "PublicKey")

/-- The response of an `ecc` invocation is unmarshalled and its signature checked; the
verdict only reaches the log, so what is left is whether the function gets through. -/
def validateEccTx (libs : Libs) (function : Bytes) (ccAction : ChaincodeAction) : Parse Unit := do
  let chaincodeName := cstr (← deref ccAction.chaincodeName)
  if chaincodeName = str "ecc" ∧ function ≠ str "setup" then
    let _ ← unmarshalEccResponse libs (← deref ccAction.responsePayload)
    return ()
  else return ()

/-- The chain of messages from an action to its chaincode action, with the function
that was called. -/
def unwrapAction (a : TransactionAction) : Parse (Bytes × ChaincodeAction) := do
  let actionPayload ← decodePb (← deref a.payload)
  let proposalPayload ← decodePb (← deref actionPayload.chaincodeProposalPayload)
  let cis ← decodePb (← deref proposalPayload.input)
  let function := cis.args.headD []
  let pResponsePayload ← decodePb (← deref actionPayload.proposalResponsePayload)
  let ccAction ← decodePb (← deref pResponsePayload.extension)
  return (function, ccAction)

/-- What a transaction leaves behind: the update map, and whether `valid_tx` has stayed
true in all of its actions (the function itself drops that flag). -/
structure TxState where
  updates : Kvs
  validTx : Bool

/-- One round of the loop over the actions. -/
def parseAction (libs : Libs) (state : Kvs) (version : Version) (s : TxState)
    (a : TransactionAction) : Leaving TxState TxState := do
  let (function, ccAction) ← leaving s (unwrapAction a)
  match ccAction.results with
  | none => return s
  | some results =>
    let rws ← leaving s (decodePb results)
    let reads ← leaving s (readSet state s.updates rws)
    if reads.validTx then
      let w ← (writeSet state version s.updates rws).mapError (fun e => (e.1, ⟨e.2, s.validTx⟩))
      leaving ⟨w.updates, s.validTx⟩ (validateEccTx libs function ccAction)
      return ⟨w.updates, s.validTx && w.validTx⟩
    else return ⟨s.updates, false⟩

structure TxResult where
  code : RetCode
  tx : TxState

/-- `none` when the enclave faults. -/
def parseEndorserTransaction (libs : Libs) (state : Kvs) (txData : Encoded Transaction)
    (updates : Kvs) (version : Version) : Option TxResult :=
  match txData.decoded with
  | none => some ⟨.errorDecoding, ⟨updates, true⟩⟩
  | some transaction =>
    match transaction.actions.foldlM (parseAction libs state version) ⟨updates, true⟩ with
    | .ok s => some ⟨.success, s⟩
    | .error (.decoding, s) => some ⟨.errorDecoding, s⟩
    | .error (.fault, _) => none

end SecureChaincode
