import SecureChaincode.KeyNames

/-! The messages of a transaction as the validation plugins of the peer see them. In Go a
byte field that is left out is empty, while a message field that is left out is nil, and
a step through it is a panic. -/
namespace SecureChaincode

/-- How a Go function ends without a result: with an error, or with a panic. -/
inductive GoExit
  | error (text : String)
  | panic
deriving DecidableEq

abbrev Go := Except GoExit

/-- A nil pointer, or a slice without the index that is asked for. -/
def orPanic {α : Type} (p : Option α) : Go α :=
  match p with
  | some a => .ok a
  | none => .error .panic

/-- Bytes that carry an encoded message: what the library makes of them, which is the
message or the text of an error. -/
structure Wire (α : Type) where
  unmarshal : Except String α

/-- The error of the library is passed on. -/
def Wire.get {α : Type} (w : Wire α) : Go α := w.unmarshal.mapError GoExit.error

namespace Peer

structure KVRead where
  key : Bytes

structure KVWrite where
  key : Bytes
  value : Bytes

/-- `GetRawReads` of a range query, nil if the query is recorded in another way. -/
structure RangeQueryInfo where
  rawReads : Option (List KVRead)

structure KVRWSet where
  reads : List KVRead
  rangeQueriesInfo : List RangeQueryInfo
  writes : List KVWrite

/-- One namespace of the read/write set, as `TxRwSet.FromProtoBytes` leaves it. -/
structure NsRwSet where
  nameSpace : Bytes
  kvRwSet : KVRWSet

/-- The results are read as a read/write set; the response is its payload. -/
structure ChaincodeAction where
  results : Wire (List NsRwSet)
  response : Option Bytes

structure ProposalResponsePayload where
  extension : Wire ChaincodeAction

structure ChaincodeSpec where
  input : Option (List Bytes)

structure ChaincodeInvocationSpec where
  chaincodeSpec : Option ChaincodeSpec

structure ChaincodeProposalPayload where
  input : Wire ChaincodeInvocationSpec

/-- The action is the proposal response payload of the endorsed action. -/
structure ChaincodeActionPayload where
  action : Option (Wire ProposalResponsePayload)
  chaincodeProposalPayload : Wire ChaincodeProposalPayload

structure Transaction where
  actions : List (Wire ChaincodeActionPayload)

structure Payload where
  data : Wire Transaction

structure Envelope where
  payload : Wire Payload

end Peer

/-- What the plugins ask of the channel state: one answer for each key, which may be nil. -/
structure ChannelState where
  getStateMultipleKeys : Bytes → List Bytes → Except String (List (Option Bytes))

/-- `state.GetState` of both plugins. -/
def ChannelState.getState (s : ChannelState) (ns key : Bytes) : Except String (Option Bytes) := do
  let values ← s.getStateMultipleKeys ns [key]
  return values.head?.join

/-- The transaction of an envelope, the first steps of both plugins. -/
def getTransaction (env : Wire Peer.Envelope) : Go Peer.Transaction := do
  let env ← env.get
  let payl ← env.payload.get
  payl.data.get

/-- The chaincode action of an action, with the payload it was found in. -/
def getCcAction (act : Wire Peer.ChaincodeActionPayload) :
    Go (Peer.ChaincodeActionPayload × Peer.ChaincodeAction) := do
  let cap ← act.get
  let pRespPayload ← (← orPanic cap.action).get
  let ccAction ← pRespPayload.extension.get
  return (cap, ccAction)

end SecureChaincode
