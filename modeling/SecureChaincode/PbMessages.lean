import SecureChaincode.LedgerStore

/-! The protobuf messages of a block as `decode_pb` leaves them in memory. A pointer
field that the wire form leaves out is NULL, and a byte field that carries a further
message is decoded on its own, when the parser gets to it. -/
namespace SecureChaincode

/-- A byte array that carries an encoded message: what `pb_decode` makes of it. -/
structure Encoded (α : Type) where
  decoded : Option α

/-- How a parsing function ends early: `decode_pb` returns `LEDGER_ERROR_DECODING` from
it, or it goes through a NULL pointer or past a buffer, which the enclave does not
survive in any defined way. -/
inductive Exit
  | decoding
  | fault
deriving DecidableEq

abbrev Parse := Except Exit

def decodePb {α : Type} (e : Encoded α) : Parse α :=
  match e.decoded with
  | some m => .ok m
  | none => .error .decoding

def deref {α : Type} (p : Option α) : Parse α :=
  match p with
  | some a => .ok a
  | none => .error .fault

/-- A function that works on `σ` by reference: an early exit leaves what it had done. -/
abbrev Leaving (σ : Type) := Except (Exit × σ)

def leaving {σ α : Type} (s : σ) (p : Parse α) : Leaving σ α := p.mapError (fun e => (e, s))

structure KVRead where
  key : Option Bytes
  version : Version

structure KVWrite where
  key : Option Bytes
  value : Option Bytes

/-- The union `reads_info`. The parser always takes it for raw reads; of a Merkle summary
it then sees `max_degree` as the number of reads. -/
inductive ReadsInfo
  | unset
  | rawReads (kvReads : List KVRead)
  | readsMerkleHashes (maxDegree : ℕ)

structure RangeQueryInfo where
  readsInfo : ReadsInfo

structure KVRWSet where
  reads : List KVRead
  rangeQueriesInfo : List RangeQueryInfo
  writes : List KVWrite

structure NsReadWriteSet where
  ns : Option Bytes
  rwset : Option (Encoded KVRWSet)

structure TxReadWriteSet where
  nsRwset : List NsReadWriteSet

structure ChaincodeAction where
  results : Option (Encoded TxReadWriteSet)
  responsePayload : Option Bytes
  chaincodeName : Option Bytes

structure ProposalResponsePayload where
  extension : Option (Encoded ChaincodeAction)

structure ChaincodeInvocationSpec where
  args : List Bytes

structure ChaincodeProposalPayload where
  input : Option (Encoded ChaincodeInvocationSpec)

structure ChaincodeActionPayload where
  chaincodeProposalPayload : Option (Encoded ChaincodeProposalPayload)
  proposalResponsePayload : Option (Encoded ProposalResponsePayload)

structure TransactionAction where
  payload : Option (Encoded ChaincodeActionPayload)

structure Transaction where
  actions : List TransactionAction

structure FabricMSPConfig where
  rootCerts : List Bytes

structure MSPConfig where
  config : Option (Encoded FabricMSPConfig)

/-- The values of an organisation's group, each read as an MSP configuration. -/
structure OrgGroup where
  values : List (Option (Encoded MSPConfig))

structure ChannelGroup where
  key : Option Bytes
  groups : List OrgGroup

structure ConfigEnvelope where
  channelGroups : List ChannelGroup

structure SerializedIdentity where
  idBytes : Option Bytes

structure SignatureHeader where
  creator : Option (Encoded SerializedIdentity)
  nonce : Option Bytes

structure ChannelHeader where
  type : ℤ
  txId : Option Bytes

/-- The payload's data is read as a configuration or as a transaction, after the type
in the channel header. -/
structure PayloadData where
  configEnvelope : Encoded ConfigEnvelope
  transaction : Encoded Transaction

structure Payload where
  channelHeader : Option (Encoded ChannelHeader)
  signatureHeader : Option (Encoded SignatureHeader)
  data : Option PayloadData

structure Envelope where
  payload : Option (Encoded Payload)
  signature : Option Bytes

structure MetadataSignature where
  signatureHeader : Option (Encoded SignatureHeader)
  signature : Option Bytes

structure Metadata where
  signatures : List MetadataSignature

/-- One entry of the block metadata: its bytes, and what they give as a `Metadata` message. -/
structure MetadataEntry where
  bytes : Bytes
  metadata : Encoded Metadata

structure Block where
  number : ℕ
  data : List (Encoded Envelope)
  metadata : List MetadataEntry

end SecureChaincode
