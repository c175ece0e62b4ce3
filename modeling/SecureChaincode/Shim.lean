import SecureChaincode.EndorserTransaction
import SecureChaincode.Interaction
import SecureChaincode.OrderedStore
import SecureChaincode.Parson

/-! The chaincode enclave: `shim.cpp`, `crypto.cpp` and the invocation of `enclave.cpp`.
A chaincode is a program over the three calls of the shim. Memory that is read or written
behind its end is a fault, and so is an exception that nobody catches; neither returns. -/
namespace SecureChaincode

open Std

/-- AES-GCM of the SDK. The decryption gives its verdict and what it leaves in the buffer,
which has the length of the ciphertext in either case. -/
structure Gcm where
  encrypt : (key iv plain : Bytes) → Bytes × Bytes
  decrypt : (key iv mac cipher : Bytes) → Bool × Bytes
  length_cipher : ∀ key iv plain, (encrypt key iv plain).1.length = plain.length
  length_mac : ∀ key iv plain, (encrypt key iv plain).2.length = 16
  length_plain : ∀ key iv mac cipher, (decrypt key iv mac cipher).2.length = cipher.length

/-- The size of the stack in `enclave.config.xml`. -/
def stackMaxSize : ℕ := 0x80000

/-- The keys and libraries of an enclave. Digests are of the type `η`, tags of the ledger
enclave of the type `τ` and signatures of the type `σ`. `readRand n` are the random bytes
that are drawn after `n` calls, `computeSharedDhkey` and `ecdsaSign` may fail with an error
code, `deriveKey` are the first 16 bytes of a digest, and `stackLeft` is what `invoke_enc` finds
of the stack. -/
structure Enclave (η τ σ : Type) where
  libc : Libc
  gcm : Gcm
  sha256 : Bytes → η
  zeroHash : η
  checkCmac : (key : Bytes) → (stateHash : η) → (cmac : τ) → Bool
  stateEncryptionKey : Bytes
  readRand : ℕ → Bytes
  length_readRand : ∀ n, (readRand n).length = 12
  computeSharedDhkey : Bytes → Option Bytes
  deriveKey : Bytes → Bytes
  ecdsaSign : η → Option σ
  stackLeft : ℕ
  stackLeft_le : stackLeft ≤ stackMaxSize

/-- What comes back from an ocall that reads the state. `behind` is no part of the answer but the
memory behind the buffer that it was copied to: what can be accessed there without a fault, and is
not used for anything else. -/
structure OcallReply (τ : Type) where
  val : Bytes
  valLen : UInt32
  cmac : τ
  behind : Bytes

/-- An ocall that was answered, with what was asked. -/
inductive Event (τ : Type)
  | getState (key : Bytes) (maxValLen : UInt32) (reply : OcallReply τ)
  | putState (key val : Bytes)
  | getStateByPartialCompositeKey (compKey : Bytes) (values : WriteSet) (reply : OcallReply τ)

/-- The untrusted side, which answers as it likes given all that came before. An ocall that
does not return is `none`, or `false` where there is nothing to return. -/
structure Host (τ : Type) where
  getState : List (Event τ) → (key : Bytes) → (maxValLen : UInt32) → Option (OcallReply τ)
  putState : List (Event τ) → (key val : Bytes) → Bool
  getStateByPartialCompositeKey : List (Event τ) → (compKey : Bytes) → Option (OcallReply τ)

/-- The read and write set that are registered for an invocation, and its ocalls. -/
structure Session (τ : Type) where
  readSet : ReadSet
  writeSet : WriteSet
  trace : List (Event τ)

/-- A call of the shim. Keys are C strings. -/
inductive Call
  | getState (key : Bytes) (maxValLen : UInt32)
  | putState (key val : Bytes)
  | getStateByPartialCompositeKey (compKey : Bytes) (values : WriteSet)

/-- A read of a value leaves the buffer, with the memory behind it, and the length of the value. -/
@[reducible] def Call.Answer : Call → Type
  | .getState _ _ => Bytes × ℕ
  | .putState _ _ => Unit
  | .getStateByPartialCompositeKey _ _ => WriteSet

abbrev Chaincode := Program Call Call.Answer

def getState (key : Bytes) (maxValLen : UInt32) : Chaincode (Bytes × ℕ) :=
  Program.request (Call.getState key maxValLen)

def putState (key val : Bytes) : Chaincode Unit := Program.request (Call.putState key val)

def getStateByPartialCompositeKey (compKey : Bytes) (values : WriteSet) : Chaincode WriteSet :=
  Program.request (Call.getStateByPartialCompositeKey compKey values)

/-- A buffer of `n` bytes after something was copied out to it. -/
def outBuffer (n : ℕ) (b : Bytes) : Bytes := (b ++ List.replicate n 0).take n

@[simp] theorem length_outBuffer (n : ℕ) (b : Bytes) : (outBuffer n b).length = n := by
  simp [outBuffer]

/-- Pairs are inserted into the map, so the first value of a key stays. A text that is no
array leaves the map as it is; a member that is missing is a NULL string. -/
def unmarshalValues (libc : Libc) (values : WriteSet) (json : Bytes) : Option WriteSet := do
  match Json.getArray (← orNull (jsonParseString libc json)) with
  | none => return values
  | some pairs =>
    pairs.foldlM (fun values pair => do
      let key ← jsonObjectGetString (str "key") (some pair)
      let value ← jsonObjectGetString (str "value") (some pair)
      return values.insertIfNew key value) values

/-- The items of an array of strings; a C string that is no array gives none. -/
def unmarshalArgs (libc : Libc) (jsonString : Bytes) : Option (List Bytes) := do
  match Json.getArray (← orNull (jsonParseString libc (cstr jsonString ++ [0]))) with
  | none => return []
  | some args => args.mapM (fun a => Json.getString (some a))

/-- Keys and values without anything between them, in the order of the map. -/
def pairBytes (values : WriteSet) : Bytes := values.toList.flatMap (fun p => p.1 ++ p.2)

def jsonBufferSize : ℕ := 262144

section
variable {η τ σ : Type} (E : Enclave η τ σ)

def encryptState (n : ℕ) (plain : Bytes) : Bytes :=
  let iv := E.readRand n
  let (cipher, mac) := E.gcm.encrypt E.stateEncryptionKey iv plain
  iv ++ mac ++ cipher

/-- The verdict and the plaintext buffer. -/
def decryptState (cipher : Bytes) : Bool × Bytes :=
  E.gcm.decrypt E.stateEncryptionKey (cipher.take 12) ((cipher.drop 12).take 16) (cipher.drop 28)

/-- A ciphertext shorter than IV and tag makes `plain_len` wrap around, and the array of
that length does not fit on the stack. -/
def tooShort (base64 : Bytes) : Bool := (base64Decode (cstr base64)).length < 28

/-- The memory from the buffer of a reply on. -/
def OcallReply.memory (reply : OcallReply τ) (size : ℕ) : Bytes := outBuffer size reply.val ++ reply.behind

/-- The hash that `get_state` forms of the reply. -/
def valueHash (maxValLen : UInt32) (reply : OcallReply τ) : η :=
  if 0 < reply.valLen.toNat then E.sha256 ((reply.memory maxValLen.toNat).take reply.valLen.toNat)
  else E.zeroHash

/-- What `check_cmac` says to the reply in `get_state`. -/
def valueVerdict (key : Bytes) (maxValLen : UInt32) (reply : OcallReply τ) : Bool :=
  E.checkCmac key (valueHash E maxValLen reply) reply.cmac

/-- `get_state` behind its ocall. What `check_cmac` and `decrypt_state` say is only logged,
so neither verdict is used here. Nothing keeps it within the buffer either. -/
def readValue (maxValLen : UInt32) (reply : OcallReply τ) : Option (Bytes × ℕ) :=
  let val := reply.memory maxValLen.toNat
  let valLen := reply.valLen.toNat
  -- the hash runs out of the memory
  if val.length < valLen then none
  else if valLen = 0 then some (val, 0)
  -- the value is read as a C string
  else if 0 ∉ val then none
  else if tooShort val then none
  else
    let plain := (decryptState E (base64Decode (cstr val))).2
    -- the number of zeros to fill in is negative, that is, too big
    if valLen < plain.length then none
    else some (plain ++ List.replicate (valLen-plain.length) 0 ++ val.drop valLen, plain.length)

/-- The pairs in the reply of a range query. -/
def receivedValues (values : WriteSet) (reply : OcallReply τ) : Option WriteSet :=
  unmarshalValues E.libc values (reply.memory jsonBufferSize)

/-- What `check_cmac` says to the pairs in `get_state_by_partial_composite_key`. The values are
decrypted first, which does not come to an end for one that is too short. -/
def rangeVerdict (compKey : Bytes) (values : WriteSet) (reply : OcallReply τ) : Option Bool := do
  let received ← receivedValues E values reply
  if received.toList.any (fun p => tooShort p.2) then none
  else return E.checkCmac compKey (E.sha256 (pairBytes received)) reply.cmac

/-- `get_state_by_partial_composite_key` behind its ocall: the pairs as received, and the
map that the chaincode gets. Again the verdicts are only logged. -/
def readValues (values : WriteSet) (reply : OcallReply τ) : Option (WriteSet × WriteSet) := do
  let received ← receivedValues E values reply
  if received.toList.any (fun p => tooShort p.2) then none
  else return (received, received.map (fun _ value => (decryptState E (base64Decode (cstr value))).2))

/-- One call of the shim. -/
def shimStep (host : Host τ) (s : Session τ) : (c : Call) → Option c.Answer × Session τ
  | .getState key maxValLen =>
    let s := { s with readSet := s.readSet.insert (cstr key) }
    match host.getState s.trace (cstr key) maxValLen with
    | none => (none, s)
    | some reply =>
      (readValue E maxValLen reply, { s with trace := s.trace ++ [.getState (cstr key) maxValLen reply] })
  | .putState key val =>
    let base64 := base64Encode (encryptState E s.trace.length val)
    let s := { s with writeSet := s.writeSet.insertIfNew (cstr key) base64 }
    if host.putState s.trace (cstr key) base64 then
      (some (), { s with trace := s.trace ++ [.putState (cstr key) base64] })
    else (none, s)
  | .getStateByPartialCompositeKey compKey values =>
    match host.getStateByPartialCompositeKey s.trace (cstr compKey) with
    | none => (none, s)
    | some reply =>
      let s := { s with trace := s.trace ++ [.getStateByPartialCompositeKey (cstr compKey) values reply] }
      match readValues E values reply with
      | none => (none, s)
      | some (received, plain) =>
        (some plain, { s with readSet := received.keys.foldl (fun r k => r.insert k) s.readSet })

/-- The entry point of a chaincode: arguments and the size of the response buffer. It ends
with a response, or with an error code. -/
abbrev ChaincodeEntry := Bytes → ℕ → Chaincode (Option Bytes)

/-- `needed_size` in `invoke_enc`, where the size is an `int`. -/
def argsNeededSize (size : ℕ) : UInt32 := (Int32.ofNat size-12-16).toUInt32

/-- An array of `needed_size + 1` bytes on the stack, of which the last one is set. -/
def plainOverflows (neededSize : UInt32) : Bool :=
  E.stackLeft < (neededSize+1).toNat ∨ (neededSize+1).toNat ≤ neededSize.toNat

/-- `invoke_enc`. Of a client key that is too short the bytes behind the string are read. -/
def invokeEnc (invoke : ChaincodeEntry) (args pk : Bytes) (maxResponseLen : ℕ) :
    Chaincode (Option Bytes) :=
  let pkBytes := base64Decode pk ++ [0]
  if pkBytes.length < 64 then .fault
  else
    let clientPk := (pkBytes.take 32).reverse ++ ((pkBytes.drop 32).take 32).reverse
    match E.computeSharedDhkey clientPk with
    | none => .done none
    | some sharedDhkey =>
      let key := E.deriveKey sharedDhkey.reverse
      let cipher := base64Decode args
      let neededSize := argsNeededSize cipher.length
      if plainOverflows E neededSize then .fault
      else
        match E.gcm.decrypt key (cipher.take 12) ((cipher.drop 12).take 16)
          ((cipher.drop 28).take neededSize.toNat) with
        | (false, _) => .done none
        | (true, plain) => invoke (cstr plain) maxResponseLen

def freshSession : Session τ := ⟨∅, ∅, []⟩

/-- The run of the chaincode in `ecall_invoke`. -/
def invokeRun (invoke : ChaincodeEntry) (host : Host τ) (args pk : Bytes) (responseLenIn : ℕ) :
    Option (Option Bytes) × Session τ :=
  let program :=
    if (cstr pk).length = 0 then invoke (cstr args) responseLenIn
    else invokeEnc E invoke (cstr args) (cstr pk) responseLenIn
  program.run (shimStep E host) freshSession

/-- The bytes that `ecall_invoke` hashes. -/
def invokeMessage (args response : Bytes) (s : Session τ) : Bytes :=
  cstr args ++ response ++ s.readSet.toList.flatten ++ pairBytes s.writeSet

/-- `ecall_invoke`: `none` is a fault, `some none` an error code, and otherwise there are a
response and a signature. -/
def ecallInvoke (invoke : ChaincodeEntry) (host : Host τ) (args pk : Bytes) (responseLenIn : ℕ) :
    Option (Option (Bytes × σ)) :=
  match invokeRun E invoke host args pk responseLenIn with
  | (none, _) => none
  | (some none, _) => some none
  | (some (some response), s) =>
    some ((E.ecdsaSign (E.sha256 (invokeMessage args response s))).map (fun sig => (response, sig)))

end

end SecureChaincode
