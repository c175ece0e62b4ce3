import SecureChaincode.EnclaveKeys
import SecureChaincode.Permits

/-! The operations of `StubImpl` in `ecc/enclave/enclave_stub.go`. Every call into the enclave
takes one of the permits of a semaphore, as many as the enclave has threads. -/
namespace SecureChaincode

def enclaveTcsNum : ℕ := 8

/-- The calls of an operation: those of the semaphore, the assignment of the enclave id, and the
functions of `sgxcclib.c` for the enclave of this id. -/
inductive StubCall
  | acquire
  | release
  | setEid (eid : ℕ)
  | sgxccCreateEnclave (enclaveFile : Bytes)
  | sgxccGetRemoteAttestationReport (spid : Bytes)
  | sgxccInvoke (args pk : Bytes)
  | sgxccGetPk
  | sgxccGetTargetInfo
  | sgxccBind (binding : Option (Bytes × Bytes))

/-- The functions of the library return a status, and leave something in the buffers. -/
@[reducible] def StubCall.Answer : StubCall → Type
  | .acquire | .release | .setEid _ => Unit
  | .sgxccCreateEnclave _ => ℤ × ℕ
  | .sgxccGetRemoteAttestationReport _ => ℤ × Bytes × Bytes
  | .sgxccInvoke _ _ => ℤ × Bytes × Bytes
  | .sgxccGetPk => ℤ × Bytes
  | .sgxccGetTargetInfo => ℤ × Bytes
  | .sgxccBind _ => ℤ

abbrev StubProgram := Program StubCall StubCall.Answer

def stubCall (c : StubCall) : StubProgram c.Answer := Program.request c

/-- An error is a result; a panic ends the program. -/
def ofGo {α : Type} : Go α → StubProgram (Except String α)
  | .ok a => .done (.ok a)
  | .error (.error err) => .done (.error err)
  | .error .panic => .fault

section
variable {ρ : Type} (X : PkixLibs ρ)

namespace StubImpl

/-- The status of the call is not looked at. -/
def getRemoteAttestationReport (spid : Bytes) : StubProgram (Except String (Bytes × Bytes)) := do
  stubCall .acquire
  let (_, quote, pubkey) ← stubCall (.sgxccGetRemoteAttestationReport spid)
  stubCall .release
  ofGo (do
    let pk ← marshalEnclavePk X pubkey
    return (quote, pk))

def invoke (args pk : Bytes) (shimStub : Bool) : StubProgram (Except String (Bytes × Bytes)) :=
  if !shimStub then pure (.error "Need shim")
  else do
    stubCall .acquire
    let (ret, response, signature) ← stubCall (.sgxccInvoke args pk)
    stubCall .release
    if ret ≠ 0 then return .error ("Invoke failed. Reason: " ++ toString ret)
    else ofGo (do
      let sig ← marshalEnclaveSignature X signature
      return (response, sig))

def getPublicKey : StubProgram (Except String Bytes) := do
  stubCall .acquire
  let (_, pubkey) ← stubCall .sgxccGetPk
  stubCall .release
  ofGo (marshalEnclavePk X pubkey)

/-- The permit is given back on success only. -/
def create (enclaveLibFile : Bytes) : StubProgram (Except String Unit) := do
  stubCall .acquire
  let (ret, eid) ← stubCall (.sgxccCreateEnclave enclaveLibFile)
  if ret ≠ 0 then return .error ("Can not create enclave: Reason: " ++ toString ret)
  else
    stubCall (.setEid eid)
    stubCall .release
    return .ok ()

def getTargetInfo : StubProgram (Except String Bytes) := do
  stubCall .acquire
  let (_, targetInfo) ← stubCall .sgxccGetTargetInfo
  stubCall .release
  return .ok targetInfo

/-- The call that binds the enclave to a report and a key; its status is not looked at. -/
def bindWith (binding : Option (Bytes × Bytes)) : StubProgram (Except String Unit) := do
  stubCall .acquire
  let _ ← stubCall (.sgxccBind binding)
  stubCall .release
  return .ok ()

/-- Without a report or a key both are NULL. -/
def bind (report pk : Option Bytes) : StubProgram (Except String Unit) :=
  match report, pk with
  | some report, some pk => do
    match ← ofGo (unmarshalEnclavePk X pk) with
    | .error err => return .error err
    | .ok transPk => bindWith (some (report, transPk))
  | _, _ => bindWith none

end StubImpl

/-- An operation with its arguments. -/
inductive StubOp
  | create (enclaveLibFile : Bytes)
  | invoke (args pk : Bytes) (shimStub : Bool)
  | getPublicKey
  | getTargetInfo
  | getRemoteAttestationReport (spid : Bytes)
  | bind (report pk : Option Bytes)

/-- The result of an operation, by the error that it has returned. -/
structure StubResult where
  op : StubOp
  err : Option String

def errorOf {α : Type} : Except String α → Option String
  | .error err => some err
  | .ok _ => none

def StubOp.program (op : StubOp) : StubProgram StubResult :=
  match op with
  | .create enclaveLibFile => do return ⟨op, errorOf (← StubImpl.create enclaveLibFile)⟩
  | .invoke args pk shimStub => do return ⟨op, errorOf (← StubImpl.invoke X args pk shimStub)⟩
  | .getPublicKey => do return ⟨op, errorOf (← StubImpl.getPublicKey X)⟩
  | .getTargetInfo => do return ⟨op, errorOf (← StubImpl.getTargetInfo)⟩
  | .getRemoteAttestationReport spid => do
    return ⟨op, errorOf (← StubImpl.getRemoteAttestationReport X spid)⟩
  | .bind report pk => do return ⟨op, errorOf (← StubImpl.bind X report pk)⟩

end

end SecureChaincode
