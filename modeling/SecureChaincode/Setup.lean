import SecureChaincode.EnclaveStub

/-! `setup` of the chaincode `ecc`: the enclave is created, attested, registered and bound to
`tlcc`, with the functions of `sgxcclib.c` and the code of the enclave that they call. Every call
of SGX has a status of its own, and an ecall has one for the way into the enclave and one for what
is done there. -/
namespace SecureChaincode

def sgxErrorInvalidParameter : ℤ := 2

def sgxErrorOutOfMemory : ℤ := 3

/-- The public key in the format of SGX: both numbers start with the least significant byte. -/
def AffinePoint.sgxBytes (P : AffinePoint) : Bytes := (fixedBytes 32 P.x).reverse ++ (fixedBytes 32 P.y).reverse

/-- `bytes_swap` on both halves of a key. -/
def swapFields (b : Bytes) : Bytes := (b.take 32).reverse ++ ((b.drop 32).take 32).reverse

theorem swapFields_sgxBytes (P : AffinePoint) : swapFields P.sgxBytes = P.bytes := by
  have hx : (fixedBytes 32 P.x).reverse.length = 32 := by rw [List.length_reverse, P.length_x]
  have hy : (fixedBytes 32 P.y).reverse.length = 32 := by rw [List.length_reverse, P.length_y]
  rw [swapFields, AffinePoint.sgxBytes, List.take_left' hx, List.drop_left' hx, List.take_of_length_le hy.le,
    List.reverse_reverse, List.reverse_reverse]
  rfl

/-- The outcomes of the calls of SGX, with what is in memory that nobody has written. The key in
the enclave is genuine if its creation has succeeded. -/
structure SgxOutcomes where
  access : Bytes → Bool
  createEnclave : ℤ
  eid : ℕ
  ecallInit : ℤ
  openContext : ℤ
  createKeyPair : ℤ
  enclavePk : Bytes
  genuine : createKeyPair = 0 → ∃ P : AffinePoint, enclavePk = P.sgxBytes
  sha256 : Bytes → Bytes
  hashEnclavePk : ℤ
  initQuote : ℤ
  ecallCreateReport : ℤ
  createReport : ℤ
  makeReport : Bytes → Bytes
  quoteSize : ℕ
  neededSize : ℕ
  getQuote : ℤ
  makeQuote : Bytes → Bytes → Bytes
  quoteBuffer : Bytes
  pubkeyBuffer : Bytes
  ecallGetPk : ℤ
  ecallGetTargetInfo : ℤ
  createOwnReport : ℤ
  targetInfo : Bytes
  targetInfoBuffer : Bytes
  ecallBind : ℤ
  bindRet : ℤ
  hashTlccPk : ℤ
  hashBuffer : Bytes
  verifyReport : Bytes → ℤ

/-- The variables of the enclave. -/
structure EccEnclave where
  enclavePk : Bytes
  tlccPk : Bytes

def EccEnclave.fresh : EccEnclave := ⟨List.replicate 64 0, List.replicate 64 0⟩

/-- The sizes of a report and of a service provider id in SGX. -/
def sgxReportSize : ℕ := 432

def sgxSpidSize : ℕ := 16

section
variable (O : SgxOutcomes)

def ecallInit (e : EccEnclave) : ℤ × EccEnclave :=
  if O.openContext ≠ 0 then (O.openContext, e)
  else if O.createKeyPair ≠ 0 then (O.createKeyPair, { e with enclavePk := O.enclavePk })
  else (0, { e with enclavePk := O.enclavePk })

/-- The hash of the key in front of zeros. A failure of the hash function is not noticed. -/
def reportData (pk : Bytes) : Bytes :=
  if O.hashEnclavePk ≠ 0 then List.replicate 64 0 else O.sha256 pk ++ List.replicate 32 0

/-- The status, the report and the key. The key is copied out in any case; the buffer of the report
is zero before it is written. -/
def ecallCreateReport (e : EccEnclave) : ℤ × Bytes × Bytes :=
  let pk := swapFields e.enclavePk
  if O.createReport ≠ 0 then (O.createReport, List.replicate sgxReportSize 0, pk)
  else (0, O.makeReport (reportData O pk), pk)

/-- The hash of the key of `tlcc`, if the hash function has written it. -/
def tlccPkHash (pubkey : Bytes) : Bytes := if O.hashTlccPk ≠ 0 then O.hashBuffer else O.sha256 pubkey

/-- Both pointers may be NULL. The data of a report are at its byte 320. -/
def ecallBindTlcc (binding : Option (Bytes × Bytes)) (e : EccEnclave) : ℤ × EccEnclave :=
  match binding with
  | none => (0, e)
  | some (report, pubkey) =>
    if tlccPkHash O (pubkey.take 64) ≠ (report.drop 320).take 32 then (sgxErrorInvalidParameter, e)
    else if O.verifyReport report ≠ 0 then (O.verifyReport report, e)
    else (0, { e with tlccPk := pubkey.take 64 })

/-- If the enclave could not be initialised, the status of the ecall is returned, which may be a
success. -/
def sgxccCreateEnclave (enclaveFile : Bytes) : (ℤ × ℕ) × EccEnclave :=
  if !O.access enclaveFile then ((-1, O.eid), .fresh)
  else if O.createEnclave ≠ 0 then ((O.createEnclave, O.eid), .fresh)
  else if O.ecallInit ≠ 0 then ((O.ecallInit, O.eid), .fresh)
  else
    let (enclaveRet, e) := ecallInit O .fresh
    if enclaveRet ≠ 0 then ((O.ecallInit, O.eid), e) else ((0, O.eid), e)

/-- The status of the enclave is not looked at. -/
def sgxccGetRemoteAttestationReport (spid : Bytes) (e : EccEnclave) : Option (ℤ × Bytes × Bytes) :=
  if O.initQuote ≠ 0 then some (O.initQuote, O.quoteBuffer, O.pubkeyBuffer)
  else if O.ecallCreateReport ≠ 0 then some (O.ecallCreateReport, O.quoteBuffer, O.pubkeyBuffer)
  else
    let (_, report, pk) := ecallCreateReport O e
    if O.quoteSize < O.neededSize then some (sgxErrorOutOfMemory, O.quoteBuffer, pk)
    -- the id is read at its full size
    else if spid.length < sgxSpidSize then none
    else if O.getQuote ≠ 0 then some (O.getQuote, O.quoteBuffer, pk)
    else some (0, O.makeQuote report spid, pk)

def sgxccGetPk (e : EccEnclave) : ℤ × Bytes :=
  if O.ecallGetPk ≠ 0 then (O.ecallGetPk, O.pubkeyBuffer) else (0, swapFields e.enclavePk)

/-- The buffer is zero in the enclave; its status is not looked at. -/
def sgxccGetTargetInfo : ℤ × Bytes :=
  if O.ecallGetTargetInfo ≠ 0 then (O.ecallGetTargetInfo, O.targetInfoBuffer)
  else if O.createOwnReport ≠ 0 then (0, List.replicate 512 0)
  else (0, O.targetInfo)

/-- The status of the enclave is returned, or what was in its variable before. -/
def sgxccBind (binding : Option (Bytes × Bytes)) (e : EccEnclave) : Option (ℤ × EccEnclave) :=
  -- the report is copied into the enclave at its full size
  if binding.any (fun (report, _) => report.length < sgxReportSize) then none
  else if O.ecallBind ≠ 0 then some (O.bindRet, e)
  else some (ecallBindTlcc O binding e)

/-- The enclave that the stub refers to, the one that was created last, and the keys and quotes that
were registered. -/
structure HostState where
  current : EccEnclave
  created : EccEnclave
  registered : List (Bytes × Bytes)

/-- The library calls of the stub. An invocation is no part of `setup`. -/
def libraryStep (s : HostState) : (c : StubCall) → Option c.Answer × HostState
  | .acquire => (some (), s)
  | .release => (some (), s)
  | .setEid _ => (some (), { s with current := s.created })
  | .sgxccCreateEnclave enclaveFile =>
    (some (sgxccCreateEnclave O enclaveFile).1, { s with created := (sgxccCreateEnclave O enclaveFile).2 })
  | .sgxccGetRemoteAttestationReport spid => (sgxccGetRemoteAttestationReport O spid s.current, s)
  | .sgxccInvoke _ _ => (none, s)
  | .sgxccGetPk => (some (sgxccGetPk O s.current), s)
  | .sgxccGetTargetInfo => (some (sgxccGetTargetInfo O), s)
  | .sgxccBind binding =>
    match sgxccBind O binding s.current with
    | none => (none, s)
    | some (ret, e) => (some ret, { s with current := e })

end

/-- Outcomes with the base point as the key, by the status of the quote and of the report. -/
def demoOutcomes (getQuote verifyReport : ℤ) : SgxOutcomes where
  access _ := true
  createEnclave := 0
  eid := 1
  ecallInit := 0
  openContext := 0
  createKeyPair := 0
  enclavePk := AffinePoint.base.sgxBytes
  genuine _ := ⟨_, rfl⟩
  sha256 b := b.take 32
  hashEnclavePk := 0
  initQuote := 0
  ecallCreateReport := 0
  createReport := 0
  makeReport data := List.replicate 320 0 ++ data ++ List.replicate 48 0
  quoteSize := 1116
  neededSize := 1116
  getQuote := getQuote
  makeQuote report spid := spid ++ report
  quoteBuffer := []
  pubkeyBuffer := []
  ecallGetPk := 0
  ecallGetTargetInfo := 0
  createOwnReport := 0
  targetInfo := List.replicate 512 0
  targetInfoBuffer := []
  ecallBind := 0
  bindRet := 0
  hashTlccPk := 0
  hashBuffer := []
  verifyReport _ := verifyReport

/-- The calls of `setup`: those of the stub, and those to `ercc` and `tlcc`. -/
inductive SetupCall
  | stub (c : StubCall)
  | getSPID (erccName channelName : Bytes)
  | registerEnclave (erccName channelName enclavePkBase64 quoteBase64 : Bytes)
  | getReport (tlccName channelName targetInfo : Bytes)

@[reducible] def SetupCall.Answer : SetupCall → Type
  | .stub c => c.Answer
  | .getSPID _ _ => Except String Bytes
  | .registerEnclave _ _ _ _ => Except String Unit
  | .getReport _ _ _ => Except String (Option Bytes × Option Bytes)

abbrev SetupProgram := Program SetupCall SetupCall.Answer

def setupCall (c : SetupCall) : SetupProgram c.Answer := Program.request c

def ofStub {α : Type} : StubProgram α → SetupProgram α
  | .done a => .done a
  | .fault => .fault
  | .call c next => .call (.stub c) (fun a => ofStub (next a))

/-- What `ercc` and `tlcc` answer. -/
structure SetupPeers where
  getSPID : Except String Bytes
  registerEnclave : Bytes → Bytes → Except String Unit
  getReport : Bytes → Except String (Option Bytes × Option Bytes)

def setupStep (O : SgxOutcomes) (peers : SetupPeers) (s : HostState) : (c : SetupCall) → Option c.Answer × HostState
  | .stub c => libraryStep O s c
  | .getSPID _ _ => (some peers.getSPID, s)
  | .registerEnclave _ _ enclavePkBase64 quoteBase64 =>
    match peers.registerEnclave enclavePkBase64 quoteBase64 with
    | .error err => (some (.error err), s)
    | .ok _ => (some (.ok ()), { s with registered := s.registered ++ [(enclavePkBase64, quoteBase64)] })
  | .getReport _ _ targetInfo => (some (peers.getReport targetInfo), s)

/-- Go on with the result, or return the error in a text of its own. -/
def orReturn {α β : Type} (text : String → String) (p : SetupProgram (Except String α))
    (next : α → SetupProgram (Except String β)) : SetupProgram (Except String β) :=
  p >>= fun r => match r with
    | .error err => pure (.error (text err))
    | .ok a => next a

def enclaveLibFile : Bytes := str "enclave/lib/enclave.signed.so"

section
variable {ρ : Type} (X : PkixLibs ρ)

/-- The name of `ercc` is the second argument. -/
def setup (hasEnclave : Bool) (args : List Bytes) (channelName : Bytes) : SetupProgram (Except String Bytes) := do
  let erccName ← Program.orFault args[1]?
  if !hasEnclave then return .error "ecc: Enclave has already been initialized! Destroy first!!"
  else
    orReturn ("ecc: Error while creating enclave " ++ ·) (ofStub (StubImpl.create enclaveLibFile)) fun _ =>
    orReturn id (setupCall (.getSPID erccName channelName)) fun spid =>
    orReturn ("ecc: Error while creating attestation report: " ++ ·)
      (ofStub (StubImpl.getRemoteAttestationReport X spid)) fun (quoteAsBytes, enclavePk) =>
    orReturn id (setupCall (.registerEnclave erccName channelName (base64Encode enclavePk)
      (base64Encode quoteAsBytes))) fun _ =>
    orReturn ("Error while getting target info: " ++ ·) (ofStub StubImpl.getTargetInfo) fun eccTargetInfo =>
    orReturn id (setupCall (.getReport (str "tlcc") channelName eccTargetInfo)) fun (tlccReport, tlccPk) =>
    orReturn ("Error while binding: " ++ ·) (ofStub (StubImpl.bind X tlccReport tlccPk)) fun _ =>
    pure (.ok (base64Encode enclavePk))

end

end SecureChaincode
