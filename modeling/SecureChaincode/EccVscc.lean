import SecureChaincode.EnclaveSignature
import SecureChaincode.PeerMessages
import SecureChaincode.ReportTexts
import SecureChaincode.SgxKeys

/-! The validation plugin of `ecc`: it checks that a registered enclave has signed the
arguments, the response and the read and write sets of an action. -/
namespace SecureChaincode

open Std

/-- `utils.Response`. -/
structure Response where
  responseData : Bytes
  signature : Bytes
  publicKey : Bytes

/-- `VSCCECC`, with the library functions that it calls. -/
structure VSCCECC where
  verifier : Bytes → Bytes → List Bytes → List Bytes → Bytes → Bytes → Except String Bool
  fetchState : Except String ChannelState
  sum256 : Bytes → Bytes
  jsonUnmarshal : Bytes → Except String Response

/-- `sort.Strings`. -/
def sortStrings (l : List Bytes) : List Bytes := l.mergeSort (fun a b => (compare a b).isLE)

/-- The keys of the point reads, then those of the range queries. A query without raw
reads is a nil pointer. -/
def readKeys (kv : Peer.KVRWSet) : Go (List Bytes) := do
  let ranges ← kv.rangeQueriesInfo.mapM (fun rqi => orPanic rqi.rawReads)
  return (kv.reads ++ ranges.flatten).map (fun r => transformToSGX r.key)

def writeKeys (kv : Peer.KVRWSet) : List Bytes := kv.writes.map (fun w => transformToSGX w.key)

/-- The last write of a key stays. -/
def writesetMap (kv : Peer.KVRWSet) : ExtTreeMap Bytes Bytes compare :=
  kv.writes.foldl (fun m w => m.insert (transformToSGX w.key) w.value) ∅

/-- The read set that is rebuilt for the verifier. -/
def readset (kv : Peer.KVRWSet) : Go (List Bytes) := do
  return sortStrings (← readKeys kv)

/-- The write set that is rebuilt for the verifier: every key is followed by its value. -/
def writeset (kv : Peer.KVRWSet) : List Bytes :=
  (sortStrings (writeKeys kv)).flatMap (fun k => [k, ((writesetMap kv)[k]?).getD []])

/-- The name of a public key in the registry. -/
def registryName (sum256 : Bytes → Bytes) (publicKey : Bytes) : Bytes := base64Encode (sum256 publicKey)

def signatureError : String := "Response invalid! Signature verification failed!"

/-- The checks of a response, for the reads and writes of `kv`. -/
def checkResponse (V : VSCCECC) (state : ChannelState) (kv : Peer.KVRWSet) (args payload : Bytes) : Go Unit := do
  let response ← (V.jsonUnmarshal payload).mapError
    (fun err => .error ("Unmarshalling of SGX response failed, err: " ++ err))
  match state.getState (str "ercc") (registryName V.sum256 response.publicKey) with
  | .ok (some _) =>
    let readset ← readset kv
    let isValid ← (V.verifier args response.responseData readset (writeset kv)
      response.signature response.publicKey).mapError
        (fun err => .error (signatureError ++ " Error: " ++ err))
    if isValid then return () else .error (.error signatureError)
  | _ => .error (.error "Enclave PK not found in registry")

/-- One round of the loop over the namespaces. -/
def checkNamespace (V : VSCCECC) (state : ChannelState) (cis : Peer.ChaincodeInvocationSpec)
    (respPayload : Peer.ChaincodeAction) (ns : Peer.NsRwSet) : Go Unit := do
  if ns.nameSpace ≠ str "ecc" then return ()
  else
    let spec ← orPanic cis.chaincodeSpec
    let args ← orPanic ((← orPanic spec.input)[0]?)
    let payload ← orPanic respPayload.response
    checkResponse V state ns.kvRwSet args payload

def checkEnclaveEndorsement (V : VSCCECC) (cis : Peer.ChaincodeInvocationSpec)
    (respPayload : Peer.ChaincodeAction) : Go Unit := do
  let state ← V.fetchState.mapError (fun err => .error ("Fetch channel state failed, err " ++ err))
  let txRWSet ← respPayload.results.get
  txRWSet.forM (checkNamespace V state cis respPayload)

/-- The invocation and the chaincode action of an action. -/
def unwrapEccAction (act : Wire Peer.ChaincodeActionPayload) :
    Go (Peer.ChaincodeInvocationSpec × Peer.ChaincodeAction) := do
  let (cap, ccAction) ← getCcAction act
  let cpp ← cap.chaincodeProposalPayload.get
  let cis ← cpp.input.get
  return (cis, ccAction)

/-- One round of the loop over the actions. -/
def validateEccAction (V : VSCCECC) (act : Wire Peer.ChaincodeActionPayload) : Go Unit := do
  let (cis, ccAction) ← unwrapEccAction act
  checkEnclaveEndorsement V cis ccAction

/-- `VSCCECC.Validate`. -/
def validateEcc (V : VSCCECC) (envelope : Wire Peer.Envelope) : Go Unit := do
  let tx ← getTransaction envelope
  tx.actions.forM (validateEccAction V)

/-- The read/write sets of an action that belong to `ecc`. -/
def eccSets (ccAction : Peer.ChaincodeAction) : List Peer.KVRWSet :=
  match ccAction.results.unmarshal with
  | .ok txRWSet => (txRWSet.filter (fun ns => ns.nameSpace == str "ecc")).map Peer.NsRwSet.kvRwSet
  | .error _ => []

/-- The arguments of an invocation, as the plugin takes them. -/
def arguments (cis : Peer.ChaincodeInvocationSpec) : Option Bytes :=
  cis.chaincodeSpec.bind (fun spec => spec.input.bind (fun inputs => inputs[0]?))

/-- The response of the action names a registered key, and its signature holds under this
key for the arguments, the response data and the reads and writes of `kv`. -/
def EndorsedFor (V : VSCCECC) (cis : Peer.ChaincodeInvocationSpec) (ccAction : Peer.ChaincodeAction)
    (kv : Peer.KVRWSet) : Prop :=
  ∃ spec inputs args payload response state attestation reads,
    cis.chaincodeSpec = some spec ∧ spec.input = some inputs ∧ inputs[0]? = some args ∧
      ccAction.response = some payload ∧ V.jsonUnmarshal payload = .ok response ∧
      V.fetchState = .ok state ∧
      state.getState (str "ercc") (registryName V.sum256 response.publicKey) = .ok (some attestation) ∧
      readset kv = .ok reads ∧
      V.verifier args response.responseData reads (writeset kv) response.signature response.publicKey =
        .ok true

/-- An action that an enclave has endorsed, with all that it has read and written in `ecc`;
without an entry of `ecc` this is nothing. -/
def Endorsed (V : VSCCECC) (act : Wire Peer.ChaincodeActionPayload) : Prop :=
  ∃ cis ccAction, unwrapEccAction act = .ok (cis, ccAction) ∧
    if eccSets ccAction = [] then EndorsedFor V cis ccAction ⟨[], [], []⟩
    else ∀ kv ∈ eccSets ccAction, EndorsedFor V cis ccAction kv

/-- The action has an entry of the namespace `ecc`. -/
def HasEccEntry (act : Wire Peer.ChaincodeActionPayload) : Prop :=
  ∃ cis ccAction, unwrapEccAction act = .ok (cis, ccAction) ∧ eccSets ccAction ≠ []

theorem orPanic_eq_ok {α : Type} {p : Option α} {a : α} (h : orPanic p = .ok a) : p = some a := by
  cases p with
  | none => cases h
  | some b =>
    cases h
    rfl

/-- A namespace of `ecc` is passed only with an endorsement. -/
theorem checkNamespace_ok {V : VSCCECC} {state : ChannelState} {cis : Peer.ChaincodeInvocationSpec}
    {ccAction : Peer.ChaincodeAction} {ns : Peer.NsRwSet} (hs : V.fetchState = .ok state)
    (hns : ns.nameSpace = str "ecc") (h : checkNamespace V state cis ccAction ns = .ok ()) :
    EndorsedFor V cis ccAction ns.kvRwSet := by
  rw [checkNamespace, if_neg (not_not.mpr hns)] at h
  obtain ⟨spec, hspec, h⟩ := bind_eq_ok h
  obtain ⟨inputs, hinputs, h⟩ := bind_eq_ok h
  obtain ⟨args, hargs, h⟩ := bind_eq_ok h
  obtain ⟨payload, hpayload, h⟩ := bind_eq_ok h
  obtain ⟨response, hresponse, h⟩ := bind_eq_ok h
  -- the key is registered, or the round ends with an error
  cases ha : state.getState (str "ercc") (registryName V.sum256 response.publicKey) with
  | error e =>
    rw [ha] at h
    cases h
  | ok attestation =>
    rw [ha] at h
    cases attestation with
    | none => cases h
    | some attestation =>
      obtain ⟨reads, hreads, h⟩ := bind_eq_ok h
      obtain ⟨isValid, hvalid, h⟩ := bind_eq_ok h
      cases isValid with
      | false => cases h
      | true =>
        exact ⟨spec, inputs, args, payload, response, state, attestation, reads, orPanic_eq_ok hspec,
          orPanic_eq_ok hinputs, orPanic_eq_ok hargs, orPanic_eq_ok hpayload, mapError_eq_ok hresponse,
          hs, ha, hreads, mapError_eq_ok hvalid⟩

/-- With an endorsement a namespace is passed. -/
theorem checkNamespace_of_endorsed {V : VSCCECC} {state : ChannelState} {cis : Peer.ChaincodeInvocationSpec}
    {ccAction : Peer.ChaincodeAction} {ns : Peer.NsRwSet} (hs : V.fetchState = .ok state)
    (hns : ns.nameSpace = str "ecc") (h : EndorsedFor V cis ccAction ns.kvRwSet) :
    checkNamespace V state cis ccAction ns = .ok () := by
  obtain ⟨spec, inputs, args, payload, response, state', attestation, reads, hspec, hinputs, hargs, hpayload,
    hresponse, hs', ha, hreads, hvalid⟩ := h
  obtain rfl : state = state' := Except.ok.inj (hs.symm.trans hs')
  rw [checkNamespace, if_neg (not_not.mpr hns), hspec, hpayload]
  simp only [checkResponse, orPanic, bind, Except.bind, hinputs, hargs, hresponse, Except.mapError, ha, hreads, hvalid, if_true]
  rfl

/-- Other namespaces are passed over. -/
theorem checkNamespace_other (V : VSCCECC) (state : ChannelState) (cis : Peer.ChaincodeInvocationSpec)
    (ccAction : Peer.ChaincodeAction) {ns : Peer.NsRwSet} (hns : ns.nameSpace ≠ str "ecc") :
    checkNamespace V state cis ccAction ns = .ok () := by
  rw [checkNamespace, if_pos hns]
  rfl

theorem mem_eccSets {ccAction : Peer.ChaincodeAction} {txRWSet : List Peer.NsRwSet}
    (hrw : ccAction.results.unmarshal = .ok txRWSet) {kv : Peer.KVRWSet} :
    kv ∈ eccSets ccAction ↔ ∃ ns ∈ txRWSet, ns.nameSpace = str "ecc" ∧ ns.kvRwSet = kv := by
  rw [eccSets, hrw]
  simp only [List.mem_map, List.mem_filter, beq_iff_eq]
  constructor
  · rintro ⟨ns, ⟨hns, hecc⟩, hkv⟩
    exact ⟨ns, hns, hecc, hkv⟩
  · rintro ⟨ns, hns, hecc, hkv⟩
    exact ⟨ns, ⟨hns, hecc⟩, hkv⟩

/-- Every entry of `ecc` in an action that is passed has an endorsement. -/
theorem checkEnclaveEndorsement_ok {V : VSCCECC} {cis : Peer.ChaincodeInvocationSpec}
    {ccAction : Peer.ChaincodeAction} (h : checkEnclaveEndorsement V cis ccAction = .ok ())
    {kv : Peer.KVRWSet} (hkv : kv ∈ eccSets ccAction) : EndorsedFor V cis ccAction kv := by
  rw [checkEnclaveEndorsement] at h
  obtain ⟨state, hs, h⟩ := bind_eq_ok h
  obtain ⟨txRWSet, hrw, h⟩ := bind_eq_ok h
  obtain ⟨ns, hns, hecc, rfl⟩ := (mem_eccSets (mapError_eq_ok hrw)).mp hkv
  exact checkNamespace_ok (mapError_eq_ok hs) hecc (forM_eq_ok_mem h hns)

/-- An action is passed when all its entries of `ecc` have an endorsement. -/
theorem checkEnclaveEndorsement_of_endorsed {V : VSCCECC} {state : ChannelState}
    (hs : V.fetchState = .ok state) {cis : Peer.ChaincodeInvocationSpec} {ccAction : Peer.ChaincodeAction}
    {txRWSet : List Peer.NsRwSet} (hrw : ccAction.results.unmarshal = .ok txRWSet)
    (hecc : ∀ kv ∈ eccSets ccAction, EndorsedFor V cis ccAction kv) :
    checkEnclaveEndorsement V cis ccAction = .ok () := by
  have hround : ∀ ns ∈ txRWSet, checkNamespace V state cis ccAction ns = .ok () := by
    intro ns hns
    by_cases he : ns.nameSpace = str "ecc"
    · exact checkNamespace_of_endorsed hs he (hecc _ ((mem_eccSets hrw).mpr ⟨ns, hns, he, rfl⟩))
    · exact checkNamespace_other V state cis ccAction he
  rw [checkEnclaveEndorsement, hs, Wire.get, hrw]
  exact forM_eq_ok_of_forall hround

/-- An action without an entry of `ecc` is passed whatever its response says. -/
theorem checkEnclaveEndorsement_without_ecc (V : VSCCECC) {state : ChannelState}
    (hs : V.fetchState = .ok state) (cis : Peer.ChaincodeInvocationSpec)
    {ccAction : Peer.ChaincodeAction} {txRWSet : List Peer.NsRwSet}
    (hrw : ccAction.results.unmarshal = .ok txRWSet) (hecc : eccSets ccAction = []) :
    checkEnclaveEndorsement V cis ccAction = .ok () := by
  apply checkEnclaveEndorsement_of_endorsed hs hrw
  intro kv hkv
  rw [hecc] at hkv
  exact absurd hkv List.not_mem_nil

/-- A channel without an entry. -/
def emptyChannel : ChannelState := ⟨fun _ _ => .ok []⟩

/-- A validator that finds no key registered and no signature valid. -/
def refusingVscc : VSCCECC where
  verifier _ _ _ _ _ _ := .ok false
  fetchState := .ok emptyChannel
  sum256 := id
  jsonUnmarshal _ := .error "invalid character"

theorem not_endorsed_refusingVscc (cis : Peer.ChaincodeInvocationSpec)
    (ccAction : Peer.ChaincodeAction) (kv : Peer.KVRWSet) : ¬EndorsedFor refusingVscc cis ccAction kv := by
  rintro ⟨spec, inputs, args, payload, response, state, attestation, reads, -, -, -, -, hjson, -⟩
  cases hjson

/-- In a transaction that is accepted, every action with an entry of `ecc` is endorsed by an
enclave. An action without one is accepted by a validator that refuses every response. -/
theorem accepted_actions_endorsed (V : VSCCECC) (envelope : Wire Peer.Envelope) (tx : Peer.Transaction)
    (ht : getTransaction envelope = .ok tx) (h : validateEcc V envelope = .ok ()) :
    (∀ act ∈ tx.actions, HasEccEntry act → Endorsed V act) ∧
      ∀ act ∈ tx.actions, ¬HasEccEntry act →
        validateEccAction refusingVscc act = .ok () ∧ ¬Endorsed refusingVscc act := by
  rw [validateEcc, ht] at h
  have hround (act : Wire Peer.ChaincodeActionPayload) (hact : act ∈ tx.actions) :
      validateEccAction V act = .ok () := forM_eq_ok_mem h hact
  refine ⟨?_, ?_⟩
  · rintro act hact ⟨cis, ccAction, hu, hecc⟩
    refine ⟨cis, ccAction, hu, ?_⟩
    rw [if_neg hecc]
    intro kv hkv
    have hcheck := hround act hact
    rw [validateEccAction, hu] at hcheck
    exact checkEnclaveEndorsement_ok hcheck hkv
  · intro act hact hno
    -- the messages decode, since the validator has got through them
    obtain ⟨⟨cis, ccAction⟩, hu, hcheck⟩ := bind_eq_ok (hround act hact)
    have hecc : eccSets ccAction = [] := by
      by_contra hne
      exact hno ⟨cis, ccAction, hu, hne⟩
    obtain ⟨state, -, hcheck⟩ := bind_eq_ok hcheck
    obtain ⟨txRWSet, hrw, -⟩ := bind_eq_ok hcheck
    refine ⟨?_, ?_⟩
    · rw [validateEccAction, hu]
      exact checkEnclaveEndorsement_without_ecc refusingVscc rfl cis (mapError_eq_ok hrw) hecc
    · rintro ⟨cis', ccAction', hu', hend⟩
      rw [hu] at hu'
      cases hu'
      rw [if_pos hecc] at hend
      exact not_endorsed_refusingVscc cis ccAction _ hend

/-- A message that decodes. -/
def wire {α : Type} (m : α) : Wire α := ⟨.ok m⟩

/-- A transaction of one action, with the arguments, response and read/write set given. -/
def peerEnvelope (args : List Bytes) (response : Bytes) (txRWSet : List Peer.NsRwSet) :
    Wire Peer.Envelope :=
  wire ⟨wire ⟨wire ⟨[wire
    { action := some (wire ⟨wire ⟨wire txRWSet, some response⟩⟩)
      chaincodeProposalPayload := wire ⟨wire ⟨some ⟨some args⟩⟩⟩ }]⟩⟩⟩

/-! The JSON text of a response. -/

/-- `json.Marshal` of a response: Go writes bytes in base64. -/
def jsonMarshal (r : Response) : Bytes :=
  str "\x7b\"ResponseData\":\"" ++ base64Encode r.responseData ++ str "\",\"Signature\":\"" ++
    base64Encode r.signature ++ str "\",\"PublicKey\":\"" ++ base64Encode r.publicKey ++ str "\"\x7d"

def responseMembers (r : Response) : List (Bytes × Bytes) :=
  [(str "ResponseData", base64Encode r.responseData), (str "Signature", base64Encode r.signature),
    (str "PublicKey", base64Encode r.publicKey)]

theorem jsonMarshal_eq (r : Response) : jsonMarshal r = textObject (responseMembers r) := by
  simp [jsonMarshal, textObject, textMember, responseMembers, Member.print, commaSeparated, quoted, str]

/-- parson finds the three members. -/
theorem parsonGetString_jsonMarshal (libc : Libc) (rest : Bytes) {r : Response} {name value : Bytes}
    (h : (name, value) ∈ responseMembers r) : parsonGetString libc rest (jsonMarshal r) name = some value := by
  have hdata : PlainText (str "ResponseData") := plainText_str (by decide)
  have hsignature : PlainText (str "Signature") := plainText_str (by decide)
  have hkey : PlainText (str "PublicKey") := plainText_str (by decide)
  have hplain : ∀ m ∈ responseMembers r, PlainText m.1 ∧ PlainText m.2 := by
    intro m hm
    simp only [responseMembers, List.mem_cons, List.not_mem_nil, or_false] at hm
    rcases hm with rfl | rfl | rfl
    · exact ⟨hdata, plainText_base64Encode _⟩
    · exact ⟨hsignature, plainText_base64Encode _⟩
    · exact ⟨hkey, plainText_base64Encode _⟩
  have hnew : ((responseMembers r).map Prod.fst).Nodup := by
    simp only [responseMembers, List.map_cons, List.map_nil]
    decide
  rw [jsonMarshal_eq]
  exact parsonGetString_textObject libc rest hplain hnew h

theorem data_mem_responseMembers (r : Response) :
    (str "ResponseData", base64Encode r.responseData) ∈ responseMembers r := List.mem_cons_self

theorem signature_mem_responseMembers (r : Response) :
    (str "Signature", base64Encode r.signature) ∈ responseMembers r := List.mem_cons_of_mem _ List.mem_cons_self

theorem publicKey_mem_responseMembers (r : Response) :
    (str "PublicKey", base64Encode r.publicKey) ∈ responseMembers r :=
  List.mem_cons_of_mem _ (List.mem_cons_of_mem _ List.mem_cons_self)

/-- `json.Unmarshal` of a response, for texts with all three members. -/
def unmarshalResponse (payload : Bytes) : Except String Response :=
  match parsonGetString signedLibc [] payload (str "ResponseData"),
    parsonGetString signedLibc [] payload (str "Signature"),
    parsonGetString signedLibc [] payload (str "PublicKey") with
  | some responseData, some signature, some publicKey =>
    .ok ⟨base64Decode responseData, base64Decode signature, base64Decode publicKey⟩
  | _, _, _ => .error "unexpected end of JSON input"

theorem unmarshalResponse_jsonMarshal (r : Response) : unmarshalResponse (jsonMarshal r) = .ok r := by
  simp only [unmarshalResponse, parsonGetString_jsonMarshal signedLibc [] (data_mem_responseMembers r),
    parsonGetString_jsonMarshal signedLibc [] (signature_mem_responseMembers r),
    parsonGetString_jsonMarshal signedLibc [] (publicKey_mem_responseMembers r), base64Decode_base64Encode]

/-- A response with the text `OK`, with a signature and a public key in DER. -/
def okResponse : Response := ⟨str "OK", shortSignature, generatorPk⟩

/-! A channel with one registered key, under which one signature was made. -/

/-- The first 32 bytes, in the place of a hash. -/
def firstBytes (b : Bytes) : Bytes := (b ++ List.replicate 32 0).take 32

/-- The registry with the generator in it. -/
def generatorChannel : ChannelState where
  getStateMultipleKeys ns keys := .ok (keys.map (fun key =>
    if ns = str "ercc" ∧ key = registryName firstBytes generatorPk then some (str "attestation") else none))

/-- What a bid reads and writes. -/
def bidSet : Peer.KVRWSet := ⟨[⟨str "a"⟩], [], [⟨str "\x00a\x00x\x00", str "5"⟩]⟩

theorem readset_bidSet : readset bidSet = .ok [str "a"] := by
  have hkeys : readKeys bidSet = .ok [str "a"] := rfl
  rw [readset, hkeys]
  simp [sortStrings, bind, Except.bind, pure, Except.pure]

theorem writeset_bidSet : writeset bidSet = [str ".a.x.", str "5"] := by
  have hkey : transformToSGX (str "\x00a\x00x\x00") = str ".a.x." := by decide
  simp [writeset, writeKeys, writesetMap, bidSet, sortStrings, hkey]

/-- A validator for which one signature is valid, that of the bid. -/
def bidVscc (state : ChannelState) : VSCCECC where
  verifier := verify shortDer IdealHash.numbered (signedOnly (str "bid") (str "OK") [str "a"] [str ".a.x.", str "5"])
  fetchState := .ok state
  sum256 := firstBytes
  jsonUnmarshal := unmarshalResponse

/-- The chaincode action of the bid. -/
def bidCcAction : Peer.ChaincodeAction := ⟨wire [⟨str "ecc", bidSet⟩], some (jsonMarshal okResponse)⟩

def bidAction : Wire Peer.ChaincodeActionPayload := wire
  { action := some (wire ⟨wire bidCcAction⟩)
    chaincodeProposalPayload := wire ⟨wire ⟨some ⟨some [str "bid"]⟩⟩⟩ }

def bidEnvelope : Wire Peer.Envelope := wire ⟨wire ⟨wire ⟨[bidAction]⟩⟩⟩

section
variable {state : ChannelState} {attestation : Bytes}
  (h : state.getState (str "ercc") (registryName firstBytes generatorPk) = .ok (some attestation))
include h

theorem endorsedFor_bidSet : EndorsedFor (bidVscc state) ⟨some ⟨some [str "bid"]⟩⟩ bidCcAction bidSet := by
  have hjson : (bidVscc state).jsonUnmarshal (jsonMarshal okResponse) = .ok okResponse := by
    have hfield : (bidVscc state).jsonUnmarshal = unmarshalResponse := rfl
    rw [hfield, unmarshalResponse_jsonMarshal]
  have hverify : (bidVscc state).verifier (str "bid") okResponse.responseData [str "a"] (writeset bidSet)
      okResponse.signature okResponse.publicKey = .ok true := by
    rw [writeset_bidSet]
    exact verify_signedOnly rfl
  exact ⟨_, _, str "bid", jsonMarshal okResponse, okResponse, state, attestation, [str "a"], rfl, rfl, rfl, rfl, hjson,
    rfl, h, readset_bidSet, hverify⟩

/-- The bid is accepted where the key of its signature is registered. -/
theorem validateEcc_bidEnvelope : validateEcc (bidVscc state) bidEnvelope = .ok () := by
  have htx : getTransaction bidEnvelope = .ok ⟨[bidAction]⟩ := rfl
  have hunwrap : unwrapEccAction bidAction = .ok (⟨some ⟨some [str "bid"]⟩⟩, bidCcAction) := rfl
  have hresults : bidCcAction.results.unmarshal = .ok [⟨str "ecc", bidSet⟩] := rfl
  have hcheck : checkEnclaveEndorsement (bidVscc state) ⟨some ⟨some [str "bid"]⟩⟩ bidCcAction = .ok () := by
    apply checkEnclaveEndorsement_of_endorsed rfl hresults
    intro kv hkv
    obtain ⟨ns, hns, -, rfl⟩ := (mem_eccSets hresults).mp hkv
    rw [List.mem_singleton.mp hns]
    exact endorsedFor_bidSet h
  have hact : [bidAction].forM (validateEccAction (bidVscc state)) = .ok () := by
    refine forM_eq_ok_of_forall (List.forall_mem_singleton.mpr ?_)
    simp only [validateEccAction, hunwrap, bind, Except.bind, hcheck]
  simp only [validateEcc, htx, bind, Except.bind, hact]

end

theorem getState_generatorChannel :
    generatorChannel.getState (str "ercc") (registryName firstBytes generatorPk) = .ok (some (str "attestation")) := by
  simp [ChannelState.getState, generatorChannel]

theorem bid_action_endorsed :
    validateEcc (bidVscc generatorChannel) bidEnvelope = .ok () ∧ HasEccEntry bidAction ∧
      Endorsed (bidVscc generatorChannel) bidAction := by
  have hv := validateEcc_bidEnvelope getState_generatorChannel
  have hecc : HasEccEntry bidAction := ⟨_, _, rfl, nofun⟩
  exact ⟨hv, hecc, (accepted_actions_endorsed _ _ _ rfl hv).1 _ List.mem_cons_self hecc⟩

/-- An action that writes in another namespace is accepted with a response that is none. -/
theorem foreign_action_accepted :
    validateEcc refusingVscc
        (peerEnvelope [str "bid"] [] [⟨str "other", [], [], [⟨str "k", str "v"⟩]⟩]) = .ok () ∧
      ∃ tx act, getTransaction (peerEnvelope [str "bid"] [] [⟨str "other", [], [], [⟨str "k", str "v"⟩]⟩]) =
          .ok tx ∧ act ∈ tx.actions ∧ ¬Endorsed refusingVscc act := by
  refine ⟨rfl, _, _, rfl, List.mem_cons_self, ?_⟩
  rintro ⟨cis, ccAction, hu, hend⟩
  cases hu
  exact not_endorsed_refusingVscc _ _ _ hend

end SecureChaincode
