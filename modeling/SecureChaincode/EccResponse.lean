import SecureChaincode.EccVscc
import SecureChaincode.EndorserTransaction

/-! The response of `ecc` in an action: what parson finds in its JSON text when the ledger enclave
unmarshals it. -/
namespace SecureChaincode

/-- No certificates, and the members that parson finds. -/
def parsonLibs : Libs := ⟨fun _ => false, parsonGetString signedLibc []⟩

/-- The ledger enclave gets the three members back, if they fit its buffers. -/
theorem unmarshalEccResponse_jsonMarshal {libs : Libs} {libc : Libc} {r : Response}
    (hparson : ∀ json name, ∃ rest, libs.jsonGetString json name = parsonGetString libc rest json name)
    (hdata : r.responseData.length ≤ 96) (hsignature : r.signature.length ≤ 96)
    (hkey : r.publicKey.length ≤ 96) :
    unmarshalEccResponse libs (jsonMarshal r) = .ok (r.responseData, r.signature, r.publicKey) := by
  have hmember {name value : Bytes} (h : (name, value) ∈ responseMembers r) :
      libs.jsonGetString (jsonMarshal r) name = some value := by
    obtain ⟨rest, hrest⟩ := hparson (jsonMarshal r) name
    rw [hrest, parsonGetString_jsonMarshal libc rest h]
  simp only [unmarshalEccResponse, hmember (data_mem_responseMembers r), hmember (signature_mem_responseMembers r),
    hmember (publicKey_mem_responseMembers r), deref, bind, Except.bind, base64Decode_base64Encode, if_pos hdata,
    if_pos hsignature, if_pos hkey, pure, Except.pure]

theorem unmarshalEccResponse_okResponse :
    unmarshalEccResponse parsonLibs (jsonMarshal okResponse) = .ok (str "OK", shortSignature, generatorPk) :=
  @unmarshalEccResponse_jsonMarshal parsonLibs signedLibc okResponse (fun _ _ => ⟨[], rfl⟩) (by decide) (by decide)
    (by decide)

theorem validateEccTx_okResponse (function chaincodeName : Bytes) (results : Option (Encoded TxReadWriteSet)) :
    validateEccTx parsonLibs function ⟨results, some (jsonMarshal okResponse), some chaincodeName⟩ = .ok () := by
  simp only [validateEccTx, deref, bind, Except.bind, unmarshalEccResponse_okResponse]
  split_ifs
  · rfl
  · rfl

/-! What the parser does with an action depends on the libraries only in the check of its
response. -/

/-- Libraries between which an action shows no difference. -/
def SameAnswer (libs libs' : Libs) (a : TransactionAction) : Prop :=
  ∀ function ccAction, unwrapAction a = .ok (function, ccAction) →
    validateEccTx libs function ccAction = validateEccTx libs' function ccAction

section
variable {libs libs' : Libs}

theorem parseAction_congr {a : TransactionAction} (h : SameAnswer libs libs' a) (state : Kvs)
    (version : Version) (s : TxState) :
    parseAction libs state version s a = parseAction libs' state version s a := by
  rw [parseAction, parseAction]
  cases hun : unwrapAction a with
  | error e => rfl
  | ok p =>
    have hp := h p.1 p.2 hun
    simp only [leaving, Except.mapError, bind, Except.bind, hp]

theorem parseEndorserTransaction_congr {t : Transaction} (h : ∀ a ∈ t.actions, SameAnswer libs libs' a)
    (state updates : Kvs) (version : Version) :
    parseEndorserTransaction libs state ⟨some t⟩ updates version =
      parseEndorserTransaction libs' state ⟨some t⟩ updates version := by
  have hloop := foldlM_congr (fun s a ha => parseAction_congr (h a ha) state version s) ⟨updates, true⟩
  simp only [parseEndorserTransaction, hloop]

end

end SecureChaincode
