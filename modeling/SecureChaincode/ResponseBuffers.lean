import SecureChaincode.RecordStore
import SecureChaincode.SignatureFormats
import SecureChaincode.ThreeWay

/-! The response of an invocation on its way from the chaincode `ecc` to the ledger enclave, which
copies each of its three members into a buffer of 96 bytes. -/
namespace SecureChaincode

section
variable {ρ : Type} (X : PkixLibs ρ)

/-- `EnclaveChaincode.invoke`, once there is an enclave. -/
def EnclaveChaincode.invoke (args pk : Bytes) : StubProgram (Except String Bytes) := do
  match ← StubImpl.invoke X args pk true with
  | .error err => return .error ("ecc: Error while invoking enclave: " ++ err)
  | .ok (responseData, signature) =>
    match ← StubImpl.getPublicKey X with
    | .error err => return .error ("ecc: Error while retrieving enclave pk: " ++ err)
    | .ok enclavePk => return .ok (jsonMarshal ⟨responseData, signature, enclavePk⟩)

/-- The functions of Go write DER. -/
structure PkixLibs.WritesDer : Prop where
  asn1 : ∀ r s, r < 256^32 → s < 256^32 → X.marshalASN1 r s = .ok (derPair r s)
  pkix : ∀ P : AffinePoint, X.marshalPKIXPublicKey P.x P.y = .ok (pkixHeader ++ P.bytes)

variable {X} {S : Type} {step : S → (c : StubCall) → Option c.Answer × S} {s t : S}

theorem run_ofGo_ok {α : Type} {g : Go α} {a : α}
    (h : (ofGo g).run step s = (some (.ok a), t)) : g = .ok a := by
  cases g with
  | ok b => cases h; rfl
  | error e =>
    cases e with
    | error text => cases h
    | panic => cases h

/-- A call of `Invoke` that is successful. -/
theorem stubInvoke_ok {args pk response sig : Bytes}
    (h : (StubImpl.invoke X args pk true).run step s = (some (.ok (response, sig)), t)) :
    ∃ u u' signature, step u (.sgxccInvoke args pk) = (some (0, response, signature), u') ∧
      marshalEnclaveSignature X signature = .ok sig := by
  rw [StubImpl.invoke, if_neg (by decide)] at h
  obtain ⟨_, u, -, h⟩ := Program.run_bind_eq_some h
  obtain ⟨⟨ret, response', signature⟩, u', hcall, h⟩ := Program.run_bind_eq_some h
  obtain ⟨_, u'', -, h⟩ := Program.run_bind_eq_some h
  by_cases hret : ret = 0
  · subst hret
    have hgo := run_ofGo_ok (g := do
      let sig ← marshalEnclaveSignature X signature
      return (response', sig)) h
    obtain ⟨sig', hsig, hpair⟩ := bind_eq_ok hgo
    cases hpair
    exact ⟨u, u', signature, (Program.run_request _ _).symm.trans hcall, hsig⟩
  · simp only [ne_eq, hret, not_false_eq_true, if_true] at h
    cases h

theorem getPublicKey_ok {key : Bytes} (h : (StubImpl.getPublicKey X).run step s = (some (.ok key), t)) :
    ∃ u u' ret pubkey, step u .sgxccGetPk = (some (ret, pubkey), u') ∧ marshalEnclavePk X pubkey = .ok key := by
  rw [StubImpl.getPublicKey] at h
  obtain ⟨_, u, -, h⟩ := Program.run_bind_eq_some h
  obtain ⟨⟨ret, pubkey⟩, u', hcall, h⟩ := Program.run_bind_eq_some h
  obtain ⟨_, u'', -, h⟩ := Program.run_bind_eq_some h
  exact ⟨u, u', ret, pubkey, (Program.run_request _ _).symm.trans hcall, run_ofGo_ok h⟩

/-- An invocation that is successful: the members of the response, and the calls that they come
from. -/
theorem eccInvoke_ok {args pk payload : Bytes}
    (h : (EnclaveChaincode.invoke X args pk).run step s = (some (.ok payload), t)) :
    ∃ r : Response, payload = jsonMarshal r ∧
      (∃ u u' signature, step u (.sgxccInvoke args pk) = (some (0, r.responseData, signature), u') ∧
        marshalEnclaveSignature X signature = .ok r.signature) ∧
      ∃ u u' ret pubkey, step u .sgxccGetPk = (some (ret, pubkey), u') ∧
        marshalEnclavePk X pubkey = .ok r.publicKey := by
  rw [EnclaveChaincode.invoke] at h
  obtain ⟨invoked, u, hinvoke, h⟩ := Program.run_bind_eq_some h
  cases invoked with
  | error err => cases h
  | ok r =>
    obtain ⟨responseData, signature⟩ := r
    obtain ⟨gotten, u', hkey, h⟩ := Program.run_bind_eq_some h
    cases gotten with
    | error err => cases h
    | ok enclavePk =>
      cases h
      exact ⟨⟨responseData, signature, enclavePk⟩, rfl, stubInvoke_ok hinvoke, getPublicKey_ok hkey⟩

/-- Signatures and keys have few bytes in DER. -/
theorem length_signature_le (hX : X.WritesDer) {signature sig : Bytes} (hlen : signature.length = 64)
    (h : marshalEnclaveSignature X signature = .ok sig) : sig.length ≤ 72 := by
  rw [marshalEnclaveSignature] at h
  obtain ⟨⟨first, second⟩, hhalves, h⟩ := bind_eq_ok h
  obtain ⟨_, -, h⟩ := bind_eq_ok h
  obtain ⟨_, -, h⟩ := bind_eq_ok h
  rw [halves, if_neg (by omega)] at hhalves
  cases hhalves
  have hr : ofBigEndian (signature.take 32) < 256^32 := by
    have hlt := ofBigEndian_lt (signature.take 32)
    rwa [List.length_take, Nat.min_eq_left (by omega)] at hlt
  have hs : ofBigEndian (signature.drop 32) < 256^32 := by
    have hlt := ofBigEndian_lt (signature.drop 32)
    rwa [List.length_drop, hlen] at hlt
  have hsig := mapError_eq_ok h
  rw [hX.asn1 _ _ hr hs] at hsig
  cases hsig
  exact length_derPair_le hr hs

theorem length_publicKey (hX : X.WritesDer) {P : AffinePoint} {key : Bytes}
    (h : marshalEnclavePk X P.bytes = .ok key) : key.length = 91 := by
  rw [marshalEnclavePk] at h
  obtain ⟨⟨x, y⟩, hpoint, h⟩ := bind_eq_ok h
  cases (enclavePk2ECDSAPK_bytes P).symm.trans hpoint
  have hkey := mapError_eq_ok h
  rw [hX.pkix] at hkey
  cases hkey
  rw [List.length_append, P.length_bytes]
  rfl

end

section
variable {libs : Libs} {libc : Libc}
  (hparson : ∀ json name, ∃ rest, libs.jsonGetString json name = parsonGetString libc rest json name)
include hparson

theorem unmarshalEccResponse_of_long {r : Response} (hlong : ¬r.responseData.length ≤ 96) :
    unmarshalEccResponse libs (jsonMarshal r) = .error .fault := by
  obtain ⟨rest, hrest⟩ := hparson (jsonMarshal r) (str "ResponseData")
  have hmember : libs.jsonGetString (jsonMarshal r) (str "ResponseData") = some (base64Encode r.responseData) := by
    rw [hrest, parsonGetString_jsonMarshal libc rest (data_mem_responseMembers r)]
  simp only [unmarshalEccResponse, hmember, deref, bind, Except.bind, base64Decode_base64Encode, if_neg hlong]

/-- The ledger enclave gets back what a successful invocation has returned, exactly if the response
of the chaincode has at most 96 bytes. Signature and key always fit. -/
theorem response_held_iff {ρ S : Type} {X : PkixLibs ρ} (hX : X.WritesDer)
    {step : S → (c : StubCall) → Option c.Answer × S} {s t : S} {args pk payload : Bytes}
    (hinvoke : ∀ u u' ret response signature,
      step u (.sgxccInvoke args pk) = (some (ret, response, signature), u') →
        response.length ≤ maxResponseSize ∧ signature.length = 64)
    (hkey : ∀ u u' ret pubkey, step u .sgxccGetPk = (some (ret, pubkey), u') → ∃ P : AffinePoint, pubkey = P.bytes)
    (h : (EnclaveChaincode.invoke X args pk).run step s = (some (.ok payload), t)) :
    ∃ r : Response, payload = jsonMarshal r ∧
      (∃ u u' signature, step u (.sgxccInvoke args pk) = (some (0, r.responseData, signature), u')) ∧
      r.responseData.length ≤ maxResponseSize ∧ r.signature.length ≤ 72 ∧ r.publicKey.length = 91 ∧
      (unmarshalEccResponse libs payload = .ok (r.responseData, r.signature, r.publicKey) ↔
        r.responseData.length ≤ 96) := by
  obtain ⟨r, rfl, ⟨u, u', signature, hcall, hsig⟩, v, v', ret, pubkey, hpk, hpublic⟩ := eccInvoke_ok h
  obtain ⟨hresponse, hlen⟩ := hinvoke u u' 0 _ _ hcall
  obtain ⟨P, rfl⟩ := hkey v v' ret pubkey hpk
  have hsignature := length_signature_le hX hlen hsig
  have hpublicKey := length_publicKey hX hpublic
  refine ⟨r, rfl, ⟨u, u', signature, hcall⟩, hresponse, hsignature, hpublicKey, fun hread => ?_, fun hdata => ?_⟩
  · by_contra hlong
    rw [unmarshalEccResponse_of_long hparson hlong] at hread
    cases hread
  · exact unmarshalEccResponse_jsonMarshal hparson hdata (hsignature.trans (by decide))
      (hpublicKey.le.trans (by decide))

end

/-- The functions of Go as they write signatures and keys. -/
def goPkix : PkixLibs Unit :=
  { derPkix with marshalPKIXPublicKey := fun x y => .ok (pkixHeader ++ (fixedBytes 32 x ++ fixedBytes 32 y)) }

theorem writesDer_goPkix : goPkix.WritesDer := ⟨fun _ _ _ _ => rfl, fun _ => rfl⟩

/-- A library whose enclave gives this response. -/
def answering (response : Bytes) : Unit → (c : StubCall) → Option c.Answer × Unit
  | s, .acquire => (some (), s)
  | s, .release => (some (), s)
  | s, .sgxccInvoke _ _ => (some (0, response, List.replicate 64 1), s)
  | s, .sgxccGetPk => (some (0, AffinePoint.base.bytes), s)
  | s, _ => (none, s)

/-- The signature of 64 ones, in DER. -/
def onesSignature : Bytes :=
  derPair (ofBigEndian (List.replicate 32 1)) (ofBigEndian (List.replicate 32 1))

theorem invoke_answering (response args pk : Bytes) :
    (EnclaveChaincode.invoke goPkix args pk).run (answering response) () =
      (some (.ok (jsonMarshal ⟨response, onesSignature, pkixHeader ++ AffinePoint.base.bytes⟩)), ()) := by
  have hsig : marshalEnclaveSignature goPkix (List.replicate 64 1) = .ok onesSignature := by decide +kernel
  have hkey : marshalEnclavePk goPkix AffinePoint.base.bytes = .ok (pkixHeader ++ AffinePoint.base.bytes) := by
    rw [marshalEnclavePk, enclavePk2ECDSAPK_bytes]
    rfl
  have hinvoke : (StubImpl.invoke goPkix args pk true).run (answering response) () =
      (some (.ok (response, onesSignature)), ()) := by
    change (ofGo (do
      let sig ← marshalEnclaveSignature goPkix (List.replicate 64 1)
      return (response, sig))).run (answering response) () = _
    rw [hsig]
    rfl
  have hpublic : (StubImpl.getPublicKey goPkix).run (answering response) () =
      (some (.ok (pkixHeader ++ AffinePoint.base.bytes)), ()) := by
    change (ofGo (marshalEnclavePk goPkix AffinePoint.base.bytes)).run (answering response) () = _
    rw [hkey]
    rfl
  rw [EnclaveChaincode.invoke, Program.run_bind_of_some hinvoke]
  exact Program.run_bind_of_some hpublic

theorem parson_parsonLibs (json name : Bytes) :
    ∃ rest, parsonLibs.jsonGetString json name = parsonGetString signedLibc rest json name :=
  ⟨[], rfl⟩

theorem answering_invoke {response args pk : Bytes} (hresponse : response.length ≤ maxResponseSize) (u u' : Unit)
    (ret : ℤ) (response' signature : Bytes)
    (h : answering response u (.sgxccInvoke args pk) = (some (ret, response', signature), u')) :
    response'.length ≤ maxResponseSize ∧ signature.length = 64 := by
  cases h
  exact ⟨hresponse, List.length_replicate⟩

theorem answering_getPk {response : Bytes} (u u' : Unit) (ret : ℤ) (pubkey : Bytes)
    (h : answering response u .sgxccGetPk = (some (ret, pubkey), u')) : ∃ P : AffinePoint, pubkey = P.bytes := by
  cases h
  exact ⟨.base, rfl⟩

/-- A short response is held. -/
theorem short_response_held : ∃ r : Response,
    (EnclaveChaincode.invoke goPkix [] []).run (answering (str "OK")) () = (some (.ok (jsonMarshal r)), ()) ∧
      r.responseData = str "OK" ∧
      unmarshalEccResponse parsonLibs (jsonMarshal r) = .ok (r.responseData, r.signature, r.publicKey) := by
  have hrun := invoke_answering (str "OK") [] []
  obtain ⟨r, hpayload, ⟨u, u', signature, hcall⟩, -, -, -, hiff⟩ := response_held_iff parson_parsonLibs writesDer_goPkix
    (answering_invoke (by decide)) answering_getPk hrun
  have hdata : str "OK" = r.responseData :=
    (Prod.mk.inj (Prod.mk.inj (Option.some.inj (Prod.mk.inj hcall).1)).2).1
  rw [hpayload] at hrun hiff
  exact ⟨r, hrun, hdata.symm, hiff.mpr (hdata ▸ by decide)⟩

/-- A response of 97 bytes does not fit, although the enclave may give up to 1024. -/
theorem long_response_overflows : ∃ r : Response,
    (EnclaveChaincode.invoke goPkix [] []).run (answering (List.replicate 97 0x61)) () =
        (some (.ok (jsonMarshal r)), ()) ∧
      r.responseData.length = 97 ∧ 97 ≤ maxResponseSize ∧
      unmarshalEccResponse parsonLibs (jsonMarshal r) = .error .fault := by
  refine ⟨_, invoke_answering _ [] [], List.length_replicate, by decide, ?_⟩
  exact unmarshalEccResponse_of_long parson_parsonLibs (by decide)

end SecureChaincode
