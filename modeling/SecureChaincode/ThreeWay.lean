import SecureChaincode.EnclaveSignature
import SecureChaincode.LedgerView

/-! The bytes that are signed for an auction transaction: in the chaincode enclave, in the
validation plugin and in the ledger enclave. -/
namespace SecureChaincode

open Std

section
variable {η τ σ : Type} {E : Enclave η τ σ} {F : KeyRule} {worldState : Kvs} {name : Bytes}
  {trace : List (Event τ)}

theorem base64Encode_encryptState_ne_nil (n : ℕ) (plain : Bytes) :
    base64Encode (encryptState E n plain) ≠ [] := by
  intro h
  have hdecode := base64Decode_base64Encode (encryptState E n plain)
  have hlen : 12 ≤ (encryptState E n plain).length := by
    simp only [encryptState, List.length_append, E.length_readRand]
    omega
  rw [h] at hdecode
  rw [← hdecode] at hlen
  exact absurd hlen (by decide)

/-- The read/write set of an auction invocation. -/
theorem AuctionTrace.eccShaped (hn : PlainWord name) (h : AuctionTrace E name trace)
    (htidy : TidyState worldState) (hputs : PutsRecorded F trace) :
    EccShaped (simulate F worldState trace) where
  point := by
    intro r hr
    obtain ⟨f, hf, rfl⟩ := List.mem_map.mp hr
    rw [ExtTreeSet.mem_toList, h.mem_simulatedReads hn] at hf
    rw [hf]
    exact ⟨hn.ne_nil, hn.no_nul⟩
  range := by
    intro q hq
    obtain ⟨keys, hkeys, rfl⟩ := List.mem_map.mp hq
    obtain ⟨comp, rfl⟩ := exists_of_mem_simulatedRanges F worldState hkeys
    refine ⟨_, rfl, ?_⟩
    intro r hr
    obtain ⟨f, hf, rfl⟩ := List.mem_map.mp hr
    obtain ⟨item, hitem, rfl⟩ := List.mem_map.mp hf
    exact htidy.composite_of_mem hitem
  write := by
    intro w hw
    obtain ⟨p, hp, rfl⟩ := List.mem_map.mp hw
    rw [ExtTreeMap.mem_toList_iff_getElem?_eq_some] at hp
    obtain ⟨hkey, val, hval⟩ := h.exists_put hn hputs hp
    refine ⟨?_, ?_⟩
    · rcases hkey with hkey | hkey
      · exact Or.inl (hkey ▸ ⟨hn.ne_nil, hn.no_nul⟩)
      · exact Or.inr hkey
    · rw [hval]
      exact base64Encode_encryptState_ne_nil 1 val
  single := by
    rw [simulate, List.length_map, ExtTreeMap.length_toList, simulatedWrites_eq hputs]
    rcases h.puts hn with hnone | ⟨key, val, hone, -⟩
    · rw [hnone]
      exact Nat.zero_le 1
    · rw [hone]
      exact ExtTreeMap.size_insert_le.trans (by simp)

end

/-- A namespace beside that of the chaincode, in which the transaction has only read single keys. -/
structure Bystander (n : Peer.NsRwSet) : Prop where
  ne_nil : n.nameSpace ≠ []
  not_ecc : cstr n.nameSpace ≠ str "ecc"
  not_ercc : cstr n.nameSpace ≠ str "ercc"
  reads : ∀ r ∈ n.kvRwSet.reads, r.key ≠ []
  ranges : n.kvRwSet.rangeQueriesInfo = []
  writes : n.kvRwSet.writes = []

section
variable (version : Bytes → Version) {n : Peer.NsRwSet}

theorem Bystander.nameSpace_ne (hn : Bystander n) : n.nameSpace ≠ str "ecc" := by
  intro he
  apply hn.not_ecc
  rw [he]
  decide

theorem Bystander.nsEccReads (hn : Bystander n) : nsEccReads (pbNs version n) = .ok [] := by
  have hpoints : (n.kvRwSet.reads.map (pbRead version)).mapM (pointKey (cstr n.nameSpace)) =
      .ok (n.kvRwSet.reads.map (fun r => [(simpleName (cstr n.nameSpace) r.key, version r.key)])) := by
    apply mapM_map_eq_ok
    intro r hr
    rw [pointKey, pbRead, pbField_of_ne_nil (hn.reads r hr)]
    rfl
  rw [SecureChaincode.nsEccReads, pbNs, pbField_of_ne_nil hn.ne_nil, hn.ranges]
  simp only [deref, decodePb, encode, bind, Except.bind, List.map_nil, List.mapM_nil, pure, Except.pure, hpoints,
    if_neg hn.not_ecc]

theorem Bystander.nsEccWritePairs (hn : Bystander n) : nsEccWritePairs (pbNs version n) = [] := by
  have hns : ∃ kv, decodedNs (pbNs version n) = some (cstr n.nameSpace, kv) := by
    rw [decodedNs, pbNs, pbField_of_ne_nil hn.ne_nil]
    exact ⟨_, rfl⟩
  obtain ⟨kv, hns⟩ := hns
  rw [SecureChaincode.nsEccWritePairs, hns, Option.elim_some, if_neg hn.not_ecc]

theorem Bystander.nsWrites (hn : Bystander n) (state : Kvs) (blockVersion : Version) (acc : WritePhase) :
    nsWrites state blockVersion acc (pbNs version n) = .ok acc := by
  rw [SecureChaincode.nsWrites, pbNs, pbField_of_ne_nil hn.ne_nil, hn.writes]
  simp only [deref, decodePb, encode, leaving, bind, Except.bind, Except.mapError, if_neg hn.not_ecc,
    if_neg hn.not_ercc, List.map_nil, List.foldlM_nil]
  split_ifs <;> rfl

/-- The write loop of the ledger enclave gets through a write that it can name. -/
theorem eccWrite_of_eccPair {writes : List KVWrite} {w : KVWrite} {p : Bytes × Bytes}
    (h : eccPair writes w = some p) (blockVersion : Version) (acc : WritePhase) :
    ∃ acc', eccWrite (str "ecc") blockVersion writes acc w = .ok acc' := by
  obtain ⟨wkey, hkey, h⟩ := Option.bind_eq_some_iff.mp h
  obtain ⟨key, hname, h⟩ := Option.bind_eq_some_iff.mp h
  obtain ⟨first, hfirst, h⟩ := Option.bind_eq_some_iff.mp h
  obtain ⟨val, hval, -⟩ := Option.bind_eq_some_iff.mp h
  rw [eccWrite, hkey, hfirst]
  simp only [deref, leaving, Except.mapError, bind, Except.bind, hname, hval]
  exact ⟨_, rfl⟩

variable {kv : Peer.KVRWSet}

theorem EccShaped.nsWrites (hkv : EccShaped kv) (state : Kvs) (blockVersion : Version) (acc : WritePhase) :
    ∃ acc', nsWrites state blockVersion acc (pbNs version ⟨str "ecc", kv⟩) = .ok acc' := by
  have hns : pbField (str "ecc") = some (str "ecc") := rfl
  have hecc : cstr (str "ecc") = str "ecc" := by decide
  have hlscc : str "ecc" ≠ str "lscc" := by decide
  have hercc : str "ecc" ≠ str "ercc" := by decide
  rw [SecureChaincode.nsWrites, pbNs, hns]
  simp only [deref, decodePb, encode, leaving, bind, Except.bind, Except.mapError, hecc, if_neg hlscc, if_neg hercc,
    if_true]
  apply foldlM_eq_ok_of_forall
  intro w hw acc
  obtain ⟨u, hu, rfl⟩ := List.mem_map.mp hw
  -- there is only this one write
  have hone : kv.writes = [u] := by
    have hlen := hkv.single
    cases hwrites : kv.writes with
    | nil =>
      rw [hwrites] at hu
      exact absurd hu List.not_mem_nil
    | cons x xs =>
      rw [hwrites, List.length_cons] at hlen
      obtain rfl : xs = [] := List.eq_nil_of_length_eq_zero (by omega)
      rw [hwrites] at hu
      rw [List.mem_singleton.mp hu]
  obtain ⟨hkey, hval⟩ := hkv.write u hu
  have hpair := eccPair_pbWrite hkey hval
  rw [hone]
  exact eccWrite_of_eccPair hpair blockVersion acc

variable {pre post : List Peer.NsRwSet} (hpre : ∀ n ∈ pre, Bystander n) (hpost : ∀ n ∈ post, Bystander n)
include hpre hpost

/-- Bystanders add nothing. -/
theorem flatMap_bystanders {α : Type} {g : Peer.NsRwSet → List α} (hg : ∀ n, Bystander n → g n = [])
    (n : Peer.NsRwSet) : (pre ++ n :: post).flatMap g = g n := by
  have hpre' : pre.flatMap g = [] := List.flatMap_eq_nil_iff.mpr (fun m hm => hg m (hpre m hm))
  have hpost' : post.flatMap g = [] := List.flatMap_eq_nil_iff.mpr (fun m hm => hg m (hpost m hm))
  rw [List.flatMap_append, List.flatMap_cons, hpre', hpost', List.append_nil, List.nil_append]

theorem EccShaped.eccReads (hkv : EccShaped kv) :
    eccReads (pbRWSet version (pre ++ ⟨str "ecc", kv⟩ :: post)) =
      .ok ((rangeReads kv ++ kv.reads).map (fun r => transformToSGX r.key)) := by
  -- what each namespace gives
  let g (n : Peer.NsRwSet) : List Bytes :=
    if n.nameSpace = str "ecc" then (rangeReads n.kvRwSet ++ n.kvRwSet.reads).map (fun r => transformToSGX r.key)
    else []
  have hother (n : Peer.NsRwSet) (hn : Bystander n) : g n = [] := if_neg hn.nameSpace_ne
  have hecc : g ⟨str "ecc", kv⟩ = (rangeReads kv ++ kv.reads).map (fun r => transformToSGX r.key) := if_pos rfl
  have hmap : ((pre ++ ⟨str "ecc", kv⟩ :: post).map (pbNs version)).mapM SecureChaincode.nsEccReads =
      .ok ((pre ++ ⟨str "ecc", kv⟩ :: post).map g) := by
    apply mapM_map_eq_ok
    intro n hn
    rcases List.mem_append.mp hn with hn | hn
    · rw [hother n (hpre n hn), (hpre n hn).nsEccReads]
    · rcases List.mem_cons.mp hn with rfl | hn
      · rw [hecc, hkv.nsEccReads]
      · rw [hother n (hpost n hn), (hpost n hn).nsEccReads]
  rw [SecureChaincode.eccReads, pbRWSet, hmap, ← hecc, ← flatMap_bystanders hpre hpost hother]
  rfl

theorem EccShaped.eccWritePairs (hkv : EccShaped kv) :
    eccWritePairs (pbRWSet version (pre ++ ⟨str "ecc", kv⟩ :: post)) =
      kv.writes.map (fun w => (transformToSGX w.key, w.value)) := by
  rw [SecureChaincode.eccWritePairs, pbRWSet, List.flatMap_map,
    flatMap_bystanders hpre hpost (fun n hn => hn.nsEccWritePairs version), hkv.nsEccWritePairs]

theorem EccShaped.readSet (hkv : EccShaped kv) (state updates : Kvs) :
    ∃ reads, readSet state updates (pbRWSet version (pre ++ ⟨str "ecc", kv⟩ :: post)) = .ok reads ∧
      reads.eccReadSet = addAll ∅ ((rangeReads kv ++ kv.reads).map (fun r => transformToSGX r.key)) := by
  have hset := readSet_eccReadSet state updates (pbRWSet version (pre ++ ⟨str "ecc", kv⟩ :: post))
  rw [hkv.eccReads version hpre hpost] at hset
  cases hreads : SecureChaincode.readSet state updates (pbRWSet version (pre ++ ⟨str "ecc", kv⟩ :: post)) with
  | error e =>
    rw [hreads] at hset
    cases hset
  | ok reads =>
    rw [hreads] at hset
    exact ⟨reads, rfl, Except.ok.inj hset⟩

theorem EccShaped.writeSet (hkv : EccShaped kv) (state updates : Kvs) (blockVersion : Version) :
    ∃ w, writeSet state blockVersion updates (pbRWSet version (pre ++ ⟨str "ecc", kv⟩ :: post)) = .ok w := by
  apply foldlM_eq_ok_of_forall
  intro m hm acc
  obtain ⟨n, hn, rfl⟩ := List.mem_map.mp hm
  rcases List.mem_append.mp hn with hn | hn
  · exact ⟨acc, (hpre n hn).nsWrites version state blockVersion acc⟩
  · rcases List.mem_cons.mp hn with rfl | hn
    · exact hkv.nsWrites version state blockVersion acc
    · exact ⟨acc, (hpost n hn).nsWrites version state blockVersion acc⟩

end

section
variable {η τ σ : Type} {E : Enclave η τ σ} {F : KeyRule} {worldState : Kvs} {verifyTag : Bytes → Bool → τ}
  {s : Session τ} {name : Bytes}

/-! The sets of an auction invocation, in the three places. -/

variable (hn : PlainWord name) (htrace : AuctionTrace E name s.trace)
  (hs : Traced E (goHost F worldState verifyTag) s)
include hn htrace hs

theorem AuctionTrace.lastPuts_eq : lastPuts s.trace = s.writeSet := by
  apply hs.lastPuts_eq_iff.mpr
  intro k
  rcases htrace.puts hn with hnone | ⟨key, val, hone, -⟩
  · rw [hnone]
    rfl
  · rw [hone]
    rfl

theorem AuctionTrace.writeset_eq :
    writeset (simulate F worldState s.trace) = pairWords s.writeSet.toList := by
  rw [writeset_simulate worldState hs.putsRecorded, htrace.lastPuts_eq hn hs]

theorem AuctionTrace.ledgerWrites_eq :
    insertAll ∅ ((simulate F worldState s.trace).writes.map (fun w => (transformToSGX w.key, w.value))) =
      s.writeSet := by
  apply ExtTreeMap.ext_getElem?
  intro k
  rw [getElem?_insertAll, ExtTreeMap.getElem?_empty, Option.none_or, ← htrace.lastPuts_eq hn hs]
  apply lookup_of_mem_iff
  intro k v
  rw [← mem_simulate_writes worldState hs.putsRecorded, List.mem_map]
  constructor
  · rintro ⟨w, hw, he⟩
    exact ⟨w, hw, Prod.mk.inj he⟩
  · rintro ⟨w, hw, rfl, rfl⟩
    exact ⟨w, hw, rfl⟩

variable (htidy : TidyState worldState)
include htidy

theorem AuctionTrace.readset_eq : readset (simulate F worldState s.trace) = .ok s.readSet.toList :=
  (hs.readset_iff F worldState htrace.ownMaps htidy.plainText_rangeItems (htrace.plainReads htidy hn)).mpr
    (htrace.nodup_recordedReads hn htidy)

theorem AuctionTrace.ledgerReads_eq :
    addAll ∅ ((rangeReads (simulate F worldState s.trace) ++ (simulate F worldState s.trace).reads).map
      (fun r => transformToSGX r.key)) = s.readSet := by
  have hkeys := (htrace.eccShaped hn htidy hs.putsRecorded).readKeys
  rw [readKeys_simulate] at hkeys
  apply ExtTreeSet.ext_mem
  intro k
  rw [addAll, mem_foldl_insert,
    ← hs.mem_readSet F worldState htrace.ownMaps htidy.plainText_rangeItems (htrace.plainReads htidy hn), Except.ok.inj hkeys]
  simp only [ExtTreeSet.not_mem_empty, or_false, List.map_append, List.mem_append]
  exact or_comm

end

section
variable {ω κ : Type} (D : Der κ) (H : IdealHash ω) (S : IdealSig ω κ (ℤ × ℤ)) (O : Oracles)

/-- A signature that both validators find valid for the message `m`, and its key, both in DER. For
the curve of the enclave they have at most 72 and 91 bytes. -/
structure SignedFor (signature publicKey m : Bytes) : Prop where
  plugin : ∃ rs pk, unmarshalECDSASignature D signature = .ok rs ∧
    D.parsePKIXPublicKey publicKey = .ok (.ecdsa pk) ∧ S.verify pk (H.sha256 (H.sha256 (H.bytes m))) rs = true
  ledger : O.verifyEnclaveSignature signature (O.sha256 (O.sha256 m)) publicKey = true
  length_signature : signature.length ≤ 96
  length_publicKey : publicKey.length ≤ 96

/-- The surroundings of the two validators: the plugin uses the verifier and finds the key
registered, Go's JSON package reads what it has written, and the ledger enclave uses parson. -/
structure ValidatorsFor (V : VSCCECC) (libs : Libs) (libc : Libc) (r : Response) : Prop where
  verifier : V.verifier = verify D H S
  unmarshal : V.jsonUnmarshal (jsonMarshal r) = .ok r
  registered : ∃ state attestation, V.fetchState = .ok state ∧
    state.getState (str "ercc") (registryName V.sum256 r.publicKey) = .ok (some attestation)
  parson : ∀ json name, ∃ rest, libs.jsonGetString json name = parsonGetString libc rest json name

variable {D H S O} {V : VSCCECC} {libs : Libs} {libc : Libc} {args : Bytes} {r : Response}
  {kv : Peer.KVRWSet} {pre post : List Peer.NsRwSet} (hpre : ∀ n ∈ pre, Bystander n)
  (hpost : ∀ n ∈ post, Bystander n)
include hpre hpost

/-- The plugin accepts a transaction whose message is the one that was signed. -/
theorem validateEcc_of_signed {reads : List Bytes} (hreads : readset kv = .ok reads)
    (hsigned : SignedFor D H S O r.signature r.publicKey (signedBytes args r.responseData reads (writeset kv)))
    (hval : ValidatorsFor D H S V libs libc r) :
    validateEcc V (peerEnvelope [args, []] (jsonMarshal r) (pre ++ ⟨str "ecc", kv⟩ :: post)) = .ok () := by
  obtain ⟨rs, pk, hrs, hpk, hverify⟩ := hsigned.plugin
  obtain ⟨state, attestation, hstate, hatt⟩ := hval.registered
  have hcheck : checkEnclaveEndorsement V ⟨some ⟨some [args, []]⟩⟩
      ⟨wire (pre ++ ⟨str "ecc", kv⟩ :: post), some (jsonMarshal r)⟩ = .ok () := by
    apply checkEnclaveEndorsement_of_endorsed hstate rfl
    intro kv' hkv
    obtain ⟨ns, hns, hecc, rfl⟩ := (mem_eccSets rfl).mp hkv
    -- the only entry of the chaincode is the one of the invocation
    have hsame : ns = ⟨str "ecc", kv⟩ := by
      rcases List.mem_append.mp hns with hns | hns
      · exact absurd hecc (hpre ns hns).nameSpace_ne
      · rcases List.mem_cons.mp hns with hns | hns
        · exact hns
        · exact absurd hecc (hpost ns hns).nameSpace_ne
    rw [hsame]
    refine ⟨_, _, args, jsonMarshal r, r, state, attestation, reads, rfl, rfl, rfl, rfl, hval.unmarshal, hstate,
      hatt, hreads, ?_⟩
    rw [hval.verifier]
    exact (verify_eq_true_iff D H S).mpr ⟨rs, pk, hrs, hpk, hverify⟩
  apply forM_eq_ok_of_forall
  intro act hact
  obtain rfl := List.mem_singleton.mp hact
  exact hcheck

/-- And so does the ledger enclave. -/
theorem eccSignatureValid_of_signed {version : Bytes → Version} (hkv : EccShaped kv) {ccAction : ChaincodeAction}
    (hpayload : ccAction.responsePayload = some (jsonMarshal r)) (hdata : r.responseData.length ≤ 96)
    (hsigned : SignedFor D H S O r.signature r.publicKey (signedMessage args r.responseData
      (addAll ∅ ((rangeReads kv ++ kv.reads).map (fun r => transformToSGX r.key)))
      (insertAll ∅ (kv.writes.map (fun w => (transformToSGX w.key, w.value))))))
    (hval : ValidatorsFor D H S V libs libc r) :
    eccSignatureValid O libs args ccAction (pbRWSet version (pre ++ ⟨str "ecc", kv⟩ :: post)) = .ok true := by
  have hunmarshal := unmarshalEccResponse_jsonMarshal hval.parson hdata hsigned.length_signature
    hsigned.length_publicKey
  rw [eccSignatureValid, hpayload, hkv.eccReads version hpre hpost, hkv.eccWritePairs version hpre hpost]
  simp only [deref, bind, Except.bind, hunmarshal, hsigned.ledger]
  rfl

end

section
variable {η τ σ ω κ : Type} (E : Enclave η τ σ) (F : KeyRule) (worldState : Kvs) (verifyTag : Bytes → Bool → τ)
variable (D : Der κ) (H : IdealHash ω) (S : IdealSig ω κ (ℤ × ℤ)) (O : Oracles)

/-- For every auction invocation on a world state that auction invocations lead to, the bytes
that the chaincode enclave hashes and signs are those that the plugin and the ledger enclave
rebuild from the transaction. So a signature for these bytes is valid in both. -/
theorem auction_message_agreed (uninit : ℤ) (args response : Bytes) (responseLenIn : ℕ) (s : Session τ)
    (version : Bytes → Version) (pre post : List Peer.NsRwSet) (hreached : Reached η τ σ F worldState)
    (hcall : AuctionCall E.libc args)
    (hrun : invokeRun E (auctionInvoke E.libc uninit) (goHost F worldState verifyTag) args [] responseLenIn =
      (some (some response), s))
    (hresponse : response.length ≤ 96) (hpre : ∀ n ∈ pre, Bystander n) (hpost : ∀ n ∈ post, Bystander n) :
    let txRWSet := pre ++ ⟨str "ecc", simulate F worldState s.trace⟩ :: post
    (∃ reads, readset (simulate F worldState s.trace) = .ok reads ∧
        signedBytes args response reads (writeset (simulate F worldState s.trace)) =
          invokeMessage args response s) ∧
      (∀ state updates blockVersion, ∃ reads w,
        readSet state updates (pbRWSet version txRWSet) = .ok reads ∧
          writeSet state blockVersion updates (pbRWSet version txRWSet) = .ok w ∧
          signedMessage args response reads.eccReadSet w.eccWriteSet = invokeMessage args response s) ∧
      ∀ V libs libc signature publicKey,
        SignedFor D H S O signature publicKey (invokeMessage args response s) →
        ValidatorsFor D H S V libs libc ⟨response, signature, publicKey⟩ →
          validateEcc V (peerEnvelope [args, []] (jsonMarshal ⟨response, signature, publicKey⟩) txRWSet) =
              .ok () ∧
            ∀ ccAction : ChaincodeAction,
              ccAction.responsePayload = some (jsonMarshal ⟨response, signature, publicKey⟩) →
                eccSignatureValid O libs args ccAction (pbRWSet version txRWSet) = .ok true := by
  obtain ⟨name, hn, htrace⟩ := auctionInvoke_trace hcall hrun
  have hs := run_traced E (goHost F worldState verifyTag) hrun
  have htidy := hreached.tidyState
  have hkv := htrace.eccShaped hn htidy hs.putsRecorded
  have hargs : cstr args = args := cstr_eq_self hcall.no_nul
  -- the message in the words of the plugin and of the ledger enclave
  have hplugin : signedBytes args response s.readSet.toList (writeset (simulate F worldState s.trace)) =
      invokeMessage args response s := by
    rw [signedBytes, htrace.writeset_eq hn hs, flatten_pairWords, invokeMessage, hargs]
    rfl
  have hledger : signedMessage args response s.readSet s.writeSet = invokeMessage args response s := by
    rw [invokeMessage, hargs]
    rfl
  refine ⟨⟨_, htrace.readset_eq hn hs htidy, hplugin⟩, ?_, ?_⟩
  · intro state updates blockVersion
    obtain ⟨w, hw⟩ := hkv.writeSet version hpre hpost state updates blockVersion
    obtain ⟨reads, hreads, hset⟩ := hkv.readSet version hpre hpost state updates
    refine ⟨reads, w, hreads, hw, ?_⟩
    rw [hset, writeSet_eccWriteSet hw, hkv.eccWritePairs version hpre hpost, htrace.ledgerReads_eq hn hs htidy,
      htrace.ledgerWrites_eq hn hs, hledger]
  · intro V libs libc signature publicKey hsigned hval
    refine ⟨?_, ?_⟩
    · rw [← hplugin] at hsigned
      exact validateEcc_of_signed hpre hpost (htrace.readset_eq hn hs htidy) hsigned hval
    · intro ccAction hpayload
      refine eccSignatureValid_of_signed hpre hpost hkv hpayload hresponse ?_ hval
      rw [htrace.ledgerReads_eq hn hs htidy, htrace.ledgerWrites_eq hn hs, hledger]
      exact hsigned

end

/-- The world state after the instantiation. -/
def instantiatedState : Kvs := insertAll ∅ [(str "MRENCLAVE", str "AAAA", ⟨1, 0⟩)]

def createArgs : Bytes := str "[\"create\",\"a\"]"

def submitArgs : Bytes := str "[\"submit\",\"a\",\"b\",\"5\"]"

/-- An invocation that is simulated on a state. -/
def runOn (worldState : Kvs) (args : Bytes) : Option (Option Bytes) × Session Bool :=
  invokeRun frankEnclave (auctionInvoke signedLibc 0) (goHost nulFree worldState (fun _ _ => true)) args [] 1024

/-- The state with an open auction. -/
def openedState : Kvs :=
  commitWrites instantiatedState (simulatedWrites nulFree (runOn instantiatedState createArgs).2.trace) ⟨2, 0⟩

/-- A bid on it. -/
def submitRun : Option (Option Bytes) × Session Bool := runOn openedState submitArgs

/-- Only this message has been signed. -/
def onlySigned (m : Bytes) : IdealSig ℕ Bytes (ℤ × ℤ) :=
  .only Bytes (ℤ × ℤ) (IdealHash.numbered.sha256 (IdealHash.numbered.sha256 (IdealHash.numbered.bytes m)))

/-- A plugin that verifies against it. -/
def verifyingVscc (m : Bytes) : VSCCECC :=
  { bidVscc generatorChannel with verifier := verify shortDer IdealHash.numbered (onlySigned m) }

/-- A ledger enclave that verifies against it, with the text in the place of its hash. -/
def oraclesFor (m : Bytes) : Oracles where
  sha256 := id
  verifySignature _ _ _ _ := false
  verifyEnclaveSignature signature hash pk := decide (signature = shortSignature ∧ hash = m ∧ pk = generatorPk)

theorem signedFor_onlySigned (m : Bytes) :
    SignedFor shortDer IdealHash.numbered (onlySigned m) (oraclesFor m) shortSignature generatorPk m :=
  ⟨⟨(1, 1), generatorPk.drop 27, rfl, shortDer_generatorPk, decide_eq_true rfl⟩, decide_eq_true ⟨rfl, rfl, rfl⟩,
    by decide, by decide⟩

theorem validatorsFor_verifyingVscc (m : Bytes) :
    ValidatorsFor shortDer IdealHash.numbered (onlySigned m) (verifyingVscc m) parsonLibs signedLibc okResponse := by
  have hfield : (verifyingVscc m).jsonUnmarshal = unmarshalResponse := rfl
  have hregistered : generatorChannel.getState (str "ercc")
      (registryName (verifyingVscc m).sum256 okResponse.publicKey) = .ok (some (str "attestation")) :=
    getState_generatorChannel
  refine ⟨rfl, ?_, ⟨generatorChannel, _, rfl, hregistered⟩, fun _ _ => ⟨[], rfl⟩⟩
  rw [hfield, unmarshalResponse_jsonMarshal]

theorem auctionCall_create : AuctionCall signedLibc createArgs :=
  ⟨by decide +kernel, str "create", str "a", [], by decide +kernel, by decide, plainWord_a,
    fun bidder h => absurd h (by decide)⟩

theorem auctionCall_submit : AuctionCall signedLibc submitArgs := by
  refine ⟨by decide +kernel, str "submit", str "a", [str "b", str "5"], by decide +kernel, by decide, plainWord_a, ?_⟩
  intro bidder _ hbidder
  cases hbidder
  exact plainWord_b

theorem reached_openedState : Reached Bytes Bool Unit nulFree openedState := by
  have hinstantiated : Reached Bytes Bool Unit nulFree instantiatedState := .instantiated _ _ (by decide +kernel)
  have hdone : (runOn instantiatedState createArgs).1 = some (some (str "OK")) := by decide +kernel
  have hrun : runOn instantiatedState createArgs = (some (some (str "OK")), (runOn instantiatedState createArgs).2) := by
    rw [← hdone]
  exact .committed frankEnclave 0 (fun _ _ => true) createArgs 1024 (str "OK") _ ⟨2, 0⟩ hinstantiated hinstantiated
    auctionCall_create hrun

/-- The sets of the transaction that submits the bid; it has also read the definition of the
chaincode. -/
def submitSets : List Peer.NsRwSet :=
  [⟨str "lscc", [⟨str "ecc"⟩], [], []⟩, ⟨str "ecc", simulate nulFree openedState submitRun.2.trace⟩]

/-- A bid on an open auction passes both validators. -/
theorem submitted_bid_agreed :
    submitRun.1 = some (some (str "OK")) ∧
      validateEcc (verifyingVscc (invokeMessage submitArgs (str "OK") submitRun.2))
        (peerEnvelope [submitArgs, []] (jsonMarshal okResponse) submitSets) = .ok () ∧
      eccSignatureValid (oraclesFor (invokeMessage submitArgs (str "OK") submitRun.2)) parsonLibs submitArgs
        ⟨none, some (jsonMarshal okResponse), some (str "ecc")⟩ (pbRWSet (fun _ => ⟨2, 0⟩) submitSets) = .ok true := by
  have hdone : submitRun.1 = some (some (str "OK")) := by decide +kernel
  have hrun : submitRun = (some (some (str "OK")), submitRun.2) := by rw [← hdone]
  have hlscc : ∀ n ∈ [(⟨str "lscc", [⟨str "ecc"⟩], [], []⟩ : Peer.NsRwSet)], Bystander n := by
    intro n hn
    obtain rfl := List.mem_singleton.mp hn
    refine ⟨by decide, by decide, by decide, ?_, rfl, rfl⟩
    intro r hr
    obtain rfl := List.mem_singleton.mp hr
    decide
  obtain ⟨-, -, hboth⟩ := auction_message_agreed frankEnclave nulFree openedState (fun _ _ => true) shortDer
    IdealHash.numbered (onlySigned (invokeMessage submitArgs (str "OK") submitRun.2))
    (oraclesFor (invokeMessage submitArgs (str "OK") submitRun.2)) 0 submitArgs (str "OK") 1024 submitRun.2
    (fun _ => ⟨2, 0⟩) [⟨str "lscc", [⟨str "ecc"⟩], [], []⟩] [] reached_openedState auctionCall_submit hrun (by decide)
    hlscc (by simp)
  obtain ⟨hplugin, hledger⟩ := hboth _ parsonLibs signedLibc shortSignature generatorPk (signedFor_onlySigned _)
    (validatorsFor_verifyingVscc _)
  exact ⟨hdone, hplugin, hledger _ rfl⟩

end SecureChaincode
