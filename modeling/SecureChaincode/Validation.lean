import SecureChaincode.Chain
import SecureChaincode.EccSets
import SecureChaincode.StateReads
import SecureChaincode.TxFilter

/-! The checks that the ledger enclave makes on a transaction besides the conflict check: the
signatures of the block, of the envelope and of the chaincode enclave, and the
transaction id. Their verdicts only reach the log, so here they stand beside the parser. -/
namespace SecureChaincode

open Std (ExtTreeMap)

/-- The hash, and the two functions that verify a signature: `verifySignature` takes the
signature, the hash, the certificate and the store, `verifyEnclaveSignature` the signature,
the hash and the public key. -/
structure Oracles where
  sha256 : Bytes → Bytes
  verifySignature : Bytes → Bytes → Bytes → Option (List Bytes) → Bool
  verifyEnclaveSignature : Bytes → Bytes → Bytes → Bool

/-- A block with the bytes of those of its parts that are hashed: the DER form of the header,
the value in the metadata, the signature header of each block signature, and the payload and
the creator of each envelope. -/
structure WireBlock where
  block : Block
  headerDER : Bytes
  metadataValue : Option Bytes
  signatureHeader : ℕ → Bytes
  payload : ℕ → Bytes
  creator : ℕ → Bytes

def hexdigs : Bytes := str "0123456789abcdef"

def bytesToHexstring (bytes : Bytes) : Bytes :=
  bytes.flatMap (fun b : UInt8 => [hexdigs.getD (b >>> 4).toNat 0, hexdigs.getD (b &&& 0x0f).toNat 0])

section
variable (O : Oracles)

/-- The signature at index `i` of the block metadata. -/
def blockSignatureValid (roots : Option (List Bytes)) (w : WireBlock) (sig : MetadataSignature × ℕ) :
    Bool :=
  (do
    let header ← (← sig.1.signatureHeader).decoded
    let identity ← (← header.creator).decoded
    let signature ← sig.1.signature
    let cert ← identity.idBytes
    let hash := O.sha256 (w.metadataValue.getD [] ++ w.signatureHeader sig.2 ++ w.headerDER)
    return O.verifySignature signature hash cert roots : Option Bool).getD false

/-- One of the block signatures is valid. -/
def blockSigned (roots : Option (List Bytes)) (w : WireBlock) : Bool :=
  (do
    let metadata ← (← w.block.metadata[0]?).metadata.decoded
    return metadata.signatures.zipIdx.any (blockSignatureValid O roots w) : Option Bool).getD false

def envelopeSigned (roots : Option (List Bytes)) (w : WireBlock) (i : ℕ) (e : Encoded Envelope) : Bool :=
  (do
    let envelope ← e.decoded
    let payload ← (← envelope.payload).decoded
    let header ← (← payload.signatureHeader).decoded
    let identity ← (← header.creator).decoded
    let signature ← envelope.signature
    let cert ← identity.idBytes
    return O.verifySignature signature (O.sha256 (w.payload i)) cert roots : Option Bool).getD false

/-- The transaction id is the hash of nonce and creator in hexadecimal. -/
def txIdMatches (w : WireBlock) (i : ℕ) (e : Encoded Envelope) : Bool :=
  (do
    let payload ← (← (← e.decoded).payload).decoded
    let header ← (← payload.signatureHeader).decoded
    let chdr ← (← payload.channelHeader).decoded
    let nonce ← header.nonce
    let txId ← chdr.txId
    return bytesToHexstring (O.sha256 (nonce ++ w.creator i)) == cstr txId : Option Bool).getD false

/-- The verdict that `validateEccTx` leaves out. The sets in the message are those of the two phases
of the parser, by `readSet_eccReadSet` and `writeSet_eccWriteSet`. -/
def eccSignatureValid (libs : Libs) (function : Bytes) (ccAction : ChaincodeAction)
    (rws : TxReadWriteSet) : Parse Bool := do
  let (responseData, signature, pk) ← unmarshalEccResponse libs (← deref ccAction.responsePayload)
  let reads ← eccReads rws
  let hash := O.sha256
    (signedMessage function responseData (addAll ∅ reads) (insertAll ∅ (eccWritePairs rws)))
  -- `sgx_ecdsa_sign` hashes what it is given once more
  return O.verifyEnclaveSignature signature (O.sha256 hash) pk

/-- An action of `ecc` other than the setup carries a valid signature of its enclave. -/
def enclaveSigned (libs : Libs) (a : TransactionAction) : Bool :=
  match unwrapAction a with
  | .error _ => true
  | .ok (function, ccAction) =>
    match ccAction.results.bind Encoded.decoded with
    | none => true
    | some rws =>
      if ccAction.chaincodeName.map cstr = some (str "ecc") ∧ function ≠ str "setup" then
        match eccSignatureValid O libs function ccAction rws with
        | .ok valid => valid
        | .error _ => false
      else true

theorem enclaveSigned_of_valid {libs : Libs} {a : TransactionAction} {function : Bytes} {ccAction : ChaincodeAction}
    {rws : TxReadWriteSet} (hun : unwrapAction a = .ok (function, ccAction))
    (hrws : ccAction.results.bind Encoded.decoded = some rws)
    (h : eccSignatureValid O libs function ccAction rws = .ok true) : enclaveSigned O libs a = true := by
  rw [enclaveSigned, hun]
  simp only [hrws, h]
  split_ifs
  · rfl
  · rfl

/-- All checks on transaction `i` of the block succeed, with the given root certificates. -/
def checksPass (libs : Libs) (certs : RootCerts) (w : WireBlock) (i : ℕ) : Bool :=
  blockSigned O certs.orderer w &&
    w.block.data[i]?.any (fun e => envelopeSigned O certs.apps w i e && txIdMatches O w i e &&
      (envelopeTx w.block.number e).all (fun t => t.actions.all (enclaveSigned O libs)))

end

/-- `parse_block` on a block that comes with its bytes. -/
def wireStep (libs : Libs) (L : Ledger) (b : Encoded WireBlock) : Option (Ledger × RetCode) :=
  parseBlock libs L (b.map WireBlock.block)

/-- The update map that a block leaves for the commit. -/
def updateMap (L : Ledger) (block : Block) (txFilter : Bytes) : Kvs :=
  insertAll ∅ (entries block.number (planBlock L.state block.number txFilter ∅ block.data.zipIdx))

/-- After the blocks `pre` of the run the block `w` is committed. -/
structure CommitsAt (libs : Libs) (blocks pre : List (Encoded WireBlock)) (w : WireBlock)
    (L L' : Ledger) : Prop where
  position : pre ++ [encode w] <+: blocks
  before : ∃ codes, exec (wireStep libs) start pre = some (L, codes)
  success : wireStep libs L (encode w) = some (L', .success)

/-- Transaction `i` of the block `w`, which is committed to the ledger `L` in this run, writes
the value that the key then has. -/
def Writes (libs : Libs) (blocks : List (Encoded WireBlock)) (w : WireBlock) (L : Ledger) (i : ℕ)
    (k v : Bytes) : Prop :=
  ∃ pre L' txFilter, CommitsAt libs blocks pre w L L' ∧ blockMetadata w.block = .ok txFilter ∧
    (updateMap L w.block txFilter)[k]? = some (v, ⟨w.block.number, i⟩)

/-- Every entry in the state that is not of the genesis block has been written by a
transaction for which all checks succeeded. -/
def OnlyValidated (O : Oracles) (libs : Libs) (blocks : List (Encoded WireBlock)) (state : Kvs) : Prop :=
  ∀ k v version, state[k]? = some (v, version) → 0 < version.blockNum →
    ∃ w L, Writes libs blocks w L version.txNum k v ∧ w.block.number = version.blockNum ∧
      checksPass O libs L.rootCerts w version.txNum = true

theorem CommitsAt.commits {libs : Libs} {blocks pre : List (Encoded WireBlock)} {w : WireBlock}
    {L L' : Ledger} (h : CommitsAt libs blocks pre w L L') :
    ∃ txFilter, Commits L w.block txFilter L' :=
  parseBlock_success rfl h.success

theorem Writes.mono {libs : Libs} {blocks blocks' : List (Encoded WireBlock)} {w : WireBlock}
    {L : Ledger} {i : ℕ} {k v : Bytes} (h : Writes libs blocks w L i k v) (hb : blocks <+: blocks') :
    Writes libs blocks' w L i k v := by
  obtain ⟨pre, L', txFilter, hc, hm, he⟩ := h
  exact ⟨pre, L', txFilter, ⟨hc.position.trans hb, hc.before, hc.success⟩, hm, he⟩

theorem mem_updateMap {L : Ledger} {block : Block} {txFilter k v : Bytes} {version : Version}
    (h : (updateMap L block txFilter)[k]? = some (v, version)) : version.blockNum = block.number :=
  version_of_mem_entries (mem_of_getElem?_insertAll_empty h)

/-- Every entry of the state has a block of the run, and a transaction in it, that wrote it. -/
theorem state_entry_written {libs : Libs} {blocks : List (Encoded WireBlock)} {L : Ledger}
    {codes : List RetCode} (h : exec (wireStep libs) start blocks = some (L, codes)) :
    ∀ k v version, L.state[k]? = some (v, version) →
      ∃ w L₀, Writes libs blocks w L₀ version.txNum k v ∧ w.block.number = version.blockNum := by
  refine exec_invariant (wireStep libs) (fun blocks _ L => ∀ k v version,
    L.state[k]? = some (v, version) →
      ∃ w L₀, Writes libs blocks w L₀ version.txNum k v ∧ w.block.number = version.blockNum) ?_ ?_ h
  · intro k v version hk
    have hnone : start.state[k]? = none := ExtTreeMap.getElem?_empty
    rw [hnone] at hk
    cases hk
  · intro blocks codes L b L' code hr ih hs k v version hk
    have hmono : blocks <+: blocks ++ [b] := List.prefix_append _ _
    rcases parseBlock_cases hs with ⟨rfl, block, txFilter, hb, hc⟩ | ⟨-, hstate, -⟩
    · obtain ⟨w, hw, rfl⟩ := Option.map_eq_some_iff.mp hb
      have hbw : b = encode w := by
        cases b
        exact congrArg Encoded.mk hw
      rw [hc.state_eq, getElem?_assignAll, Option.or_eq_some_iff] at hk
      rcases hk with hk | ⟨-, hk⟩
      · -- the block has just written the entry
        have hnum : version.blockNum = w.block.number := mem_updateMap hk
        refine ⟨w, L, ⟨blocks, L', txFilter, ⟨?_, ⟨codes, hr⟩, hbw ▸ hs⟩, hc.metadata, ?_⟩, hnum.symm⟩
        · rw [hbw]
        · rw [updateMap, hk, ← hnum]
      · obtain ⟨w', L₀, hwrites, hnum⟩ := ih k v version hk
        exact ⟨w', L₀, hwrites.mono hmono, hnum⟩
    · rw [hstate] at hk
      obtain ⟨w', L₀, hwrites, hnum⟩ := ih k v version hk
      exact ⟨w', L₀, hwrites.mono hmono, hnum⟩

/-- An entry of the update map is one that the transaction at its index has offered. -/
theorem Writes.offered {libs : Libs} {blocks : List (Encoded WireBlock)} {w : WireBlock} {L : Ledger}
    {i : ℕ} {k v : Bytes} (h : Writes libs blocks w L i k v) :
    ∃ e tx u, w.block.data[i]? = some e ∧ envelopeTx w.block.number e = some tx ∧
      (k, v) ∈ (planTx L.state ⟨w.block.number, i⟩ u tx.actions).writes := by
  obtain ⟨pre, L', txFilter, -, -, he⟩ := h
  obtain ⟨p, hp, hmem⟩ := List.mem_flatMap.mp (mem_of_getElem?_insertAll_empty he)
  obtain ⟨q, hq, heq⟩ := List.mem_map.mp hmem
  obtain ⟨e, hemem, u, rfl⟩ := mem_planBlock hp
  cases heq
  simp only [planEnvelope] at hq
  split_ifs at hq with hskip
  · cases hq
  · cases htx : envelopeTx w.block.number e.1 with
    | none =>
      rw [htx] at hq
      cases hq
    | some tx =>
      rw [htx] at hq
      exact ⟨e.1, tx, u, List.mem_zipIdx_iff_getElem?.mp hemem, htx, hq⟩

theorem exec_wireStep (libs : Libs) (blocks : List (Encoded WireBlock)) :
    exec (wireStep libs) start blocks = run libs (blocks.map (Encoded.map WireBlock.block)) :=
  exec_map (parseBlock libs) (Encoded.map WireBlock.block) start blocks

/-- The chain only grows, and it has grown past a block that was committed. -/
theorem chain_length_lt {libs : Libs} {pre rest : List (Encoded Block)} {b : Encoded Block} {L L' t : Ledger}
    {codes codes' : List RetCode} (hpre : run libs pre = some (L, codes))
    (hs : parseBlock libs L b = some (L', .success))
    (hrun : run libs (pre ++ b :: rest) = some (t, codes')) :
    (chain pre codes).length < (chain (pre ++ b :: rest) codes').length := by
  obtain ⟨t₁, os, u, os', h₁, h₂, hr⟩ := (exec_append_eq_some (parseBlock libs)).mp hrun
  rw [show exec (parseBlock libs) start pre = some (L, codes) from hpre] at h₁
  cases h₁
  cases hr
  obtain ⟨s', o, u', ws, hs', -, hr⟩ := (exec_cons_eq_some (parseBlock libs)).mp h₂
  rw [hs] at hs'
  cases hs'
  cases hr
  rcases parseBlock_cases hs with ⟨-, block, txFilter, hb, -⟩ | ⟨hne, -⟩
  · rw [chain_append (exec_length (parseBlock libs) hpre), List.length_append]
    simp [chain, hb]
  · exact absurd rfl hne

/-- As long as the blocks are in place, the number of a committed block gives its position. -/
theorem CommitsAt.unique {libs : Libs} {blocks pre pre' : List (Encoded WireBlock)} {w w' : WireBlock}
    {L L' M M' : Ledger} (h : CommitsAt libs blocks pre w L L') (h' : CommitsAt libs blocks pre' w' M M')
    (hp : InPlaceRun libs (blocks.map (Encoded.map WireBlock.block)))
    (hnum : w.block.number = w'.block.number) : w = w' ∧ L = M := by
  -- the number is the length of the chain before the block
  have hlen {pre : List (Encoded WireBlock)} {w : WireBlock} {L L' : Ledger} {codes : List RetCode}
      (h : CommitsAt libs blocks pre w L L') (hc : exec (wireStep libs) start pre = some (L, codes)) :
      w.block.number = (chain (pre.map (Encoded.map WireBlock.block)) codes).length := by
    rw [exec_wireStep] at hc
    obtain ⟨txFilter, hcommit⟩ := h.commits
    obtain ⟨post, hpost⟩ := h.position
    refine number_eq_of_inPlace (b := encode w.block) rfl hcommit (run_sequenceNumber hc) ?_
    apply hp (pre.map (Encoded.map WireBlock.block)) (encode w.block)
      (post.map (Encoded.map WireBlock.block)) L codes _ hc
    rw [← hpost]
    simp [encode, Encoded.map]
  -- a block that is committed earlier has a shorter chain before it
  have hlt {pre pre' : List (Encoded WireBlock)} {w w' : WireBlock} {L L' M M' : Ledger}
      (h : CommitsAt libs blocks pre w L L') (h' : CommitsAt libs blocks pre' w' M M')
      (hl : pre.length < pre'.length) : w.block.number < w'.block.number := by
    obtain ⟨codes, hc⟩ := h.before
    obtain ⟨codes', hc'⟩ := h'.before
    rw [hlen h hc, hlen h' hc']
    have hprefix : pre ++ [encode w] <+: pre' := by
      apply List.prefix_of_prefix_length_le h.position
        ((List.prefix_append pre' [encode w']).trans h'.position)
      rw [List.length_append, List.length_singleton]
      exact hl
    obtain ⟨rest, hrest⟩ := hprefix
    rw [exec_wireStep] at hc hc'
    have hmap : pre'.map (Encoded.map WireBlock.block) = pre.map (Encoded.map WireBlock.block) ++
        encode w.block :: rest.map (Encoded.map WireBlock.block) := by
      rw [← hrest]
      simp [encode, Encoded.map]
    rw [hmap] at hc' ⊢
    exact chain_length_lt hc h.success hc'
  rcases Nat.lt_trichotomy pre.length pre'.length with hl | hl | hl
  · exact absurd hnum (hlt h h' hl).ne
  · have heq : pre ++ [encode w] = pre' ++ [encode w'] := by
      refine List.IsPrefix.eq_of_length ?_ (by simp [hl])
      exact List.prefix_of_prefix_length_le h.position h'.position (by simp [hl])
    obtain ⟨rfl, hw⟩ := List.append_inj' heq rfl
    obtain ⟨codes, hc⟩ := h.before
    obtain ⟨codes', hc'⟩ := h'.before
    rw [hc] at hc'
    cases hc'
    exact ⟨Option.some.inj (congrArg Encoded.decoded (List.cons.inj hw).1), rfl⟩
  · exact absurd hnum.symm (hlt h' h hl).ne

/-- What a transaction of a committed block writes is in the state right after the commit. -/
theorem Writes.visited {libs : Libs} {blocks : List (Encoded WireBlock)} {w : WireBlock} {L : Ledger}
    {i : ℕ} {k v : Bytes} (h : Writes libs blocks w L i k v) :
    ∃ t, Visits (wireStep libs) start blocks t ∧ t.state[k]? = some (v, ⟨w.block.number, i⟩) := by
  obtain ⟨pre, L', txFilter, hc, hm, he⟩ := h
  obtain ⟨txFilter', hcommit⟩ := hc.commits
  obtain ⟨codes, hbefore⟩ := hc.before
  obtain ⟨post, hpost⟩ := hc.position
  cases Except.ok.inj (hm.symm.trans hcommit.metadata)
  refine ⟨L', ⟨pre ++ [encode w], post, codes ++ [.success], hpost.symm, ?_⟩, ?_⟩
  · exact (exec_snoc_eq_some (wireStep libs)).mpr ⟨L, codes, L', .success, hbefore, hc.success, rfl⟩
  · rw [hcommit.state_eq, getElem?_assignAll]
    rw [updateMap] at he
    rw [he, Option.some_or]

/-- The state holds the writes of validated transactions only, as long as every transaction
of a committed block that writes something passes the checks. The enclave does not see
to that itself; while the blocks are in place, nothing less is enough. -/
theorem only_validated_writes_iff (O : Oracles) (libs : Libs) (blocks : List (Encoded WireBlock)) :
    ((∀ w L i k v, Writes libs blocks w L i k v → 0 < w.block.number →
        checksPass O libs L.rootCerts w i = true) →
      ∀ t, Visits (wireStep libs) start blocks t → OnlyValidated O libs blocks t.state) ∧
    (InPlaceRun libs (blocks.map (Encoded.map WireBlock.block)) →
      (∀ t, Visits (wireStep libs) start blocks t → OnlyValidated O libs blocks t.state) →
      ∀ w L i k v, Writes libs blocks w L i k v → 0 < w.block.number →
        checksPass O libs L.rootCerts w i = true) := by
  refine ⟨?_, ?_⟩
  · rintro hchecks t ⟨pre, post, codes, rfl, ht⟩ k v version hk hpos
    obtain ⟨w, L, hwrites, hnum⟩ := state_entry_written ht k v version hk
    have hall : Writes libs (pre ++ post) w L version.txNum k v := hwrites.mono (List.prefix_append _ _)
    exact ⟨w, L, hall, hnum, hchecks w L _ k v hall (hnum ▸ hpos)⟩
  · intro hp hvalid w L i k v hwrites hpos
    obtain ⟨t, ht, hk⟩ := hwrites.visited
    obtain ⟨w', L', hwrites', hnum, hpass⟩ := hvalid t ht k v ⟨w.block.number, i⟩ hk hpos
    obtain ⟨pre, M, f, hc, -⟩ := hwrites
    obtain ⟨pre', M', f', hc', -⟩ := hwrites'
    obtain ⟨rfl, rfl⟩ := hc.unique hc' hp hnum.symm
    exact hpass

/-- Oracles that give the same verdict on every signature. -/
def constantOracles (verdict : Bool) : Oracles :=
  ⟨fun _ => [], fun _ _ _ _ => verdict, fun _ _ _ => verdict⟩

/-- A block with one block signature. -/
def signedBlock (number : ℕ) (txFilter : Bytes) (data : List (Encoded Envelope)) : WireBlock where
  block :=
    { number := number
      data := data
      metadata := [⟨[], encode ⟨[⟨some (encode ⟨some (wrapIdentity []), some []⟩), some []⟩]⟩⟩,
        ⟨[], garbled⟩, ⟨txFilter, garbled⟩] }
  headerDER := []
  metadataValue := none
  signatureHeader _ := []
  payload _ := []
  creator _ := []

/-- The genesis block and a block with one bid. -/
def bidBlocks : List (Encoded WireBlock) :=
  [encode (signedBlock 0 [0] [configTx]), encode (signedBlock 1 [0] [bid "a" "1"])]

theorem run_bidBlocks :
    exec (wireStep parsonLibs) start bidBlocks = some (bidLedger, [.success, .success]) := by
  have hwrapped : ∀ L, ∀ b ∈ bidBlocks, wireStep parsonLibs L b = wireStep bareLibs L b := by
    intro L b hb
    simp only [bidBlocks, List.mem_cons, List.not_mem_nil, or_false] at hb
    refine parseBlock_wrapped (fun block hd => ?_) L
    rcases hb with rfl | rfl
    · cases hd
      exact List.forall_mem_singleton.mpr .config
    · cases hd
      exact List.forall_mem_singleton.mpr (wrapped_bid "a" "1")
  exact (exec_congr _ hwrapped start).trans rfl

theorem enclaveSigned_bid : enclaveSigned (constantOracles true) parsonLibs (wrapAction (str "ecc") [str "submit"]
    ⟨[wrapNs (str "ecc") ⟨[], [], [⟨some (str "a"), some (str "1")⟩]⟩]⟩) = true := by
  refine enclaveSigned_of_valid (constantOracles true) rfl rfl ?_
  simp only [eccSignatureValid, deref, bind, Except.bind, unmarshalEccResponse_okResponse]
  rfl

theorem bid_state_validated :
    exec (wireStep parsonLibs) start bidBlocks = some (bidLedger, [.success, .success]) ∧
      OnlyValidated (constantOracles true) parsonLibs bidBlocks bidLedger.state := by
  refine ⟨run_bidBlocks, ?_⟩
  refine (only_validated_writes_iff (constantOracles true) parsonLibs bidBlocks).1 ?_ bidLedger
    (Visits.finish _ run_bidBlocks)
  intro w L i k v hwrites hpos
  obtain ⟨e, tx, u, he, -, -⟩ := hwrites.offered
  obtain ⟨pre, L', txFilter, hc, -⟩ := hwrites
  have hmem : encode w ∈ bidBlocks := hc.position.subset (by simp)
  rcases List.mem_cons.mp hmem with hw | hw
  · -- the genesis block is not looked at
    cases hw
    exact absurd hpos (by decide)
  · cases List.mem_singleton.mp hw
    have hi : i = 0 := by
      have hlt := (List.getElem?_eq_some_iff.mp he).1
      exact Nat.lt_one_iff.mp hlt
    have hactions : (envelopeTx 1 (bid "a" "1")).all
        (fun t => t.actions.all (enclaveSigned (constantOracles true) parsonLibs)) = true := by
      rw [show envelopeTx 1 (bid "a" "1") = some ⟨_⟩ from rfl, Option.all_some, List.all_cons, enclaveSigned_bid]
      rfl
    have hdata : (signedBlock 1 [0] [bid "a" "1"]).block.data[0]? = some (bid "a" "1") := rfl
    have hnumber : (signedBlock 1 [0] [bid "a" "1"]).block.number = 1 := rfl
    rw [hi, checksPass, hdata, Option.any_some, hnumber, hactions, Bool.and_true]
    rfl

theorem getD_bind_false {α : Type} {o : Option α} {f : α → Option Bool}
    (h : ∀ a, (f a).getD false = false) : (o >>= f).getD false = false := by
  cases o with
  | none => rfl
  | some a => exact h a

/-- A verifier that rejects every signature fails every check. -/
theorem checksPass_constantOracles_false (libs : Libs) (certs : RootCerts) (w : WireBlock) (i : ℕ) :
    checksPass (constantOracles false) libs certs w i = false := by
  have hsig (sig : MetadataSignature × ℕ) :
      blockSignatureValid (constantOracles false) certs.orderer w sig = false :=
    getD_bind_false fun _ => getD_bind_false fun _ => getD_bind_false fun _ =>
      getD_bind_false fun _ => getD_bind_false fun _ => getD_bind_false fun _ => rfl
  have hblock : blockSigned (constantOracles false) certs.orderer w = false := by
    refine getD_bind_false fun _ => getD_bind_false fun metadata => ?_
    change metadata.signatures.zipIdx.any _ = false
    rw [List.any_eq_false]
    intro sig _
    rw [hsig]
    exact Bool.false_ne_true
  rw [checksPass, hblock, Bool.false_and]

/-- With oracles that reject every signature the bid is in the state all the same. -/
theorem unverified_bid_in_state :
    exec (wireStep parsonLibs) start bidBlocks = some (bidLedger, [.success, .success]) ∧
      bidLedger.state[str "ecc.a"]? = some (str "1", ⟨1, 0⟩) ∧
      (∀ certs w i, checksPass (constantOracles false) parsonLibs certs w i = false) ∧
      ¬OnlyValidated (constantOracles false) parsonLibs bidBlocks bidLedger.state := by
  have hk : bidLedger.state[str "ecc.a"]? = some (str "1", ⟨1, 0⟩) := by decide
  refine ⟨run_bidBlocks, hk, checksPass_constantOracles_false parsonLibs, ?_⟩
  intro h
  obtain ⟨w, L, -, -, hpass⟩ := h (str "ecc.a") (str "1") ⟨1, 0⟩ hk (by decide)
  rw [checksPass_constantOracles_false] at hpass
  cases hpass

end SecureChaincode
