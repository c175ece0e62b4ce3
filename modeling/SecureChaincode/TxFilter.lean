import SecureChaincode.BlockOrder

/-! The transaction filter of a block: which validation codes keep a transaction out. -/
namespace SecureChaincode

open Std

def Encoded.map {α β : Type} (f : α → β) (e : Encoded α) : Encoded β := ⟨e.decoded.map f⟩

/-- The chaincode action with an empty read/write set. -/
def clearResults (c : ChaincodeAction) : ChaincodeAction :=
  { c with results := c.results.map (Encoded.map (fun _ => ⟨[]⟩)) }

def clearAction (a : TransactionAction) : TransactionAction :=
  { payload := a.payload.map (Encoded.map (fun p =>
      { p with proposalResponsePayload := p.proposalResponsePayload.map (Encoded.map (fun r =>
          { r with extension := r.extension.map (Encoded.map clearResults) })) })) }

/-- The envelope with a transaction that carries no reads and no writes. -/
def clearEnvelope (e : Encoded Envelope) : Encoded Envelope :=
  e.map (fun e => { e with payload := e.payload.map (Encoded.map (fun p =>
    { p with data := p.data.map (fun d =>
        { d with transaction := d.transaction.map (fun t => ⟨t.actions.map clearAction⟩) }) })) })

/-- The block in which transaction `i` carries no reads and no writes. -/
def clearAt (block : Block) (i : ℕ) : Block := { block with data := block.data.modify i clearEnvelope }

/-- State and counter after the call, if it comes back. -/
def ledgerAfter (libs : Libs) (L : Ledger) (block : Block) : Option (Kvs × UInt32) :=
  (parseBlock libs L (encode block)).map (fun r => (r.1.state, r.1.sequenceNumber))

theorem zipIdx_modify {α : Type} (f : α → α) (i : ℕ) (l : List α) :
    (l.modify i f).zipIdx = l.zipIdx.map (fun e => (if e.2 = i then f e.1 else e.1, e.2)) := by
  apply List.ext_getElem?
  intro j
  simp only [List.getElem?_zipIdx, List.getElem?_modify, List.getElem?_map, Option.map_map]
  cases l[j]? with
  | none => rfl
  | some a =>
    by_cases hij : i = j
    · simp [hij]
    · simp [hij, Ne.symm hij]

/-- A round depends on the filter only by whether the byte is 1. -/
theorem processEnvelope_congr_filter (libs : Libs) (state : Kvs) (number : ℕ) {f f' : Bytes}
    (s : BlockPhase) (e : Encoded Envelope × ℕ) (h : f[e.2]? = some 1 ↔ f'[e.2]? = some 1) :
    processEnvelope libs state number f s e = processEnvelope libs state number f' s e := by
  rw [processEnvelope, processEnvelope, if_congr h rfl rfl]

/-- Nothing of an envelope is looked at where the byte is 1. -/
theorem processEnvelope_skipped (libs : Libs) (state : Kvs) (number : ℕ) {f : Bytes}
    (s : BlockPhase) {i : ℕ} (h : f[i]? = some 1) (e e' : Encoded Envelope) :
    processEnvelope libs state number f s (e, i) = processEnvelope libs state number f s (e', i) := by
  rw [processEnvelope, processEnvelope, if_pos h, if_pos h]

/-- Blocks with the same number, whose loops over the envelopes agree, are parsed alike. -/
theorem parseBlock_congr {libs : Libs} {L : Ledger} (b b' : Block) {f f' : Bytes}
    (hnum : b.number = b'.number) (hf : blockMetadata b = .ok f) (hf' : blockMetadata b' = .ok f')
    (hloop : b.data.zipIdx.foldlM (processEnvelope libs L.state b.number f) ⟨∅, L.rootCerts⟩ =
      b'.data.zipIdx.foldlM (processEnvelope libs L.state b'.number f') ⟨∅, L.rootCerts⟩) :
    parseBlock libs L (encode b) = parseBlock libs L (encode b') := by
  simp only [parseBlock, encode, hf, hf']
  rw [hloop, hnum]

theorem blockMetadata_clearAt (block : Block) (i : ℕ) :
    blockMetadata (clearAt block i) = blockMetadata block := by
  simp only [blockMetadata, clearAt, List.length_modify]

/-- A block in which the byte of transaction `i` is 1 has the effect it has without its
reads and writes. -/
theorem invalid_code_one_has_no_effect (libs : Libs) (L : Ledger) {block : Block} {txFilter : Bytes}
    {i : ℕ} (hf : blockMetadata block = .ok txFilter) (hi : txFilter[i]? = some 1) :
    parseBlock libs L (encode block) = parseBlock libs L (encode (clearAt block i)) := by
  apply parseBlock_congr block (clearAt block i) rfl hf ((blockMetadata_clearAt block i).trans hf)
  -- only the round at `i` sees another envelope, and it skips it
  have hround (s : BlockPhase) (e : Encoded Envelope × ℕ) :
      processEnvelope libs L.state block.number txFilter s
          (if e.2 = i then clearEnvelope e.1 else e.1, e.2) =
        processEnvelope libs L.state block.number txFilter s e := by
    by_cases he : e.2 = i
    · exact processEnvelope_skipped libs L.state block.number s (he ▸ hi) _ e.1
    · rw [if_neg he]
  rw [clearAt, zipIdx_modify, List.foldlM_map]
  simp only [hround]

/-- Every other validation code is taken for the code of a valid transaction. -/
theorem other_codes_count_as_valid (libs : Libs) (L : Ledger) (b b' : Block) {f f' : Bytes}
    (hnum : b.number = b'.number) (hdata : b.data = b'.data) (hf : blockMetadata b = .ok f)
    (hf' : blockMetadata b' = .ok f') (h : ∀ i : ℕ, f[i]? = some 1 ↔ f'[i]? = some 1) :
    parseBlock libs L (encode b) = parseBlock libs L (encode b') := by
  apply parseBlock_congr b b' hnum hf hf'
  have hstep : processEnvelope libs L.state b.number f = processEnvelope libs L.state b.number f' := by
    funext s e
    exact processEnvelope_congr_filter libs L.state b.number s e (h e.2)
  rw [hstep, hdata, hnum]

/-- Of the codes of an invalid transaction only 1 keeps its effects out of every ledger. -/
theorem invalid_code_has_no_effect_iff (code : UInt8) (h0 : code ≠ 0) :
    (∀ (libs : Libs) (L : Ledger) (block : Block) (txFilter : Bytes) (i : ℕ),
      blockMetadata block = .ok txFilter → txFilter[i]? = some code →
        ledgerAfter libs L block = ledgerAfter libs L (clearAt block i)) ↔ code = 1 := by
  constructor
  · intro h
    by_contra h1
    -- a bid with this code goes through like one with code 0
    let b (c : UInt8) : Block := plainBlock 1 [c] [bid "a" "1"]
    have hm (c : UInt8) : blockMetadata (b c) = .ok [c] :=
      blockMetadata_plainBlock 1 (List.cons_ne_nil _ _) (Nat.le_refl 1)
    have hmc (c : UInt8) : blockMetadata (clearAt (b c) 0) = .ok [c] :=
      (blockMetadata_clearAt (b c) 0).trans (hm c)
    have hone (i : ℕ) : [code][i]? = some 1 ↔ ([0] : Bytes)[i]? = some 1 := by
      cases i with
      | zero => simp [h1]
      | succ i => simp
    have hvalid := other_codes_count_as_valid bareLibs afterGenesis (b code) (b 0) rfl rfl
      (hm code) (hm 0) hone
    have hclear := other_codes_count_as_valid bareLibs afterGenesis (clearAt (b code) 0)
      (clearAt (b 0) 0) rfl rfl (hmc code) (hmc 0) hone
    have hcode := h bareLibs afterGenesis (b code) [code] 0 (hm code) rfl
    rw [ledgerAfter, ledgerAfter, hvalid, hclear] at hcode
    exact absurd hcode (by decide)
  · rintro rfl libs L block txFilter i hf hi
    rw [ledgerAfter, ledgerAfter, invalid_code_one_has_no_effect libs L hf hi]

/-- With code 1 the bid has no effect. -/
theorem nil_envelope_code_has_no_effect :
    (1 : UInt8) ≠ 0 ∧ ledgerAfter parsonLibs afterGenesis (plainBlock 1 [1] [bid "a" "1"]) =
      ledgerAfter parsonLibs afterGenesis (clearAt (plainBlock 1 [1] [bid "a" "1"]) 0) := by
  refine ⟨by decide, ?_⟩
  exact (invalid_code_has_no_effect_iff 1 (by decide)).mpr rfl parsonLibs afterGenesis
    (plainBlock 1 [1] [bid "a" "1"]) [1] 0 rfl rfl

/-- A bid that the peer has marked with `MVCC_READ_CONFLICT`, code 11, is committed. -/
theorem mvcc_conflict_code_is_committed :
    blockMetadata (plainBlock 1 [11] [bid "a" "1"]) = .ok [11] ∧
      ∃ L L', parseBlock parsonLibs afterGenesis (encode (plainBlock 1 [11] [bid "a" "1"])) =
          some (L, .success) ∧
        parseBlock parsonLibs afterGenesis (encode (clearAt (plainBlock 1 [11] [bid "a" "1"]) 0)) =
          some (L', .success) ∧
        L.state[str "ecc.a"]? = some (str "1", ⟨1, 0⟩) ∧ L'.state[str "ecc.a"]? = none := by
  have hcleared : WrappedBlock (encode (clearAt (plainBlock 1 [11] [bid "a" "1"]) 0)) :=
    wrappedBlock_singleton 1 [11] (wrapped_action (str "ecc") [str "submit"] ⟨[]⟩)
  exact ⟨rfl, _, _, (parseBlock_wrapped (wrappedBlock_singleton 1 [11] (wrapped_bid "a" "1")) afterGenesis).trans rfl,
    (parseBlock_wrapped hcleared afterGenesis).trans rfl, by decide, by decide⟩

end SecureChaincode
