import SecureChaincode.Wrapping

/-! A block as a list of outcomes, one for each envelope, and `parse_block` as the
assignment of the entries that these outcomes offer. -/
namespace SecureChaincode

open Std

/-- The endorser transaction that the parser finds in an envelope. -/
def envelopeTx (number : ℕ) (e : Encoded Envelope) : Option Transaction :=
  match unwrapEnvelope number e with
  | .ok (chdr, payload) =>
    if chdr.type = 3 then payload.data.bind (fun d => d.transaction.decoded) else none
  | .error _ => none

theorem envelopeTx_configTx (number : ℕ) : envelopeTx number configTx = none := by
  rw [envelopeTx, configTx, unwrapEnvelope_wrapData]
  rfl

def planEnvelope (state : Kvs) (number : ℕ) (txFilter : Bytes) (updates : Kvs)
    (e : Encoded Envelope × ℕ) : Outcome :=
  if txFilter[e.2]? = some 1 then ⟨[], false⟩
  else
    match envelopeTx number e.1 with
    | none => ⟨[], false⟩
    | some t => planTx state ⟨number, e.2⟩ updates t.actions

/-- The outcomes of the envelopes in order, each judged against the entries before it. -/
def planBlock (state : Kvs) (number : ℕ) (txFilter : Bytes) :
    Kvs → List (Encoded Envelope × ℕ) → List (ℕ × Outcome)
  | _, [] => []
  | updates, e :: es =>
    let o := planEnvelope state number txFilter updates e
    (e.2, o) :: planBlock state number txFilter (insertAll updates (stamp ⟨number, e.2⟩ o.writes)) es

/-- The entries that a list of outcomes offers, under block number and index. -/
def entries (number : ℕ) (plan : List (ℕ × Outcome)) : List (Bytes × KvsValue) :=
  plan.flatMap (fun p => stamp ⟨number, p.1⟩ p.2.writes)

theorem entries_cons (number : ℕ) (p : ℕ × Outcome) (plan : List (ℕ × Outcome)) :
    entries number (p :: plan) = stamp ⟨number, p.1⟩ p.2.writes ++ entries number plan :=
  List.flatMap_cons

theorem map_fst_planBlock (state : Kvs) (number : ℕ) (txFilter : Bytes) (updates : Kvs)
    (es : List (Encoded Envelope × ℕ)) :
    (planBlock state number txFilter updates es).map Prod.fst = es.map Prod.snd := by
  induction es generalizing updates with
  | nil => rfl
  | cons e es ih => rw [planBlock, List.map_cons, List.map_cons, ih]

theorem mem_planBlock {state : Kvs} {number : ℕ} {txFilter : Bytes} {updates : Kvs}
    {es : List (Encoded Envelope × ℕ)} {p : ℕ × Outcome}
    (h : p ∈ planBlock state number txFilter updates es) :
    ∃ e ∈ es, ∃ u, p = (e.2, planEnvelope state number txFilter u e) := by
  induction es generalizing updates with
  | nil => cases h
  | cons e es ih =>
    rw [planBlock] at h
    rcases List.mem_cons.mp h with rfl | h
    · exact ⟨e, List.mem_cons_self, updates, rfl⟩
    · obtain ⟨e', he, hu⟩ := ih h
      exact ⟨e', List.mem_cons_of_mem e he, hu⟩

/-- The plan lists the envelopes by strictly growing index. -/
theorem planBlock_sorted (state : Kvs) (number : ℕ) (txFilter : Bytes) (updates : Kvs)
    (data : List (Encoded Envelope)) :
    (planBlock state number txFilter updates data.zipIdx).Pairwise (fun p q => p.1 < q.1) := by
  have hr : (data.zipIdx.map Prod.snd).Pairwise (· < ·) := by
    rw [List.zipIdx_map_snd]
    exact List.pairwise_lt_range'
  rw [← map_fst_planBlock state number txFilter updates] at hr
  exact List.pairwise_map.mp hr

theorem version_of_mem_entries {number : ℕ} {plan : List (ℕ × Outcome)} {p : Bytes × KvsValue}
    (h : p ∈ entries number plan) : p.2.2.blockNum = number := by
  obtain ⟨q, -, hq⟩ := List.mem_flatMap.mp h
  obtain ⟨w, -, rfl⟩ := List.mem_map.mp hq
  rfl

/-- What the `switch` leaves in the update map when the enclave gets through it. -/
theorem applyPayload_ok {libs : Libs} {state : Kvs} {version : Version} {s s' : BlockPhase}
    {chdr : ChannelHeader} {payload : Payload}
    (h : applyPayload libs state version s chdr payload = .ok s') :
    s'.updates = insertAll s.updates (stamp version
      (match (if chdr.type = 3 then payload.data.bind (fun d => d.transaction.decoded) else none) with
        | none => []
        | some t => (planTx state version s.updates t.actions).writes)) := by
  rw [applyPayload] at h
  by_cases hconfig : chdr.type = 1
  · -- a configuration leaves the update map alone, whatever becomes of it
    rw [if_pos hconfig] at h
    have hs : s'.updates = s.updates := by
      split_ifs at h with hzero
      · obtain ⟨data, -, h⟩ := bind_eq_ok h
        split at h <;> cases h <;> rfl
      · cases h
        rfl
    rw [hs, hconfig]
    rfl
  rw [if_neg hconfig] at h
  by_cases htype : chdr.type = 3
  · rw [if_pos htype] at h ⊢
    obtain ⟨data, hd, h⟩ := bind_eq_ok h
    rw [deref_eq_ok (leaving_eq_ok hd), Option.bind_some]
    cases hr : parseEndorserTransaction libs state data.transaction s.updates version with
    | none =>
      rw [hr] at h
      cases h
    | some r =>
      rw [hr] at h
      cases h
      cases ht : data.transaction.decoded with
      | none =>
        rw [parseEndorserTransaction, ht] at hr
        cases hr
        rfl
      | some t => exact (parseEndorserTransaction_eq ht hr).1
  · rw [if_neg htype] at h ⊢
    cases h
    rfl

/-- What one envelope that is processed to its end leaves in the update map. -/
theorem processEnvelope_ok {libs : Libs} {state : Kvs} {number : ℕ} {txFilter : Bytes}
    {s s' : BlockPhase} {e : Encoded Envelope × ℕ}
    (h : processEnvelope libs state number txFilter s e = .ok s') :
    s'.updates = insertAll s.updates
      (stamp ⟨number, e.2⟩ (planEnvelope state number txFilter s.updates e).writes) := by
  rw [processEnvelope] at h
  rw [planEnvelope]
  by_cases hskip : txFilter[e.2]? = some 1
  · rw [if_pos hskip] at h ⊢
    cases h
    rfl
  rw [if_neg hskip] at h ⊢
  obtain ⟨⟨chdr, payload⟩, hu, h⟩ := bind_eq_ok h
  rw [applyPayload_ok h, envelopeTx, leaving_eq_ok hu]
  simp only
  split <;> rfl

/-- The loop over the envelopes, up to any point it reaches. -/
theorem foldlM_processEnvelope {libs : Libs} {state : Kvs} {number : ℕ} {txFilter : Bytes}
    {es : List (Encoded Envelope × ℕ)} {s s' : BlockPhase}
    (h : es.foldlM (processEnvelope libs state number txFilter) s = .ok s') :
    s'.updates = insertAll s.updates
      (entries number (planBlock state number txFilter s.updates es)) := by
  induction es generalizing s with
  | nil =>
    cases h
    rfl
  | cons e es ih =>
    rw [List.foldlM_cons] at h
    obtain ⟨t, ht, h⟩ := bind_eq_ok h
    rw [ih h, processEnvelope_ok ht, planBlock, entries_cons, insertAll_append]

/-- A block that is committed. -/
structure Commits (L : Ledger) (block : Block) (txFilter : Bytes) (L' : Ledger) : Prop where
  metadata : blockMetadata block = .ok txFilter
  number_eq : UInt32.ofNat block.number = L.sequenceNumber + 1
  sequenceNumber_eq : L'.sequenceNumber = L.sequenceNumber + 1
  state_eq : L'.state = assignAll L.state
    (insertAll ∅ (entries block.number (planBlock L.state block.number txFilter ∅ block.data.zipIdx)))

/-- Every answer of `parse_block`: a commit, or a rejection that leaves state and counter. -/
theorem parseBlock_cases {libs : Libs} {L L' : Ledger} {blockData : Encoded Block} {code : RetCode}
    (h : parseBlock libs L blockData = some (L', code)) :
    (code = .success ∧ ∃ block txFilter, blockData.decoded = some block ∧
        Commits L block txFilter L') ∨
      (code ≠ .success ∧ L'.state = L.state ∧ L'.sequenceNumber = L.sequenceNumber) := by
  rw [parseBlock] at h
  cases hb : blockData.decoded with
  | none =>
    rw [hb] at h
    cases h
    exact Or.inr ⟨by decide, rfl, rfl⟩
  | some block =>
    rw [hb] at h
    simp only at h
    by_cases hseq : UInt32.ofNat block.number = L.sequenceNumber + 1
    · -- past the sequence check: the metadata, the loop, the commit
      rw [if_pos hseq] at h
      cases hm : blockMetadata block with
      | error x =>
        rw [hm] at h
        cases x with
        | fault => cases h
        | decoding =>
          cases h
          exact Or.inr ⟨by decide, rfl, rfl⟩
      | ok txFilter =>
        rw [hm] at h
        simp only at h
        cases hf : block.data.zipIdx.foldlM (processEnvelope libs L.state block.number txFilter)
            ⟨∅, L.rootCerts⟩ with
        | error x =>
          obtain ⟨x, s⟩ := x
          rw [hf] at h
          cases x with
          | fault => cases h
          | decoding =>
            cases h
            exact Or.inr ⟨by decide, rfl, rfl⟩
        | ok s =>
          rw [hf] at h
          simp only [commitStateUpdates, if_pos hseq, Option.map_some] at h
          cases h
          refine Or.inl ⟨rfl, block, txFilter, rfl, hm, hseq, hseq, ?_⟩
          rw [foldlM_processEnvelope hf]
    · rw [if_neg hseq] at h
      cases h
      exact Or.inr ⟨by decide, rfl, rfl⟩

theorem parseBlock_success {libs : Libs} {L L' : Ledger} {blockData : Encoded Block} {block : Block}
    (hb : blockData.decoded = some block)
    (h : parseBlock libs L blockData = some (L', .success)) :
    ∃ txFilter, Commits L block txFilter L' := by
  rcases parseBlock_cases h with ⟨-, block', txFilter, hb', hc⟩ | ⟨hne, -⟩
  · rw [hb] at hb'
    cases hb'
    exact ⟨txFilter, hc⟩
  · exact absurd rfl hne

end SecureChaincode
