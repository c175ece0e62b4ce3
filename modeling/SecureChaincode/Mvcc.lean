import SecureChaincode.Chain

/-! The conflict check of the read set against what a transaction has seen: point reads
that carry the versions of an earlier committed state. -/
namespace SecureChaincode

open Std (ExtTreeMap)

theorem fresh_iff (state updates : Kvs) (k : Bytes) (v : Version) :
    fresh state updates (k, v) = true ↔
      (∀ w, versionOf state k = some w → ¬v < w) ∧ ∀ w, versionOf updates k = some w → ¬v < w := by
  rw [fresh, Bool.not_eq_true', Bool.or_eq_false_iff, ← Bool.not_eq_true, ← Bool.not_eq_true,
    hasVersionConflict_eq_true_iff, hasVersionConflict_eq_true_iff]
  push Not
  rfl

/-- The read loop gets through and leaves `valid_tx` true. -/
def PassesReads (state updates : Kvs) (rws : TxReadWriteSet) : Prop :=
  ∃ reads, readSet state updates rws = .ok reads ∧ reads.validTx = true

theorem passesReads_iff {state updates : Kvs} {rws : TxReadWriteSet} {l : List (Bytes × Version)}
    (hl : readList rws = .ok l) :
    PassesReads state updates rws ↔ ∀ p ∈ l, fresh state updates p = true := by
  rcases map_eq_map_cases (readSet_validTx state updates rws) with ⟨e, -, hl'⟩ | ⟨reads, l', hr, hl', hv⟩
  · rw [hl] at hl'
    cases hl'
  · rw [hl] at hl'
    cases hl'
    rw [← List.all_eq_true]
    constructor
    · intro h
      obtain ⟨reads', hr', hv'⟩ := h
      rw [hr] at hr'
      cases hr'
      exact hv.symm.trans hv'
    · intro h
      exact ⟨reads, hr, hv.trans h⟩

/-- A moment in the life of the enclave: after a run over some blocks it works on a block
that has passed the sequence check, and is through with the envelopes `es`. -/
structure Moment (libs : Libs) (blocks : List (Encoded Block)) (codes : List RetCode) (L : Ledger)
    (block : Block) (txFilter : Bytes) (es : List (Encoded Envelope × ℕ)) (s : BlockPhase) : Prop where
  run_eq : run libs blocks = some (L, codes)
  check : UInt32.ofNat block.number = L.sequenceNumber + 1
  metadata : blockMetadata block = .ok txFilter
  before : es <+: block.data.zipIdx
  loop : es.foldlM (processEnvelope libs L.state block.number txFilter) ⟨∅, L.rootCerts⟩ = .ok s

/-- State and pending updates of the block, as the next transaction finds them. -/
def overlay (L : Ledger) (s : BlockPhase) : Kvs := assignAll L.state s.updates

section
variable {libs : Libs} {blocks : List (Encoded Block)} {codes : List RetCode} {L : Ledger}
  {block : Block} {txFilter : Bytes} {es : List (Encoded Envelope × ℕ)} {s : BlockPhase}

theorem Moment.number_eq (m : Moment libs blocks codes L block txFilter es s)
    (hp : InPlace (chain blocks codes).length (encode block)) :
    block.number = (chain blocks codes).length := by
  apply hp block rfl
  have he := congrArg UInt32.toNat (m.check.trans (run_sequenceNumber m.run_eq))
  simpa only [UInt32.toNat_ofNat'] using he

theorem Moment.versionOf_updates (m : Moment libs blocks codes L block txFilter es s) {k : Bytes}
    {v : Version} (hv : versionOf s.updates k = some v) : v.blockNum = block.number := by
  rw [foldlM_processEnvelope m.loop] at hv
  exact versionOf_entries hv

theorem versionOf_overlay (L : Ledger) (s : BlockPhase) (k : Bytes) :
    versionOf (overlay L s) k = (versionOf s.updates k).or (versionOf L.state k) :=
  versionOf_assignAll L.state s.updates k

/-- A read that passes the check is not older than what the next transaction finds. -/
theorem not_lt_of_fresh {k : Bytes} {v w : Version} (h : fresh L.state s.updates (k, v) = true)
    (hw : versionOf (overlay L s) k = some w) : ¬v < w := by
  rw [fresh_iff] at h
  rw [versionOf_overlay, Option.or_eq_some_iff] at hw
  rcases hw with hw | ⟨-, hw⟩
  · exact h.2 w hw
  · exact h.1 w hw

/-- The pending entries are above everything committed. -/
theorem Moment.grows (m : Moment libs blocks codes L block txFilter es s)
    (hi : ChainInv libs blocks codes L) (hn : block.number = (chain blocks codes).length)
    {t : Ledger} (ht : Visits (parseBlock libs) start blocks t) : Grows t.state (overlay L s) := by
  apply (hi.grows t ht).trans
  intro k v hv
  rw [versionOf_overlay]
  cases hu : versionOf s.updates k with
  | none => exact ⟨v, by rw [Option.none_or, hv], le_rfl⟩
  | some w =>
    have hw : w.blockNum = block.number := m.versionOf_updates hu
    have hlt : v.blockNum < block.number := hn ▸ hi.below k v hv
    exact ⟨w, Option.some_or, (Version.lt_of_blockNum_lt (by omega)).le⟩

/-- A version that an earlier state had passes the check exactly when the key still has it. -/
theorem fresh_seen_iff (m : Moment libs blocks codes L block txFilter es s)
    (hi : ChainInv libs blocks codes L) (hn : block.number = (chain blocks codes).length)
    {t : Ledger} (ht : Visits (parseBlock libs) start blocks t) {k : Bytes} {v : Version}
    (hv : versionOf t.state k = some v) :
    fresh L.state s.updates (k, v) = true ↔ versionOf (overlay L s) k = some v := by
  constructor
  · intro h
    obtain ⟨w, hw, hvw⟩ := m.grows hi hn ht k v hv
    have hwv : w ≤ v := not_lt.mp (not_lt_of_fresh h hw)
    rw [hw, hwv.antisymm hvw]
  · intro h
    rw [fresh_iff]
    refine ⟨?_, ?_⟩
    · intro w hw
      obtain ⟨x, hx, hwx⟩ := m.grows hi hn (Visits.finish _ m.run_eq) k w hw
      rw [h] at hx
      rw [Option.some.inj hx]
      exact not_lt.mpr hwx
    · intro w hw
      rw [versionOf_overlay, hw, Option.some_or] at h
      rw [Option.some.inj h]
      exact lt_irrefl v

/-- The zero version of a key that was absent passes exactly when it still is. -/
theorem fresh_absent_iff (m : Moment libs blocks codes L block txFilter es s)
    (hpos : ∀ k v, versionOf L.state k = some v → 0 < v.blockNum) (hn : 0 < block.number)
    (k : Bytes) :
    fresh L.state s.updates (k, Version.zero) = true ↔ versionOf (overlay L s) k = none := by
  have hzero (w : Version) (hw : 0 < w.blockNum) : Version.zero < w := Version.lt_of_blockNum_lt hw
  rw [fresh_iff, versionOf_overlay, Option.or_eq_none_iff]
  -- every version that can be met is above zero
  constructor
  · intro h
    refine ⟨?_, ?_⟩
    · apply Option.eq_none_iff_forall_ne_some.mpr
      intro w hw
      exact h.2 w hw (hzero w (by rw [m.versionOf_updates hw]; exact hn))
    · apply Option.eq_none_iff_forall_ne_some.mpr
      intro w hw
      exact h.1 w hw (hzero w (hpos k w hw))
  · intro h
    refine ⟨fun w hw => ?_, fun w hw => ?_⟩
    · rw [h.2] at hw
      cases hw
    · rw [h.1] at hw
      cases hw

end

/-- The genesis block carries no endorser transactions. -/
def GenesisConfigOnly (blocks : List (Encoded Block)) : Prop :=
  ∀ b ∈ blocks, ∀ block, b.decoded = some block → block.number = 0 →
    ∀ e ∈ block.data, envelopeTx 0 e = none

theorem envelopeTx_of_mem_entries {state : Kvs} {number : ℕ} {txFilter : Bytes} {updates : Kvs}
    {es : List (Encoded Envelope × ℕ)} {p : Bytes × KvsValue}
    (h : p ∈ entries number (planBlock state number txFilter updates es)) :
    ∃ e ∈ es, (envelopeTx number e.1).isSome := by
  obtain ⟨q, hq, hp⟩ := List.mem_flatMap.mp h
  obtain ⟨e, he, u, rfl⟩ := mem_planBlock hq
  refine ⟨e, he, ?_⟩
  by_contra hnone
  have hn : envelopeTx number e.1 = none := by simpa using hnone
  obtain ⟨w, hw, -⟩ := List.mem_map.mp hp
  have hnil : (planEnvelope state number txFilter u e).writes = [] := by
    rw [planEnvelope, hn]
    split_ifs <;> rfl
  rw [hnil] at hw
  cases hw

/-- Then no version in the state is of block 0, whence (0,0) stands for absence. -/
theorem run_versions_pos {libs : Libs} {blocks : List (Encoded Block)} {L : Ledger}
    {codes : List RetCode} (h : run libs blocks = some (L, codes)) (hg : GenesisConfigOnly blocks) :
    ∀ k v, versionOf L.state k = some v → 0 < v.blockNum := by
  refine exec_invariant (parseBlock libs)
    (fun blocks _ L => GenesisConfigOnly blocks → ∀ k v, versionOf L.state k = some v →
      0 < v.blockNum) ?_ ?_ h hg
  · intro _ k v hv
    rw [versionOf, show start.state = ∅ from rfl, ExtTreeMap.getElem?_empty] at hv
    cases hv
  · intro blocks codes L b L' c hr ih hs hg k v hv
    have hpre : GenesisConfigOnly blocks := fun b' hb' => hg b' (List.mem_append_left _ hb')
    rcases parseBlock_cases hs with ⟨-, block, txFilter, hb, hc⟩ | ⟨-, hstate, -⟩
    · rw [hc.state_eq, versionOf_assignAll, Option.or_eq_some_iff] at hv
      rcases hv with hv | ⟨-, hv⟩
      · -- an entry of this block: it comes from an endorser transaction
        have hnum := versionOf_entries hv
        rw [hnum]
        apply Nat.pos_of_ne_zero
        intro hzero
        obtain ⟨x, hx, -⟩ := Option.map_eq_some_iff.mp hv
        obtain ⟨e, he, hsome⟩ := envelopeTx_of_mem_entries (mem_of_getElem?_insertAll_empty hx)
        have hdata : e.1 ∈ block.data := List.fst_mem_of_mem_zipIdx he
        rw [hzero, hg b (by simp) block hb hzero e.1 hdata] at hsome
        cases hsome
      · exact ih hpre k v hv
    · rw [hstate] at hv
      exact ih hpre k v hv

end SecureChaincode
