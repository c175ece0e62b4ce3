import SecureChaincode.Exec
import SecureChaincode.BlockOrder

/-! Runs of `parse_block` from a fresh enclave: the chain of committed blocks, and what
the versions in the state have to do with it. -/
namespace SecureChaincode

open Std

/-- The ledger that `init_ledger` leaves in a fresh enclave, when `ecall_join_channel` goes on
to the genesis block. -/
def start : Ledger := initLedger Ledger.fresh

/-- Blocks handed to the enclave one after the other, in whatever order. -/
def run (libs : Libs) (blocks : List (Encoded Block)) : Option (Ledger × List RetCode) :=
  exec (parseBlock libs) start blocks

/-- The blocks that were answered with `LEDGER_SUCCESS`. -/
def chain (blocks : List (Encoded Block)) (codes : List RetCode) : List Block :=
  (blocks.zip codes).filterMap (fun p => if p.2 = .success then p.1.decoded else none)

/-- If the header number passes for position `n` in 32 bits, it is `n`. -/
def InPlace (n : ℕ) (blockData : Encoded Block) : Prop :=
  ∀ block, blockData.decoded = some block → block.number%2^32 = n%2^32 → block.number = n

/-- Every block of the run is in place at the position the chain has reached. -/
def InPlaceRun (libs : Libs) (blocks : List (Encoded Block)) : Prop :=
  ∀ pre b post t codes, blocks = pre ++ b :: post → run libs pre = some (t, codes) →
    InPlace (chain pre codes).length b

theorem chain_append {pre post : List (Encoded Block)} {codes codes' : List RetCode}
    (hl : codes.length = pre.length) :
    chain (pre ++ post) (codes ++ codes') = chain pre codes ++ chain post codes' := by
  rw [chain, List.zip_append hl.symm, List.filterMap_append]
  rfl

theorem chain_snoc {blocks : List (Encoded Block)} {codes : List RetCode}
    (hl : codes.length = blocks.length) (b : Encoded Block) (c : RetCode) :
    chain (blocks ++ [b]) (codes ++ [c]) =
      chain blocks codes ++ (if c = .success then b.decoded else none).toList := by
  rw [chain_append hl]
  cases hc : (if c = .success then b.decoded else none) with
  | none => simp [chain, hc]
  | some block => simp [chain, hc]

theorem chain_snoc_success {blocks : List (Encoded Block)} {codes : List RetCode}
    (hl : codes.length = blocks.length) {b : Encoded Block} {block : Block}
    (hb : b.decoded = some block) :
    chain (blocks ++ [b]) (codes ++ [.success]) = chain blocks codes ++ [block] := by
  rw [chain_snoc hl, if_pos rfl, hb, Option.toList_some]

theorem chain_snoc_rejected {blocks : List (Encoded Block)} {codes : List RetCode}
    (hl : codes.length = blocks.length) (b : Encoded Block) {c : RetCode} (hc : c ≠ .success) :
    chain (blocks ++ [b]) (codes ++ [c]) = chain blocks codes := by
  rw [chain_snoc hl, if_neg hc, Option.toList_none, List.append_nil]

theorem InPlaceRun.init {libs : Libs} {blocks : List (Encoded Block)} {b : Encoded Block}
    (h : InPlaceRun libs (blocks ++ [b])) : InPlaceRun libs blocks := by
  intro pre c post t codes he hr
  apply h pre c (post ++ [b]) t codes _ hr
  rw [he, List.append_assoc, List.cons_append]

theorem InPlaceRun.last {libs : Libs} {blocks : List (Encoded Block)} {b : Encoded Block}
    {t : Ledger} {codes : List RetCode} (h : InPlaceRun libs (blocks ++ [b]))
    (hr : run libs blocks = some (t, codes)) : InPlace (chain blocks codes).length b :=
  h blocks b [] t codes rfl hr

/-- The counter follows the length of the chain, in 32 bits. -/
theorem run_sequenceNumber {libs : Libs} {blocks : List (Encoded Block)} {L : Ledger}
    {codes : List RetCode} (h : run libs blocks = some (L, codes)) :
    L.sequenceNumber + 1 = UInt32.ofNat (chain blocks codes).length := by
  refine exec_invariant (parseBlock libs)
    (fun blocks codes L => L.sequenceNumber + 1 = UInt32.ofNat (chain blocks codes).length)
    rfl ?_ h
  intro blocks codes t b t' c hr ih hstep
  have hl := exec_length (parseBlock libs) hr
  rcases parseBlock_cases hstep with ⟨rfl, block, txFilter, hb, hc⟩ | ⟨hne, -, hseq⟩
  · rw [chain_snoc_success hl hb, List.length_append, List.length_singleton, UInt32.ofNat_add,
      hc.sequenceNumber_eq, ih]
    rfl
  · rw [chain_snoc_rejected hl b hne, hseq, ih]

/-- The header number of a block in place that is committed is its position. -/
theorem number_eq_of_inPlace {L L' : Ledger} {b : Encoded Block} {block : Block} {txFilter : Bytes}
    {n : ℕ} (hb : b.decoded = some block) (hc : Commits L block txFilter L')
    (hseq : L.sequenceNumber + 1 = UInt32.ofNat n) (hp : InPlace n b) : block.number = n := by
  apply hp block hb
  have he := congrArg UInt32.toNat (hc.number_eq.trans hseq)
  simpa only [UInt32.toNat_ofNat'] using he

/-- The update map of a block holds versions of that block only. -/
theorem versionOf_entries {number : ℕ} {plan : List (ℕ × Outcome)} {k : Bytes} {v : Version}
    (h : versionOf (insertAll ∅ (entries number plan)) k = some v) : v.blockNum = number := by
  obtain ⟨x, hx, rfl⟩ := Option.map_eq_some_iff.mp h
  exact version_of_mem_entries (mem_of_getElem?_insertAll_empty hx)

/-- Every key of the first state is in the second, under the same version or a later one. -/
def Grows (s s' : Kvs) : Prop :=
  ∀ k v, versionOf s k = some v → ∃ w, versionOf s' k = some w ∧ v ≤ w

theorem Grows.refl (s : Kvs) : Grows s s := fun _ v hv => ⟨v, hv, le_rfl⟩

theorem Grows.trans {s s' s'' : Kvs} (h : Grows s s') (h' : Grows s' s'') : Grows s s'' := by
  intro k v hv
  obtain ⟨w, hw, hvw⟩ := h k v hv
  obtain ⟨x, hx, hwx⟩ := h' k w hw
  exact ⟨x, hx, hvw.trans hwx⟩

/-- What holds of chain and state as long as the blocks are in place. -/
structure ChainInv (libs : Libs) (blocks : List (Encoded Block)) (codes : List RetCode)
    (L : Ledger) : Prop where
  numbers : (chain blocks codes).map Block.number = List.range (chain blocks codes).length
  below : ∀ k v, versionOf L.state k = some v → v.blockNum < (chain blocks codes).length
  grows : ∀ t, Visits (parseBlock libs) start blocks t → Grows t.state L.state

/-- The versions of a commit: those of the block win, and they are above all others. -/
theorem versionOf_commit {L L' : Ledger} {block : Block} {txFilter : Bytes}
    (hc : Commits L block txFilter L') (k : Bytes) (v : Version) (hv : versionOf L'.state k = some v) :
    v.blockNum = block.number ∨ versionOf L.state k = some v := by
  rw [hc.state_eq, versionOf_assignAll, Option.or_eq_some_iff] at hv
  rcases hv with hv | ⟨-, hv⟩
  · exact Or.inl (versionOf_entries hv)
  · exact Or.inr hv

theorem grows_commit {L L' : Ledger} {block : Block} {txFilter : Bytes}
    (hc : Commits L block txFilter L')
    (hbelow : ∀ k v, versionOf L.state k = some v → v.blockNum < block.number) :
    Grows L.state L'.state := by
  intro k v hv
  rw [hc.state_eq, versionOf_assignAll]
  cases hu : versionOf (insertAll ∅ (entries block.number
      (planBlock L.state block.number txFilter ∅ block.data.zipIdx))) k with
  | none => exact ⟨v, by rw [Option.none_or, hv], le_rfl⟩
  | some w =>
    refine ⟨w, Option.some_or, (Version.lt_of_blockNum_lt ?_).le⟩
    rw [versionOf_entries hu]
    exact hbelow k v hv

/-- Step lemma of the invariant. -/
theorem ChainInv.step {libs : Libs} {blocks : List (Encoded Block)} {codes : List RetCode}
    {L L' : Ledger} {b : Encoded Block} {c : RetCode} (hr : run libs blocks = some (L, codes))
    (hi : ChainInv libs blocks codes L) (hp : InPlace (chain blocks codes).length b)
    (hs : parseBlock libs L b = some (L', c)) :
    ChainInv libs (blocks ++ [b]) (codes ++ [c]) L' := by
  have hl := exec_length (parseBlock libs) hr
  -- the new moment of the run is its end, all others have been there before
  have hvisits (hg : Grows L.state L'.state) (t : Ledger)
      (ht : Visits (parseBlock libs) start (blocks ++ [b]) t) : Grows t.state L'.state := by
    rcases (visits_snoc (parseBlock libs)).mp ht with ht | ⟨os, ht⟩
    · exact (hi.grows t ht).trans hg
    · have he := (exec_snoc_eq_some (parseBlock libs)).mpr ⟨L, codes, L', c, hr, hs, rfl⟩
      rw [he] at ht
      cases ht
      exact Grows.refl _
  rcases parseBlock_cases hs with ⟨rfl, block, txFilter, hb, hc⟩ | ⟨hne, hstate, -⟩
  · have hnum := number_eq_of_inPlace hb hc (run_sequenceNumber hr) hp
    have hchain := chain_snoc_success hl hb
    have hg := grows_commit hc (fun k v hv => by rw [hnum]; exact hi.below k v hv)
    refine ⟨?_, ?_, hvisits hg⟩
    · rw [hchain, List.map_append, hi.numbers, List.length_append, List.length_singleton,
        List.range_succ, List.map_singleton, hnum]
    · intro k v hv
      rw [hchain, List.length_append, List.length_singleton]
      rcases versionOf_commit hc k v hv with hnew | hold
      · omega
      · have hlt := hi.below k v hold
        omega
  · have hchain := chain_snoc_rejected hl b hne
    refine ⟨?_, ?_, hvisits (by rw [hstate]; exact Grows.refl _)⟩
    · rw [hchain]
      exact hi.numbers
    · rw [hchain, hstate]
      exact hi.below

/-- Run lemma of the invariant. -/
theorem run_chainInv {libs : Libs} {blocks : List (Encoded Block)} {L : Ledger}
    {codes : List RetCode} (h : run libs blocks = some (L, codes)) (hp : InPlaceRun libs blocks) :
    ChainInv libs blocks codes L := by
  refine exec_invariant (parseBlock libs)
    (fun blocks codes L => InPlaceRun libs blocks → ChainInv libs blocks codes L) ?_ ?_ h hp
  · -- at the start there is no chain and no entry
    intro _
    refine ⟨rfl, ?_, ?_⟩
    · intro k v hv
      have hnone : versionOf start.state k = none := by
        rw [versionOf, show start.state = ∅ from rfl, ExtTreeMap.getElem?_empty, Option.map_none]
      rw [hnone] at hv
      cases hv
    · intro t ht
      rw [visits_nil (parseBlock libs) ht]
      exact Grows.refl _
  · intro blocks codes L b L' c hr ih hs hp
    exact (ih hp.init).step hr (hp.last hr) hs

/-- Header numbers that fit in 32 bits are in place until the counter has come round. -/
theorem inPlaceRun_of_numbers_lt {libs : Libs} {blocks : List (Encoded Block)} {L : Ledger}
    {codes : List RetCode} (h : run libs blocks = some (L, codes))
    (hn : ∀ b ∈ blocks, ∀ block, b.decoded = some block → block.number < 2^32)
    (hc : (chain blocks codes).length < 2^32) : InPlaceRun libs blocks := by
  intro pre b post t pcodes he hr block hb hmod
  have hlt : block.number < 2^32 := hn b (by rw [he]; simp) block hb
  have hle : (chain pre pcodes).length ≤ (chain blocks codes).length := by
    rw [he] at h
    obtain ⟨t', os, u, os', ht', -, hcodes⟩ := (exec_append_eq_some (parseBlock libs)).mp h
    rw [show exec (parseBlock libs) start pre = some (t, pcodes) from hr] at ht'
    cases ht'
    cases hcodes
    rw [he, chain_append (exec_length (parseBlock libs) hr), List.length_append]
    exact Nat.le_add_right _ _
  rw [Nat.mod_eq_of_lt hlt, Nat.mod_eq_of_lt (hle.trans_lt hc)] at hmod
  exact hmod

/-- As long as every block is in place, the committed blocks are numbered 0, 1, 2, ...
without a gap, all others are rejected, and the block number of every version in the
state is that of the block at this position of the chain. -/
theorem committed_blocks_gap_free (libs : Libs) (blocks : List (Encoded Block)) (L : Ledger)
    (codes : List RetCode) (h : run libs blocks = some (L, codes)) (hp : InPlaceRun libs blocks) :
    (chain blocks codes).map Block.number = List.range (chain blocks codes).length ∧
      (∀ c ∈ codes, c ≠ .success → c = .invalidBlockNumber ∨ c = .errorDecoding) ∧
      ∀ k v, versionOf L.state k = some v →
        (chain blocks codes)[v.blockNum]?.map Block.number = some v.blockNum := by
  have hi := run_chainInv h hp
  refine ⟨hi.numbers, ?_, ?_⟩
  · intro c _ hc
    cases c with
    | success => exact absurd rfl hc
    | errorDecoding => exact Or.inr rfl
    | invalidBlockNumber => exact Or.inl rfl
  · intro k v hv
    rw [← List.getElem?_map, hi.numbers, List.getElem?_range (hi.below k v hv)]

theorem run_wrapped {blocks : List (Encoded Block)} (h : ∀ b ∈ blocks, WrappedBlock b) :
    run parsonLibs blocks = run bareLibs blocks :=
  exec_congr _ (fun L b hb => parseBlock_wrapped (h b hb) L) start

theorem two_blocks_gap_free :
    ∃ L codes, run parsonLibs [configBlock 0, wrapBlock 1 [0] [bid "a" "1"]] = some (L, codes) ∧
      (chain [configBlock 0, wrapBlock 1 [0] [bid "a" "1"]] codes).map Block.number = [0, 1] := by
  have hwrapped : ∀ b ∈ [configBlock 0, wrapBlock 1 [0] [bid "a" "1"]], WrappedBlock b :=
    List.forall_mem_cons.mpr ⟨wrappedBlock_configBlock 0,
      List.forall_mem_singleton.mpr (wrappedBlock_singleton 1 [0] (wrapped_bid "a" "1"))⟩
  have hrun := (run_wrapped hwrapped).trans rfl
  refine ⟨_, _, hrun, ?_⟩
  have hp : InPlaceRun parsonLibs [configBlock 0, wrapBlock 1 [0] [bid "a" "1"]] := by
    refine inPlaceRun_of_numbers_lt hrun ?_ (by decide)
    intro b hb block hd
    rcases List.mem_cons.mp hb with rfl | hb
    · cases hd
      decide
    · rw [List.mem_singleton.mp hb] at hd
      cases hd
      decide
  exact (committed_blocks_gap_free parsonLibs [configBlock 0, wrapBlock 1 [0] [bid "a" "1"]]
    _ _ hrun hp).1

/-- A block that numbers itself 2^32 is committed as the first of the chain, and its
version stays in the state. -/
theorem wide_number_committed_first :
    ∃ L, run parsonLibs [wrapBlock (2^32) [0] [bid "a" "1"]] = some (L, [.success]) ∧
      (chain [wrapBlock (2^32) [0] [bid "a" "1"]] [.success]).map Block.number = [2^32] ∧
      versionOf L.state (str "ecc.a") = some ⟨2^32, 0⟩ := by
  have hwrapped : ∀ b ∈ [wrapBlock (2^32) [0] [bid "a" "1"]], WrappedBlock b :=
    List.forall_mem_singleton.mpr (wrappedBlock_singleton (2^32) [0] (wrapped_bid "a" "1"))
  exact ⟨_, (run_wrapped hwrapped).trans rfl, rfl, by decide⟩

end SecureChaincode
