import SecureChaincode.Mvcc

/-! Point reads of transactions that were simulated on an earlier committed state: until the
32-bit counter of the ledger has come round, the conflict check is exact, apart from what rejected
transactions have left in the updates of the block. -/
namespace SecureChaincode

open Std (ExtTreeMap)

/-- A read of a key by a transaction that was simulated on the state `seen`. -/
structure SnapshotRead where
  key : Bytes
  seen : Kvs

/-- The reads and writes that a simulated transaction has in one namespace. -/
structure NsSnapshot where
  ns : Bytes
  reads : List SnapshotRead
  writes : List KVWrite

/-- The ledger's name for the key of a read. -/
def NsSnapshot.name (g : NsSnapshot) (r : SnapshotRead) : Bytes := cstr g.ns ++ str "." ++ r.key

/-- The version that the read records, (0,0) for a key that is absent. -/
def NsSnapshot.recorded (g : NsSnapshot) (r : SnapshotRead) : Version :=
  (versionOf r.seen (g.name r)).getD Version.zero

/-- The entry that the simulation leaves for the namespace. -/
def NsSnapshot.rwset (g : NsSnapshot) : NsReadWriteSet :=
  wrapNs g.ns ⟨g.reads.map (fun r => ⟨some r.key, g.recorded r⟩), [], g.writes⟩

/-- The read/write set of a transaction with point reads only. -/
def pointReadSet (groups : List NsSnapshot) : TxReadWriteSet := ⟨groups.map NsSnapshot.rwset⟩

theorem nsReadList_rwset (g : NsSnapshot) (hk : ∀ r ∈ g.reads, (0 : UInt8) ∉ r.key) :
    nsReadList g.rwset = .ok (g.reads.map (fun r => (g.name r, g.recorded r))) := by
  have hp : (g.reads.map (fun r => (⟨some r.key, g.recorded r⟩ : KVRead))).mapM
      (pointKey (cstr g.ns)) = .ok (g.reads.map (fun r => [(g.name r, g.recorded r)])) := by
    apply mapM_map_eq_ok
    intro r hr
    have hname : simpleName (cstr g.ns) r.key = g.name r := by
      rw [simpleName, cstr_eq_self (hk r hr), NsSnapshot.name]
    simp only [pointKey, deref, bind, Except.bind, pure, Except.pure, hname]
  simp only [nsReadList, NsSnapshot.rwset, wrapNs, encode, deref, decodePb, bind, Except.bind,
    List.mapM_nil, pure, Except.pure, hp, List.flatten_nil, List.nil_append]
  rw [← List.flatMap_def, List.map_eq_flatMap]

theorem readList_pointReadSet {groups : List NsSnapshot}
    (hk : ∀ g ∈ groups, ∀ r ∈ g.reads, (0 : UInt8) ∉ r.key) :
    readList (pointReadSet groups) =
      .ok (groups.flatMap (fun g => g.reads.map (fun r => (g.name r, g.recorded r)))) := by
  have hm := mapM_map_eq_ok (fun g hg => nsReadList_rwset g (hk g hg))
  rw [readList, pointReadSet, hm, List.flatMap_def]
  rfl

/-- Blocks `m`, ..., `m + k - 1`, each with a configuration only. -/
def configBlocks (m k : ℕ) : List (Encoded Block) := (List.range' m k).map configBlock

/-- A row of such blocks only moves the counter. -/
theorem exec_configBlocks (libs : Libs) (L : Ledger) (m k : ℕ)
    (hm : L.sequenceNumber + 1 = UInt32.ofNat m) :
    exec (parseBlock libs) L (configBlocks m k) =
      some ({ L with sequenceNumber := UInt32.ofNat (m+k)-1 }, List.replicate k .success) := by
  induction k generalizing L m with
  | zero =>
    have hs : UInt32.ofNat m-1 = L.sequenceNumber := by rw [← hm]; exact UInt32.add_sub_cancel _ _
    rw [Nat.add_zero, hs]
    rfl
  | succ k ih =>
    have hstep := parseBlock_configBlock libs L m hm.symm
    have hnext : UInt32.ofNat m+1 = UInt32.ofNat (m+1) := (UInt32.ofNat_add m 1).symm
    have hrest := ih { L with sequenceNumber := UInt32.ofNat m } (m+1) hnext
    have hsum : m+1+k = m+(k+1) := by omega
    rw [configBlocks, List.range'_succ, List.map_cons, exec_cons_eq_some]
    rw [hsum] at hrest
    exact ⟨_, _, _, _, hstep, hrest, rfl⟩

/-- A block with one bid on a key. -/
theorem parseBlock_bid (L : Ledger) (n : ℕ) (value : String)
    (hn : UInt32.ofNat n = L.sequenceNumber + 1) :
    parseBlock parsonLibs L (wrapBlock n [0] [bid "a" value]) =
      some (⟨assignAll L.state (insertAll ∅ [(str "ecc.a", str value, ⟨n, 0⟩)]), UInt32.ofNat n,
        L.rootCerts⟩, .success) := by
  have hm : blockMetadata (plainBlock n [0] [bid "a" value]) = .ok [0] :=
    blockMetadata_plainBlock n (List.cons_ne_nil _ _) (Nat.le_refl 1)
  have hnum : (plainBlock n [0] [bid "a" value]).number = n := rfl
  have hloop : (plainBlock n [0] [bid "a" value]).data.zipIdx.foldlM
      (processEnvelope bareLibs L.state n [0]) ⟨∅, L.rootCerts⟩ =
        .ok ⟨insertAll ∅ [(str "ecc.a", str value, ⟨n, 0⟩)], L.rootCerts⟩ := by
    have hone : processEnvelope bareLibs L.state n [0] ⟨∅, L.rootCerts⟩ (bid "a" value, 0) =
        .ok ⟨insertAll ∅ [(str "ecc.a", str value, ⟨n, 0⟩)], L.rootCerts⟩ := by
      have hskip : ¬([0] : Bytes)[0]? = some 1 := by decide
      rw [processEnvelope, if_neg hskip, bid, endorserTx, wrapEnvelope, unwrapEnvelope_wrapData]
      rfl
    change ([(bid "a" value, 0)] : List (Encoded Envelope × ℕ)).foldlM _ _ = _
    rw [List.foldlM_cons, hone]
    rfl
  rw [parseBlock_wrapped (wrappedBlock_singleton n [0] (wrapped_bid "a" value))]
  simp only [parseBlock, wrapBlock, encode, hnum]
  rw [if_pos hn, hm]
  simp only [hloop, commitStateUpdates, if_pos hn, Option.map_some]

/-- The ledger after blocks 0, 1 and 2, of which the last has a bid. -/
def firstRound : Ledger :=
  ⟨assignAll ∅ (insertAll ∅ [(str "ecc.a", str "1", ⟨2, 0⟩)]), 2, ⟨some [], some []⟩⟩

/-- The ledger after blocks 0 and 1 of the next round, of which the last has a bid. -/
def secondRound : Ledger :=
  ⟨assignAll firstRound.state (insertAll ∅ [(str "ecc.a", str "2", ⟨1, 0⟩)]), 1,
    ⟨some [], some []⟩⟩

def firstBlocks : List (Encoded Block) :=
  [configBlock 0, configBlock 1, wrapBlock 2 [0] [bid "a" "1"]]

/-- One full round of the counter, and two blocks of the next. -/
def roundTrip : List (Encoded Block) :=
  firstBlocks ++ configBlocks 3 (2^32-3) ++ [configBlock 0, wrapBlock 1 [0] [bid "a" "2"]]

theorem run_firstBlocks :
    run parsonLibs firstBlocks = some (firstRound, [.success, .success, .success]) := by
  have h0 := parseBlock_configBlock parsonLibs start 0 rfl
  have h1 := parseBlock_configBlock parsonLibs { start with sequenceNumber := UInt32.ofNat 0 } 1 rfl
  have h2 := parseBlock_bid { start with sequenceNumber := UInt32.ofNat 1 } 2 "1" rfl
  rw [run, firstBlocks, exec_cons_eq_some]
  refine ⟨_, _, _, _, h0, (exec_cons_eq_some _).mpr ⟨_, _, _, _, h1, ?_, rfl⟩, rfl⟩
  exact (exec_cons_eq_some _).mpr ⟨_, _, _, _, h2, rfl, rfl⟩

def roundTripCodes : List RetCode :=
  [.success, .success, .success] ++ List.replicate (2^32-3) .success ++ [.success, .success]

theorem run_roundTrip : run parsonLibs roundTrip = some (secondRound, roundTripCodes) := by
  have hconfig := exec_configBlocks parsonLibs firstRound 3 (2^32-3) rfl
  have hround := (exec_append_eq_some (parseBlock parsonLibs)).mpr
    ⟨_, _, _, _, run_firstBlocks, hconfig, rfl⟩
  -- the counter is where it was before the first block
  have h0 := parseBlock_configBlock parsonLibs
    { firstRound with sequenceNumber := UInt32.ofNat (3+(2^32-3))-1 } 0 rfl
  have h1 := parseBlock_bid { firstRound with sequenceNumber := UInt32.ofNat 0 } 1 "2" rfl
  have hnext : exec (parseBlock parsonLibs)
      { firstRound with sequenceNumber := UInt32.ofNat (3+(2^32-3))-1 }
      [configBlock 0, wrapBlock 1 [0] [bid "a" "2"]] = some (secondRound, [.success, .success]) :=
    (exec_cons_eq_some _).mpr
      ⟨_, _, _, _, h0, (exec_cons_eq_some _).mpr ⟨_, _, _, _, h1, rfl, rfl⟩, rfl⟩
  exact (exec_append_eq_some _).mpr ⟨_, _, _, _, hround, hnext, rfl⟩

theorem mem_roundTrip {b : Encoded Block} (h : b ∈ roundTrip) {block : Block}
    (hb : b.decoded = some block) :
    block.number < 2^32 ∧ (block.number = 0 → block.data = [configTx]) := by
  rcases List.mem_append.mp h with h | h
  · rcases List.mem_append.mp h with h | h
    · simp only [firstBlocks, List.mem_cons, List.not_mem_nil, or_false] at h
      rcases h with rfl | rfl | rfl <;> cases hb
      · exact ⟨by decide, fun _ => rfl⟩
      · exact ⟨by decide, fun _ => rfl⟩
      · exact ⟨by decide, fun h => by cases h⟩
    · obtain ⟨n, hn, rfl⟩ := List.mem_map.mp h
      cases hb
      have hlt : n < 3+(2^32-3) := (List.mem_range'_1.mp hn).2
      exact ⟨hlt, fun _ => rfl⟩
  · simp only [List.mem_cons, List.not_mem_nil, or_false] at h
    rcases h with rfl | rfl <;> cases hb
    · exact ⟨by decide, fun _ => rfl⟩
    · exact ⟨by decide, fun h => by cases h⟩

/-- Blocks whose genesis blocks have a configuration only. -/
theorem genesisConfigOnly_of_configTx {blocks : List (Encoded Block)}
    (h : ∀ b ∈ blocks, ∀ block, b.decoded = some block → block.number = 0 → block.data = [configTx]) :
    GenesisConfigOnly blocks := by
  intro b hb block hd hzero e he
  rw [h b hb block hd hzero, List.mem_singleton] at he
  rw [he, envelopeTx_configTx]

theorem genesisConfigOnly_roundTrip : GenesisConfigOnly roundTrip :=
  genesisConfigOnly_of_configTx (fun _ hb _ hd => (mem_roundTrip hb hd).2)

/-- A transaction that has read `a` in the state after block 2. -/
def staleRead : List NsSnapshot := [⟨str "ecc", [⟨str "a", firstRound.state⟩], []⟩]

/-! A key that is read is looked for in the updates of the block. There it has the entry of an
accepted transaction, or what a rejected one has left behind. -/

/-- State and updates of the accepted transactions of the block so far. -/
def acceptedOverlay (L : Ledger) (number : ℕ) (plan : List (ℕ × Outcome)) : Kvs :=
  assignAll L.state (insertAll ∅ (entries number (plan.filter (fun p => p.2.accepted))))

theorem versionOf_entries_eq_none_iff {number : ℕ} {plan : List (ℕ × Outcome)} {k : Bytes} :
    versionOf (insertAll ∅ (entries number plan)) k = none ↔ ∀ p ∈ plan, ∀ v, (k, v) ∉ p.2.writes := by
  rw [versionOf, Option.map_eq_none_iff, getElem?_insertAll, ExtTreeMap.getElem?_empty, Option.none_or,
    List.lookup_eq_none_iff]
  constructor
  · intro h p hp v hv
    have hmem : (k, v, (⟨number, p.1⟩ : Version)) ∈ entries number plan :=
      List.mem_flatMap.mpr ⟨p, hp, List.mem_map.mpr ⟨(k, v), hv, rfl⟩⟩
    exact absurd rfl (bne_iff_ne.mp (h _ hmem))
  · intro h x hx
    obtain ⟨p, hp, hx⟩ := List.mem_flatMap.mp hx
    obtain ⟨w, hw, rfl⟩ := List.mem_map.mp hx
    refine bne_iff_ne.mpr ?_
    rintro rfl
    exact h p hp w.2 hw

/-- A version from before the block is found exactly when the block has not written the key and
the state still has it. -/
theorem versionOf_over_entries_iff {state : Kvs} {number : ℕ} {plan : List (ℕ × Outcome)} {k : Bytes}
    {o : Option Version} (hold : ∀ v, o = some v → v.blockNum < number) :
    versionOf (assignAll state (insertAll ∅ (entries number plan))) k = o ↔
      (∀ p ∈ plan, ∀ v, (k, v) ∉ p.2.writes) ∧ versionOf state k = o := by
  rw [versionOf_assignAll, ← versionOf_entries_eq_none_iff]
  cases hw : versionOf (insertAll ∅ (entries number plan)) k with
  | none => simp only [Option.none_or, true_and]
  | some w =>
    have hnum := versionOf_entries hw
    refine iff_of_false ?_ (fun h => Option.some_ne_none w h.1)
    intro h
    have hlt := hold w (by rw [← h, Option.some_or])
    omega

theorem not_written_iff {plan : List (ℕ × Outcome)} {k : Bytes} :
    (∀ p ∈ plan, ∀ v, (k, v) ∉ p.2.writes) ↔
      (∀ p ∈ plan.filter (fun p => p.2.accepted), ∀ v, (k, v) ∉ p.2.writes) ∧ ∀ i v, ¬StrayWriter plan i k v := by
  constructor
  · intro h
    refine ⟨fun p hp => h p (List.mem_filter.mp hp).1, ?_⟩
    rintro i v ⟨o, ho, -, hv⟩
    exact h (i, o) ho v hv
  · rintro ⟨haccepted, hstray⟩ p hp v hv
    cases hacc : p.2.accepted with
    | true => exact haccepted p (List.mem_filter.mpr ⟨hp, hacc⟩) v hv
    | false => exact hstray p.1 v ⟨p.2, hp, hacc, hv⟩

/-- Every key that was read has the version it was read with, or is still absent. -/
def StillSeen (state : Kvs) (groups : List NsSnapshot) : Prop :=
  ∀ g ∈ groups, ∀ r ∈ g.reads, versionOf state (g.name r) = versionOf r.seen (g.name r)

/-- No rejected transaction has carried out a write to a key that was read. -/
def NoStrayWrite (plan : List (ℕ × Outcome)) (groups : List NsSnapshot) : Prop :=
  ∀ g ∈ groups, ∀ r ∈ g.reads, ∀ i v, ¬StrayWriter plan i (g.name r) v

/-- What was seen in an earlier state is older than the blocks to come. -/
theorem ChainInv.seen_below {libs : Libs} {blocks : List (Encoded Block)} {codes : List RetCode} {L t : Ledger}
    (hi : ChainInv libs blocks codes L) (ht : Visits (parseBlock libs) start blocks t) {k : Bytes} {v : Version}
    (hv : versionOf t.state k = some v) : v.blockNum < (chain blocks codes).length := by
  obtain ⟨w, hw, hvw⟩ := hi.grows t ht k v hv
  have hle : v.blockNum ≤ w.blockNum := not_lt.mp (fun hlt => (Version.lt_of_blockNum_lt hlt).not_ge hvw)
  exact hle.trans_lt (hi.below k w hw)

/-- A read of an earlier state is fresh exactly when the accepted transactions leave its version, and
no rejected one has written the key. -/
theorem fresh_recorded_iff {libs : Libs} {blocks : List (Encoded Block)} {codes : List RetCode} {L t : Ledger}
    {block : Block} {txFilter : Bytes} {es : List (Encoded Envelope × ℕ)} {s : BlockPhase}
    (m : Moment libs blocks codes L block txFilter es s) (hi : ChainInv libs blocks codes L)
    (hpos : ∀ k v, versionOf L.state k = some v → 0 < v.blockNum) (hfirst : 0 < block.number)
    (hn : block.number = (chain blocks codes).length) (ht : Visits (parseBlock libs) start blocks t)
    {g : NsSnapshot} {r : SnapshotRead} (hrt : r.seen = t.state) :
    fresh L.state s.updates (g.name r, g.recorded r) = true ↔
      versionOf (acceptedOverlay L block.number (planBlock L.state block.number txFilter ∅ es)) (g.name r) =
          versionOf r.seen (g.name r) ∧
        ∀ i v, ¬StrayWriter (planBlock L.state block.number txFilter ∅ es) i (g.name r) v := by
  have hcurrent : fresh L.state s.updates (g.name r, g.recorded r) = true ↔
      versionOf (overlay L s) (g.name r) = versionOf r.seen (g.name r) := by
    rw [NsSnapshot.recorded, hrt]
    cases hv : versionOf t.state (g.name r) with
    | none => exact fresh_absent_iff m hpos hfirst (g.name r)
    | some v => exact fresh_seen_iff m hi hn ht hv
  have hold (v) (hv : versionOf r.seen (g.name r) = some v) : v.blockNum < block.number := by
    rw [hrt] at hv
    rw [hn]
    exact hi.seen_below ht hv
  rw [hcurrent, overlay, foldlM_processEnvelope m.loop, acceptedOverlay, versionOf_over_entries_iff hold,
    versionOf_over_entries_iff hold, not_written_iff]
  exact and_right_comm

/-- Point reads on simple keys that carry the versions of earlier committed states, as long as the
counter has not come round. The read set passes exactly when all it has seen still holds in the
state under the updates of the accepted transactions of the block, and no rejected one has left
a write to a key of it. -/
theorem point_reads_pass_iff (libs : Libs) (blocks : List (Encoded Block)) (codes : List RetCode)
    (L : Ledger) (block : Block) (txFilter : Bytes) (es : List (Encoded Envelope × ℕ))
    (s : BlockPhase) (groups : List NsSnapshot)
    (m : Moment libs blocks codes L block txFilter es s)
    (hnum : ∀ b ∈ blocks, ∀ block, b.decoded = some block → block.number < 2^32)
    (hblock : 0 < block.number ∧ block.number < 2^32) (hg : GenesisConfigOnly blocks)
    (hseen : ∀ g ∈ groups, ∀ r ∈ g.reads, r.key ≠ [] ∧ (0 : UInt8) ∉ r.key ∧
      ∃ t, Visits (parseBlock libs) start blocks t ∧ r.seen = t.state)
    (hround : (chain blocks codes).length < 2^32) :
    let plan := planBlock L.state block.number txFilter ∅ es
    (NoStrayWrite plan groups →
      (PassesReads L.state s.updates (pointReadSet groups) ↔
        StillSeen (acceptedOverlay L block.number plan) groups)) ∧
      (PassesReads L.state s.updates (pointReadSet groups) ↔
        StillSeen (acceptedOverlay L block.number plan) groups ∧ NoStrayWrite plan groups) := by
  intro plan
  have hi := run_chainInv m.run_eq (inPlaceRun_of_numbers_lt m.run_eq hnum hround)
  have hpos := run_versions_pos m.run_eq hg
  have hn : block.number = (chain blocks codes).length := by
    apply m.number_eq
    intro block' hb hmod
    cases hb
    rwa [Nat.mod_eq_of_lt hblock.2, Nat.mod_eq_of_lt hround] at hmod
  have hread (g) (hgm : g ∈ groups) (r) (hr : r ∈ g.reads) :
      fresh L.state s.updates (g.name r, g.recorded r) = true ↔
        versionOf (acceptedOverlay L block.number plan) (g.name r) = versionOf r.seen (g.name r) ∧
          ∀ i v, ¬StrayWriter plan i (g.name r) v := by
    obtain ⟨-, -, t, ht, hrt⟩ := hseen g hgm r hr
    exact fresh_recorded_iff m hi hpos hblock.1 hn ht hrt
  have hiff : PassesReads L.state s.updates (pointReadSet groups) ↔
      StillSeen (acceptedOverlay L block.number plan) groups ∧ NoStrayWrite plan groups := by
    rw [passesReads_iff (readList_pointReadSet (fun g hg r hr => (hseen g hg r hr).2.1)),
      List.forall_mem_flatMap]
    constructor
    · intro h
      have hall (g) (hgm : g ∈ groups) (r) (hr : r ∈ g.reads) :=
        (hread g hgm r hr).mp (h g hgm _ (List.mem_map_of_mem hr))
      exact ⟨fun g hgm r hr => (hall g hgm r hr).1, fun g hgm r hr => (hall g hgm r hr).2⟩
    · rintro ⟨hcurrent, hstray⟩ g hgm
      rw [List.forall_mem_map]
      intro r hr
      exact (hread g hgm r hr).mpr ⟨hcurrent g hgm r hr, hstray g hgm r hr⟩
  exact ⟨fun hstray => hiff.trans (and_iff_left hstray), hiff⟩

/-- The read of the last state, behind another transaction that is accepted. -/
def readTx : Encoded Envelope := endorserTx ⟨[wrapAction (str "ecc") [str "submit"] (pointReadSet staleRead)]⟩

theorem read_of_last_state_passes :
    Moment parsonLibs firstBlocks [.success, .success, .success] firstRound
        (plainBlock 3 [0, 0] [bid "b" "1", readTx]) [0, 0] [(bid "b" "1", 0)]
        ⟨insertAll ∅ [(str "ecc.b", str "1", ⟨3, 0⟩)], firstRound.rootCerts⟩ ∧
      PassesReads firstRound.state (insertAll ∅ [(str "ecc.b", str "1", ⟨3, 0⟩)]) (pointReadSet staleRead) := by
  have hloop : ([(bid "b" "1", 0)] : List (Encoded Envelope × ℕ)).foldlM
      (processEnvelope parsonLibs firstRound.state 3 [0, 0]) ⟨∅, firstRound.rootCerts⟩ =
        .ok ⟨insertAll ∅ [(str "ecc.b", str "1", ⟨3, 0⟩)], firstRound.rootCerts⟩ := by
    rw [List.foldlM_cons, processEnvelope_wrapped (wrapped_bid "b" "1")]
    rfl
  have m : Moment parsonLibs firstBlocks [.success, .success, .success] firstRound
      (plainBlock 3 [0, 0] [bid "b" "1", readTx]) [0, 0] [(bid "b" "1", 0)]
      ⟨insertAll ∅ [(str "ecc.b", str "1", ⟨3, 0⟩)], firstRound.rootCerts⟩ :=
    ⟨run_firstBlocks, rfl, rfl, ⟨[(readTx, 1)], rfl⟩, hloop⟩
  have hmem (b : Encoded Block) (hb : b ∈ firstBlocks) : b ∈ roundTrip :=
    List.mem_append_left _ (List.mem_append_left _ hb)
  have hplan : planBlock firstRound.state 3 [0, 0] ∅ [(bid "b" "1", 0)] =
      [(0, ⟨[(str "ecc.b", str "1")], true⟩)] := rfl
  have hseen : ∀ g ∈ staleRead, ∀ r ∈ g.reads, r.key ≠ [] ∧ (0 : UInt8) ∉ r.key ∧
      ∃ t, Visits (parseBlock parsonLibs) start firstBlocks t ∧ r.seen = t.state := by
    intro g hg r hr
    rw [List.mem_singleton.mp hg] at hr
    rw [List.mem_singleton.mp hr]
    exact ⟨by decide, by decide, firstRound, Visits.finish _ run_firstBlocks, rfl⟩
  obtain ⟨hpasses, -⟩ := point_reads_pass_iff parsonLibs firstBlocks _ firstRound _ [0, 0] _ _ staleRead m
    (fun b hb block hd => (mem_roundTrip (hmem b hb) hd).1) ⟨by decide, by decide⟩
    (fun b hb => genesisConfigOnly_roundTrip b (hmem b hb)) hseen (by decide)
  refine ⟨m, (hpasses ?_).mpr ?_⟩
  · rintro g hg r hr i v ⟨o, ho, hrejected, -⟩
    cases List.mem_singleton.mp (hplan ▸ ho)
    cases hrejected
  · intro g hg r hr
    rw [List.mem_singleton.mp hg] at hr ⊢
    rw [List.mem_singleton.mp hr]
    decide

/-- The setup of `ecc`. -/
def setupBlocks : List (Encoded Block) :=
  [configBlock 0, wrapBlock 1 [0] [writeTx "ecc" [⟨some (str "MRENCLAVE"), some (str "AAAA")⟩]]]

def setupLedger : Ledger :=
  ⟨assignAll ∅ (insertAll ∅ [(mrenclaveKey, str "AAAA", ⟨1, 0⟩)]), 1, ⟨some [], some []⟩⟩

/-- A setup of `ercc` that writes a key of `ecc` too, and is rejected for its second write to the
registry. -/
def straySetup : Encoded Envelope :=
  endorserTx ⟨[wrapAction (str "ercc") [str "setup"] ⟨[wrapNs (str "ecc") ⟨[], [], [⟨some (str "a"), some (str "1")⟩]⟩,
    wrapNs (str "ercc") ⟨[], [], [⟨some (str "k"), some (str "1")⟩, ⟨some (str "l"), some (str "2")⟩]⟩]⟩]⟩

/-- A transaction that has found no entry under `a`. -/
def absentRead : List NsSnapshot := [⟨str "ecc", [⟨str "a", setupLedger.state⟩], []⟩]

/-- A full round later the key has gone back from version (2,0) to (1,0), and a read of (2,0)
passes: all header numbers are below 2^32, and the read carries the version the key once had. And
a read of an absent key is refused behind a rejected transaction that has written the key. -/
theorem point_reads_misjudged :
    ((∀ b ∈ roundTrip, ∀ block, b.decoded = some block → block.number < 2^32) ∧
      GenesisConfigOnly roundTrip ∧
      Visits (parseBlock parsonLibs) start roundTrip firstRound ∧
      Moment parsonLibs roundTrip roundTripCodes secondRound (plainBlock 2 [0] [readTx]) [0] []
        ⟨∅, secondRound.rootCerts⟩ ∧
      PassesReads secondRound.state ∅ (pointReadSet staleRead) ∧
      versionOf firstRound.state (str "ecc.a") = some ⟨2, 0⟩ ∧
      versionOf (acceptedOverlay secondRound 2 []) (str "ecc.a") = some ⟨1, 0⟩) ∧
    (Visits (parseBlock parsonLibs) start setupBlocks setupLedger ∧
      ∃ codes s, Moment parsonLibs setupBlocks codes setupLedger
          (plainBlock 2 [0, 0] [straySetup, endorserTx ⟨[wrapAction (str "ecc") [str "submit"]
            (pointReadSet absentRead)]⟩]) [0, 0] [(straySetup, 0)] s ∧
        StillSeen (acceptedOverlay setupLedger 2 (planBlock setupLedger.state 2 [0, 0] ∅ [(straySetup, 0)]))
          absentRead ∧
        ¬PassesReads setupLedger.state s.updates (pointReadSet absentRead)) := by
  have hrun : run parsonLibs setupBlocks = some (setupLedger, [.success, .success]) := rfl
  refine ⟨⟨fun b hb block hd => (mem_roundTrip hb hd).1, genesisConfigOnly_roundTrip, ?_, ?_, ?_, by decide,
    by decide⟩, ?_, ?_⟩
  · exact ⟨firstBlocks, configBlocks 3 (2^32-3) ++ [configBlock 0, wrapBlock 1 [0] [bid "a" "2"]],
      _, by rw [roundTrip, List.append_assoc], run_firstBlocks⟩
  · exact ⟨run_roundTrip, rfl, rfl, List.nil_prefix, rfl⟩
  · exact ⟨_, rfl, by decide⟩
  · exact Visits.finish _ hrun
  · refine ⟨_, _, ⟨hrun, rfl, rfl, ⟨[(endorserTx ⟨[wrapAction (str "ecc") [str "submit"]
      (pointReadSet absentRead)]⟩, 1)], rfl⟩, rfl⟩, ?_, ?_⟩
    · intro g hg r hr
      rw [List.mem_singleton.mp hg] at hr ⊢
      rw [List.mem_singleton.mp hr]
      decide
    · rintro ⟨reads, hreads, hvalid⟩
      cases hreads
      exact absurd hvalid (by decide)

end SecureChaincode
