import SecureChaincode.PointReads
import SecureChaincode.Validation

/-! Where the versions in the state come from: each names a block of the chain and a
transaction in it that writes the key, and a key only ever gets a later one. -/
namespace SecureChaincode

open Std

/-- The name under which a write of a namespace is filed. -/
def canonicalName (ns : Bytes) (w : KVWrite) : Option Bytes :=
  if ns = str "ecc" then w.key.bind (eccName ns) else w.key.map (simpleName ns)

/-- The transaction has a write in `lscc`, `ercc` or `ecc` that is filed under the key. -/
def WritesKey (t : Transaction) (k : Bytes) : Prop :=
  ∃ a ∈ t.actions, ∃ n ∈ actionNs a, ∃ ns kvrwset, decodedNs n = some (ns, kvrwset) ∧
    ns ∈ [str "lscc", str "ercc", str "ecc"] ∧ ∃ w ∈ kvrwset.writes, canonicalName ns w = some k

/-- The transaction that the version names has not been skipped, and writes the key. -/
def TxWritesKey (block : Block) (txFilter : Bytes) (i : ℕ) (k : Bytes) : Prop :=
  txFilter[i]? ≠ some 1 ∧
    ∃ e t, block.data[i]? = some e ∧ envelopeTx block.number e = some t ∧ WritesKey t k

def WrittenBy (blocks : List Block) (k : Bytes) (version : Version) : Prop :=
  ∃ block txFilter, blocks[version.blockNum]? = some block ∧ block.number = version.blockNum ∧
    blockMetadata block = .ok txFilter ∧ TxWritesKey block txFilter version.txNum k

theorem mem_writeList {ns k v : Bytes} {writes : List KVWrite} (h : (k, v) ∈ writeList ns writes) :
    ns ∈ [str "lscc", str "ercc", str "ecc"] ∧ ∃ w ∈ writes, canonicalName ns w = some k := by
  have hsimple (w : KVWrite) (hne : ns ≠ str "ecc") (hw : simpleWrite ns w = some (k, v)) :
      canonicalName ns w = some k := by
    obtain ⟨key, hkey, hv⟩ := Option.bind_eq_some_iff.mp hw
    obtain ⟨value, -, hp⟩ := Option.bind_eq_some_iff.mp hv
    cases hp
    rw [canonicalName, if_neg hne, hkey, Option.map_some]
  rw [writeList] at h
  split_ifs at h with hl hr he
  · obtain ⟨w, hmem, hw⟩ := List.mem_filterMap.mp h
    exact ⟨by simp [hl], w, hmem, hsimple w (by rw [hl]; decide) hw⟩
  · obtain ⟨w, hmem, hw⟩ := List.mem_filterMap.mp h
    exact ⟨by simp [hr], w, List.mem_of_mem_head? (Option.mem_toList.mp hmem),
      hsimple w (by rw [hr]; decide) hw⟩
  · obtain ⟨w, hmem, hw⟩ := List.mem_filterMap.mp h
    obtain ⟨key, hkey, hw⟩ := Option.bind_eq_some_iff.mp hw
    obtain ⟨name, hname, hw⟩ := Option.bind_eq_some_iff.mp hw
    obtain ⟨first, -, hw⟩ := Option.bind_eq_some_iff.mp hw
    obtain ⟨value, -, hp⟩ := Option.bind_eq_some_iff.mp hw
    cases hp
    exact ⟨by simp [he], w, hmem, by rw [canonicalName, if_pos he, hkey, Option.bind_some, hname]⟩
  · cases h

theorem mem_planTx_writes {state updates : Kvs} {version : Version} {as : List TransactionAction}
    {p : Bytes × Bytes} (h : p ∈ (planTx state version updates as).writes) :
    ∃ a ∈ as, p ∈ actionWrites a := by
  induction as generalizing updates with
  | nil => cases h
  | cons a as ih =>
    rw [planTx] at h
    cases hr : actionReads a with
    | error e =>
      rw [hr] at h
      cases h
    | ok reads =>
      rw [hr] at h
      dsimp only at h
      split_ifs at h
      · rcases List.mem_append.mp h with h | h
        · exact ⟨a, List.mem_cons_self, h⟩
        · obtain ⟨b, hb, hp⟩ := ih h
          exact ⟨b, List.mem_cons_of_mem a hb, hp⟩
      · obtain ⟨b, hb, hp⟩ := ih h
        exact ⟨b, List.mem_cons_of_mem a hb, hp⟩

theorem writesKey_of_mem_planTx {state updates : Kvs} {version : Version} {t : Transaction} {k v : Bytes}
    (h : (k, v) ∈ (planTx state version updates t.actions).writes) : WritesKey t k := by
  obtain ⟨a, ha, hp⟩ := mem_planTx_writes h
  obtain ⟨n, hn, hp⟩ := List.mem_flatMap.mp hp
  rw [nsWriteList] at hp
  cases hd : decodedNs n with
  | none =>
    rw [hd] at hp
    cases hp
  | some d =>
    rw [hd, Option.elim_some] at hp
    obtain ⟨hns, hw⟩ := mem_writeList hp
    exact ⟨a, ha, n, hn, d.1, d.2, hd, hns, hw⟩

/-- An entry of the update map comes from the transaction that its version names. -/
theorem txWritesKey_of_updateMap {L : Ledger} {block : Block} {txFilter k v : Bytes} {version : Version}
    (h : (updateMap L block txFilter)[k]? = some (v, version)) :
    TxWritesKey block txFilter version.txNum k := by
  obtain ⟨p, hp, hentry⟩ := List.mem_flatMap.mp (mem_of_getElem?_insertAll_empty h)
  obtain ⟨w, hw, he⟩ := List.mem_map.mp hentry
  cases he
  obtain ⟨e, hmem, u, rfl⟩ := mem_planBlock hp
  -- an envelope that is skipped or has no transaction offers nothing
  rw [planEnvelope] at hw
  split_ifs at hw with hskip
  · cases hw
  · cases ht : envelopeTx block.number e.1 with
    | none =>
      rw [ht] at hw
      cases hw
    | some t =>
      rw [ht] at hw
      exact ⟨hskip, e.1, t, List.mk_mem_zipIdx_iff_getElem?.mp hmem, ht, writesKey_of_mem_planTx hw⟩

section
variable {libs : Libs} {blocks : List (Encoded Block)} {codes : List RetCode} {L L' : Ledger}

theorem WrittenBy.mono {chain : List Block} {k : Bytes} {version : Version} (h : WrittenBy chain k version)
    (later : List Block) : WrittenBy (chain ++ later) k version := by
  obtain ⟨block, txFilter, hblock, hrest⟩ := h
  refine ⟨block, txFilter, ?_, hrest⟩
  rw [List.getElem?_append_left (List.getElem?_eq_some_iff.mp hblock).1, hblock]

/-- Every entry of the state has been written by the block of the chain that its version
names. -/
theorem run_writtenBy (h : run libs blocks = some (L, codes)) (hp : InPlaceRun libs blocks) :
    ∀ k v version, L.state[k]? = some (v, version) → WrittenBy (chain blocks codes) k version := by
  refine exec_invariant (parseBlock libs) (fun blocks codes L => InPlaceRun libs blocks →
    ∀ k v version, L.state[k]? = some (v, version) → WrittenBy (chain blocks codes) k version) ?_ ?_ h hp
  · intro _ k v version hk
    have hnone : start.state[k]? = none := ExtTreeMap.getElem?_empty
    rw [hnone] at hk
    cases hk
  · intro blocks codes L b L' code hr ih hs hp k v version hk
    have hl := exec_length (parseBlock libs) hr
    rcases parseBlock_cases hs with ⟨rfl, block, txFilter, hb, hc⟩ | ⟨hne, hstate, -⟩
    · rw [chain_snoc_success hl hb]
      rw [hc.state_eq, getElem?_assignAll, Option.or_eq_some_iff] at hk
      rcases hk with hk | ⟨-, hk⟩
      · -- the block has just written the entry, and it is the last of the chain
        have hnum := number_eq_of_inPlace hb hc (run_sequenceNumber hr) (hp.last hr)
        have hversion : version.blockNum = block.number := mem_updateMap hk
        refine ⟨block, txFilter, ?_, hversion.symm, hc.metadata, txWritesKey_of_updateMap hk⟩
        rw [hversion, hnum, List.getElem?_concat_length]
      · exact (ih hp.init k v version hk).mono [block]
    · rw [chain_snoc_rejected hl b hne]
      rw [hstate] at hk
      exact ih hp.init k v version hk

/-- The counter is the number of the last block of the chain. -/
theorem blockNum_le_sequenceNumber (h : run libs blocks = some (L, codes)) {n : ℕ}
    (hn : n < (chain blocks codes).length) (hround : (chain blocks codes).length < 2^32) :
    n ≤ L.sequenceNumber.toNat := by
  have hseq := run_sequenceNumber h
  have hcounter : L.sequenceNumber = UInt32.ofNat ((chain blocks codes).length-1) := by
    have hsucc : (chain blocks codes).length = ((chain blocks codes).length-1)+1 := by omega
    rw [hsucc, UInt32.ofNat_add] at hseq
    exact add_right_cancel hseq
  rw [hcounter, UInt32.toNat_ofNat', Nat.mod_eq_of_lt (by omega)]
  omega

theorem InPlaceRun.of_prefix {pre : List (Encoded Block)} (hp : InPlaceRun libs blocks) (h : pre <+: blocks) :
    InPlaceRun libs pre := by
  obtain ⟨post, rfl⟩ := h
  intro pre' b post' t codes he hr
  exact hp pre' b (post' ++ post) t codes (by rw [he, List.append_assoc, List.cons_append]) hr

theorem chain_length_le_of_prefix {pre : List (Encoded Block)} {t : Ledger} {precodes : List RetCode}
    (h : run libs blocks = some (L, codes)) (hpre : pre <+: blocks) (ht : run libs pre = some (t, precodes)) :
    (chain pre precodes).length ≤ (chain blocks codes).length := by
  obtain ⟨post, rfl⟩ := hpre
  obtain ⟨t', os, u, os', ht', -, hr⟩ := (exec_append_eq_some (parseBlock libs)).mp h
  rw [show exec (parseBlock libs) start pre = some (t, precodes) from ht] at ht'
  cases ht'
  cases hr
  rw [chain_append (exec_length (parseBlock libs) ht), List.length_append]
  exact Nat.le_add_right _ _

end

/-- What is said of versions, at every moment of a run: where an entry comes from, that a key is
never removed, and that the entry which replaces another has a greater version. -/
structure VersionsSound (libs : Libs) (blocks : List (Encoded Block)) : Prop where
  provenance : ∀ pre codes L, pre <+: blocks → run libs pre = some (L, codes) →
    ∀ k v version, L.state[k]? = some (v, version) →
      version.blockNum ≤ L.sequenceNumber.toNat ∧ WrittenBy (chain pre codes) k version
  kept : ∀ pre codes L t, pre <+: blocks → run libs pre = some (L, codes) →
    Visits (parseBlock libs) start pre t → ∀ k, k ∈ t.state → k ∈ L.state
  greater : ∀ pre b codes L L' block, pre ++ [b] <+: blocks → run libs pre = some (L, codes) →
    b.decoded = some block → parseBlock libs L b = some (L', .success) →
    ∃ txFilter, blockMetadata block = .ok txFilter ∧
      L'.state = assignAll L.state (updateMap L block txFilter) ∧
      ∀ (k : Bytes) (old new : KvsValue), L.state[k]? = some old → (updateMap L block txFilter)[k]? = some new →
        cmpVersion old.2 new.2 = -1

theorem versions_sound (libs : Libs) (blocks : List (Encoded Block)) (L : Ledger) (codes : List RetCode)
    (h : run libs blocks = some (L, codes))
    (hnum : ∀ b ∈ blocks, ∀ block, b.decoded = some block → block.number < 2^32)
    (hround : (chain blocks codes).length < 2^32) : VersionsSound libs blocks := by
  have hplace := inPlaceRun_of_numbers_lt h hnum hround
  constructor
  · intro pre precodes M hpre hM k v version hk
    have hwritten := run_writtenBy hM (hplace.of_prefix hpre) k v version hk
    have hlen := chain_length_le_of_prefix h hpre hM
    obtain ⟨block, -, hblock, -⟩ := id hwritten
    exact ⟨blockNum_le_sequenceNumber hM (List.getElem?_eq_some_iff.mp hblock).1 (by omega), hwritten⟩
  · intro pre precodes M t hpre hM ht k hk
    have hgrows := (run_chainInv hM (hplace.of_prefix hpre)).grows t ht
    obtain ⟨e, he⟩ := Option.isSome_iff_exists.mp (ExtTreeMap.isSome_getElem?_iff_mem.mpr hk)
    obtain ⟨w, hw, -⟩ := hgrows k e.2 (by rw [versionOf, he, Option.map_some])
    obtain ⟨e', he', -⟩ := Option.map_eq_some_iff.mp hw
    exact ExtTreeMap.isSome_getElem?_iff_mem.mp (by rw [he']; rfl)
  · intro pre b precodes M M' block hpre hM hb hs
    have hplace' := hplace.of_prefix hpre
    obtain ⟨txFilter, hc⟩ := parseBlock_success hb hs
    refine ⟨txFilter, hc.metadata, hc.state_eq, ?_⟩
    intro k old new hold hnew
    have hnumber := number_eq_of_inPlace hb hc (run_sequenceNumber hM) (hplace'.last hM)
    have hbelow := (run_chainInv hM hplace'.init).below k old.2 (by rw [versionOf, hold, Option.map_some])
    have hversion : new.2.blockNum = block.number := mem_updateMap hnew
    rw [cmpVersion_eq_neg_one_iff]
    apply Version.lt_of_blockNum_lt
    omega

theorem first_blocks_sound : VersionsSound parsonLibs firstBlocks := by
  refine versions_sound parsonLibs firstBlocks firstRound _ run_firstBlocks ?_ (by decide)
  intro b hb block hd
  exact (mem_roundTrip (by simp [roundTrip, hb]) hd).1

/-- The ledger when block 0 of the next round has been committed. -/
def backAtZero : Ledger := { firstRound with sequenceNumber := 0 }

/-- Then the entry of block 2 is ahead of the counter, and block 1 replaces it by an older one. -/
theorem version_goes_back_after_round :
    (∀ b ∈ roundTrip, ∀ block, b.decoded = some block → block.number < 2^32) ∧
      (∃ pre codes, roundTrip = pre ++ [wrapBlock 1 [0] [bid "a" "2"]] ∧
        run parsonLibs pre = some (backAtZero, codes)) ∧
      versionOf backAtZero.state (str "ecc.a") = some ⟨2, 0⟩ ∧ backAtZero.sequenceNumber.toNat = 0 ∧
      parseBlock parsonLibs backAtZero (wrapBlock 1 [0] [bid "a" "2"]) = some (secondRound, .success) ∧
      versionOf secondRound.state (str "ecc.a") = some ⟨1, 0⟩ ∧ cmpVersion ⟨2, 0⟩ ⟨1, 0⟩ = 1 := by
  refine ⟨fun b hb block hd => (mem_roundTrip hb hd).1, ?_, by decide, rfl, ?_, by decide, by decide⟩
  · have hconfig := exec_configBlocks parsonLibs firstRound 3 (2^32-3) rfl
    have hround := (exec_append_eq_some (parseBlock parsonLibs)).mpr ⟨_, _, _, _, run_firstBlocks, hconfig, rfl⟩
    have h0 := parseBlock_configBlock parsonLibs
      { firstRound with sequenceNumber := UInt32.ofNat (3+(2^32-3))-1 } 0 rfl
    refine ⟨firstBlocks ++ configBlocks 3 (2^32-3) ++ [configBlock 0], _, ?_,
      (exec_snoc_eq_some _).mpr ⟨_, _, _, _, hround, h0, rfl⟩⟩
    rw [roundTrip, List.append_assoc _ [_] [_]]
    rfl
  · exact parseBlock_bid backAtZero 1 "2" rfl

end SecureChaincode
