import SecureChaincode.LedgerQueries
import SecureChaincode.Mvcc

/-! Range queries of accepted transactions: the keys they have recorded are checked, a key
that has come into the range since is not. -/
namespace SecureChaincode

open Std (ExtTreeMap)

/-- A read that is fresh under more pending entries is fresh under fewer. -/
theorem fresh_of_insertAll {state updates : Kvs} {l : List (Bytes × KvsValue)} {p : Bytes × Version}
    (h : fresh state (insertAll updates l) p = true) : fresh state updates p = true := by
  obtain ⟨k, v⟩ := p
  rw [fresh_iff] at h ⊢
  refine ⟨h.1, ?_⟩
  intro w hw
  apply h.2 w
  obtain ⟨x, hx, rfl⟩ := Option.map_eq_some_iff.mp hw
  rw [versionOf, getElem?_insertAll_of_some l hx, Option.map_some]

/-- Every read of an accepted transaction is fresh in the map it was given. -/
theorem planTx_accepted_fresh {state : Kvs} {version : Version} {updates : Kvs}
    {as : List TransactionAction} (h : (planTx state version updates as).accepted = true)
    {a : TransactionAction} (ha : a ∈ as) :
    ∃ reads, actionReads a = .ok reads ∧ ∀ p ∈ reads, fresh state updates p = true := by
  induction as generalizing updates with
  | nil => cases ha
  | cons b as ih =>
    rw [planTx] at h
    cases hr : actionReads b with
    | error e => simp [hr] at h
    | ok reads =>
      simp only [hr] at h
      by_cases hf : reads.all (fresh state updates) = true
      · rw [if_pos hf] at h
        rcases List.mem_cons.mp ha with rfl | ha
        · exact ⟨reads, hr, List.all_eq_true.mp hf⟩
        · -- the rest was judged under this action's writes too
          obtain ⟨reads', hr', hf'⟩ := ih (Bool.and_eq_true_iff.mp h).2 ha
          exact ⟨reads', hr', fun p hp => fresh_of_insertAll (hf' p hp)⟩
      · rw [if_neg hf] at h
        cases h

theorem mem_actionReads {a : TransactionAction} {reads : List (Bytes × Version)}
    (h : actionReads a = .ok reads) {n : NsReadWriteSet} (hn : n ∈ actionNs a) :
    ∃ l, nsReadList n = .ok l ∧ ∀ p ∈ l, p ∈ reads := by
  rw [actionReads] at h
  obtain ⟨o, ho, h⟩ := bind_eq_ok h
  rw [actionNs, ho] at hn
  cases o with
  | none => cases hn
  | some rws =>
    obtain ⟨ls, hls, h⟩ := bind_eq_ok h
    cases h
    obtain ⟨l, hl, hnl⟩ := mapM_eq_ok_mem hls hn
    exact ⟨l, hnl, fun p hp => List.mem_flatten.mpr ⟨l, hl, hp⟩⟩

theorem mem_nsReadList {n : NsReadWriteSet} {l : List (Bytes × Version)} (h : nsReadList n = .ok l)
    {ns : Bytes} {kv : KVRWSet} (hd : decodedNs n = some (ns, kv)) {q : RangeQueryInfo}
    (hq : q ∈ kv.rangeQueriesInfo) {l' : List (Bytes × Version)} (hl : queryKeys ns q = .ok l') :
    ∀ p ∈ l', p ∈ l := by
  obtain ⟨e, kv', b, ranges, points, he, hkv, hb, hr, -, rfl⟩ := nsReadList_eq_ok h
  have hd' : decodedNs n = some (cstr b, kv') := by simp [decodedNs, hb, he, hkv]
  rw [hd] at hd'
  cases hd'
  intro p hp
  obtain ⟨m, hm, hqm⟩ := mapM_eq_ok_mem hr hq
  rw [hl] at hqm
  cases hqm
  exact List.mem_append_left _ (List.mem_flatten.mpr ⟨l', hm, hp⟩)

/-- Every key with the prefix that the first state has is in the second, under the same
version or a later one. -/
def KeptIn (p : Bytes) (s s' : Kvs) : Prop :=
  ∀ k v, p <+: k → versionOf s k = some v → ∃ w, versionOf s' k = some w ∧ v ≤ w

/-- The second state has no key with the prefix that the first has not. -/
def NoneAdded (p : Bytes) (s s' : Kvs) : Prop :=
  ∀ k, p <+: k → versionOf s k = none → versionOf s' k = none

/-- An accepted transaction that carries the answer of a range query on an earlier
committed state: the query gives the same answer now exactly when no key has come into
the range and no key of the range has gone back to an older version. The second cannot
happen while the blocks are in place. -/
theorem range_query_repeatable_iff (libs : Libs) (blocks : List (Encoded Block))
    (codes : List RetCode) (L : Ledger) (block : Block) (txFilter : Bytes)
    (es : List (Encoded Envelope × ℕ)) (s : BlockPhase) (txData : Encoded Transaction)
    (t : Transaction) (version : Version) (r : TxResult) (a : TransactionAction)
    (n : NsReadWriteSet) (kv : KVRWSet) (q : RangeQueryInfo) (seen : Ledger) (p : Bytes)
    (m : Moment libs blocks codes L block txFilter es s)
    (ht : txData.decoded = some t)
    (hparse : parseEndorserTransaction libs L.state txData s.updates version = some r)
    (hcode : r.code = .success) (hvalid : r.tx.validTx = true) (ha : a ∈ t.actions)
    (hn : n ∈ actionNs a) (hd : decodedNs n = some (str "ecc", kv))
    (hq : q ∈ kv.rangeQueriesInfo) (hseen : Visits (parseBlock libs) start blocks seen)
    (hrec : queryKeys (str "ecc") q = .ok (prefixQuery seen.state p)) :
    (prefixQuery (overlay L s) p = prefixQuery seen.state p ↔
      NoneAdded p seen.state (overlay L s) ∧ KeptIn p seen.state (overlay L s)) ∧
    (InPlaceRun libs blocks → InPlace (chain blocks codes).length (encode block) →
      KeptIn p seen.state (overlay L s)) := by
  obtain ⟨reads, hreads, hfresh⟩ := planTx_accepted_fresh
    ((parseEndorserTransaction_eq ht hparse).2.mpr ⟨hcode, hvalid⟩) ha
  obtain ⟨l, hl, hsub⟩ := mem_actionReads hreads hn
  -- every recorded version has been checked
  have hchecked (k : Bytes) (v : Version) (hp : p <+: k) (hv : versionOf seen.state k = some v) :
      fresh L.state s.updates (k, v) = true := by
    have hmem := mem_nsReadList hl hd hq hrec (k, v) (mem_prefixQuery.mpr ⟨hp, hv⟩)
    exact hfresh (k, v) (hsub (k, v) hmem)
  refine ⟨?_, ?_⟩
  · rw [prefixQuery_eq_iff]
    constructor
    · intro h
      refine ⟨?_, ?_⟩
      · intro k hp hk
        rw [h k hp, hk]
      · intro k v hp hv
        exact ⟨v, (h k hp).trans hv, le_rfl⟩
    · rintro ⟨hnone, hkept⟩ k hp
      cases hv : versionOf seen.state k with
      | none => exact hnone k hp hv
      | some v =>
        obtain ⟨w, hw, hvw⟩ := hkept k v hp hv
        have hwv : w ≤ v := not_lt.mp (not_lt_of_fresh (hchecked k v hp hv) hw)
        rw [hw, hwv.antisymm hvw]
  · intro hrun hblock k v _ hv
    exact m.grows (run_chainInv m.run_eq hrun) (m.number_eq hblock) hseen k v hv

/-- A block with a bid on the composite key of auction `a` and bidder `b`. -/
def auctionBlocks : List (Encoded Block) :=
  [configBlock 0, wrapBlock 1 [0] [bid "\x00a\x00b\x00" "1"]]

def auctionLedger : Ledger :=
  ⟨assignAll ∅ (insertAll ∅ [(str "ecc.a.b.", str "1", ⟨1, 0⟩)]), 1, ⟨some [], some []⟩⟩

theorem run_auctionBlocks : run parsonLibs auctionBlocks = some (auctionLedger, [.success, .success]) :=
  (run_wrapped (List.forall_mem_cons.mpr ⟨wrappedBlock_configBlock 0, List.forall_mem_singleton.mpr
    (wrappedBlock_singleton 1 [0] (wrapped_bid _ _))⟩)).trans rfl

/-- An evaluation of the auction that has found the given bids. -/
def evaluation (reads : List KVRead) : Transaction :=
  ⟨[wrapAction (str "ecc") [str "eval"] ⟨[wrapNs (str "ecc") ⟨[], [⟨.rawReads reads⟩], []⟩]⟩]⟩

theorem sameAnswer_evaluation (reads : List KVRead) :
    ∀ a ∈ (evaluation reads).actions, SameAnswer parsonLibs bareLibs a :=
  List.forall_mem_singleton.mpr (sameAnswer_wrapAction _ _ _)

theorem evaluation_moment (reads : List KVRead) :
    Moment parsonLibs auctionBlocks [.success, .success] auctionLedger
      (plainBlock 2 [0] [endorserTx (evaluation reads)]) [0] [] ⟨∅, auctionLedger.rootCerts⟩ :=
  ⟨run_auctionBlocks, rfl, rfl, List.nil_prefix, rfl⟩

/-- An evaluation that ran after the bid would find the same again. -/
theorem evaluation_repeatable :
    ∃ r, parseEndorserTransaction parsonLibs auctionLedger.state
        (encode (evaluation [⟨some (str "\x00a\x00b\x00"), ⟨1, 0⟩⟩])) ∅ ⟨2, 0⟩ = some r ∧
      prefixQuery (overlay auctionLedger ⟨∅, auctionLedger.rootCerts⟩) (str "ecc.a.") =
        prefixQuery auctionLedger.state (str "ecc.a.") := by
  have hparse := (parseEndorserTransaction_congr (sameAnswer_evaluation [⟨some (str "\x00a\x00b\x00"), ⟨1, 0⟩⟩])
    auctionLedger.state ∅ ⟨2, 0⟩).trans rfl
  refine ⟨_, hparse, ?_⟩
  have hmem (b : Encoded Block) (hb : b ∈ auctionBlocks) (block : Block)
      (hd : b.decoded = some block) : block.number < 2^32 := by
    simp only [auctionBlocks, List.mem_cons, List.not_mem_nil, or_false] at hb
    rcases hb with rfl | rfl <;> cases hd <;> decide
  have hblock : InPlace 2
      (encode (plainBlock 2 [0] [endorserTx (evaluation [⟨some (str "\x00a\x00b\x00"), ⟨1, 0⟩⟩])])) := by
    intro block hd _
    cases hd
    rfl
  obtain ⟨hiff, hkept⟩ := range_query_repeatable_iff parsonLibs auctionBlocks _ auctionLedger _ [0] [] _ _
    (evaluation [⟨some (str "\x00a\x00b\x00"), ⟨1, 0⟩⟩]) ⟨2, 0⟩ _ _ _ _ _ auctionLedger
    (str "ecc.a.") (evaluation_moment _) rfl hparse rfl rfl List.mem_cons_self List.mem_cons_self rfl
    List.mem_cons_self (Visits.finish _ run_auctionBlocks) rfl
  refine hiff.mpr ⟨?_, hkept (inPlaceRun_of_numbers_lt run_auctionBlocks hmem (by decide)) hblock⟩
  intro k _ hk
  rwa [overlay, assignAll_empty]

/-- An evaluation that ran before the bid was committed is accepted after it, although the
bid is now in its range. -/
theorem phantom_bid_accepted :
    Visits (parseBlock parsonLibs) start auctionBlocks start ∧
      prefixQuery start.state (str "ecc.a.") = [] ∧
      Moment parsonLibs auctionBlocks [.success, .success] auctionLedger
        (plainBlock 2 [0] [endorserTx (evaluation [])]) [0] [] ⟨∅, auctionLedger.rootCerts⟩ ∧
      (∃ r, parseEndorserTransaction parsonLibs auctionLedger.state (encode (evaluation [])) ∅ ⟨2, 0⟩ =
          some r ∧ r.code = .success ∧ r.tx.validTx = true) ∧
      prefixQuery (overlay auctionLedger ⟨∅, auctionLedger.rootCerts⟩) (str "ecc.a.") =
        [(str "ecc.a.b.", ⟨1, 0⟩)] :=
  ⟨Visits.start _ _ _, by decide, evaluation_moment [], ⟨_, (parseEndorserTransaction_congr (sameAnswer_evaluation [])
    auctionLedger.state ∅ ⟨2, 0⟩).trans rfl, rfl, rfl⟩, by decide⟩

end SecureChaincode
