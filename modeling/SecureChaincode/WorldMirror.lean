import SecureChaincode.LedgerAuctions

/-! The world state of an honest peer and the state of the ledger enclave. Each decides on its own
which transactions of a block have an effect: the peer by Fabric's rules, the ledger enclave by the
code of `parse_block`. -/
namespace SecureChaincode

open Std

/-- A transaction of the chaincode as the peer has it: what Fabric has recorded when it was
simulated, and the world state of that time. -/
structure PeerTx where
  kv : Peer.KVRWSet
  worldState : Kvs

section
variable (phantomFree : Kvs → Kvs → Peer.KVRWSet → Bool) (world : Kvs)

/-- Fabric's check, with the updates that the block has made so far: what was read is still there in
the version that was read, and no transaction before this one has written it. Whether a range query
would find the same keys again is left to `phantomFree`. -/
def PeerTx.valid (updates : Kvs) (x : PeerTx) : Bool :=
  x.kv.reads.all (fun r =>
    decide (updates[r.key]? = none) && decide (versionOf world r.key = versionOf x.worldState r.key)) &&
  (x.kv.rangeQueriesInfo.isEmpty || phantomFree world updates x.kv)

/-- The updates of a block behind one more transaction. Of two writes to a key the later one counts. -/
def peerTurn (number : ℕ) (updates : Kvs) (t : Option PeerTx × ℕ) : Kvs :=
  match t.1 with
  | none => updates
  | some x =>
    if x.valid phantomFree world updates = true then
      x.kv.writes.foldl (fun updates w => updates.insert w.key (w.value, ⟨number, t.2⟩)) updates
    else updates

/-- The world state behind a block. -/
def peerCommit (number : ℕ) (ts : List (Option PeerTx × ℕ)) : Kvs :=
  assignAll world (ts.foldl (peerTurn phantomFree world number) ∅)

end

/-- What the transactions of the chaincode are like: simple keys are read one by one, composite ones
in ranges, and one that writes has no range queries. -/
structure PeerTx.Plain (x : PeerTx) : Prop where
  shaped : EccShaped x.kv
  point : ∀ r ∈ x.kv.reads, PlainWord r.key
  write : ∀ w ∈ x.kv.writes, AuctionKey w.key ∧ PlainText w.value
  noRange : x.kv.writes ≠ [] → x.kv.rangeQueriesInfo = []

/-- A read in another namespace, of an entry that is as it was at the beginning. -/
def Unchanging (base : Kvs) (p : Bytes × Version) : Prop :=
  ¬str "ecc." <+: p.1 ∧ ¬str "ercc." <+: p.1 ∧ fresh base ∅ p = true

/-- The envelope holds the transaction, with the versions that were read. -/
def PeerTx.CarriedBy (x : PeerTx) (base : Kvs) (number : ℕ) (e : Encoded Envelope) : Prop :=
  ∃ (a : TransactionAction) (version : Bytes → Version) (pre post : List Peer.NsRwSet),
    envelopeTx number e = some ⟨[a]⟩ ∧
    (∀ n ∈ pre, Bystander n) ∧ (∀ n ∈ post, Bystander n) ∧
    (∀ n ∈ pre ++ post, ∀ l, nsReadList (pbNs version n) = .ok l → ∀ p ∈ l, Unchanging base p) ∧
    actionRwset a = .ok (some ⟨pre.map (pbNs version) ++
      pbNs (readVersion x.worldState) ⟨str "ecc", x.kv⟩ :: post.map (pbNs version)⟩)

/-- A transaction that writes to the registry at most. -/
def Registers (number : ℕ) (e : Encoded Envelope) : Prop :=
  ∀ t, envelopeTx number e = some t → ∀ a ∈ t.actions, ∀ p ∈ actionWrites a, str "ercc." <+: p.1

/-! One action on both sides. -/

theorem AuctionKey.exists_eccName {k : Bytes} (h : AuctionKey k) : ∃ name, eccName (str "ecc") k = some name := by
  cases h with
  | record hn => exact ⟨_, eccName_record hn⟩
  | composite h => exact ⟨_, eccName_of_plain h⟩

section
variable {x : PeerTx} {base : Kvs} {number : ℕ} {e : Encoded Envelope}

/-- The one write of a transaction, under the name that the ledger enclave has for it. -/
theorem PeerTx.Plain.writes_cases (hx : x.Plain) (version : Bytes → Version) :
    x.kv.writes = [] ∧ nsWriteList (pbNs version ⟨str "ecc", x.kv⟩) = [] ∨
      ∃ w name, x.kv.writes = [w] ∧ eccName (str "ecc") w.key = some name ∧
        nsWriteList (pbNs version ⟨str "ecc", x.kv⟩) = [(name, w.value)] := by
  have hns : decodedNs (pbNs version ⟨str "ecc", x.kv⟩) = some (str "ecc", _) := rfl
  rw [nsWriteList, hns, Option.elim_some, writeList_ecc]
  dsimp only
  rcases hw : x.kv.writes with _ | ⟨w, ws⟩
  · exact Or.inl ⟨rfl, rfl⟩
  have hlen := hx.shaped.single
  rw [hw, List.length_cons] at hlen
  obtain rfl : ws = [] := List.eq_nil_of_length_eq_zero (by omega)
  have hmem : w ∈ x.kv.writes := by rw [hw]; exact List.mem_cons_self
  obtain ⟨hkey, -⟩ := hx.write w hmem
  obtain ⟨-, hval⟩ := hx.shaped.write w hmem
  obtain ⟨name, hname⟩ := hkey.exists_eccName
  refine Or.inr ⟨w, name, rfl, hname, ?_⟩
  simp only [List.map_cons, List.map_nil, List.filterMap_cons, List.filterMap_nil, eccFirstWrite, pbWrite,
    pbField_of_ne_nil hkey.ne_nil, pbField_of_ne_nil hval, hname, List.head?_cons, Option.bind_eq_bind,
    Option.bind_some, Option.pure_def]

/-- A transaction of one action that is not passed over, by the judgement on its reads. -/
theorem planEnvelope_unskipped {a : TransactionAction} (htx : envelopeTx number e = some ⟨[a]⟩)
    {reads : List (Bytes × Version)} (hreads : actionReads a = .ok reads) (state updates : Kvs) {txFilter : Bytes}
    {txNum : ℕ} (hfilter : txFilter[txNum]? ≠ some 1) :
    (planEnvelope state number txFilter updates (e, txNum)).writes =
      if reads.all (fresh state updates) then actionWrites a else [] := by
  rw [planEnvelope, if_neg hfilter]
  simp only [htx, planTx, hreads]
  split_ifs
  · exact List.append_nil _
  · rfl

/-- What the ledger enclave stores for the transaction, by the judgement on the reads of the chaincode. -/
theorem PeerTx.CarriedBy.writes_eq (h : x.CarriedBy base number e) (hx : x.Plain) {state updates : Kvs}
    (hcalm : ∀ p, Unchanging base p → fresh state updates p = true) {txFilter : Bytes} {txNum : ℕ}
    (hfilter : txFilter[txNum]? ≠ some 1) :
    ∃ reads, nsReadList (pbNs (readVersion x.worldState) ⟨str "ecc", x.kv⟩) = .ok reads ∧
      (planEnvelope state number txFilter updates (e, txNum)).writes =
        if reads.all (fresh state updates) then
          nsWriteList (pbNs (readVersion x.worldState) ⟨str "ecc", x.kv⟩) else [] := by
  obtain ⟨a, version, pre, post, htx, hpre, hpost, hothers, hrwset⟩ := h
  have hns : actionNs a = pre.map (pbNs version) ++
      pbNs (readVersion x.worldState) ⟨str "ecc", x.kv⟩ :: post.map (pbNs version) := by
    rw [actionNs, hrwset]
  refine ⟨_, hx.shaped.nsReadList _, ?_⟩
  -- the reads of all namespaces, of which those beside the chaincode are found unchanged
  let readsOf (n : NsReadWriteSet) : List (Bytes × Version) := (nsReadList n).toOption.getD []
  have hok (n : NsReadWriteSet) (h : ∃ l, nsReadList n = .ok l) : nsReadList n = .ok (readsOf n) := by
    obtain ⟨l, hl⟩ := h
    dsimp only [readsOf]
    rw [hl]
    rfl
  have hdecode : ∀ n ∈ actionNs a, nsReadList n = .ok (readsOf n) := by
    intro n hmem
    apply hok
    rw [hns] at hmem
    rcases List.mem_append.mp hmem with hmem | hmem
    · obtain ⟨m, hm, rfl⟩ := List.mem_map.mp hmem
      exact (hpre m hm).nsReadList version
    rcases List.mem_cons.mp hmem with rfl | hmem
    · exact ⟨_, hx.shaped.nsReadList _⟩
    · obtain ⟨m, hm, rfl⟩ := List.mem_map.mp hmem
      exact (hpost m hm).nsReadList version
  have hreads : actionReads a = .ok ((actionNs a).map readsOf).flatten := by
    rw [actionReads, hrwset]
    rw [hns] at hdecode ⊢
    simp only [bind, Except.bind, readList, mapM_eq_ok hdecode, pure, Except.pure]
  have hecc := hok _ ⟨_, hx.shaped.nsReadList (readVersion x.worldState)⟩
  rw [hx.shaped.nsReadList] at hecc
  have hall : ((actionNs a).map readsOf).flatten.all (fresh state updates) =
      (readsOf (pbNs (readVersion x.worldState) ⟨str "ecc", x.kv⟩)).all (fresh state updates) := by
    have hside (l : List Peer.NsRwSet) (hl : ∀ n ∈ l, n ∈ pre ++ post) (hb : ∀ n ∈ l, Bystander n) :
        ((l.map (pbNs version)).map readsOf).flatten.all (fresh state updates) = true := by
      rw [List.all_eq_true]
      intro p hp
      obtain ⟨r, hr, hpr⟩ := List.mem_flatten.mp hp
      obtain ⟨n, hn, rfl⟩ := List.mem_map.mp hr
      obtain ⟨m, hm, rfl⟩ := List.mem_map.mp hn
      exact hcalm p (hothers m (hl m hm) _ (hok _ ((hb m hm).nsReadList version)) p hpr)
    rw [hns, List.map_append, List.map_cons, List.flatten_append, List.flatten_cons, List.all_append, List.all_append,
      hside pre (fun n hn => List.mem_append_left _ hn) hpre, hside post (fun n hn => List.mem_append_right _ hn) hpost,
      Bool.true_and, Bool.and_true]
  have hwrites : actionWrites a = nsWriteList (pbNs (readVersion x.worldState) ⟨str "ecc", x.kv⟩) := by
    have hnone : ∀ l : List Peer.NsRwSet, (∀ n ∈ l, Bystander n) → (l.map (pbNs version)).flatMap nsWriteList = [] := by
      intro l hl
      rw [List.flatMap_map, List.flatMap_eq_nil_iff]
      exact fun n hn => (hl n hn).nsWriteList version
    rw [actionWrites, hns, List.flatMap_append, List.flatMap_cons, hnone pre hpre, hnone post hpost, List.nil_append,
      List.append_nil]
  rw [planEnvelope_unskipped htx hreads state updates hfilter, hall, hwrites, Except.ok.inj hecc]

end

/-! One transaction on both sides. -/

theorem not_ercc_of_ecc {k : Bytes} (h : str "ecc." <+: k) : ¬str "ercc." <+: k := by
  intro h'
  have htake := (List.prefix_iff_eq_take.mp (List.prefix_of_prefix_length_le h h' (by decide)))
  exact absurd htake (by decide)

/-- The two sides in the middle of a block: `updates` is what the block has changed so far for the
peer, and `pending` for the ledger enclave. -/
structure Midway (base : Kvs) (past : Kvs → Prop) (world state : Kvs) (number : ℕ) (updates pending : Kvs) : Prop where
  context : TurnContext past world number updates
  mirrors : Mirrors world state
  mirrored : Mirrors updates pending
  calm : ∀ k, ¬str "ecc." <+: k → ¬str "ercc." <+: k → state[k]? = base[k]? ∧ pending[k]? = none
  tidy : ∀ s, past s → TidyState s
  filled : ∀ (k : Bytes) (x : KvsValue), updates[k]? = some x → x.1 ≠ []

/-- An envelope of an honest channel, when the world states `past` have been committed before. -/
inductive Honest (base : Kvs) (past : Kvs → Prop) (number : ℕ) (txFilter : Bytes) (p : Encoded Envelope × ℕ) :
    Option PeerTx → Prop
  | simulated {x : PeerTx} (hpast : past x.worldState) (hplain : TidyState x.worldState → x.Plain)
    (hcarried : x.CarriedBy base number p.1) (hfilter : txFilter[p.2]? ≠ some 1) :
    Honest base past number txFilter p (some x)
  | other (h : Registers number p.1) : Honest base past number txFilter p none

section
variable {base : Kvs} {past : Kvs → Prop} {world state updates pending : Kvs} {number : ℕ}
  (h : Midway base past world state number updates pending)
include h

theorem Midway.fresh_unchanging {p : Bytes × Version} (hp : Unchanging base p) : fresh state pending p = true := by
  obtain ⟨hecc, hercc, hfresh⟩ := hp
  obtain ⟨hstate, hpending⟩ := h.calm p.1 hecc hercc
  rw [fresh_iff] at hfresh ⊢
  refine ⟨?_, ?_⟩
  · rw [versionOf, hstate]
    exact hfresh.1
  · intro w hw
    rw [versionOf, hpending] at hw
    cases hw

/-- The ledger enclave finds a read fresh exactly when Fabric finds it valid. -/
theorem Midway.fresh_iff_valid {s : Kvs} (hs : past s) {k : Bytes} (hk : PlainWord k) :
    fresh state pending (str "ecc." ++ k, readVersion s k) = true ↔
      updates[k]? = none ∧ versionOf world k = versionOf s k := by
  have hname : eccName (str "ecc") k = some (str "ecc." ++ k) := eccName_record hk
  have hsame : fresh state pending (str "ecc." ++ k, readVersion s k) = fresh world updates (k, readVersion s k) := by
    rw [Bool.eq_iff_iff, fresh_iff, fresh_iff, versionOf, versionOf, versionOf, versionOf,
      h.mirrors.getElem?_eq (.record hk) hname, h.mirrored.getElem?_eq (.record hk) hname]
  rw [hsame]
  constructor
  · intro hfresh
    obtain ⟨hnow, hnone⟩ := h.context.record_of_fresh hs hfresh
    rw [getElem?_assignAll, hnone, Option.none_or] at hnow
    exact ⟨hnone, by rw [versionOf, versionOf, hnow]⟩
  · rintro ⟨hnone, hversion⟩
    rw [fresh_iff]
    refine ⟨?_, ?_⟩
    · intro w hw
      rw [hversion] at hw
      rw [readVersion_of_some hw]
      exact lt_irrefl w
    · intro w hw
      rw [versionOf, hnone] at hw
      cases hw

variable {phantomFree : Kvs → Kvs → Peer.KVRWSet → Bool} {x : PeerTx}

/-- For a transaction that writes, the two sides come to the same verdict. -/
theorem Midway.all_fresh_iff_valid (hpast : past x.worldState) (hx : x.Plain) (hwrites : x.kv.writes ≠ [])
    {reads : List (Bytes × Version)}
    (hreads : nsReadList (pbNs (readVersion x.worldState) ⟨str "ecc", x.kv⟩) = .ok reads) :
    reads.all (fresh state pending) = true ↔ x.valid phantomFree world updates = true := by
  have hranges := hx.noRange hwrites
  have hnone : rangeReads x.kv = [] := by
    rw [rangeReads, hranges]
    rfl
  rw [hx.shaped.nsReadList, hnone] at hreads
  cases hreads
  rw [PeerTx.valid, hranges, List.isEmpty_nil, Bool.true_or, Bool.and_true, List.map_nil, List.nil_append, List.all_map,
    List.all_eq_true, List.all_eq_true]
  apply forall₂_congr
  intro r hr
  rw [Bool.and_eq_true, decide_eq_true_iff, decide_eq_true_iff, ← h.fresh_iff_valid hpast (hx.point r hr)]
  rfl

/-- One entry more on both sides. -/
theorem Midway.insert {key name val : Bytes} {txNum : ℕ} (hpos : 0 < number) (hk : AuctionKey key)
    (hname : eccName (str "ecc") key = some name) (hplain : PlainText val) (hval : val ≠ [])
    (hnone : updates[key]? = none) :
    Midway base past world state number (updates.insert key (val, ⟨number, txNum⟩))
      (insertAll pending (stamp ⟨number, txNum⟩ [(name, val)])) := by
  have hecc := hk.prefix_eccName hname
  have hfree : pending[name]? = none := by rw [← h.mirrored.getElem?_eq hk hname, hnone]
  have hinsert (k : Bytes) : (insertAll pending (stamp ⟨number, txNum⟩ [(name, val)]))[k]? =
      pending[k]?.or (if k = name then some (val, ⟨number, txNum⟩) else none) := by
    rw [getElem?_insertAll, stamp, List.map_singleton, List.lookup_cons, List.lookup_nil]
    by_cases hkn : k = name
    · rw [if_pos hkn, hkn, beq_self_eq_true]
    · rw [if_neg hkn, beq_false_of_ne hkn]
  have hget (k : Bytes) (y : KvsValue) (hy : (updates.insert key (val, ⟨number, txNum⟩))[k]? = some y) :
      updates[k]? = some y ∨ y = (val, ⟨number, txNum⟩) := by
    rw [ExtTreeMap.getElem?_insert] at hy
    split_ifs at hy
    · exact Or.inr (Option.some.inj hy).symm
    · exact Or.inl hy
  refine ⟨⟨h.context.follows, h.context.below, ?_⟩, h.mirrors, ?_, ?_, h.tidy, ?_⟩
  · intro k v hv
    obtain ⟨y, hy, rfl⟩ := Option.map_eq_some_iff.mp hv
    rcases hget k y hy with hy | rfl
    · exact h.context.pending k y.2 (by rw [versionOf, hy, Option.map_some])
    · exact ⟨rfl, hpos⟩
  · refine h.mirrored.insert hk hname hplain ?_ ?_
    · rw [hinsert, hfree, Option.none_or, if_pos rfl]
    · intro k _ hkn
      rw [hinsert, if_neg hkn, Option.or_none]
  · intro k hne hner
    obtain ⟨hstate, hpending⟩ := h.calm k hne hner
    refine ⟨hstate, ?_⟩
    have hkn : k ≠ name := by
      rintro rfl
      exact hne hecc
    rw [hinsert, hpending, if_neg hkn, Option.none_or]
  · intro k y hy
    rcases hget k y hy with hy | rfl
    · exact h.filled k y hy
    · exact hval

/-- Step lemma: a transaction does the same on both sides, unless it writes a key blindly that the block
has written before. -/
theorem Midway.turn {txFilter : Bytes} {p : Encoded Envelope × ℕ} {note : Option PeerTx} (hpos : 0 < number)
    (hhonest : Honest base past number txFilter p note)
    (hblind : ∀ x, note = some x → ∀ w ∈ x.kv.writes, updates[w.key]? = none ∨ w.key ∈ x.kv.reads.map Peer.KVRead.key) :
    Midway base past world state number (peerTurn phantomFree world number updates (note, p.2))
      (insertAll pending (stamp ⟨number, p.2⟩ (planEnvelope state number txFilter pending p).writes)) := by
  cases hhonest with
  | @simulated x hpast hplain hcarried hfilter =>
    have hx := hplain (h.tidy _ hpast)
    obtain ⟨reads, hreads, hplan⟩ := hcarried.writes_eq hx (fun p hp => h.fresh_unchanging hp) hfilter
    rw [hplan]
    dsimp only [peerTurn]
    rcases hx.writes_cases (readVersion x.worldState) with ⟨hnone, hlist⟩ | ⟨w, name, hw, hname, hlist⟩
    · rw [hlist, ite_self, hnone, List.foldl_nil, ite_self]
      exact h
    have hmem : w ∈ x.kv.writes := by rw [hw]; exact List.mem_cons_self
    have hverdict : reads.all (fresh state pending) = true ↔ x.valid phantomFree world updates = true :=
      h.all_fresh_iff_valid hpast hx (List.ne_nil_of_mem hmem) hreads
    rw [hlist]
    by_cases hvalid : x.valid phantomFree world updates = true
    · rw [if_pos (hverdict.mpr hvalid), if_pos hvalid, hw, List.foldl_cons, List.foldl_nil]
      obtain ⟨hk, hplainText⟩ := hx.write w hmem
      refine h.insert hpos hk hname hplainText (hx.shaped.write w hmem).2 ?_
      -- a key that was read is not among the updates, as the transaction is valid
      rcases hblind x rfl w hmem with hnone | hread
      · exact hnone
      · obtain ⟨r, hr, hrw⟩ := List.mem_map.mp hread
        rw [PeerTx.valid, Bool.and_eq_true, List.all_eq_true] at hvalid
        have hcurrent := hvalid.1 r hr
        rw [Bool.and_eq_true, decide_eq_true_iff] at hcurrent
        rw [← hrw]
        exact hcurrent.1
    · rw [if_neg (fun hall => hvalid (hverdict.mp hall)), if_neg hvalid]
      exact h
  | other hreg =>
    have hecc (q : Bytes × Bytes) (hq : q ∈ (planEnvelope state number txFilter pending p).writes) : str "ercc." <+: q.1 := by
      have hmem : q ∈ (planEnvelope state number txFilter pending (p.1, p.2)).writes := hq
      obtain ⟨tx, htx, a, ha, hq⟩ := mem_planEnvelope_writes hmem
      exact hreg tx htx a ha q hq
    have hsame (k : Bytes) (hk : ¬str "ercc." <+: k) :
        (insertAll pending (stamp ⟨number, p.2⟩ (planEnvelope state number txFilter pending p).writes))[k]? =
          pending[k]? := by
      rw [getElem?_insertAll]
      have hnone : (stamp ⟨number, p.2⟩ (planEnvelope state number txFilter pending p).writes).lookup k = none := by
        rw [List.lookup_eq_none_iff]
        intro q hq
        obtain ⟨w, hw, rfl⟩ := List.mem_map.mp hq
        rw [bne_iff_ne]
        rintro rfl
        exact hk (hecc w hw)
      rw [hnone, Option.or_none]
    refine ⟨h.context, h.mirrors, h.mirrored.congr ?_, ?_, h.tidy, h.filled⟩
    · intro k hk
      exact hsame k (not_ercc_of_ecc hk)
    · intro k hne hner
      rw [hsame k hner]
      exact h.calm k hne hner

end

/-! Whole blocks. -/

/-- No transaction writes a key blindly that one before it in the block writes. -/
def NoBlindRewrite (note : ℕ → Option PeerTx) : Prop :=
  ∀ i j x y, i < j → note i = some x → note j = some y → ∀ w ∈ x.kv.writes, ∀ w' ∈ y.kv.writes, w'.key = w.key →
    w'.key ∈ y.kv.reads.map Peer.KVRead.key

section
variable {phantomFree : Kvs → Kvs → Peer.KVRWSet → Bool}

theorem getElem?_foldl_writes {number txNum : ℕ} {writes : List Peer.KVWrite} {updates : Kvs} {k : Bytes}
    (hnone : updates[k]? = none) (hwrites : ∀ w ∈ writes, w.key ≠ k) :
    (writes.foldl (fun updates w => updates.insert w.key (w.value, (⟨number, txNum⟩ : Version))) updates)[k]? =
      none := by
  induction writes generalizing updates with
  | nil => exact hnone
  | cons w writes ih =>
    rw [List.foldl_cons]
    refine ih ?_ (fun w' hw' => hwrites w' (List.mem_cons_of_mem w hw'))
    have hne : compare w.key k ≠ .eq := by
      rw [ne_eq, Std.LawfulEqCmp.compare_eq_iff_eq]
      exact hwrites w List.mem_cons_self
    rw [ExtTreeMap.getElem?_insert, if_neg hne]
    exact hnone

/-- A transaction leaves alone what it does not write. -/
theorem getElem?_peerTurn {world updates : Kvs} {number : ℕ} {t : Option PeerTx × ℕ} {k : Bytes}
    (hnone : updates[k]? = none) (hwrites : ∀ x, t.1 = some x → ∀ w ∈ x.kv.writes, w.key ≠ k) :
    (peerTurn phantomFree world number updates t)[k]? = none := by
  rw [peerTurn]
  cases hx : t.1 with
  | none => exact hnone
  | some x =>
    dsimp only
    split_ifs
    · exact getElem?_foldl_writes hnone (hwrites x hx)
    · exact hnone

variable (phantomFree) in
/-- The transactions of a block do the same on both sides. -/
theorem Midway.block {base : Kvs} {past : Kvs → Prop} {world state : Kvs} {number : ℕ} {txFilter : Bytes}
    {note : ℕ → Option PeerTx} (hpos : 0 < number) (hrewrite : NoBlindRewrite note)
    {es : List (Encoded Envelope × ℕ)} (hsorted : es.Pairwise (fun p q => p.2 < q.2))
    (hhonest : ∀ p ∈ es, Honest base past number txFilter p (note p.2)) {updates pending : Kvs}
    (h : Midway base past world state number updates pending)
    (hblind : ∀ p ∈ es, ∀ x, note p.2 = some x → ∀ w ∈ x.kv.writes,
      updates[w.key]? = none ∨ w.key ∈ x.kv.reads.map Peer.KVRead.key) :
    Midway base past world state number
      ((es.map (fun p => (note p.2, p.2))).foldl (peerTurn phantomFree world number) updates)
      (insertAll pending (entries number (planBlock state number txFilter pending es))) := by
  induction es generalizing updates pending with
  | nil => exact h
  | cons p es ih =>
    obtain ⟨hfirst, hrest⟩ := List.pairwise_cons.mp hsorted
    rw [planBlock, entries_cons, insertAll_append, List.map_cons, List.foldl_cons]
    refine ih hrest (fun q hq => hhonest q (List.mem_cons_of_mem p hq)) ?_ ?_
    · exact h.turn hpos (hhonest p List.mem_cons_self) (hblind p List.mem_cons_self)
    · -- what is written now and again later is read by the later transaction
      intro q hq y hy w' hw'
      rcases hblind q (List.mem_cons_of_mem p hq) y hy w' hw' with hnone | hread
      · by_cases hsame : ∃ x, note p.2 = some x ∧ ∃ w ∈ x.kv.writes, w.key = w'.key
        · obtain ⟨x, hx, w, hw, heq⟩ := hsame
          exact Or.inr (hrewrite p.2 q.2 x y (hfirst q hq) hx hy w hw w' hw' heq.symm)
        · left
          apply getElem?_peerTurn hnone
          intro x hx w hw heq
          exact hsame ⟨x, hx, w, hw, heq⟩
      · exact Or.inr hread

end

/-- Entries that are assigned on both sides. -/
theorem Mirrors.assignAll {world state updates pending : Kvs} (h : Mirrors world state) (h' : Mirrors updates pending) :
    Mirrors (assignAll world updates) (assignAll state pending) where
  entry name x hpre := by
    rw [getElem?_assignAll, Option.or_eq_some_iff]
    constructor
    · rintro (hx | ⟨hnone, hx⟩)
      · obtain ⟨key, hkey, hname⟩ := (h'.entry name x hpre).mp hx
        exact ⟨key, by rw [getElem?_assignAll, hkey, Option.some_or], hname⟩
      · obtain ⟨key, hkey, hname⟩ := (h.entry name x hpre).mp hx
        refine ⟨key, ?_, hname⟩
        rw [getElem?_assignAll, h'.getElem?_eq (h.key key x hkey) hname, hnone, Option.none_or, hkey]
    · rintro ⟨key, hkey, hname⟩
      rw [getElem?_assignAll, Option.or_eq_some_iff] at hkey
      rcases hkey with hkey | ⟨hnone, hkey⟩
      · exact Or.inl ((h'.entry name x hpre).mpr ⟨key, hkey, hname⟩)
      · refine Or.inr ⟨?_, (h.entry name x hpre).mpr ⟨key, hkey, hname⟩⟩
        rw [← h'.getElem?_eq (h.key key x hkey) hname, hnone]
  key k x hx := by
    rw [getElem?_assignAll, Option.or_eq_some_iff] at hx
    rcases hx with hx | ⟨-, hx⟩
    · exact h'.key k x hx
    · exact h.key k x hx
  value k x hx := by
    rw [getElem?_assignAll, Option.or_eq_some_iff] at hx
    rcases hx with hx | ⟨-, hx⟩
    · exact h'.value k x hx
    · exact h.value k x hx

/-! Whole runs. -/

/-- A peer with its world state, and the ledger enclave on it. -/
structure Channel where
  world : Kvs
  ledger : Ledger

section
variable {ι : Type} (libs : Libs) (phantomFree : Kvs → Kvs → Peer.KVRWSet → Bool) (tx : ι → PeerTx)

/-- A block comes: the peer commits it, and the ledger enclave takes it in. -/
def Channel.step (c : Channel) (b : OrderedBlock ι) : Option (Channel × ℕ) := do
  let block ← b.blockData.decoded
  let r ← parseBlock libs c.ledger b.blockData
  if r.2 = .success then
    let ts := block.data.zipIdx.map (fun p => ((b.note p.2).map tx, p.2))
    return (⟨peerCommit phantomFree c.world block.number ts, r.1⟩, block.number)
  else none

variable {libs phantomFree tx}

theorem channelStep_cases {c c' : Channel} {b : OrderedBlock ι} {n : ℕ}
    (h : Channel.step libs phantomFree tx c b = some (c', n)) :
    ∃ block txFilter, b.blockData.decoded = some block ∧ n = block.number ∧
      Commits c.ledger block txFilter c'.ledger ∧
      c'.world = peerCommit phantomFree c.world block.number
        (block.data.zipIdx.map (fun p => ((b.note p.2).map tx, p.2))) := by
  obtain ⟨block, hblock, h⟩ := Option.bind_eq_some_iff.mp h
  obtain ⟨⟨L, code⟩, hparse, h⟩ := Option.bind_eq_some_iff.mp h
  obtain ⟨hcode, h⟩ := Option.ite_none_right_eq_some.mp h
  cases hcode
  cases h
  obtain ⟨txFilter, hcommits⟩ := parseBlock_success hblock hparse
  exact ⟨block, txFilter, hblock, rfl, hcommits, rfl⟩

/-- The two sides agree on everything that was committed below block `n`. -/
structure Aligned (n : ℕ) (c : Channel) : Prop where
  mirrors : Mirrors c.world c.ledger.state
  below : ∀ k v, versionOf c.world k = some v → v.blockNum < n
  filled : ∀ (k : Bytes) (x : KvsValue), c.world[k]? = some x → x.1 ≠ []

variable (libs phantomFree tx) in
/-- A run of an honest channel from `c` on, with the blocks numbered from `n` on: the transactions of the
chaincode were simulated on world states of the run, and no block rewrites a key blindly. -/
structure HonestRun (n : ℕ) (c : Channel) (blocks : List (OrderedBlock ι)) : Prop where
  number : ∀ i b block, blocks[i]? = some b → b.blockData.decoded = some block → block.number = n+i
  envelopes : ∀ pre b post, blocks = pre ++ b :: post → ∀ block txFilter, b.blockData.decoded = some block →
    blockMetadata block = .ok txFilter → ∀ p ∈ block.data.zipIdx,
      Honest c.ledger.state (fun s => ∃ t, Visits (Channel.step libs phantomFree tx) c pre t ∧ t.world = s)
        block.number txFilter p ((b.note p.2).map tx)
  rewrites : ∀ b ∈ blocks, NoBlindRewrite (fun i => (b.note i).map tx)

variable (libs phantomFree tx) in
/-- What holds behind the blocks `bs` of the run. -/
structure InTune (n : ℕ) (c₀ : Channel) (bs : List (OrderedBlock ι)) (c : Channel) : Prop where
  aligned : Aligned (n+bs.length) c
  follows : ∀ t, Visits (Channel.step libs phantomFree tx) c₀ bs t → Follows t.world c.world
  tidy : ∀ t, Visits (Channel.step libs phantomFree tx) c₀ bs t → TidyState t.world
  calm : ∀ k, ¬str "ecc." <+: k → ¬str "ercc." <+: k → c.ledger.state[k]? = c₀.ledger.state[k]?

theorem inTune_start {n : ℕ} {c : Channel} (h : Aligned n c) :
    InTune libs phantomFree tx n c [] c where
  aligned := h
  follows := by
    intro t ht
    rw [visits_nil _ ht]
    exact Follows.refl _
  tidy := by
    intro t ht
    rw [visits_nil _ ht]
    exact h.mirrors.tidyState
  calm := fun _ _ _ => rfl

/-- A committed block keeps the two sides in tune. -/
theorem InTune.step {n : ℕ} {c₀ c c' : Channel} {bs post : List (OrderedBlock ι)} {b : OrderedBlock ι} {m : ℕ} {ns : List ℕ}
    (hpos : 0 < n) (hrun : HonestRun libs phantomFree tx n c₀ (bs ++ b :: post))
    (hbs : exec (Channel.step libs phantomFree tx) c₀ bs = some (c, ns)) (h : InTune libs phantomFree tx n c₀ bs c)
    (hstep : Channel.step libs phantomFree tx c b = some (c', m)) :
    InTune libs phantomFree tx n c₀ (bs ++ [b]) c' := by
  obtain ⟨block, txFilter, hblock, -, hcommits, hworld⟩ := channelStep_cases hstep
  have hnumber : block.number = n+bs.length := hrun.number bs.length b block (by simp) hblock
  have hblockPos : 0 < block.number := by omega
  have hsorted : block.data.zipIdx.Pairwise (fun p q => p.2 < q.2) := by
    have hr : (block.data.zipIdx.map Prod.snd).Pairwise (· < ·) := by
      rw [List.zipIdx_map_snd]
      exact List.pairwise_lt_range'
    exact List.pairwise_map.mp hr
  -- at the beginning of the block there are no updates on either side
  have hstart : Midway c₀.ledger.state (fun s => ∃ t, Visits (Channel.step libs phantomFree tx) c₀ bs t ∧ t.world = s)
      c.world c.ledger.state block.number ∅ ∅ := by
    refine ⟨⟨?_, ?_, pending_empty _⟩, h.aligned.mirrors, mirrors_empty, ?_, ?_, ?_⟩
    · rintro s ⟨t, ht, rfl⟩
      exact h.follows t ht
    · rw [hnumber]
      exact h.aligned.below
    · intro k hecc hercc
      exact ⟨h.calm k hecc hercc, ExtTreeMap.getElem?_empty⟩
    · rintro s ⟨t, ht, rfl⟩
      exact h.tidy t ht
    · intro k x hx
      rw [ExtTreeMap.getElem?_empty] at hx
      cases hx
  have hend := hstart.block phantomFree hblockPos (hrun.rewrites b (by simp)) hsorted
    (hrun.envelopes bs b post rfl block txFilter hblock hcommits.metadata)
    (fun _ _ _ _ _ _ => Or.inl ExtTreeMap.getElem?_empty)
  have hfollows : Follows c.world c'.world := by
    rw [hworld]
    exact hend.context.pending.follows hend.context.below
  have hmirrors : Mirrors c'.world c'.ledger.state := by
    rw [hworld, hcommits.state_eq]
    exact h.aligned.mirrors.assignAll hend.mirrored
  refine ⟨⟨hmirrors, ?_, ?_⟩, ?_, ?_, ?_⟩
  · intro k v hv
    rw [hworld, peerCommit, versionOf_assignAll, Option.or_eq_some_iff] at hv
    rw [List.length_append, List.length_singleton]
    rcases hv with hv | ⟨-, hv⟩
    · have hnum := (hend.context.pending k v hv).1
      omega
    · have hnum := h.aligned.below k v hv
      omega
  · intro k x hx
    rw [hworld, peerCommit, getElem?_assignAll, Option.or_eq_some_iff] at hx
    rcases hx with hx | ⟨-, hx⟩
    · exact hend.filled k x hx
    · exact h.aligned.filled k x hx
  · intro t ht
    rcases (visits_snoc _).mp ht with ht | ⟨os, ht⟩
    · exact (h.follows t ht).trans hfollows
    · obtain rfl : t = c' := by
        rw [(exec_snoc_eq_some _).mpr ⟨c, ns, c', m, hbs, hstep, rfl⟩] at ht
        cases ht
        rfl
      exact Follows.refl _
  · intro t ht
    rcases (visits_snoc _).mp ht with ht | ⟨os, ht⟩
    · exact h.tidy t ht
    · obtain rfl : t = c' := by
        rw [(exec_snoc_eq_some _).mpr ⟨c, ns, c', m, hbs, hstep, rfl⟩] at ht
        cases ht
        rfl
      exact hmirrors.tidyState
  · intro k hecc hercc
    rw [hcommits.state_eq, getElem?_assignAll, (hend.calm k hecc hercc).2, Option.none_or]
    exact h.calm k hecc hercc

/-- Run lemma: what was aligned stays so. -/
theorem run_inTune {n : ℕ} {c₀ c : Channel} {blocks : List (OrderedBlock ι)} {ns : List ℕ} (hpos : 0 < n)
    (h₀ : Aligned n c₀) (hrun : HonestRun libs phantomFree tx n c₀ blocks)
    (h : exec (Channel.step libs phantomFree tx) c₀ blocks = some (c, ns)) :
    InTune libs phantomFree tx n c₀ blocks c := by
  refine exec_invariant (Channel.step libs phantomFree tx)
    (fun bs _ c => bs <+: blocks → InTune libs phantomFree tx n c₀ bs c) ?_ ?_ h List.prefix_rfl
  · intro _
    exact inTune_start h₀
  · rintro bs ms t b t' m hbs ih hstep ⟨post, rfl⟩
    rw [List.append_assoc, List.singleton_append] at hrun
    exact (ih ⟨[b] ++ post, (List.append_assoc bs [b] post).symm⟩).step hpos hrun hbs hstep

end

/-! The auction chaincode. -/

section
variable {η τ σ : Type} {F : KeyRule} {x : Endorsement η τ σ} {op : Operation}

variable (F) in
/-- The transaction of an endorsement. -/
def Endorsement.peerTx (x : Endorsement η τ σ) : PeerTx := ⟨x.kvRwSet F, x.worldState⟩

variable (F) in
/-- An endorsement of an auction operation with plain names, which has led to a response. -/
structure Endorsement.Proposed (x : Endorsement η τ σ) (op : Operation) : Prop where
  operation : x.invocation.operation = some op
  plain : ∀ w ∈ op.names, PlainWord w
  response : ∃ response, (x.simulated F).1 = some (some response)

theorem Endorsement.Proposed.auctionTrace (h : x.Proposed F op) :
    AuctionTrace x.invocation.enclave op.auctionName (x.simulated F).2.trace := by
  obtain ⟨response, hresponse⟩ := h.response
  exact op.trace h.plain (x.program_run h.operation hresponse)

theorem Endorsement.Proposed.traced (h : x.Proposed F op) :
    Traced x.invocation.enclave (goHost F x.worldState x.invocation.verifyTag) (x.simulated F).2 := by
  obtain ⟨response, hresponse⟩ := h.response
  exact run_traced _ _ (x.program_run h.operation hresponse)

theorem Endorsement.Proposed.plainTx (h : x.Proposed F op) (htidy : TidyState x.worldState) : (x.peerTx F).Plain := by
  have hn := h.plain _ op.auctionName_mem
  have htrace := h.auctionTrace
  have hputs := h.traced.putsRecorded
  refine ⟨htrace.eccShaped hn htidy hputs, ?_, ?_, ?_⟩
  · intro r hr
    obtain ⟨k, hk, rfl⟩ := List.mem_map.mp hr
    rw [ExtTreeSet.mem_toList, htrace.mem_simulatedReads hn] at hk
    rw [hk]
    exact hn
  · intro w hw
    obtain ⟨p, hp, rfl⟩ := List.mem_map.mp hw
    rw [ExtTreeMap.mem_toList_iff_getElem?_eq_some] at hp
    refine ⟨?_, (htrace.tidy_writes hn hputs hp).2⟩
    rcases (htrace.exists_put hn hputs hp).1 with hkey | ⟨comp, hcomp, hkey⟩
    · rw [hkey]
      exact .record hn
    · rw [hkey]
      exact .composite hcomp
  · intro hwrites
    obtain ⟨reply, tail, heq, htail⟩ := htrace
    dsimp only [peerTx, Endorsement.kvRwSet] at hwrites ⊢
    rw [heq] at hwrites ⊢
    cases htail with
    | none => rfl
    | putAuction val => rfl
    | putBid hb val => rfl
    | bids reply' => exact absurd rfl hwrites

/-- What it writes is the record of the auction, or the bid. -/
theorem Endorsement.Proposed.write_key (h : x.Proposed F op) {w : Peer.KVWrite} (hw : w ∈ (x.kvRwSet F).writes) :
    w.key = op.target := by
  obtain ⟨response, hresponse⟩ := h.response
  have hn := h.plain _ op.auctionName_mem
  have hputs := h.traced.putsRecorded
  obtain ⟨reply, auctionBytes, len, plan, tail, -, -, hplan, hperformed, htrace⟩ :=
    op.run_cases hn.no_nul (x.program_run h.operation hresponse)
  rw [Endorsement.kvRwSet, simulate] at hw
  rw [htrace] at hputs hw
  cases hperformed with
  | answer result => cases hw
  | tally hreply hread heval => cases hw
  | put key val =>
    obtain ⟨keyStr, hgo, hback⟩ := hputs _ (List.mem_cons_self)
    simp only [simulatedWrites, List.foldl_cons, List.foldl_nil, hgo, Option.elim_some, toList_insert_empty,
      List.map_cons, List.map_nil, List.mem_singleton] at hw
    rw [hw]
    rcases Operation.plan_put hplan with ⟨rfl, -, -⟩ | ⟨-, theAuction, -, -, ⟨name, bidder, value, rfl, rfl, -⟩ | ⟨rfl, -⟩⟩
    · exact @Operation.goKey_put _ h.plain x.invocation.enclave.libc none _ _ _ _ rfl hgo hback
    · exact @Operation.goKey_put _ h.plain x.invocation.enclave.libc (some true) _ _ _ _ rfl hgo hback
    · exact @Operation.goKey_put _ h.plain x.invocation.enclave.libc (some true) _ _ _ _ rfl hgo hback

/-- Only the same bid has the same key. -/
theorem Operation.eq_bid_of_target {op' : Operation} {name bidder : Bytes} {value : ℤ} (hplain' : ∀ w ∈ op'.names, PlainWord w)
    (hplain : ∀ w ∈ (Operation.submit name bidder value).names, PlainWord w)
    (h : op'.target = (Operation.submit name bidder value).target) : ∃ value', op' = .submit name bidder value' := by
  have hnul : ∀ n, PlainWord n → n ≠ fabricKey (bidKey name bidder) := by
    rintro n hn rfl
    exact hn.no_nul List.mem_cons_self
  have hwords {a b : Bytes} {v : ℤ} (hp : ∀ w ∈ (Operation.submit a b v).names, PlainWord w) :
      ∀ w ∈ bidKey a b, PlainWord w :=
    plainWord_bidKey (hp a List.mem_cons_self) (hp b (List.mem_cons_of_mem _ List.mem_cons_self))
  cases op' with
  | submit name' bidder' value' =>
    have hkeys : fabricKey (bidKey name' bidder') = fabricKey (bidKey name bidder) := h
    have hprefix := (fabricKey_prefix_iff (hwords hplain') (hwords hplain)).mp (hkeys ▸ List.prefix_rfl)
    have heq : bidKey name' bidder' = bidKey name bidder := hprefix.eq_of_length rfl
    cases heq
    exact ⟨value', rfl⟩
  | create n => exact absurd h (hnul n (hplain' n List.mem_cons_self))
  | close n => exact absurd h (hnul n (hplain' n List.mem_cons_self))
  | eval n => exact absurd h (hnul n (hplain' n List.mem_cons_self))

variable (F) in
/-- A run of the auction channel. Where the envelope is not one of the chaincode, it registers an enclave
or is none that the ledger enclave looks at. The filter of a block has code 1 for envelopes that are empty
only. -/
structure AuctionChannel (libs : Libs) (phantomFree : Kvs → Kvs → Peer.KVRWSet → Bool) (n : ℕ) (c : Channel)
    (blocks : List (OrderedBlock (Endorsement η τ σ))) : Prop where
  number : ∀ i b block, blocks[i]? = some b → b.blockData.decoded = some block → block.number = n+i
  endorsed : ∀ pre b post, blocks = pre ++ b :: post → ∀ block txFilter, b.blockData.decoded = some block →
    blockMetadata block = .ok txFilter → ∀ p ∈ block.data.zipIdx, ∀ x, b.note p.2 = some x →
      (∃ t, Visits (Channel.step libs phantomFree (Endorsement.peerTx F)) c pre t ∧ t.world = x.worldState) ∧
      (x.peerTx F).CarriedBy c.ledger.state block.number p.1 ∧ txFilter[p.2]? ≠ some 1
  others : ∀ b ∈ blocks, ∀ block, b.blockData.decoded = some block → ∀ p ∈ block.data.zipIdx, b.note p.2 = none →
    Registers block.number p.1
  proposed : ∀ b ∈ blocks, ∀ i x, b.note i = some x → ∃ op, x.Proposed F op
  singleBids : ∀ b ∈ blocks, SingleBids b

theorem AuctionChannel.honestRun {libs : Libs} {phantomFree : Kvs → Kvs → Peer.KVRWSet → Bool} {n : ℕ} {c : Channel}
    {blocks : List (OrderedBlock (Endorsement η τ σ))} (h : AuctionChannel F libs phantomFree n c blocks) :
    HonestRun libs phantomFree (Endorsement.peerTx F) n c blocks where
  number := h.number
  envelopes := by
    intro pre b post hblocks block txFilter hblock hmetadata p hp
    have hb : b ∈ blocks := by
      rw [hblocks]
      exact List.mem_append_right _ List.mem_cons_self
    cases hx : b.note p.2 with
    | none => exact .other (h.others b hb block hblock p hp hx)
    | some x =>
      obtain ⟨op, hop⟩ := h.proposed b hb p.2 x hx
      obtain ⟨hvisits, hcarried, hfilter⟩ := h.endorsed pre b post hblocks block txFilter hblock hmetadata p hp x hx
      exact .simulated hvisits hop.plainTx hcarried hfilter
  rewrites := by
    intro b hb i j y z hij hy hz w hw w' hw' heq
    obtain ⟨x, hx, rfl⟩ := Option.map_eq_some_iff.mp hy
    obtain ⟨x', hx', rfl⟩ := Option.map_eq_some_iff.mp hz
    obtain ⟨op, hop⟩ := h.proposed b hb i x hx
    obtain ⟨op', hop'⟩ := h.proposed b hb j x' hx'
    obtain ⟨response, hresponse⟩ := hop'.response
    rw [hop.write_key hw, hop'.write_key hw'] at heq
    have hread := List.mem_map_of_mem (f := Peer.KVRead.key) (x'.mem_reads hop'.operation hresponse hop'.plain)
    -- a record is read before it is written, and of a bid there is only one
    cases op' with
    | submit name bidder value =>
      obtain ⟨value', rfl⟩ := Operation.eq_bid_of_target hop.plain hop'.plain heq.symm
      exact absurd (h.singleBids b hb i j x x' name bidder value' value hx hx' hop.operation hop'.operation) hij.ne
    | create name =>
      rw [hop'.write_key hw']
      exact hread
    | close name =>
      rw [hop'.write_key hw']
      exact hread
    | eval name =>
      rw [hop'.write_key hw']
      exact hread

end

/-! The reads of the chaincode. -/

/-- `check_cmac` accepts the answer of an ocall. -/
def Event.Verified {η τ σ : Type} (E : Enclave η τ σ) : Event τ → Prop
  | .getState key maxValLen reply => valueVerdict E key maxValLen reply = true
  | .putState _ _ => True
  | .getStateByPartialCompositeKey compKey values reply => rangeVerdict E compKey values reply = some true

section
variable {ω τ : Type} [DecidableEq τ] (H : IdealHash ω) (M : IdealMac ω τ)
variable {η τ' σ σ' : Type} (E : Enclave η τ' σ) (sign : List ω → Option σ') {F : KeyRule} {n : ℕ} {c : Channel}

/-- A single key. -/
theorem Aligned.value_verified (h : Aligned n c) {pre : List (Event τ)} {name : Bytes} (hn : PlainWord name)
    {maxValLen : UInt32} {reply : OcallReply τ}
    (hreply : (goHost F c.world (verifyState H M c.ledger.state)).getState pre name maxValLen = some reply) :
    valueVerdict (idealEnclave H M E sign) name maxValLen reply = true := by
  obtain ⟨keyStr, hgo, hverdict⟩ := valueVerdict_eq H M E sign F c.world c.ledger.state hreply
  rw [goKey_of_no_dot hn.no_dot] at hgo
  cases hgo
  have hsame := h.mirrors.getElem?_eq (.record hn) (eccName_record hn)
  rw [hverdict]
  cases hx : c.world[name]? with
  | none =>
    refine (checkCmac_absent_iff H M c.ledger.state hn.no_nul).mpr ?_
    exact hsame.symm.trans hx
  | some x =>
    have hnul : (0 : UInt8) ∉ str "ecc." ++ name := zero_notMem_eccDot hn.no_nul
    apply checkCmac_of_value H M (h.filled name x hx)
    · rw [cstr_eq_self hnul, cstr_eq_self hn.no_nul, pastDot_ecc]
    · rw [cstr_eq_self hnul]
      rw [hx] at hsame
      exact congrArg (Option.map Prod.fst) hsame.symm

/-- The bids of an auction, when the enclave can decrypt them. -/
theorem Aligned.range_verified (h : Aligned n c) {pre : List (Event τ)} {name : Bytes} (hn : PlainWord name)
    {reply : OcallReply τ}
    (hreply : (goHost F c.world (verifyState H M c.ledger.state)).getStateByPartialCompositeKey pre
      (sgxKey [str "somePrefix", name]) = some reply)
    (hreturns : readValues (idealEnclave H M E sign) ∅ reply ≠ none) :
    rangeVerdict (idealEnclave H M E sign) (sgxKey [str "somePrefix", name]) ∅ reply = some true := by
  have hwords := plainWord_bids hn
  have htidy := h.mirrors.tidyState
  obtain ⟨items, hrange, hval, hfit, -⟩ := goHost_range_some F c.world hreply
  have hitems : items = getStateByPartialKey c.world (fabricKey [str "somePrefix", name]) := by
    rw [goRange, splitSGXCompositeKey_sgxKey (fun w hw => (hwords w hw).no_dot)] at hrange
    obtain ⟨start, hstart, rfl⟩ := Option.map_eq_some_iff.mp hrange
    rw [createCompositeKey] at hstart
    split_ifs at hstart
    cases hstart
    rfl
  subst hitems
  have hreceived : receivedValues (idealEnclave H M E sign) ∅ reply =
      some (insertAll ∅ (rangeItems c.world (fabricKey [str "somePrefix", name]))) :=
    receivedValues_valuesText _ ∅ hval (htidy.jsonSafe.rangeItems _) (hval ▸ hfit)
  have htag : reply.cmac = ecallGetMultiStateMetadata H M c.ledger.state (str "ecc" ++ sgxKey [str "somePrefix", name]) := by
    obtain ⟨items', -, hreply⟩ := Option.bind_eq_some_iff.mp hreply
    dsimp only at hreply
    split_ifs at hreply
    cases hreply
    rfl
  obtain ⟨⟨received, plain⟩, hread⟩ := Option.ne_none_iff_exists'.mp hreturns
  have hpairs : received = insertAll ∅ (rangeItems c.world (fabricKey [str "somePrefix", name])) := by
    obtain ⟨received', hreceived', hrest⟩ := Option.bind_eq_some_iff.mp hread
    split_ifs at hrest
    cases hrest
    exact Option.some.inj (hreceived'.symm.trans hreceived)
  rw [rangeVerdict_eq_true_iff H M E sign c.ledger.state (plainText_sgxKey hwords).no_nul rfl hread htag, hpairs,
    pairBytes, toList_rangeItems h.mirrors.agrees htidy (List.cons_ne_nil _ _) hwords]

end

section
variable {ω τ : Type} [DecidableEq τ] (H : IdealHash ω) (M : IdealMac ω τ)
variable {η τ' σ σ' η' τ'' σ'' : Type} (E : Enclave η τ' σ) (sign : List ω → Option σ') (F : KeyRule)

/-- An honest peer stays in line with the ledger enclave: over every run of auction blocks the world
state that Fabric's rules lead to is the state that `parse_block` leads to, and so no read of an auction
invocation on it fails its check. This needs that a block has no two bids of one bidder for one auction:
Fabric keeps the last of these, the ledger enclave the first. -/
theorem channel_stays_aligned (libs : Libs) (phantomFree : Kvs → Kvs → Peer.KVRWSet → Bool) (n : ℕ) (c₀ c : Channel)
    (blocks : List (OrderedBlock (Endorsement η' τ'' σ''))) (numbers : List ℕ) (hpos : 0 < n) (h₀ : Aligned n c₀)
    (hrun : AuctionChannel F libs phantomFree n c₀ blocks)
    (h : exec (Channel.step libs phantomFree (Endorsement.peerTx F)) c₀ blocks = some (c, numbers)) :
    Aligned (n+blocks.length) c ∧
      ∀ (i : Invocation (List ω) τ σ') (op : Operation), i.enclave = idealEnclave H M E sign →
        i.verifyTag = verifyState H M c.ledger.state →
        Endorsement.Proposed F ⟨i, c.ledger.state, c.world⟩ op →
          ∀ e ∈ (i.simulated F c.world).2.trace, e.Verified i.enclave := by
  have haligned := (run_inTune hpos h₀ hrun.honestRun h).aligned
  refine ⟨haligned, ?_⟩
  intro i op henclave htag hproposed e he
  have hn := hproposed.plain _ op.auctionName_mem
  obtain ⟨pre, post, hsplit⟩ := List.append_of_mem he
  have hanswered := hproposed.traced.answered pre e post hsplit
  have hreturns := hproposed.traced.returns e he
  dsimp only at hanswered hreturns
  rw [htag] at hanswered
  rw [henclave] at hreturns ⊢
  obtain ⟨reply, tail, htrace, htail⟩ := hproposed.auctionTrace
  have he' : e ∈ Event.getState op.auctionName maxValueSize reply :: tail := htrace ▸ he
  rcases List.mem_cons.mp he' with rfl | he'
  · exact haligned.value_verified H M E sign hn hanswered
  · cases htail with
    | none => cases he'
    | putAuction val =>
      rw [List.mem_singleton.mp he']
      trivial
    | putBid hb val =>
      rw [List.mem_singleton.mp he']
      trivial
    | bids reply' =>
      rw [List.mem_singleton.mp he'] at hanswered hreturns ⊢
      exact haligned.range_verified H M E sign hn hanswered hreturns

end

/-! A channel on which an auction is created. -/

/-- The channel behind two blocks of configuration. -/
def quietChannel : Channel := ⟨∅, { start with sequenceNumber := 1 }⟩

theorem aligned_quietChannel : Aligned 2 quietChannel where
  mirrors := mirrors_empty
  below := by
    intro k v hv
    cases hv
  filled := by
    intro k x hx
    cases hx

theorem proposed_creation : creation.Proposed nulFree (.create (str "a")) where
  operation := filed_creation.operation
  plain := List.forall_mem_singleton.mpr plainWord_a
  response := ⟨str "OK", by decide +kernel⟩

theorem carried_creation : (creation.peerTx nulFree).CarriedBy quietChannel.ledger.state 2 creationTx := by
  have hkv := creation.kvRwSet_of_put proposed_creation.operation
    (by decide +kernel : (creation.simulated nulFree).1 = some (some (str "OK"))) proposed_creation.plain mirrors_empty
    ⟨rfl, rfl, rfl⟩ (fun _ _ _ => rfl) (.absent (ExtTreeMap.getElem?_empty)) rfl
  refine ⟨_, fun _ => Version.zero, [], [], envelopeTx_endorserTx _ _, by simp, by simp, by simp, ?_⟩
  dsimp only [Endorsement.peerTx]
  rw [hkv]
  rfl

/-- Fabric as far as it is left open: no range query is repeated. -/
def noRepeat : Kvs → Kvs → Peer.KVRWSet → Bool := fun _ _ _ => false

theorem auctionChannel_creation :
    AuctionChannel nulFree parsonLibs noRepeat 2 quietChannel [auctionBlock 2 creation creationTx] where
  number := by
    intro i b block hb hblock
    obtain ⟨rfl, rfl⟩ : i = 0 ∧ b = auctionBlock 2 creation creationTx := by
      cases i with
      | zero => exact ⟨rfl, (Option.some.inj hb).symm⟩
      | succ i => cases hb
    cases hblock
    rfl
  endorsed := by
    intro pre b post hblocks block txFilter hblock hmetadata p hp x hx
    cases pre with
    | nil =>
      cases hblocks
      cases hblock
      cases hx
      have hm : blockMetadata (plainBlock 2 [0] [creationTx]) = .ok [0] := blockMetadata_plainBlock 2 (List.cons_ne_nil _ _) (Nat.le_refl 1)
      cases hm.symm.trans hmetadata
      rw [List.mem_singleton.mp hp]
      exact ⟨⟨quietChannel, Visits.start _ _ _, rfl⟩, carried_creation, by decide⟩
    | cons b' pre =>
      have hlength := congrArg List.length hblocks
      simp at hlength
  others := by
    intro b hb block hblock p hp hnone
    rw [List.mem_singleton.mp hb] at hnone
    cases hnone
  proposed := by
    intro b hb i x hx
    rw [List.mem_singleton.mp hb] at hx
    cases hx
    exact ⟨_, proposed_creation⟩
  singleBids := by
    intro b hb i j x y name bidder value value' hx hy hop
    rw [List.mem_singleton.mp hb] at hx
    cases hx
    rw [proposed_creation.operation] at hop
    cases hop

/-- The closing of the auction, by an enclave that checks its reads. -/
def checkedClosing : Invocation (List ℕ) (List ℕ) Unit where
  enclave := bidEnclave
  verifyTag := verifyState IdealHash.numbered (IdealMac.plain ℕ) createdState
  uninit := 0
  args := str "[\"close\",\"a\"]"
  pk := []
  responseLenIn := 1024
  version := Version.zero

theorem channel_stays_aligned_created :
    ∃ c, exec (Channel.step parsonLibs noRepeat (Endorsement.peerTx nulFree)) quietChannel
        [auctionBlock 2 creation creationTx] = some (c, [2]) ∧
      c.ledger = afterCreation ∧ Aligned 3 c ∧
      ∀ e ∈ (checkedClosing.simulated nulFree c.world).2.trace, e.Verified bidEnclave := by
  have hstep : Channel.step parsonLibs noRepeat (Endorsement.peerTx nulFree) quietChannel
      (auctionBlock 2 creation creationTx) =
        some (⟨peerCommit noRepeat ∅ 2 [(some (creation.peerTx nulFree), 0)], afterCreation⟩, 2) := by
    have hparse : parseBlock parsonLibs quietChannel.ledger (auctionBlock 2 creation creationTx).blockData =
        some (afterCreation, .success) := parse_creation
    rw [Channel.step, hparse]
    rfl
  have hexec : exec (Channel.step parsonLibs noRepeat (Endorsement.peerTx nulFree)) quietChannel
      [auctionBlock 2 creation creationTx] = some (_, [2]) :=
    (exec_cons_eq_some _).mpr ⟨_, _, _, _, hstep, rfl, rfl⟩
  obtain ⟨haligned, hverified⟩ := channel_stays_aligned IdealHash.numbered (IdealMac.plain ℕ) frankEnclave
    (fun _ => some ()) nulFree parsonLibs noRepeat 2 quietChannel _ _ _ (by decide) aligned_quietChannel
    auctionChannel_creation hexec
  refine ⟨_, hexec, rfl, haligned, hverified checkedClosing (.close (str "a")) rfl rfl ⟨?_, ?_, ?_⟩⟩
  · decide +kernel
  · exact List.forall_mem_singleton.mpr plainWord_a
  · exact ⟨str "OK", by decide +kernel⟩

end SecureChaincode
