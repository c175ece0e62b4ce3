import SecureChaincode.BlockPlan

/-! Which of the writers of a block a key ends up with. -/
namespace SecureChaincode

open Std

/-- All writes that a transaction carries, of whatever namespace. -/
def txWrites (t : Transaction) : List KVWrite :=
  t.actions.flatMap (fun a =>
    (actionNs a).flatMap (fun n => (decodedNs n).elim [] (fun d => d.2.writes)))

/-- No endorser transaction of the block that gets past the filter has two writes. -/
def SingleWrites (block : Block) (txFilter : Bytes) : Prop :=
  ∀ e ∈ block.data.zipIdx, txFilter[e.2]? ≠ some 1 →
    ∀ t, envelopeTx block.number e.1 = some t → (txWrites t).length ≤ 1

/-- The transaction at index `i` is accepted and writes the value to the key. -/
def AcceptedWriter (plan : List (ℕ × Outcome)) (i : ℕ) (k v : Bytes) : Prop :=
  ∃ o, (i, o) ∈ plan ∧ o.accepted = true ∧ (k, v) ∈ o.writes

/-- The transaction at index `i` is not accepted and yet offers the value for the key. -/
def StrayWriter (plan : List (ℕ × Outcome)) (i : ℕ) (k v : Bytes) : Prop :=
  ∃ o, (i, o) ∈ plan ∧ o.accepted = false ∧ (k, v) ∈ o.writes

/-- The first of the stray writers offers the very entry that the state has, which then
carries the number of this block already. -/
def RepeatsEntry (plan : List (ℕ × Outcome)) (number : ℕ) (state : Kvs) (k : Bytes) : Prop :=
  ∃ i v, StrayWriter plan i k v ∧ (∀ j w, StrayWriter plan j k w → i ≤ j) ∧
    state[k]? = some (v, ⟨number, i⟩)

/-- The key has the entry of its last accepted writer, or else the one it had. -/
def LastWriterWins (plan : List (ℕ × Outcome)) (number : ℕ) (state state' : Kvs) (k : Bytes) : Prop :=
  (∀ i v, AcceptedWriter plan i k v → (∀ j w, AcceptedWriter plan j k w → j ≤ i) →
    state'[k]? = some (v, ⟨number, i⟩)) ∧
  ((∀ i v, ¬AcceptedWriter plan i k v) → state'[k]? = state[k]?)

theorem length_writeList_le (ns : Bytes) (writes : List KVWrite) :
    (writeList ns writes).length ≤ writes.length := by
  rw [writeList]
  split_ifs with hl hr hc
  · exact List.length_filterMap_le _ _
  · have hhead : writes.head?.toList.length ≤ writes.length := by
      cases writes with
      | nil => exact le_rfl
      | cons w ws => simp
    exact (List.length_filterMap_le _ _).trans hhead
  · exact List.length_filterMap_le _ _
  · exact Nat.zero_le _

theorem length_nsWriteList_le (n : NsReadWriteSet) :
    (nsWriteList n).length ≤ ((decodedNs n).elim [] (fun d => d.2.writes)).length := by
  rw [nsWriteList]
  cases hd : decodedNs n with
  | none => exact le_rfl
  | some d => exact length_writeList_le d.1 d.2.writes

theorem length_flatMap_le {α β γ : Type} {f : α → List β} {g : α → List γ} (l : List α)
    (h : ∀ a ∈ l, (f a).length ≤ (g a).length) : (l.flatMap f).length ≤ (l.flatMap g).length := by
  rw [List.length_flatMap, List.length_flatMap]
  exact List.sum_le_sum h

/-- A plan offers no more writes than the transaction carries. -/
theorem length_planTx_writes_le (state : Kvs) (version : Version) (updates : Kvs) (t : Transaction) :
    (planTx state version updates t.actions).writes.length ≤ (txWrites t).length := by
  have hact (as : List TransactionAction) (u : Kvs) :
      (planTx state version u as).writes.length ≤ (as.flatMap actionWrites).length := by
    induction as generalizing u with
    | nil => exact le_rfl
    | cons a as ih =>
      rw [planTx, List.flatMap_cons, List.length_append]
      cases hr : actionReads a with
      | error e => exact Nat.zero_le _
      | ok reads =>
        simp only
        split_ifs with hf
        · rw [List.length_append]
          exact Nat.add_le_add_left (ih _) _
        · exact (ih u).trans (Nat.le_add_left _ _)
  apply (hact t.actions updates).trans
  apply length_flatMap_le
  intro a _
  apply length_flatMap_le
  intro n _
  exact length_nsWriteList_le n

/-- In such a block every outcome has at most one write. -/
theorem SingleWrites.length_le {block : Block} {txFilter : Bytes} (hs : SingleWrites block txFilter)
    {state updates : Kvs} {p : ℕ × Outcome}
    (hp : p ∈ planBlock state block.number txFilter updates block.data.zipIdx) :
    p.2.writes.length ≤ 1 := by
  obtain ⟨e, he, u, rfl⟩ := mem_planBlock hp
  simp only [planEnvelope]
  split_ifs with hskip
  · exact Nat.zero_le _
  · cases ht : envelopeTx block.number e.1 with
    | none => exact Nat.zero_le _
    | some t => exact (length_planTx_writes_le _ _ _ t).trans (hs e he hskip t ht)

/-- The entry that wins in the update map is that of the first index that offers one. -/
theorem lookup_entries_eq_some {number : ℕ} {plan : List (ℕ × Outcome)} {k : Bytes} {x : KvsValue}
    (hs : plan.Pairwise (fun p q => p.1 < q.1)) (h : (entries number plan).lookup k = some x) :
    ∃ p ∈ plan, x.2 = ⟨number, p.1⟩ ∧ (k, x.1) ∈ p.2.writes ∧
      ∀ q ∈ plan, ∀ w, (k, w) ∈ q.2.writes → p.1 ≤ q.1 := by
  induction plan with
  | nil => cases h
  | cons p plan ih =>
    have hp := List.pairwise_cons.mp hs
    rw [entries_cons, List.lookup_append] at h
    cases hl : (stamp ⟨number, p.1⟩ p.2.writes).lookup k with
    | some y =>
      rw [hl, Option.some_or] at h
      cases h
      obtain ⟨w, hw, hwx⟩ := List.mem_map.mp (mem_of_lookup_eq_some hl)
      cases hwx
      refine ⟨p, List.mem_cons_self, rfl, hw, ?_⟩
      intro q hq _ _
      rcases List.mem_cons.mp hq with rfl | hq
      · exact le_rfl
      · exact (hp.1 q hq).le
    | none =>
      rw [hl, Option.none_or] at h
      obtain ⟨q, hq, hver, hmem, hfirst⟩ := ih hp.2 h
      refine ⟨q, List.mem_cons_of_mem p hq, hver, hmem, ?_⟩
      intro q' hq' w hw
      rcases List.mem_cons.mp hq' with rfl | hq'
      · rw [List.lookup_eq_none_iff] at hl
        have hne := hl (k, w, ⟨number, q'.1⟩) (List.mem_map.mpr ⟨(k, w), hw, rfl⟩)
        simp at hne
      · exact hfirst q' hq' w hw

theorem lookup_entries_eq_none {number : ℕ} {plan : List (ℕ × Outcome)} {k : Bytes}
    (h : (entries number plan).lookup k = none) {p : ℕ × Outcome} (hp : p ∈ plan) (w : Bytes) :
    (k, w) ∉ p.2.writes := by
  intro hw
  rw [List.lookup_eq_none_iff] at h
  have hne := h (k, w, ⟨number, p.1⟩)
    (List.mem_flatMap.mpr ⟨p, hp, List.mem_map.mpr ⟨(k, w), hw, rfl⟩⟩)
  simp at hne

/-- Of the accepted writers of a key one is the last. -/
theorem exists_last_writer {plan : List (ℕ × Outcome)} {i : ℕ} {k v : Bytes}
    (h : AcceptedWriter plan i k v) :
    ∃ m w, AcceptedWriter plan m k w ∧ ∀ j x, AcceptedWriter plan j k x → j ≤ m := by
  let s : Set (ℕ × Outcome) := { p | p ∈ plan ∧ p.2.accepted = true ∧ ∃ x, (k, x) ∈ p.2.writes }
  -- the accepted writers are among the finitely many outcomes
  have hfin : s.Finite := plan.finite_toSet.subset (fun p hp => hp.1)
  obtain ⟨o, ho, hacc, hv⟩ := h
  obtain ⟨m, ⟨hm, hmacc, w, hw⟩, hmax⟩ := s.exists_max_image Prod.fst hfin ⟨(i, o), ho, hacc, v, hv⟩
  refine ⟨m.1, w, ⟨m.2, hm, hmacc, hw⟩, ?_⟩
  rintro j x ⟨o', ho', hacc', hx⟩
  exact hmax (j, o') ⟨ho', hacc', x, hx⟩

theorem eq_of_index_eq {plan : List (ℕ × Outcome)} (hs : plan.Pairwise (fun p q => p.1 < q.1))
    {p q : ℕ × Outcome} (hp : p ∈ plan) (hq : q ∈ plan) (h : p.1 = q.1) : p = q := by
  have hn : (plan.map Prod.fst).Nodup := (List.pairwise_map.mpr hs).imp (fun hlt => hlt.ne)
  exact List.inj_on_of_nodup_map hn hp hq h

theorem eq_of_mem_of_length_le_one {α : Type} {l : List α} (hl : l.length ≤ 1) {a b : α}
    (ha : a ∈ l) (hb : b ∈ l) : a = b := by
  cases l with
  | nil => cases ha
  | cons c l =>
    have hnil : l = [] := List.length_eq_zero_iff.mp (by rw [List.length_cons] at hl; omega)
    rw [hnil, List.mem_singleton] at ha hb
    rw [ha, hb]

/-- The update map keeps the first entry offered for a key, so the last accepted writer
has it exactly when no other accepted writer and no stray one comes before. -/
theorem lastWriterWins_plan_iff {plan : List (ℕ × Outcome)} {number : ℕ} {state : Kvs}
    (hs : plan.Pairwise (fun p q => p.1 < q.1)) (hone : ∀ p ∈ plan, p.2.writes.length ≤ 1)
    (k : Bytes) :
    LastWriterWins plan number state (assignAll state (insertAll ∅ (entries number plan))) k ↔
      (∀ i j v w, AcceptedWriter plan i k v → AcceptedWriter plan j k w → i = j) ∧
      ∀ i v, StrayWriter plan i k v → (∃ j w, j < i ∧ AcceptedWriter plan j k w) ∨
        (∀ j w, ¬AcceptedWriter plan j k w) ∧ RepeatsEntry plan number state k := by
  have hget : (assignAll state (insertAll ∅ (entries number plan)))[k]? =
      ((entries number plan).lookup k).or state[k]? := by
    rw [getElem?_assignAll, getElem?_insertAll, ExtTreeMap.getElem?_empty, Option.none_or]
  rw [LastWriterWins, hget]
  cases hl : (entries number plan).lookup k with
  | none =>
    -- nobody writes the key
    have hno (p : ℕ × Outcome) (hp : p ∈ plan) (w : Bytes) := lookup_entries_eq_none hl hp w
    rw [Option.none_or]
    constructor
    · intro _
      refine ⟨?_, ?_⟩
      · rintro i j v w ⟨o, ho, -, hv⟩ _
        exact absurd hv (hno (i, o) ho v)
      · rintro i v ⟨o, ho, -, hv⟩
        exact absurd hv (hno (i, o) ho v)
    · intro _
      refine ⟨?_, fun _ => rfl⟩
      rintro i v ⟨o, ho, -, hv⟩ _
      exact absurd hv (hno (i, o) ho v)
  | some x =>
    rw [Option.some_or]
    obtain ⟨p, hp, hver, hmem, hfirst⟩ := lookup_entries_eq_some hs hl
    have hx : x = (x.1, ⟨number, p.1⟩) := Prod.ext rfl hver
    -- the value of the one write at the index that came first
    have hvalue {i : ℕ} {o : Outcome} {v : Bytes} (ho : (i, o) ∈ plan) (hv : (k, v) ∈ o.writes)
        (hpi : p.1 = i) : x = (v, ⟨number, i⟩) := by
      have hpo : p = (i, o) := eq_of_index_eq hs hp ho hpi
      have hsame : (k, x.1) = (k, v) :=
        eq_of_mem_of_length_le_one (hone p hp) hmem (by rw [hpo]; exact hv)
      rw [hx, hpi, (Prod.mk.inj hsame).2]
    -- if the last accepted writer wins, it is the one that came first
    have hlast (hwin : ∀ i v, AcceptedWriter plan i k v →
          (∀ j w, AcceptedWriter plan j k w → j ≤ i) → some x = some (v, ⟨number, i⟩))
        {i : ℕ} {v : Bytes} (hi : AcceptedWriter plan i k v) :
        i = p.1 ∧ p.2.accepted = true := by
      obtain ⟨m, w, hm, hmax⟩ := exists_last_writer hi
      have he := Option.some.inj (hwin m w hm hmax)
      rw [hx] at he
      have hpm : p.1 = m := congrArg (fun y : KvsValue => y.2.txNum) he
      have hle : i ≤ p.1 := hpm ▸ hmax i v hi
      obtain ⟨o, ho, -, hv⟩ := hi
      have hge : p.1 ≤ i := hfirst (i, o) ho v hv
      obtain ⟨o', ho', hacc', -⟩ := hm
      have hpo : p = (m, o') := eq_of_index_eq hs hp ho' hpm
      exact ⟨Nat.le_antisymm hle hge, by rw [hpo]; exact hacc'⟩
    constructor
    · rintro ⟨hwin, hkeep⟩
      refine ⟨?_, ?_⟩
      · intro i j v w hi hj
        rw [(hlast hwin hi).1, (hlast hwin hj).1]
      · rintro i v ⟨o, ho, hrej, hv⟩
        by_cases hex : ∃ j w, AcceptedWriter plan j k w
        · obtain ⟨j, w, hj⟩ := hex
          obtain ⟨hjp, hacc⟩ := hlast hwin hj
          have hle : p.1 ≤ i := hfirst (i, o) ho v hv
          have hne : p.1 ≠ i := by
            intro he
            rw [eq_of_index_eq hs hp ho he, hrej] at hacc
            cases hacc
          exact Or.inl ⟨j, w, by omega, hj⟩
        · -- the stray entry was stored, so it is the one that was there
          push Not at hex
          have hprej : p.2.accepted = false := by
            apply Bool.eq_false_iff.mpr
            intro hacc
            exact hex p.1 x.1 ⟨p.2, hp, hacc, hmem⟩
          refine Or.inr ⟨hex, p.1, x.1, ⟨p.2, hp, hprej, hmem⟩, ?_, ?_⟩
          · rintro j w ⟨o', ho', -, hw⟩
            exact hfirst (j, o') ho' w hw
          · rw [← hkeep hex, ← hx]
    · rintro ⟨huniq, hstray⟩
      by_cases hacc : p.2.accepted = true
      · have hpacc : AcceptedWriter plan p.1 k x.1 := ⟨p.2, hp, hacc, hmem⟩
        refine ⟨?_, fun hno => absurd hpacc (hno p.1 x.1)⟩
        intro i v hi _
        have hpi : p.1 = i := huniq p.1 i x.1 v hpacc hi
        obtain ⟨o, ho, -, hv⟩ := hi
        rw [hvalue ho hv hpi]
      · -- a stray writer that came first can only repeat the entry of the state
        have hpstray : StrayWriter plan p.1 k x.1 := ⟨p.2, hp, Bool.eq_false_iff.mpr hacc, hmem⟩
        rcases hstray p.1 x.1 hpstray with ⟨j, w, hj, o, ho, -, hw⟩ | ⟨hno, i, v, hi, hmin, hentry⟩
        · have hle : p.1 ≤ j := hfirst (j, o) ho w hw
          omega
        · refine ⟨fun i v hi _ => absurd hi (hno i v), fun _ => ?_⟩
          have hle : i ≤ p.1 := hmin p.1 x.1 hpstray
          obtain ⟨o, ho, -, hv⟩ := hi
          have hge : p.1 ≤ i := hfirst (i, o) ho v hv
          rw [hentry, hvalue ho hv (by omega)]

/-- After a committed block whose transactions have one write each, a key has the entry of
its last accepted writer exactly when it has one accepted writer at most and every
write of a transaction that was not accepted comes after it; if it has none, such a write
must repeat what the state has. -/
theorem last_writer_wins_iff (libs : Libs) (L L' : Ledger) (blockData : Encoded Block)
    (block : Block) (txFilter : Bytes) (hb : blockData.decoded = some block)
    (hf : blockMetadata block = .ok txFilter)
    (h : parseBlock libs L blockData = some (L', .success)) (hs : SingleWrites block txFilter)
    (k : Bytes) :
    let plan := planBlock L.state block.number txFilter ∅ block.data.zipIdx
    LastWriterWins plan block.number L.state L'.state k ↔
      (∀ i j v w, AcceptedWriter plan i k v → AcceptedWriter plan j k w → i = j) ∧
      ∀ i v, StrayWriter plan i k v → (∃ j w, j < i ∧ AcceptedWriter plan j k w) ∨
        (∀ j w, ¬AcceptedWriter plan j k w) ∧ RepeatsEntry plan block.number L.state k := by
  intro plan
  obtain ⟨txFilter', hc⟩ := parseBlock_success hb h
  have hff : txFilter' = txFilter := Except.ok.inj (hc.metadata.symm.trans hf)
  rw [hc.state_eq, hff]
  exact lastWriterWins_plan_iff (planBlock_sorted _ _ _ _ _) (fun p hp => hs.length_le hp) k

/-- The ledger after a genesis block without effect. -/
def afterGenesis : Ledger := ⟨∅, 0, ⟨some [], some []⟩⟩

/-- An envelope with an `ecc` invocation that writes one key without reading it, as a
bidder does. -/
def bid (key value : String) : Encoded Envelope :=
  endorserTx ⟨[wrapAction (str "ecc") [str "submit"]
    ⟨[wrapNs (str "ecc") ⟨[], [], [⟨some (str key), some (str value)⟩]⟩]⟩]⟩

theorem wrapped_bid (key value : String) : Wrapped (bid key value) := wrapped_action _ _ _

theorem single_bid_wins :
    ∃ L', parseBlock parsonLibs afterGenesis (wrapBlock 1 [0] [bid "a" "1"]) = some (L', .success) ∧
      LastWriterWins [(0, ⟨[(str "ecc.a", str "1")], true⟩)] 1 ∅ L'.state (str "ecc.a") := by
  have hparse := (parseBlock_wrapped (wrappedBlock_singleton 1 [0] (wrapped_bid "a" "1")) afterGenesis).trans rfl
  refine ⟨_, hparse, ?_⟩
  refine (last_writer_wins_iff parsonLibs afterGenesis _ (wrapBlock 1 [0] [bid "a" "1"])
    (plainBlock 1 [0] [bid "a" "1"]) [0] rfl rfl hparse ?_ (str "ecc.a")).mpr ⟨?_, ?_⟩
  · intro e he _ t ht
    rw [show (plainBlock 1 [0] [bid "a" "1"]).data.zipIdx = [(bid "a" "1", 0)] from rfl,
      List.mem_singleton] at he
    rw [he] at ht
    cases ht
    decide
  · rintro i j v w ⟨o, ho, -⟩ ⟨o', ho', -⟩
    have hi := congrArg Prod.fst (List.mem_singleton.mp ho)
    have hj := congrArg Prod.fst (List.mem_singleton.mp ho')
    exact hi.trans hj.symm
  · rintro i v ⟨o, ho, hrej, -⟩
    have ho := congrArg (fun p : ℕ × Outcome => p.2.accepted) (List.mem_singleton.mp ho)
    rw [show o.accepted = true from ho] at hrej
    cases hrej

/-- A bidder who submits twice in one block stays with the first bid. -/
theorem first_bid_wins :
    planBlock ∅ 1 [0, 0] ∅ [bid "a" "1", bid "a" "2"].zipIdx =
        [(0, ⟨[(str "ecc.a", str "1")], true⟩), (1, ⟨[(str "ecc.a", str "2")], true⟩)] ∧
      ∃ L', parseBlock parsonLibs afterGenesis (wrapBlock 1 [0, 0] [bid "a" "1", bid "a" "2"]) =
          some (L', .success) ∧
        L'.state[str "ecc.a"]? = some (str "1", ⟨1, 0⟩) := by
  have hwrapped : WrappedBlock (wrapBlock 1 [0, 0] [bid "a" "1", bid "a" "2"]) :=
    wrappedBlock_wrapBlock 1 [0, 0] (List.forall_mem_cons.mpr
      ⟨wrapped_bid "a" "1", List.forall_mem_singleton.mpr (wrapped_bid "a" "2")⟩)
  exact ⟨rfl, _, (parseBlock_wrapped hwrapped afterGenesis).trans rfl, by decide⟩

end SecureChaincode
