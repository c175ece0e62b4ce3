import SecureChaincode.Wrapping

/-! What one transaction leaves in the update map of the block: the writes of its `ecc`
namespaces, and the writes of a transaction that is found invalid. -/
namespace SecureChaincode

open Std

/-- The ledger's name for the key of an `ecc` write. -/
def canonicalKey (w : KVWrite) : Option Bytes := w.key.bind (eccName (str "ecc"))

/-- The write list of a namespace entry, if it is one of `ecc`. -/
def eccWrites (n : NsReadWriteSet) : Option (List KVWrite) :=
  (decodedNs n).bind (fun d => if d.1 = str "ecc" then some d.2.writes else none)

/-- The write lists of all `ecc` entries of a transaction. -/
def eccEntries (t : Transaction) : List (List KVWrite) :=
  t.actions.flatMap (fun a => (actionNs a).filterMap eccWrites)

theorem take_eccName {key name : Bytes} (h : eccName (str "ecc") key = some name) :
    name.take 4 = str "ecc." := by
  have hlen : (str "ecc" ++ str ".").length = 4 := by decide
  have hstr : str "ecc" ++ str "." = str "ecc." := by decide
  rw [eccName] at h
  split_ifs at h with h0
  · rw [compositeName] at h
    obtain ⟨rest, -, rfl⟩ := Option.map_eq_some_iff.mp h
    rw [List.take_left' hlen, hstr]
  · cases h
    rw [simpleName, List.take_left' hlen, hstr]

theorem take_simpleName {ns : Bytes} (h : ns.length = 4) (key : Bytes) :
    (simpleName ns key).take 4 = ns := by
  rw [simpleName, List.append_assoc, List.take_left' h]

theorem simpleWrite_eq_some {ns : Bytes} {w : KVWrite} {p : Bytes × Bytes}
    (h : simpleWrite ns w = some p) : ∃ key, p.1 = simpleName ns key := by
  rw [simpleWrite] at h
  obtain ⟨key, -, h⟩ := Option.bind_eq_some_iff.mp h
  obtain ⟨val, -, h⟩ := Option.bind_eq_some_iff.mp h
  cases h
  exact ⟨key, rfl⟩

theorem eccFirstWrite_eq_some {writes : List KVWrite} {w : KVWrite} {p : Bytes × Bytes}
    (h : eccFirstWrite (str "ecc") writes w = some p) :
    canonicalKey w = some p.1 ∧ writes.head?.bind KVWrite.value = some p.2 := by
  rw [eccFirstWrite] at h
  obtain ⟨key, hk, h⟩ := Option.bind_eq_some_iff.mp h
  obtain ⟨name, hname, h⟩ := Option.bind_eq_some_iff.mp h
  obtain ⟨first, hf, h⟩ := Option.bind_eq_some_iff.mp h
  obtain ⟨val, hv, h⟩ := Option.bind_eq_some_iff.mp h
  cases h
  refine ⟨?_, ?_⟩
  · rw [canonicalKey, hk]
    exact hname
  · rw [hf]
    exact hv

/-- A pair offered under an `ecc` name comes from a write of an `ecc` entry. -/
theorem nsWriteList_ecc {n : NsReadWriteSet} {p : Bytes × Bytes} (hp : p ∈ nsWriteList n)
    (h4 : p.1.take 4 = str "ecc.") :
    ∃ writes, eccWrites n = some writes ∧
      ∃ w ∈ writes, eccFirstWrite (str "ecc") writes w = some p := by
  rw [nsWriteList] at hp
  cases hd : decodedNs n with
  | none => simp [hd] at hp
  | some d =>
    rw [hd, Option.elim_some, writeList] at hp
    -- the other two namespaces file their keys under another name
    split_ifs at hp with hl hr hc
    · obtain ⟨w, -, hw⟩ := List.mem_filterMap.mp hp
      obtain ⟨key, hkey⟩ := simpleWrite_eq_some hw
      rw [hkey, hl, take_simpleName (by decide)] at h4
      exact absurd h4 (by decide)
    · obtain ⟨w, -, hw⟩ := List.mem_filterMap.mp hp
      obtain ⟨key, hkey⟩ := simpleWrite_eq_some hw
      rw [hkey, hr, take_simpleName (by decide)] at h4
      exact absurd h4 (by decide)
    · obtain ⟨w, hmem, hw⟩ := List.mem_filterMap.mp hp
      rw [hc] at hw
      exact ⟨d.2.writes, by simp [eccWrites, hd, hc], w, hmem, hw⟩
    · cases hp

/-- Every write of an `ecc` entry is offered under its own key with the value of the
first write of the entry. -/
theorem mem_nsWriteList_of_ecc {n : NsReadWriteSet} {writes : List KVWrite} {w : KVWrite}
    (hn : NsComplete n) (he : eccWrites n = some writes) (hw : w ∈ writes) :
    ∃ p ∈ nsWriteList n, eccFirstWrite (str "ecc") writes w = some p := by
  obtain ⟨d, hd, he⟩ := Option.bind_eq_some_iff.mp he
  split_ifs at he with hc
  cases he
  have hsome := hn d hd hc w hw
  rw [hc] at hsome
  obtain ⟨p, hp⟩ := Option.isSome_iff_exists.mp hsome
  refine ⟨p, ?_, hp⟩
  rw [nsWriteList, hd, Option.elim_some, writeList, hc, if_neg (by decide), if_neg (by decide),
    if_pos rfl]
  exact List.mem_filterMap.mpr ⟨w, hw, hp⟩

/-- An accepted transaction offers all of its writes. -/
theorem planTx_accepted {state : Kvs} {version : Version} {updates : Kvs}
    {as : List TransactionAction} (h : (planTx state version updates as).accepted = true) :
    (planTx state version updates as).writes = as.flatMap actionWrites := by
  induction as generalizing updates with
  | nil => rfl
  | cons a as ih =>
    rw [planTx] at h ⊢
    cases hr : actionReads a with
    | error e => simp [hr] at h
    | ok reads =>
      simp only [hr] at h ⊢
      by_cases hf : reads.all (fresh state updates) = true
      · rw [if_pos hf] at h ⊢
        have hrest := ih (Bool.and_eq_true_iff.mp h).2
        rw [List.flatMap_cons, ← hrest]
      · rw [if_neg hf] at h
        cases h

/-- The write loop of an accepted transaction has been through every namespace. -/
theorem accepted_complete {libs : Libs} {state : Kvs} {txData : Encoded Transaction}
    {t : Transaction} {updates : Kvs} {version : Version} {r : TxResult}
    (ht : txData.decoded = some t)
    (h : parseEndorserTransaction libs state txData updates version = some r)
    (hs : r.code = .success) (hv : r.tx.validTx = true) :
    ∀ a ∈ t.actions, ∀ n ∈ actionNs a, NsComplete n := by
  rw [parseEndorserTransaction, ht] at h
  simp only at h
  cases hf : t.actions.foldlM (parseAction libs state version) ⟨updates, true⟩ with
  | error e =>
    obtain ⟨x, s⟩ := e
    rw [hf] at h
    cases x with
    | fault => cases h
    | decoding =>
      cases h
      cases hs
  | ok s =>
    rw [hf] at h
    cases h
    -- the flag only ever falls, so each action has been judged fresh
    have hinv := foldlM_invariant
      (fun as (s : TxState) => s.validTx = true → ∀ a ∈ as, ∀ n ∈ actionNs a, NsComplete n)
      (fun _ a ha => absurd ha List.not_mem_nil) ?_ hf
    · exact hinv hv
    intro as a u u' ih hstep hu' b hb
    obtain ⟨reads, -, -, hvalid, hcomplete⟩ := parseAction_ok hstep
    rw [hu', eq_comm, Bool.and_eq_true_iff, Bool.and_eq_true_iff] at hvalid
    rcases List.mem_append.mp hb with hb | hb
    · exact ih hvalid.1 b hb
    · rw [List.mem_singleton.mp hb]
      exact hcomplete hvalid.2.1

section
variable {libs : Libs} {state : Kvs} {txData : Encoded Transaction} {t : Transaction}
  {updates : Kvs} {version : Version} {r : TxResult}

/-- What an accepted transaction stores for the writes of its `ecc` entries: under each
key the value of the first write of the entry. -/
theorem accepted_stores_first_value (ht : txData.decoded = some t)
    (h : parseEndorserTransaction libs state txData updates version = some r)
    (hs : r.code = .success) (hv : r.tx.validTx = true)
    (hd : ((eccEntries t).flatten.map canonicalKey).Nodup)
    (hn : ∀ w ∈ (eccEntries t).flatten, ∀ k, canonicalKey w = some k → k ∉ updates)
    {writes : List KVWrite} (hws : writes ∈ eccEntries t) {w : KVWrite} (hw : w ∈ writes) :
    ∃ k v, canonicalKey w = some k ∧ writes.head?.bind KVWrite.value = some v ∧
      r.tx.updates[k]? = some (v, version) := by
  obtain ⟨hupd, hacc⟩ := parseEndorserTransaction_eq ht h
  rw [planTx_accepted (hacc.mpr ⟨hs, hv⟩)] at hupd
  have hcomplete := accepted_complete ht h hs hv
  obtain ⟨a, ha, hws'⟩ := List.mem_flatMap.mp hws
  obtain ⟨n, hna, hecc⟩ := List.mem_filterMap.mp hws'
  obtain ⟨p, hp, hfirst⟩ := mem_nsWriteList_of_ecc (hcomplete a ha n hna) hecc hw
  obtain ⟨hkey, hval⟩ := eccFirstWrite_eq_some hfirst
  refine ⟨p.1, p.2, hkey, hval, ?_⟩
  have hmem : p ∈ t.actions.flatMap actionWrites :=
    List.mem_flatMap.mpr ⟨a, ha, List.mem_flatMap.mpr ⟨n, hna, hp⟩⟩
  have hnone : updates[p.1]? = none :=
    ExtTreeMap.getElem?_eq_none (hn w (List.mem_flatten.mpr ⟨writes, hws, hw⟩) p.1 hkey)
  -- the name shows which namespace a write is from
  have h4 : p.1.take 4 = str "ecc." := by
    obtain ⟨key, -, hname⟩ := Option.bind_eq_some_iff.mp hkey
    exact take_eccName hname
  -- no other write of the transaction has this name
  have huniq : ∀ x, (p.1, x) ∈ t.actions.flatMap actionWrites → x = p.2 := by
    intro x hx
    obtain ⟨a', ha', hx⟩ := List.mem_flatMap.mp hx
    obtain ⟨n', hn', hx⟩ := List.mem_flatMap.mp hx
    obtain ⟨writes', he', w', hw', hfirst'⟩ := nsWriteList_ecc hx h4
    obtain ⟨hkey', hval'⟩ := eccFirstWrite_eq_some hfirst'
    have hws'' : writes' ∈ eccEntries t :=
      List.mem_flatMap.mpr ⟨a', ha', List.mem_filterMap.mpr ⟨n', hn', he'⟩⟩
    -- equal names make it the same write, and that write is in one entry only
    have hww : w = w' := List.inj_on_of_nodup_map hd (List.mem_flatten.mpr ⟨writes, hws, hw⟩)
      (List.mem_flatten.mpr ⟨writes', hws'', hw'⟩) (hkey.trans hkey'.symm)
    have hsym : Std.Symm (@List.Disjoint KVWrite) := ⟨fun _ _ hl => List.disjoint_symm hl⟩
    have hsame : writes = writes' := by
      by_contra hne
      exact (List.nodup_flatten.mp hd.of_map).2.forall hws hws'' hne hw (hww ▸ hw')
    subst hsame
    exact Option.some.inj (hval'.symm.trans hval)
  rw [hupd, getElem?_insertAll, hnone, Option.none_or]
  apply lookup_eq_some_of_unique
  · exact List.mem_map.mpr ⟨p, hmem, rfl⟩
  · intro x hx
    obtain ⟨q, hq, hqx⟩ := List.mem_map.mp hx
    obtain ⟨hk, hx⟩ := Prod.mk.inj hqx
    rw [← hx, huniq q.2 (by rw [← hk]; exact hq)]

/-- The writes of the `ecc` entries reach the update map, and the state with its commit,
exactly when each entry writes one value only. -/
theorem ecc_writes_reach_ledger_iff (libs : Libs) (state : Kvs) (txData : Encoded Transaction)
    (t : Transaction) (updates : Kvs) (version : Version) (r : TxResult)
    (ht : txData.decoded = some t)
    (h : parseEndorserTransaction libs state txData updates version = some r)
    (hs : r.code = .success) (hv : r.tx.validTx = true)
    (hd : ((eccEntries t).flatten.map canonicalKey).Nodup)
    (hn : ∀ w ∈ (eccEntries t).flatten, ∀ k, canonicalKey w = some k → k ∉ updates) :
    (∀ w ∈ (eccEntries t).flatten, ∃ k v, canonicalKey w = some k ∧ w.value = some v ∧
      r.tx.updates[k]? = some (v, version) ∧
      ∀ L L' blockSequenceNumber,
        commitStateUpdates L r.tx.updates blockSequenceNumber = some L' →
          L'.state[k]? = some (v, version)) ↔
      ∀ writes ∈ eccEntries t, ∀ w ∈ writes, w.value = writes.head?.bind KVWrite.value := by
  constructor
  · intro hall writes hws w hw
    obtain ⟨k, v, hk, hval, hst, -⟩ := hall w (List.mem_flatten.mpr ⟨writes, hws, hw⟩)
    obtain ⟨k', v', hk', hfirst, hst'⟩ := accepted_stores_first_value ht h hs hv hd hn hws hw
    have hkk : k = k' := Option.some.inj (hk.symm.trans hk')
    rw [hkk, hst'] at hst
    have hvv : v' = v := congrArg Prod.fst (Option.some.inj hst)
    rw [hval, hfirst, hvv]
  · intro hall w hw
    obtain ⟨writes, hws, hw⟩ := List.mem_flatten.mp hw
    obtain ⟨k, v, hk, hfirst, hst⟩ := accepted_stores_first_value ht h hs hv hd hn hws hw
    refine ⟨k, v, hk, (hall writes hws w hw).trans hfirst, hst, ?_⟩
    intro L L' n hc
    rw [commitStateUpdates] at hc
    split_ifs at hc with hseq
    cases hc
    rw [getElem?_assignAll, hst, Option.some_or]

end

/-- An `ecc` invocation with the given writes and no reads. -/
def eccTx (writes : List KVWrite) : Transaction :=
  ⟨[wrapAction (str "ecc") [str "submit"] ⟨[wrapNs (str "ecc") ⟨[], [], writes⟩]⟩]⟩

theorem sameAnswer_eccTx (writes : List KVWrite) :
    ∀ a ∈ (eccTx writes).actions, SameAnswer parsonLibs bareLibs a :=
  List.forall_mem_singleton.mpr (sameAnswer_wrapAction _ _ _)

theorem ecc_writes_reach_ledger_one_value :
    ∃ r, parseEndorserTransaction parsonLibs ∅
        (encode (eccTx [⟨some (str "a"), some (str "1")⟩, ⟨some (str "b"), some (str "1")⟩]))
        ∅ ⟨1, 0⟩ = some r ∧
      ∀ w ∈ [⟨some (str "a"), some (str "1")⟩, ⟨some (str "b"), some (str "1")⟩],
        ∃ k v, canonicalKey w = some k ∧ w.value = some v ∧
          r.tx.updates[k]? = some (v, ⟨1, 0⟩) ∧
          ∀ L L' blockSequenceNumber,
            commitStateUpdates L r.tx.updates blockSequenceNumber = some L' →
              L'.state[k]? = some (v, ⟨1, 0⟩) := by
  have hparse := (parseEndorserTransaction_congr
    (sameAnswer_eccTx [⟨some (str "a"), some (str "1")⟩, ⟨some (str "b"), some (str "1")⟩]) ∅ ∅ ⟨1, 0⟩).trans rfl
  refine ⟨_, hparse, ?_⟩
  exact (ecc_writes_reach_ledger_iff parsonLibs ∅
    (encode (eccTx [⟨some (str "a"), some (str "1")⟩, ⟨some (str "b"), some (str "1")⟩]))
    (eccTx [⟨some (str "a"), some (str "1")⟩, ⟨some (str "b"), some (str "1")⟩])
    ∅ ⟨1, 0⟩ _ rfl hparse rfl rfl (by decide) (by decide)).mpr (by decide)

/-- Two writes of different values: the second key gets the value of the first, in the
update map and with the commit in the state. -/
theorem ecc_second_write_stored_with_first_value :
    (eccEntries (eccTx [⟨some (str "a"), some (str "1")⟩, ⟨some (str "b"), some (str "2")⟩])).flatten =
        [⟨some (str "a"), some (str "1")⟩, ⟨some (str "b"), some (str "2")⟩] ∧
      canonicalKey ⟨some (str "b"), some (str "2")⟩ = some (str "ecc.b") ∧
      ∃ r, parseEndorserTransaction parsonLibs ∅
          (encode (eccTx [⟨some (str "a"), some (str "1")⟩, ⟨some (str "b"), some (str "2")⟩]))
          ∅ ⟨1, 0⟩ = some r ∧
        r.code = .success ∧ r.tx.validTx = true ∧
        r.tx.updates[str "ecc.b"]? = some (str "1", ⟨1, 0⟩) ∧
        ∃ L, commitStateUpdates ⟨∅, 0, ⟨some [], some []⟩⟩ r.tx.updates 1 = some L ∧
          L.state[str "ecc.b"]? = some (str "1", ⟨1, 0⟩) := by
  have hparse := (parseEndorserTransaction_congr
    (sameAnswer_eccTx [⟨some (str "a"), some (str "1")⟩, ⟨some (str "b"), some (str "2")⟩]) ∅ ∅ ⟨1, 0⟩).trans rfl
  exact ⟨rfl, by decide, _, hparse, rfl, rfl, by decide, _, rfl, by decide⟩

/-! A transaction that is found invalid, or does not decode to its end. -/

def decodes (a : TransactionAction) : Bool := (actionReads a).isOk

/-- The actions before the first one that does not decode. -/
def decodableActions (txData : Encoded Transaction) : List TransactionAction :=
  txData.decoded.elim [] (fun t => t.actions.takeWhile decodes)

/-- Unless its reads conflict, the action writes only keys that have an entry already. -/
def AddsNothing (state updates : Kvs) (a : TransactionAction) : Prop :=
  ∀ reads, actionReads a = .ok reads → reads.all (fresh state updates) = true →
    ∀ p ∈ actionWrites a, p.1 ∈ updates

theorem insertAll_stamp_eq_self_iff (updates : Kvs) (version : Version) (l : List (Bytes × Bytes)) :
    insertAll updates (stamp version l) = updates ↔ ∀ p ∈ l, p.1 ∈ updates := by
  rw [insertAll_eq_self_iff, stamp, List.forall_mem_map]

theorem planTx_writes_mem_iff (state : Kvs) (version : Version) (updates : Kvs)
    (as : List TransactionAction) :
    (∀ p ∈ (planTx state version updates as).writes, p.1 ∈ updates) ↔
      ∀ a ∈ as.takeWhile decodes, AddsNothing state updates a := by
  induction as with
  | nil => simp [planTx]
  | cons a as ih =>
    rw [planTx]
    cases hr : actionReads a with
    | error e =>
      have hok : decodes a = false := by rw [decodes, hr]; rfl
      simp [hok]
    | ok reads =>
      have hok : decodes a = true := by rw [decodes, hr]; rfl
      rw [List.takeWhile_cons_of_pos hok, List.forall_mem_cons, ← ih]
      simp only
      by_cases hf : reads.all (fresh state updates) = true
      · have ha : AddsNothing state updates a ↔ ∀ p ∈ actionWrites a, p.1 ∈ updates := by
          constructor
          · intro h
            exact h reads hr hf
          · intro h _ _ _
            exact h
        rw [if_pos hf, ha]
        simp only [List.forall_mem_append]
        -- once the action adds nothing, the rest is judged against the same map
        apply and_congr_right
        intro hw
        rw [(insertAll_stamp_eq_self_iff updates version _).mpr hw]
      · have ha : AddsNothing state updates a := by
          intro reads' hr' hf'
          rw [hr] at hr'
          cases hr'
          exact absurd hf' hf
        rw [if_neg hf]
        simp [ha]

/-- A transaction, be it found invalid or stopped at a message, leaves the update map as it
was exactly when none of its actions before that point, judged on its own, adds a key. -/
theorem rejected_tx_leaves_updates_iff (libs : Libs) (state : Kvs) (txData : Encoded Transaction)
    (updates : Kvs) (version : Version) (r : TxResult)
    (h : parseEndorserTransaction libs state txData updates version = some r) :
    r.tx.updates = updates ↔ ∀ a ∈ decodableActions txData, AddsNothing state updates a := by
  cases ht : txData.decoded with
  | none =>
    rw [parseEndorserTransaction, ht] at h
    cases h
    simp [decodableActions, ht]
  | some t =>
    rw [(parseEndorserTransaction_eq ht h).1, insertAll_stamp_eq_self_iff, planTx_writes_mem_iff,
      decodableActions, ht]
    rfl

/-- A state that has the measurement the registry branch looks up. -/
def measuredState : Kvs := insertAll ∅ [(mrenclaveKey, str "AAAA", ⟨1, 0⟩)]

/-- An action that stores nothing since the key it has read has moved on. -/
def staleAction : TransactionAction :=
  wrapAction (str "lscc") [] ⟨[wrapNs (str "ecc")
    ⟨[⟨some (str "MRENCLAVE"), ⟨0, 0⟩⟩], [], [⟨some (str "a"), some (str "1")⟩]⟩]⟩

theorem sameAnswer_staleAction : SameAnswer parsonLibs bareLibs staleAction := sameAnswer_wrapAction _ _ _

theorem stale_tx_leaves_updates :
    ∃ r, parseEndorserTransaction parsonLibs measuredState (encode ⟨[staleAction]⟩) ∅ ⟨2, 0⟩ = some r ∧
      r.tx.validTx = false ∧ r.tx.updates = ∅ := by
  have hdec : decodableActions (encode ⟨[staleAction]⟩) = [staleAction] := rfl
  have hreads : actionReads staleAction = .ok [(str "ecc.MRENCLAVE", ⟨0, 0⟩)] := rfl
  have hparse := (parseEndorserTransaction_congr (List.forall_mem_singleton.mpr sameAnswer_staleAction)
    measuredState ∅ ⟨2, 0⟩).trans rfl
  refine ⟨_, hparse, rfl, ?_⟩
  refine (rejected_tx_leaves_updates_iff parsonLibs measuredState (encode ⟨[staleAction]⟩) ∅ ⟨2, 0⟩ _
    hparse).mpr ?_
  intro a ha reads hr hf
  -- its only action has a conflict, so there is nothing to be checked
  rw [hdec, List.mem_singleton] at ha
  rw [ha, hreads] at hr
  cases hr
  exact absurd hf (by decide)

/-- Three transactions that are not accepted and still add a key: the registry with two
writes in one action, a conflict in the second action, and bytes that are no message
in its place. -/
theorem rejected_tx_adds_key :
    (∃ r, parseEndorserTransaction parsonLibs measuredState
          (encode ⟨[wrapAction (str "ercc") [] ⟨[wrapNs (str "ercc") ⟨[], [],
            [⟨some (str "k"), some (str "1")⟩, ⟨some (str "l"), some (str "2")⟩]⟩]⟩]⟩)
          ∅ ⟨2, 0⟩ = some r ∧
        r.tx.validTx = false ∧ r.tx.updates[str "ercc.k"]? = some (str "1", ⟨2, 0⟩)) ∧
      (∃ r, parseEndorserTransaction parsonLibs measuredState
          (encode ⟨(eccTx [⟨some (str "a"), some (str "1")⟩]).actions ++ [staleAction]⟩)
          ∅ ⟨2, 0⟩ = some r ∧
        r.tx.validTx = false ∧ r.tx.updates[str "ecc.a"]? = some (str "1", ⟨2, 0⟩)) ∧
      (∃ r, parseEndorserTransaction parsonLibs measuredState
          (encode ⟨(eccTx [⟨some (str "a"), some (str "1")⟩]).actions ++ [⟨some garbled⟩]⟩)
          ∅ ⟨2, 0⟩ = some r ∧
        r.code = .errorDecoding ∧ r.tx.updates[str "ecc.a"]? = some (str "1", ⟨2, 0⟩)) := by
  have hgarbled : SameAnswer parsonLibs bareLibs ⟨some garbled⟩ := by
    intro function ccAction h
    cases h
  have htwo := (parseEndorserTransaction_congr (List.forall_mem_singleton.mpr
    (sameAnswer_wrapAction (str "ercc") [] ⟨[wrapNs (str "ercc") ⟨[], [],
      [⟨some (str "k"), some (str "1")⟩, ⟨some (str "l"), some (str "2")⟩]⟩]⟩)) measuredState ∅ ⟨2, 0⟩).trans rfl
  have hstale := (parseEndorserTransaction_congr (List.forall_mem_append.mpr
    ⟨sameAnswer_eccTx [⟨some (str "a"), some (str "1")⟩], List.forall_mem_singleton.mpr sameAnswer_staleAction⟩)
    measuredState ∅ ⟨2, 0⟩).trans rfl
  have hstopped := (parseEndorserTransaction_congr (List.forall_mem_append.mpr
    ⟨sameAnswer_eccTx [⟨some (str "a"), some (str "1")⟩], List.forall_mem_singleton.mpr hgarbled⟩)
    measuredState ∅ ⟨2, 0⟩).trans rfl
  exact ⟨⟨_, htwo, rfl, by decide⟩, ⟨_, hstale, rfl, by decide⟩, ⟨_, hstopped, rfl, by decide⟩⟩

end SecureChaincode
