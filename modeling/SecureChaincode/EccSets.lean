import SecureChaincode.TxRefinement

/-! The read set and the write set of `ecc` that `parse_endorser_transaction` collects for
the signature check. They depend on the read/write set of the action alone, not on the
state or on what the block has written so far. -/
namespace SecureChaincode

open Std

/-- Insert the keys one after the other. -/
def addAll (s : ReadSet) (keys : List Bytes) : ReadSet := keys.foldl (fun s k => s.insert k) s

/-- The keys that the reads of one namespace put into the read set: those of range queries
keep the dot behind the name of the chaincode, those of point reads do not. -/
def nsEccReads (n : NsReadWriteSet) : Parse (List Bytes) := do
  let kvrwset ← decodePb (← deref n.rwset)
  let ns := cstr (← deref n.ns)
  let ranges ← kvrwset.rangeQueriesInfo.mapM (queryKeys ns)
  let points ← kvrwset.reads.mapM (pointKey ns)
  return if ns = str "ecc" then
    ranges.flatten.map (fun r => r.1.drop 3) ++ points.flatten.map (fun r => r.1.drop 4)
  else []

def eccReads (rws : TxReadWriteSet) : Parse (List Bytes) := do
  return (← rws.nsRwset.mapM nsEccReads).flatten

/-- The pair that one write offers to the write set. -/
def eccPair (writes : List KVWrite) (w : KVWrite) : Option (Bytes × Bytes) := do
  let wkey ← w.key
  let key ← eccName (str "ecc") wkey
  let kkey := if (wkey ++ [0]).head? = some 0 then key.drop 3 else cstr wkey
  return (kkey, ← (← writes.head?).value)

def nsEccWritePairs (n : NsReadWriteSet) : List (Bytes × Bytes) :=
  (decodedNs n).elim [] (fun d =>
    if d.1 = str "ecc" then d.2.writes.filterMap (eccPair d.2.writes) else [])

def eccWritePairs (rws : TxReadWriteSet) : List (Bytes × Bytes) := rws.nsRwset.flatMap nsEccWritePairs

/-- The bytes that are hashed for the signature check. -/
def signedMessage (function responseData : Bytes) (reads : ReadSet) (writes : WriteSet) : Bytes :=
  function ++ responseData ++ reads.toList.flatten ++ writes.toList.flatMap (fun p => p.1 ++ p.2)

/-- What a loop over the reads of a namespace does with a key. -/
def addRead (ns : Bytes) (d : ℕ) (s : ReadSet) (r : Bytes × Version) : ReadSet :=
  if ns = str "ecc" then s.insert (r.1.drop d) else s

theorem foldl_addRead (ns : Bytes) (d : ℕ) (s : ReadSet) (l : List (Bytes × Version)) :
    l.foldl (addRead ns d) s =
      addAll s (if ns = str "ecc" then l.map (fun r => r.1.drop d) else []) := by
  split_ifs with hns
  · have hop : addRead ns d = fun s r => s.insert (r.1.drop d) := by
      funext s r
      rw [addRead, if_pos hns]
    rw [addAll, List.foldl_map, hop]
  · have hop : addRead ns d = fun s _ => s := by
      funext s r
      rw [addRead, if_neg hns]
    rw [hop, List.foldl_fixed]
    rfl

theorem rangeRead_eccReadSet (state updates : Kvs) (ns : Bytes) (acc : ReadPhase) (r : KVRead) :
    (rangeRead state updates ns acc r).map ReadPhase.eccReadSet =
      (rangeKey ns r).map (fun l => l.foldl (addRead ns 3) acc.eccReadSet) := by
  rw [rangeRead, rangeKey]
  cases hk : r.key with
  | none => rfl
  | some k =>
    cases hc : compositeName ns k with
    | none => simp [deref, hc, bind, Except.bind, Except.map]
    | some key =>
      simp [deref, hc, bind, Except.bind, Except.map, pure, Except.pure, checkRead, addRead]

theorem pointRead_eccReadSet (state updates : Kvs) (ns : Bytes) (acc : ReadPhase) (r : KVRead) :
    (pointRead state updates ns acc r).map ReadPhase.eccReadSet =
      (pointKey ns r).map (fun l => l.foldl (addRead ns 4) acc.eccReadSet) := by
  rw [pointRead, pointKey]
  cases hk : r.key with
  | none => rfl
  | some k => simp [deref, bind, Except.bind, Except.map, pure, Except.pure, checkRead, addRead]

theorem rangeQuery_eccReadSet (state updates : Kvs) (ns : Bytes) (acc : ReadPhase)
    (q : RangeQueryInfo) :
    (rangeQuery state updates ns acc q).map ReadPhase.eccReadSet =
      (queryKeys ns q).map (fun l => l.foldl (addRead ns 3) acc.eccReadSet) := by
  rw [rangeQuery, queryKeys]
  cases hr : rawReads q.readsInfo with
  | error e => rfl
  | ok reads =>
    change (reads.foldlM (rangeRead state updates ns) acc).map ReadPhase.eccReadSet =
      ((reads.mapM (rangeKey ns)) >>= fun ls => pure ls.flatten).map _
    rw [foldlM_collect (rangeRead_eccReadSet state updates ns), map_bind_pure]

theorem nsReads_eccReadSet (state updates : Kvs) (acc : ReadPhase) (n : NsReadWriteSet) :
    (nsReads state updates acc n).map ReadPhase.eccReadSet =
      (nsEccReads n).map (fun l => l.foldl (fun s k => s.insert k) acc.eccReadSet) := by
  rw [nsReads, nsEccReads]
  cases hw : n.rwset with
  | none => rfl
  | some e =>
    cases hd : e.decoded with
    | none => simp [deref, decodePb, hd, bind, Except.bind, Except.map]
    | some kv =>
      cases hn : n.ns with
      | none => simp [deref, decodePb, hd, bind, Except.bind, Except.map]
      | some b =>
        have hq := foldlM_collect (rangeQuery_eccReadSet state updates (cstr b)) acc
          kv.rangeQueriesInfo
        have hp (s : ReadPhase) := foldlM_collect (pointRead_eccReadSet state updates (cstr b)) s kv.reads
        simp only [deref, decodePb, hd, bind, Except.bind]
        -- first the range queries, then the point reads on top of them
        rcases map_eq_map_cases hq with ⟨x, hf, hm⟩ | ⟨s, ls, hf, hm, hs⟩
        · rw [hf, hm]
          rfl
        · rw [hf, hm]
          simp only [hp s, hs, foldl_addRead]
          cases kv.reads.mapM (pointKey (cstr b)) with
          | error z => rfl
          | ok ps =>
            simp only [Except.map, pure, Except.pure, addAll]
            split_ifs
            · rw [List.foldl_append]
            · rfl

/-- The read set of the signature check, whatever the conflict check has found. -/
theorem readSet_eccReadSet (state updates : Kvs) (rws : TxReadWriteSet) :
    (readSet state updates rws).map ReadPhase.eccReadSet = (eccReads rws).map (addAll ∅) := by
  rw [readSet, eccReads, foldlM_collect (nsReads_eccReadSet state updates), map_bind_pure]
  rfl

/-- The part of the state of the write loop that the signature check uses. -/
theorem eccWrite_eccWriteSet {version : Version} {writes : List KVWrite} {acc acc' : WritePhase}
    {w : KVWrite} (h : eccWrite (str "ecc") version writes acc w = .ok acc') :
    acc'.eccWriteSet = insertAll acc.eccWriteSet (eccPair writes w).toList := by
  rw [eccWrite] at h
  obtain ⟨wkey, hk, h⟩ := bind_eq_ok h
  obtain ⟨key, hn, h⟩ := bind_eq_ok h
  obtain ⟨first, hf, h⟩ := bind_eq_ok h
  obtain ⟨val, hv, h⟩ := bind_eq_ok h
  cases h
  have hkey := deref_eq_ok (leaving_eq_ok hk)
  have hname := deref_eq_ok (leaving_eq_ok hn)
  have hfirst := deref_eq_ok (leaving_eq_ok hf)
  have hval := deref_eq_ok (leaving_eq_ok hv)
  simp [eccPair, hkey, hname, hfirst, hval, insertAll]

theorem lsccWrite_eccWriteSet {ns : Bytes} {version : Version} {acc acc' : WritePhase} {w : KVWrite}
    (h : lsccWrite ns version acc w = .ok acc') : acc'.eccWriteSet = acc.eccWriteSet := by
  rw [lsccWrite] at h
  obtain ⟨key, -, h⟩ := bind_eq_ok h
  obtain ⟨val, -, h⟩ := bind_eq_ok h
  cases h
  rfl

theorem erccWrites_eccWriteSet {state : Kvs} {ns : Bytes} {version : Version} {acc acc' : WritePhase}
    {writes : List KVWrite} (h : erccWrites state ns version acc writes = .ok acc') :
    acc'.eccWriteSet = acc.eccWriteSet := by
  rw [erccWrites] at h
  obtain ⟨w, -, h⟩ := bind_eq_ok h
  obtain ⟨key, -, h⟩ := bind_eq_ok h
  obtain ⟨mrenclave, -, h⟩ := bind_eq_ok h
  split_ifs at h with hfit
  obtain ⟨val, -, h⟩ := bind_eq_ok h
  cases h
  rfl

/-- A loop whose rounds offer pairs to the write set has offered all of them. -/
theorem foldlM_eccWriteSet {ι : Type} {f : WritePhase → ι → Leaving Kvs WritePhase}
    {g : ι → List (Bytes × Bytes)} {acc acc' : WritePhase} {is : List ι} (h : is.foldlM f acc = .ok acc')
    (hf : ∀ acc i acc', f acc i = .ok acc' → acc'.eccWriteSet = insertAll acc.eccWriteSet (g i)) :
    acc'.eccWriteSet = insertAll acc.eccWriteSet (is.flatMap g) := by
  refine foldlM_invariant (fun is t => t.eccWriteSet = insertAll acc.eccWriteSet (is.flatMap g))
    rfl ?_ h
  intro is i t t' ht hi
  rw [hf t i t' hi, ht, List.flatMap_append, insertAll_append, List.flatMap_singleton]

theorem nsWrites_eccWriteSet {state : Kvs} {version : Version} {acc acc' : WritePhase}
    {n : NsReadWriteSet} (h : nsWrites state version acc n = .ok acc') :
    acc'.eccWriteSet = insertAll acc.eccWriteSet (nsEccWritePairs n) := by
  obtain ⟨ns, kv, hdec, h⟩ := nsWrites_eq_ok h
  simp only [nsEccWritePairs, hdec, Option.elim_some]
  split_ifs at h with hl hr hc
  · rw [if_neg (hl ▸ by decide : ns ≠ str "ecc")]
    refine foldlM_invariant (fun _ t => t.eccWriteSet = acc.eccWriteSet) rfl ?_ h
    intro is i t t' ht hi
    rw [lsccWrite_eccWriteSet hi, ht]
  · rw [if_neg (hr ▸ by decide : ns ≠ str "ecc")]
    exact erccWrites_eccWriteSet h
  · rw [if_pos hc, ← flatMap_toList]
    exact foldlM_eccWriteSet h (fun _ _ _ hw => eccWrite_eccWriteSet (hc ▸ hw))
  · cases h
    rw [if_neg hc]
    rfl

/-- The write set of the signature check. -/
theorem writeSet_eccWriteSet {state : Kvs} {version : Version} {updates : Kvs} {rws : TxReadWriteSet}
    {w : WritePhase} (h : writeSet state version updates rws = .ok w) :
    w.eccWriteSet = insertAll ∅ (eccWritePairs rws) :=
  foldlM_eccWriteSet h (fun _ _ _ hn => nsWrites_eccWriteSet hn)

end SecureChaincode
