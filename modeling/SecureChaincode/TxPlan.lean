import SecureChaincode.FoldExcept
import SecureChaincode.EndorserTransaction

/-! A transaction as the ledger's optimistic scheme sees it: each action names the keys
it has read, with versions, and the writes it offers to the update map. -/
namespace SecureChaincode

open Std

/-- The keys, with versions, that one recorded read gives. -/
def rangeKey (ns : Bytes) (r : KVRead) : Parse (List (Bytes × Version)) := do
  let key ← deref (compositeName ns (← deref r.key))
  return [(key, r.version)]

def pointKey (ns : Bytes) (r : KVRead) : Parse (List (Bytes × Version)) := do
  return [(simpleName ns (← deref r.key), r.version)]

def queryKeys (ns : Bytes) (q : RangeQueryInfo) : Parse (List (Bytes × Version)) := do
  return (← (← rawReads q.readsInfo).mapM (rangeKey ns)).flatten

/-- The reads of one namespace, range queries first. -/
def nsReadList (n : NsReadWriteSet) : Parse (List (Bytes × Version)) := do
  let kvrwset ← decodePb (← deref n.rwset)
  let ns := cstr (← deref n.ns)
  let ranges ← kvrwset.rangeQueriesInfo.mapM (queryKeys ns)
  let points ← kvrwset.reads.mapM (pointKey ns)
  return ranges.flatten ++ points.flatten

def readList (rws : TxReadWriteSet) : Parse (List (Bytes × Version)) := do
  return (← rws.nsRwset.mapM nsReadList).flatten

/-- Neither map has a newer entry for the key than the version read. -/
def fresh (state updates : Kvs) (r : Bytes × Version) : Bool :=
  !(hasVersionConflict r.1 state r.2 || hasVersionConflict r.1 updates r.2)

/-- A write that is filed under its own key and value. -/
def simpleWrite (ns : Bytes) (w : KVWrite) : Option (Bytes × Bytes) := do
  return (simpleName ns (← w.key), ← w.value)

/-- A write of the `ecc` loop: its own key, the value of the first write. -/
def eccFirstWrite (ns : Bytes) (writes : List KVWrite) (w : KVWrite) : Option (Bytes × Bytes) := do
  let key ← eccName ns (← w.key)
  return (key, ← (← writes.head?).value)

/-- The pairs that the write loop offers to the update map for one namespace. -/
def writeList (ns : Bytes) (writes : List KVWrite) : List (Bytes × Bytes) :=
  if ns = str "lscc" then writes.filterMap (simpleWrite ns)
  else if ns = str "ercc" then writes.head?.toList.filterMap (simpleWrite ns)
  else if ns = str "ecc" then writes.filterMap (eccFirstWrite ns writes)
  else []

/-- The registry's rule of a single write. -/
def singleWrite (ns : Bytes) (writes : List KVWrite) : Bool :=
  ns != str "ercc" || writes.length == 1

/-- The namespaces of a read/write set that decode, with their content. -/
def decodedNs (n : NsReadWriteSet) : Option (Bytes × KVRWSet) := do
  return (cstr (← n.ns), ← (← n.rwset).decoded)

def nsWriteList (n : NsReadWriteSet) : List (Bytes × Bytes) :=
  (decodedNs n).elim [] (fun d => writeList d.1 d.2.writes)

def nsSingleWrite (n : NsReadWriteSet) : Bool :=
  (decodedNs n).elim true (fun d => singleWrite d.1 d.2.writes)

/-- Every write of the `ecc` loop has a key that can be named and a value to be stored. -/
def NsComplete (n : NsReadWriteSet) : Prop :=
  ∀ d, decodedNs n = some d → d.1 = str "ecc" →
    ∀ w ∈ d.2.writes, (eccFirstWrite d.1 d.2.writes w).isSome

/-- The read/write set of an action that has one. -/
def actionRwset (a : TransactionAction) : Parse (Option TxReadWriteSet) := do
  let (_, ccAction) ← unwrapAction a
  match ccAction.results with
  | none => return none
  | some results => return some (← decodePb results)

def actionReads (a : TransactionAction) : Parse (List (Bytes × Version)) := do
  match ← actionRwset a with
  | none => return []
  | some rws => readList rws

/-- The namespaces of an action, as far as its read/write set decodes. -/
def actionNs (a : TransactionAction) : List NsReadWriteSet :=
  match actionRwset a with
  | .ok (some rws) => rws.nsRwset
  | _ => []

def actionWrites (a : TransactionAction) : List (Bytes × Bytes) := (actionNs a).flatMap nsWriteList

def actionSingleWrite (a : TransactionAction) : Bool := (actionNs a).all nsSingleWrite

/-- Entries under one version. -/
def stamp (version : Version) (l : List (Bytes × Bytes)) : List (Bytes × KvsValue) :=
  l.map (fun p => (p.1, p.2, version))

/-- What a transaction comes to: the writes it offers to the update map, and whether all
of its actions decode, have fresh reads and obey the registry's rule. -/
structure Outcome where
  writes : List (Bytes × Bytes)
  accepted : Bool

/-- The actions in order, each judged against the writes offered before it. An action
with a conflict is passed over; one that does not decode ends the transaction. -/
def planTx (state : Kvs) (version : Version) : Kvs → List TransactionAction → Outcome
  | _, [] => ⟨[], true⟩
  | updates, a :: as =>
    match actionReads a with
    | .error _ => ⟨[], false⟩
    | .ok reads =>
      if reads.all (fresh state updates) then
        let rest := planTx state version (insertAll updates (stamp version (actionWrites a))) as
        ⟨actionWrites a ++ rest.writes, actionSingleWrite a && rest.accepted⟩
      else ⟨(planTx state version updates as).writes, false⟩

theorem stamp_append (version : Version) (l l' : List (Bytes × Bytes)) :
    stamp version (l ++ l') = stamp version l ++ stamp version l' :=
  List.map_append

/-! The read phase gives its verdict on exactly the reads of the plan. -/

theorem rangeRead_validTx (state updates : Kvs) (ns : Bytes) (acc : ReadPhase) (r : KVRead) :
    (rangeRead state updates ns acc r).map ReadPhase.validTx =
      (rangeKey ns r).map (fun l => acc.validTx && l.all (fresh state updates)) := by
  rw [rangeRead, rangeKey]
  cases hk : r.key with
  | none => rfl
  | some k =>
    cases hc : compositeName ns k with
    | none => simp [deref, hc, bind, Except.bind, Except.map]
    | some key => simp [deref, hc, bind, Except.bind, Except.map, pure, Except.pure, checkRead, fresh]

theorem pointRead_validTx (state updates : Kvs) (ns : Bytes) (acc : ReadPhase) (r : KVRead) :
    (pointRead state updates ns acc r).map ReadPhase.validTx =
      (pointKey ns r).map (fun l => acc.validTx && l.all (fresh state updates)) := by
  rw [pointRead, pointKey]
  cases hk : r.key with
  | none => rfl
  | some k => simp [deref, bind, Except.bind, Except.map, pure, Except.pure, checkRead, fresh]

theorem map_bind_pure {ε α β γ : Type} (p : Except ε α) (f : α → β) (g : β → γ) :
    (p >>= fun a => pure (f a)).map g = p.map (fun a => g (f a)) := by
  cases p <;> rfl

theorem rangeQuery_validTx (state updates : Kvs) (ns : Bytes) (acc : ReadPhase)
    (q : RangeQueryInfo) :
    (rangeQuery state updates ns acc q).map ReadPhase.validTx =
      (queryKeys ns q).map (fun l => acc.validTx && l.all (fresh state updates)) := by
  rw [rangeQuery, queryKeys]
  cases hr : rawReads q.readsInfo with
  | error e => rfl
  | ok reads =>
    change (reads.foldlM (rangeRead state updates ns) acc).map ReadPhase.validTx =
      ((reads.mapM (rangeKey ns)) >>= fun ls => pure ls.flatten).map _
    rw [foldlM_verdict (rangeRead_validTx state updates ns), map_bind_pure]

theorem nsReads_validTx (state updates : Kvs) (acc : ReadPhase) (n : NsReadWriteSet) :
    (nsReads state updates acc n).map ReadPhase.validTx =
      (nsReadList n).map (fun l => acc.validTx && l.all (fresh state updates)) := by
  rw [nsReads, nsReadList]
  cases hw : n.rwset with
  | none => rfl
  | some e =>
    cases hd : e.decoded with
    | none => simp [deref, decodePb, hd, bind, Except.bind, Except.map]
    | some kv =>
      cases hn : n.ns with
      | none => simp [deref, decodePb, hd, bind, Except.bind, Except.map]
      | some b =>
        have hq := foldlM_verdict (rangeQuery_validTx state updates (cstr b)) acc kv.rangeQueriesInfo
        have hp (s : ReadPhase) := foldlM_verdict (pointRead_validTx state updates (cstr b)) s kv.reads
        simp only [deref, decodePb, hd, bind, Except.bind]
        rcases map_eq_map_cases hq with ⟨x, hf, hm⟩ | ⟨s, ls, hf, hm, hs⟩
        · rw [hf, hm]
          rfl
        · rw [hf, hm]
          simp only [hp s, hs]
          cases kv.reads.mapM (pointKey (cstr b)) with
          | error z => rfl
          | ok ps => simp [Except.map, pure, Except.pure, Bool.and_assoc]

theorem readSet_validTx (state updates : Kvs) (rws : TxReadWriteSet) :
    (readSet state updates rws).map ReadPhase.validTx =
      (readList rws).map (fun l => l.all (fresh state updates)) := by
  rw [readSet, readList, foldlM_verdict (nsReads_validTx state updates), map_bind_pure]
  simp only [Bool.true_and]

end SecureChaincode
