import SecureChaincode.LedgerStore
import SecureChaincode.PrefixScan

/-! `ledger_get_state_hash` and `ledger_get_multi_state_hash`. Both take the lock for all of
their work. The hash function is a parameter. -/
namespace SecureChaincode

open Std

/-- The part of the key from its first dot on, or the key if it has no dot. -/
def fromDot (key : Bytes) : Bytes :=
  match key.dropWhile (· != 0x2e) with
  | [] => key
  | rest => rest

/-- The part of the key behind its first dot, or the key if it has no dot. -/
def pastDot (key : Bytes) : Bytes :=
  match key.dropWhile (· != 0x2e) with
  | [] => key
  | _ :: rest => rest

/-- The hash of the stored value; `none` is `LEDGER_NOT_FOUND`, with the buffer untouched. -/
def ledgerGetStateHash {η : Type} (sha256 : Bytes → η) (state : Kvs) (key : Bytes) : Option η :=
  state[cstr key]?.map (fun x => sha256 x.1)

/-- The entries from `lower_bound` to the first key without the prefix. -/
def multiState (state : Kvs) (k : Bytes) : List (Bytes × KvsValue) :=
  (state.toList.dropWhile (fun e => compare e.1 k == .lt)).takeWhile (fun e => k.isPrefixOf e.1)

/-- One hash over the keys, each from its first dot on, and the values. -/
def ledgerGetMultiStateHash {η : Type} (sha256 : Bytes → η) (state : Kvs) (compKey : Bytes) : η :=
  sha256 ((multiState state (cstr compKey)).flatMap (fun e => fromDot e.1 ++ e.2.1))

/-- The scan finds the entries with the prefix, and only these. -/
theorem multiState_eq_filter (state : Kvs) (k : Bytes) :
    multiState state k = state.toList.filter (fun e => k.isPrefixOf e.1) := by
  rw [multiState]
  exact scan_eq_filter ExtTreeMap.ordered_keys_toList

/-- `key.compare(0, k.size(), k)`: only as much of the key as `k` is long. -/
def compareFront (key k : Bytes) : Ordering := compare (key.take k.length) k

/-- The loop of `ledger_get_multi_state_hash` over the entries from its iterator on: the keys it
visits, and what it has handed to the hash when it is left. -/
def scanLoop (k : Bytes) : List (Bytes × KvsValue) → Bytes → List Bytes × Bytes
  | [], stream => ([], stream)
  | e :: rest, stream =>
    if compareFront e.1 k != .eq then ([], stream)
    else
      let (visited, out) := scanLoop k rest (stream ++ fromDot e.1 ++ e.2.1)
      (e.1 :: visited, out)

theorem compareFront_eq_iff (key k : Bytes) : compareFront key k = .eq ↔ k <+: key := by
  rw [compareFront, LawfulEqCmp.compare_eq_iff_eq, List.prefix_iff_eq_take, eq_comm]

/-- The loop goes through the entries up to the first one without the prefix. -/
theorem scanLoop_eq (k : Bytes) (entries : List (Bytes × KvsValue)) (stream : Bytes) :
    scanLoop k entries stream =
      ((entries.takeWhile (fun e => k.isPrefixOf e.1)).map Prod.fst,
        stream ++ (entries.takeWhile (fun e => k.isPrefixOf e.1)).flatMap (fun e => fromDot e.1 ++ e.2.1)) := by
  induction entries generalizing stream with
  | nil => simp [scanLoop]
  | cons e rest ih =>
    rw [scanLoop, List.takeWhile_cons]
    by_cases he : k <+: e.1
    · have hgo : ¬(compareFront e.1 k != .eq) = true := by simp [(compareFront_eq_iff _ _).mpr he]
      rw [if_neg hgo, if_pos (List.isPrefixOf_iff_prefix.mpr he), ih]
      simp
    · have hstop : (compareFront e.1 k != .eq) = true := by
        simpa using fun h => he ((compareFront_eq_iff _ _).mp h)
      rw [if_pos hstop, if_neg (fun h => he (List.isPrefixOf_iff_prefix.mp h))]
      simp

/-- The loop from `lower_bound` on visits the keys of the state that start with the prefix, all of
them, each of them once and in their order, and so the hash is over the entries of the state with
these keys. -/
theorem prefix_scan_complete {η : Type} (sha256 : Bytes → η) (state : Kvs) (compKey : Bytes) :
    let k := cstr compKey
    let scan := scanLoop k (state.toList.dropWhile (fun e => compare e.1 k == .lt)) []
    let matching := state.filter (fun key _ => k.isPrefixOf key)
    scan.1 = matching.keys ∧ (∀ key, key ∈ scan.1 ↔ key ∈ state ∧ k <+: key) ∧
      scan.1.Pairwise (fun a b => compare a b = .lt) ∧ scan.1.Nodup ∧
      scan.2 = matching.toList.flatMap (fun e => fromDot e.1 ++ e.2.1) ∧
      ledgerGetMultiStateHash sha256 state compKey = sha256 scan.2 := by
  intro k scan matching
  have hvisited : multiState state k = matching.toList := by
    rw [multiState_eq_filter, ExtTreeMap.toList_filter]
  have hscan : scan = (matching.keys, matching.toList.flatMap (fun e => fromDot e.1 ++ e.2.1)) := by
    rw [← ExtTreeMap.map_fst_toList_eq_keys, ← hvisited]
    exact scanLoop_eq k _ []
  rw [hscan]
  refine ⟨rfl, fun key => ?_, ExtTreeMap.ordered_keys, ExtTreeMap.nodup_keys, rfl, ?_⟩
  · rw [ExtTreeMap.mem_keys, ExtTreeMap.mem_filter]
    constructor
    · rintro ⟨hmem, hprefix⟩
      rw [ExtTreeMap.getKey_eq] at hprefix
      exact ⟨hmem, List.isPrefixOf_iff_prefix.mp hprefix⟩
    · rintro ⟨hmem, hprefix⟩
      refine ⟨hmem, ?_⟩
      rw [ExtTreeMap.getKey_eq]
      exact List.isPrefixOf_iff_prefix.mpr hprefix
  · rw [ledgerGetMultiStateHash, hvisited]

/-- What a range query on the prefix returns to the peer: keys and versions. -/
def prefixQuery (state : Kvs) (k : Bytes) : List (Bytes × Version) :=
  (multiState state k).map (fun e => (e.1, e.2.2))

/-- The answer of a range query, as a map. -/
def prefixVersions (state : Kvs) (k : Bytes) : ExtTreeMap Bytes Version compare :=
  state.filterMap (fun key x => if k.isPrefixOf key then some x.2 else none)

theorem prefixQuery_eq_toList (state : Kvs) (k : Bytes) :
    prefixQuery state k = (prefixVersions state k).toList := by
  rw [prefixQuery, multiState_eq_filter, prefixVersions, ExtTreeMap.toList_filterMap]
  induction state.toList with
  | nil => rfl
  | cons e l ih =>
    rw [List.filter_cons, List.filterMap_cons]
    by_cases he : k.isPrefixOf e.1 = true
    · rw [if_pos he, if_pos he, List.map_cons, ih]
      rfl
    · rw [if_neg he, if_neg he, ih]
      rfl

theorem getElem?_prefixVersions (state : Kvs) (p k : Bytes) :
    (prefixVersions state p)[k]? = if p <+: k then versionOf state k else none := by
  rw [prefixVersions, ExtTreeMap.getElem?_filterMap', versionOf]
  by_cases hp : p <+: k
  · have hb : p.isPrefixOf k = true := List.isPrefixOf_iff_prefix.mpr hp
    cases state[k]? <;> simp [hb, hp]
  · have hb : ¬p.isPrefixOf k = true := fun h => hp (List.isPrefixOf_iff_prefix.mp h)
    cases state[k]? <;> simp [hb, hp]

theorem mem_prefixQuery {state : Kvs} {p k : Bytes} {v : Version} :
    (k, v) ∈ prefixQuery state p ↔ p <+: k ∧ versionOf state k = some v := by
  rw [prefixQuery_eq_toList, ExtTreeMap.mem_toList_iff_getElem?_eq_some, getElem?_prefixVersions]
  by_cases hp : p <+: k
  · simp [hp]
  · simp [hp]

/-- Two states answer a range query alike when they agree on every key in its range. -/
theorem prefixQuery_eq_iff (s s' : Kvs) (p : Bytes) :
    prefixQuery s p = prefixQuery s' p ↔ ∀ k, p <+: k → versionOf s k = versionOf s' k := by
  rw [prefixQuery_eq_toList, prefixQuery_eq_toList, ExtTreeMap.toList_inj]
  constructor
  · intro h k hp
    have hk := congrArg (fun m => m[k]?) h
    simpa only [getElem?_prefixVersions, if_pos hp] using hk
  · intro h
    apply ExtTreeMap.ext_getElem?
    intro k
    rw [getElem?_prefixVersions, getElem?_prefixVersions]
    by_cases hp : p <+: k
    · rw [if_pos hp, if_pos hp, h k hp]
    · rw [if_neg hp, if_neg hp]

end SecureChaincode
