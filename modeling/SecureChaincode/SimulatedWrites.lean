import SecureChaincode.HonestRanges
import SecureChaincode.ShimRuns

/-! The writes of an invocation as Fabric records them and `ecc-vscc` rebuilds them, against
the write set that the enclave has collected and signs. -/
namespace SecureChaincode

open Std

section
variable {F : KeyRule}

/-- A key for Fabric goes back to the key of the enclave, if Fabric takes it. -/
theorem transformToSGX_goKey {key keyStr : Bytes} (hnul : (0 : UInt8) ∉ key)
    (h : goKey F key = some keyStr) (hvalid : isSGXCompositeKey key = true → keyStr ≠ []) :
    transformToSGX keyStr = key := by
  rw [goKey] at h
  split_ifs at h with hc
  · obtain ⟨comp, hcomp, rfl⟩ := isSGXCompositeKey_iff.mp hc
    have hne : comp ≠ [] := by
      rintro rfl
      have hpanic : transformToCompositeKey F (sgxKey []) = none := rfl
      rw [hpanic] at h
      cases h
    rw [transformToCompositeKey_sgxKey hne hcomp] at h
    cases h
    split_ifs with hall
    · exact transformToSGX_fabricKey (fun w hw hm => hnul (mem_delimited.mpr (Or.inr ⟨w, hw, hm⟩)))
    · exact absurd (if_neg hall) (hvalid hc)
  · cases h
    exact transformToSGX_of_no_nul hnul

/-- The plugin lists the keys and values of a map, if Fabric has recorded each of its entries
once. -/
theorem writeset_eq_pairWords {kv : Peer.KVRWSet} {s : WriteSet} (hnodup : (writeKeys kv).Nodup)
    (h : ∀ k v, (∃ w ∈ kv.writes, transformToSGX w.key = k ∧ w.value = v) ↔ s[k]? = some v) :
    writeset kv = pairWords s.toList := by
  have hmap : writesetMap kv = s := by
    have hwrites : writesetMap kv =
        (kv.writes.map (fun w => (transformToSGX w.key, w.value))).foldl (fun m p => m.insert p.1 p.2) ∅ := by
      rw [writesetMap, List.foldl_map]
    apply ExtTreeMap.ext_getElem?
    intro k
    rw [hwrites, getElem?_foldl_insert, ExtTreeMap.getElem?_empty, Option.or_none]
    apply lookup_of_mem_iff
    intro k v
    rw [List.mem_reverse, List.mem_map, ← h]
    constructor
    · rintro ⟨w, hw, hp⟩
      exact ⟨w, hw, Prod.mk.inj hp⟩
    · rintro ⟨w, hw, rfl, rfl⟩
      exact ⟨w, hw, rfl⟩
  have hkeys : sortStrings (writeKeys kv) = s.toList.map Prod.fst := by
    have hsorted : (s.toList.map Prod.fst).Pairwise (fun a b => compare a b = .lt) := by
      rw [List.pairwise_map]
      exact ExtTreeMap.ordered_keys_toList
    apply (mergeSort_eq_iff_nodup hsorted ?_).mpr hnodup
    intro k
    rw [writeKeys, List.mem_map, List.mem_map]
    constructor
    · rintro ⟨w, hw, rfl⟩
      have hs := (h (transformToSGX w.key) w.value).mp ⟨w, hw, rfl, rfl⟩
      exact ⟨_, ExtTreeMap.mem_toList_iff_getElem?_eq_some.mpr hs, rfl⟩
    · rintro ⟨⟨k, v⟩, hp, rfl⟩
      obtain ⟨w, hw, hk, -⟩ := (h k v).mpr (ExtTreeMap.mem_toList_iff_getElem?_eq_some.mp hp)
      exact ⟨w, hw, hk⟩
  rw [writeset, hmap, hkeys, List.flatMap_map, pairWords]
  apply List.flatMap_congr
  rintro ⟨k, v⟩ hp
  rw [ExtTreeMap.mem_toList_iff_getElem?_eq_some] at hp
  rw [hp]
  rfl

variable {τ : Type} (worldState : Kvs)

/-- The values that an invocation has put last. -/
def lastPuts (trace : List (Event τ)) : WriteSet :=
  (trace.flatMap Event.writes).foldl (fun m p => m.insert p.1 p.2) ∅

theorem getElem?_lastPuts (trace : List (Event τ)) (k : Bytes) :
    (lastPuts trace)[k]? = (trace.flatMap Event.writes).reverse.lookup k := by
  rw [lastPuts, getElem?_foldl_insert, ExtTreeMap.getElem?_empty, Option.or_none]

/-- Fabric knows the key of every put, and gives it back. -/
def PutsRecorded (F : KeyRule) (trace : List (Event τ)) : Prop :=
  ∀ p ∈ trace.flatMap Event.writes, ∃ keyStr, goKey F p.1 = some keyStr ∧ transformToSGX keyStr = p.1

/-- The writes that Fabric records are the puts under Fabric's keys. -/
theorem simulatedWrites_eq {trace : List (Event τ)} (h : PutsRecorded F trace) :
    simulatedWrites F trace = ((trace.flatMap Event.writes).map (fun p => ((goKey F p.1).getD [], p.2))).foldl
      (fun m p => m.insert p.1 p.2) ∅ := by
  rw [simulatedWrites]
  generalize (∅ : WriteSet) = m
  induction trace generalizing m with
  | nil => rfl
  | cons e trace ih =>
    rw [List.flatMap_cons, List.map_append, List.foldl_append, List.foldl_cons]
    have htail : PutsRecorded F trace := by
      intro p hp
      apply h p
      rw [List.flatMap_cons]
      exact List.mem_append_right _ hp
    rw [← ih htail]
    cases e with
    | getState key maxValLen reply => rfl
    | putState key val =>
      obtain ⟨keyStr, hkey, -⟩ := h (key, val) (by simp [Event.writes])
      simp only [Event.writes, List.map_cons, List.map_nil, List.foldl_cons, List.foldl_nil, hkey,
        Option.elim_some, Option.getD_some]
    | getStateByPartialCompositeKey compKey values reply => rfl

section
variable {trace : List (Event τ)} (h : PutsRecorded F trace)
include h

theorem transformToSGX_put {p : Bytes × Bytes} (hp : p ∈ trace.flatMap Event.writes) :
    transformToSGX ((goKey F p.1).getD []) = p.1 := by
  obtain ⟨keyStr, hkey, hsgx⟩ := h p hp
  rw [hkey]
  exact hsgx

/-- What Fabric has recorded under a key, by the last put of the key in the enclave. -/
theorem getElem?_simulatedWrites (f : Bytes) : (simulatedWrites F trace)[f]? =
    ((trace.flatMap Event.writes).reverse.map (fun p => ((goKey F p.1).getD [], p.2))).lookup f := by
  rw [simulatedWrites_eq h, getElem?_foldl_insert, ExtTreeMap.getElem?_empty, Option.or_none,
    List.map_reverse]

/-- The keys that Fabric has recorded are those of the puts. -/
theorem exists_put_of_simulatedWrites {f v : Bytes} (hf : (simulatedWrites F trace)[f]? = some v) :
    ∃ p ∈ trace.flatMap Event.writes, (goKey F p.1).getD [] = f ∧ p.2 = v := by
  rw [getElem?_simulatedWrites h] at hf
  obtain ⟨p, hp, he⟩ := List.mem_map.mp (mem_of_lookup_eq_some hf)
  exact ⟨p, List.mem_reverse.mp hp, Prod.mk.inj he⟩

theorem goKey_transformToSGX {f v : Bytes} (hf : (simulatedWrites F trace)[f]? = some v) :
    (goKey F (transformToSGX f)).getD [] = f := by
  obtain ⟨p, hp, rfl, -⟩ := exists_put_of_simulatedWrites h hf
  rw [transformToSGX_put h hp]

theorem simulatedWrites_eq_lastPuts {f : Bytes} (hf : (goKey F (transformToSGX f)).getD [] = f) :
    (simulatedWrites F trace)[f]? = (lastPuts trace)[transformToSGX f]? := by
  rw [getElem?_simulatedWrites h, getElem?_lastPuts]
  exact lookup_map_key (g := fun k => (goKey F k).getD [])
    (fun p hp => transformToSGX_put h (List.mem_reverse.mp hp)) hf

/-- In the form of the enclave, Fabric has the values that were put last. -/
theorem mem_simulate_writes (k v : Bytes) :
    (∃ w ∈ (simulate F worldState trace).writes, transformToSGX w.key = k ∧ w.value = v) ↔
      (lastPuts trace)[k]? = some v := by
  simp only [simulate, List.mem_map]
  constructor
  · rintro ⟨w, ⟨p, hp, rfl⟩, rfl, rfl⟩
    rw [ExtTreeMap.mem_toList_iff_getElem?_eq_some] at hp
    rw [← simulatedWrites_eq_lastPuts h (goKey_transformToSGX h hp)]
    exact hp
  · intro hv
    have hput : (k, v) ∈ trace.flatMap Event.writes := by
      rw [getElem?_lastPuts] at hv
      exact List.mem_reverse.mp (mem_of_lookup_eq_some hv)
    have hk : transformToSGX ((goKey F k).getD []) = k := transformToSGX_put h hput
    refine ⟨⟨(goKey F k).getD [], v⟩, ⟨((goKey F k).getD [], v), ?_, rfl⟩, hk, rfl⟩
    rw [ExtTreeMap.mem_toList_iff_getElem?_eq_some,
      simulatedWrites_eq_lastPuts h (congrArg (fun k => (goKey F k).getD []) hk), hk]
    exact hv

theorem nodup_writeKeys_simulate : (writeKeys (simulate F worldState trace)).Nodup := by
  rw [writeKeys, simulate, List.map_map, List.Nodup, List.pairwise_map]
  apply ExtTreeMap.ordered_keys_toList.imp_of_mem
  intro a b ha hb hab he
  rw [ExtTreeMap.mem_toList_iff_getElem?_eq_some] at ha hb
  have hsame : a.1 = b.1 := by
    rw [← goKey_transformToSGX h ha, ← goKey_transformToSGX h hb]
    exact congrArg (fun k => (goKey F k).getD []) he
  exact ne_of_cmp_lt hab hsame

/-- The plugin rebuilds the values that were put last. -/
theorem writeset_simulate :
    writeset (simulate F worldState trace) = pairWords (lastPuts trace).toList :=
  writeset_eq_pairWords (nodup_writeKeys_simulate worldState h) (mem_simulate_writes worldState h)

end

/-- The enclave has the values that were put first; they are the last ones when both are the same. -/
theorem Traced.lastPuts_eq_iff {η σ : Type} {E : Enclave η τ σ} {host : Host τ} {s : Session τ}
    (hs : Traced E host s) : lastPuts s.trace = s.writeSet ↔
      ∀ k, (s.trace.flatMap Event.writes).lookup k = (s.trace.flatMap Event.writes).reverse.lookup k := by
  have hfirst (k : Bytes) : s.writeSet[k]? = (s.trace.flatMap Event.writes).lookup k := by
    rw [hs.writeSet, getElem?_insertAll, ExtTreeMap.getElem?_empty, Option.none_or]
  constructor
  · intro he k
    rw [← hfirst, ← getElem?_lastPuts, he]
  · intro he
    apply ExtTreeMap.ext_getElem?
    intro k
    rw [hfirst, getElem?_lastPuts, he]

/-- An honest peer answers a put only when Fabric takes the key. -/
theorem Traced.putsRecorded {η σ : Type} {E : Enclave η τ σ} {verifyTag : Bytes → Bool → τ}
    {s : Session τ} (hs : Traced E (goHost F worldState verifyTag) s) : PutsRecorded F s.trace := by
  intro p hp
  obtain ⟨e, he, hp⟩ := List.mem_flatMap.mp hp
  cases e with
  | getState key maxValLen reply => exact absurd hp List.not_mem_nil
  | getStateByPartialCompositeKey compKey values reply => exact absurd hp List.not_mem_nil
  | putState key val =>
    obtain rfl := List.mem_singleton.mp hp
    obtain ⟨pre, post, hsplit⟩ := List.append_of_mem he
    obtain ⟨keyStr, hkey, hne⟩ := (Option.any_eq_true _ _).mp (hs.answered pre _ post hsplit)
    exact ⟨keyStr, hkey, transformToSGX_goKey (hs.key _ he) hkey (fun _ => bne_iff_ne.mp hne)⟩

end

section
variable {η τ σ : Type} (E : Enclave η τ σ) (F : KeyRule) (worldState : Kvs)
variable (verifyTag : Bytes → Bool → τ)

/-- The writes that the enclave signs are those that the plugin rebuilds from what Fabric has
recorded exactly when the first value that was put for a key is also the last: the enclave
keeps the first, Fabric the last. -/
theorem signed_writes_simulated_iff (invoke : ChaincodeEntry) (args pk : Bytes) (responseLenIn : ℕ)
    (result : Option Bytes) (s : Session τ)
    (h : invokeRun E invoke (goHost F worldState verifyTag) args pk responseLenIn = (some result, s)) :
    pairWords s.writeSet.toList = writeset (simulate F worldState s.trace) ↔
      ∀ k, (s.trace.flatMap Event.writes).lookup k = (s.trace.flatMap Event.writes).reverse.lookup k := by
  have hs := run_traced E (goHost F worldState verifyTag) h
  rw [writeset_simulate worldState hs.putsRecorded, ← hs.lastPuts_eq_iff]
  constructor
  · intro he
    apply ExtTreeMap.ext_getElem?
    intro k
    rw [← lookup_toList, ← lookup_toList, pairWords_inj he]
  · intro he
    rw [he]

end

/-- A chaincode that puts two values. -/
def putTwo (key key' : Bytes) : ChaincodeEntry := fun _ _ => do
  putState key (str "1")
  putState key' (str "2")
  return some []

/-- A peer with nothing in its world state. -/
def emptyPeer : Host Bool := goHost nulFree ∅ (fun _ _ => true)

/-- The run of a chaincode that puts two values. -/
def twoPuts (key key' : Bytes) : List (Event Bool) :=
  [.putState key (base64Encode (encryptState frankEnclave 0 (str "1"))),
    .putState key' (base64Encode (encryptState frankEnclave 1 (str "2")))]

theorem toList_single {m : WriteSet} {key val : Bytes}
    (h : ∀ k : Bytes, m[k]? = if k = key then some val else none) : m.toList = [(key, val)] := by
  apply toList_eq_of_sorted (List.pairwise_singleton _ _)
  intro k v
  rw [h, List.mem_singleton, Prod.mk.injEq]
  split_ifs with hk
  · simp [hk, eq_comm]
  · simp [hk]

theorem lookup_same_key (key val val' k : Bytes) :
    [(key, val), (key, val')].lookup k = if k = key then some val else none := by
  rw [List.lookup_cons, List.lookup_cons]
  by_cases hk : k = key
  · rw [if_pos hk, beq_iff_eq.mpr hk]
  · rw [if_neg hk, beq_eq_false_iff_ne.mpr hk]
    rfl

/-- Two values under two keys are rebuilt as they were signed. -/
theorem two_keys_rebuilt :
    ∃ s, invokeRun frankEnclave (putTwo (str "x") (str ".a.b.")) emptyPeer [] [] 96 = (some (some []), s) ∧
      s.trace = twoPuts (str "x") (str ".a.b.") ∧
      pairWords s.writeSet.toList = writeset (simulate nulFree ∅ s.trace) := by
  refine ⟨_, rfl, rfl, ?_⟩
  refine (signed_writes_simulated_iff frankEnclave nulFree ∅ (fun _ _ => true)
    (putTwo (str "x") (str ".a.b.")) [] [] 96 (some []) _ rfl).mpr ?_
  intro k
  have hputs : (twoPuts (str "x") (str ".a.b.")).flatMap Event.writes =
      [(str "x", base64Encode (encryptState frankEnclave 0 (str "1"))),
        (str ".a.b.", base64Encode (encryptState frankEnclave 1 (str "2")))] := rfl
  change ((twoPuts (str "x") (str ".a.b.")).flatMap Event.writes).lookup k =
    ((twoPuts (str "x") (str ".a.b.")).flatMap Event.writes).reverse.lookup k
  rw [hputs, List.reverse_cons, List.reverse_singleton, List.singleton_append, List.lookup_cons,
    List.lookup_cons, List.lookup_cons, List.lookup_cons]
  -- no key is both
  by_cases hk : k = str "x"
  · rw [hk]
    rfl
  · rw [beq_eq_false_iff_ne.mpr hk]

/-- Of two values under one key the enclave signs the first and Fabric records the second. -/
theorem double_put_differs :
    ∃ s, invokeRun frankEnclave (putTwo (str "x") (str "x")) emptyPeer [] [] 96 = (some (some []), s) ∧
      s.trace = twoPuts (str "x") (str "x") ∧
      pairWords s.writeSet.toList ≠ writeset (simulate nulFree ∅ s.trace) ∧
      pairBytes s.writeSet ≠ (writeset (simulate nulFree ∅ s.trace)).flatten := by
  have hrun : ∃ s, invokeRun frankEnclave (putTwo (str "x") (str "x")) emptyPeer [] [] 96 =
      (some (some []), s) ∧ s.trace = twoPuts (str "x") (str "x") := ⟨_, rfl, rfl⟩
  obtain ⟨s, hrun, htrace⟩ := hrun
  have hs := run_traced frankEnclave emptyPeer hrun
  have hputs : s.trace.flatMap Event.writes =
      [(str "x", base64Encode (encryptState frankEnclave 0 (str "1"))),
        (str "x", base64Encode (encryptState frankEnclave 1 (str "2")))] := by
    rw [htrace]
    rfl
  have hsigned : s.writeSet.toList = [(str "x", base64Encode (encryptState frankEnclave 0 (str "1")))] := by
    apply toList_single
    intro k
    rw [hs.writeSet, hputs, getElem?_insertAll, ExtTreeMap.getElem?_empty, Option.none_or, lookup_same_key]
  have hrebuilt : writeset (simulate nulFree ∅ s.trace) =
      [str "x", base64Encode (encryptState frankEnclave 1 (str "2"))] := by
    have hlast : (lastPuts s.trace).toList = [(str "x", base64Encode (encryptState frankEnclave 1 (str "2")))] := by
      apply toList_single
      intro k
      rw [getElem?_lastPuts, hputs, List.reverse_cons, List.reverse_singleton, List.singleton_append,
        lookup_same_key]
    rw [writeset_simulate ∅ hs.putsRecorded, hlast]
    rfl
  refine ⟨s, hrun, htrace, ?_, ?_⟩
  · rw [hsigned, hrebuilt]
    decide +kernel
  · rw [pairBytes, hsigned, hrebuilt]
    decide +kernel

end SecureChaincode
