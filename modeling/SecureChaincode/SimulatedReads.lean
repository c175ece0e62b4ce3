import SecureChaincode.RangeNames
import SecureChaincode.SimulatedWrites

/-! The reads of an invocation as Fabric records them and `ecc-vscc` rebuilds them, against
the read set that the enclave has collected and signs. -/
namespace SecureChaincode

open Std

section
variable {τ : Type} (F : KeyRule) (worldState : Kvs)

/-- The keys that Fabric records for an ocall, in the form of the enclave. -/
def Event.recorded : Event τ → List Bytes
  | .getState key _ _ => (goKey F key).toList.map transformToSGX
  | .putState _ _ => []
  | .getStateByPartialCompositeKey compKey _ _ =>
    ((goRange F worldState compKey).getD []).map (fun item => transformToSGX item.1)

/-- The keys of an invocation that Fabric has recorded: each point read once, and all that
the range queries have found. -/
def recordedReads (trace : List (Event τ)) : List Bytes :=
  ((simulatedReads F trace).toList ++ (simulatedRanges F worldState trace).flatten).map transformToSGX

theorem readKeys_simulate (trace : List (Event τ)) :
    readKeys (simulate F worldState trace) = .ok (recordedReads F worldState trace) := by
  have hranges : ((simulatedRanges F worldState trace).map
      (fun keys => Peer.RangeQueryInfo.mk (some (keys.map Peer.KVRead.mk)))).mapM
        (fun rqi => orPanic rqi.rawReads) =
          (.ok ((simulatedRanges F worldState trace).map (List.map Peer.KVRead.mk)) : Go _) :=
    mapM_map_eq_ok (fun keys _ => rfl)
  have hkeys : ((simulatedReads F trace).toList.map Peer.KVRead.mk ++
      ((simulatedRanges F worldState trace).map (List.map Peer.KVRead.mk)).flatten).map
        (fun r => transformToSGX r.key) = recordedReads F worldState trace := by
    rw [← List.map_flatten, ← List.map_append, List.map_map]
    rfl
  rw [readKeys, simulate, hranges]
  exact congrArg Except.ok hkeys

theorem readset_simulate (trace : List (Event τ)) :
    readset (simulate F worldState trace) = .ok (sortStrings (recordedReads F worldState trace)) := by
  rw [readset, readKeys_simulate]
  rfl

/-- The key that Fabric records for a point read. -/
def Event.pointRead : Event τ → List Bytes
  | .getState key _ _ => (goKey F key).toList
  | _ => []

theorem simulatedReads_eq (trace : List (Event τ)) :
    simulatedReads F trace = (trace.flatMap (Event.pointRead F)).foldl (fun r k => r.insert k) ∅ := by
  rw [simulatedReads]
  generalize (∅ : ReadSet) = reads
  induction trace generalizing reads with
  | nil => rfl
  | cons e trace ih =>
    rw [List.flatMap_cons, List.foldl_append, List.foldl_cons, ← ih]
    cases e with
    | getState key maxValLen reply =>
      dsimp only [Event.pointRead]
      cases goKey F key <;> rfl
    | putState key val => rfl
    | getStateByPartialCompositeKey compKey values reply => rfl

/-- The results of a range query behind a point read. -/
theorem simulatedRanges_pair (key compKey : Bytes) (maxValLen : UInt32) (values : WriteSet)
    (reply range : OcallReply τ) :
    simulatedRanges F worldState [.getState key maxValLen reply,
        .getStateByPartialCompositeKey compKey values range] =
      ((goRange F worldState compKey).map (fun items => items.map Prod.fst)).toList := by
  simp only [simulatedRanges, List.filterMap_cons, List.filterMap_nil]
  cases goRange F worldState compKey <;> rfl

theorem mem_pointNames {trace : List (Event τ)} {k : Bytes} :
    k ∈ (simulatedReads F trace).toList.map transformToSGX ↔ ∃ key maxValLen reply,
      Event.getState key maxValLen reply ∈ trace ∧ k ∈ (goKey F key).toList.map transformToSGX := by
  simp only [simulatedReads_eq, List.mem_map, ExtTreeSet.mem_toList, mem_foldl_insert, ExtTreeSet.not_mem_empty,
    or_false, List.mem_flatMap]
  constructor
  · rintro ⟨f, ⟨e, he, hf⟩, rfl⟩
    cases e with
    | getState key maxValLen reply => exact ⟨key, maxValLen, reply, he, f, hf, rfl⟩
    | putState key val => exact absurd hf List.not_mem_nil
    | getStateByPartialCompositeKey compKey values reply => exact absurd hf List.not_mem_nil
  · rintro ⟨key, maxValLen, reply, he, f, hf, rfl⟩
    exact ⟨f, ⟨_, he, hf⟩, rfl⟩

theorem mem_rangeNames {trace : List (Event τ)} {k : Bytes} :
    k ∈ (simulatedRanges F worldState trace).flatten.map transformToSGX ↔ ∃ compKey values reply items,
      Event.getStateByPartialCompositeKey compKey values reply ∈ trace ∧ goRange F worldState compKey = some items ∧
        k ∈ items.map (fun item => transformToSGX item.1) := by
  simp only [simulatedRanges, List.mem_map, List.mem_flatten, List.mem_filterMap]
  constructor
  · rintro ⟨f, ⟨keys, ⟨e, he, hkeys⟩, hf⟩, rfl⟩
    cases e with
    | getState key maxValLen reply => cases hkeys
    | putState key val => cases hkeys
    | getStateByPartialCompositeKey compKey values reply =>
      obtain ⟨items, hitems, rfl⟩ := Option.map_eq_some_iff.mp hkeys
      obtain ⟨item, hitem, rfl⟩ := List.mem_map.mp hf
      exact ⟨compKey, values, reply, items, he, hitems, item, hitem, rfl⟩
  · rintro ⟨compKey, values, reply, items, he, hitems, item, hitem, rfl⟩
    refine ⟨item.1, ⟨items.map Prod.fst, ⟨_, he, ?_⟩, List.mem_map_of_mem hitem⟩, rfl⟩
    simp only [hitems, Option.map_some]

theorem mem_recordedReads {trace : List (Event τ)} {k : Bytes} :
    k ∈ recordedReads F worldState trace ↔ ∃ e ∈ trace, k ∈ e.recorded F worldState := by
  rw [recordedReads, List.map_append, List.mem_append, mem_pointNames, mem_rangeNames]
  constructor
  · rintro (⟨key, maxValLen, reply, he, hk⟩ | ⟨compKey, values, reply, items, he, hitems, hk⟩)
    · exact ⟨_, he, hk⟩
    · refine ⟨_, he, ?_⟩
      rw [Event.recorded, hitems]
      exact hk
  · rintro ⟨e, he, hk⟩
    cases e with
    | getState key maxValLen reply => exact Or.inl ⟨key, maxValLen, reply, he, hk⟩
    | putState key val => exact absurd hk List.not_mem_nil
    | getStateByPartialCompositeKey compKey values reply =>
      rw [Event.recorded] at hk
      cases hitems : goRange F worldState compKey with
      | none =>
        rw [hitems] at hk
        exact absurd hk List.not_mem_nil
      | some items =>
        rw [hitems] at hk
        exact Or.inr ⟨compKey, values, reply, items, he, hitems, hk⟩

/-- The answer of the honest peer to a range query. -/
theorem goHost_range_some {verifyTag : Bytes → Bool → τ} {pre : List (Event τ)} {compKey : Bytes}
    {reply : OcallReply τ}
    (h : (goHost F worldState verifyTag).getStateByPartialCompositeKey pre compKey = some reply) :
    ∃ items, goRange F worldState compKey = some items ∧
      reply.val = valuesText (items.map (fun item => (transformToSGX item.1, item.2))) ∧
      reply.val.length ≤ jsonBufferSize ∧ reply.behind = [] := by
  obtain ⟨items, hitems, h⟩ := Option.bind_eq_some_iff.mp h
  dsimp only at h
  split_ifs at h with hfit
  cases h
  exact ⟨items, hitems, rfl, Nat.le_of_not_lt hfit, rfl⟩

theorem goRange_some {compKey : Bytes} {items : List (Bytes × Bytes)}
    (h : goRange F worldState compKey = some items) :
    ∃ comp, items = getStateByPartialKey worldState (fabricKey comp) := by
  rw [goRange] at h
  split at h
  · obtain ⟨start, hstart, rfl⟩ := Option.map_eq_some_iff.mp h
    rw [createCompositeKey] at hstart
    split_ifs at hstart
    cases hstart
    exact ⟨_, rfl⟩
  · cases h

/-- The results of a range query are the entries behind some composite key. -/
theorem exists_of_mem_simulatedRanges {trace : List (Event τ)} {keys : List Bytes}
    (h : keys ∈ simulatedRanges F worldState trace) :
    ∃ comp, keys = (getStateByPartialKey worldState (fabricKey comp)).map Prod.fst := by
  obtain ⟨e, -, hkeys⟩ := List.mem_filterMap.mp h
  cases e with
  | getState key maxValLen reply => cases hkeys
  | putState key val => cases hkeys
  | getStateByPartialCompositeKey compKey values reply =>
    obtain ⟨items, hitems, rfl⟩ := Option.map_eq_some_iff.mp hkeys
    obtain ⟨comp, rfl⟩ := goRange_some F worldState hitems
    exact ⟨comp, rfl⟩

variable {worldState} in
theorem TidyState.plainText_rangeItems (htidy : TidyState worldState) (comp : List Bytes) :
    ∀ p ∈ rangeItems worldState (fabricKey comp), PlainText p.2 :=
  fun p hp => (htidy.jsonSafe.rangeItems comp p hp).2

/-- What the stub has stored: base64 texts, under keys that it has made of the enclave's. -/
def StubWritten : Prop :=
  ∀ (k v : Bytes), worldState[k]?.map Prod.fst = some v →
    (∃ key, (0 : UInt8) ∉ key ∧ goKey F key = some k) ∧ ∀ c ∈ v, c ∈ base64Chars ∨ c = 0x3d

variable {F worldState} in
/-- A name in the result of a range query is that of a composite key of the enclave. -/
theorem StubWritten.rangeItems (hstub : StubWritten F worldState) {comp : List Bytes} {p : Bytes × Bytes}
    (hp : p ∈ rangeItems worldState (fabricKey comp)) :
    PlainText p.2 ∧ isSGXCompositeKey p.1 = true ∧ ∃ k, goKey F p.1 = some k ∧ k ≠ [] := by
  obtain ⟨k, hk, hpre, hname⟩ := mem_rangeItems.mp hp
  obtain ⟨⟨key, hnul, hkey⟩, hvalue⟩ := hstub k p.2 hk
  obtain ⟨rest, rfl⟩ := hpre
  have hne : fabricKey comp ++ rest ≠ [] := List.cons_ne_nil _ _
  rw [transformToSGX_goKey hnul hkey (fun _ => hne)] at hname
  subst hname
  refine ⟨plainText_of_base64 hvalue, ?_, _, hkey, hne⟩
  -- a key that is not in the enclave's form keeps its bytes, and has no NUL
  by_contra hsimple
  rw [goKey, if_neg hsimple, Option.some_inj] at hkey
  exact hnul (hkey ▸ List.mem_append_left rest List.mem_cons_self)

/-- The reads that go by one name in the enclave and in Fabric: composite keys that Fabric takes, and
names found by range queries that stand in a JSON text as they are. -/
structure PlainReads (trace : List (Event τ)) : Prop where
  valid : ∀ key maxValLen reply, Event.getState key maxValLen reply ∈ trace →
    isSGXCompositeKey key = true → goKey F key ≠ some []
  plain : ∀ compKey values reply items, Event.getStateByPartialCompositeKey compKey values reply ∈ trace →
    goRange F worldState compKey = some items → ∀ item ∈ items, PlainText (transformToSGX item.1)

section
variable {η σ : Type} (E : Enclave η τ σ)

/-- The map that is handed over for a range query has no key in it that was not read before. -/
def OwnMaps (trace : List (Event τ)) : Prop :=
  ∀ pre compKey values reply post,
    trace = pre ++ Event.getStateByPartialCompositeKey compKey values reply :: post →
      ∀ k ∈ values, ∃ e ∈ pre, k ∈ e.reads E

/-- The keys that come with an ocall, without those that the map had before. -/
def Event.received : Event τ → List Bytes
  | .getState key _ _ => [key]
  | .putState _ _ => []
  | .getStateByPartialCompositeKey _ _ reply => (receivedValues E ∅ reply).elim [] ExtTreeMap.keys

variable {E}

theorem mem_insertAll {values : WriteSet} {items : List (Bytes × Bytes)} {k : Bytes} :
    k ∈ insertAll values items ↔ k ∈ values ∨ k ∈ insertAll (∅ : WriteSet) items := by
  rw [ExtTreeMap.mem_iff_isSome_getElem?, ExtTreeMap.mem_iff_isSome_getElem?, ExtTreeMap.mem_iff_isSome_getElem?,
    getElem?_insertAll, getElem?_insertAll, ExtTreeMap.getElem?_empty, Option.none_or, Option.isSome_or,
    Bool.or_eq_true]

theorem mem_reads_range {compKey : Bytes} {values : WriteSet} {reply : OcallReply τ} {k : Bytes}
    (h : k ∈ (Event.getStateByPartialCompositeKey compKey values reply).reads E) :
    k ∈ values ∨ k ∈ (Event.getStateByPartialCompositeKey compKey values reply).received E := by
  obtain ⟨found, hfound, -⟩ := unmarshalValues_eq E.libc (reply.memory jsonBufferSize)
  rw [Event.reads, receivedValues, hfound] at h
  rw [Event.received, receivedValues, hfound]
  cases found with
  | none => exact absurd h List.not_mem_nil
  | some items => exact (mem_insertAll.mp (ExtTreeMap.mem_keys.mp h)).imp_right ExtTreeMap.mem_keys.mpr

theorem Event.reads_of_received {e : Event τ} {k : Bytes} (h : k ∈ e.received E) : k ∈ e.reads E := by
  cases e with
  | getState key maxValLen reply => exact h
  | putState key val => exact h
  | getStateByPartialCompositeKey compKey values reply =>
    obtain ⟨found, hfound, -⟩ := unmarshalValues_eq E.libc (reply.memory jsonBufferSize)
    rw [Event.received, receivedValues, hfound] at h
    rw [Event.reads, receivedValues, hfound]
    cases found with
    | none => exact absurd h List.not_mem_nil
    | some items => exact ExtTreeMap.mem_keys.mpr (mem_insertAll.mpr (Or.inr (ExtTreeMap.mem_keys.mp h)))

theorem ownMaps_of_empty {trace : List (Event τ)}
    (h : ∀ compKey values reply, Event.getStateByPartialCompositeKey compKey values reply ∈ trace → values = ∅) :
    OwnMaps E trace := by
  rintro pre compKey values reply post rfl k hk
  obtain rfl := h compKey values reply (List.mem_append_right pre List.mem_cons_self)
  exact absurd hk ExtTreeMap.not_mem_empty

/-- Every key that is read has come with some ocall. -/
theorem OwnMaps.exists_received {trace : List (Event τ)} (hown : OwnMaps E trace) {k : Bytes}
    (h : ∃ e ∈ trace, k ∈ e.reads E) : ∃ e ∈ trace, k ∈ e.received E := by
  induction trace using List.reverseRecOn with
  | nil =>
    obtain ⟨e, he, -⟩ := h
    exact absurd he List.not_mem_nil
  | append_singleton trace last ih =>
    have hbefore (h : ∃ e ∈ trace, k ∈ e.reads E) : ∃ e ∈ trace ++ [last], k ∈ e.received E := by
      have hown' : OwnMaps E trace := by
        intro pre compKey values reply post hsplit
        exact hown pre compKey values reply (post ++ [last]) (by rw [hsplit, List.append_assoc, List.cons_append])
      obtain ⟨e, he, hk⟩ := ih hown' h
      exact ⟨e, List.mem_append_left _ he, hk⟩
    obtain ⟨e, he, hk⟩ := h
    rcases List.mem_append.mp he with he | he
    · exact hbefore ⟨e, he, hk⟩
    obtain rfl := List.mem_singleton.mp he
    cases e with
    | getState key maxValLen reply => exact ⟨_, List.mem_append_right trace he, hk⟩
    | putState key val => exact ⟨_, List.mem_append_right trace he, hk⟩
    | getStateByPartialCompositeKey compKey values reply =>
      -- what the map had before was read by an ocall before this one
      rcases mem_reads_range hk with hk | hk
      · exact hbefore (hown trace compKey values reply [] rfl k hk)
      · exact ⟨_, List.mem_append_right trace he, hk⟩

variable {verifyTag : Bytes → Bool → τ} {s : Session τ}

theorem Traced.mem_readSet_iff (hs : Traced E (goHost F worldState verifyTag) s) (hown : OwnMaps E s.trace)
    (k : Bytes) : k ∈ s.readSet ↔ ∃ e ∈ s.trace, k ∈ e.received E := by
  rw [hs.readSet, mem_foldl_insert, List.mem_flatMap]
  simp only [ExtTreeSet.not_mem_empty, or_false]
  refine ⟨hown.exists_received, ?_⟩
  rintro ⟨e, he, hk⟩
  exact ⟨e, he, Event.reads_of_received hk⟩

section
variable (hs : Traced E (goHost F worldState verifyTag) s) (hown : OwnMaps E s.trace)
  (hvalues : ∀ comp, ∀ p ∈ rangeItems worldState (fabricKey comp), PlainText p.2)
  (hplain : PlainReads F worldState s.trace)
include hs hvalues hplain

/-- For each ocall the enclave adds the keys that Fabric records. -/
theorem Traced.mem_recorded {e : Event τ} (he : e ∈ s.trace) (k : Bytes) :
    k ∈ e.recorded F worldState ↔ k ∈ e.received E := by
  obtain ⟨pre, post, hsplit⟩ := List.append_of_mem he
  have hanswer := hs.answered pre e post hsplit
  cases e with
  | getState key maxValLen reply =>
    obtain ⟨keyStr, hkey, -⟩ := Option.bind_eq_some_iff.mp hanswer
    have hback : transformToSGX keyStr = key := by
      apply transformToSGX_goKey (hs.key _ he) hkey
      rintro hc rfl
      exact hplain.valid key maxValLen reply he hc hkey
    rw [Event.recorded, Event.received, hkey, Option.toList_some, List.map_singleton, hback]
  | putState key val => rfl
  | getStateByPartialCompositeKey compKey values reply =>
    obtain ⟨items, hitems, hval, hfit, -⟩ := goHost_range_some F worldState hanswer
    have hnames := hplain.plain compKey values reply items he hitems
    obtain ⟨comp, rfl⟩ := goRange_some F worldState hitems
    have htexts : ∀ p ∈ rangeItems worldState (fabricKey comp), PlainText p.1 ∧ PlainText p.2 := by
      intro p hp
      refine ⟨?_, hvalues comp p hp⟩
      obtain ⟨item, hitem, rfl⟩ := List.mem_map.mp hp
      exact hnames item hitem
    rw [hval] at hfit
    rw [Event.recorded, Event.received, hitems, receivedValues_valuesText E ∅ hval htexts hfit, Option.getD_some,
      Option.elim_some, mem_keys_insertAll_empty, List.map_map]
    rfl

include hown

theorem Traced.mem_readSet (k : Bytes) : k ∈ recordedReads F worldState s.trace ↔ k ∈ s.readSet := by
  rw [mem_recordedReads, hs.mem_readSet_iff F worldState hown]
  constructor
  · rintro ⟨e, he, hk⟩
    exact ⟨e, he, (hs.mem_recorded F worldState hvalues hplain he k).mp hk⟩
  · rintro ⟨e, he, hk⟩
    exact ⟨e, he, (hs.mem_recorded F worldState hvalues hplain he k).mpr hk⟩

/-- The plugin rebuilds the reads of the enclave when no key was recorded twice. -/
theorem Traced.readset_iff :
    readset (simulate F worldState s.trace) = .ok s.readSet.toList ↔
      (recordedReads F worldState s.trace).Nodup := by
  rw [readset_simulate, Except.ok.injEq]
  apply mergeSort_eq_iff_nodup ExtTreeSet.ordered_toList
  intro k
  rw [ExtTreeSet.mem_toList, hs.mem_readSet F worldState hown hvalues hplain]

end

section
variable (hs : Traced E (goHost F worldState verifyTag) s) (hown : OwnMaps E s.trace)
  (hstub : StubWritten F worldState)
  (hreads : ∀ k, k ∈ recordedReads F worldState s.trace ↔ k ∈ s.readSet)
include hs hown hstub hreads

/-- A composite key that Fabric does not take is read under an empty name. -/
theorem Traced.valid_of_mem_iff {key : Bytes} {maxValLen : UInt32} {reply : OcallReply τ}
    (he : Event.getState key maxValLen reply ∈ s.trace) (hc : isSGXCompositeKey key = true) :
    goKey F key ≠ some [] := by
  intro hempty
  have hne : key ≠ [] := by
    rintro rfl
    cases hc
  have hread : key ∈ s.readSet := (hs.mem_readSet_iff F worldState hown key).mpr ⟨_, he, List.mem_singleton_self _⟩
  have hrecorded := (hreads key).mpr hread
  rw [recordedReads, List.map_append, List.mem_append, mem_pointNames, mem_rangeNames] at hrecorded
  rcases hrecorded with ⟨key', maxValLen', reply', he', hk⟩ | ⟨compKey, values, reply', items, -, hitems, hk⟩
  · obtain ⟨k, hk, hname⟩ := List.mem_map.mp hk
    rw [Option.mem_toList] at hk
    have hkne : k ≠ [] := by
      rintro rfl
      exact hne hname.symm
    have hback : transformToSGX k = key' := transformToSGX_goKey (hs.key _ he') hk (fun _ => hkne)
    rw [← hback, hname, hempty] at hk
    exact hkne (Option.some.inj hk).symm
  · obtain ⟨comp, rfl⟩ := goRange_some F worldState hitems
    obtain ⟨item, hitem, rfl⟩ := List.mem_map.mp hk
    obtain ⟨-, -, k, hk, hkne⟩ := hstub.rangeItems (List.mem_map_of_mem hitem)
    exact hkne (Option.some.inj (hk.symm.trans hempty))

/-- A name that does not stand in a JSON text as it is comes with a point read or in place of a
longer one. -/
theorem Traced.plain_of_mem_iff (hnodup : (recordedReads F worldState s.trace).Nodup) {k : Bytes}
    (hk : k ∈ (simulatedRanges F worldState s.trace).flatten.map transformToSGX) : PlainText k := by
  by_contra hspecial
  obtain ⟨k, hk, hspecial, hmax⟩ := @exists_longest _ (fun k => ¬PlainText k) List.length _ ⟨k, hk, hspecial⟩
  rw [recordedReads, List.map_append, List.nodup_append] at hnodup
  have hrecorded : k ∈ recordedReads F worldState s.trace := by
    rw [recordedReads, List.map_append]
    exact List.mem_append_right _ hk
  obtain ⟨e, he, hreceived⟩ := (hs.mem_readSet_iff F worldState hown k).mp ((hreads k).mp hrecorded)
  obtain ⟨pre, post, hsplit⟩ := List.append_of_mem he
  have hanswer := hs.answered pre e post hsplit
  cases e with
  | getState key maxValLen reply =>
    obtain rfl := List.mem_singleton.mp hreceived
    obtain ⟨keyStr, hkey, -⟩ := Option.bind_eq_some_iff.mp hanswer
    have hback : transformToSGX keyStr = k := by
      apply transformToSGX_goKey (hs.key _ he) hkey
      rintro hc rfl
      exact hs.valid_of_mem_iff F worldState hown hstub hreads he hc hkey
    have hpoint : k ∈ (simulatedReads F s.trace).toList.map transformToSGX := by
      refine (mem_pointNames F).mpr ⟨k, maxValLen, reply, he, ?_⟩
      rw [hkey, Option.toList_some, List.map_singleton, hback]
      exact List.mem_singleton_self k
    exact hnodup.2.2 k hpoint k hk rfl
  | putState key val => exact absurd hreceived List.not_mem_nil
  | getStateByPartialCompositeKey compKey values reply =>
    obtain ⟨items, hitems, hval, hfit, hbehind⟩ := goHost_range_some F worldState hanswer
    obtain ⟨zeros, hmemory⟩ := OcallReply.memory_eq_zeros hfit hbehind
    rw [Event.received, receivedValues, hmemory, hval] at hreceived
    cases hfound : unmarshalValues E.libc ∅ (valuesText (items.map (fun item => (transformToSGX item.1, item.2))) ++
        List.replicate zeros 0) with
    | none =>
      rw [hfound] at hreceived
      exact absurd hreceived List.not_mem_nil
    | some received =>
      rw [hfound, Option.elim_some, ExtTreeMap.mem_keys] at hreceived
      obtain ⟨comp, rfl⟩ := goRange_some F worldState hitems
      have hends : ∀ p ∈ rangeItems worldState (fabricKey comp), p.1.getLast? ≠ some 0x5c := by
        intro p hp
        have hc := (hstub.rangeItems hp).2.1
        rw [isSGXCompositeKey, Bool.and_eq_true, beq_iff_eq, beq_iff_eq] at hc
        rw [hc.2]
        decide
      obtain ⟨p, hp, hpspecial, hlt⟩ := longer_of_received hends (fun p hp => (hstub.rangeItems hp).1)
        (backslash_not_mem_zeros zeros) hfound hreceived hspecial
      obtain ⟨item, hitem, rfl⟩ := List.mem_map.mp hp
      have hmem : transformToSGX item.1 ∈ (simulatedRanges F worldState s.trace).flatten.map transformToSGX :=
        (mem_rangeNames F worldState).mpr ⟨compKey, values, reply, _, he, hitems, List.mem_map_of_mem hitem⟩
      exact absurd (hmax _ hmem hpspecial) (Nat.not_le_of_lt hlt)

end

end

end

section
variable {η τ σ : Type} (E : Enclave η τ σ) (F : KeyRule) (worldState : Kvs)
variable (verifyTag : Bytes → Bool → τ)

/-- The reads that the enclave signs are those that the plugin rebuilds from what Fabric has
recorded exactly when no key is recorded twice, for the enclave has a set and the plugin sorts the
lists that it finds, and the reads go by one name on both sides. -/
theorem signed_reads_simulated_iff (invoke : ChaincodeEntry) (args pk : Bytes) (responseLenIn : ℕ)
    (result : Option Bytes) (s : Session τ) (hstub : StubWritten F worldState) (hown : OwnMaps E s.trace)
    (h : invokeRun E invoke (goHost F worldState verifyTag) args pk responseLenIn = (some result, s)) :
    readset (simulate F worldState s.trace) = .ok s.readSet.toList ↔
      (recordedReads F worldState s.trace).Nodup ∧ PlainReads F worldState s.trace := by
  have hs := run_traced E (goHost F worldState verifyTag) h
  have hvalues : ∀ comp, ∀ p ∈ rangeItems worldState (fabricKey comp), PlainText p.2 :=
    fun comp p hp => (hstub.rangeItems hp).1
  refine ⟨?_, fun hboth => (hs.readset_iff F worldState hown hvalues hboth.2).mpr hboth.1⟩
  intro heq
  have hperm : (recordedReads F worldState s.trace).Perm s.readSet.toList := by
    rw [readset_simulate, Except.ok.injEq] at heq
    exact heq ▸ (List.mergeSort_perm _ _).symm
  have hreads : ∀ k, k ∈ recordedReads F worldState s.trace ↔ k ∈ s.readSet :=
    fun k => hperm.mem_iff.trans ExtTreeSet.mem_toList
  have hnodup : (recordedReads F worldState s.trace).Nodup := hperm.nodup_iff.mpr (ExtTreeSet.ordered_toList.imp ne_of_cmp_lt)
  refine ⟨hnodup, ?_, ?_⟩
  · intro key maxValLen reply he hc
    exact hs.valid_of_mem_iff F worldState hown hstub hreads he hc
  · intro compKey values reply items he hitems item hitem
    apply hs.plain_of_mem_iff F worldState hown hstub hreads hnodup
    exact (mem_rangeNames F worldState).mpr ⟨compKey, values, reply, items, he, hitems, List.mem_map_of_mem hitem⟩

end

/-- An honest peer with one bid. -/
def sealedPeer : Host Bool := goHost nulFree (oneBid sealedBid) (fun _ _ => true)

/-- A chaincode that reads a key and then the bids of an auction. -/
def readBoth (key : Bytes) : ChaincodeEntry := fun _ _ => do
  let _ ← getState key 1024
  let _ ← getStateByPartialCompositeKey (str ".a.") ∅
  return some []

theorem tidyState_sealedBid : TidyState (oneBid sealedBid) :=
  tidyState_oneBid (plainText_of_base64 (by decide +kernel))

/-- The run of this chaincode, when the key can be read. -/
theorem run_readBoth {key : Bytes} {reply : OcallReply Bool} {value : Bytes × ℕ} (hnul : (0 : UInt8) ∉ key)
    (hreply : sealedPeer.getState [] key 1024 = some reply)
    (hvalue : readValue frankEnclave 1024 reply = some value) :
    ∃ range s, invokeRun frankEnclave (readBoth key) sealedPeer [] [] 96 = (some (some []), s) ∧
      s.trace = [.getState key 1024 reply, .getStateByPartialCompositeKey (str ".a.") ∅ range] := by
  have hkey : cstr key = key := cstr_eq_self hnul
  have hwords : ∀ w ∈ [str "a"], PlainWord w := List.forall_mem_singleton.mpr plainWord_a
  have hfit : (valuesText (rangeItems (oneBid sealedBid) (fabricKey [str "a"]))).length ≤ jsonBufferSize := by
    rw [rangeItems_oneBid]
    decide +kernel
  have hrange := goHost_range nulFree (oneBid sealedBid) (fun _ _ => true)
    [Event.getState key 1024 reply] (by decide) hwords (by decide) hfit
  have hreceived := receivedValues_rangeReply (oneBid sealedBid) frankEnclave (fun _ _ => true) ∅
    tidyState_sealedBid hfit
  rw [rangeItems_oneBid] at hreceived
  have hlist : (insertAll (∅ : WriteSet) [(str ".a.b.", sealedBid)]).toList = [(str ".a.b.", sealedBid)] :=
    toList_insertAll_of_sorted (List.pairwise_singleton _ _)
  have hlong : [(str ".a.b.", sealedBid)].any (fun p => tooShort p.2) = false := by decide +kernel
  obtain ⟨plain, hread⟩ := readValues_of_received frankEnclave hreceived (hlist.symm ▸ hlong)
  rw [← hkey] at hreply
  have hget := run_getState frankEnclave sealedPeer (s := freshSession) hreply hvalue
  rw [hkey] at hget
  have hboth : invokeRun frankEnclave (readBoth key) sealedPeer [] [] 96 = _ :=
    (Program.run_bind_of_some hget).trans (Program.run_bind_of_some
      (run_getStateByPartialCompositeKey frankEnclave sealedPeer hrange hread))
  exact ⟨_, _, hboth, rfl⟩

/-- What Fabric records for such a run. -/
theorem recordedReads_readBoth {key keyStr : Bytes} (hkey : goKey nulFree key = some keyStr)
    (hback : transformToSGX keyStr = key) (reply range : OcallReply Bool) :
    recordedReads nulFree (oneBid sealedBid)
        [.getState key 1024 reply, .getStateByPartialCompositeKey (str ".a.") ∅ range] = [key, str ".a.b."] := by
  have hpoint : (simulatedReads nulFree [Event.getState key 1024 reply,
      .getStateByPartialCompositeKey (str ".a.") ∅ range]).toList = [keyStr] := by
    rw [simulatedReads_eq]
    apply setToList_eq_of_sorted (List.pairwise_singleton _ _)
    intro k
    rw [mem_foldl_insert]
    simp [Event.pointRead, hkey]
  have hwords : ∀ w ∈ [str "a"], PlainWord w := List.forall_mem_singleton.mpr plainWord_a
  have hlist : (oneBid sealedBid).toList = [(fabricKey [str "a", str "b"], sealedBid, ⟨1, 0⟩)] :=
    toList_insertAll_of_sorted (List.pairwise_singleton _ _)
  have hrange : simulatedRanges nulFree (oneBid sealedBid) [Event.getState key 1024 reply,
      .getStateByPartialCompositeKey (str ".a.") ∅ range] = [[fabricKey [str "a", str "b"]]] := by
    have hgo : goRange nulFree (oneBid sealedBid) (str ".a.") = _ :=
      goRange_sgxKey nulFree (oneBid sealedBid) (by decide) hwords (by decide)
    rw [simulatedRanges_pair, hgo, getStateByPartialKey, hlist]
    rfl
  rw [recordedReads, hpoint, hrange, List.flatten_singleton, List.map_append, List.map_singleton, hback]
  rfl

theorem plainReads_readBoth {key keyStr : Bytes} (hkey : goKey nulFree key = some keyStr) (hne : keyStr ≠ [])
    (reply range : OcallReply Bool) :
    PlainReads nulFree (oneBid sealedBid)
      [.getState key 1024 reply, .getStateByPartialCompositeKey (str ".a.") ∅ range] where
  valid key' maxValLen reply' h _ := by
    have heq : key' = key := by simpa using (Event.getState.inj (by simpa using h)).1
    rw [heq, hkey]
    exact fun he => hne (Option.some.inj he)
  plain compKey values reply' items _ hitems item hitem := by
    obtain ⟨comp, rfl⟩ := goRange_some nulFree (oneBid sealedBid) hitems
    exact (tidyState_sealedBid.jsonSafe.rangeItems comp _ (List.mem_map_of_mem hitem)).1

theorem ownMaps_readBoth (key : Bytes) (reply range : OcallReply Bool) :
    OwnMaps frankEnclave [.getState key 1024 reply, .getStateByPartialCompositeKey (str ".a.") ∅ range] := by
  apply ownMaps_of_empty
  intro compKey values reply' h
  simpa using (Event.getStateByPartialCompositeKey.inj (by simpa using h)).2.1

theorem stubWritten_single {comp : List Bytes} (hvalid : goKey nulFree (sgxKey comp) = some (fabricKey comp))
    (hnul : (0 : UInt8) ∉ sgxKey comp) :
    StubWritten nulFree (insertAll ∅ [(fabricKey comp, sealedBid, ⟨1, 0⟩)]) := by
  intro k v hk
  rw [getElem?_single] at hk
  split_ifs at hk with heq
  · cases hk
    subst heq
    exact ⟨⟨sgxKey comp, hnul, hvalid⟩, by decide +kernel⟩
  · cases hk

/-- An auction and the bids are read, and rebuilt. -/
theorem disjoint_reads_rebuilt :
    ∃ s, invokeRun frankEnclave (readBoth (str "x")) sealedPeer [] [] 96 = (some (some []), s) ∧
      readset (simulate nulFree (oneBid sealedBid) s.trace) = .ok s.readSet.toList := by
  have hkey : goKey nulFree (str "x") = some (str "x") := by decide
  have hw : (oneBid sealedBid)[str "x"]? = none := by
    rw [oneBid, getElem?_single]
    decide
  have hreply : sealedPeer.getState [] (str "x") 1024 = some ⟨[], 0, true, []⟩ := by
    simp only [sealedPeer, goHost, hkey, Option.bind_eq_bind, Option.bind_some, hw]
    rfl
  have hvalue : (readValue frankEnclave 1024 (⟨[], 0, true, []⟩ : OcallReply Bool)).isSome = true := by
    decide +kernel
  obtain ⟨value, hvalue⟩ := Option.isSome_iff_exists.mp hvalue
  obtain ⟨range, s, hrun, htrace⟩ := run_readBoth (by decide) hreply hvalue
  refine ⟨s, hrun, ?_⟩
  apply (signed_reads_simulated_iff frankEnclave nulFree (oneBid sealedBid) (fun _ _ => true)
    (readBoth (str "x")) [] [] 96 (some []) s (stubWritten_single (by decide) (by decide))
    (htrace ▸ ownMaps_readBoth _ _ range) hrun).mpr
  refine ⟨?_, htrace ▸ plainReads_readBoth hkey (by decide) _ range⟩
  rw [htrace, recordedReads_readBoth hkey (by decide)]
  decide

/-- A chaincode that reads the bids of an auction. -/
def readRange : ChaincodeEntry := fun _ _ => do
  let _ ← getStateByPartialCompositeKey (str ".p.") ∅
  return some []

/-- A world state with a quote in a component. -/
def quotedWorld : Kvs := insertAll ∅ [(fabricKey [str "p", str "a\"b"], sealedBid, ⟨1, 0⟩)]

theorem rangeItems_quotedWorld :
    rangeItems quotedWorld (fabricKey [str "p"]) = [(str ".p.a\"b.", sealedBid)] := by
  have hlist : quotedWorld.toList = [(fabricKey [str "p", str "a\"b"], sealedBid, ⟨1, 0⟩)] :=
    toList_insertAll_of_sorted (List.pairwise_singleton _ _)
  rw [rangeItems, getStateByPartialKey, hlist]
  decide +kernel

/-- The quote ends the text of the key, and no pair is found. -/
theorem unmarshalValues_quotedWorld (libc : Libc) (rest : Bytes) :
    unmarshalValues libc ∅ (valuesText (rangeItems quotedWorld (fabricKey [str "p"])) ++ rest) = some ∅ := by
  rw [rangeItems_quotedWorld]
  exact @unmarshalValues_quote libc ∅ (str ".p.a") (by decide +kernel) 0x62 (by decide) (by decide) (by decide) _

/-- What the enclave and Fabric have of the range in this world state. -/
theorem run_readRange :
    ∃ s, invokeRun frankEnclave readRange (goHost nulFree quotedWorld (fun _ _ => true)) [] [] 96 =
        (some (some []), s) ∧ s.readSet.toList = [] ∧
      readset (simulate nulFree quotedWorld s.trace) = .ok [str ".p.a\"b."] := by
  have hwords : ∀ w ∈ [str "p"], PlainWord w := 
    List.forall_mem_singleton.mpr ⟨by decide, by decide, by decide +kernel⟩
  have hfit : (valuesText (rangeItems quotedWorld (fabricKey [str "p"]))).length ≤ jsonBufferSize := by
    rw [rangeItems_quotedWorld]
    decide +kernel
  have hrange := goHost_range nulFree quotedWorld (fun _ _ => true) ([] : List (Event Bool)) (by decide) hwords
    (by decide) hfit
  have hreceived : receivedValues frankEnclave ∅ (rangeReply quotedWorld (fun _ _ => true) [str "p"]) = some ∅ := by
    obtain ⟨rest, hrest⟩ := @OcallReply.memory_eq _ (rangeReply quotedWorld (fun _ _ => true) [str "p"]) _ hfit
    rw [receivedValues, hrest]
    exact unmarshalValues_quotedWorld _ rest
  obtain ⟨plain, hread⟩ := readValues_of_received frankEnclave hreceived rfl
  have hgo : goRange nulFree quotedWorld (str ".p.") = _ :=
    goRange_sgxKey nulFree quotedWorld (by decide) hwords (by decide)
  have hnames : (getStateByPartialKey quotedWorld (fabricKey [str "p"])).map (fun item => transformToSGX item.1) =
      [str ".p.a\"b."] := by
    have hmap := congrArg (List.map Prod.fst) rangeItems_quotedWorld
    rw [rangeItems, List.map_map] at hmap
    exact hmap
  have hrun : invokeRun frankEnclave readRange (goHost nulFree quotedWorld (fun _ _ => true)) [] [] 96 = _ :=
    Program.run_bind_of_some (run_getStateByPartialCompositeKey frankEnclave _ hrange hread)
  refine ⟨_, hrun, rfl, ?_⟩
  have hranges (reply : OcallReply Bool) : simulatedRanges nulFree quotedWorld
      [.getStateByPartialCompositeKey (str ".p.") ∅ reply] =
        [(getStateByPartialKey quotedWorld (fabricKey [str "p"])).map Prod.fst] := by
    simp only [simulatedRanges, List.filterMap_cons, List.filterMap_nil, hgo, Option.map_some]
  have hrecorded (reply : OcallReply Bool) : recordedReads nulFree quotedWorld
      [.getStateByPartialCompositeKey (str ".p.") ∅ reply] = [str ".p.a\"b."] := by
    have hpoint : (simulatedReads nulFree [Event.getStateByPartialCompositeKey (str ".p.") ∅ reply]).toList = [] := rfl
    rw [recordedReads, hranges, hpoint, List.nil_append, List.flatten_singleton, List.map_map]
    exact hnames
  rw [readset_simulate]
  refine congrArg Except.ok ((congrArg sortStrings (hrecorded _)).trans ?_)
  exact List.mergeSort_singleton _

/-- A bid that is read on its own and again with the others is signed once, and rebuilt twice. One with
a quote in its key is rebuilt, and not signed. -/
theorem signed_reads_differ :
    (∃ s, invokeRun frankEnclave (readBoth (str ".a.b.")) sealedPeer [] [] 96 = (some (some []), s) ∧
      readset (simulate nulFree (oneBid sealedBid) s.trace) ≠ .ok s.readSet.toList ∧
      ∀ reads, readset (simulate nulFree (oneBid sealedBid) s.trace) = .ok reads →
        reads.flatten ≠ s.readSet.toList.flatten) ∧
    ∃ s, invokeRun frankEnclave readRange (goHost nulFree quotedWorld (fun _ _ => true)) [] [] 96 =
        (some (some []), s) ∧ s.readSet.toList = [] ∧
      readset (simulate nulFree quotedWorld s.trace) = .ok [str ".p.a\"b."] := by
  refine ⟨?_, run_readRange⟩
  have hkey : goKey nulFree (str ".a.b.") = some (fabricKey [str "a", str "b"]) := by decide
  have hw : (oneBid sealedBid)[fabricKey [str "a", str "b"]]? = some (sealedBid, ⟨1, 0⟩) := by
    rw [oneBid, getElem?_single, if_pos rfl]
  have hlen : sealedBid.length = 40 := by decide +kernel
  have hreply : sealedPeer.getState [] (str ".a.b.") 1024 = some ⟨sealedBid, 40, true, []⟩ := by
    simp only [sealedPeer, goHost, hkey, Option.bind_eq_bind, Option.bind_some, hw, Option.map_some,
      Option.getD_some, hlen]
    rfl
  have hvalue : (readValue frankEnclave 1024 (⟨sealedBid, 40, true, []⟩ : OcallReply Bool)).isSome = true := by
    decide +kernel
  obtain ⟨value, hvalue⟩ := Option.isSome_iff_exists.mp hvalue
  obtain ⟨range, s, hrun, htrace⟩ := run_readBoth (by decide) hreply hvalue
  have hplain : PlainReads nulFree (oneBid sealedBid) s.trace :=
    htrace ▸ plainReads_readBoth hkey (by decide) _ range
  have hown : OwnMaps frankEnclave s.trace := htrace ▸ ownMaps_readBoth _ _ range
  have hvalues := tidyState_sealedBid.plainText_rangeItems
  have hrecorded : recordedReads nulFree (oneBid sealedBid) s.trace = [str ".a.b.", str ".a.b."] := by
    rw [htrace, recordedReads_readBoth hkey (by decide)]
  have hs := run_traced frankEnclave sealedPeer hrun
  -- the set has the key once, the sorted list has it twice
  have hsigned : s.readSet.toList = [str ".a.b."] := by
    apply setToList_eq_of_sorted (List.pairwise_singleton _ _)
    intro k
    rw [← hs.mem_readSet nulFree (oneBid sealedBid) hown hvalues hplain, hrecorded]
    simp
  refine ⟨s, hrun, ?_, ?_⟩
  · rw [Ne, hs.readset_iff nulFree (oneBid sealedBid) hown hvalues hplain, hrecorded]
    decide
  · intro reads hreads he
    rw [readset_simulate, hrecorded, Except.ok.injEq] at hreads
    have hperm : reads.Perm [str ".a.b.", str ".a.b."] := hreads ▸ List.mergeSort_perm _ _
    have hlength := hperm.flatten.length_eq
    rw [he, hsigned] at hlength
    exact absurd hlength (by decide)

end SecureChaincode
