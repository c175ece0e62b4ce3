import SecureChaincode.Mvcc

/-! The envelopes of a run in commit order, each with the state that it finds at its turn and with
what becomes of it. -/
namespace SecureChaincode

open Std

/-- The version that a read of the key records, (0,0) for a key that is absent. -/
def readVersion (s : Kvs) (k : Bytes) : Version := (versionOf s k).getD Version.zero

theorem readVersion_of_some {s : Kvs} {k : Bytes} {v : Version} (h : versionOf s k = some v) : readVersion s k = v := by
  rw [readVersion, h, Option.getD_some]

theorem readVersion_congr {s s' : Kvs} {k : Bytes} (h : s[k]? = s'[k]?) : readVersion s k = readVersion s' k := by
  rw [readVersion, versionOf, h]
  rfl

/-- The second state comes behind the first: each of its entries is the old one, or it has a later
version than the old one. -/
def Follows (s s' : Kvs) : Prop :=
  ∀ k, s'[k]? = s[k]? ∨ ∃ w, versionOf s' k = some w ∧ readVersion s k < w

theorem Follows.refl (s : Kvs) : Follows s s := fun _ => Or.inl rfl

theorem Follows.trans {s s' s'' : Kvs} (h : Follows s s') (h' : Follows s' s'') : Follows s s'' := by
  intro k
  rcases h' k with heq' | ⟨w', hw', hlt'⟩
  · rcases h k with heq | ⟨w, hw, hlt⟩
    · exact Or.inl (heq'.trans heq)
    · exact Or.inr ⟨w, by rw [versionOf, heq']; exact hw, hlt⟩
  · refine Or.inr ⟨w', hw', ?_⟩
    rcases h k with heq | ⟨w, hw, hlt⟩
    · rwa [readVersion_congr heq] at hlt'
    · rw [readVersion_of_some hw] at hlt'
      exact hlt.trans hlt'

section
variable {state updates : Kvs} {number : ℕ}

/-- The updates of a block: they carry its number, and there are none in the genesis block. -/
def Pending (number : ℕ) (updates : Kvs) : Prop :=
  ∀ k v, versionOf updates k = some v → v.blockNum = number ∧ 0 < number

theorem pending_empty (number : ℕ) : Pending number ∅ := by
  intro k v hv
  rw [versionOf, ExtTreeMap.getElem?_empty] at hv
  cases hv

theorem Pending.insertAll (h : Pending number updates) {txNum : ℕ} {writes : List (Bytes × Bytes)}
    (hpos : writes ≠ [] → 0 < number) :
    Pending number (insertAll updates (stamp ⟨number, txNum⟩ writes)) := by
  intro k v hv
  obtain ⟨x, hx, rfl⟩ := Option.map_eq_some_iff.mp hv
  rw [getElem?_insertAll, Option.or_eq_some_iff] at hx
  rcases hx with hx | ⟨-, hx⟩
  · exact h k x.2 (by rw [versionOf, hx, Option.map_some])
  · have hmem := mem_of_lookup_eq_some hx
    obtain ⟨p, hp, hpx⟩ := List.mem_map.mp hmem
    cases hpx
    exact ⟨rfl, hpos (List.ne_nil_of_mem hp)⟩

/-- The updates are later than all that is committed. -/
theorem Pending.follows (h : Pending number updates)
    (hbelow : ∀ k v, versionOf state k = some v → v.blockNum < number) :
    Follows state (assignAll state updates) := by
  intro k
  cases hu : updates[k]? with
  | none =>
    left
    rw [getElem?_assignAll, hu, Option.none_or]
  | some x =>
    right
    have hx : versionOf updates k = some x.2 := by rw [versionOf, hu, Option.map_some]
    obtain ⟨hnum, hpos⟩ := h k x.2 hx
    refine ⟨x.2, by rw [versionOf_assignAll, hx, Option.some_or], Version.lt_of_blockNum_lt ?_⟩
    cases hs : versionOf state k with
    | none =>
      rw [readVersion, hs, Option.getD_none, hnum]
      exact hpos
    | some v =>
      rw [readVersion_of_some hs, hnum]
      exact hbelow k v hs

/-- What was read in an earlier state, and passes the check, is what is found now. -/
theorem Follows.eq_of_fresh {seen : Kvs} (h : Follows seen (assignAll state updates)) {k : Bytes}
    (hfresh : fresh state updates (k, readVersion seen k) = true) :
    (assignAll state updates)[k]? = seen[k]? := by
  rcases h k with heq | ⟨w, hw, hlt⟩
  · exact heq
  · rw [fresh_iff] at hfresh
    rw [versionOf_assignAll, Option.or_eq_some_iff] at hw
    rcases hw with hw | ⟨-, hw⟩
    · exact absurd hlt (hfresh.2 w hw)
    · exact absurd hlt (hfresh.1 w hw)

/-- And none of the updates of the block is for this key. -/
theorem Pending.notMem_of_fresh (h : Pending number updates) {seen : Kvs} {k : Bytes}
    (hseen : ∀ v, versionOf seen k = some v → v.blockNum < number)
    (hfresh : fresh state updates (k, readVersion seen k) = true) : updates[k]? = none := by
  rw [fresh_iff] at hfresh
  by_contra hne
  obtain ⟨x, hx⟩ := Option.ne_none_iff_exists'.mp hne
  have hv : versionOf updates k = some x.2 := by rw [versionOf, hx, Option.map_some]
  obtain ⟨hnum, hpos⟩ := h k x.2 hv
  apply hfresh.2 x.2 hv
  apply Version.lt_of_blockNum_lt
  cases hs : versionOf seen k with
  | none =>
    rw [readVersion, hs, Option.getD_none, hnum]
    exact hpos
  | some v =>
    rw [readVersion_of_some hs, hnum]
    exact hseen v hs

end

/-- A block on its way to the enclave, with a note on how some of its envelopes have come about. -/
structure OrderedBlock (ι : Type) where
  blockData : Encoded Block
  note : ℕ → Option ι

/-- An envelope at its turn. -/
structure Turn (ι : Type) where
  note : Option ι
  /-- the state under the updates that the block has made so far -/
  before : Kvs
  outcome : Outcome

section
variable {ι : Type}

section
variable (state : Kvs) (number : ℕ) (txFilter : Bytes) (note : ℕ → Option ι)

def envelopeTurns : Kvs → List (Encoded Envelope × ℕ) → List (Turn ι)
  | _, [] => []
  | updates, e :: es =>
    let o := planEnvelope state number txFilter updates e
    ⟨note e.2, assignAll state updates, o⟩ ::
      envelopeTurns (insertAll updates (stamp ⟨number, e.2⟩ o.writes)) es

theorem mem_envelopeTurns {updates : Kvs} {es : List (Encoded Envelope × ℕ)} {t : Turn ι}
    (h : t ∈ envelopeTurns state number txFilter note updates es) :
    ∃ e ∈ es, ∃ u, t.outcome = planEnvelope state number txFilter u e := by
  induction es generalizing updates with
  | nil => cases h
  | cons e es ih =>
    rw [envelopeTurns] at h
    rcases List.mem_cons.mp h with rfl | h
    · exact ⟨e, List.mem_cons_self, updates, rfl⟩
    · obtain ⟨e', he', hu⟩ := ih h
      exact ⟨e', List.mem_cons_of_mem e he', hu⟩

/-- What holds before the envelopes and is kept at every turn holds behind them. -/
theorem envelopeTurns_invariant {P : Kvs → List (Turn ι) → Prop} {es : List (Encoded Envelope × ℕ)}
    (hstep : ∀ e ∈ es, ∀ updates ts, P updates ts →
      P (insertAll updates (stamp ⟨number, e.2⟩ (planEnvelope state number txFilter updates e).writes))
        (ts ++ [⟨note e.2, assignAll state updates, planEnvelope state number txFilter updates e⟩]))
    {updates : Kvs} {ts : List (Turn ι)} (h : P updates ts) :
    P (insertAll updates (entries number (planBlock state number txFilter updates es)))
      (ts ++ envelopeTurns state number txFilter note updates es) := by
  induction es generalizing updates ts with
  | nil => simpa [envelopeTurns, planBlock, entries, insertAll] using h
  | cons e es ih =>
    have hnext := ih (fun e' he' => hstep e' (List.mem_cons_of_mem e he')) (hstep e List.mem_cons_self updates ts h)
    rw [planBlock, entries_cons, insertAll_append, envelopeTurns]
    rwa [List.append_assoc, List.singleton_append] at hnext

end

/-- The turns of a block that is committed. -/
def blockTurns (L : Ledger) (b : OrderedBlock ι) : List (Turn ι) :=
  match b.blockData.decoded with
  | none => []
  | some block =>
    match blockMetadata block with
    | .error _ => []
    | .ok txFilter => envelopeTurns L.state block.number txFilter b.note ∅ block.data.zipIdx

theorem blockTurns_of_commits {L L' : Ledger} {b : OrderedBlock ι} {block : Block} {txFilter : Bytes}
    (hb : b.blockData.decoded = some block) (hc : Commits L block txFilter L') :
    blockTurns L b = envelopeTurns L.state block.number txFilter b.note ∅ block.data.zipIdx := by
  rw [blockTurns, hb]
  simp only [hc.metadata]

variable (libs : Libs)

/-- The turns of a run, block by block. -/
def turns : Ledger → List (OrderedBlock ι) → List (Turn ι)
  | _, [] => []
  | L, b :: bs =>
    match parseBlock libs L b.blockData with
    | none => []
    | some (L', code) => (if code = .success then blockTurns L b else []) ++ turns L' bs

theorem turns_append {L L' : Ledger} {bs : List (OrderedBlock ι)} {codes : List RetCode}
    (h : exec (parseBlock libs) L (bs.map OrderedBlock.blockData) = some (L', codes)) (bs' : List (OrderedBlock ι)) :
    turns libs L (bs ++ bs') = turns libs L bs ++ turns libs L' bs' := by
  induction bs generalizing L codes with
  | nil =>
    cases h
    rfl
  | cons c bs ih =>
    obtain ⟨M, o, t, os, hs, he, hr⟩ := (exec_cons_eq_some (parseBlock libs)).mp h
    cases hr
    rw [List.cons_append, turns, turns, hs]
    simp only [ih he, List.append_assoc]

theorem turns_singleton {L L' : Ledger} {b : OrderedBlock ι} {code : RetCode}
    (h : parseBlock libs L b.blockData = some (L', code)) :
    turns libs L [b] = if code = .success then blockTurns L b else [] := by
  simp only [turns, h, List.append_nil]

/-- A block without transactions. -/
def Quiet (b : OrderedBlock ι) : Prop :=
  ∀ block, b.blockData.decoded = some block → ∀ e ∈ block.data, envelopeTx block.number e = none

theorem mem_blockTurns {L : Ledger} {b : OrderedBlock ι} {t : Turn ι} (h : t ∈ blockTurns L b) :
    ∃ block txFilter, b.blockData.decoded = some block ∧ ∃ e ∈ block.data.zipIdx, ∃ u,
      t.outcome = planEnvelope L.state block.number txFilter u e := by
  rw [blockTurns] at h
  cases hb : b.blockData.decoded with
  | none =>
    rw [hb] at h
    cases h
  | some block =>
    rw [hb] at h
    dsimp only at h
    cases hm : blockMetadata block with
    | error x =>
      rw [hm] at h
      cases h
    | ok txFilter =>
      rw [hm] at h
      exact ⟨block, txFilter, rfl, mem_envelopeTurns _ _ _ _ h⟩

/-- In such blocks nothing is accepted and nothing written. -/
theorem outcome_of_quiet {L : Ledger} {bs : List (OrderedBlock ι)} (h : ∀ b ∈ bs, Quiet b) {t : Turn ι}
    (ht : t ∈ turns libs L bs) : t.outcome = ⟨[], false⟩ := by
  induction bs generalizing L with
  | nil => cases ht
  | cons b bs ih =>
    rw [turns] at ht
    cases hparse : parseBlock libs L b.blockData with
    | none =>
      rw [hparse] at ht
      cases ht
    | some r =>
      rw [hparse] at ht
      rcases List.mem_append.mp ht with ht | ht
      · split_ifs at ht
        · obtain ⟨block, txFilter, hb, e, he, u, hu⟩ := mem_blockTurns ht
          have hnone := h b List.mem_cons_self block hb e.1 (List.fst_mem_of_mem_zipIdx he)
          rw [hu, planEnvelope, hnone]
          split_ifs
          · rfl
          · rfl
        · cases ht
      · exact ih (fun b' hb' => h b' (List.mem_cons_of_mem b hb')) ht

/-- What holds at the start and is kept by committed and by rejected blocks holds after every run. -/
theorem turns_invariant {P : List (OrderedBlock ι) → Ledger → List (Turn ι) → Prop} (h0 : P [] start [])
    (hcommit : ∀ bs b L codes L' block txFilter ts,
      run libs (bs.map OrderedBlock.blockData) = some (L, codes) → P bs L ts →
      b.blockData.decoded = some block → Commits L block txFilter L' →
      run libs ((bs ++ [b]).map OrderedBlock.blockData) = some (L', codes ++ [.success]) →
        P (bs ++ [b]) L' (ts ++ envelopeTurns L.state block.number txFilter b.note ∅ block.data.zipIdx))
    (hreject : ∀ bs b L codes L' code ts, run libs (bs.map OrderedBlock.blockData) = some (L, codes) → P bs L ts →
      L'.state = L.state → run libs ((bs ++ [b]).map OrderedBlock.blockData) = some (L', codes ++ [code]) →
        P (bs ++ [b]) L' ts)
    {blocks : List (OrderedBlock ι)} {L : Ledger} {codes : List RetCode}
    (h : run libs (blocks.map OrderedBlock.blockData) = some (L, codes)) : P blocks L (turns libs start blocks) := by
  induction blocks using List.reverseRecOn generalizing L codes with
  | nil =>
    cases h
    exact h0
  | append_singleton bs b ih =>
    have hrun := h
    rw [List.map_append, run] at h
    obtain ⟨M, os, M', o, he, hs, hr⟩ := (exec_snoc_eq_some (parseBlock libs)).mp h
    cases hr
    rw [turns_append libs he [b], turns_singleton libs hs]
    rcases parseBlock_cases hs with ⟨rfl, block, txFilter, hb, hc⟩ | ⟨hcode, hstate, -⟩
    · rw [if_pos rfl, blockTurns_of_commits hb hc]
      exact hcommit bs b M os L block txFilter _ he (ih he) hb hc hrun
    · rw [if_neg hcode, List.append_nil]
      exact hreject bs b M os L o _ he (ih he) hstate hrun

end

end SecureChaincode
