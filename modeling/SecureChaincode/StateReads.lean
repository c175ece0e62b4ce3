import SecureChaincode.Chain
import SecureChaincode.IdealCrypto
import SecureChaincode.LedgerQueries

/-! What the chaincode enclave may conclude from a tag of the ledger enclave, when an
untrusted peer chooses which blocks it is given and which keys it is asked for. -/
namespace SecureChaincode

open Std (ExtTreeMap)

section
variable {ω τ : Type} (H : IdealHash ω) (M : IdealMac ω τ)

/-- The tag over the key behind its first dot and the hash of its value, or 32 zero bytes
if the key is not found. Both enclaves have the same fixed session key. -/
def ecallGetStateMetadata (state : Kvs) (key : Bytes) : τ :=
  let stateHash := (ledgerGetStateHash (fun b => H.sha256 (H.bytes b)) state key).getD H.zeros
  M.cmac (H.bytes (pastDot (cstr key)) ++ stateHash)

/-- The tag over the prefix from its first dot on and the hash of the entries behind it. -/
def ecallGetMultiStateMetadata (state : Kvs) (compKey : Bytes) : τ :=
  let stateHash := ledgerGetMultiStateHash (fun b => H.sha256 (H.bytes b)) state compKey
  M.cmac (H.bytes (fromDot (cstr compKey)) ++ stateHash)

/-- The hash that `get_state` of the chaincode enclave forms of the value it is handed. -/
def getStateHash (val : Bytes) : List ω :=
  if 0 < val.length then H.sha256 (H.bytes val) else H.zeros

/-- `check_cmac` of the chaincode enclave returns 0. -/
def checkCmac [DecidableEq τ] (key : Bytes) (stateHash : List ω) (cmac : τ) : Bool :=
  M.cmac (H.bytes (cstr key) ++ stateHash) = cmac

/-- The calls of the peer, and what they return to it. -/
inductive PeerCall
  | nextBlock (blockData : Encoded Block)
  | getStateMetadata (key : Bytes)

inductive Reply (τ : Type)
  | code (c : RetCode)
  | tag (cmac : τ)

def peerStep (libs : Libs) (L : Ledger) : PeerCall → Option (Ledger × Reply τ)
  | .nextBlock b => (parseBlock libs L b).map (fun r => (r.1, .code r.2))
  | .getStateMetadata key => some (L, .tag (ecallGetStateMetadata H M L.state key))

/-- The state gives the value for the key, or has none where the value is empty. -/
def Serves (state : Kvs) (k val : Bytes) : Prop :=
  state[str "ecc." ++ k]?.map Prod.fst = if val = [] then none else some val

/-- Every key asked for is one of `ecc`, or has no entry at the time. -/
def EccQueries (libs : Libs) (calls : List PeerCall) : Prop :=
  ∀ pre key post t replies, calls = pre ++ .getStateMetadata key :: post →
    exec (peerStep H M libs) start pre = some (t, replies) →
      str "ecc." <+: cstr key ∨ cstr key ∉ t.state

/-- Every tag the peer has was issued for some key at some moment of the run. -/
theorem tag_issued {libs : Libs} {calls : List PeerCall} {L : Ledger} {replies : List (Reply τ)}
    {cmac : τ} (h : exec (peerStep H M libs) start calls = some (L, replies))
    (ht : Reply.tag cmac ∈ replies) :
    ∃ pre key post t rs, calls = pre ++ .getStateMetadata key :: post ∧
      exec (peerStep H M libs) start pre = some (t, rs) ∧
      cmac = ecallGetStateMetadata H M t.state key := by
  refine exec_invariant (peerStep H M libs) (fun calls replies _ => Reply.tag cmac ∈ replies →
    ∃ pre key post t rs, calls = pre ++ .getStateMetadata key :: post ∧
      exec (peerStep H M libs) start pre = some (t, rs) ∧
      cmac = ecallGetStateMetadata H M t.state key) (fun hn => absurd hn List.not_mem_nil) ?_ h ht
  intro calls replies L call L' reply hr ih hs hmem
  rcases List.mem_append.mp hmem with hmem | hmem
  · obtain ⟨pre, key, post, t, rs, he, hpre, htag⟩ := ih hmem
    exact ⟨pre, key, post ++ [call], t, rs, by rw [he, List.append_assoc, List.cons_append], hpre, htag⟩
  · -- the last call is the query that issued it
    cases call with
    | nextBlock b =>
      obtain ⟨r, -, hr'⟩ := Option.map_eq_some_iff.mp hs
      cases hr'
      cases List.mem_singleton.mp hmem
    | getStateMetadata key =>
      cases hs
      cases List.mem_singleton.mp hmem
      exact ⟨calls, key, [], _, replies, rfl, hr, rfl⟩

theorem length_stateHash (state : Kvs) (key : Bytes) :
    ((ledgerGetStateHash (fun b => H.sha256 (H.bytes b)) state key).getD H.zeros).length = 32 := by
  rw [ledgerGetStateHash]
  cases state[cstr key]? with
  | none => exact List.length_replicate
  | some x => exact H.length_sha256 _

theorem length_getStateHash (val : Bytes) : (getStateHash H val).length = 32 := by
  rw [getStateHash]
  split_ifs
  · exact H.length_sha256 _
  · exact List.length_replicate

/-- A tag that checks for a value which is not empty was issued for a key that behind its
first dot is the one asked for, and that had this value. -/
theorem checked_tag_value [DecidableEq τ] {state : Kvs} {k key val : Bytes} (hk : (0 : UInt8) ∉ k)
    (hval : val ≠ [])
    (hc : checkCmac H M k (getStateHash H val) (ecallGetStateMetadata H M state key) = true) :
    pastDot (cstr key) = k ∧ state[cstr key]?.map Prod.fst = some val := by
  have hm := M.cmac_injective (of_decide_eq_true hc)
  rw [cstr_eq_self hk] at hm
  -- both digests have 32 letters, so key and digest can be told apart
  obtain ⟨hkey, hhash⟩ := H.bytes_append_inj (length_getStateHash H val)
    (length_stateHash H state key) hm
  refine ⟨hkey.symm, ?_⟩
  rw [getStateHash, if_pos (List.length_pos_iff.mpr hval), ledgerGetStateHash] at hhash
  cases hx : state[cstr key]? with
  | none =>
    -- zeros were authenticated, which no value hashes to
    rw [hx] at hhash
    exact absurd hhash (H.sha256_ne_zeros _)
  | some x =>
    rw [hx] at hhash
    have hv : val = x.1 := H.bytes_injective (H.sha256_injective hhash)
    rw [hv, Option.map_some]

/-- Conversely such a tag always checks, whatever stands before the dot. -/
theorem checkCmac_of_value [DecidableEq τ] {state : Kvs} {k key val : Bytes} (hval : val ≠ [])
    (hk : pastDot (cstr key) = cstr k) (hs : state[cstr key]?.map Prod.fst = some val) :
    checkCmac H M k (getStateHash H val) (ecallGetStateMetadata H M state key) = true := by
  obtain ⟨x, hx, rfl⟩ := Option.map_eq_some_iff.mp hs
  rw [checkCmac, decide_eq_true_iff, ecallGetStateMetadata, ledgerGetStateHash, hx, hk, getStateHash,
    if_pos (List.length_pos_iff.mpr hval)]
  rfl

/-- If the peer asks for keys of `ecc` only, or for keys without an entry, every tag that
the chaincode enclave accepts for a key and a value tells the truth about some moment. -/
theorem accepted_tags_sound [DecidableEq τ] (libs : Libs) (calls : List PeerCall) (L : Ledger)
    (replies : List (Reply τ)) (k val : Bytes) (cmac : τ)
    (h : exec (peerStep H M libs) start calls = some (L, replies)) (hq : EccQueries H M libs calls)
    (hk : (0 : UInt8) ∉ k) (ht : Reply.tag cmac ∈ replies)
    (hc : checkCmac H M k (getStateHash H val) cmac = true) :
    ∃ t, Visits (peerStep H M libs) start calls t ∧ Serves t.state k val := by
  by_cases hval : val = []
  · -- before the first block there is no entry at all
    refine ⟨start, Visits.start _ _ _, ?_⟩
    rw [Serves, if_pos hval, show start.state = ∅ from rfl, ExtTreeMap.getElem?_empty, Option.map_none]
  · obtain ⟨pre, key, post, t, rs, he, hpre, rfl⟩ := tag_issued H M h ht
    obtain ⟨hpast, hvalue⟩ := checked_tag_value H M hk hval hc
    refine ⟨t, ⟨pre, _, rs, he, hpre⟩, ?_⟩
    have hecc : str "ecc." <+: cstr key := by
      rcases hq pre key post t rs he hpre with hecc | hno
      · exact hecc
      · rw [ExtTreeMap.getElem?_eq_none hno] at hvalue
        cases hvalue
    obtain ⟨rest, hrest⟩ := hecc
    have hname : pastDot (str "ecc." ++ rest) = rest := rfl
    rw [← hrest, hname] at hpast
    rw [Serves, if_neg hval, ← hpast, hrest, hvalue]

end

/-- The peer asks for the key of a bid. -/
def bidCalls : List PeerCall :=
  [.nextBlock (configBlock 0), .nextBlock (wrapBlock 1 [0] [bid "a" "1"]),
    .getStateMetadata (str "ecc.a")]

def bidLedger : Ledger :=
  ⟨assignAll ∅ (insertAll ∅ [(str "ecc.a", str "1", ⟨1, 0⟩)]), 1, ⟨some [], some []⟩⟩

theorem exec_bidCalls :
    exec (peerStep IdealHash.numbered (IdealMac.plain ℕ) parsonLibs) start bidCalls =
      some (bidLedger, [.code .success, .code .success, .tag (ecallGetStateMetadata IdealHash.numbered
        (IdealMac.plain ℕ) bidLedger.state (str "ecc.a"))]) := by
  have hwrapped : ∀ L, ∀ call ∈ bidCalls, peerStep IdealHash.numbered (IdealMac.plain ℕ) parsonLibs L call =
      peerStep IdealHash.numbered (IdealMac.plain ℕ) bareLibs L call := by
    intro L call hcall
    simp only [bidCalls, List.mem_cons, List.not_mem_nil, or_false] at hcall
    rcases hcall with rfl | rfl | rfl
    · rw [peerStep, peerStep, parseBlock_wrapped (wrappedBlock_configBlock 0)]
    · rw [peerStep, peerStep, parseBlock_wrapped (wrappedBlock_singleton 1 [0] (wrapped_bid "a" "1"))]
    · rfl
  exact (exec_congr _ hwrapped start).trans rfl

theorem bid_tag_sound :
    checkCmac IdealHash.numbered (IdealMac.plain ℕ) (str "a")
        (getStateHash IdealHash.numbered (str "1"))
        (ecallGetStateMetadata IdealHash.numbered (IdealMac.plain ℕ) bidLedger.state (str "ecc.a")) =
          true ∧
      ∃ t, Visits (peerStep IdealHash.numbered (IdealMac.plain ℕ) parsonLibs) start bidCalls t ∧
        Serves t.state (str "a") (str "1") := by
  have hcheck := checkCmac_of_value IdealHash.numbered (IdealMac.plain ℕ)
    (by decide : str "1" ≠ []) (by decide : pastDot (cstr (str "ecc.a")) = cstr (str "a"))
    (by decide : bidLedger.state[cstr (str "ecc.a")]?.map Prod.fst = some (str "1"))
  refine ⟨hcheck, accepted_tags_sound IdealHash.numbered (IdealMac.plain ℕ) parsonLibs bidCalls
    bidLedger [.code .success, .code .success, .tag (ecallGetStateMetadata IdealHash.numbered
      (IdealMac.plain ℕ) bidLedger.state (str "ecc.a"))] (str "a") (str "1") _ exec_bidCalls ?_ (by decide)
    (by simp) hcheck⟩
  intro pre key post t replies he _
  have hmem : PeerCall.getStateMetadata key ∈ bidCalls := by rw [he]; simp
  simp only [bidCalls, List.mem_cons, reduceCtorEq, PeerCall.getStateMetadata.injEq,
    List.not_mem_nil, or_false, false_or] at hmem
  rw [hmem]
  exact Or.inl (by decide)

/-- A deployment writes the key `k` of `lscc`, and the peer asks for it. -/
def deployCalls : List PeerCall :=
  [.nextBlock (configBlock 0),
    .nextBlock (wrapBlock 1 [0] [endorserTx ⟨[wrapAction (str "lscc") [str "deploy"]
      ⟨[wrapNs (str "lscc") ⟨[], [], [⟨some (str "k"), some (str "v")⟩]⟩]⟩]⟩]),
    .getStateMetadata (str "lscc.k")]

def deployLedger : Ledger :=
  ⟨assignAll ∅ (insertAll ∅ [(str "lscc.k", str "v", ⟨1, 0⟩)]), 1, ⟨some [], some []⟩⟩

/-- The tag for `lscc.k` is accepted for the key `k` of `ecc`, which never had an entry. -/
theorem lscc_tag_accepted_for_ecc :
    ∃ replies cmac,
      exec (peerStep IdealHash.numbered (IdealMac.plain ℕ) parsonLibs) start deployCalls =
          some (deployLedger, replies) ∧
        Reply.tag cmac ∈ replies ∧
        checkCmac IdealHash.numbered (IdealMac.plain ℕ) (str "k")
          (getStateHash IdealHash.numbered (str "v")) cmac = true ∧
        ∀ t, Visits (peerStep IdealHash.numbered (IdealMac.plain ℕ) parsonLibs) start deployCalls t →
          t.state[str "ecc.k"]? = none ∧ ¬Serves t.state (str "k") (str "v") := by
  refine ⟨[.code .success, .code .success, .tag (ecallGetStateMetadata IdealHash.numbered
    (IdealMac.plain ℕ) deployLedger.state (str "lscc.k"))],
    ecallGetStateMetadata IdealHash.numbered (IdealMac.plain ℕ) deployLedger.state (str "lscc.k"),
    rfl, by simp, ?_, ?_⟩
  · exact checkCmac_of_value IdealHash.numbered (IdealMac.plain ℕ) (by decide) (by decide) (by decide)
  · intro t ht
    -- one state after the other: none has the key
    have hstate : t.state = ∅ ∨ t.state = deployLedger.state := by
      rcases visits_cons _ ht with rfl | ⟨s, o, hs, ht⟩
      · exact Or.inl rfl
      cases hs
      rcases visits_cons _ ht with rfl | ⟨s, o, hs, ht⟩
      · exact Or.inl (assignAll_empty ∅)
      cases hs
      rcases visits_cons _ ht with rfl | ⟨s, o, hs, ht⟩
      · exact Or.inr rfl
      cases hs
      rw [visits_nil _ ht]
      exact Or.inr rfl
    have hnone : t.state[str "ecc.k"]? = none := by
      rcases hstate with h | h
      · rw [h, ExtTreeMap.getElem?_empty]
      · rw [h]
        decide
    refine ⟨hnone, ?_⟩
    rw [Serves, show str "ecc." ++ str "k" = str "ecc.k" by decide, hnone, if_neg (by decide)]
    exact nofun

end SecureChaincode
