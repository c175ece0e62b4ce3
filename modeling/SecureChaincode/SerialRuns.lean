import SecureChaincode.AuctionRuns

/-! Invocations of the auction chaincode one after another on one world state. -/
namespace SecureChaincode

open Std

/-- An invocation, by whatever enclave, and the version under which its writes are committed. -/
structure Invocation (η τ σ : Type) where
  enclave : Enclave η τ σ
  verifyTag : Bytes → Bool → τ
  uninit : ℤ
  args : Bytes
  pk : Bytes
  responseLenIn : ℕ
  version : Version

section
variable {η τ σ : Type} (F : KeyRule)

def Invocation.operation (i : Invocation η τ σ) : Option Operation :=
  invokedOperation i.enclave i.args i.pk

/-- The auction that an invocation is addressed to. -/
def Invocation.auction (i : Invocation η τ σ) : Option Bytes := i.operation.map Operation.auctionName

/-- The run on a world state. -/
def Invocation.simulated (worldState : Kvs) (i : Invocation η τ σ) : Option (Option Bytes) × Session τ :=
  invokeRun i.enclave (auctionInvoke i.enclave.libc i.uninit) (goHost F worldState i.verifyTag) i.args i.pk
    i.responseLenIn

/-- The world state afterwards: without a response nothing is committed. -/
def Invocation.commit (worldState : Kvs) (i : Invocation η τ σ) : Kvs :=
  match i.simulated F worldState with
  | (some (some _), s) => commitWrites worldState (simulatedWrites F s.trace) i.version
  | _ => worldState

/-- The results of the invocations that are addressed to an auction, when all of them run one
after the other. -/
def responsesTo (auctionName : Bytes) : Kvs → List (Invocation η τ σ) → List (Option (Option Bytes))
  | _, [] => []
  | worldState, i :: is =>
    (if i.auction = some auctionName then [(i.simulated F worldState).1] else []) ++
      responsesTo auctionName (i.commit F worldState) is

/-- The world state after all of them. -/
def commitAll (worldState : Kvs) (is : List (Invocation η τ σ)) : Kvs :=
  is.foldl (fun w i => i.commit F w) worldState

theorem responsesTo_append (auctionName : Bytes) (worldState : Kvs) (is js : List (Invocation η τ σ)) :
    responsesTo F auctionName worldState (is ++ js) =
      responsesTo F auctionName worldState is ++ responsesTo F auctionName (commitAll F worldState is) js := by
  induction is generalizing worldState with
  | nil => rfl
  | cons i is ih =>
    rw [List.cons_append, responsesTo, ih, responsesTo, List.append_assoc]
    rfl

end

section
variable {F : KeyRule} {auctionName : Bytes}

/-- The key of a bid in words: those of the bidder may be several. -/
theorem exists_bidWords (auctionName bidderName : Bytes) :
    ∃ ws, (∀ w ∈ ws, sep ∉ w) ∧ bidPrefix ++ auctionName ++ str "." ++ bidderName ++ str "." =
      sgxKey (str "somePrefix" :: auctionName :: ws) := by
  obtain ⟨ws, hws, hclosed⟩ := exists_closed sep (bidderName ++ [sep]).length (bidderName ++ [sep]) le_rfl
    (Or.inr List.getLast?_concat)
  refine ⟨ws, hws, ?_⟩
  have hkey : sgxKey (str "somePrefix" :: auctionName :: ws) =
      bidPrefix ++ auctionName ++ str "." ++ closed sep ws := by
    simp [sgxKey, delimited, bidPrefix, str, sep]
  rw [hkey, ← hclosed, List.append_assoc _ bidderName]
  rfl

/-- The key of a bid for Fabric, if Fabric takes it. -/
theorem goKey_bid (hdot : sep ∉ auctionName) {bidderName keyStr : Bytes}
    (h : goKey F (bidPrefix ++ auctionName ++ str "." ++ bidderName ++ str ".") = some keyStr)
    (hne : keyStr ≠ []) :
    ∃ ws, (∀ w ∈ ws, (0 : UInt8) ∉ w) ∧ keyStr = fabricKey (str "somePrefix" :: auctionName :: ws) := by
  obtain ⟨ws, hws, hkey⟩ := exists_bidWords auctionName bidderName
  have hdots : ∀ w ∈ str "somePrefix" :: auctionName :: ws, sep ∉ w :=
    List.forall_mem_cons.mpr ⟨by decide, List.forall_mem_cons.mpr ⟨hdot, hws⟩⟩
  rw [hkey, goKey, if_pos (isSGXCompositeKey_iff.mpr ⟨_, hdots, rfl⟩),
    transformToCompositeKey_sgxKey (List.cons_ne_nil _ _) hdots] at h
  split_ifs at h with hvalid
  · refine ⟨ws, fun w hw => F.no_nul w ?_, (Option.some.inj h).symm⟩
    rw [List.all_cons, List.all_cons, Bool.and_eq_true, Bool.and_eq_true] at hvalid
    exact List.all_eq_true.mp hvalid.2.2 w hw
  · exact absurd (Option.some.inj h).symm hne

theorem zero_notMem_bid_key {a bidder : Bytes} (ha : (0 : UInt8) ∉ a) (hb : (0 : UInt8) ∉ bidder) :
    (0 : UInt8) ∉ bidPrefix ++ a ++ str "." ++ bidder ++ str "." := by
  simp only [List.mem_append, not_or]
  exact ⟨⟨⟨⟨by decide, ha⟩, by decide⟩, hb⟩, by decide⟩

theorem bid_key_inj {a : Bytes} {bidder bidder' : Bytes}
    (h : bidPrefix ++ a ++ str "." ++ bidder ++ str "." = bidPrefix ++ a ++ str "." ++ bidder' ++ str ".") :
    bidder = bidder' := by
  simpa using h

/-- Bids of auctions without a dot in their names have different keys. -/
theorem bid_key_auction {a b bidder bidder' : Bytes} (ha : sep ∉ a) (hb : sep ∉ b)
    (h : bidPrefix ++ a ++ str "." ++ bidder ++ str "." = bidPrefix ++ b ++ str "." ++ bidder' ++ str ".") : a = b := by
  have hrest : a ++ sep :: (bidder ++ str ".") = b ++ sep :: (bidder' ++ str ".") := by
    simpa [str, sep] using h
  exact (append_cons_inj ha hb hrest).1

end

section
variable {η τ σ : Type} {F : KeyRule}

/-- An invocation with an operation runs it on the clear text of its arguments. -/
theorem Invocation.simulated_cases (worldState : Kvs) (i : Invocation η τ σ) :
    (∃ text op, readOperation i.enclave.libc text = some op ∧ i.operation = some op ∧
        ∀ worldState, i.simulated F worldState =
          (auctionInvoke i.enclave.libc i.uninit text i.responseLenIn).run
            (shimStep i.enclave (goHost F worldState i.verifyTag)) freshSession) ∨
      i.operation = none ∧ (i.simulated F worldState).2 = freshSession := by
  rcases auctionProgram_cases i.enclave i.uninit i.args i.pk i.responseLenIn with
    ⟨text, op, -, hread, hop, hprogram⟩ | ⟨hnone, hwithin⟩
  · refine Or.inl ⟨text, op, hread, hop, fun worldState => ?_⟩
    rw [simulated, invokeRun_eq, hprogram]
  · refine Or.inr ⟨hnone, ?_⟩
    -- no call, no change
    exact Program.run_invariant_within (fun s => s = freshSession) (fun s c hc _ => hc.elim)
      (hwithin (fun _ => False)) rfl

theorem getElem?_commitWrites (worldState : Kvs) (writes : WriteSet) (version : Version) (k : Bytes) :
    (commitWrites worldState writes version)[k]? = (writes[k]?.map (·, version)).or worldState[k]? := by
  rw [commitWrites, getElem?_assignAll, ExtTreeMap.getElem?_map]

theorem commitWrites_empty (worldState : Kvs) (version : Version) :
    commitWrites worldState ∅ version = worldState := by
  apply ExtTreeMap.ext_getElem?
  intro k
  rw [getElem?_commitWrites, ExtTreeMap.getElem?_empty]
  rfl

theorem Invocation.commit_of_response {worldState : Kvs} {i : Invocation η τ σ} {response : Bytes} {s : Session τ}
    (h : i.simulated F worldState = (some (some response), s)) :
    i.commit F worldState = commitWrites worldState (simulatedWrites F s.trace) i.version := by
  rw [commit, h]

theorem Invocation.commit_of_no_response {worldState : Kvs} {i : Invocation η τ σ}
    (h : ∀ response, (i.simulated F worldState).1 ≠ some (some response)) : i.commit F worldState = worldState := by
  rw [commit]
  split
  · rename_i response s hs
    exact absurd (congrArg Prod.fst hs) (h response)
  · rfl

/-- What an invocation commits: nothing, or one put of its operation. -/
theorem Invocation.commit_cases (worldState : Kvs) (i : Invocation η τ σ) :
    i.commit F worldState = worldState ∧
        (∀ name bidderName value, i.operation = some (.submit name bidderName value) →
          (i.simulated F worldState).1 ≠ some (some (str "OK"))) ∨
      ∃ op auctionBytes len key val keyStr, i.operation = some op ∧ (∀ w ∈ op.names, (0 : UInt8) ∉ w) ∧
        op.plan i.enclave.libc auctionBytes len = some (.put key val) ∧
        (i.simulated F worldState).1 = some (some (str "OK")) ∧
        goKey F (cstr key) = some keyStr ∧ keyStr ≠ [] ∧
        ∀ k, (i.commit F worldState)[k]? =
          if k = keyStr then some (base64Encode (encryptState i.enclave 1 val), i.version) else worldState[k]? := by
  by_cases hresponse : ∃ response s, i.simulated F worldState = (some (some response), s)
  · obtain ⟨response, s, hrun⟩ := hresponse
    rw [i.commit_of_response hrun, hrun]
    rcases i.simulated_cases worldState (F := F) with ⟨text, op, hread, hop, hsim⟩ | ⟨hnone, hfresh⟩
    · have hnul := readOperation_no_nul hread
      obtain ⟨hprogram, -⟩ := auctionInvoke_run hread ((hsim worldState).symm.trans hrun)
      obtain ⟨reply, auctionBytes, len, plan, tail, -, -, hplan, hperformed, htrace⟩ :=
        op.run_cases (hnul _ op.auctionName_mem) hprogram
      cases hperformed with
      | answer =>
        refine Or.inl ⟨?_, fun name bidderName value _ hok => ?_⟩
        · rw [htrace]
          exact commitWrites_empty worldState i.version
        · have hanswer := op.plan_answer hplan
          rw [Option.some.inj (Option.some.inj hok)] at hanswer
          revert hanswer
          decide
      | put key val =>
        -- the peer has answered the put, so it has a key for it
        have htraced := run_traced i.enclave (goHost F worldState i.verifyTag) hprogram
        have hput := htraced.answered [.getState op.auctionName maxValueSize reply] _ [] htrace
        obtain ⟨keyStr, hkey, hne⟩ := (goHost_putState F worldState i.verifyTag _ _ _).mp hput
        refine Or.inr ⟨op, auctionBytes, len, key, val, keyStr, hop, hnul, hplan, rfl, hkey, hne, ?_⟩
        intro k
        have hwrites : simulatedWrites F s.trace =
            (∅ : WriteSet).insert keyStr (base64Encode (encryptState i.enclave 1 val)) := by
          rw [htrace, simulatedWrites]
          dsimp only [List.foldl_cons, List.foldl_nil]
          rw [hkey]
          rfl
        rw [getElem?_commitWrites, hwrites, ExtTreeMap.getElem?_insert, ExtTreeMap.getElem?_empty]
        by_cases hk : k = keyStr
        · rw [if_pos hk, if_pos (Std.compare_eq_iff_eq.mpr hk.symm)]
          rfl
        · rw [if_neg hk, if_neg (fun hcmp => hk (Std.compare_eq_iff_eq.mp hcmp).symm)]
          rfl
      | tally hreply hvalues heval =>
        obtain ⟨⟨name, rfl⟩, -⟩ := op.plan_tally hplan
        refine Or.inl ⟨?_, fun name' bidderName value hsubmit => ?_⟩
        · rw [htrace]
          exact commitWrites_empty worldState i.version
        · rw [hop] at hsubmit
          cases hsubmit
    · rw [hrun] at hfresh
      refine Or.inl ⟨?_, fun name bidderName value hsubmit => ?_⟩
      · have hs : s = freshSession := hfresh
        rw [hs]
        exact commitWrites_empty worldState i.version
      · rw [hnone] at hsubmit
        cases hsubmit
  · have hno : ∀ response, (i.simulated F worldState).1 ≠ some (some response) :=
      fun response h => hresponse ⟨response, (i.simulated F worldState).2, Prod.ext h rfl⟩
    exact Or.inl ⟨i.commit_of_no_response hno, fun _ _ _ _ => hno _⟩

theorem Invocation.no_nul_of_auction {i : Invocation η τ σ} {name : Bytes} (h : i.auction = some name) :
    (0 : UInt8) ∉ name := by
  obtain ⟨op, hop, rfl⟩ := Option.map_eq_some_iff.mp h
  obtain ⟨text, -, hread⟩ := Option.bind_eq_some_iff.mp hop
  exact readOperation_no_nul hread _ op.auctionName_mem

theorem Invocation.commit_of_none {i : Invocation η τ σ} (worldState : Kvs) (hi : i.auction = none) :
    i.commit F worldState = worldState := by
  rcases i.commit_cases worldState (F := F) with ⟨hsame, -⟩ | ⟨op, _, _, _, _, _, hop, -⟩
  · exact hsame
  · rw [auction, hop] at hi
    cases hi

end

end SecureChaincode
