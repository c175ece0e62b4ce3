import SecureChaincode.ConcurrentRuns

/-! The auctions that the ledger enclave holds. Whatever states the transactions were endorsed on,
those that are accepted have answered as the abstract auction does, one after the other in the
order in which they are committed. -/
namespace SecureChaincode

open Std

section
variable (house : AuctionHouse)

/-- The auctions after a sequence of operations. -/
def AuctionHouse.after (ops : List Operation) : AuctionHouse := ops.foldl (fun house op => (house.step op).2) house

theorem AuctionHouse.after_snoc (ops : List Operation) (op : Operation) :
    house.after (ops ++ [op]) = ((house.after ops).step op).2 := by
  rw [AuctionHouse.after, List.foldl_append]
  rfl

theorem AuctionHouse.responses_snoc (ops : List Operation) (op : Operation) :
    house.responses (ops ++ [op]) = house.responses ops ++ [((house.after ops).step op).1] := by
  induction ops generalizing house with
  | nil => rfl
  | cons o ops ih =>
    rw [List.cons_append, AuctionHouse.responses, AuctionHouse.responses, ih, List.cons_append]
    rfl

end

section
variable {η τ σ : Type}

/-- What the ledger has under a name: nothing, or this value as an enclave has sealed it. -/
inductive SealedAs (E : Enclave η τ σ) (state : Kvs) (name : Bytes) : Option Bytes → Prop
  | absent (h : state[name]? = none) : SealedAs E state name none
  | stored {iv val : Bytes} {version : Version} (hiv : iv.length = 12)
    (h : state[name]? = some (sealWith E iv val, version)) : SealedAs E state name (some val)

/-- The store has in clear text what the ledger has of the auctions. -/
structure Opens (E : Enclave η τ σ) (store : WriteSet) (state : Kvs) : Prop where
  record : ∀ name, PlainWord name → name ≠ str "MRENCLAVE" → SealedAs E state (recordName name) store[name]?
  bid : ∀ name, PlainWord name → name ≠ str "MRENCLAVE" → ∀ key, bidPrefix ++ name ++ str "." <+: key →
    SealedAs E state (str "ecc" ++ key) store[key]?

variable {E : Enclave η τ σ} {house : AuctionHouse} {store : WriteSet} {state : Kvs} {op : Operation}

theorem SealedAs.congr {state' : Kvs} {name : Bytes} {val : Option Bytes} (h : SealedAs E state name val)
    (heq : state'[name]? = state[name]?) : SealedAs E state' name val := by
  cases h with
  | absent h => exact .absent (heq.trans h)
  | stored hiv h => exact .stored hiv (heq.trans h)

theorem opens_empty (E : Enclave η τ σ) : Opens E ∅ ∅ where
  record name _ _ := by
    rw [ExtTreeMap.getElem?_empty]
    exact .absent ExtTreeMap.getElem?_empty
  bid name _ _ key _ := by
    rw [ExtTreeMap.getElem?_empty]
    exact .absent ExtTreeMap.getElem?_empty

/-- The record in the ledger has the flag of the abstract auction. -/
theorem Opens.recordIs (h : Opens E store state) (hrep : Represents E.libc house store) {name : Bytes}
    (hn : PlainWord name) (hmr : name ≠ str "MRENCLAVE") :
    RecordIs E name state ((house name).map AuctionState.isOpen) := by
  have hsealed := h.record name hn hmr
  rw [hrep.record name hn.no_dot hmr] at hsealed
  cases hhouse : house name with
  | none =>
    rw [hhouse] at hsealed
    cases hsealed with
    | absent habsent => exact .absent habsent
  | some a =>
    rw [hhouse] at hsealed
    cases hsealed with
    | stored hiv hstored => exact .stored hiv hstored

theorem ofAuction_bids {name key : Bytes} (h : bidPrefix ++ name ++ str "." <+: key) :
    OfAuction name (str "ecc" ++ key) := by
  refine Or.inr ?_
  rw [sgxKey_bids]
  exact (List.prefix_append_right_inj _).mpr h

theorem ecc_bids_ne_record {name name' key : Bytes} (hn' : PlainWord name')
    (hkey : bidPrefix ++ name ++ str "." <+: key) : str "ecc" ++ key ≠ recordName name' := by
  intro heq
  obtain ⟨rest, rfl⟩ := hkey
  have hname : str "somePrefix." ++ (name ++ str "." ++ rest) = name' := by
    rw [bidPrefix] at heq
    have hcut : str "ecc." ++ (str "somePrefix." ++ (name ++ str "." ++ rest)) = str "ecc." ++ name' := by
      simpa [str, recordName] using heq
    exact List.append_cancel_left hcut
  apply hn'.no_dot
  rw [← hname]
  exact List.mem_append_left _ (by decide)

/-- Where an operation puts something: under the name of the auction, or under the key of a bid. -/
theorem Operation.put_key {libc : Libc} {flag : Option Bool} {key val : Bytes}
    (h : op.planFor libc flag = .put key val) :
    key = op.auctionName ∧ op.ledgerName = recordName op.auctionName ∨
      ∃ bidder, bidder ∈ op.names ∧ key = bidPrefix ++ op.auctionName ++ str "." ++ bidder ++ str "." ∧
        op.ledgerName = str "ecc" ++ key := by
  cases op with
  | create name =>
    rcases flag with _ | _ | _ <;> cases h
    exact Or.inl ⟨rfl, rfl⟩
  | submit name bidder value =>
    rcases flag with _ | _ | _ <;> cases h
    exact Or.inr ⟨bidder, by simp [names], rfl, by rw [ledgerName, sgxKey_bidKey]⟩
  | close name =>
    rcases flag with _ | _ | _ <;> cases h
    exact Or.inl ⟨rfl, rfl⟩
  | eval name => rcases flag with _ | _ | _ <;> cases h

theorem Operation.planFor_tally {libc : Libc} {flag : Option Bool} (h : op.planFor libc flag = .tally) :
    flag = some false := by
  cases op <;> rcases flag with _ | _ | _ <;> cases h
  rfl

/-- A put goes to one place in the ledger, and to the same one in the store. -/
theorem Opens.put {state' : Kvs} (h : Opens E store state) (hplain : ∀ w ∈ op.names, PlainWord w)
    {flag : Option Bool} {key val iv : Bytes} {version : Version} (hput : op.planFor E.libc flag = .put key val)
    (hiv : iv.length = 12) (hat : state'[op.ledgerName]? = some (sealWith E iv val, version))
    (hother : ∀ k, k ≠ op.ledgerName → state'[k]? = state[k]?) :
    Opens E (assignAll store (Plan.put key val).writes) state' := by
  have hname := hplain _ op.auctionName_mem
  have hentry (k : Bytes) : (assignAll store (Plan.put key val).writes)[k]? = if k = key then some val else store[k]? := by
    have hnul : (0 : UInt8) ∉ key := by
      rcases op.put_key hput with ⟨rfl, -⟩ | ⟨bidder, hbidder, rfl, -⟩
      · exact hname.no_nul
      · exact zero_notMem_bid_key hname.no_nul (hplain bidder hbidder).no_nul
    rw [Plan.writes, cstr_eq_self hnul, getElem?_assign_writes]
  -- a name in the ledger is that of the put exactly if the key in the store is
  have hplace {name k : Bytes} (hiff : name = op.ledgerName ↔ k = key) (hsealed : SealedAs E state name store[k]?) :
      SealedAs E state' name (assignAll store (Plan.put key val).writes)[k]? := by
    rw [hentry]
    by_cases hk : k = key
    · rw [if_pos hk, hiff.mpr hk]
      exact .stored hiv hat
    · rw [if_neg hk]
      exact hsealed.congr (hother _ (fun heq => hk (hiff.mp heq)))
  constructor
  · intro name hn hmr
    refine hplace ?_ (h.record name hn hmr)
    rcases op.put_key hput with ⟨rfl, hledger⟩ | ⟨bidder, hbidder, rfl, hledger⟩
    · rw [hledger, recordName, recordName, List.append_cancel_left_eq]
    · rw [hledger]
      refine iff_of_false (fun heq => ?_) (fun heq => bid_key_ne hn.no_dot heq.symm)
      exact ecc_bids_ne_record hn ⟨bidder ++ str ".", (List.append_assoc _ bidder _).symm⟩ heq.symm
  · intro name hn hmr k hk
    refine hplace ?_ (h.bid name hn hmr k hk)
    rcases op.put_key hput with ⟨rfl, hledger⟩ | ⟨bidder, hbidder, rfl, hledger⟩
    · rw [hledger]
      refine iff_of_false (ecc_bids_ne_record hname hk) ?_
      rintro rfl
      exact not_bids_prefix hname.no_dot hk
    · rw [hledger, List.append_cancel_left_eq]

/-- What a transaction stores at its turn is what its operation puts into the store. -/
theorem Opens.turn {updates : Kvs} (h : Opens E store (assignAll state updates)) (hplain : ∀ w ∈ op.names, PlainWord w)
    {iv : Bytes} (hiv : iv.length = 12) (hfree : updates[op.ledgerName]? = none) (flag : Option Bool)
    (version : Version) :
    Opens E (assignAll store (op.planFor E.libc flag).writes)
      (assignAll state (insertAll updates (stamp version (op.stored E iv flag)))) := by
  cases hplan : op.planFor E.libc flag with
  | put key val =>
    have hstored : op.stored E iv flag = [(op.ledgerName, sealWith E iv val)] := by rw [Operation.stored, hplan]
    rw [hstored]
    refine h.put hplain hplan hiv (overlay_turn_single hfree) (fun k hk => overlay_turn_of_ne (fun p hp => ?_))
    rw [List.mem_singleton.mp hp]
    exact hk.symm
  | answer result =>
    have hstored : op.stored E iv flag = [] := by rw [Operation.stored, hplan]
    have hwrites : (Plan.answer result).writes = ∅ := rfl
    rw [hstored, hwrites, assignAll_empty]
    exact h
  | tally =>
    have hstored : op.stored E iv flag = [] := by rw [Operation.stored, hplan]
    have hwrites : Plan.tally.writes = ∅ := rfl
    rw [hstored, hwrites, assignAll_empty]
    exact h

theorem Mirrors.agrees {worldState : Kvs} (h : Mirrors worldState state) : Agrees worldState state := by
  intro name val hpre
  simp only [Option.map_eq_some_iff, h.entry name _ hpre]
  constructor
  · rintro ⟨x, ⟨key, hkey, hname⟩, hval⟩
    exact ⟨key, ⟨x, hkey, hval⟩, hname⟩
  · rintro ⟨key, ⟨x, hkey, hval⟩, hname⟩
    exact ⟨x, ⟨key, hkey, hname⟩, hval⟩

/-- A range query for the bids of an auction that returns delivers the clear text of its bids. -/
theorem readValues_bids {F : KeyRule} {worldState : Kvs} {verifyTag : Bytes → Bool → τ} {pre : List (Event τ)}
    {name : Bytes} {reply : OcallReply τ} {E' : Enclave η τ σ} {received plain : WriteSet}
    (hmirrors : Mirrors worldState state) (hn : PlainWord name) (hE : SameBuild E' E) (hgcm : E.gcm.RoundTrip)
    (hbids : ∀ key, bidPrefix ++ name ++ str "." <+: key → SealedAs E state (str "ecc" ++ key) store[key]?)
    (hreply : (goHost F worldState verifyTag).getStateByPartialCompositeKey pre
      (cstr (bidPrefix ++ name ++ str ".")) = some reply)
    (hread : readValues E' ∅ reply = some (received, plain)) :
    plain = insertAll ∅ (recordsFrom store (bidPrefix ++ name ++ str ".")) := by
  have hwords := plainWord_bids hn
  have hkey : cstr (bidPrefix ++ name ++ str ".") = sgxKey [str "somePrefix", name] := by
    rw [sgxKey_bids, cstr_eq_self]
    simp only [List.mem_append, not_or]
    exact ⟨⟨by decide, hn.no_nul⟩, by decide⟩
  have htidy := hmirrors.tidyState
  obtain ⟨items, hrange, hval, hfit, -⟩ := goHost_range_some F worldState hreply
  have hitems : items = getStateByPartialKey worldState (fabricKey [str "somePrefix", name]) := by
    rw [hkey, goRange, splitSGXCompositeKey_sgxKey (fun w hw => (hwords w hw).no_dot)] at hrange
    obtain ⟨start, hstart, rfl⟩ := Option.map_eq_some_iff.mp hrange
    rw [createCompositeKey] at hstart
    split_ifs at hstart
    cases hstart
    rfl
  subst hitems
  have hreceived : receivedValues E' ∅ reply =
      some (insertAll ∅ (rangeItems worldState (fabricKey [str "somePrefix", name]))) :=
    receivedValues_valuesText E' ∅ hval (htidy.jsonSafe.rangeItems _) (hval ▸ hfit)
  rw [readValues, hreceived] at hread
  simp only [Option.bind_eq_bind, Option.bind_some] at hread
  split_ifs at hread
  cases hread
  -- what was received under a key is what the ledger has sealed under it
  have hpairs (k w : Bytes) :
      (insertAll (∅ : WriteSet) (rangeItems worldState (fabricKey [str "somePrefix", name])))[k]? = some w ↔
        bidPrefix ++ name ++ str "." <+: k ∧ state[str "ecc" ++ k]?.map Prod.fst = some w := by
    rw [← ExtTreeMap.mem_toList_iff_getElem?_eq_some,
      toList_rangeItems hmirrors.agrees htidy (List.cons_ne_nil _ _) hwords, mem_ledgerPairs, sgxKey_bids]
  have hopen (iv val : Bytes) (hiv : iv.length = 12) :
      (decryptState E' (base64Decode (cstr (sealWith E iv val)))).2 = val := by
    rw [cstr_eq_self (plainText_sealWith E iv val).no_nul, hE.decryptState_eq hiv val hgcm]
  apply ExtTreeMap.ext_getElem?
  intro k
  apply Option.ext
  intro v
  rw [getElem?_recordsFrom, ExtTreeMap.getElem?_map, Option.map_eq_some_iff]
  constructor
  · rintro ⟨w, hw, rfl⟩
    obtain ⟨hpre, hw⟩ := (hpairs k w).mp hw
    refine ⟨hpre, ?_⟩
    have hsealed := hbids k hpre
    cases hstore : store[k]? with
    | none =>
      rw [hstore] at hsealed
      cases hsealed with
      | absent habsent =>
        rw [habsent] at hw
        cases hw
    | some val =>
      rw [hstore] at hsealed
      cases hsealed with
      | @stored iv _ version hiv hstored =>
        rw [hstored] at hw
        cases hw
        rw [hopen iv val hiv]
  · rintro ⟨hpre, hstore⟩
    have hsealed := hbids k hpre
    rw [hstore] at hsealed
    cases hsealed with
    | @stored iv _ version hiv hstored =>
      exact ⟨sealWith E iv v, (hpairs k _).mpr ⟨hpre, by rw [hstored]; rfl⟩, hopen iv v hiv⟩

/-! The responses. -/

variable {F : KeyRule} {x : Endorsement η τ σ}

/-- An endorsed operation that has found the auction as it is in the abstract house has answered as
the abstract auction does. -/
theorem Endorsement.response_eq {number : ℕ} {e : Encoded Envelope} (hrep : Represents E.libc house store)
    (hheld : x.HeldBy F number e) (hop : x.invocation.operation = some op) (hE : SameBuild x.invocation.enclave E)
    (hgcm : E.gcm.RoundTrip) (hflag : RecordIs E op.auctionName x.seen ((house op.auctionName).map AuctionState.isOpen))
    (hbids : (house op.auctionName).map AuctionState.isOpen = some false →
      ∀ key, bidPrefix ++ op.auctionName ++ str "." <+: key → SealedAs E x.seen (str "ecc" ++ key) store[key]?) :
    (x.simulated F).1 = some (some ((house.step op).1.text E.libc)) := by
  obtain ⟨op', hop', hplain, hmr⟩ := hheld.operation
  cases hop.symm.trans hop'
  have hn := hplain _ op.auctionName_mem
  obtain ⟨response, hresponse⟩ := hheld.response
  obtain ⟨reply, tail, hperformed, -⟩ := x.performed hop hresponse hheld.mirrors hn hE hgcm hflag
  have hrun := hrep.run_plan hplain x.invocation.uninit
  rw [hresponse]
  cases hplan : op.planFor E.libc ((house op.auctionName).map AuctionState.isOpen) with
  | answer result =>
    rw [hplan] at hperformed hrun
    cases hperformed
    exact congrArg some (congrArg Prod.fst hrun)
  | put key val =>
    rw [hplan] at hperformed hrun
    cases hperformed
    exact congrArg some (congrArg Prod.fst hrun)
  | tally =>
    rw [hplan] at hperformed hrun
    have hclosed := op.planFor_tally hplan
    cases hperformed with
    | tally hreply hread heval =>
      have hvalues := readValues_bids hheld.mirrors hn hE hgcm (hbids hclosed) hreply hread
      have hnul : (0 : UInt8) ∉ bidPrefix ++ op.auctionName ++ str "." := by
        simp only [List.mem_append, not_or]
        exact ⟨⟨by decide, hn.no_nul⟩, by decide⟩
      have hstore : (Plan.tally.program E.libc x.invocation.uninit op.auctionName).run (storeStep store) ∅ =
          ((Program.orFault (evalBids E.libc x.invocation.uninit
              (insertAll ∅ (recordsFrom store (bidPrefix ++ op.auctionName ++ str ".")))) : Chaincode Bytes).run
            (storeStep store) ∅) := by
        rw [Plan.program, getStateByPartialCompositeKey, Program.run_bind, Program.run_request]
        simp only [storeStep, cstr_eq_self hnul]
      rw [hE.libc_eq, hvalues] at heval
      rw [hstore, heval] at hrun
      exact congrArg some (congrArg Prod.fst hrun)

/-! The accepted transactions in commit order. -/

variable (F) in
/-- The operation of an accepted auction transaction, and what its endorsement has returned. -/
def Turn.answered (t : Turn (Endorsement η τ σ)) : Option (Operation × Option (Option Bytes)) :=
  if t.outcome.accepted = true then
    t.note.bind (fun x => x.invocation.operation.map (fun op => (op, (x.simulated F).1)))
  else none

variable (F) in
def transcript (ts : List (Turn (Endorsement η τ σ))) : List (Operation × Option (Option Bytes)) :=
  ts.filterMap (Turn.answered F)

variable (F) in
/-- The operations of the accepted transactions. -/
def committedOps (ts : List (Turn (Endorsement η τ σ))) : List Operation := (transcript F ts).map Prod.fst

variable (F E) in
/-- The state holds the auctions of the abstract house after the accepted operations, and these have
been answered as by the abstract house. -/
structure InStep (o : Kvs) (ts : List (Turn (Endorsement η τ σ))) : Prop where
  holds : ∃ store, Represents E.libc (AuctionHouse.after (fun _ => none) (committedOps F ts)) store ∧ Opens E store o
  answers : (transcript F ts).map Prod.snd =
    (AuctionHouse.responses (fun _ => none) (committedOps F ts)).map (fun r => some (some (r.text E.libc)))

variable {ts : List (Turn (Endorsement η τ σ))} {t : Turn (Endorsement η τ σ)} {o o' : Kvs}

theorem transcript_snoc (ts : List (Turn (Endorsement η τ σ))) (t : Turn (Endorsement η τ σ)) :
    transcript F (ts ++ [t]) = transcript F ts ++ (t.answered F).toList := by
  rw [transcript, List.filterMap_append, transcript]
  cases h : t.answered F with
  | none => rw [List.filterMap_cons_none h, List.filterMap_nil]; rfl
  | some p => rw [List.filterMap_cons_some h, List.filterMap_nil]; rfl

/-- A turn without an answer that leaves the auctions as they are. -/
theorem InStep.idle (h : InStep E F o ts) (hanswered : t.answered F = none)
    (hsame : ∀ name, PlainWord name → name ≠ str "MRENCLAVE" → ∀ k, OfAuction name k → o'[k]? = o[k]?) :
    InStep E F o' (ts ++ [t]) := by
  have htranscript : transcript F (ts ++ [t]) = transcript F ts := by
    rw [transcript_snoc, hanswered, Option.toList_none, List.append_nil]
  obtain ⟨store, hrep, hopens⟩ := h.holds
  constructor
  · rw [committedOps, htranscript]
    refine ⟨store, hrep, ?_, ?_⟩
    · intro name hn hmr
      exact (hopens.record name hn hmr).congr (hsame name hn hmr _ (Or.inl rfl))
    · intro name hn hmr key hkey
      exact (hopens.bid name hn hmr key hkey).congr (hsame name hn hmr _ (ofAuction_bids hkey))
  · rw [committedOps, htranscript]
    exact h.answers

/-- An accepted turn of an operation that has found the auction as it is now. -/
theorem InStep.answered (h : InStep E F o ts) (hadm : op.Admissible E.libc)
    (hanswered : t.answered F = some (op, (x.simulated F).1))
    (hresponse : ∀ house store, Represents E.libc house store → Opens E store o →
      (x.simulated F).1 = some (some ((house.step op).1.text E.libc)))
    (hopens : ∀ house store, Represents E.libc house store → Opens E store o →
      Opens E (assignAll store (op.planFor E.libc ((house op.auctionName).map AuctionState.isOpen)).writes) o') :
    InStep E F o' (ts ++ [t]) := by
  have htranscript : transcript F (ts ++ [t]) = transcript F ts ++ [(op, (x.simulated F).1)] := by
    rw [transcript_snoc, hanswered]
    rfl
  have hops : committedOps F (ts ++ [t]) = committedOps F ts ++ [op] := by
    rw [committedOps, htranscript, List.map_append]
    rfl
  obtain ⟨store, hrep, ho⟩ := h.holds
  constructor
  · rw [hops, AuctionHouse.after_snoc]
    exact ⟨_, hrep.step hadm, hopens _ store hrep ho⟩
  · rw [hops, AuctionHouse.responses_snoc, htranscript, List.map_append, List.map_append, h.answers, List.map_singleton,
      List.map_singleton, hresponse _ store hrep ho]

section
variable {updates : Kvs} {number txNum : ℕ} {txFilter : Bytes} {e : Encoded Envelope} {past : Kvs → Prop}

/-- An endorsed transaction at its turn: it is rejected, or it has seen the record as it is now, and
stores what its operation plans for it. -/
theorem Endorsement.HeldBy.outcome_now (hheld : x.HeldBy F number e) (hop : x.invocation.operation = some op)
    (hE : SameBuild x.invocation.enclave E) (hgcm : E.gcm.RoundTrip) (hc : TurnContext past state number updates)
    (hseen : past x.seen) (hknown : ∃ flag, RecordIs E op.auctionName x.seen flag) {flag : Option Bool}
    (hflag : RecordIs E op.auctionName (assignAll state updates) flag) (txFilter : Bytes) (txNum : ℕ) :
    planEnvelope state number txFilter updates (e, txNum) = ⟨[], false⟩ ∨
      RecordIs E op.auctionName x.seen flag ∧ updates[recordName op.auctionName]? = none ∧
        ∃ iv, iv.length = 12 ∧ planEnvelope state number txFilter updates (e, txNum) = ⟨op.stored E iv flag, true⟩ := by
  obtain ⟨flag', hflag'⟩ := hknown
  rcases hheld.outcome hop hE hgcm hflag' state updates txFilter txNum with hreject | ⟨hfresh, -⟩
  · exact Or.inl hreject
  obtain ⟨hrecord, hnone⟩ := hc.record_of_fresh hseen hfresh
  have hnow := hflag.congr hrecord.symm
  rcases hheld.outcome hop hE hgcm hnow state updates txFilter txNum with hreject | ⟨-, hstored⟩
  · exact Or.inl hreject
  · exact Or.inr ⟨hnow, hnone, hstored⟩

/-- Step lemma: a turn keeps the auctions in step with the abstract house, if no bid of the same bidder
is among the updates of the block. -/
theorem InStep.turn {note : Option (Endorsement η τ σ)} {ts' : List (Turn (Endorsement η τ σ))}
    (hgcm : E.gcm.RoundTrip) (hc : TurnContext past state number updates) (h : Legitimate F E past number e note)
    (hS : Sound F E past (assignAll state updates) ts')
    (hadm : ∀ x op, note = some x → x.invocation.operation = some op → op.Admissible E.libc)
    (hfree : ∀ x name bidder value, note = some x → x.invocation.operation = some (.submit name bidder value) →
      updates[(Operation.submit name bidder value).ledgerName]? = none)
    (hL : InStep E F (assignAll state updates) ts) :
    InStep E F
      (assignAll state (insertAll updates
        (stamp ⟨number, txNum⟩ (planEnvelope state number txFilter updates (e, txNum)).writes)))
      (ts ++ [⟨note, assignAll state updates, planEnvelope state number txFilter updates (e, txNum)⟩]) := by
  have hcases := h.turnCases txNum txFilter hgcm hc hS.known
  cases h with
  | foreign hforeign =>
    cases hcases with
    | idle heffect hsame => exact hL.idle (by rw [Turn.answered]; exact ite_self _) hsame
    | effective heffect => rw [Turn.effect, Option.bind_none, ite_self] at heffect; cases heffect
  | @endorsed x hseen hE hheld =>
    obtain ⟨op, hop, hplain, hmr⟩ := hheld.operation
    have hn := hplain _ op.auctionName_mem
    have hknown := hS.known x.seen hseen op.auctionName hn hmr
    have houtcome {house : AuctionHouse} {store : WriteSet} (hrep : Represents E.libc house store)
        (hopens : Opens E store (assignAll state updates)) :=
      hheld.outcome_now hop hE hgcm hc hseen hknown (hopens.recordIs hrep hn hmr) txFilter txNum
    by_cases haccepted : (planEnvelope state number txFilter updates (e, txNum)).accepted = true
    · refine hL.answered (x := x) (hadm x op rfl hop) ?_ ?_ ?_
      · rw [Turn.answered, if_pos haccepted, Option.bind_some, hop, Option.map_some]
      · intro house store hrep hopens
        rcases houtcome hrep hopens with hreject | ⟨hflag, -, -⟩
        · rw [hreject] at haccepted
          cases haccepted
        refine Endorsement.response_eq hrep hheld hop hE hgcm hflag (fun hclosed key hkey => ?_)
        -- a closed auction has not changed since it was seen
        have hsame := hS.settled x.seen hseen op.auctionName hn hmr (hclosed ▸ hflag) _ (ofAuction_bids hkey)
        exact (hopens.bid _ hn hmr key hkey).congr hsame.symm
      · intro house store hrep hopens
        rcases houtcome hrep hopens with hreject | ⟨-, hnone, iv, hiv, hplan⟩
        · rw [hreject] at haccepted
          cases haccepted
        rw [hplan]
        apply hopens.turn hplain hiv
        cases op with
        | submit name bidder value => exact hfree x name bidder value rfl hop
        | create name => exact hnone
        | close name => exact hnone
        | eval name => exact hnone
    · obtain ⟨store, hrep, hopens⟩ := hL.holds
      rcases houtcome hrep hopens with hreject | ⟨-, -, iv, -, hplan⟩
      · rw [hreject]
        refine hL.idle (if_neg Bool.false_ne_true) (fun name _ _ k _ => overlay_turn_of_ne ?_)
        exact fun p hp => absurd hp List.not_mem_nil
      · rw [hplan] at haccepted
        exact absurd rfl haccepted

/-- A bid that an envelope writes is the bid that it was endorsed for. -/
theorem Legitimate.bid_of_write {note : Option (Endorsement η τ σ)} (h : Legitimate F E past number e note)
    (hgcm : E.gcm.RoundTrip) (hS : Sound F E past o ts) {name bidder : Bytes} (hn : PlainWord name)
    (hb : PlainWord bidder) {p : Bytes × Bytes}
    (hp : p ∈ (planEnvelope state number txFilter updates (e, txNum)).writes)
    (hkey : p.1 = str "ecc" ++ sgxKey (bidKey name bidder)) :
    ∃ x value, note = some x ∧ x.invocation.operation = some (.submit name bidder value) := by
  cases h with
  | foreign hforeign =>
    obtain ⟨tx, htx, a, ha, hpa⟩ := mem_planEnvelope_writes hp
    have hpre : str "ecc." <+: p.1 := by rw [hkey]; exact ⟨closed sep (bidKey name bidder), rfl⟩
    have hmr : PlainWord (str "MRENCLAVE") := ⟨by decide, by decide, by decide +kernel⟩
    exact absurd ((hforeign tx htx a ha p hpa hpre).1.symm.trans hkey) (recordName_ne_composite hmr _)
  | @endorsed x hseen hE hheld =>
    obtain ⟨op, hop, hplain, hmr⟩ := hheld.operation
    have hname := hplain _ op.auctionName_mem
    obtain ⟨flag, hflag⟩ := hS.known x.seen hseen op.auctionName hname hmr
    rcases hheld.outcome hop hE hgcm hflag state updates txFilter txNum with hreject | ⟨-, iv, -, hplan⟩
    · rw [hreject] at hp
      exact absurd hp List.not_mem_nil
    rw [hplan] at hp
    rcases op.stored_cases E iv flag with hstored | ⟨key, val, hput, hstored⟩
    · rw [hstored] at hp
      exact absurd hp List.not_mem_nil
    rw [hstored, List.mem_singleton] at hp
    rw [hp] at hkey
    cases op with
    | submit name' bidder' value =>
      have hwords := sgxKey_injective
        (plainWord_bidKey (hplain name' (by simp [Operation.names])) (hplain bidder' (by simp [Operation.names])))
        (plainWord_bidKey hn hb) (List.append_cancel_left hkey)
      cases hwords
      exact ⟨x, value, rfl, hop⟩
    | create name' => exact absurd hkey (recordName_ne_composite hname _)
    | close name' => exact absurd hkey (recordName_ne_composite hname _)
    | eval name' => exact absurd hkey (recordName_ne_composite hname _)

end

/-- What also speaks of the envelopes that are still to come, and is kept at every turn, holds behind
the envelopes. -/
theorem envelopeTurns_invariant_rest {ι : Type} {number : ℕ} {txFilter : Bytes} {note : ℕ → Option ι}
    {P : Kvs → List (Turn ι) → List (Encoded Envelope × ℕ) → Prop} {es : List (Encoded Envelope × ℕ)}
    (hstep : ∀ e rest updates ts, e :: rest <:+ es → P updates ts (e :: rest) →
      P (insertAll updates (stamp ⟨number, e.2⟩ (planEnvelope state number txFilter updates e).writes))
        (ts ++ [⟨note e.2, assignAll state updates, planEnvelope state number txFilter updates e⟩]) rest)
    {updates : Kvs} {ts : List (Turn ι)} (h : P updates ts es) :
    P (insertAll updates (entries number (planBlock state number txFilter updates es)))
      (ts ++ envelopeTurns state number txFilter note updates es) [] := by
  induction es generalizing updates ts with
  | nil => simpa [envelopeTurns, planBlock, entries, insertAll] using h
  | cons e es ih =>
    have hnext := ih (fun e' rest updates ts hsuffix => hstep e' rest updates ts (hsuffix.trans (List.suffix_cons e es)))
      (hstep e es updates ts List.suffix_rfl h)
    rw [planBlock, entries_cons, insertAll_append, envelopeTurns]
    rwa [List.append_assoc, List.singleton_append] at hnext

/-- A block has at most one bid of each bidder for an auction. -/
def SingleBids (b : OrderedBlock (Endorsement η τ σ)) : Prop :=
  ∀ i j x y name bidder value value', b.note i = some x → b.note j = some y →
    x.invocation.operation = some (.submit name bidder value) →
    y.invocation.operation = some (.submit name bidder value') → i = j

/-- A committed block, turn by turn. -/
theorem InStep.block {past : Kvs → Prop} {L L' : Ledger} {b : OrderedBlock (Endorsement η τ σ)} {block : Block}
    {txFilter : Bytes} {ts' : List (Turn (Endorsement η τ σ))} (hgcm : E.gcm.RoundTrip)
    (hcommits : Commits L block txFilter L') (hfollows : ∀ s, past s → Follows s L.state)
    (hbelow : ∀ k v, versionOf L.state k = some v → v.blockNum < block.number)
    (hgenesis : block.number = 0 → ∀ e ∈ block.data, envelopeTx 0 e = none)
    (hlegitimate : ∀ p ∈ block.data.zipIdx, Legitimate F E past block.number p.1 (b.note p.2))
    (hadm : ∀ i x op, b.note i = some x → x.invocation.operation = some op → op.Admissible E.libc)
    (hbids : SingleBids b) (hS : Sound F E past L.state ts') (hL : InStep E F L.state ts) :
    InStep E F L'.state (ts ++ envelopeTurns L.state block.number txFilter b.note ∅ block.data.zipIdx) := by
  have hinv := @envelopeTurns_invariant_rest L.state _ block.number txFilter b.note
    (fun updates ts rest => Pending block.number updates ∧ (∃ ts', Sound F E past (assignAll L.state updates) ts') ∧
      InStep E F (assignAll L.state updates) ts ∧
      ∀ p ∈ rest, ∀ x name bidder value, b.note p.2 = some x →
        x.invocation.operation = some (.submit name bidder value) →
          updates[(Operation.submit name bidder value).ledgerName]? = none)
    block.data.zipIdx ?_ ∅ ts
    ⟨pending_empty _, ⟨ts', (assignAll_empty L.state).symm ▸ hS⟩, (assignAll_empty L.state).symm ▸ hL,
      fun _ _ _ _ _ _ _ _ => ExtTreeMap.getElem?_empty⟩
  · rw [hcommits.state_eq]
    exact hinv.2.2.1
  · rintro ⟨e, txNum⟩ rest updates ts hsuffix ⟨hpending, ⟨ts', hS'⟩, hL', hfree⟩
    have hhere : (e, txNum) ∈ block.data.zipIdx := hsuffix.subset List.mem_cons_self
    have hcontext : TurnContext past L.state block.number updates := ⟨hfollows, hbelow, hpending⟩
    refine ⟨hpending.insertAll (fun hne => ?_), ⟨_, hS'.turn hgcm hcontext (hlegitimate _ hhere)⟩,
      hL'.turn hgcm hcontext (hlegitimate _ hhere) hS' (fun x op => hadm txNum x op)
        (fun x name bidder value hx hop => hfree _ List.mem_cons_self x name bidder value hx hop), ?_⟩
    · -- there are no transactions in the genesis block
      by_contra hzero
      obtain ⟨p, hp⟩ := List.exists_mem_of_ne_nil _ hne
      obtain ⟨tx, htx, -⟩ := mem_planEnvelope_writes hp
      have hnum : block.number = 0 := by omega
      rw [hnum, hgenesis hnum e (List.fst_mem_of_mem_zipIdx hhere)] at htx
      cases htx
    · -- the bids that are still to come are by others
      intro p hp x name bidder value hx hop
      have hfar : (e, txNum).2 ≠ p.2 := by
        have hnodup : (block.data.zipIdx.map Prod.snd).Nodup := by
          rw [List.zipIdx_map_snd]
          exact List.nodup_range'
        have hrest := (hsuffix.sublist.map Prod.snd).nodup hnodup
        rw [List.map_cons, List.nodup_cons] at hrest
        exact fun heq => hrest.1 (List.mem_map.mpr ⟨p, hp, heq.symm⟩)
      have hlater := hlegitimate p (hsuffix.subset (List.mem_cons_of_mem _ hp))
      rw [hx] at hlater
      cases hlater with
      | endorsed hseen hE hheld =>
        obtain ⟨op, hop', hplain, -⟩ := hheld.operation
        cases hop.symm.trans hop'
        rw [getElem?_insertAll, hfree p (List.mem_cons_of_mem _ hp) x name bidder value hx hop, Option.none_or,
          List.lookup_eq_none_iff]
        intro q hq
        obtain ⟨w, hw, rfl⟩ := List.mem_map.mp hq
        rw [bne_iff_ne]
        intro heq
        obtain ⟨y, value', hy, hopy⟩ := (hlegitimate _ hhere).bid_of_write hgcm hS' (hplain name (by simp [Operation.names]))
          (hplain bidder (by simp [Operation.names])) hw heq.symm
        exact hfar (hbids _ _ y x name bidder value' value hy hx hopy hop)

theorem inStep_start : InStep E F start.state [] := by
  refine ⟨⟨∅, represents_start (fun key val h => ?_), opens_empty E⟩, rfl⟩
  rw [ExtTreeMap.getElem?_empty] at h
  cases h

/-- Run lemma. -/
theorem run_inStep {libs : Libs} {blocks : List (OrderedBlock (Endorsement η τ σ))} {L : Ledger}
    {codes : List RetCode} (hgcm : E.gcm.RoundTrip)
    (h : run libs (blocks.map OrderedBlock.blockData) = some (L, codes))
    (hplace : InPlaceRun libs (blocks.map OrderedBlock.blockData))
    (hgenesis : GenesisConfigOnly (blocks.map OrderedBlock.blockData)) (hrun : AuctionRun F E libs blocks)
    (hadm : ∀ b ∈ blocks, ∀ i x op, b.note i = some x → x.invocation.operation = some op → op.Admissible E.libc)
    (hbids : ∀ b ∈ blocks, SingleBids b) : InStep E F L.state (turns libs start blocks) := by
  refine turns_invariant libs (P := fun bs L ts => InPlaceRun libs (bs.map OrderedBlock.blockData) →
    GenesisConfigOnly (bs.map OrderedBlock.blockData) → AuctionRun F E libs bs →
    (∀ b ∈ bs, ∀ i x op, b.note i = some x → x.invocation.operation = some op → op.Admissible E.libc) →
    (∀ b ∈ bs, SingleBids b) → InStep E F L.state ts)
    ?_ ?_ ?_ h hplace hgenesis hrun hadm hbids
  · intro _ _ _ _ _
    exact inStep_start
  · intro bs b L codes L' block txFilter ts hL ih hb hcommits hL' hplace hgenesis hrun hadm hbids
    have hlegitimate := hrun bs b [] rfl block hb
    rw [List.map_append, List.map_singleton] at hplace hgenesis
    rw [List.forall_mem_append, List.forall_mem_singleton] at hadm hbids
    obtain ⟨hfollows, hS⟩ := run_sound hgcm hL hplace.init hgenesis.init hrun.init
    have hnumber := number_eq_of_inPlace hb hcommits (run_sequenceNumber hL) (hplace.last hL)
    have hbelow : ∀ k v, versionOf L.state k = some v → v.blockNum < block.number := by
      rw [hnumber]
      exact (run_chainInv hL hplace.init).below
    have hempty : block.number = 0 → ∀ e ∈ block.data, envelopeTx 0 e = none :=
      fun hzero => hgenesis b.blockData (List.mem_append_right _ List.mem_cons_self) block hb hzero
    have hlast := ih hplace.init hgenesis.init hrun.init hadm.1 hbids.1
    exact hlast.block hgcm hcommits hfollows hbelow hempty hlegitimate hadm.2 hbids.2 hS
  · intro bs b L codes L' code ts hL ih hstate hL' hplace hgenesis hrun hadm hbids
    rw [List.map_append, List.map_singleton] at hplace hgenesis
    rw [List.forall_mem_append] at hadm hbids
    rw [hstate]
    exact ih hplace.init hgenesis.init hrun.init hadm.1 hbids.1

variable (F) in
/-- The auctions are linearised. Operations are simulated by different enclaves on whatever
committed states, and some of their transactions are rejected. The ones that are accepted have returned to
their clients what the abstract auction answers if it is given these operations alone, in commit
order, and the ledger ends with the auctions that the abstract auction ends with. This needs that a
block has no two bids of one bidder for one auction: of these the ledger keeps the first. -/
theorem auctions_linearised (libs : Libs) (blocks : List (OrderedBlock (Endorsement η τ σ))) (L : Ledger)
    (codes : List RetCode) (hgcm : E.gcm.RoundTrip)
    (h : run libs (blocks.map OrderedBlock.blockData) = some (L, codes))
    (hnum : ∀ b ∈ blocks, ∀ block, b.blockData.decoded = some block → block.number < 2^32)
    (hgenesis : GenesisConfigOnly (blocks.map OrderedBlock.blockData)) (hrun : AuctionRun F E libs blocks)
    (hround : (chain (blocks.map OrderedBlock.blockData) codes).length < 2^32)
    (hadm : ∀ b ∈ blocks, ∀ i x op, b.note i = some x → x.invocation.operation = some op → op.Admissible E.libc)
    (hbids : ∀ b ∈ blocks, SingleBids b) :
    (transcript F (turns libs start blocks)).map Prod.snd =
        (AuctionHouse.responses (fun _ => none) (committedOps F (turns libs start blocks))).map
          (fun r => some (some (r.text E.libc))) ∧
      ∃ store, Opens E store L.state ∧
        Represents E.libc (AuctionHouse.after (fun _ => none) (committedOps F (turns libs start blocks))) store := by
  have hplace := inPlaceRun_of_numbers_lt h (List.forall_mem_map.mpr hnum) hround
  have hL := run_inStep hgcm h hplace hgenesis hrun hadm hbids
  obtain ⟨store, hrep, hopens⟩ := hL.holds
  exact ⟨hL.answers, store, hopens, hrep⟩

end

/-! The run in which the auction `a` is created and closed. -/

theorem committedOps_append {η τ σ : Type} (F : KeyRule) (ts ts' : List (Turn (Endorsement η τ σ))) :
    committedOps F (ts ++ ts') = committedOps F ts ++ committedOps F ts' := by
  rw [committedOps, transcript, List.filterMap_append, List.map_append]
  rfl

/-- A block with a transaction that is accepted. -/
theorem committedOps_auctionBlock {L L' : Ledger} {number : ℕ} {x : Endorsement Bytes Bool Unit} {op : Operation}
    {e : Encoded Envelope} {p : Bytes × Bytes} (hfiled : Filed x op e)
    (hparse : parseBlock parsonLibs L (wrapBlock number [0] [e]) = some (L', .success))
    (hplan : planEnvelope L.state number [0] ∅ (e, 0) = ⟨[p], true⟩) :
    committedOps nulFree (turns parsonLibs L [auctionBlock number x e]) = [op] := by
  have hm : blockMetadata (plainBlock number [0] [e]) = .ok [0] := blockMetadata_plainBlock number (List.cons_ne_nil _ _) (Nat.le_refl 1)
  have hdecoded : (auctionBlock number x e).blockData.decoded = some (plainBlock number [0] [e]) := rfl
  have hturns : turns parsonLibs L [auctionBlock number x e] = [⟨some x, assignAll L.state ∅, ⟨[p], true⟩⟩] := by
    rw [turns_singleton parsonLibs hparse, if_pos rfl, ← hplan, blockTurns, hdecoded]
    simp only [hm]
    rfl
  have hanswered : Turn.answered nulFree ⟨some x, assignAll L.state ∅, ⟨[p], true⟩⟩ = some (op, (x.simulated nulFree).1) := by
    rw [Turn.answered, if_pos rfl, Option.bind_some, hfiled.operation, Option.map_some]
  rw [hturns, committedOps, transcript, List.filterMap_cons_some hanswered, List.filterMap_nil, List.map_singleton]

theorem committedOps_closingBlocks : committedOps nulFree (turns parsonLibs start closingBlocks) =
    [.create (str "a"), .close (str "a")] := by
  have hquiet : committedOps nulFree (turns parsonLibs start [quietBlock 0, quietBlock 1]) = [] := by
    have hblocks : ∀ b ∈ [quietBlock 0, quietBlock 1], Quiet b :=
      List.forall_mem_cons.mpr ⟨quiet_quietBlock 0, List.forall_mem_singleton.mpr (quiet_quietBlock 1)⟩
    rw [committedOps, transcript, List.filterMap_eq_nil_iff.mpr (fun t ht => ?_), List.map_nil]
    rw [Turn.answered, outcome_of_quiet parsonLibs hblocks ht, if_neg Bool.false_ne_true]
  have hfresh : fresh ({ start with sequenceNumber := 1 } : Ledger).state ∅ (str "ecc.a", Version.zero) = true := by
    decide +kernel
  have hclosing : committedOps nulFree (turns parsonLibs afterCreation [auctionBlock 3 closing closingTx]) =
      [.close (str "a")] :=
    committedOps_auctionBlock filed_closing (parse_closing rfl rfl rfl) (plan_closing rfl 3)
  rw [closingBlocks, turns_append parsonLibs run_creationBlocks, creationBlocks,
    turns_append parsonLibs exec_firstBlocks_quiet, committedOps_append, committedOps_append, hquiet, List.nil_append,
    hclosing, committedOps_auctionBlock filed_creation parse_creation
      (planEnvelope_auctionTx (by decide) (by decide +kernel) (eccName_record plainWord_a) hfresh)]
  rfl

theorem note_closingBlocks {b : OrderedBlock (Endorsement Bytes Bool Unit)} (h : b ∈ closingBlocks) {i : ℕ}
    {x : Endorsement Bytes Bool Unit} {op : Operation} (hx : b.note i = some x) (hop : x.invocation.operation = some op) :
    op = .create (str "a") ∨ op = .close (str "a") := by
  simp only [closingBlocks, creationBlocks, List.cons_append, List.nil_append, List.mem_cons, List.not_mem_nil,
    or_false] at h
  rcases h with rfl | rfl | rfl | rfl <;> cases hx
  · exact Or.inl (Option.some.inj (hop.symm.trans filed_creation.operation))
  · exact Or.inr (Option.some.inj (hop.symm.trans filed_closing.operation))

theorem admissible_closingBlocks {op : Operation} (h : op = .create (str "a") ∨ op = .close (str "a")) :
    op.Admissible signedLibc := by
  have hread (isOpen : Bool) (rest : Bytes) : unmarshalAuction signedLibc
      (marshalAuction signedLibc ⟨str "a", isOpen⟩ ++ 0 :: rest) = some ⟨str "a", isOpen⟩ :=
    unmarshalAuction_marshalAuction (by decide) (by decide) isOpen (0 :: rest)
  have hfits (isOpen : Bool) :
      sealedLength (marshalAuction signedLibc ⟨str "a", isOpen⟩).length < maxValueSize.toNat := by
    cases isOpen <;> decide +kernel
  rcases h with rfl | rfl
  · exact ⟨List.forall_mem_singleton.mpr plainWord_a, by decide, hread, hfits, by simp, by simp, by simp⟩
  · exact ⟨List.forall_mem_singleton.mpr plainWord_a, by decide, hread, hfits, by simp, by simp, by simp⟩

theorem auctions_linearised_created_closed :
    committedOps nulFree (turns parsonLibs start closingBlocks) = [.create (str "a"), .close (str "a")] ∧
      (transcript nulFree (turns parsonLibs start closingBlocks)).map Prod.snd =
        [some (some (str "OK")), some (some (str "OK"))] := by
  refine ⟨committedOps_closingBlocks, ?_⟩
  have h := auctions_linearised nulFree parsonLibs closingBlocks _ _ roundTrip_plainGcm run_closingBlocks
    (fun b hb block hblock => (mem_closingBlocks hb hblock).1)
    (genesisConfigOnly_of_data (fun b hb block hblock => (mem_closingBlocks hb hblock).2)) auctionRun_closingBlocks
    (by decide) (fun b hb i x op hx hop => admissible_closingBlocks (note_closingBlocks hb hx hop))
    (fun b hb i j x y name bidder value value' hx _ hop _ => by
      rcases note_closingBlocks hb hx hop with heq | heq <;> cases heq)
  rw [h.1, committedOps_closingBlocks]
  rfl

end SecureChaincode
