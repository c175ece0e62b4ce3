import SecureChaincode.SerialRuns

/-! What invocations for one auction have to do with those for another. -/
namespace SecureChaincode

open Std

/-- The keys of Fabric for an auction: that of its record, and those of its bids. -/
def Belongs (auctionName k : Bytes) : Prop :=
  k = auctionName ∨ fabricKey [str "somePrefix", auctionName] <+: k

/-- Two world states in which an auction is the same. -/
def SameAuction (auctionName : Bytes) (w w' : Kvs) : Prop :=
  ∀ k, Belongs auctionName k → w[k]? = w'[k]?

theorem getStateByPartialKey_congr {w w' : Kvs} {start : Bytes}
    (h : ∀ k, start <+: k → w[k]? = w'[k]?) :
    getStateByPartialKey w start = getStateByPartialKey w' start := by
  have hsorted (v : Kvs) : (v.toList.filter (fun e => start.isPrefixOf e.1)).Pairwise
      (fun a b => compare a.1 b.1 = .lt) := (ExtTreeMap.ordered_keys_toList).filter _
  have hentries : w.toList.filter (fun e => start.isPrefixOf e.1) =
      w'.toList.filter (fun e => start.isPrefixOf e.1) := by
    apply eq_of_sorted_of_mem_iff Prod.fst (hsorted w) (hsorted w')
    rintro ⟨k, x⟩
    rw [List.mem_filter, List.mem_filter, ExtTreeMap.mem_toList_iff_getElem?_eq_some,
      ExtTreeMap.mem_toList_iff_getElem?_eq_some]
    apply and_congr_left
    intro hpre
    rw [h k (List.isPrefixOf_iff_prefix.mp hpre)]
  rw [getStateByPartialKey, hentries]
  rfl

section
variable {F : KeyRule} {auctionName : Bytes}

/-- A put for one auction does not touch another one. -/
theorem CallOf.not_belongs {a b key val keyStr : Bytes} (hc : CallOf a (.putState key val)) (hab : a ≠ b)
    (ha : sep ∉ a) (hanul : (0 : UInt8) ∉ a) (hbnul : (0 : UInt8) ∉ b) (hkey : goKey F (cstr key) = some keyStr)
    (hne : keyStr ≠ []) : ¬Belongs b keyStr := by
  cases hc with
  | putAuction =>
    rw [cstr_eq_self hanul, goKey_of_no_dot ha] at hkey
    cases hkey
    rintro (rfl | hpre)
    · exact hab rfl
    · exact hanul (hpre.subset List.mem_cons_self)
  | putBid hb =>
    rw [cstr_eq_self (zero_notMem_bid_key hanul hb)] at hkey
    obtain ⟨ws, hws, rfl⟩ := goKey_bid ha hkey hne
    rintro (rfl | hpre)
    · exact hbnul List.mem_cons_self
    · have hword : (0 : UInt8) ∉ str "somePrefix" := by decide
      have hwords := (delimited_prefix_iff
        (List.forall_mem_cons.mpr ⟨hword, List.forall_mem_singleton.mpr hbnul⟩)
        (List.forall_mem_cons.mpr ⟨hword, List.forall_mem_cons.mpr ⟨hanul, hws⟩⟩)).mp hpre
      rw [List.cons_prefix_cons, List.cons_prefix_cons] at hwords
      exact hab hwords.2.1.symm

/-- For the calls on an auction the peer answers from what belongs to it. -/
theorem CallOf.shimStep_congr {η τ σ : Type} {E : Enclave η τ σ} {verifyTag : Bytes → Bool → τ} {w w' : Kvs}
    (hsame : SameAuction auctionName w w') (hdot : sep ∉ auctionName) (hnul : (0 : UInt8) ∉ auctionName)
    (s : Session τ) {c : Call} (hc : CallOf auctionName c) :
    shimStep E (goHost F w verifyTag) s c = shimStep E (goHost F w' verifyTag) s c := by
  cases hc with
  | getAuction =>
    have hreply (trace : List (Event τ)) :
        (goHost F w verifyTag).getState trace (cstr auctionName) maxValueSize =
          (goHost F w' verifyTag).getState trace (cstr auctionName) maxValueSize := by
      rw [cstr_eq_self hnul, goHost_getState F w verifyTag trace maxValueSize (goKey_of_no_dot hdot),
        goHost_getState F w' verifyTag trace maxValueSize (goKey_of_no_dot hdot),
        hsame auctionName (Or.inl rfl)]
    rw [shimStep, shimStep, hreply]
  | putAuction val => rfl
  | putBid hb val => rfl
  | getBids =>
    have hdots : ∀ w ∈ [str "somePrefix", auctionName], sep ∉ w :=
      List.forall_mem_cons.mpr ⟨by decide, List.forall_mem_singleton.mpr hdot⟩
    have hkey : cstr (bidPrefix ++ auctionName ++ str ".") = sgxKey [str "somePrefix", auctionName] := by
      rw [sgxKey_bids]
      apply cstr_eq_self
      simp only [List.mem_append, not_or]
      exact ⟨⟨by decide, hnul⟩, by decide⟩
    have hrange : goRange F w (sgxKey [str "somePrefix", auctionName]) =
        goRange F w' (sgxKey [str "somePrefix", auctionName]) := by
      rw [goRange, goRange, splitSGXCompositeKey_sgxKey hdots]
      dsimp only [createCompositeKey]
      split_ifs
      · rw [Option.map_some, Option.map_some, getStateByPartialKey_congr (fun k hk => hsame k (Or.inr hk))]
      · rfl
    have hreply (trace : List (Event τ)) :
        (goHost F w verifyTag).getStateByPartialCompositeKey trace (cstr (bidPrefix ++ auctionName ++ str ".")) =
          (goHost F w' verifyTag).getStateByPartialCompositeKey trace (cstr (bidPrefix ++ auctionName ++ str ".")) := by
      rw [goHost, goHost, hkey]
      dsimp only
      rw [hrange]
    rw [shimStep, shimStep, hreply]

end

section
variable {η τ σ : Type} {F : KeyRule}

/-- An invocation for another auction leaves an auction as it is. -/
theorem Invocation.sameAuction_of_other {i : Invocation η τ σ} {a b : Bytes} (worldState : Kvs)
    (hi : i.auction = some a) (hab : a ≠ b) (ha : sep ∉ a) (hb : (0 : UInt8) ∉ b) :
    SameAuction b (i.commit F worldState) worldState := by
  intro k hk
  rcases i.commit_cases worldState (F := F) with ⟨hsame, -⟩ |
    ⟨op, auctionBytes, len, key, val, keyStr, hop, hnul, hplan, -, hkey, hne, hcommit⟩
  · rw [hsame]
  · obtain rfl : op.auctionName = a := by
      rw [auction, hop] at hi
      exact Option.some.inj hi
    rw [hcommit k, if_neg]
    rintro rfl
    exact (op.plan_put_callOf hplan hnul).not_belongs hab ha (hnul _ op.auctionName_mem) hb hkey hne hk

/-- An invocation for an auction runs alike on world states in which the auction is the same. -/
theorem Invocation.simulated_congr {i : Invocation η τ σ} {b : Bytes} {w w' : Kvs} (hi : i.auction = some b)
    (hdot : sep ∉ b) (hsame : SameAuction b w w') : i.simulated F w = i.simulated F w' := by
  rcases i.simulated_cases w (F := F) with ⟨text, op, hread, hop, hsim⟩ | ⟨hnone, -⟩
  · obtain rfl : op.auctionName = b := by
      rw [auction, hop] at hi
      exact Option.some.inj hi
    rw [hsim, hsim]
    have hnul := readOperation_no_nul hread _ op.auctionName_mem
    exact Program.run_congr (fun s c hc => hc.shimStep_congr hsame hdot hnul s)
      (auctionInvoke_within i.uninit i.responseLenIn hread) freshSession
  · rw [auction, hnone] at hi
    cases hi

theorem Invocation.sameAuction_commit {i : Invocation η τ σ} {b : Bytes} {w w' : Kvs}
    (hsim : i.simulated F w = i.simulated F w') (hsame : SameAuction b w w') :
    SameAuction b (i.commit F w) (i.commit F w') := by
  intro k hk
  rw [commit, commit, hsim]
  split
  · rw [getElem?_commitWrites, getElem?_commitWrites, hsame k hk]
  · exact hsame k hk

/-- The names of auctions in a run have no dot. -/
def DotFree (is : List (Invocation η τ σ)) : Prop := ∀ i ∈ is, ∀ name, i.auction = some name → sep ∉ name

/-- What the invocations for an auction return depends on this auction only. -/
theorem responsesTo_congr {b : Bytes} {is : List (Invocation η τ σ)} (hdots : DotFree is) {w w' : Kvs}
    (hb : (0 : UInt8) ∉ b) (hsame : SameAuction b w w') :
    responsesTo F b w is = responsesTo F b w' is := by
  induction is generalizing w w' with
  | nil => rfl
  | cons i is ih =>
    obtain ⟨hi, his⟩ := List.forall_mem_cons.mp hdots
    rw [responsesTo, responsesTo]
    by_cases hto : i.auction = some b
    · have hsim := i.simulated_congr (F := F) hto (hi b hto) hsame
      rw [if_pos hto, if_pos hto, hsim, ih his (i.sameAuction_commit hsim hsame)]
    · rw [if_neg hto, if_neg hto]
      refine congrArg ([] ++ ·) (ih his ?_)
      cases hother : i.auction with
      | none => rwa [i.commit_of_none w hother, i.commit_of_none w' hother]
      | some a =>
        have hab : a ≠ b := fun he => hto (he ▸ hother)
        intro k hk
        rw [i.sameAuction_of_other w hother hab (hi a hother) hb k hk, hsame k hk,
          i.sameAuction_of_other w' hother hab (hi a hother) hb k hk]

/-- An invocation for one auction does not change what later ones for another return. -/
theorem responsesTo_without {a b : Bytes} {o : Invocation η τ σ} {pre post : List (Invocation η τ σ)}
    (worldState : Kvs) (hab : a ≠ b) (ho : o.auction = some a) (hdots : DotFree (pre ++ o :: post)) :
    responsesTo F b worldState (pre ++ o :: post) = responsesTo F b worldState (pre ++ post) := by
  have hto : ¬o.auction = some b := by
    rw [ho]
    exact fun he => hab (Option.some.inj he)
  rw [responsesTo_append, responsesTo_append, responsesTo, if_neg hto, List.nil_append]
  congr 1
  have hpost : DotFree post :=
    fun i hi => hdots i (List.mem_append_right pre (List.mem_cons_of_mem o hi))
  by_cases hb : (0 : UInt8) ∈ b
  · -- such a name reaches no invocation
    have hnone : ∀ (w : Kvs) (is : List (Invocation η τ σ)), responsesTo F b w is = [] := by
      intro w is
      induction is generalizing w with
      | nil => rfl
      | cons i is ih => rw [responsesTo, if_neg (fun hi => i.no_nul_of_auction hi hb), ih, List.append_nil]
    rw [hnone, hnone]
  · have ha := hdots o (List.mem_append_right pre List.mem_cons_self) a ho
    exact responsesTo_congr hpost hb (o.sameAuction_of_other _ ho hab ha hb)

end

/-! The bids that `auction_eval` goes over. -/

section
variable {η τ σ : Type} (F : KeyRule)

/-- The bid that an invocation adds to an auction, with the record that it stores. -/
def Invocation.bid (worldState : Kvs) (auctionName : Bytes) (i : Invocation η τ σ) : Option (Bytes × Bytes) :=
  match i.operation with
  | some (.submit name bidderName value) =>
    if name = auctionName ∧ (i.simulated F worldState).1 = some (some (str "OK")) then
      some (bidderName, base64Encode (encryptState i.enclave 1 (marshalBid i.enclave.libc ⟨bidderName, value⟩)))
    else none
  | _ => none

/-- The bids that were submitted to an auction, in their order. -/
def bidsTo (auctionName : Bytes) : Kvs → List (Invocation η τ σ) → List (Bytes × Bytes)
  | _, [] => []
  | worldState, i :: is =>
    (i.bid F worldState auctionName).toList ++ bidsTo auctionName (i.commit F worldState) is

/-- The pairs that `auction_eval` finds, before they are decrypted; `none` if the query does not
return. -/
def consideredBids (E : Enclave η τ σ) (verifyTag : Bytes → Bool → τ) (worldState : Kvs) (auctionName : Bytes) :
    Option WriteSet :=
  ((goHost F worldState verifyTag).getStateByPartialCompositeKey [] (cstr (bidPrefix ++ auctionName ++ str "."))).bind
    (receivedValues E ∅)

variable {F}

theorem Invocation.bid_eq_some {i : Invocation η τ σ} {worldState : Kvs} {b : Bytes} {p : Bytes × Bytes}
    (h : i.bid F worldState b = some p) :
    ∃ value, i.operation = some (.submit b p.1 value) ∧ (i.simulated F worldState).1 = some (some (str "OK")) ∧
      p.2 = base64Encode (encryptState i.enclave 1 (marshalBid i.enclave.libc ⟨p.1, value⟩)) := by
  rw [bid] at h
  split at h
  · rename_i name bidderName value hop
    split_ifs at h with hok
    obtain ⟨rfl, hok⟩ := hok
    cases h
    exact ⟨value, hop, hok, rfl⟩
  · cases h

theorem Invocation.bid_of_submit {i : Invocation η τ σ} {worldState : Kvs} {name bidderName : Bytes} {value : ℤ}
    (hop : i.operation = some (.submit name bidderName value))
    (hok : (i.simulated F worldState).1 = some (some (str "OK"))) (b : Bytes) :
    i.bid F worldState b =
      if name = b then
        some (bidderName, base64Encode (encryptState i.enclave 1 (marshalBid i.enclave.libc ⟨bidderName, value⟩)))
      else none := by
  rw [bid, hop]
  dsimp only
  simp only [hok, and_true]

section
variable {b : Bytes} (hdot : sep ∉ b) (hnul : (0 : UInt8) ∉ b)
include hdot hnul

/-- The key of a bid is changed by a bid of the same bidder. -/
theorem Invocation.commit_bid {i : Invocation η τ σ} (hi : ∀ name, i.auction = some name → sep ∉ name)
    (worldState : Kvs) {bidder k : Bytes} (hbidder : (0 : UInt8) ∉ bidder)
    (hk : goKey F (bidPrefix ++ b ++ str "." ++ bidder ++ str ".") = some k) (hne : k ≠ []) :
    (i.commit F worldState)[k]?.map Prod.fst =
      ((i.bid F worldState b).toList.lookup bidder).or (worldState[k]?.map Prod.fst) := by
  have hback := transformToSGX_goKey (zero_notMem_bid_key hnul hbidder) hk (fun _ => hne)
  rcases i.commit_cases worldState (F := F) with ⟨hsame, hrefused⟩ |
    ⟨op, auctionBytes, len, key, val, keyStr, hop, hnames, hplan, hok, hkey, hne', hcommit⟩
  · have hnone : i.bid F worldState b = none := by
      cases hbid : i.bid F worldState b with
      | none => rfl
      | some p =>
        obtain ⟨value, hsubmit, hok, -⟩ := i.bid_eq_some hbid
        exact absurd hok (hrefused _ _ _ hsubmit)
    rw [hsame, hnone]
    rfl
  · have hback' := transformToSGX_goKey (zero_notMem_cstr key) hkey (fun _ => hne')
    have hname : i.auction = some op.auctionName := by rw [auction, hop]; rfl
    have hnamenul := hnames _ op.auctionName_mem
    -- the record of an auction has a key without a dot
    have hrecord (hkeyname : key = op.auctionName) : k ≠ keyStr := by
      rintro rfl
      rw [hback, hkeyname, cstr_eq_self hnamenul] at hback'
      apply hi _ hname
      rw [← hback']
      exact List.mem_append_right _ List.mem_cons_self
    have hbid (h : ∀ name bidderName value, op ≠ .submit name bidderName value) :
        i.bid F worldState b = none := by
      rw [bid, hop]
      cases op with
      | submit name bidderName value => exact absurd rfl (h name bidderName value)
      | _ => rfl
    rw [hcommit k]
    rcases op.plan_put hplan with ⟨rfl, -, -⟩ | ⟨-, theAuction, -, -, ⟨name, bidder', value, rfl, rfl, rfl⟩ | ⟨rfl, -⟩⟩
    · rw [if_neg (hrecord rfl), hbid (fun _ _ _ he => by cases he)]
      rfl
    · have hbidder' := hnames bidder' (List.mem_cons_of_mem _ List.mem_cons_self)
      have hname' : (0 : UInt8) ∉ name := hnamenul
      rw [cstr_eq_self (zero_notMem_bid_key hname' hbidder')] at hback' hkey
      rw [i.bid_of_submit hop hok b]
      by_cases hsame : name = b
      · subst hsame
        rw [if_pos rfl, Option.toList_some, List.lookup_cons]
        by_cases hb' : bidder = bidder'
        · subst hb'
          rw [hkey] at hk
          cases hk
          simp
        · have hk' : k ≠ keyStr := by
            rintro rfl
            exact hb' (bid_key_inj (hback.symm.trans hback'))
          rw [if_neg hk', beq_eq_false_iff_ne.mpr hb']
          rfl
      · have hk' : k ≠ keyStr := by
          rintro rfl
          exact hsame (bid_key_auction (hi name hname) hdot (hback'.symm.trans hback))
        rw [if_neg hk', if_neg hsame]
        rfl
    · rw [if_neg (hrecord rfl), hbid (fun _ _ _ he => by cases he)]
      rfl

theorem commitAll_bid {is : List (Invocation η τ σ)} (hdots : DotFree is) (worldState : Kvs) {bidder k : Bytes}
    (hbidder : (0 : UInt8) ∉ bidder) (hk : goKey F (bidPrefix ++ b ++ str "." ++ bidder ++ str ".") = some k)
    (hne : k ≠ []) :
    (commitAll F worldState is)[k]?.map Prod.fst =
      ((bidsTo F b worldState is).reverse.lookup bidder).or (worldState[k]?.map Prod.fst) := by
  induction is generalizing worldState with
  | nil => rfl
  | cons i is ih =>
    obtain ⟨hi, his⟩ := List.forall_mem_cons.mp hdots
    rw [commitAll, List.foldl_cons]
    have htail := ih his (i.commit F worldState)
    rw [commitAll] at htail
    rw [htail, bidsTo, List.reverse_append, List.lookup_append, Option.or_assoc]
    congr 1
    rw [i.commit_bid hdot hnul hi worldState hbidder hk hne]
    cases i.bid F worldState b <;> rfl

/-- The other keys behind the name of an auction are never written. -/
theorem commitAll_no_bid {is : List (Invocation η τ σ)} (hdots : DotFree is) (worldState : Kvs) {k : Bytes}
    (hk : fabricKey [str "somePrefix", b] <+: k)
    (hno : ∀ bidder, (0 : UInt8) ∉ bidder → goKey F (bidPrefix ++ b ++ str "." ++ bidder ++ str ".") ≠ some k) :
    (commitAll F worldState is)[k]? = worldState[k]? := by
  induction is generalizing worldState with
  | nil => rfl
  | cons i is ih =>
    obtain ⟨hi, his⟩ := List.forall_mem_cons.mp hdots
    have htail := ih his (i.commit F worldState)
    rw [commitAll, List.foldl_cons]
    rw [commitAll] at htail
    rw [htail]
    rcases i.commit_cases worldState (F := F) with ⟨hsame, -⟩ |
      ⟨op, auctionBytes, len, key, val, keyStr, hop, hnames, hplan, -, hkey, hne, hcommit⟩
    · rw [hsame]
    · rw [hcommit k, if_neg]
      rintro rfl
      have hname : i.auction = some op.auctionName := by rw [Invocation.auction, hop]; rfl
      have hcall := op.plan_put_callOf hplan hnames
      by_cases hother : op.auctionName = b
      · rw [hother] at hcall
        cases hcall with
        | putAuction =>
          rw [cstr_eq_self hnul, goKey_of_no_dot hdot] at hkey
          cases hkey
          exact hnul (hk.subset List.mem_cons_self)
        | putBid hb =>
          rw [cstr_eq_self (zero_notMem_bid_key hnul hb)] at hkey
          exact hno _ hb hkey
      · exact hcall.not_belongs hother (hi _ hname) (hnames _ op.auctionName_mem) hnul hkey hne (Or.inr hk)

omit hdot in
/-- The bids of a run are bids of its invocations, under keys that Fabric has taken. -/
theorem mem_bidsTo {is : List (Invocation η τ σ)} {worldState : Kvs} {p : Bytes × Bytes}
    (hp : p ∈ bidsTo F b worldState is) :
    (∃ i ∈ is, ∃ value, i.operation = some (.submit b p.1 value)) ∧ (0 : UInt8) ∉ p.1 ∧ PlainText p.2 ∧
      ∃ k, goKey F (bidPrefix ++ b ++ str "." ++ p.1 ++ str ".") = some k ∧ k ≠ [] := by
  induction is generalizing worldState with
  | nil => cases hp
  | cons i is ih =>
    rcases List.mem_append.mp hp with hp | hp
    · obtain ⟨value, hop, hok, hval⟩ := i.bid_eq_some (Option.mem_toList.mp hp)
      rcases i.commit_cases worldState (F := F) with ⟨-, hrefused⟩ |
        ⟨op, auctionBytes, len, key, val, keyStr, hop', hnames, hplan, -, hkey, hne, -⟩
      · exact absurd hok (hrefused _ _ _ hop)
      · rw [hop] at hop'
        cases hop'
        have hbidder := hnames p.1 (List.mem_cons_of_mem _ List.mem_cons_self)
        refine ⟨⟨i, List.mem_cons_self, value, hop⟩, hbidder, ?_, keyStr, ?_, hne⟩
        · rw [hval]
          exact plainText_of_base64 (fun c hc => mem_base64Encode hc)
        · rcases Operation.plan_put hplan with ⟨h, -⟩ | ⟨-, -, -, -, ⟨name, bidder, value', h, rfl, -⟩ | ⟨h, -⟩⟩
          · cases h
          · cases h
            rwa [cstr_eq_self (zero_notMem_bid_key hnul hbidder)] at hkey
          · cases h
    · obtain ⟨⟨j, hj, hop⟩, hrest⟩ := ih hp
      exact ⟨⟨j, List.mem_cons_of_mem i hj, hop⟩, hrest⟩

/-- What the peer sends for the bids after a run that starts without any: the last bid of every
bidder, and nothing else. -/
theorem mem_rangeItems_bids {is : List (Invocation η τ σ)} (hdots : DotFree is) {worldState : Kvs}
    (hstart : ∀ k, fabricKey [str "somePrefix", b] <+: k → worldState[k]? = none) (p : Bytes × Bytes) :
    p ∈ rangeItems (commitAll F worldState is) (fabricKey [str "somePrefix", b]) ↔
      ∃ bidder, p.1 = bidPrefix ++ b ++ str "." ++ bidder ++ str "." ∧
        (bidsTo F b worldState is).reverse.lookup bidder = some p.2 := by
  rw [mem_rangeItems]
  constructor
  · rintro ⟨k, hval, hpre, hback⟩
    -- an entry that was not there at the start is a bid
    have hbid : ∃ bidder, (0 : UInt8) ∉ bidder ∧
        goKey F (bidPrefix ++ b ++ str "." ++ bidder ++ str ".") = some k := by
      by_contra hno
      have hnone := commitAll_no_bid hdot hnul hdots worldState hpre (fun bidder hb hk => hno ⟨bidder, hb, hk⟩)
      rw [hnone, hstart k hpre] at hval
      cases hval
    obtain ⟨bidder, hb, hk⟩ := hbid
    have hne : k ≠ [] := by
      rintro rfl
      exact List.cons_ne_nil _ _ (List.prefix_nil.mp hpre)
    refine ⟨bidder, ?_, ?_⟩
    · rw [← hback]
      exact transformToSGX_goKey (zero_notMem_bid_key hnul hb) hk (fun _ => hne)
    · have hlast := commitAll_bid hdot hnul hdots worldState hb hk hne
      rw [hval, hstart k hpre, Option.map_none, Option.or_none] at hlast
      exact hlast.symm
  · rintro ⟨bidder, hkey, hlast⟩
    have hmem := List.mem_reverse.mp (mem_of_lookup_eq_some hlast)
    obtain ⟨-, hb, -, k, hk, hne⟩ := mem_bidsTo hnul hmem
    obtain ⟨ws, -, hfabric⟩ := goKey_bid hdot hk hne
    have hpre : fabricKey [str "somePrefix", b] <+: k := by
      rw [hfabric, fabricKey, fabricKey, delimited, delimited, List.cons_prefix_cons]
      exact ⟨rfl, closed 0 ws, (closed_append 0 [str "somePrefix", b] ws).symm⟩
    refine ⟨k, ?_, hpre, ?_⟩
    · rw [commitAll_bid hdot hnul hdots worldState hb hk hne, hlast]
      rfl
    · rw [hkey]
      exact transformToSGX_goKey (zero_notMem_bid_key hnul hb) hk (fun _ => hne)

/-- So `auction_eval` finds these bids, if their names pass through the JSON text. -/
theorem getElem?_consideredBids {is : List (Invocation η τ σ)} (hdots : DotFree is) {worldState : Kvs}
    (hstart : ∀ k, fabricKey [str "somePrefix", b] <+: k → worldState[k]? = none) (hplain : PlainText b)
    (hbidders : ∀ i ∈ is, ∀ bidder value, i.operation = some (.submit b bidder value) → PlainText bidder)
    {E : Enclave η τ σ} {verifyTag : Bytes → Bool → τ} {values : WriteSet}
    (h : consideredBids F E verifyTag (commitAll F worldState is) b = some values) (key val : Bytes) :
    values[key]? = some val ↔
      ∃ bidder, key = bidPrefix ++ b ++ str "." ++ bidder ++ str "." ∧
        (bidsTo F b worldState is).reverse.lookup bidder = some val := by
  have hmem := mem_rangeItems_bids (F := F) hdot hnul hdots hstart
  obtain ⟨reply, hreply, hreceived⟩ := Option.bind_eq_some_iff.mp h
  obtain ⟨items, hrange, hval, hfit, -⟩ := goHost_range_some F _ hreply
  have hdotted : ∀ w ∈ [str "somePrefix", b], sep ∉ w :=
    List.forall_mem_cons.mpr ⟨by decide, List.forall_mem_singleton.mpr hdot⟩
  have hkey : cstr (bidPrefix ++ b ++ str ".") = sgxKey [str "somePrefix", b] := by
    rw [sgxKey_bids]
    apply cstr_eq_self
    simp only [List.mem_append, not_or]
    exact ⟨⟨by decide, hnul⟩, by decide⟩
  -- the reply is the text of the items
  have hitems : reply.val = valuesText (rangeItems (commitAll F worldState is) (fabricKey [str "somePrefix", b])) := by
    rw [hkey, goRange, splitSGXCompositeKey_sgxKey hdotted] at hrange
    obtain ⟨start, hstart', hitems⟩ := Option.map_eq_some_iff.mp hrange
    rw [createCompositeKey] at hstart'
    split_ifs at hstart'
    cases hstart'
    rw [hval, ← hitems]
    rfl
  have hplains : ∀ p ∈ rangeItems (commitAll F worldState is) (fabricKey [str "somePrefix", b]),
      PlainText p.1 ∧ PlainText p.2 := by
    intro p hp
    obtain ⟨bidder, hp1, hlast⟩ := (hmem p).mp hp
    have hbid := List.mem_reverse.mp (mem_of_lookup_eq_some hlast)
    obtain ⟨⟨i, hi, value, hop⟩, -, hsealed, -⟩ := mem_bidsTo hnul hbid
    refine ⟨?_, hsealed⟩
    have hdotplain : PlainText (str ".") := by decide +kernel
    have hprefixplain : PlainText bidPrefix := by decide +kernel
    rw [hp1]
    exact (((hprefixplain.append hplain).append hdotplain).append (hbidders i hi bidder value hop)).append hdotplain
  rw [hitems] at hfit
  rw [receivedValues_valuesText E ∅ hitems hplains hfit] at hreceived
  cases hreceived
  rw [← hmem (key, val)]
  constructor
  · exact mem_of_getElem?_insertAll_empty
  · intro hp
    rw [getElem?_insertAll, ExtTreeMap.getElem?_empty, Option.none_or]
    apply lookup_eq_some_of_unique hp
    -- a key belongs to one bidder
    intro val' hp'
    obtain ⟨bidder, hkey, hlast⟩ := (hmem _).mp hp
    obtain ⟨bidder', hkey', hlast'⟩ := (hmem _).mp hp'
    obtain rfl := bid_key_inj (hkey.symm.trans hkey')
    exact Option.some.inj (hlast'.symm.trans hlast)

end

variable (F) in
/-- Auctions whose names have no dot are isolated: an invocation for one of them changes none of
the results of later invocations for another. After a run that starts without bids, `auction_eval`
goes over the last bid of every bidder of its auction and over nothing else, if the names have
neither quotes, nor backslashes, nor control characters. -/
theorem auctions_isolated (worldState : Kvs) (pre post : List (Invocation η τ σ)) (o : Invocation η τ σ)
    (a b : Bytes) (hab : a ≠ b) (ho : o.auction = some a) (hdots : DotFree (pre ++ o :: post)) :
    responsesTo F b worldState (pre ++ o :: post) = responsesTo F b worldState (pre ++ post) ∧
      (sep ∉ b → PlainText b →
        (∀ i ∈ pre ++ o :: post, ∀ bidder value, i.operation = some (.submit b bidder value) → PlainText bidder) →
        (∀ k, fabricKey [str "somePrefix", b] <+: k → worldState[k]? = none) →
          ∀ (E : Enclave η τ σ) verifyTag values,
            consideredBids F E verifyTag (commitAll F worldState (pre ++ o :: post)) b = some values →
              ∀ key val, values[key]? = some val ↔
                ∃ bidder, key = bidPrefix ++ b ++ str "." ++ bidder ++ str "." ∧
                  (bidsTo F b worldState (pre ++ o :: post)).reverse.lookup bidder = some val) := by
  refine ⟨responsesTo_without worldState hab ho hdots, ?_⟩
  intro hdot hplain hbidders hstart E verifyTag values hvalues
  exact getElem?_consideredBids hdot hplain.no_nul hdots hstart hplain hbidders hvalues

end

/-- An invocation in clear text by an enclave that hides nothing. -/
def frankInvocation (args : String) : Invocation Bytes Bool Unit :=
  ⟨frankEnclave, fun _ _ => true, 0, str args, [], 1024, ⟨1, 0⟩⟩

/-- Two auctions with a bid for the second, and then a bid for the first. -/
def bidForSecond : List (Invocation Bytes Bool Unit) :=
  [frankInvocation "[\"create\",\"a\"]", frankInvocation "[\"create\",\"b\"]",
    frankInvocation "[\"submit\",\"b\",\"x\",\"5\"]"]

def bidForFirst : Invocation Bytes Bool Unit := frankInvocation "[\"submit\",\"a\",\"y\",\"7\"]"

/-- What the enclave stores for a bid of 5. -/
def frankRecord (bidder : String) : Bytes :=
  base64Encode (encryptState frankEnclave 1 (str "\x7b\"bidder\":\"" ++ str bidder ++ str "\",\"value\":5\x7d"))

section
variable {η τ σ : Type} {F : KeyRule} {E : Enclave η τ σ} {verifyTag : Bytes → Bool → τ} {worldState : Kvs}
  {name : Bytes} {items : List (Bytes × Bytes)} (hname : PlainWord name)
  (hvalid : [str "somePrefix", name].all F.validAttribute = true)
  (hitems : rangeItems worldState (fabricKey [str "somePrefix", name]) = items)
  (hfit : (valuesText items).length ≤ jsonBufferSize)
include hname hvalid hitems hfit

/-- A query that returns delivers the text of the items. -/
theorem consideredBids_eq : ∃ rest, consideredBids F E verifyTag worldState name =
    unmarshalValues E.libc ∅ (valuesText items ++ rest) := by
  have hwords : ∀ w ∈ [str "somePrefix", name], PlainWord w :=
    List.forall_mem_cons.mpr ⟨plainWord_somePrefix, List.forall_mem_singleton.mpr hname⟩
  have hkey : cstr (bidPrefix ++ name ++ str ".") = sgxKey [str "somePrefix", name] := by
    rw [← sgxKey_bids, cstr_eq_self (plainText_sgxKey hwords).no_nul]
  obtain ⟨rest, hrest⟩ := outBuffer_eq hfit
  refine ⟨rest, ?_⟩
  rw [← hitems] at hfit
  rw [consideredBids, hkey, goHost_range F worldState verifyTag [] (List.cons_ne_nil _ _) hwords hvalid hfit,
    Option.bind_some, receivedValues, rangeReply, hitems, OcallReply.memory_nil, hrest]

theorem consideredBids_of_plain (hplain : ∀ p ∈ items, PlainText p.1 ∧ PlainText p.2) :
    consideredBids F E verifyTag worldState name = some (insertAll ∅ items) := by
  obtain ⟨rest, hrest⟩ := @consideredBids_eq _ _ _ F E verifyTag worldState name items hname hvalid hitems hfit
  rw [hrest, unmarshalValues_valuesText E.libc ∅ hplain]

end

theorem plainText_frankRecord (bidder : String) : PlainText (frankRecord bidder) :=
  plainText_of_base64 (fun _ hc => mem_base64Encode hc)

theorem dotFree_of_all {η τ σ : Type} {is : List (Invocation η τ σ)}
    (h : is.all (fun i => i.auction.all (fun name => !name.contains sep)) = true) : DotFree is := by
  intro i hi name hname
  have hall := List.all_eq_true.mp h i hi
  rw [hname] at hall
  simpa using hall

theorem plainBidders_of_all {η τ σ : Type} {is : List (Invocation η τ σ)}
    (h : is.all (fun i => i.operation.all (fun op => op.names.all (fun w => decide (PlainText w)))) = true) :
    ∀ i ∈ is, ∀ b bidder value, i.operation = some (.submit b bidder value) → PlainText bidder := by
  intro i hi b bidder value hop
  have hall := List.all_eq_true.mp h i hi
  rw [hop] at hall
  have hbidder := List.all_eq_true.mp hall bidder (List.mem_cons_of_mem _ List.mem_cons_self)
  exact of_decide_eq_true hbidder

/-- The bid for the first auction changes nothing for the second: it is evaluated over its own bid. -/
theorem second_auction_undisturbed :
    responsesTo nulFree (str "b") ∅ (bidForSecond ++ [bidForFirst]) =
        responsesTo nulFree (str "b") ∅ bidForSecond ∧
      ∃ values, consideredBids nulFree frankEnclave (fun _ _ => true)
          (commitAll nulFree ∅ (bidForSecond ++ [bidForFirst])) (str "b") = some values ∧
        values[str ".somePrefix.b.x."]? = some (frankRecord "x") ∧ values[str ".somePrefix.a.y."]? = none := by
  have hrun : DotFree (bidForSecond ++ [bidForFirst]) ∧
      (∀ i ∈ bidForSecond ++ [bidForFirst], ∀ b bidder value, i.operation = some (.submit b bidder value) →
        PlainText bidder) := ⟨dotFree_of_all (by decide +kernel), plainBidders_of_all (by decide +kernel)⟩
  obtain ⟨hresponses, hbids⟩ := auctions_isolated nulFree ∅ bidForSecond [] bidForFirst (str "a") (str "b")
    (by decide) (by decide +kernel) hrun.1
  rw [List.append_nil] at hresponses
  have hvalues : consideredBids nulFree frankEnclave (fun _ _ => true)
      (commitAll nulFree ∅ (bidForSecond ++ [bidForFirst])) (str "b") =
        some (insertAll ∅ [(str ".somePrefix.b.x.", frankRecord "x")]) :=
    consideredBids_of_plain plainWord_b (by decide) (by decide +kernel) (by decide +kernel)
      (List.forall_mem_singleton.mpr ⟨by decide +kernel, plainText_frankRecord "x"⟩)
  have hiff := hbids (by decide) plainWord_b.plain (fun i hi => hrun.2 i hi (str "b"))
    (fun _ _ => ExtTreeMap.getElem?_empty) frankEnclave (fun _ _ => true) _ hvalues
  refine ⟨hresponses, _, hvalues, (hiff _ _).mpr ⟨str "x", by decide, by decide +kernel⟩, ?_⟩
  rw [Option.eq_none_iff_forall_ne_some]
  intro val hval
  obtain ⟨bidder, hkey, -⟩ := (hiff _ _).mp hval
  have hname := @bid_key_auction (str "a") (str "b") (str "y") bidder (by decide) (by decide) hkey
  revert hname
  decide

/-- A bid under the name of a bidder that is a quote. -/
def quotedBid : List (Invocation Bytes Bool Unit) :=
  [frankInvocation "[\"create\",\"a\"]", frankInvocation "[\"submit\",\"a\",\"\\\"\",\"5\"]"]

/-- A bid for an auction whose name continues the name of another one. -/
def dottedBid : List (Invocation Bytes Bool Unit) :=
  [frankInvocation "[\"create\",\"a.b\"]", frankInvocation "[\"submit\",\"a.b\",\"c\",\"5\"]"]

theorem consideredBids_quotedBid :
    consideredBids nulFree frankEnclave (fun _ _ => true) (commitAll nulFree ∅ quotedBid) (str "a") = some ∅ := by
  have hitems : rangeItems (commitAll nulFree ∅ quotedBid) (fabricKey [str "somePrefix", str "a"]) =
      [(str ".somePrefix.a.\".", base64Encode (encryptState frankEnclave 1 (str "\x7b\"bidder\":\"\\\"\",\"value\":5\x7d")))] := by
    decide +kernel
  obtain ⟨rest, hrest⟩ := @consideredBids_eq _ _ _ nulFree frankEnclave (fun _ _ => true) _ _ _ plainWord_a
    (by decide) hitems (by decide +kernel)
  rw [hrest]
  exact unmarshalValues_quote signedLibc ∅ (q := str ".somePrefix.a.") (by decide +kernel) (c := 0x2e) (by decide) (by decide) (by decide) _

/-- With a dot in a name the keys of two auctions meet. After a bid of `b` for the auction `a`, the
auction `.somePrefix.a.b.` cannot be created any more, and the bids for `a.b` are counted for `a`.
And a bidder whose name is a quote makes all bids disappear. -/
theorem dotted_names_interfere :
    (responsesTo nulFree (str ".somePrefix.a.b.") ∅
          [frankInvocation "[\"create\",\"a\"]", frankInvocation "[\"submit\",\"a\",\"b\",\"5\"]",
            frankInvocation "[\"create\",\".somePrefix.a.b.\"]"] =
        [some (some (str "AUCTION_ALREADY_EXISTS"))] ∧
      responsesTo nulFree (str ".somePrefix.a.b.") ∅
          [frankInvocation "[\"create\",\"a\"]", frankInvocation "[\"create\",\".somePrefix.a.b.\"]"] =
        [some (some (str "OK"))]) ∧
    (bidsTo nulFree (str "a") ∅ dottedBid = [] ∧
      ∃ values, consideredBids nulFree frankEnclave (fun _ _ => true) (commitAll nulFree ∅ dottedBid) (str "a") =
          some values ∧ values[str ".somePrefix.a.b.c."]? = some (frankRecord "c")) ∧
    (bidsTo nulFree (str "a") ∅ quotedBid).map Prod.fst = [str "\""] ∧
      consideredBids nulFree frankEnclave (fun _ _ => true) (commitAll nulFree ∅ quotedBid) (str "a") = some ∅ := by
  have hdotted : consideredBids nulFree frankEnclave (fun _ _ => true) (commitAll nulFree ∅ dottedBid) (str "a") =
      some (insertAll ∅ [(str ".somePrefix.a.b.c.", frankRecord "c")]) :=
    consideredBids_of_plain plainWord_a (by decide) (by decide +kernel) (by decide +kernel)
      (List.forall_mem_singleton.mpr ⟨by decide +kernel, plainText_frankRecord "c"⟩)
  refine ⟨⟨by decide +kernel, by decide +kernel⟩, ⟨by decide +kernel, _, hdotted, by decide +kernel⟩,
    by decide +kernel, consideredBids_quotedBid⟩

end SecureChaincode
