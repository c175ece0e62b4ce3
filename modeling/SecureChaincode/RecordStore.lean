import SecureChaincode.AuctionRecords
import SecureChaincode.BidTally
import SecureChaincode.SerialRuns

/-! The auction chaincode on a key-value store with its records in clear text, and the abstract
auction that it implements there. -/
namespace SecureChaincode

open Std (ExtTreeMap)

/-- `MAX_RESPONSET_SIZE` -/
def maxResponseSize : ℕ := 1024

/-- The length of a record with IV and tag, in base64. -/
def sealedLength (n : ℕ) : ℕ := 4*((n+28+2)/3)

/-- The records with keys that start so. -/
def recordsFrom (store : WriteSet) (start : Bytes) : List (Bytes × Bytes) :=
  store.toList.filter (fun p => start.isPrefixOf p.1)

/-- A call of the shim on the store. What is put is kept apart until the invocation is over, and a
record can be read if its sealed form is shorter than the buffer. -/
def storeStep (store writes : WriteSet) : (c : Call) → Option c.Answer × WriteSet
  | .getState key maxValLen =>
    match store[cstr key]? with
    | none => (some (outBuffer maxValLen.toNat [], 0), writes)
    | some val =>
      if sealedLength val.length < maxValLen.toNat then (some (outBuffer maxValLen.toNat val, val.length), writes)
      else (none, writes)
  | .putState key val => (some (), writes.insert (cstr key) val)
  | .getStateByPartialCompositeKey compKey values =>
    (some (insertAll values (recordsFrom store (cstr compKey))), writes)

/-- The arguments of an invocation, and the number that its memory happens to hold. -/
structure Request where
  args : Bytes
  uninit : ℤ

section
variable (libc : Libc)

def Request.run (store : WriteSet) (r : Request) : Option (Option Bytes) × WriteSet :=
  (auctionInvoke libc r.uninit r.args maxResponseSize).run (storeStep store) ∅

/-- The store afterwards: without a response nothing is committed. -/
def Request.commit (store : WriteSet) (r : Request) : WriteSet :=
  match r.run libc store with
  | (some (some _), writes) => assignAll store writes
  | _ => store

/-- The results of invocations one after the other. -/
def storeResponses : WriteSet → List Request → List (Option (Option Bytes))
  | _, [] => []
  | store, r :: rs => (r.run libc store).1 :: storeResponses (r.commit libc store) rs

/-- The operations with names, values and records as the chaincode can handle them: the names are
plain words, a bid is not negative (and no greater than what `stoi` can read), a record is read back
from its JSON text, and it fits into its buffer. -/
structure Operation.Admissible (op : Operation) : Prop where
  plain : ∀ w ∈ op.names, PlainWord w
  not_mrenclave : op.auctionName ≠ str "MRENCLAVE"
  auction_read : ∀ isOpen rest, unmarshalAuction libc (marshalAuction libc ⟨op.auctionName, isOpen⟩ ++ 0 :: rest) =
    some ⟨op.auctionName, isOpen⟩
  auction_fits : ∀ isOpen, sealedLength (marshalAuction libc ⟨op.auctionName, isOpen⟩).length < maxValueSize.toNat
  bid_nonneg : ∀ name bidder value, op = .submit name bidder value → 0 ≤ value
  bid_read : ∀ name bidder value, op = .submit name bidder value →
    ∀ rest, unmarshalBid libc (marshalBid libc ⟨bidder, value⟩ ++ 0 :: rest) = some ⟨bidder, value⟩
  bid_fits : ∀ name bidder value, op = .submit name bidder value →
    (marshalBid libc ⟨bidder, value⟩).length ≤ maxResponseSize

/-- The last bids of an auction, none if there is no auction. -/
def AuctionHouse.bidsOf (house : AuctionHouse) (name : Bytes) : List Bid :=
  (house name).elim [] AuctionState.lastBids

/-- The store holds the records of these auctions, and of no others. -/
structure Represents (house : AuctionHouse) (store : WriteSet) : Prop where
  record : ∀ name, sep ∉ name → name ≠ str "MRENCLAVE" →
    store[name]? = (house name).map (fun a => marshalAuction libc ⟨name, a.isOpen⟩)
  bids : ∀ name, sep ∉ name → ∀ key val, bidPrefix ++ name ++ str "." <+: key →
    (store[key]? = some val ↔ ∃ bid ∈ house.bidsOf name,
      key = bidPrefix ++ name ++ str "." ++ bid.bidderName ++ str "." ∧ val = marshalBid libc bid)
  readable : ∀ name, ∀ bid ∈ house.bidsOf name,
    ReadableBid libc bid ∧ (marshalBid libc bid).length ≤ maxResponseSize

variable {libc} {house : AuctionHouse} {store : WriteSet}

theorem outBuffer_eq_zero {n : ℕ} {b : Bytes} (h : b.length < n) : ∃ rest, outBuffer n b = b ++ 0 :: rest := by
  obtain ⟨m, rfl⟩ := Nat.exists_eq_add_of_lt h
  refine ⟨List.replicate m 0, ?_⟩
  rw [outBuffer, List.take_append, List.take_of_length_le (by omega), List.take_replicate]
  have hrest : min (b.length+m+1-b.length) (b.length+m+1) = m+1 := by omega
  rw [hrest, List.replicate_succ]

theorem le_sealedLength (n : ℕ) : n ≤ sealedLength n := by
  rw [sealedLength]
  omega

/-- Without auctions. -/
theorem represents_start (h : ∀ key val, store[key]? = some val → key = str "MRENCLAVE") :
    Represents libc (fun _ => none) store := by
  have hnone {key : Bytes} (hne : key ≠ str "MRENCLAVE") : store[key]? = none := by
    rw [Option.eq_none_iff_forall_ne_some]
    exact fun val hval => hne (h key val hval)
  refine ⟨fun name _ hne => hnone hne, ?_, ?_⟩
  swap
  · intro name a h
    cases h
  intro name _ key val hkey
  have hne : key ≠ str "MRENCLAVE" := by
    rintro rfl
    obtain ⟨rest, hrest⟩ := hkey
    exact absurd (congrArg List.head? hrest) (by simp [bidPrefix, str])
  rw [hnone hne]
  constructor
  · intro h
    cases h
  · rintro ⟨bid, hbid, -⟩
    cases hbid

/-- The record that an operation reads, and the plan that follows. -/
theorem Represents.plan (hrep : Represents libc house store) {op : Operation} (hop : op.Admissible libc) (writes : WriteSet) :
    ∃ r, storeStep store writes (.getState op.auctionName maxValueSize) = (some r, writes) ∧
      op.plan libc r.1 r.2 = some (op.planFor libc ((house op.auctionName).map AuctionState.isOpen)) := by
  have hplain := hop.plain _ op.auctionName_mem
  have hrecord := hrep.record op.auctionName hplain.no_dot hop.not_mrenclave
  simp only [storeStep, cstr_eq_self hplain.no_nul, hrecord]
  cases house op.auctionName with
  | none => exact ⟨_, rfl, op.plan_of_absent _⟩
  | some a =>
    have hfits := hop.auction_fits a.isOpen
    simp only [Option.map_some, if_pos hfits]
    refine ⟨_, rfl, op.plan_of_flag ?_ ?_⟩
    · simp [marshalAuction, jsonSerializeObject, str]
    · obtain ⟨rest, hrest⟩ := outBuffer_eq_zero ((le_sealedLength _).trans_lt hfits)
      rw [hrest]
      exact hop.auction_read a.isOpen rest

/-- What a plan puts into the store. -/
def Plan.writes : Plan → WriteSet
  | .put key val => (∅ : WriteSet).insert (cstr key) val
  | _ => ∅

theorem getElem?_assign_writes (store : WriteSet) (key val k : Bytes) :
    (assignAll store ((∅ : WriteSet).insert key val))[k]? = if k = key then some val else store[k]? := by
  rw [getElem?_assignAll, ExtTreeMap.getElem?_insert, ExtTreeMap.getElem?_empty]
  by_cases hk : k = key
  · rw [if_pos hk, if_pos (Std.compare_eq_iff_eq.mpr hk.symm)]
    rfl
  · rw [if_neg hk, if_neg (fun hcmp => hk (Std.compare_eq_iff_eq.mp hcmp).symm)]
    rfl

theorem bid_key_ne {name bidder w : Bytes} (hw : sep ∉ w) :
    bidPrefix ++ name ++ str "." ++ bidder ++ str "." ≠ w := by
  rintro rfl
  exact hw (by simp [bidPrefix, str, sep])

theorem not_bids_prefix {name w : Bytes} (hw : sep ∉ w) : ¬bidPrefix ++ name ++ str "." <+: w := by
  rintro ⟨rest, rfl⟩
  exact hw (by simp [bidPrefix, str, sep])

theorem bidsOf_update (house : AuctionHouse) (name : Bytes) (a : AuctionState) (name' : Bytes) :
    AuctionHouse.bidsOf (Function.update house name (some a)) name' =
      if name' = name then a.lastBids else house.bidsOf name' := by
  rw [AuctionHouse.bidsOf, Function.update_apply]
  split_ifs
  · rfl
  · rfl

/-- A record is stored for an auction that keeps its bids. -/
theorem Represents.put_record (hrep : Represents libc house store) {name : Bytes} (hdot : sep ∉ name)
    {a : AuctionState} (hbids : a.lastBids = house.bidsOf name) :
    Represents libc (Function.update house name (some a))
      (assignAll store ((∅ : WriteSet).insert name (marshalAuction libc ⟨name, a.isOpen⟩))) := by
  have hkept (name' : Bytes) : AuctionHouse.bidsOf (Function.update house name (some a)) name' = house.bidsOf name' := by
    rw [bidsOf_update]
    split_ifs with hname
    · rw [hbids, hname]
    · rfl
  constructor
  · intro name' hdot' hne
    rw [getElem?_assign_writes, Function.update_apply]
    by_cases hname : name' = name
    · rw [if_pos hname, if_pos hname, hname]
      rfl
    · rw [if_neg hname, if_neg hname, hrep.record name' hdot' hne]
  · intro name' hdot' key val hkey
    have hne : key ≠ name := by
      rintro rfl
      exact not_bids_prefix hdot hkey
    rw [getElem?_assign_writes, if_neg hne, hkept]
    exact hrep.bids name' hdot' key val hkey
  · intro name' bid hbid
    rw [hkept] at hbid
    exact hrep.readable name' bid hbid

theorem mem_lastBids_insert {a : AuctionState} {bidder : Bytes} {value : ℤ} {bid : Bid} :
    bid ∈ ({ a with bids := a.bids.insert bidder value } : AuctionState).lastBids ↔
      bid = ⟨bidder, value⟩ ∨ bid.bidderName ≠ bidder ∧ bid ∈ a.lastBids := by
  rw [mem_lastBids, mem_lastBids]
  change (a.bids.insert bidder value)[bid.bidderName]? = some bid.value ↔ _
  rw [ExtTreeMap.getElem?_insert]
  obtain ⟨bidderName, v⟩ := bid
  by_cases hb : bidderName = bidder
  · subst hb
    rw [if_pos (Std.compare_eq_iff_eq.mpr rfl)]
    simp [eq_comm]
  · rw [if_neg (fun hcmp => hb (Std.compare_eq_iff_eq.mp hcmp).symm)]
    simp [hb]

/-- A bid is stored, in the place of an earlier one of the bidder. -/
theorem Represents.put_bid (hrep : Represents libc house store) {name bidder : Bytes} {value : ℤ}
    (hdot : sep ∉ name) {a : AuctionState} (ha : house name = some a) (hread : ReadableBid libc ⟨bidder, value⟩)
    (hfits : (marshalBid libc ⟨bidder, value⟩).length ≤ maxResponseSize) :
    Represents libc (Function.update house name (some { a with bids := a.bids.insert bidder value }))
      (assignAll store ((∅ : WriteSet).insert (bidPrefix ++ name ++ str "." ++ bidder ++ str ".")
        (marshalBid libc ⟨bidder, value⟩))) := by
  have hold : house.bidsOf name = a.lastBids := by rw [AuctionHouse.bidsOf, ha, Option.elim_some]
  constructor
  · intro name' hdot' hne
    rw [getElem?_assign_writes, if_neg (bid_key_ne hdot').symm, hrep.record name' hdot' hne, Function.update_apply]
    split_ifs with hname
    · rw [hname, ha]
      rfl
    · rfl
  · intro name' hdot' key val hkey
    rw [getElem?_assign_writes, bidsOf_update]
    by_cases hname : name' = name
    · subst hname
      rw [if_pos rfl]
      by_cases hk : key = bidPrefix ++ name' ++ str "." ++ bidder ++ str "."
      · rw [if_pos hk]
        constructor
        · intro hval
          exact ⟨⟨bidder, value⟩, mem_lastBids_insert.mpr (Or.inl rfl), hk, (Option.some.inj hval).symm⟩
        · rintro ⟨bid, hbid, hk', rfl⟩
          rcases mem_lastBids_insert.mp hbid with rfl | ⟨hne, -⟩
          · rfl
          · exact absurd (bid_key_inj (hk'.symm.trans hk)) hne
      · rw [if_neg hk, hrep.bids name' hdot' key val hkey, hold]
        constructor
        · rintro ⟨bid, hbid, hk', hv⟩
          have hne : bid.bidderName ≠ bidder := by
            rintro rfl
            exact hk hk'
          exact ⟨bid, mem_lastBids_insert.mpr (Or.inr ⟨hne, hbid⟩), hk', hv⟩
        · rintro ⟨bid, hbid, hk', hv⟩
          rcases mem_lastBids_insert.mp hbid with rfl | ⟨-, hbid'⟩
          · exact absurd hk' hk
          · exact ⟨bid, hbid', hk', hv⟩
    · -- the key of another auction
      have hk : key ≠ bidPrefix ++ name ++ str "." ++ bidder ++ str "." := by
        rintro rfl
        obtain ⟨rest, hrest⟩ := hkey
        have hkeys : name' ++ sep :: rest = name ++ sep :: (bidder ++ str ".") := by
          simpa [str, sep] using hrest
        exact hname (append_cons_inj hdot' hdot hkeys).1
      rw [if_neg hk, if_neg hname]
      exact hrep.bids name' hdot' key val hkey
  · intro name' bid hbid
    rw [bidsOf_update] at hbid
    split_ifs at hbid with hname
    · rcases mem_lastBids_insert.mp hbid with rfl | ⟨-, hbid⟩
      · exact ⟨hread, hfits⟩
      · exact hrep.readable name bid (hold ▸ hbid)
    · exact hrep.readable name' bid hbid

/-- After an operation the store holds the auctions of the abstract step. -/
theorem Represents.step (hrep : Represents libc house store) {op : Operation} (hop : op.Admissible libc) :
    Represents libc (house.step op).2
      (assignAll store (op.planFor libc ((house op.auctionName).map AuctionState.isOpen)).writes) := by
  have hplain : PlainWord op.auctionName := hop.plain _ op.auctionName_mem
  have hsame : Represents libc house (assignAll store (∅ : WriteSet)) := by rwa [assignAll_empty]
  cases op with
  | create name =>
    have hname : PlainWord name := hplain
    rw [AuctionHouse.step, Operation.auctionName]
    cases hh : house name with
    | some a => exact hsame
    | none =>
      simp only [Option.map_none, Operation.planFor, Plan.writes, cstr_eq_self hname.no_nul]
      apply hrep.put_record hname.no_dot (a := ⟨true, ∅⟩)
      rw [AuctionHouse.bidsOf, hh]
      rfl
  | submit name bidder value =>
    have hname : PlainWord name := hplain
    have hbidder : PlainWord bidder := hop.plain bidder (List.mem_cons_of_mem _ List.mem_cons_self)
    rw [AuctionHouse.step, Operation.auctionName]
    cases hh : house name with
    | none => exact hsame
    | some a =>
      obtain ⟨isOpen, bids⟩ := a
      cases isOpen with
      | false => exact hsame
      | true =>
        simp only [Option.map_some, Operation.planFor, Plan.writes, if_true,
          cstr_eq_self (zero_notMem_bid_key hname.no_nul hbidder.no_nul)]
        exact hrep.put_bid hname.no_dot hh
          ⟨hop.bid_nonneg name bidder value rfl, hop.bid_read name bidder value rfl⟩
          (hop.bid_fits name bidder value rfl)
  | close name =>
    have hname : PlainWord name := hplain
    rw [AuctionHouse.step, Operation.auctionName]
    cases hh : house name with
    | none => exact hsame
    | some a =>
      obtain ⟨isOpen, bids⟩ := a
      cases isOpen with
      | false => exact hsame
      | true =>
        simp only [Option.map_some, Operation.planFor, Plan.writes, if_true, cstr_eq_self hname.no_nul]
        apply hrep.put_record hname.no_dot (a := ⟨false, bids⟩)
        rw [AuctionHouse.bidsOf, hh]
        rfl
  | eval name =>
    rw [AuctionHouse.step, Operation.auctionName]
    cases hh : house name with
    | none => exact hsame
    | some a =>
      obtain ⟨isOpen, bids⟩ := a
      cases isOpen with
      | false => exact hsame
      | true => exact hsame

/-- A range query finds the records with these keys. -/
theorem getElem?_recordsFrom (store : WriteSet) (start k v : Bytes) :
    (insertAll (∅ : WriteSet) (recordsFrom store start))[k]? = some v ↔ start <+: k ∧ store[k]? = some v := by
  have hmem (w : Bytes) : (k, w) ∈ recordsFrom store start ↔ start <+: k ∧ store[k]? = some w := by
    rw [recordsFrom, List.mem_filter, ExtTreeMap.mem_toList_iff_getElem?_eq_some, List.isPrefixOf_iff_prefix, and_comm]
  rw [getElem?_insertAll, ExtTreeMap.getElem?_empty, Option.none_or]
  constructor
  · intro h
    exact (hmem v).mp (mem_of_lookup_eq_some h)
  · rintro ⟨hstart, hv⟩
    apply lookup_eq_some_of_unique ((hmem v).mpr ⟨hstart, hv⟩)
    intro w hw
    have hw' := ((hmem w).mp hw).2
    rw [hv] at hw'
    exact (Option.some.inj hw').symm

/-- The loop over the bids that the store has of an auction. -/
theorem Represents.evalBids (hrep : Represents libc house store) {name : Bytes} (hdot : sep ∉ name)
    {a : AuctionState} (ha : house name = some a) (uninit : ℤ) :
    SecureChaincode.evalBids libc uninit (insertAll ∅ (recordsFrom store (bidPrefix ++ name ++ str "."))) =
      some (a.award.text libc) := by
  have hold : house.bidsOf name = a.lastBids := by rw [AuctionHouse.bidsOf, ha, Option.elim_some]
  have hkey : Function.Injective (fun bidder => bidPrefix ++ name ++ str "." ++ bidder ++ str ".") :=
    fun bidder bidder' h => bid_key_inj h
  apply evalBids_eq uninit hkey
  · intro k v
    rw [getElem?_recordsFrom, ← hold]
    constructor
    · rintro ⟨hstart, hv⟩
      exact (hrep.bids name hdot k v hstart).mp hv
    · rintro ⟨bid, hbid, rfl, rfl⟩
      have hstart : bidPrefix ++ name ++ str "." <+: bidPrefix ++ name ++ str "." ++ bid.bidderName ++ str "." :=
        ⟨bid.bidderName ++ str ".", (List.append_assoc _ _ _).symm⟩
      exact ⟨hstart, (hrep.bids name hdot _ _ hstart).mpr ⟨bid, hbid, rfl, rfl⟩⟩
  · intro bid hbid
    rw [← hold] at hbid
    exact (hrep.readable name bid hbid).1

/-- What follows the plan is the response of the abstract auction. -/
theorem Represents.run_plan (hrep : Represents libc house store) {op : Operation} (hplain : ∀ w ∈ op.names, PlainWord w)
    (uninit : ℤ) :
    ((op.planFor libc ((house op.auctionName).map AuctionState.isOpen)).program libc uninit op.auctionName).run
        (storeStep store) ∅ =
      (some ((house.step op).1.text libc),
        (op.planFor libc ((house op.auctionName).map AuctionState.isOpen)).writes) := by
  cases op with
  | create name =>
    rw [AuctionHouse.step, Operation.auctionName]
    cases house name with
    | none => rfl
    | some a => rfl
  | submit name bidder value =>
    rw [AuctionHouse.step, Operation.auctionName]
    cases house name with
    | none => rfl
    | some a =>
      obtain ⟨isOpen, bids⟩ := a
      cases isOpen <;> rfl
  | close name =>
    rw [AuctionHouse.step, Operation.auctionName]
    cases house name with
    | none => rfl
    | some a =>
      obtain ⟨isOpen, bids⟩ := a
      cases isOpen <;> rfl
  | eval name =>
    have hname : PlainWord name := hplain name List.mem_cons_self
    rw [AuctionHouse.step, Operation.auctionName]
    cases hh : house name with
    | none => rfl
    | some a =>
      obtain ⟨isOpen, bids⟩ := a
      cases isOpen with
      | true => rfl
      | false =>
        have hnul : (0 : UInt8) ∉ bidPrefix ++ name ++ str "." := by
          simp only [List.mem_append, not_or]
          exact ⟨⟨by decide, hname.no_nul⟩, by decide⟩
        have hrange : (getStateByPartialCompositeKey (bidPrefix ++ name ++ str ".") ∅).run (storeStep store) ∅ =
            (some (insertAll ∅ (recordsFrom store (bidPrefix ++ name ++ str "."))), ∅) := by
          rw [getStateByPartialCompositeKey, Program.run_request, storeStep, cstr_eq_self hnul]
        simp only [Option.map_some, Operation.planFor, Plan.program]
        rw [Program.run_bind_of_some hrange, hrep.evalBids hname.no_dot hh]
        rfl

/-- The responses fit into their buffer. -/
theorem Represents.length_response (hrep : Represents libc house store) (op : Operation) :
    ((house.step op).1.text libc).length ≤ maxResponseSize := by
  have hshort (r : AuctionResponse) (h : ∀ bid, r ≠ .winner bid) : (r.text libc).length ≤ maxResponseSize := by
    cases r with
    | winner bid => exact absurd rfl (h bid)
    | _ => exact of_decide_eq_true rfl
  cases op with
  | create name =>
    rw [AuctionHouse.step]
    cases house name with
    | none => exact hshort _ nofun
    | some a => exact hshort _ nofun
  | submit name bidder value =>
    rw [AuctionHouse.step]
    cases house name with
    | none => exact hshort _ nofun
    | some a =>
      dsimp only
      split_ifs
      · exact hshort _ nofun
      · exact hshort _ nofun
  | close name =>
    rw [AuctionHouse.step]
    cases house name with
    | none => exact hshort _ nofun
    | some a =>
      dsimp only
      split_ifs
      · exact hshort _ nofun
      · exact hshort _ nofun
  | eval name =>
    rw [AuctionHouse.step]
    cases hh : house name with
    | none => exact hshort _ nofun
    | some a =>
      dsimp only
      split_ifs
      · exact hshort _ nofun
      · by_cases hwinner : ∃ bid, a.award = .winner bid
        · obtain ⟨bid, hbid⟩ := hwinner
          have hmem : bid ∈ house.bidsOf name := by
            rw [AuctionHouse.bidsOf, hh]
            exact mem_lastBids.mpr (award_eq_winner_iff.mp hbid).1
          rw [hbid]
          exact (hrep.readable name bid hmem).2
        · exact hshort _ (fun bid h => hwinner ⟨bid, h⟩)

/-- An invocation answers as the abstract auction does, and leaves its auctions in the store. -/
theorem Represents.invoke (hrep : Represents libc house store) {r : Request} {op : Operation}
    (hread : readOperation libc r.args = some op) (hop : op.Admissible libc) :
    (r.run libc store).1 = some (some ((house.step op).1.text libc)) ∧
      Represents libc (house.step op).2 (r.commit libc store) := by
  obtain ⟨record, hrecord, hplan⟩ := hrep.plan hop ∅
  have hget : (getState op.auctionName maxValueSize).run (storeStep store) ∅ = (some record, ∅) := by
    rw [getState, Program.run_request, hrecord]
  have hrun : r.run libc store = (some (some ((house.step op).1.text libc)),
      (op.planFor libc ((house op.auctionName).map AuctionState.isOpen)).writes) := by
    rw [Request.run, auctionInvoke_eq _ _ hread, Program.run_bind, op.program_eq, Program.run_bind_of_some hget,
      hplan, Program.orFault_some_bind, hrep.run_plan hop.plain]
    dsimp only
    rw [respond, if_neg (hrep.length_response op).not_gt]
    rfl
  rw [Request.commit, hrun]
  exact ⟨rfl, hrep.step hop⟩

variable (libc) in
/-- The auction chaincode implements the abstract auction: whatever operations are invoked one after
another on a store without auctions, every response is that of the abstract auction. There a closed
auction is evaluated to `NO_BIDS` if there are none, to the bid that exceeds those of all other
bidders, or to `DRAW` if two bidders hold the highest value. -/
theorem auction_refines_abstract (store : WriteSet) (requests : List Request) (ops : List Operation)
    (hstart : ∀ key val, store[key]? = some val → key = str "MRENCLAVE")
    (hops : List.Forall₂ (fun r op => readOperation libc r.args = some op ∧ op.Admissible libc) requests ops) :
    storeResponses libc store requests =
        (AuctionHouse.responses (fun _ => none) ops).map (fun response => some (some (response.text libc))) ∧
      ∀ a : AuctionState,
        (a.award = .noBids ↔ ∀ bidder : Bytes, a.bids[bidder]? = none) ∧
        (∀ bid, a.award = .winner bid ↔ a.bids[bid.bidderName]? = some bid.value ∧
          ∀ (bidder : Bytes) (value : ℤ), a.bids[bidder]? = some value → bidder ≠ bid.bidderName → value < bid.value) ∧
        (a.award = .draw ↔ ∃ (bidder bidder' : Bytes) (high : ℤ), bidder ≠ bidder' ∧ a.bids[bidder]? = some high ∧
          a.bids[bidder']? = some high ∧ ∀ (b : Bytes) (value : ℤ), a.bids[b]? = some value → value ≤ high) := by
  refine ⟨?_, fun a => ⟨award_eq_noBids_iff, fun bid => award_eq_winner_iff, award_eq_draw_iff⟩⟩
  have hrep : Represents libc (fun _ => none) store := represents_start hstart
  -- along the run the store holds the auctions of the abstract machine
  generalize (fun _ => none : AuctionHouse) = house at hrep
  clear hstart
  induction hops generalizing store house with
  | nil => rfl
  | cons hop _ ih =>
    obtain ⟨hresponse, hnext⟩ := hrep.invoke hop.1 hop.2
    rw [storeResponses, AuctionHouse.responses, List.map_cons, hresponse, ih _ _ hnext]

end

/-- A C library for whole numbers without a sign. -/
def decimalLibc : Libc where
  strtod s :=
    if s.takeWhile isDigit = [] then .error .null
    else .ok (.rat ((s.takeWhile isDigit).foldl (fun n c => n*10+(c.toNat-0x30)) 0 : ℕ), (s.takeWhile isDigit).length)
  printDouble x := (Nat.toDigits 10 x.toRat.num.toNat).map (fun c => c.toNat.toUInt8)

example : decimalLibc.printDouble (.rat 57) = str "57" := by decide +kernel

/-- A number of one digit is read back. -/
theorem readsMember_digit {n : ℕ} {d : UInt8} (hprint : decimalLibc.printDouble (n : ℤ) = [d])
    (hdigit : isDigit d = true) (hvalue : d.toNat-0x30 = n) (hdecimal : isDecimal [d] = true) :
    ReadsMember (parseValue decimalLibc maxNesting) (decimalLibc.printDouble (n : ℤ)) (.number (n : ℤ)) := by
  apply readsMember_number hprint hdigit hdecimal
  intro c rest hc
  have hother : ¬isDigit c = true := by
    rcases hc with rfl | rfl
    · decide
    · decide
  have htake : ([d] ++ c :: rest).takeWhile isDigit = [d] := by
    rw [List.singleton_append, List.takeWhile_cons_of_pos hdigit, List.takeWhile_cons_of_neg hother]
  have hcast : ((n : ℤ) : Double) = .rat n := congrArg Double.rat (Int.cast_natCast n)
  simp only [decimalLibc, htake, if_neg (List.cons_ne_nil d []), hcast]
  simp [hvalue]

/-- Two bids for an auction, the second of them higher. -/
def auctionDay : List Request :=
  [⟨str "[\"create\",\"a\"]", 0⟩, ⟨str "[\"submit\",\"a\",\"x\",\"5\"]", 0⟩,
    ⟨str "[\"submit\",\"a\",\"y\",\"7\"]", 0⟩, ⟨str "[\"close\",\"a\"]", 0⟩, ⟨str "[\"eval\",\"a\"]", 0⟩]

/-- The operations on the auction `a`, with bids that can be read back. -/
theorem admissible_a {op : Operation} (hname : op.auctionName = str "a") (hplain : ∀ w ∈ op.names, PlainWord w)
    (hbids : ∀ name bidder value, op = .submit name bidder value → 0 ≤ value ∧
      (∀ rest, unmarshalBid decimalLibc (marshalBid decimalLibc ⟨bidder, value⟩ ++ 0 :: rest) = some ⟨bidder, value⟩) ∧
      (marshalBid decimalLibc ⟨bidder, value⟩).length ≤ maxResponseSize) :
    op.Admissible decimalLibc where
  plain := hplain
  not_mrenclave := by
    rw [hname]
    decide
  auction_read isOpen rest := by
    rw [hname]
    exact unmarshalAuction_marshalAuction (by decide) (by decide) isOpen (0 :: rest)
  auction_fits isOpen := by
    rw [hname]
    cases isOpen <;> decide +kernel
  bid_nonneg name bidder value h := (hbids name bidder value h).1
  bid_read name bidder value h := (hbids name bidder value h).2.1
  bid_fits name bidder value h := (hbids name bidder value h).2.2

/-- A bid of one digit for it. -/
theorem admissible_bid {bidder : Bytes} {n : ℕ} {d : UInt8} (hbidder : PlainWord bidder)
    (hutf8 : isValidUtf8 bidder = true) (hprint : decimalLibc.printDouble (n : ℤ) = [d])
    (hdigit : isDigit d = true) (hvalue : d.toNat-0x30 = n) (hdecimal : isDecimal [d] = true) (hmax : (n : ℤ) ≤ 2147483647)
    (hfits : (marshalBid decimalLibc ⟨bidder, (n : ℤ)⟩).length ≤ maxResponseSize) :
    (Operation.submit (str "a") bidder n).Admissible decimalLibc := by
  apply admissible_a rfl
  · intro w hw
    rcases List.mem_pair.mp hw with rfl | rfl
    · exact plainWord_a
    · exact hbidder
  · intro name bidder' value h
    cases h
    exact ⟨Int.natCast_nonneg n, fun rest => unmarshalBid_marshalBid hbidder.no_nul hutf8 (Int.natCast_nonneg n) hmax
      (readsMember_digit hprint hdigit hvalue hdecimal) (0 :: rest), hfits⟩

/-- The higher bid wins. -/
theorem higher_bid_wins :
    storeResponses decimalLibc ∅ auctionDay =
      [some (some (str "OK")), some (some (str "OK")), some (some (str "OK")), some (some (str "OK")),
        some (some (str "\x7b\"bidder\":\"y\",\"value\":7\x7d"))] := by
  have hplain : ∀ w ∈ [str "a"], PlainWord w := List.forall_mem_singleton.mpr plainWord_a
  have hx : PlainWord (str "x") := ⟨by decide, by decide, by decide +kernel⟩
  have hy : PlainWord (str "y") := ⟨by decide, by decide, by decide +kernel⟩
  have hrefines := auction_refines_abstract decimalLibc ∅ auctionDay
    [.create (str "a"), .submit (str "a") (str "x") 5, .submit (str "a") (str "y") 7, .close (str "a"), .eval (str "a")]
    (fun key val h => by simp at h)
    (.cons ⟨by decide +kernel, admissible_a rfl hplain nofun⟩
      (.cons ⟨by decide +kernel, admissible_bid (n := 5) (d := 0x35) hx (by decide) (by decide +kernel) (by decide)
          (by decide) (by decide) (by decide) (by decide +kernel)⟩
        (.cons ⟨by decide +kernel, admissible_bid (n := 7) (d := 0x37) hy (by decide) (by decide +kernel) (by decide)
            (by decide) (by decide) (by decide) (by decide +kernel)⟩
          (.cons ⟨by decide +kernel, admissible_a rfl hplain nofun⟩
            (.cons ⟨by decide +kernel, admissible_a rfl hplain nofun⟩ .nil)))))
  rw [hrefines.1]
  decide +kernel

end SecureChaincode
