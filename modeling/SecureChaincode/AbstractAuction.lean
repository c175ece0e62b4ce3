import SecureChaincode.OrderedStore
import SecureChaincode.Operations
import SecureChaincode.UniqueMaximum

/-! What the auction chaincode is for: auctions with an open flag and the last bid of every bidder,
and the answers to the four operations. -/
namespace SecureChaincode

open Std (ExtTreeMap)

structure AuctionState where
  isOpen : Bool
  bids : ExtTreeMap Bytes ℤ compare

/-- The auctions by their names. -/
abbrev AuctionHouse := Bytes → Option AuctionState

inductive AuctionResponse
  | ok
  | alreadyExists
  | unknownAuction
  | alreadyClosed
  | stillOpen
  | noBids
  | draw
  | winner (bid : Bid)

/-- The texts for them. The chaincode has no text of its own for an auction that does not exist, nor
for one that is still open. -/
def AuctionResponse.text (libc : Libc) : AuctionResponse → Bytes
  | .ok => str "OK"
  | .alreadyExists => str "AUCTION_ALREADY_EXISTS"
  | .unknownAuction => str "AUCTION_ALREADY_EXISTS"
  | .alreadyClosed => str "AUCTION_ALREADY_CLOSED"
  | .stillOpen => str "AUCTION_ALREADY_CLOSED"
  | .noBids => str "NO_BIDS"
  | .draw => str "DRAW"
  | .winner bid => marshalBid libc bid

/-- The last bids of all bidders. -/
def AuctionState.lastBids (a : AuctionState) : List Bid := a.bids.toList.map (fun p => ⟨p.1, p.2⟩)

/-- The bids that no other exceeds decide. -/
def AuctionState.award (a : AuctionState) : AuctionResponse :=
  match highest Bid.value a.lastBids with
  | [] => .noBids
  | [bid] => .winner bid
  | _ => .draw

/-- One operation. -/
def AuctionHouse.step (house : AuctionHouse) : Operation → AuctionResponse × AuctionHouse
  | .create name =>
    match house name with
    | some _ => (.alreadyExists, house)
    | none => (.ok, Function.update house name (some ⟨true, ∅⟩))
  | .submit name bidder value =>
    match house name with
    | none => (.unknownAuction, house)
    | some a =>
      if a.isOpen then (.ok, Function.update house name (some { a with bids := a.bids.insert bidder value }))
      else (.alreadyClosed, house)
  | .close name =>
    match house name with
    | none => (.unknownAuction, house)
    | some a =>
      if a.isOpen then (.ok, Function.update house name (some { a with isOpen := false }))
      else (.alreadyClosed, house)
  | .eval name =>
    match house name with
    | none => (.unknownAuction, house)
    | some a => (if a.isOpen then .stillOpen else a.award, house)

/-- The responses to a sequence of operations. -/
def AuctionHouse.responses : AuctionHouse → List Operation → List AuctionResponse
  | _, [] => []
  | house, op :: ops => (house.step op).1 :: AuctionHouse.responses (house.step op).2 ops

section
variable {a : AuctionState}

theorem mem_lastBids {bid : Bid} : bid ∈ a.lastBids ↔ a.bids[bid.bidderName]? = some bid.value := by
  rw [AuctionState.lastBids, List.mem_map]
  constructor
  · rintro ⟨⟨bidder, value⟩, hp, rfl⟩
    exact ExtTreeMap.mem_toList_iff_getElem?_eq_some.mp hp
  · intro h
    exact ⟨(bid.bidderName, bid.value), ExtTreeMap.mem_toList_iff_getElem?_eq_some.mpr h, rfl⟩

theorem nodup_lastBids (a : AuctionState) : a.lastBids.Nodup := by
  have hsorted := ExtTreeMap.ordered_keys_toList (t := a.bids)
  have hpairs : a.bids.toList.Nodup :=
    hsorted.imp (fun hlt he => ne_of_cmp_lt hlt (congrArg Prod.fst he))
  apply hpairs.map
  rintro ⟨b, v⟩ ⟨b', v'⟩ he
  cases he
  rfl

theorem mem_highest_lastBids {bid : Bid} :
    bid ∈ highest Bid.value a.lastBids ↔ a.bids[bid.bidderName]? = some bid.value ∧
      ∀ (bidder : Bytes) (value : ℤ), a.bids[bidder]? = some value → value ≤ bid.value := by
  rw [mem_highest, mem_lastBids]
  apply and_congr_right
  intro _
  constructor
  · intro h bidder value hbid
    exact h ⟨bidder, value⟩ (mem_lastBids.mpr hbid)
  · intro h other hother
    exact h other.bidderName other.value (mem_lastBids.mp hother)

theorem nodup_highest_lastBids (a : AuctionState) : (highest Bid.value a.lastBids).Nodup :=
  (nodup_lastBids a).filter _

/-- The three outcomes, by the number of bids that no other exceeds. -/
theorem award_cases (a : AuctionState) :
    highest Bid.value a.lastBids = [] ∧ a.award = .noBids ∨
      (∃ bid, highest Bid.value a.lastBids = [bid] ∧ a.award = .winner bid) ∨
      ∃ bid bid' bids, highest Bid.value a.lastBids = bid :: bid' :: bids ∧ a.award = .draw := by
  rw [AuctionState.award]
  match highest Bid.value a.lastBids with
  | [] => exact Or.inl ⟨rfl, rfl⟩
  | [bid] => exact Or.inr (Or.inl ⟨bid, rfl, rfl⟩)
  | bid :: bid' :: bids => exact Or.inr (Or.inr ⟨bid, bid', bids, rfl, rfl⟩)

/-- Nobody wins an auction without bids. -/
theorem award_eq_noBids_iff : a.award = .noBids ↔ ∀ bidder : Bytes, a.bids[bidder]? = none := by
  have hempty : highest Bid.value a.lastBids = [] ↔ ∀ bidder : Bytes, a.bids[bidder]? = none := by
    rw [highest_eq_nil_iff, List.eq_nil_iff_forall_not_mem]
    constructor
    · intro h bidder
      rw [Option.eq_none_iff_forall_ne_some]
      exact fun value hbid => h ⟨bidder, value⟩ (mem_lastBids.mpr hbid)
    · intro h bid hbid
      rw [mem_lastBids, h] at hbid
      cases hbid
  rw [← hempty]
  rcases award_cases a with ⟨h, ha⟩ | ⟨bid, h, ha⟩ | ⟨bid, bid', bids, h, ha⟩
  · exact iff_of_true ha h
  · rw [h, ha]
    exact iff_of_false nofun nofun
  · rw [h, ha]
    exact iff_of_false nofun nofun

/-- The winner is the bidder whose last bid exceeds all others. -/
theorem award_eq_winner_iff {bid : Bid} :
    a.award = .winner bid ↔ a.bids[bid.bidderName]? = some bid.value ∧
      ∀ (bidder : Bytes) (value : ℤ), a.bids[bidder]? = some value → bidder ≠ bid.bidderName → value < bid.value := by
  constructor
  · intro hwinner
    have hall : highest Bid.value a.lastBids = [bid] := by
      rcases award_cases a with ⟨h, ha⟩ | ⟨bid', h, ha⟩ | ⟨bid', bid'', bids, h, ha⟩
      · rw [ha] at hwinner
        cases hwinner
      · rw [ha] at hwinner
        cases hwinner
        exact h
      · rw [ha] at hwinner
        cases hwinner
    have hbid : bid ∈ highest Bid.value a.lastBids := by
      rw [hall]
      exact List.mem_singleton_self bid
    obtain ⟨hown, hmax⟩ := mem_highest_lastBids.mp hbid
    refine ⟨hown, fun bidder value hother hne => lt_of_le_of_ne (hmax bidder value hother) ?_⟩
    -- a second bid of the same value would be among the highest as well
    rintro rfl
    have hsecond : (⟨bidder, bid.value⟩ : Bid) ∈ highest Bid.value a.lastBids :=
      mem_highest_lastBids.mpr ⟨hother, hmax⟩
    rw [hall, List.mem_singleton] at hsecond
    exact hne (congrArg Bid.bidderName hsecond)
  · rintro ⟨hown, hless⟩
    have hmax : ∀ (bidder : Bytes) (value : ℤ), a.bids[bidder]? = some value → value ≤ bid.value := by
      intro bidder value hbid
      by_cases hsame : bidder = bid.bidderName
      · rw [hsame, hown] at hbid
        exact (Option.some.inj hbid).ge
      · exact (hless bidder value hbid hsame).le
    have hbid : bid ∈ highest Bid.value a.lastBids := mem_highest_lastBids.mpr ⟨hown, hmax⟩
    have hunique : ∀ other ∈ highest Bid.value a.lastBids, other = bid := by
      intro other hother
      obtain ⟨hbid', hmax'⟩ := mem_highest_lastBids.mp hother
      by_contra hne
      have hname : other.bidderName ≠ bid.bidderName := by
        intro he
        rw [he, hown] at hbid'
        obtain ⟨bidderName, value⟩ := other
        obtain ⟨bidderName', value'⟩ := bid
        cases he
        cases hbid'
        exact hne rfl
      exact absurd (hless _ _ hbid' hname) (not_lt_of_ge (hmax' _ _ hown))
    rcases award_cases a with ⟨h, -⟩ | ⟨other, h, ha⟩ | ⟨other, other', bids, h, -⟩
    · rw [h] at hbid
      cases hbid
    · rw [ha, hunique other (h ▸ List.mem_singleton_self other)]
    · -- two bids, which would both be this one
      have hnodup := nodup_highest_lastBids a
      have hfirst := hunique other (h ▸ List.mem_cons_self)
      have hsecond := hunique other' (h ▸ List.mem_cons_of_mem _ List.mem_cons_self)
      rw [h, hfirst, hsecond] at hnodup
      exact absurd List.mem_cons_self (List.nodup_cons.mp hnodup).1

/-- The draw is between bidders that hold the highest value. -/
theorem award_eq_draw_iff :
    a.award = .draw ↔ ∃ (bidder bidder' : Bytes) (high : ℤ), bidder ≠ bidder' ∧ a.bids[bidder]? = some high ∧
      a.bids[bidder']? = some high ∧ ∀ (b : Bytes) (value : ℤ), a.bids[b]? = some value → value ≤ high := by
  constructor
  · intro hdraw
    rcases award_cases a with ⟨-, ha⟩ | ⟨bid, -, ha⟩ | ⟨bid, bid', bids, h, -⟩
    · rw [ha] at hdraw
      cases hdraw
    · rw [ha] at hdraw
      cases hdraw
    · have hnodup := nodup_highest_lastBids a
      have hfirst : bid ∈ highest Bid.value a.lastBids := h ▸ List.mem_cons_self
      have hsecond : bid' ∈ highest Bid.value a.lastBids := h ▸ List.mem_cons_of_mem _ List.mem_cons_self
      obtain ⟨hbid, hmax⟩ := mem_highest_lastBids.mp hfirst
      obtain ⟨hbid', hmax'⟩ := mem_highest_lastBids.mp hsecond
      have hvalue : bid'.value = bid.value := le_antisymm (hmax _ _ hbid') (hmax' _ _ hbid)
      rw [hvalue] at hbid'
      refine ⟨bid.bidderName, bid'.bidderName, bid.value, fun hname => ?_, hbid, hbid', hmax⟩
      have hsame : bid = bid' := by
        obtain ⟨bidderName, value⟩ := bid
        obtain ⟨bidderName', value'⟩ := bid'
        cases hname
        cases hvalue
        rfl
      rw [h, hsame] at hnodup
      exact absurd List.mem_cons_self (List.nodup_cons.mp hnodup).1
  · rintro ⟨bidder, bidder', high, hne, hbid, hbid', hmax⟩
    have hfirst : (⟨bidder, high⟩ : Bid) ∈ highest Bid.value a.lastBids := mem_highest_lastBids.mpr ⟨hbid, hmax⟩
    have hsecond : (⟨bidder', high⟩ : Bid) ∈ highest Bid.value a.lastBids := mem_highest_lastBids.mpr ⟨hbid', hmax⟩
    rcases award_cases a with ⟨h, -⟩ | ⟨bid, h, -⟩ | ⟨bid, bid', bids, -, ha⟩
    · rw [h] at hfirst
      cases hfirst
    · rw [h, List.mem_singleton] at hfirst hsecond
      exact absurd (congrArg Bid.bidderName (hfirst.trans hsecond.symm)) hne
    · exact ha

end

end SecureChaincode
