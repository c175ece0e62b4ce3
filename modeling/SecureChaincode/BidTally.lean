import SecureChaincode.AbstractAuction

/-! The loop of `auction_eval` over the bids decides as the abstract auction does. -/
namespace SecureChaincode

open Std (ExtTreeMap)

section
variable {libc : Libc}

def Winner.lead (w : Winner) : Lead Bid ℤ := ⟨w.winner, w.high, w.draw⟩

/-- One round of the loop, for a record that can be read. -/
theorem considerBid_eq {acc : Winner} {key record : Bytes} {bid : Bid}
    (h : unmarshalBid libc (record ++ [0]) = some bid) :
    (considerBid libc acc (key, record)).map Winner.lead = some (acc.lead.next Bid.value bid) := by
  rw [considerBid, h, Lead.next]
  change some (Winner.lead (if _ then _ else _)) = _
  simp only [apply_ite Winner.lead]
  rfl

theorem foldlM_considerBid {l : List (Bytes × Bytes)} {bids : List Bid} {acc : Winner}
    (h : List.Forall₂ (fun p bid => unmarshalBid libc (p.2 ++ [0]) = some bid) l bids) :
    (l.foldlM (considerBid libc) acc).map Winner.lead = some (bids.foldl (Lead.next Bid.value) acc.lead) := by
  induction h generalizing acc with
  | nil => rfl
  | cons hp _ ih =>
    obtain ⟨next, hnext, hlead⟩ := Option.map_eq_some_iff.mp (@considerBid_eq libc acc _ _ _ hp)
    rw [List.foldlM_cons, hnext, List.foldl_cons, ← hlead]
    exact ih

/-- What the loop finds in the last bids, in whatever order it takes them, is the award. -/
theorem award_of_perm {a : AuctionState} {bids : List Bid} (hperm : bids.Perm a.lastBids) (hne : bids ≠ [])
    {start : Lead Bid ℤ} (hstart : ∀ bid ∈ bids, start.high < bid.value) :
    a.award =
      let s := bids.foldl (Lead.next Bid.value) start
      if s.tie then .draw else .winner s.leader := by
  have hhighest := highest_perm Bid.value hperm
  dsimp only
  obtain ⟨bid, hbid⟩ := List.exists_mem_of_ne_nil bids hne
  rcases foldl_next ⟨bid, hbid, hstart bid hbid⟩ with ⟨htie, hone⟩ | ⟨htie, hseveral⟩
  · rw [hone] at hhighest
    rw [htie, AuctionState.award, List.perm_singleton.mp hhighest.symm]
    rfl
  · have hlength := hhighest.length_eq
    rw [htie, if_pos rfl]
    rcases award_cases a with ⟨h, -⟩ | ⟨bid, h, -⟩ | ⟨bid, bid', bids, -, ha⟩
    · rw [h, List.length_nil] at hlength
      omega
    · rw [h, List.length_singleton] at hlength
      omega
    · exact ha

/-- A bid whose record can be read. -/
structure ReadableBid (libc : Libc) (bid : Bid) : Prop where
  nonneg : 0 ≤ bid.value
  read : ∀ rest, unmarshalBid libc (marshalBid libc bid ++ 0 :: rest) = some bid

/-- The loop goes over the records of the last bids, each under a key of its own, and its result is
that of the abstract auction. -/
theorem evalBids_eq {a : AuctionState} {values : WriteSet} {key : Bytes → Bytes} (uninit : ℤ)
    (hkey : Function.Injective key)
    (hvalues : ∀ k v, values[k]? = some v ↔ ∃ bid ∈ a.lastBids, k = key bid.bidderName ∧ v = marshalBid libc bid)
    (hread : ∀ bid ∈ a.lastBids, ReadableBid libc bid) :
    evalBids libc uninit values = some (a.award.text libc) := by
  let entry (bid : Bid) : Bytes × Bytes := (key bid.bidderName, marshalBid libc bid)
  have hentries : (a.lastBids.map entry).Nodup := by
    apply (nodup_lastBids a).map_on
    intro bid hbid bid' hbid' he
    have hname := hkey (congrArg Prod.fst he)
    have hvalue : some bid.value = some bid'.value := by
      rw [← mem_lastBids.mp hbid, hname, mem_lastBids.mp hbid']
    cases bid
    cases bid'
    cases hname
    cases hvalue
    rfl
  have hperm : values.toList.Perm (a.lastBids.map entry) := by
    have hnodup : values.toList.Nodup :=
      ExtTreeMap.ordered_keys_toList.imp (fun hlt he => ne_of_cmp_lt hlt (congrArg Prod.fst he))
    rw [List.perm_ext_iff_of_nodup hnodup hentries]
    rintro ⟨k, v⟩
    rw [ExtTreeMap.mem_toList_iff_getElem?_eq_some, hvalues, List.mem_map]
    constructor
    · rintro ⟨bid, hbid, rfl, rfl⟩
      exact ⟨bid, hbid, rfl⟩
    · rintro ⟨bid, hbid, he⟩
      cases he
      exact ⟨bid, hbid, rfl, rfl⟩
  -- the bids in the order of the loop
  let parsed (p : Bytes × Bytes) : Bid := (unmarshalBid libc (p.2 ++ [0])).getD ⟨[], 0⟩
  have hparsed : ∀ bid ∈ a.lastBids, unmarshalBid libc ((entry bid).2 ++ [0]) = some bid :=
    fun bid hbid => (hread bid hbid).read []
  have hbids : (values.toList.map parsed).Perm a.lastBids := by
    have hback : (a.lastBids.map entry).map parsed = a.lastBids := by
      rw [List.map_map]
      conv_rhs => rw [← List.map_id a.lastBids]
      apply List.map_congr_left
      intro bid hbid
      simp only [parsed, Function.comp_apply, hparsed bid hbid, Option.getD_some, id_eq]
    exact hback ▸ hperm.map parsed
  have hloop : List.Forall₂ (fun p bid => unmarshalBid libc (p.2 ++ [0]) = some bid) values.toList
      (values.toList.map parsed) := by
    rw [List.forall₂_map_right_iff, List.forall₂_same]
    intro p hp
    obtain ⟨bid, hbid, rfl⟩ := List.mem_map.mp (hperm.mem_iff.mp hp)
    simp only [parsed, hparsed bid hbid, Option.getD_some]
  have hempty : values.isEmpty = true ↔ values.toList.map parsed = [] := by
    rw [List.map_eq_nil_iff, ← ExtTreeMap.isEmpty_toList, List.isEmpty_iff]
  rw [evalBids]
  split_ifs with hno
  · have hnone : a.award = .noBids := by
      rw [hempty.mp hno, List.nil_perm] at hbids
      rw [AuctionState.award, hbids]
      rfl
    rw [hnone]
    rfl
  · have hne : values.toList.map parsed ≠ [] := fun h => hno (hempty.mpr h)
    let start : Winner := ⟨⟨[], uninit⟩, -1, false⟩
    have hstart : ∀ bid ∈ values.toList.map parsed, start.lead.high < bid.value := by
      intro bid hbid
      have hpos := (hread bid (hbids.mem_iff.mp hbid)).nonneg
      change -1 < bid.value
      omega
    obtain ⟨acc, hacc, hlead⟩ := Option.map_eq_some_iff.mp (@foldlM_considerBid libc _ _ start hloop)
    rw [hacc, award_of_perm hbids hne hstart, ← hlead]
    obtain ⟨winner, high, draw⟩ := acc
    cases draw with
    | true => rfl
    | false => rfl

end

end SecureChaincode
