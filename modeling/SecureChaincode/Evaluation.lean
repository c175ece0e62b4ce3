import SecureChaincode.AuctionRecords
import SecureChaincode.BidTally

/-! The result of `auction_eval` for stored bids of any value. The loop starts with -1 as the
highest value, so this value and those below it are special. -/
namespace SecureChaincode

open Std (ExtTreeMap)

section
variable (libc : Libc) (uninit : ℤ)

/-- The loop over the bids, in a certain order. -/
def evalInOrder (order : List (Bytes × Bytes)) : Option Bytes :=
  (order.foldlM (considerBid libc) ⟨⟨[], uninit⟩, -1, false⟩).map
    (fun acc => if acc.draw then str "DRAW" else marshalBid libc acc.winner)

/-- The records of a list of bids. -/
def RecordsOf (records : List (Bytes × Bytes)) (bids : List Bid) : Prop :=
  List.Forall₂ (fun p bid => unmarshalBid libc (p.2 ++ [0]) = some bid) records bids

/-- The result names the bid that exceeds all the others, and tells whether several bids have
the highest value. -/
structure PicksWinner (bids : List Bid) (result : Bytes) : Prop where
  winner : ∀ before bid behind, bids = before ++ bid :: behind →
    (∀ other ∈ before ++ behind, other.value < bid.value) → result = marshalBid libc bid
  draw : result = str "DRAW" ↔ ∃ high, (∀ bid ∈ bids, bid.value ≤ high) ∧
    2 ≤ (bids.filter (fun bid => decide (bid.value = high))).length

/-- The text for the result of the loop. -/
def resultText : Option Bid → Bytes
  | none => str "DRAW"
  | some bid => marshalBid libc bid

end

/-- A bid exceeds the value at the start, or it is the highest and there are two of them. -/
def ReachesStart (bids : List Bid) : Prop :=
  (∃ bid ∈ bids, -1 < bid.value) ∨ 2 ≤ (bids.filter (fun bid => decide (bid.value = -1))).length

section
variable {libc : Libc} {uninit : ℤ}

theorem evalInOrder_eq {records : List (Bytes × Bytes)} {bids : List Bid} (h : RecordsOf libc records bids) :
    evalInOrder libc uninit records =
      some (resultText libc (bids.foldl (Lead.next Bid.value) ⟨⟨[], uninit⟩, -1, false⟩).result) := by
  let start : Winner := ⟨⟨[], uninit⟩, -1, false⟩
  have hstart : start.lead = ⟨⟨[], uninit⟩, -1, false⟩ := rfl
  obtain ⟨acc, hacc, hlead⟩ := Option.map_eq_some_iff.mp (@foldlM_considerBid libc _ _ start h)
  rw [evalInOrder, hacc, ← hstart, ← hlead]
  obtain ⟨winner, high, draw⟩ := acc
  cases draw with
  | true => rfl
  | false => rfl

theorem evalInOrder_perm {records order : List (Bytes × Bytes)} {bids : List Bid}
    (h : RecordsOf libc records bids) (hperm : order.Perm records) :
    evalInOrder libc uninit order = evalInOrder libc uninit records := by
  obtain ⟨bids', h', hbids⟩ := List.perm_comp_forall₂ hperm h
  rw [evalInOrder_eq h, evalInOrder_eq h', result_foldl_perm hbids]

/-- A bid that exceeds all the others is the only highest one. -/
theorem highest_of_exceeds {before behind : List Bid} {bid : Bid}
    (h : ∀ other ∈ before ++ behind, other.value < bid.value) :
    highest Bid.value (before ++ bid :: behind) = [bid] := by
  have hle : ∀ other ∈ before ++ bid :: behind, other.value ≤ bid.value := by
    intro other hother
    rcases List.mem_append.mp hother with hb | hb
    · exact (h other (List.mem_append_left _ hb)).le
    · rcases List.mem_cons.mp hb with rfl | hb
      · exact le_rfl
      · exact (h other (List.mem_append_right _ hb)).le
  have hnone {l : List Bid} (hl : ∀ other ∈ l, other.value < bid.value) :
      l.filter (fun other => decide (other.value = bid.value)) = [] := by
    rw [List.filter_eq_nil_iff]
    exact fun other hother he => absurd (of_decide_eq_true he) (hl other hother).ne
  rw [highest_eq Bid.value hle ⟨bid, List.mem_append_right _ List.mem_cons_self, rfl⟩, List.filter_append,
    List.filter_cons, hnone (fun other hother => h other (List.mem_append_left _ hother)),
    hnone (fun other hother => h other (List.mem_append_right _ hother))]
  simp

/-- A highest bid that is the only one exceeds all the others. -/
theorem exceeds_of_highest {before behind : List Bid} {bid : Bid}
    (hle : ∀ other ∈ before ++ bid :: behind, other.value ≤ bid.value)
    (hone : (highest Bid.value (before ++ bid :: behind)).length < 2) :
    ∀ other ∈ before ++ behind, other.value < bid.value := by
  intro other hother
  have hmem : other ∈ before ++ bid :: behind := by
    rcases List.mem_append.mp hother with hother | hother
    · exact List.mem_append_left _ hother
    · exact List.mem_append_right _ (List.mem_cons_of_mem bid hother)
  refine lt_of_le_of_ne (hle other hmem) (fun heq => ?_)
  -- a second bid of this value would be counted as well
  have hfound : other ∈ (before ++ behind).filter (fun b => decide (b.value = bid.value)) :=
    List.mem_filter.mpr ⟨hother, decide_eq_true heq⟩
  have hlen := List.length_pos_of_mem hfound
  rw [List.filter_append, List.length_append] at hlen
  rw [highest_eq Bid.value hle ⟨bid, List.mem_append_right _ List.mem_cons_self, rfl⟩, List.filter_append,
    List.filter_cons, if_pos (decide_eq_true rfl), List.length_append, List.length_cons] at hone
  omega

/-- Several bids have the highest value. -/
theorem several_highest_iff {bids : List Bid} :
    (∃ high, (∀ bid ∈ bids, bid.value ≤ high) ∧
      2 ≤ (bids.filter (fun bid => decide (bid.value = high))).length) ↔ 2 ≤ (highest Bid.value bids).length := by
  constructor
  · rintro ⟨high, hle, htwo⟩
    obtain ⟨bid, hbid⟩ := List.exists_mem_of_length_pos (zero_lt_two.trans_le htwo)
    obtain ⟨hmem, hhigh⟩ := List.mem_filter.mp hbid
    rwa [highest_eq Bid.value hle ⟨bid, hmem, of_decide_eq_true hhigh⟩]
  · intro htwo
    obtain ⟨bid, hbid⟩ := List.exists_mem_of_length_pos (zero_lt_two.trans_le htwo)
    obtain ⟨hmem, hle⟩ := (mem_highest Bid.value).mp hbid
    refine ⟨bid.value, hle, ?_⟩
    rwa [highest_eq Bid.value hle ⟨bid, hmem, rfl⟩] at htwo

theorem marshalBid_ne_draw (bid : Bid) : marshalBid libc bid ≠ str "DRAW" := by
  intro h
  have hhead := congrArg List.head? h
  cases hhead

/-- The loop decides as it should once it has found the only highest bid, or that there are
several. -/
theorem picksWinner_of_highest {bids : List Bid} {r : Option Bid}
    (h : (∃ bid, r = some bid ∧ highest Bid.value bids = [bid]) ∨
      r = none ∧ 2 ≤ (highest Bid.value bids).length) : PicksWinner libc bids (resultText libc r) := by
  rcases h with ⟨bid, rfl, hone⟩ | ⟨rfl, htwo⟩
  · constructor
    · rintro before bid' behind rfl hexceeds
      rw [highest_of_exceeds hexceeds, List.singleton_inj] at hone
      rw [resultText, hone]
    · rw [several_highest_iff, hone, List.length_singleton]
      exact ⟨fun hdraw => absurd hdraw (marshalBid_ne_draw bid), fun hlen => absurd hlen (by decide)⟩
  · constructor
    · rintro before bid behind rfl hexceeds
      rw [highest_of_exceeds hexceeds, List.length_singleton] at htwo
      omega
    · rw [several_highest_iff]
      exact ⟨fun _ => htwo, fun _ => rfl⟩

variable (libc) in
/-- Where no bid is above -1, the loop tells only whether one has this value. -/
theorem resultText_of_le (uninit : ℤ) {bids : List Bid} (hle : ∀ bid ∈ bids, bid.value ≤ -1) :
    resultText libc (bids.foldl (Lead.next Bid.value) ⟨⟨[], uninit⟩, -1, false⟩).result =
      if bids.any (fun bid => decide (bid.value = -1)) then str "DRAW" else marshalBid libc ⟨[], uninit⟩ := by
  rw [foldl_next_of_le hle, Lead.result]
  cases bids.any (fun bid => decide (bid.value = -1)) with
  | false => rfl
  | true => rfl

/-- From -1 on the loop decides as it should. -/
theorem picksWinner_foldl {bids : List Bid} (h : ReachesStart bids) :
    PicksWinner libc bids
      (resultText libc (bids.foldl (Lead.next Bid.value) ⟨⟨[], uninit⟩, -1, false⟩).result) := by
  let start : Lead Bid ℤ := ⟨⟨[], uninit⟩, -1, false⟩
  by_cases hexceeds : ∃ bid ∈ bids, start.high < bid.value
  · apply picksWinner_of_highest
    rcases foldl_next hexceeds with ⟨htie, hone⟩ | ⟨htie, htwo⟩
    · exact Or.inl ⟨_, by rw [Lead.result, htie]; rfl, hone⟩
    · exact Or.inr ⟨by rw [Lead.result, htie]; rfl, htwo⟩
  · -- nothing exceeds it, so two bids have just this value
    have htwo := h.resolve_left hexceeds
    have hle : ∀ bid ∈ bids, bid.value ≤ start.high :=
      fun bid hbid => le_of_not_gt (fun hlt => hexceeds ⟨bid, hbid, hlt⟩)
    obtain ⟨bid, hbid⟩ := List.exists_mem_of_length_pos (zero_lt_two.trans_le htwo)
    obtain ⟨hmem, hhigh⟩ := List.mem_filter.mp hbid
    apply picksWinner_of_highest
    refine Or.inr ⟨?_, ?_⟩
    · have hany : bids.any (fun bid => decide (bid.value = start.high)) = true :=
        List.any_eq_true.mpr ⟨bid, hmem, hhigh⟩
      rw [foldl_next_of_le hle, Lead.result, hany]
      rfl
    · rwa [highest_eq Bid.value hle ⟨bid, hmem, of_decide_eq_true hhigh⟩]

theorem marshalBid_nameless (value : ℤ) :
    marshalBid libc ⟨[], value⟩ = str "\x7b\"bidder\":\"\",\"value\":" ++ libc.printDouble value ++ str "\x7d" := by
  have hempty : stringMember (str "bidder") [] = [(str "bidder", .string [])] := rfl
  have hfront : str "\x7b\"bidder\":\"\",\"value\":" = str "\x7b" ++ (jsonSerializeString (str "bidder") ++ str ":" ++
      jsonSerializeString [] ++ (str "," ++ (jsonSerializeString (str "value") ++ str ":"))) := by decide +kernel
  rw [marshalBid, hempty, jsonSerializeObject, hfront]
  simp [List.intercalate, jsonSerializeScalar]

/-- If the right bid is picked whatever the memory holds, the bids reach -1. -/
theorem reachesStart_of_picks {bids : List Bid} (hne : bids ≠ [])
    (hprint : libc.printDouble (0 : ℤ) ≠ libc.printDouble (1 : ℤ))
    (h : ∀ uninit, PicksWinner libc bids
      (resultText libc (bids.foldl (Lead.next Bid.value) ⟨⟨[], uninit⟩, -1, false⟩).result)) :
    ReachesStart bids := by
  by_contra hnot
  obtain ⟨hexceeds, hfew⟩ := not_or.mp hnot
  have hle : ∀ bid ∈ bids, bid.value ≤ -1 :=
    fun bid hbid => le_of_not_gt (fun hlt => hexceeds ⟨bid, hbid, hlt⟩)
  by_cases hany : bids.any (fun bid => decide (bid.value = -1)) = true
  · -- one bid is -1, and is taken for a draw with the start
    obtain ⟨bid, hbid, hvalue⟩ := List.any_eq_true.mp hany
    have hdraw := (resultText_of_le libc 0 hle).trans (if_pos hany)
    have htwo := several_highest_iff.mp ((h 0).draw.mp hdraw)
    rw [highest_eq Bid.value hle ⟨bid, hbid, of_decide_eq_true hvalue⟩] at htwo
    exact hfew htwo
  · -- all bids are below, and the winner was never assigned
    have hresult (uninit : ℤ) := (resultText_of_le libc uninit hle).trans (if_neg hany)
    have hone : (highest Bid.value bids).length < 2 := by
      by_contra htwo
      have hdraw := (h 0).draw.mpr (several_highest_iff.mpr (not_lt.mp htwo))
      exact marshalBid_ne_draw ⟨[], 0⟩ ((hresult 0).symm.trans hdraw)
    obtain ⟨bid, hbid, hmax⟩ := Set.exists_max_image {bid | bid ∈ bids} Bid.value bids.finite_toSet
      (List.exists_mem_of_ne_nil bids hne)
    obtain ⟨before, behind, rfl⟩ := List.append_of_mem hbid
    have hexceeds := exceeds_of_highest hmax hone
    have hzero := (hresult 0).symm.trans ((h 0).winner before bid behind rfl hexceeds)
    have hunit := (hresult 1).symm.trans ((h 1).winner before bid behind rfl hexceeds)
    have hsame := hzero.trans hunit.symm
    rw [marshalBid_nameless, marshalBid_nameless, List.append_cancel_right_eq, List.append_cancel_left_eq] at hsame
    exact hprint hsame

end

/-- The evaluation of a closed auction with stored bids has a result that does not depend on
their order. It is the right one, whatever the memory of the winner holds at first, exactly if a bid is
not negative or two bids are -1. -/
theorem eval_picks_winner {libc : Libc} {S : Type} {step : S → (c : Call) → Option c.Answer × S} {name : Bytes}
    {s s' s'' : S} {record : Bytes} {len : ℕ} {theAuction : Auction} {values : WriteSet} {bids : List Bid}
    (hrecord : step s (.getState name maxValueSize) = (some (record, len), s')) (hlen : len ≠ 0)
    (hauction : unmarshalAuction libc record = some theAuction) (hclosed : theAuction.isOpen = false)
    (hrange : step s' (.getStateByPartialCompositeKey (bidPrefix ++ name ++ str ".") ∅) =
      (some values, s''))
    (hne : values.isEmpty = false) (hbids : RecordsOf libc values.toList bids)
    (hprint : libc.printDouble (0 : ℤ) ≠ libc.printDouble (1 : ℤ)) :
    ∃ result : ℤ → Bytes,
      (∀ uninit, (auctionEval libc uninit name).run step s = (some (result uninit), s'') ∧
        ∀ order : List (Bytes × Bytes), order.Perm values.toList →
          evalInOrder libc uninit order = some (result uninit)) ∧
      ((∀ uninit, PicksWinner libc bids (result uninit)) ↔ ReachesStart bids) := by
  let result (uninit : ℤ) := resultText libc (bids.foldl (Lead.next Bid.value) ⟨⟨[], uninit⟩, -1, false⟩).result
  have hresult (uninit : ℤ) : evalInOrder libc uninit values.toList = some (result uninit) := evalInOrder_eq hbids
  have hmap : ¬ values.isEmpty = true := by rw [hne]; exact Bool.false_ne_true
  have hnonempty : bids ≠ [] := by
    rintro rfl
    have hlist : values.toList = [] := List.length_eq_zero_iff.mp hbids.length_eq
    rw [← ExtTreeMap.isEmpty_toList, hlist] at hne
    cases hne
  refine ⟨result, fun uninit => ⟨?_, fun order hperm => (evalInOrder_perm hbids hperm).trans (hresult uninit)⟩,
    reachesStart_of_picks hnonempty hprint, fun hreaches uninit => picksWinner_foldl hreaches⟩
  have hprogram : auctionEval libc uninit name = (Operation.eval name).program libc uninit := rfl
  have hplan : (Operation.eval name).plan libc record len = some .tally := by
    rw [Operation.plan, if_neg hlen, hauction, Option.map_some, hclosed]
    rfl
  have htally : evalBids libc uninit values = some (result uninit) := by
    rw [evalBids, if_neg hmap]
    exact hresult uninit
  have hread : (getState (Operation.eval name).auctionName maxValueSize).run step s =
      (some (record, len), s') := by
    rw [getState, Program.run_request]
    exact hrecord
  have hvalues : (getStateByPartialCompositeKey (bidPrefix ++ (Operation.eval name).auctionName ++ str ".")
      ∅).run step s' = (some values, s'') := by
    rw [getStateByPartialCompositeKey, Program.run_request]
    exact hrange
  rw [hprogram, Operation.program_eq, Program.run_bind_of_some hread, hplan, Program.orFault_some_bind,
    Plan.program, Program.run_bind_of_some hvalues, htally]
  rfl

deriving instance DecidableEq for Auction, Bid

/-- The bids for the auction `a`, each under its key. -/
def storedBids (bids : List Bid) : WriteSet :=
  insertAll ∅ (bids.map (fun bid =>
    (bidPrefix ++ str "a." ++ bid.bidderName ++ str ".", marshalBid signedLibc bid)))

/-- Surroundings in which the auction `a` is closed and has these bids. -/
def closedWith (bids : List Bid) : Unit → (c : Call) → Option c.Answer × Unit
  | _, .getState _ _ =>
    let record := marshalAuction signedLibc ⟨str "a", false⟩
    (some (record ++ [0], record.length), ())
  | _, .putState _ _ => (some (), ())
  | _, .getStateByPartialCompositeKey _ _ => (some (storedBids bids), ())

/-- A tie, and a higher bid behind it. -/
def lateBid : List Bid := [⟨str "x", -1⟩, ⟨str "y", -1⟩, ⟨str "z", 3⟩]

/-- A tie below a later highest bid does not matter. -/
theorem tie_below_winner :
    ((auctionEval signedLibc 0 (str "a")).run (closedWith lateBid) ()).1 =
      some (marshalBid signedLibc ⟨str "z", 3⟩) := by
  have hvalues : (storedBids lateBid).toList =
      [(str ".somePrefix.a.x.", str "\x7b\"bidder\":\"x\",\"value\":-1\x7d"),
        (str ".somePrefix.a.y.", str "\x7b\"bidder\":\"y\",\"value\":-1\x7d"),
        (str ".somePrefix.a.z.", str "\x7b\"bidder\":\"z\",\"value\":3\x7d")] := by decide +kernel
  have hrecords : RecordsOf signedLibc (storedBids lateBid).toList lateBid := by
    rw [hvalues]
    exact .cons (by decide +kernel) (.cons (by decide +kernel) (.cons (by decide +kernel) .nil))
  have hreaches : ReachesStart lateBid := Or.inl ⟨⟨str "z", 3⟩, by decide, by decide⟩
  have hempty : (storedBids lateBid).isEmpty = false := by decide +kernel
  obtain ⟨result, hruns, hpicks⟩ := @eval_picks_winner signedLibc Unit (closedWith lateBid) (str "a") () ()
    () _ _ ⟨str "a", false⟩ _ _ rfl (by decide +kernel) (by decide +kernel) rfl rfl hempty hrecords (by decide +kernel)
  rw [(hruns 0).1, (hpicks.mpr hreaches 0).winner [⟨str "x", -1⟩, ⟨str "y", -1⟩] ⟨str "z", 3⟩ [] rfl (by decide)]

/-- The only bid is a draw if it is -1. If all bids are below, the winner is a bid that nobody
has made. -/
theorem negative_bids_misjudged :
    ((auctionEval signedLibc 0 (str "a")).run (closedWith [⟨str "x", -1⟩]) ()).1 = some (str "DRAW") ∧
      ((auctionEval signedLibc 0 (str "a")).run (closedWith [⟨str "x", -2⟩]) ()).1 =
        some (marshalBid signedLibc ⟨[], 0⟩) ∧
      marshalBid signedLibc ⟨[], 0⟩ ≠ marshalBid signedLibc ⟨str "x", -2⟩ := by
  refine ⟨by decide +kernel, by decide +kernel, by decide +kernel⟩

end SecureChaincode
