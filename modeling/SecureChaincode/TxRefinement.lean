import SecureChaincode.TxPlan

/-! `parse_endorser_transaction` carries out the plan: an action whose reads are fresh
offers its writes to the update map, any other leaves the map alone. -/
namespace SecureChaincode

open Std

theorem leaving_eq_ok {σ α : Type} {s : σ} {p : Parse α} {a : α} (h : leaving s p = .ok a) :
    p = .ok a :=
  mapError_eq_ok h

theorem leaving_eq_error {σ α : Type} {s : σ} {p : Parse α} {e : Exit × σ}
    (h : leaving s p = .error e) : p = .error e.1 ∧ e.2 = s := by
  obtain ⟨e', he, rfl⟩ := mapError_eq_error h
  exact ⟨he, rfl⟩

theorem deref_eq_ok {α : Type} {p : Option α} {a : α} (h : deref p = .ok a) : p = some a := by
  cases p with
  | none => cases h
  | some b =>
    cases h
    rfl

theorem deref_faults {α : Type} (p : Option α) : ExitsWith (· = .fault) (deref p) := by
  cases p with
  | none => exact .error rfl
  | some b => exact .ok b

theorem leaving_faults {σ α : Type} {p : Parse α} (h : ExitsWith (· = .fault) p) (s : σ) :
    ExitsWith (fun e => e.1 = .fault) (leaving s p) := by
  intro e he
  exact h e.1 (leaving_eq_error he).1

theorem decodePb_eq_ok {α : Type} {m : Encoded α} {a : α} (h : decodePb m = .ok a) :
    m.decoded = some a := by
  unfold decodePb at h
  cases hd : m.decoded with
  | none =>
    rw [hd] at h
    cases h
  | some b =>
    rw [hd] at h
    cases h
    rfl

/-- One round of a write loop that ends: what it has offered to the update map. -/
structure Offers (version : Version) (acc acc' : WritePhase) (l : List (Bytes × Bytes))
    (valid : Bool) : Prop where
  updates_eq : acc'.updates = insertAll acc.updates (stamp version l)
  validTx_eq : acc'.validTx = (acc.validTx && valid)

theorem Offers.refl (version : Version) (acc : WritePhase) : Offers version acc acc [] true :=
  ⟨rfl, (Bool.and_true _).symm⟩

theorem Offers.trans {version : Version} {acc acc' acc'' : WritePhase} {l l' : List (Bytes × Bytes)}
    {b b' : Bool} (h : Offers version acc acc' l b) (h' : Offers version acc' acc'' l' b') :
    Offers version acc acc'' (l ++ l') (b && b') := by
  constructor
  · rw [h'.updates_eq, h.updates_eq, stamp_append, insertAll_append]
  · rw [h'.validTx_eq, h.validTx_eq, Bool.and_assoc]

/-- A write loop offers, over its rounds, what the rounds offer. -/
theorem foldlM_offers {ι : Type} {version : Version} {f : WritePhase → ι → Leaving Kvs WritePhase}
    {g : ι → List (Bytes × Bytes)} {v : ι → Bool} {acc acc' : WritePhase} {is : List ι}
    (h : is.foldlM f acc = .ok acc')
    (hf : ∀ acc i acc', f acc i = .ok acc' → Offers version acc acc' (g i) (v i)) :
    Offers version acc acc' (is.flatMap g) (is.all v) := by
  refine foldlM_invariant (fun is t => Offers version acc t (is.flatMap g) (is.all v))
    (Offers.refl version acc) ?_ h
  intro is i t t' ht hi
  have hstep := ht.trans (hf t i t' hi)
  simpa only [List.flatMap_append, List.flatMap_cons, List.flatMap_nil, List.append_nil,
    List.all_append, List.all_cons, List.all_nil, Bool.and_true] using hstep

theorem lsccWrite_offers {ns : Bytes} {version : Version} {acc acc' : WritePhase} {w : KVWrite}
    (h : lsccWrite ns version acc w = .ok acc') :
    Offers version acc acc' (simpleWrite ns w).toList true := by
  rw [lsccWrite] at h
  obtain ⟨key, hk, h⟩ := bind_eq_ok h
  obtain ⟨val, hv, h⟩ := bind_eq_ok h
  cases h
  have hkey := deref_eq_ok (leaving_eq_ok hk)
  have hval := deref_eq_ok (leaving_eq_ok hv)
  exact ⟨by simp [simpleWrite, hkey, hval, stamp, insertAll], (Bool.and_true _).symm⟩

/-- A round of the `ecc` loop that ends has found a key and the first value. -/
theorem eccWrite_ok {ns : Bytes} {version : Version} {writes : List KVWrite}
    {acc acc' : WritePhase} {w : KVWrite} (h : eccWrite ns version writes acc w = .ok acc') :
    ∃ p, eccFirstWrite ns writes w = some p ∧ Offers version acc acc' [p] true := by
  rw [eccWrite] at h
  obtain ⟨wkey, hk, h⟩ := bind_eq_ok h
  obtain ⟨key, hn, h⟩ := bind_eq_ok h
  obtain ⟨first, hf, h⟩ := bind_eq_ok h
  obtain ⟨val, hv, h⟩ := bind_eq_ok h
  cases h
  have hkey := deref_eq_ok (leaving_eq_ok hk)
  have hname := deref_eq_ok (leaving_eq_ok hn)
  have hfirst := deref_eq_ok (leaving_eq_ok hf)
  have hval := deref_eq_ok (leaving_eq_ok hv)
  refine ⟨(key, val), by simp [eccFirstWrite, hkey, hname, hfirst, hval], ?_⟩
  exact ⟨rfl, (Bool.and_true _).symm⟩

theorem eccWrite_offers {ns : Bytes} {version : Version} {writes : List KVWrite}
    {acc acc' : WritePhase} {w : KVWrite} (h : eccWrite ns version writes acc w = .ok acc') :
    Offers version acc acc' (eccFirstWrite ns writes w).toList true := by
  obtain ⟨p, hp, ho⟩ := eccWrite_ok h
  rw [hp]
  exact ho

theorem erccWrites_offers {state : Kvs} {ns : Bytes} {version : Version} {acc acc' : WritePhase}
    {writes : List KVWrite} (h : erccWrites state ns version acc writes = .ok acc') :
    Offers version acc acc' (writes.head?.toList.filterMap (simpleWrite ns))
      (writes.length == 1) := by
  rw [erccWrites] at h
  obtain ⟨w, hw, h⟩ := bind_eq_ok h
  obtain ⟨key, hk, h⟩ := bind_eq_ok h
  obtain ⟨mrenclave, _, h⟩ := bind_eq_ok h
  -- the copy of the measurement fits its buffer, or the round has not ended
  split_ifs at h with hfit
  obtain ⟨val, hv, h⟩ := bind_eq_ok h
  cases h
  have hhead := deref_eq_ok (leaving_eq_ok hw)
  have hkey := deref_eq_ok (leaving_eq_ok hk)
  have hval := deref_eq_ok (leaving_eq_ok hv)
  exact ⟨by simp [hhead, simpleWrite, hkey, hval, stamp, insertAll], rfl⟩

theorem flatMap_toList {α β : Type} (f : α → Option β) (l : List α) :
    l.flatMap (fun a => (f a).toList) = l.filterMap f :=
  (List.filterMap_eq_flatMap_toList f l).symm

theorem singleWrite_of_ne {ns : Bytes} (h : ns ≠ str "ercc") (writes : List KVWrite) :
    singleWrite ns writes = true := by
  simp [singleWrite, bne_iff_ne.mpr h]

/-- A namespace that is written to its end has been decoded, and went the way of its name. -/
theorem nsWrites_eq_ok {state : Kvs} {version : Version} {acc acc' : WritePhase}
    {n : NsReadWriteSet} (h : nsWrites state version acc n = .ok acc') :
    ∃ ns kv, decodedNs n = some (ns, kv) ∧
      (if ns = str "lscc" then kv.writes.foldlM (lsccWrite ns version) acc
        else if ns = str "ercc" then erccWrites state ns version acc kv.writes
        else if ns = str "ecc" then kv.writes.foldlM (eccWrite ns version kv.writes) acc
        else .ok acc) = .ok acc' := by
  rw [nsWrites] at h
  obtain ⟨kv, hd, h⟩ := bind_eq_ok h
  obtain ⟨b, hb, h⟩ := bind_eq_ok h
  obtain ⟨e, he, hd⟩ := bind_eq_ok (leaving_eq_ok hd)
  have hns := deref_eq_ok (leaving_eq_ok hb)
  refine ⟨cstr b, kv, ?_, h⟩
  simp [decodedNs, hns, deref_eq_ok he, decodePb_eq_ok hd]

theorem nsWrites_offers {state : Kvs} {version : Version} {acc acc' : WritePhase}
    {n : NsReadWriteSet} (h : nsWrites state version acc n = .ok acc') :
    Offers version acc acc' (nsWriteList n) (nsSingleWrite n) := by
  obtain ⟨ns, kv, hdec, h⟩ := nsWrites_eq_ok h
  have hall : (kv.writes.all fun _ => true) = true := List.all_eq_true.mpr (fun _ _ => rfl)
  simp only [nsWriteList, nsSingleWrite, hdec, Option.elim_some, writeList]
  split_ifs at h with hl hr hc
  · have hv := singleWrite_of_ne (hl ▸ by decide : ns ≠ str "ercc") kv.writes
    have ho := foldlM_offers h (fun _ _ _ hw => lsccWrite_offers hw)
    rw [flatMap_toList, hall] at ho
    rw [if_pos hl, hv]
    exact ho
  · have ho := erccWrites_offers h
    have hv : singleWrite ns kv.writes = (kv.writes.length == 1) := by
      simp [singleWrite, hr]
    rw [if_neg hl, if_pos hr, hv]
    exact ho
  · have hv := singleWrite_of_ne hr kv.writes
    have ho := foldlM_offers h (fun _ _ _ hw => eccWrite_offers hw)
    rw [flatMap_toList, hall] at ho
    rw [if_neg hl, if_neg hr, if_pos hc, hv]
    exact ho
  · cases h
    rw [if_neg hl, if_neg hr, if_neg hc, singleWrite_of_ne hr kv.writes]
    exact Offers.refl version acc

theorem writeSet_offers {state : Kvs} {version : Version} {updates : Kvs} {rws : TxReadWriteSet}
    {w : WritePhase} (h : writeSet state version updates rws = .ok w) :
    w.updates = insertAll updates (stamp version (rws.nsRwset.flatMap nsWriteList)) ∧
      w.validTx = rws.nsRwset.all nsSingleWrite := by
  rw [writeSet] at h
  have ho := foldlM_offers h (fun _ _ _ hn => nsWrites_offers hn)
  exact ⟨ho.updates_eq, by simpa using ho.validTx_eq⟩

theorem nsWrites_complete {state : Kvs} {version : Version} {acc acc' : WritePhase}
    {n : NsReadWriteSet} (h : nsWrites state version acc n = .ok acc') : NsComplete n := by
  intro d hd he w hw
  obtain ⟨ns, kv, hdec, h⟩ := nsWrites_eq_ok h
  rw [hdec] at hd
  cases hd
  dsimp only at he
  rw [he, if_neg (by decide), if_neg (by decide), if_pos rfl] at h
  obtain ⟨u, u', hround⟩ := foldlM_eq_ok_mem h hw
  obtain ⟨p, hp, -⟩ := eccWrite_ok hround
  rw [he, hp]
  rfl

theorem writeSet_complete {state : Kvs} {version : Version} {updates : Kvs} {rws : TxReadWriteSet}
    {w : WritePhase} (h : writeSet state version updates rws = .ok w) :
    ∀ n ∈ rws.nsRwset, NsComplete n := by
  intro n hn
  rw [writeSet] at h
  obtain ⟨u, u', hround⟩ := foldlM_eq_ok_mem h hn
  exact nsWrites_complete hround

/-! Once the read loop is through, every namespace has been decoded, so the write loop
cannot stop at a message any more. -/

theorem lsccWrite_faults (ns : Bytes) (version : Version) (acc : WritePhase) (w : KVWrite) :
    ExitsWith (fun e => e.1 = .fault) (lsccWrite ns version acc w) := by
  apply (leaving_faults (deref_faults _) _).bind
  intro key
  apply (leaving_faults (deref_faults _) _).bind
  intro val
  exact .ok _

theorem eccWrite_faults (ns : Bytes) (version : Version) (writes : List KVWrite) (acc : WritePhase)
    (w : KVWrite) : ExitsWith (fun e => e.1 = .fault) (eccWrite ns version writes acc w) := by
  apply (leaving_faults (deref_faults _) _).bind
  intro wkey
  apply (leaving_faults (deref_faults _) _).bind
  intro key
  apply (leaving_faults (deref_faults _) _).bind
  intro first
  apply (leaving_faults (deref_faults _) _).bind
  intro val
  exact .ok _

theorem erccWrites_faults (state : Kvs) (ns : Bytes) (version : Version) (acc : WritePhase)
    (writes : List KVWrite) :
    ExitsWith (fun e => e.1 = .fault) (erccWrites state ns version acc writes) := by
  apply (leaving_faults (deref_faults _) _).bind
  intro w
  apply (leaving_faults (deref_faults _) _).bind
  intro key
  apply (leaving_faults (deref_faults _) _).bind
  intro mrenclave
  -- a measurement that is too long is copied past its buffer
  split_ifs
  · apply (leaving_faults (deref_faults _) _).bind
    intro val
    exact .ok _
  · exact .error rfl

theorem nsReadList_eq_ok {n : NsReadWriteSet} {l : List (Bytes × Version)}
    (h : nsReadList n = .ok l) :
    ∃ e kv b ranges points, n.rwset = some e ∧ e.decoded = some kv ∧ n.ns = some b ∧
      kv.rangeQueriesInfo.mapM (queryKeys (cstr b)) = .ok ranges ∧
      kv.reads.mapM (pointKey (cstr b)) = .ok points ∧ l = ranges.flatten ++ points.flatten := by
  rw [nsReadList] at h
  obtain ⟨e, he, h⟩ := bind_eq_ok h
  obtain ⟨kv, hd, h⟩ := bind_eq_ok h
  obtain ⟨b, hb, h⟩ := bind_eq_ok h
  obtain ⟨ranges, hr, h⟩ := bind_eq_ok h
  obtain ⟨points, hp, h⟩ := bind_eq_ok h
  cases h
  exact ⟨e, kv, b, ranges, points, deref_eq_ok he, decodePb_eq_ok hd, deref_eq_ok hb, hr, hp, rfl⟩

theorem nsWrites_faults {state : Kvs} {version : Version} {acc : WritePhase} {n : NsReadWriteSet}
    {l : List (Bytes × Version)} (hn : nsReadList n = .ok l) :
    ExitsWith (fun e => e.1 = .fault) (nsWrites state version acc n) := by
  obtain ⟨m, kv, b, _, _, hm, hd, hb, -⟩ := nsReadList_eq_ok hn
  rw [nsWrites, hm, hb]
  simp only [deref, decodePb, hd, leaving, Except.mapError, bind, Except.bind]
  split_ifs
  · exact ExitsWith.foldlM (fun _ _ _ => lsccWrite_faults _ _ _ _) acc
  · exact erccWrites_faults _ _ _ _ _
  · exact ExitsWith.foldlM (fun _ _ _ => eccWrite_faults _ _ _ _ _) acc
  · exact .ok acc

theorem writeSet_faults {state : Kvs} {version : Version} {updates : Kvs} {rws : TxReadWriteSet}
    {l : List (Bytes × Version)} (hr : readList rws = .ok l) :
    ExitsWith (fun e => e.1 = .fault) (writeSet state version updates rws) := by
  rw [readList] at hr
  obtain ⟨ls, hls, -⟩ := bind_eq_ok hr
  apply ExitsWith.foldlM
  intro acc n hn
  obtain ⟨m, -, hm⟩ := mapM_eq_ok_mem hls hn
  exact nsWrites_faults hm

theorem unmarshalEccResponse_faults (libs : Libs) (json : Bytes) :
    ExitsWith (· = .fault) (unmarshalEccResponse libs json) := by
  have hfield (name : String) : ExitsWith (· = .fault) (do
      let data := base64Decode (← deref (libs.jsonGetString json (str name)))
      if data.length ≤ 96 then return data else .error .fault : Parse Bytes) := by
    apply (deref_faults _).bind
    intro m
    dsimp only
    split_ifs
    · exact .ok _
    · exact .error rfl
  apply (hfield _).bind
  intro response
  apply (hfield _).bind
  intro signature
  apply (hfield _).bind
  intro pk
  exact .ok _

theorem validateEccTx_faults (libs : Libs) (function : Bytes) (ccAction : ChaincodeAction) :
    ExitsWith (· = .fault) (validateEccTx libs function ccAction) := by
  apply (deref_faults _).bind
  intro name
  dsimp only
  split_ifs
  · apply (deref_faults _).bind
    intro payload
    apply (unmarshalEccResponse_faults libs payload).bind
    intro r
    exact .ok _
  · exact .ok _

/-- The verdict of the read loop, from its end. -/
theorem readSet_ok {state updates : Kvs} {rws : TxReadWriteSet} {reads : ReadPhase}
    (h : readSet state updates rws = .ok reads) :
    ∃ l, readList rws = .ok l ∧ reads.validTx = l.all (fresh state updates) := by
  rcases map_eq_map_cases (readSet_validTx state updates rws) with ⟨e, hr, -⟩ | ⟨r, l, hr, hl, hv⟩
  · rw [h] at hr
    cases hr
  · rw [h] at hr
    cases hr
    exact ⟨l, hl, hv⟩

theorem readSet_error {state updates : Kvs} {rws : TxReadWriteSet} {e : Exit}
    (h : readSet state updates rws = .error e) : readList rws = .error e := by
  rcases map_eq_map_cases (readSet_validTx state updates rws) with ⟨e', hr, hl⟩ | ⟨r, l, hr, -⟩
  · rw [h] at hr
    cases hr
    exact hl
  · rw [h] at hr
    cases hr

/-- An action that is parsed to its end has been judged, and offers its writes or nothing. -/
theorem parseAction_ok {libs : Libs} {state : Kvs} {version : Version} {s s' : TxState}
    {a : TransactionAction} (h : parseAction libs state version s a = .ok s') :
    ∃ reads, actionReads a = .ok reads ∧
      s'.updates = insertAll s.updates
        (stamp version (if reads.all (fresh state s.updates) then actionWrites a else [])) ∧
      s'.validTx = (s.validTx && (reads.all (fresh state s.updates) && actionSingleWrite a)) ∧
      (reads.all (fresh state s.updates) = true → ∀ n ∈ actionNs a, NsComplete n) := by
  rw [parseAction] at h
  obtain ⟨⟨function, ccAction⟩, hu, h⟩ := bind_eq_ok h
  have hun := leaving_eq_ok hu
  cases hres : ccAction.results with
  | none =>
    simp only [hres] at h
    cases h
    have hrw : actionRwset a = .ok none := by
      simp [actionRwset, hun, hres, bind, Except.bind, pure, Except.pure]
    refine ⟨[], ?_, ?_, ?_, ?_⟩
    · simp [actionReads, hrw, bind, Except.bind, pure, Except.pure]
    · simp [actionWrites, actionNs, hrw, stamp, insertAll]
    · simp [actionSingleWrite, actionNs, hrw]
    · simp [actionNs, hrw]
  | some results =>
    simp only [hres] at h
    obtain ⟨rws, hd, h⟩ := bind_eq_ok h
    obtain ⟨reads, hr, h⟩ := bind_eq_ok h
    have hrw : actionRwset a = .ok (some rws) := by
      simp [actionRwset, hun, hres, leaving_eq_ok hd, bind, Except.bind, pure, Except.pure]
    have hns : actionNs a = rws.nsRwset := by simp [actionNs, hrw]
    obtain ⟨l, hl, hv⟩ := readSet_ok (leaving_eq_ok hr)
    refine ⟨l, by simpa [actionReads, hrw, bind, Except.bind] using hl, ?_⟩
    rw [hv] at h
    by_cases hf : l.all (fresh state s.updates) = true
    · rw [if_pos hf] at h
      obtain ⟨w, hw, h⟩ := bind_eq_ok h
      obtain ⟨u, hval, h⟩ := bind_eq_ok h
      cases h
      obtain ⟨hupd, hvalid⟩ := writeSet_offers (mapError_eq_ok hw)
      have hcomplete := writeSet_complete (mapError_eq_ok hw)
      refine ⟨?_, ?_, fun _ => by rwa [hns]⟩
      · simp [hf, actionWrites, hns, hupd]
      · simp [hf, actionSingleWrite, hns, hvalid]
    · rw [if_neg hf] at h
      cases h
      simp [hf, stamp, insertAll]

/-- A decoding error in an action comes before its writes, so it leaves the map alone. -/
theorem parseAction_decoding {libs : Libs} {state : Kvs} {version : Version} {s s' : TxState}
    {a : TransactionAction} (h : parseAction libs state version s a = .error (.decoding, s')) :
    s' = s ∧ actionReads a = .error .decoding := by
  rw [parseAction] at h
  rcases bind_eq_error h with h | ⟨⟨function, ccAction⟩, hu, h⟩
  · obtain ⟨hun, hs⟩ := leaving_eq_error h
    exact ⟨hs, by simp [actionReads, actionRwset, hun, bind, Except.bind]⟩
  have hun := leaving_eq_ok hu
  cases hres : ccAction.results with
  | none =>
    simp only [hres] at h
    cases h
  | some results =>
    simp only [hres] at h
    rcases bind_eq_error h with h | ⟨rws, hd, h⟩
    · obtain ⟨hdec, hs⟩ := leaving_eq_error h
      exact ⟨hs, by simp [actionReads, actionRwset, hun, hres, hdec, bind, Except.bind]⟩
    have hrw : actionRwset a = .ok (some rws) := by
      simp [actionRwset, hun, hres, leaving_eq_ok hd, bind, Except.bind, pure, Except.pure]
    rcases bind_eq_error h with h | ⟨reads, hr, h⟩
    · obtain ⟨hrs, hs⟩ := leaving_eq_error h
      exact ⟨hs, by simpa [actionReads, hrw, bind, Except.bind] using readSet_error hrs⟩
    obtain ⟨l, hl, -⟩ := readSet_ok (leaving_eq_ok hr)
    -- past the read loop only faults are left
    exfalso
    split_ifs at h with hv
    · rcases bind_eq_error h with h | ⟨w, hw, h⟩
      · obtain ⟨e, he, heq⟩ := mapError_eq_error h
        have hdec : e.1 = .decoding := congrArg Prod.fst heq
        rw [writeSet_faults hl e he] at hdec
        cases hdec
      rcases bind_eq_error h with h | ⟨u, -, h⟩
      · cases validateEccTx_faults libs function ccAction _ (leaving_eq_error h).1
      · cases h
    · cases h

/-- The loop over the actions, on any prefix that is parsed to its end. -/
theorem foldlM_parseAction {libs : Libs} {state : Kvs} {version : Version}
    {as : List TransactionAction} {s s' : TxState}
    (h : as.foldlM (parseAction libs state version) s = .ok s') (rest : List TransactionAction) :
    planTx state version s.updates (as ++ rest) =
      ⟨(planTx state version s.updates as).writes ++ (planTx state version s'.updates rest).writes,
        (planTx state version s.updates as).accepted &&
          (planTx state version s'.updates rest).accepted⟩ ∧
      s'.updates = insertAll s.updates
        (stamp version (planTx state version s.updates as).writes) ∧
      s'.validTx = (s.validTx && (planTx state version s.updates as).accepted) := by
  induction as generalizing s with
  | nil =>
    cases h
    simp [planTx, stamp, insertAll]
  | cons a as ih =>
    rw [List.foldlM_cons] at h
    obtain ⟨t, ha, h⟩ := bind_eq_ok h
    obtain ⟨reads, hr, hupd, hvalid, -⟩ := parseAction_ok ha
    obtain ⟨hplan, hupd', hvalid'⟩ := ih h
    by_cases hf : reads.all (fresh state s.updates) = true
    · -- the writes are in the map before the next action is judged
      rw [if_pos hf] at hupd
      rw [hf, Bool.true_and] at hvalid
      simp only [List.cons_append, planTx, hr, if_pos hf, ← hupd, hplan, List.append_assoc,
        Bool.and_assoc, true_and]
      refine ⟨?_, ?_⟩
      · rw [hupd', stamp_append, insertAll_append, ← hupd]
      · rw [hvalid', hvalid, Bool.and_assoc]
    · -- a conflict leaves the map alone and the flag down
      rw [if_neg hf] at hupd
      have hu : t.updates = s.updates := by simpa [stamp, insertAll] using hupd
      rw [hu] at hplan hupd' hvalid'
      simp only [List.cons_append, planTx, hr, if_neg hf, hplan, Bool.false_and, true_and,
        Bool.and_false]
      refine ⟨hupd', ?_⟩
      rw [hvalid', hvalid]
      simp [hf]

/-- The transaction as a whole: its code, its flag and the entries it leaves in the map. -/
theorem parseEndorserTransaction_eq {libs : Libs} {state : Kvs} {txData : Encoded Transaction}
    {t : Transaction} {updates : Kvs} {version : Version} {r : TxResult}
    (ht : txData.decoded = some t)
    (h : parseEndorserTransaction libs state txData updates version = some r) :
    r.tx.updates = insertAll updates (stamp version (planTx state version updates t.actions).writes) ∧
      ((planTx state version updates t.actions).accepted = true ↔
        r.code = .success ∧ r.tx.validTx = true) := by
  rw [parseEndorserTransaction, ht] at h
  simp only at h
  cases hf : t.actions.foldlM (parseAction libs state version) ⟨updates, true⟩ with
  | ok s =>
    rw [hf] at h
    cases h
    obtain ⟨-, hupd, hvalid⟩ := foldlM_parseAction hf []
    exact ⟨hupd, by simp [hvalid]⟩
  | error e =>
    obtain ⟨x, s⟩ := e
    rw [hf] at h
    cases x with
    | fault => cases h
    | decoding =>
      cases h
      -- the actions before the one that does not decode have been carried out
      obtain ⟨as, a, rest, s', hsplit, has, ha⟩ := foldlM_eq_error hf
      obtain ⟨rfl, hread⟩ := parseAction_decoding ha
      obtain ⟨hplan, hupd, -⟩ := foldlM_parseAction has (a :: rest)
      rw [hsplit, hplan]
      simp [planTx, hread, hupd]

end SecureChaincode
