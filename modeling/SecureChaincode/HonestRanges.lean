import SecureChaincode.HonestReads

/-! Range queries when the peer is honest: the pairs that Fabric finds under its composite
keys, sent as a text, are those that the ledger enclave finds under its dotted names. -/
namespace SecureChaincode

open Std

/-- A component of a composite key that passes unchanged through every form of the key. -/
structure PlainWord (w : Bytes) : Prop where
  ne_nil : w ≠ []
  no_dot : sep ∉ w
  plain : PlainText w

theorem PlainWord.no_nul {w : Bytes} (h : PlainWord w) : (0 : UInt8) ∉ w := h.plain.no_nul

/-- A key of Fabric: a simple one without a dot, or components one after the other. -/
inductive TidyKey : Bytes → Prop
  | simple {k : Bytes} (hne : k ≠ []) (hhead : k.head? ≠ some 0) (hdot : sep ∉ k) : TidyKey k
  | composite {comp : List Bytes} (h : ∀ w ∈ comp, PlainWord w) : TidyKey (fabricKey comp)

/-- A world state with tidy keys, and with values that need no escape in a JSON text. -/
def TidyState (worldState : Kvs) : Prop :=
  ∀ (k v : Bytes), worldState[k]?.map Prod.fst = some v → TidyKey k ∧ PlainText v

/-- What the peer sends for a key of Fabric: the keys behind it in the form of the enclave. -/
def rangeItems (worldState : Kvs) (start : Bytes) : List (Bytes × Bytes) :=
  (getStateByPartialKey worldState start).map (fun item => (transformToSGX item.1, item.2))

theorem mem_rangeItems {worldState : Kvs} {start : Bytes} {p : Bytes × Bytes} :
    p ∈ rangeItems worldState start ↔
      ∃ k, worldState[k]?.map Prod.fst = some p.2 ∧ start <+: k ∧ transformToSGX k = p.1 := by
  simp only [rangeItems, getStateByPartialKey, List.map_map, List.mem_map, List.mem_filter,
    List.isPrefixOf_iff_prefix, Function.comp_apply]
  constructor
  · rintro ⟨⟨k, x⟩, ⟨hmem, hpre⟩, rfl⟩
    rw [ExtTreeMap.mem_toList_iff_getElem?_eq_some] at hmem
    exact ⟨k, by rw [hmem]; rfl, hpre, rfl⟩
  · rintro ⟨k, hk, hpre, hkey⟩
    obtain ⟨x, hx, hval⟩ := Option.map_eq_some_iff.mp hk
    refine ⟨(k, x), ⟨ExtTreeMap.mem_toList_iff_getElem?_eq_some.mpr hx, hpre⟩, ?_⟩
    rw [hkey, hval]

theorem mem_ledgerPairs {state : Kvs} {compKey : Bytes} {p : Bytes × Bytes} :
    p ∈ ledgerPairs state compKey ↔ compKey <+: p.1 ∧ state[str "ecc" ++ p.1]?.map Prod.fst = some p.2 := by
  simp only [ledgerPairs, List.mem_map, List.mem_filter, List.isPrefixOf_iff_prefix]
  constructor
  · rintro ⟨⟨name, x⟩, ⟨hmem, rest, rfl⟩, rfl⟩
    rw [ExtTreeMap.mem_toList_iff_getElem?_eq_some] at hmem
    refine ⟨⟨rest, rfl⟩, ?_⟩
    have hname : str "ecc" ++ ((str "ecc" ++ compKey ++ rest).drop 3) = str "ecc" ++ compKey ++ rest := rfl
    rw [hname, hmem]
    rfl
  · rintro ⟨⟨rest, hrest⟩, hp⟩
    obtain ⟨x, hx, hval⟩ := Option.map_eq_some_iff.mp hp
    refine ⟨(str "ecc" ++ p.1, x), ⟨ExtTreeMap.mem_toList_iff_getElem?_eq_some.mpr hx, rest, ?_⟩, ?_⟩
    · rw [List.append_assoc, hrest]
    · rw [hval]
      rfl

/-- The names of the ledger stay in order when the name of the chaincode is cut off. -/
theorem ledgerPairs_sorted (state : Kvs) (compKey : Bytes) :
    (ledgerPairs state compKey).Pairwise (fun a b => compare a.1 b.1 = .lt) := by
  rw [ledgerPairs, List.pairwise_map]
  have hsorted := (ExtTreeMap.ordered_keys_toList (t := state)).filter
    (fun e => (str "ecc" ++ compKey).isPrefixOf e.1)
  apply hsorted.imp_of_mem
  intro a b ha hb hab
  obtain ⟨ra, hra⟩ := List.isPrefixOf_iff_prefix.mp (List.mem_filter.mp ha).2
  obtain ⟨rb, hrb⟩ := List.isPrefixOf_iff_prefix.mp (List.mem_filter.mp hb).2
  rw [← hra, ← hrb] at hab ⊢
  exact hab

theorem sgxKey_prefix_iff {comp comp' : List Bytes} (h : ∀ w ∈ comp, PlainWord w)
    (h' : ∀ w ∈ comp', PlainWord w) : sgxKey comp <+: sgxKey comp' ↔ comp <+: comp' :=
  delimited_prefix_iff (fun w hw => (h w hw).no_dot) (fun w hw => (h' w hw).no_dot)

theorem fabricKey_prefix_iff {comp comp' : List Bytes} (h : ∀ w ∈ comp, PlainWord w)
    (h' : ∀ w ∈ comp', PlainWord w) : fabricKey comp <+: fabricKey comp' ↔ comp <+: comp' :=
  delimited_prefix_iff (fun w hw => (h w hw).no_nul) (fun w hw => (h' w hw).no_nul)

theorem eccName_of_plain {comp : List Bytes} (h : ∀ w ∈ comp, PlainWord w) :
    eccName (str "ecc") (fabricKey comp) = some (str "ecc" ++ sgxKey comp) :=
  eccName_fabricKey (str "ecc") (fun w hw => ⟨(h w hw).ne_nil, (h w hw).no_nul⟩)

theorem transformToSGX_of_plain {comp : List Bytes} (h : ∀ w ∈ comp, PlainWord w) :
    transformToSGX (fabricKey comp) = sgxKey comp :=
  transformToSGX_fabricKey (fun w hw => (h w hw).no_nul)

/-- Fabric finds under a composite key only composite keys. -/
theorem TidyKey.composite_of_start {comp : List Bytes} {k : Bytes} (hk : TidyKey k)
    (hpre : fabricKey comp <+: k) : ∃ comp', (∀ w ∈ comp', PlainWord w) ∧ k = fabricKey comp' := by
  cases hk with
  | simple hne hhead hdot =>
    obtain ⟨rest, rfl⟩ := hpre
    exact absurd rfl hhead
  | composite h => exact ⟨_, h, rfl⟩

theorem TidyState.composite_of_mem {worldState : Kvs} (htidy : TidyState worldState) {comp : List Bytes}
    {item : Bytes × Bytes} (h : item ∈ getStateByPartialKey worldState (fabricKey comp)) :
    ∃ comp', (∀ w ∈ comp', PlainWord w) ∧ item.1 = fabricKey comp' := by
  obtain ⟨e, he, rfl⟩ := List.mem_map.mp h
  obtain ⟨hmem, hpre⟩ := List.mem_filter.mp he
  rw [ExtTreeMap.mem_toList_iff_getElem?_eq_some] at hmem
  have hk : TidyKey e.1 := (htidy e.1 e.2.1 (by rw [hmem]; rfl)).1
  exact hk.composite_of_start (List.isPrefixOf_iff_prefix.mp hpre)

/-- The keys of a range query stay apart in the form of the enclave. -/
theorem TidyState.nodup_range {worldState : Kvs} (htidy : TidyState worldState) (comp : List Bytes) :
    ((getStateByPartialKey worldState (fabricKey comp)).map (fun item => transformToSGX item.1)).Nodup := by
  have hsorted : (getStateByPartialKey worldState (fabricKey comp)).Pairwise
      (fun a b => compare a.1 b.1 = .lt) := by
    rw [getStateByPartialKey, List.pairwise_map]
    exact ExtTreeMap.ordered_keys_toList.filter _
  rw [List.Nodup, List.pairwise_map]
  apply hsorted.imp_of_mem
  intro a b ha hb hab he
  -- the components can be read off the dotted form
  obtain ⟨ca, hca, hka⟩ := htidy.composite_of_mem ha
  obtain ⟨cb, hcb, hkb⟩ := htidy.composite_of_mem hb
  rw [hka, hkb, transformToSGX_of_plain hca, transformToSGX_of_plain hcb] at he
  have hsame : ca = cb :=
    delimited_inj (fun w hw => (hca w hw).no_dot) (fun w hw => (hcb w hw).no_dot) he
  apply ne_of_cmp_lt hab
  rw [hka, hkb, hsame]

/-- So does the ledger enclave: the name of a simple key has no second dot. -/
theorem TidyKey.composite_of_name {comp : List Bytes} {k name : Bytes} (hk : TidyKey k) (hne : comp ≠ [])
    (hname : eccName (str "ecc") k = some name) (hpre : str "ecc" ++ sgxKey comp <+: name) :
    ∃ comp', (∀ w ∈ comp', PlainWord w) ∧ k = fabricKey comp' := by
  cases hk with
  | simple hk hhead hdot =>
    obtain ⟨c, k, rfl⟩ := List.exists_cons_of_ne_nil hk
    obtain ⟨w, comp, rfl⟩ := List.exists_cons_of_ne_nil hne
    have hfirst : ((c :: k) ++ [0]).head? ≠ some 0 := hhead
    rw [eccName, if_neg hfirst] at hname
    cases hname
    -- behind the namespace and its dot stands the key, and the prefix goes on with a dot
    have htail : w ++ sep :: closed sep comp <+: cstr (c :: k) := by
      have hcut : str "ecc." ++ (w ++ sep :: closed sep comp) <+: str "ecc." ++ cstr (c :: k) := by
        have hkey : str "ecc" ++ sgxKey (w :: comp) = str "ecc." ++ (w ++ sep :: closed sep comp) := by
          rw [sgxKey, delimited, closed_cons]
          rfl
        rw [← hkey]
        exact hpre
      exact (List.prefix_append_right_inj _).mp hcut
    have hsep : sep ∈ cstr (c :: k) := htail.subset (List.mem_append_right w List.mem_cons_self)
    exact absurd ((List.takeWhile_prefix _).subset hsep) hdot
  | composite h => exact ⟨_, h, rfl⟩

/-- The two sides find the same pairs. -/
theorem mem_rangeItems_iff {worldState state : Kvs} {comp : List Bytes} (hag : Agrees worldState state)
    (htidy : TidyState worldState) (hne : comp ≠ []) (hcomp : ∀ w ∈ comp, PlainWord w)
    (p : Bytes × Bytes) :
    p ∈ rangeItems worldState (fabricKey comp) ↔ p ∈ ledgerPairs state (sgxKey comp) := by
  rw [mem_rangeItems, mem_ledgerPairs]
  have hdot : ∀ comp' : List Bytes, str "ecc." <+: str "ecc" ++ sgxKey comp' :=
    fun comp' => ⟨closed sep comp', rfl⟩
  constructor
  · rintro ⟨k, hk, hpre, hkey⟩
    obtain ⟨comp', hcomp', rfl⟩ := (htidy k p.2 hk).1.composite_of_start hpre
    rw [transformToSGX_of_plain hcomp'] at hkey
    rw [← hkey, sgxKey_prefix_iff hcomp hcomp', ← fabricKey_prefix_iff hcomp hcomp']
    exact ⟨hpre, (hag _ _ (hdot comp')).mpr ⟨_, hk, eccName_of_plain hcomp'⟩⟩
  · rintro ⟨hpre, hp⟩
    have hpre' : str "ecc" ++ sgxKey comp <+: str "ecc" ++ p.1 := (List.prefix_append_right_inj _).mpr hpre
    obtain ⟨k, hk, hname⟩ := (hag _ _ ((hdot comp).trans hpre')).mp hp
    obtain ⟨comp', hcomp', rfl⟩ := (htidy k p.2 hk).1.composite_of_name hne hname hpre'
    rw [eccName_of_plain hcomp', Option.some_inj, List.append_cancel_left_eq] at hname
    refine ⟨_, hk, ?_, (transformToSGX_of_plain hcomp').trans hname⟩
    rw [fabricKey_prefix_iff hcomp hcomp', ← sgxKey_prefix_iff hcomp hcomp', hname]
    exact hpre

/-- The pairs that the enclave has decoded, in the order of its map, are those of the ledger in
the order of the ledger. -/
theorem toList_rangeItems {worldState state : Kvs} {comp : List Bytes} (hag : Agrees worldState state)
    (htidy : TidyState worldState) (hne : comp ≠ []) (hcomp : ∀ w ∈ comp, PlainWord w) :
    (insertAll (∅ : WriteSet) (rangeItems worldState (fabricKey comp))).toList =
      ledgerPairs state (sgxKey comp) :=
  toList_insertAll_of_mem_iff (ledgerPairs_sorted state (sgxKey comp))
    (mem_rangeItems_iff hag htidy hne hcomp)

theorem plainText_sgxKey {comp : List Bytes} (h : ∀ w ∈ comp, PlainWord w) : PlainText (sgxKey comp) := by
  intro c hc
  rcases mem_delimited.mp hc with rfl | ⟨w, hw, hc⟩
  · decide
  · exact (h w hw).plain c hc

/-- The entries under composite keys pass through a JSON text. -/
def JsonSafe (worldState : Kvs) : Prop :=
  ∀ (k v : Bytes), worldState[k]?.map Prod.fst = some v → k.head? = some 0 →
    PlainText (transformToSGX k) ∧ PlainText v

theorem TidyState.jsonSafe {worldState : Kvs} (htidy : TidyState worldState) : JsonSafe worldState := by
  intro k v h hhead
  obtain ⟨hk, hv⟩ := htidy k v h
  cases hk with
  | simple hne hsimple hdot => exact absurd hhead hsimple
  | composite hcomp =>
    rw [transformToSGX_of_plain hcomp]
    exact ⟨plainText_sgxKey hcomp, hv⟩

theorem JsonSafe.rangeItems {worldState : Kvs} (hsafe : JsonSafe worldState) (comp : List Bytes) :
    ∀ p ∈ rangeItems worldState (fabricKey comp), PlainText p.1 ∧ PlainText p.2 := by
  intro p hp
  obtain ⟨k, hk, hpre, hkey⟩ := mem_rangeItems.mp hp
  rw [← hkey]
  apply hsafe k p.2 hk
  obtain ⟨rest, rfl⟩ := hpre
  rfl

section
variable {τ : Type} (F : KeyRule) (worldState : Kvs)

theorem goRange_sgxKey {comp : List Bytes} (hne : comp ≠ []) (hcomp : ∀ w ∈ comp, PlainWord w)
    (hvalid : comp.all F.validAttribute = true) :
    goRange F worldState (sgxKey comp) = some (getStateByPartialKey worldState (fabricKey comp)) := by
  obtain ⟨w, ws, rfl⟩ := List.exists_cons_of_ne_nil hne
  rw [goRange, splitSGXCompositeKey_sgxKey (fun w hw => (hcomp w hw).no_dot)]
  simp only [createCompositeKey, if_pos hvalid]
  rfl

/-- The honest answer to a range query. -/
def rangeReply (verifyTag : Bytes → Bool → τ) (comp : List Bytes) : OcallReply τ where
  val := valuesText (rangeItems worldState (fabricKey comp))
  valLen := (valuesText (rangeItems worldState (fabricKey comp))).length.toUInt32
  cmac := verifyTag (sgxKey comp) true
  behind := []

theorem goHost_range (verifyTag : Bytes → Bool → τ) (pre : List (Event τ)) {comp : List Bytes}
    (hne : comp ≠ []) (hcomp : ∀ w ∈ comp, PlainWord w) (hvalid : comp.all F.validAttribute = true)
    (hfit : (valuesText (rangeItems worldState (fabricKey comp))).length ≤ jsonBufferSize) :
    (goHost F worldState verifyTag).getStateByPartialCompositeKey pre (sgxKey comp) =
      some (rangeReply worldState verifyTag comp) := by
  simp only [goHost, goRange_sgxKey F worldState hne hcomp hvalid, Option.bind_eq_bind, Option.bind_some]
  exact if_neg (Nat.not_lt.mpr hfit)

/-- The enclave decodes the pairs that were sent. -/
theorem receivedValues_rangeReply {η σ : Type} (E : Enclave η τ σ) (verifyTag : Bytes → Bool → τ)
    (values : WriteSet) {comp : List Bytes} (htidy : TidyState worldState)
    (hfit : (valuesText (rangeItems worldState (fabricKey comp))).length ≤ jsonBufferSize) :
    receivedValues E values (rangeReply worldState verifyTag comp) =
      some (insertAll values (rangeItems worldState (fabricKey comp))) :=
  receivedValues_valuesText E values rfl (htidy.jsonSafe.rangeItems comp) hfit

end

section
variable {ω τ : Type} [DecidableEq τ] (H : IdealHash ω) (M : IdealMac ω τ)
variable {η τ' σ σ' : Type} (E : Enclave η τ' σ) (sign : List ω → Option σ') (F : KeyRule)
variable (worldState state : Kvs)

/-- The hash over the pairs of an honest range query is the hash that the ledger enclave has formed. -/
theorem rangeHash_eq {comp : List Bytes} (hag : Agrees worldState state) (htidy : TidyState worldState)
    (hne : comp ≠ []) (hcomp : ∀ w ∈ comp, PlainWord w) :
    H.sha256 (H.bytes (pairBytes (insertAll ∅ (rangeItems worldState (fabricKey comp))))) =
      ledgerGetMultiStateHash (fun b => H.sha256 (H.bytes b)) state (str "ecc" ++ sgxKey comp) := by
  have hdot : (sgxKey comp).head? = some sep := rfl
  rw [pairBytes, toList_rangeItems hag htidy hne hcomp, ledgerGetMultiStateHash,
    cstr_eq_self (zero_notMem_ecc (plainText_sgxKey hcomp).no_nul), multiState_bytes state hdot]

/-- An honest range query is verified exactly if every value holds an IV and a tag: the enclave
decodes the pairs, the hash over them is the hash that the ledger enclave has formed, and the tag is
accepted. With a value that is too short the enclave does not get to the tag. -/
theorem honest_range_verified_iff (pre : List (Event τ)) (comp : List Bytes) (hag : Agrees worldState state)
    (htidy : TidyState worldState) (hne : comp ≠ []) (hcomp : ∀ w ∈ comp, PlainWord w)
    (hvalid : comp.all F.validAttribute = true)
    (hfit : (valuesText (rangeItems worldState (fabricKey comp))).length ≤ jsonBufferSize) :
    (∃ reply received,
      (goHost F worldState (verifyState H M state)).getStateByPartialCompositeKey pre (sgxKey comp) =
          some reply ∧
        receivedValues (idealEnclave H M E sign) ∅ reply = some received ∧
        H.sha256 (H.bytes (pairBytes received)) =
          ledgerGetMultiStateHash (fun b => H.sha256 (H.bytes b)) state (str "ecc" ++ sgxKey comp) ∧
        rangeVerdict (idealEnclave H M E sign) (sgxKey comp) ∅ reply = some true) ↔
      ∀ p ∈ ledgerPairs state (sgxKey comp), 28 ≤ (base64Decode (cstr p.2)).length := by
  have hhost := goHost_range F worldState (verifyState H M state) pre hne hcomp hvalid hfit
  have hreceived := receivedValues_rangeReply worldState (idealEnclave H M E sign) (verifyState H M state)
    ∅ htidy hfit
  have hlist := toList_rangeItems hag htidy hne hcomp
  -- the loop over the pairs gets to its end
  have hloop : (insertAll (∅ : WriteSet) (rangeItems worldState (fabricKey comp))).toList.any (fun p => tooShort p.2) = false ↔
      ∀ p ∈ ledgerPairs state (sgxKey comp), 28 ≤ (base64Decode (cstr p.2)).length := by
    rw [hlist, List.any_eq_false]
    simp only [tooShort, decide_eq_true_eq, Nat.not_lt]
  rw [← hloop]
  constructor
  · rintro ⟨reply, received, hreply, -, -, hverdict⟩
    obtain rfl : reply = _ := Option.some.inj (hreply.symm.trans hhost)
    rw [rangeVerdict, hreceived] at hverdict
    simp only [Option.bind_eq_bind, Option.bind_some] at hverdict
    split_ifs at hverdict with hshort
    exact Bool.eq_false_iff.mpr hshort
  · intro hshort
    refine ⟨_, _, hhost, hreceived, rangeHash_eq H worldState state hag htidy hne hcomp, ?_⟩
    obtain ⟨plain, hread⟩ := readValues_of_received _ hreceived hshort
    apply (rangeVerdict_eq_true_iff H M E sign state (plainText_sgxKey hcomp).no_nul rfl hread rfl).mpr
    rw [pairBytes, hlist]

end

theorem plainWord_a : PlainWord (str "a") := ⟨by decide, by decide, by decide +kernel⟩

theorem plainWord_b : PlainWord (str "b") := ⟨by decide, by decide, by decide +kernel⟩

theorem tidyState_oneBid {bid : Bytes} (hbid : PlainText bid) : TidyState (oneBid bid) := by
  have hwords : ∀ w ∈ [str "a", str "b"], PlainWord w :=
    List.forall_mem_cons.mpr ⟨plainWord_a, List.forall_mem_singleton.mpr plainWord_b⟩
  intro k v h
  rw [oneBid, getElem?_single] at h
  split_ifs at h with hk
  · cases h
    exact ⟨hk ▸ TidyKey.composite hwords, hbid⟩
  · cases h

theorem rangeItems_oneBid (bid : Bytes) : rangeItems (oneBid bid) (fabricKey [str "a"]) = [(str ".a.b.", bid)] := by
  have hlist : (oneBid bid).toList = [(fabricKey [str "a", str "b"], bid, ⟨1, 0⟩)] :=
    toList_insertAll_of_sorted (List.pairwise_singleton _ _)
  rw [rangeItems, getStateByPartialKey, hlist]
  rfl

theorem plainText_sealedBid : PlainText sealedBid := plainText_of_base64 (by decide +kernel)

theorem ledgerPairs_oneBid (bid : Bytes) : ledgerPairs (oneBidLedger bid) (sgxKey [str "a"]) = [(str ".a.b.", bid)] := by
  have hlist : (oneBidLedger bid).toList = [(str "ecc.a.b.", bid, ⟨1, 0⟩)] :=
    toList_insertAll_of_sorted (List.pairwise_singleton _ _)
  rw [ledgerPairs, hlist]
  rfl

/-- The range query for the bids of the auction is verified. -/
theorem one_bid_range_verified :
    ∃ reply received, (honestHost (oneBid sealedBid) (oneBidLedger sealedBid)).getStateByPartialCompositeKey []
        (sgxKey [str "a"]) = some reply ∧
      receivedValues bidEnclave ∅ reply = some received ∧
      IdealHash.numbered.sha256 (IdealHash.numbered.bytes (pairBytes received)) =
        ledgerGetMultiStateHash (fun b => IdealHash.numbered.sha256 (IdealHash.numbered.bytes b))
          (oneBidLedger sealedBid) (str "ecc" ++ sgxKey [str "a"]) ∧
      rangeVerdict bidEnclave (sgxKey [str "a"]) ∅ reply = some true := by
  have hfit : (valuesText (rangeItems (oneBid sealedBid) (fabricKey [str "a"]))).length ≤ jsonBufferSize := by
    rw [rangeItems_oneBid]
    decide +kernel
  apply (honest_range_verified_iff IdealHash.numbered (IdealMac.plain ℕ) frankEnclave (fun _ => some ()) nulFree
    (oneBid sealedBid) (oneBidLedger sealedBid) [] [str "a"] (agrees_oneBid _) (tidyState_oneBid plainText_sealedBid)
    (by decide) (List.forall_mem_singleton.mpr plainWord_a) (by decide) hfit).mpr
  rw [ledgerPairs_oneBid]
  decide +kernel

/-- A bid that is base64 but not sealed. The peer answers, and the enclave does not come to a verdict. -/
theorem short_bid_not_verified :
    Agrees (oneBid (str "XY==")) (oneBidLedger (str "XY==")) ∧ TidyState (oneBid (str "XY==")) ∧
      ∃ reply, (honestHost (oneBid (str "XY==")) (oneBidLedger (str "XY=="))).getStateByPartialCompositeKey []
          (sgxKey [str "a"]) = some reply ∧
        reply.val.length ≤ jsonBufferSize ∧ rangeVerdict bidEnclave (sgxKey [str "a"]) ∅ reply = none := by
  have hplain : PlainText (str "XY==") := plainText_of_base64 (by decide +kernel)
  have htidy := tidyState_oneBid hplain
  have hfit : (valuesText (rangeItems (oneBid (str "XY==")) (fabricKey [str "a"]))).length ≤ jsonBufferSize := by
    rw [rangeItems_oneBid]
    decide +kernel
  let verifyTag := verifyState IdealHash.numbered (IdealMac.plain ℕ) (oneBidLedger (str "XY=="))
  have hhost := goHost_range nulFree (oneBid (str "XY==")) verifyTag [] (by decide)
    (List.forall_mem_singleton.mpr plainWord_a) (by decide) hfit
  have hreceived := receivedValues_rangeReply (oneBid (str "XY==")) bidEnclave verifyTag ∅ htidy hfit
  refine ⟨agrees_oneBid _, htidy, _, hhost, hfit, ?_⟩
  have hlist : (insertAll (∅ : WriteSet) [(str ".a.b.", str "XY==")]).toList = [(str ".a.b.", str "XY==")] :=
    toList_insertAll_of_sorted (List.pairwise_singleton _ _)
  have hshort : [(str ".a.b.", str "XY==")].any (fun p => tooShort p.2) = true := by decide +kernel
  rw [rangeVerdict, hreceived, rangeItems_oneBid]
  simp only [Option.bind_eq_bind, Option.bind_some, hlist, hshort, if_true]

end SecureChaincode
