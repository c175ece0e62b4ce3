import SecureChaincode.RangeTags

/-! Reads of the chaincode enclave when the peer is honest and its world state agrees with
the state of the ledger enclave. -/
namespace SecureChaincode

open Std

/-- The ledger enclave has under its own names the values that the peer has under the keys of
Fabric. -/
def Agrees (worldState state : Kvs) : Prop :=
  ∀ name val, str "ecc." <+: name →
    (state[name]?.map Prod.fst = some val ↔
      ∃ key, worldState[key]?.map Prod.fst = some val ∧ eccName (str "ecc") key = some name)

theorem OcallReply.take_memory {τ : Type} {reply : OcallReply τ} {n : ℕ} (h : reply.val.length ≤ n) :
    (reply.memory n).take reply.val.length = reply.val := by
  obtain ⟨rest, hrest⟩ := OcallReply.memory_eq h
  rw [hrest, List.take_left]

theorem zero_notMem_eccDot {k : Bytes} (h : (0 : UInt8) ∉ k) : (0 : UInt8) ∉ str "ecc." ++ k := by
  intro hm
  rcases List.mem_append.mp hm with hm | hm
  · exact absurd hm (by decide)
  · exact h hm

theorem pastDot_ecc (k : Bytes) : pastDot (str "ecc." ++ k) = k := rfl

section
variable {ω τ : Type} [DecidableEq τ] (H : IdealHash ω) (M : IdealMac ω τ)
variable {η τ' σ σ' : Type} (E : Enclave η τ' σ) (sign : List ω → Option σ') (F : KeyRule)
variable (worldState state : Kvs)

/-- The hash that the enclave forms of an honest reply. -/
theorem valueHash_eq {maxValLen : UInt32} {data : Bytes} (hfit : data.length ≤ maxValLen.toNat)
    (cmac : τ) (behind : Bytes) :
    valueHash (idealEnclave H M E sign) maxValLen ⟨data, data.length.toUInt32, cmac, behind⟩ =
      getStateHash H data := by
  have hlen : data.length.toUInt32.toNat = data.length := by
    have hlt := maxValLen.toNat_lt
    rw [Nat.toUInt32_eq, UInt32.toNat_ofNat']
    exact Nat.mod_eq_of_lt (Nat.lt_of_le_of_lt hfit hlt)
  rw [valueHash, getStateHash]
  simp only [hlen]
  rw [@OcallReply.take_memory τ ⟨data, data.length.toUInt32, cmac, behind⟩ _ hfit]
  rfl

/-- The reply of the honest peer to a read, and the verdict of the enclave on it. -/
theorem valueVerdict_eq {pre : List (Event τ)} {key : Bytes} {maxValLen : UInt32} {reply : OcallReply τ}
    (h : (goHost F worldState (verifyState H M state)).getState pre key maxValLen = some reply) :
    ∃ keyStr, goKey F key = some keyStr ∧
      valueVerdict (idealEnclave H M E sign) key maxValLen reply =
        checkCmac H M key (getStateHash H ((worldState[keyStr]?.map Prod.fst).getD []))
          (ecallGetStateMetadata H M state (str "ecc." ++ keyStr)) := by
  obtain ⟨keyStr, hkey, h⟩ := Option.bind_eq_some_iff.mp h
  refine ⟨keyStr, hkey, ?_⟩
  dsimp only at h
  split_ifs at h with hbuf
  cases h
  rw [valueVerdict, valueHash_eq H M E sign (Nat.le_of_not_lt hbuf)]
  rfl

/-- The tag of another key is not accepted. -/
theorem checkCmac_eq_false_of_key {key k : Bytes} (hnul : (0 : UInt8) ∉ key) (val : Bytes)
    (hk : pastDot (cstr k) ≠ key) :
    checkCmac H M key (getStateHash H val) (ecallGetStateMetadata H M state k) = false := by
  rw [checkCmac, decide_eq_false_iff_not, cstr_eq_self hnul]
  intro h
  exact hk (H.bytes_append_inj (length_getStateHash H val) (length_stateHash H state k)
    (M.cmac_injective h)).1.symm

/-- For a key without an entry the tag is accepted when the ledger has none either. -/
theorem checkCmac_absent_iff {k : Bytes} (hnul : (0 : UInt8) ∉ k) :
    checkCmac H M k (getStateHash H []) (ecallGetStateMetadata H M state (str "ecc." ++ k)) = true ↔
      state[str "ecc." ++ k]? = none := by
  have hname := zero_notMem_eccDot hnul
  rw [checkCmac, decide_eq_true_iff, ecallGetStateMetadata, ledgerGetStateHash, cstr_eq_self hnul,
    cstr_eq_self hname, pastDot_ecc]
  have hempty : getStateHash H [] = H.zeros := rfl
  rw [hempty]
  constructor
  · intro h
    have hhash := List.append_cancel_left (M.cmac_injective h)
    cases hs : state[str "ecc." ++ k]? with
    | none => rfl
    | some x =>
      rw [hs] at hhash
      exact absurd hhash.symm (H.sha256_ne_zeros _)
  · intro h
    rw [h]
    rfl

/-- The tag for a composite key is one for the empty key: behind the dot comes the NUL byte
of Fabric, or nothing where Fabric refuses the key. -/
theorem pastDot_of_composite {key keyStr : Bytes} (hc : isSGXCompositeKey key = true)
    (h : goKey F key = some keyStr) : pastDot (cstr (str "ecc." ++ keyStr)) = [] := by
  rw [goKey, if_pos hc] at h
  obtain ⟨comp, hcomp, rfl⟩ := isSGXCompositeKey_iff.mp hc
  cases comp with
  | nil =>
    have hpanic : transformToCompositeKey F (sgxKey []) = none := rfl
    rw [hpanic] at h
    cases h
  | cons w comp =>
    rw [transformToCompositeKey_sgxKey (List.cons_ne_nil w comp) hcomp] at h
    cases h
    split_ifs <;> rfl

/-- The honest reply for a composite key is refused, whatever the state. -/
theorem valueVerdict_of_composite {pre : List (Event τ)} {key : Bytes} {maxValLen : UInt32}
    {reply : OcallReply τ} (hnul : (0 : UInt8) ∉ key) (hc : isSGXCompositeKey key = true)
    (h : (goHost F worldState (verifyState H M state)).getState pre key maxValLen = some reply) :
    valueVerdict (idealEnclave H M E sign) key maxValLen reply = false := by
  obtain ⟨keyStr, hkey, hverdict⟩ := valueVerdict_eq H M E sign F worldState state h
  have hother : pastDot (cstr (str "ecc." ++ keyStr)) ≠ key := by
    rw [pastDot_of_composite F hc hkey]
    rintro rfl
    cases hc
  rw [hverdict, checkCmac_eq_false_of_key H M state hnul _ hother]

/-- The honest tag for a single key is accepted when the key is a simple one and, in case the
peer has no entry for it, no other key of Fabric has the same name in the ledger. For a
composite key it is never accepted. -/
theorem honest_value_accepted_iff (pre : List (Event τ)) (key : Bytes) (maxValLen : UInt32)
    (reply : OcallReply τ) (hag : Agrees worldState state) (hnul : (0 : UInt8) ∉ key) (hne : key ≠ [])
    (hvalues : ∀ (k v : Bytes), worldState[k]?.map Prod.fst = some v → v ≠ [])
    (h : (goHost F worldState (verifyState H M state)).getState pre key maxValLen = some reply) :
    valueVerdict (idealEnclave H M E sign) key maxValLen reply = true ↔
      isSGXCompositeKey key = false ∧
        (worldState[key]? = none →
          ∀ k, eccName (str "ecc") k = some (str "ecc." ++ key) → worldState[k]? = none) := by
  by_cases hc : isSGXCompositeKey key = true
  · rw [valueVerdict_of_composite H M E sign F worldState state hnul hc h, hc]
    simp
  · obtain ⟨keyStr, hkey, hverdict⟩ := valueVerdict_eq H M E sign F worldState state h
    rw [hverdict]
    rw [goKey, if_neg hc] at hkey
    cases hkey
    have hname : eccName (str "ecc") key = some (str "ecc." ++ key) := eccName_simple (str "ecc") hnul hne
    have hstate := hag (str "ecc." ++ key)
    rw [Bool.not_eq_true] at hc
    simp only [hc, true_and]
    cases hw : worldState[key]? with
    | none =>
      have hempty : ((none : Option KvsValue).map Prod.fst).getD [] = [] := rfl
      rw [hempty, checkCmac_absent_iff H M state hnul]
      constructor
      · intro hs _ k hk
        by_contra hn
        obtain ⟨x, hx⟩ := Option.ne_none_iff_exists'.mp hn
        have hfound := (hstate x.1 (List.prefix_append _ _)).mpr ⟨k, by rw [hx]; rfl, hk⟩
        rw [hs] at hfound
        cases hfound
      · intro hno
        cases hs : state[str "ecc." ++ key]? with
        | none => rfl
        | some x =>
          obtain ⟨k, hk, hn⟩ := (hstate x.1 (List.prefix_append _ _)).mp (by rw [hs]; rfl)
          rw [hno rfl k hn] at hk
          cases hk
    | some x =>
      have hval : x.1 ≠ [] := hvalues key x.1 (by rw [hw]; rfl)
      have hs := (hstate x.1 (List.prefix_append _ _)).mpr ⟨key, by rw [hw]; rfl, hname⟩
      have hname' := cstr_eq_self (zero_notMem_eccDot hnul)
      refine iff_of_true ?_ (fun hnone => by cases hnone)
      apply checkCmac_of_value H M hval
      · rw [hname', cstr_eq_self hnul, pastDot_ecc]
      · rw [hname']
        exact hs

end

/-- A rule that refuses the NUL byte and nothing else. -/
def nulFree : KeyRule where
  validAttribute a := !a.contains 0
  no_nul a h := by simpa using h

/-- One bid, in the world state and in the ledger. -/
def oneBid (val : Bytes) : Kvs := insertAll ∅ [(fabricKey [str "a", str "b"], val, ⟨1, 0⟩)]

def oneBidLedger (val : Bytes) : Kvs := insertAll ∅ [(str "ecc.a.b.", val, ⟨1, 0⟩)]

theorem getElem?_single (key : Bytes) (x : KvsValue) (k : Bytes) :
    (insertAll (∅ : Kvs) [(key, x)])[k]? = if k = key then some x else none := by
  rw [getElem?_insertAll, ExtTreeMap.getElem?_empty, Option.none_or, List.lookup_cons]
  by_cases h : k = key
  · rw [if_pos h, beq_iff_eq.mpr h]
  · rw [if_neg h, beq_eq_false_iff_ne.mpr h]
    rfl

theorem agrees_oneBid (bid : Bytes) : Agrees (oneBid bid) (oneBidLedger bid) := by
  have hkey : eccName (str "ecc") (fabricKey [str "a", str "b"]) = some (str "ecc.a.b.") := by decide
  intro name val _
  simp only [oneBid, oneBidLedger, getElem?_single]
  constructor
  · intro h
    split_ifs at h with hn
    · exact ⟨fabricKey [str "a", str "b"], by simpa using h, hn ▸ hkey⟩
    · cases h
  · rintro ⟨k, hk, hn⟩
    split_ifs at hk with hb
    · rw [hb, hkey] at hn
      rw [if_pos (Option.some.inj hn).symm]
      exact hk
    · cases hk

theorem values_oneBid {bid : Bytes} (hbid : bid ≠ []) (k v : Bytes)
    (h : (oneBid bid)[k]?.map Prod.fst = some v) : v ≠ [] := by
  rw [oneBid, getElem?_single] at h
  split_ifs at h
  · cases h
    exact hbid
  · cases h

/-- The honest peer of an agreeing world state and ledger. -/
def honestHost (worldState state : Kvs) : Host (List ℕ) :=
  goHost nulFree worldState (verifyState IdealHash.numbered (IdealMac.plain ℕ) state)

/-- A simple key without an entry is verified. -/
theorem absent_auction_verified :
    ∃ reply, (honestHost (oneBid sealedBid) (oneBidLedger sealedBid)).getState [] (str "x") 1024 = some reply ∧
      valueVerdict bidEnclave (str "x") 1024 reply = true := by
  have hw : (oneBid sealedBid)[str "x"]? = none := by
    rw [oneBid, getElem?_single]
    decide
  have hreply : ∃ reply, (honestHost (oneBid sealedBid) (oneBidLedger sealedBid)).getState [] (str "x") 1024 = some reply := by
    have hkey : goKey nulFree (str "x") = some (str "x") := by decide
    simp only [honestHost, goHost, hkey, Option.bind_eq_bind, Option.bind_some, hw]
    exact ⟨_, rfl⟩
  obtain ⟨reply, hreply⟩ := hreply
  refine ⟨reply, hreply, ?_⟩
  apply (honest_value_accepted_iff IdealHash.numbered (IdealMac.plain ℕ) frankEnclave (fun _ => some ())
    nulFree (oneBid sealedBid) (oneBidLedger sealedBid) [] (str "x") 1024 reply (agrees_oneBid _) (by decide)
    (by decide) (values_oneBid (by decide)) hreply).mpr
  refine ⟨by decide, fun _ k hk => ?_⟩
  rw [oneBid, getElem?_single]
  split_ifs with hb
  · rw [hb] at hk
    exact absurd hk (by decide)
  · rfl

/-- The tag for a composite key is refused: on the empty ledger for a bid that is not there, and
for a bid that is there and delivered. -/
theorem composite_bid_refused :
    (∃ reply, (honestHost ∅ ∅).getState [] (str ".a.b.") 1024 = some reply ∧ reply.val = [] ∧
        valueVerdict bidEnclave (str ".a.b.") 1024 reply = false) ∧
      ∃ reply, (honestHost (oneBid sealedBid) (oneBidLedger sealedBid)).getState [] (str ".a.b.") 1024 = some reply ∧
        reply.val = sealedBid ∧ valueVerdict bidEnclave (str ".a.b.") 1024 reply = false := by
  have hkey : goKey nulFree (str ".a.b.") = some (fabricKey [str "a", str "b"]) := by decide
  have hw : (oneBid sealedBid)[fabricKey [str "a", str "b"]]? = some (sealedBid, ⟨1, 0⟩) := by
    rw [oneBid, getElem?_single, if_pos rfl]
  have hrefused : ∀ (worldState state : Kvs) reply,
      (honestHost worldState state).getState [] (str ".a.b.") 1024 = some reply →
        valueVerdict bidEnclave (str ".a.b.") 1024 reply = false := by
    intro worldState state reply h
    exact valueVerdict_of_composite IdealHash.numbered (IdealMac.plain ℕ) frankEnclave
      (fun _ => some ()) nulFree worldState state (by decide) (by decide) h
  constructor
  · have hreply : ∃ cmac, (honestHost ∅ ∅).getState [] (str ".a.b.") 1024 = some ⟨[], 0, cmac, []⟩ := by
      simp only [honestHost, goHost, hkey, Option.bind_eq_bind, Option.bind_some,
        ExtTreeMap.getElem?_empty]
      exact ⟨_, rfl⟩
    obtain ⟨cmac, hreply⟩ := hreply
    exact ⟨_, hreply, rfl, hrefused ∅ ∅ _ hreply⟩
  · have hreply : ∃ cmac, (honestHost (oneBid sealedBid) (oneBidLedger sealedBid)).getState [] (str ".a.b.") 1024 =
        some ⟨sealedBid, 40, cmac, []⟩ := by
      simp only [honestHost, goHost, hkey, Option.bind_eq_bind, Option.bind_some, hw]
      exact ⟨_, rfl⟩
    obtain ⟨cmac, hreply⟩ := hreply
    exact ⟨_, hreply, rfl, hrefused _ _ _ hreply⟩

end SecureChaincode
