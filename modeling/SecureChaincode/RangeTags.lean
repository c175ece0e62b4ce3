import SecureChaincode.FailClosed
import SecureChaincode.PeerStub

/-! What the chaincode enclave may conclude from a tag of the ledger enclave for a range
query, when the pairs come from an untrusted peer. -/
namespace SecureChaincode

open Std

/-- Keys and values as words of one list. -/
def pairWords (l : List (Bytes × Bytes)) : List Bytes := l.flatMap (fun p => [p.1, p.2])

theorem flatten_pairWords (l : List (Bytes × Bytes)) :
    (pairWords l).flatten = l.flatMap (fun p => p.1 ++ p.2) := by
  induction l with
  | nil => rfl
  | cons p l ih =>
    rw [pairWords, List.flatMap_cons, List.flatten_append, ← pairWords, ih, List.flatMap_cons]
    simp

theorem pairWords_inj {l l' : List (Bytes × Bytes)} (h : pairWords l = pairWords l') : l = l' := by
  induction l generalizing l' with
  | nil =>
    cases l' with
    | nil => rfl
    | cons p l' => cases h
  | cons p l ih =>
    cases l' with
    | nil => cases h
    | cons q l' =>
      obtain ⟨hkey, hrest⟩ := List.cons.inj h
      obtain ⟨hvalue, hrest⟩ := List.cons.inj hrest
      rw [ih hrest, Prod.ext hkey hvalue]

/-- The lengths of the keys and values. -/
def pairLengths (l : List (Bytes × Bytes)) : List ℕ := (pairWords l).map List.length

/-- A concatenation of pairs can be taken apart when the lengths are known. -/
theorem pairs_eq_iff {l l' : List (Bytes × Bytes)} :
    l = l' ↔ l.flatMap (fun p => p.1 ++ p.2) = l'.flatMap (fun p => p.1 ++ p.2) ∧
      pairLengths l = pairLengths l' := by
  constructor
  · rintro rfl
    exact ⟨rfl, rfl⟩
  · rintro ⟨hbytes, hlen⟩
    apply pairWords_inj
    rw [List.eq_iff_flatten_eq]
    exact ⟨by rw [flatten_pairWords, flatten_pairWords, hbytes], hlen⟩

/-- The entries of the ledger behind the prefix, without the name of the chaincode. -/
def ledgerPairs (state : Kvs) (compKey : Bytes) : List (Bytes × Bytes) :=
  (state.toList.filter (fun e => (str "ecc" ++ compKey).isPrefixOf e.1)).map
    (fun e => (e.1.drop 3, e.2.1))

theorem fromDot_ecc {k : Bytes} (h : k.head? = some sep) : fromDot (str "ecc" ++ k) = k := by
  cases k with
  | nil => cases h
  | cons c k =>
    obtain rfl : c = sep := Option.some.inj h
    rfl

theorem zero_notMem_ecc {k : Bytes} (h : (0 : UInt8) ∉ k) : (0 : UInt8) ∉ str "ecc" ++ k := by
  intro hm
  rcases List.mem_append.mp hm with hm | hm
  · exact absurd hm (by decide)
  · exact h hm

/-- The bytes that the ledger enclave hashes for a prefix. -/
theorem multiState_bytes (state : Kvs) {compKey : Bytes} (hdot : compKey.head? = some sep) :
    (multiState state (str "ecc" ++ compKey)).flatMap (fun e => fromDot e.1 ++ e.2.1) =
      (ledgerPairs state compKey).flatMap (fun p => p.1 ++ p.2) := by
  rw [multiState_eq_filter, ledgerPairs, List.flatMap_map]
  apply List.flatMap_congr
  intro e he
  -- the key starts with the name of the chaincode and the dot of the prefix
  obtain ⟨rest, hrest⟩ := List.isPrefixOf_iff_prefix.mp (List.mem_filter.mp he).2
  have hfrom : fromDot e.1 = e.1.drop 3 := by
    rw [← hrest, List.append_assoc, fromDot_ecc]
    · rfl
    · rw [List.head?_append, hdot]
      rfl
  rw [hfrom]

section
variable {ω τ : Type} [DecidableEq τ] (H : IdealHash ω) (M : IdealMac ω τ)

/-- The tag of the ledger enclave for the prefix is accepted for exactly the bytes that the
ledger enclave has hashed. -/
theorem checkCmac_range_iff (state : Kvs) {compKey : Bytes} (hnul : (0 : UInt8) ∉ compKey)
    (hdot : compKey.head? = some sep) (b : Bytes) :
    checkCmac H M compKey (H.sha256 (H.bytes b))
        (ecallGetMultiStateMetadata H M state (str "ecc" ++ compKey)) = true ↔
      b = (ledgerPairs state compKey).flatMap (fun p => p.1 ++ p.2) := by
  rw [checkCmac, decide_eq_true_iff, ecallGetMultiStateMetadata, ledgerGetMultiStateHash,
    cstr_eq_self hnul, cstr_eq_self (zero_notMem_ecc hnul), fromDot_ecc hdot, multiState_bytes state hdot]
  constructor
  · intro h
    have hm := M.cmac_injective h
    exact H.bytes_injective (H.sha256_injective (List.append_cancel_left hm))
  · rintro rfl
    rfl

/-- The verdict on a reply with the tag of the ledger enclave for the prefix. -/
theorem rangeVerdict_eq_true_iff {η τ' σ σ' : Type} (E : Enclave η τ' σ) (sign : List ω → Option σ')
    (state : Kvs) {compKey : Bytes} {values received plain : WriteSet} {reply : OcallReply τ}
    (hnul : (0 : UInt8) ∉ compKey) (hdot : compKey.head? = some sep)
    (hread : readValues (idealEnclave H M E sign) values reply = some (received, plain))
    (htag : reply.cmac = ecallGetMultiStateMetadata H M state (str "ecc" ++ compKey)) :
    rangeVerdict (idealEnclave H M E sign) compKey values reply = some true ↔
      pairBytes received = (ledgerPairs state compKey).flatMap (fun p => p.1 ++ p.2) := by
  rw [rangeVerdict_of_readValues _ hread, htag, Option.some_inj]
  exact checkCmac_range_iff H M state hnul hdot (pairBytes received)

/-- With the tag of the ledger enclave for the prefix, the pairs of a reply that the enclave gets
through are exactly the entries of the ledger when the tag is accepted and the keys and values are
cut as in the ledger. Acceptance alone fixes their concatenation only. -/
theorem range_read_exact_iff {η τ' σ σ' : Type} (E : Enclave η τ' σ) (sign : List ω → Option σ')
    (state : Kvs) (compKey : Bytes) (values received plain : WriteSet) (reply : OcallReply τ)
    (hnul : (0 : UInt8) ∉ compKey) (hdot : compKey.head? = some sep)
    (hread : readValues (idealEnclave H M E sign) values reply = some (received, plain))
    (htag : reply.cmac = ecallGetMultiStateMetadata H M state (str "ecc" ++ compKey)) :
    received.toList = ledgerPairs state compKey ↔
      rangeVerdict (idealEnclave H M E sign) compKey values reply = some true ∧
        pairLengths received.toList = pairLengths (ledgerPairs state compKey) := by
  rw [rangeVerdict_eq_true_iff H M E sign state hnul hdot hread htag]
  exact pairs_eq_iff

end

/-- The sealed bids of the examples. -/
def sealedBid : Bytes := frankValue (str "1")

def otherSealedBid : Bytes := frankValue (str "2")

/-- Two bids in the ledger. -/
def twoBids : Kvs :=
  insertAll ∅ [(str "ecc.a.b.", sealedBid, ⟨1, 0⟩), (str "ecc.a.c.", otherSealedBid, ⟨1, 1⟩)]

theorem ledgerPairs_twoBids :
    ledgerPairs twoBids (str ".a.") = [(str ".a.b.", sealedBid), (str ".a.c.", otherSealedBid)] := by
  have hlist : twoBids.toList =
      [(str "ecc.a.b.", sealedBid, ⟨1, 0⟩), (str "ecc.a.c.", otherSealedBid, ⟨1, 1⟩)] :=
    toList_insertAll_of_sorted (by decide)
  rw [ledgerPairs, hlist]
  rfl

/-- A reply with the pairs given and with the tag for the bids of the auction. -/
def bidReply (items : List (Bytes × Bytes)) : OcallReply (List ℕ) where
  val := valuesText items
  valLen := (valuesText items).length.toUInt32
  cmac := ecallGetMultiStateMetadata IdealHash.numbered (IdealMac.plain ℕ) twoBids (str "ecc" ++ str ".a.")
  behind := []

/-- The enclave of the examples. -/
def bidEnclave : Enclave (List ℕ) (List ℕ) Unit :=
  idealEnclave IdealHash.numbered (IdealMac.plain ℕ) frankEnclave (fun _ => some ())

/-- A reply in order, with sealed values, is read. -/
theorem readValues_bidReply {items : List (Bytes × Bytes)}
    (h : ∀ p ∈ items, PlainText p.1 ∧ PlainText p.2) (hfit : (valuesText items).length ≤ jsonBufferSize)
    (hlist : (insertAll (∅ : WriteSet) items).toList = items) (hsealed : items.any (fun p => tooShort p.2) = false) :
    ∃ plain, readValues bidEnclave ∅ (bidReply items) = some (insertAll ∅ items, plain) := by
  have hreceived : receivedValues bidEnclave ∅ (bidReply items) = some (insertAll ∅ items) :=
    receivedValues_valuesText bidEnclave ∅ rfl h hfit
  exact readValues_of_received bidEnclave hreceived (hlist.symm ▸ hsealed)

/-- The two bids as they are arrive as they are. -/
theorem two_bids_read_exactly :
    rangeVerdict bidEnclave (str ".a.") ∅ (bidReply [(str ".a.b.", sealedBid), (str ".a.c.", otherSealedBid)]) =
        some true ∧
      (insertAll (∅ : WriteSet) [(str ".a.b.", sealedBid), (str ".a.c.", otherSealedBid)]).toList =
        ledgerPairs twoBids (str ".a.") := by
  have hlist : (insertAll (∅ : WriteSet) [(str ".a.b.", sealedBid), (str ".a.c.", otherSealedBid)]).toList =
      [(str ".a.b.", sealedBid), (str ".a.c.", otherSealedBid)] := toList_insertAll_of_sorted (by decide)
  have hexact := hlist.trans ledgerPairs_twoBids.symm
  obtain ⟨plain, hread⟩ := readValues_bidReply (by decide +kernel) (by decide +kernel) hlist (by decide +kernel)
  exact ⟨((range_read_exact_iff IdealHash.numbered (IdealMac.plain ℕ) frankEnclave (fun _ => some ())
    twoBids (str ".a.") ∅ _ plain _ (by decide) rfl hread rfl).mp hexact).1, hexact⟩

/-- The one pair that swallows the value and the second key in its own key. -/
def mergedBid : Bytes × Bytes := (str ".a.b." ++ sealedBid ++ str ".a.c.", otherSealedBid)

/-- It is accepted in place of the two bids. -/
theorem merged_bids_accepted :
    ∃ received plain, readValues bidEnclave ∅ (bidReply [mergedBid]) = some (received, plain) ∧
      rangeVerdict bidEnclave (str ".a.") ∅ (bidReply [mergedBid]) = some true ∧
      received.toList ≠ ledgerPairs twoBids (str ".a.") := by
  have hlist : (insertAll (∅ : WriteSet) [mergedBid]).toList = [mergedBid] := toList_insertAll_of_sorted (by decide)
  obtain ⟨plain, hread⟩ := readValues_bidReply (by decide +kernel) (by decide +kernel) hlist (by decide +kernel)
  have hnul : (0 : UInt8) ∉ str ".a." := by decide
  refine ⟨_, plain, hread, ?_, ?_⟩
  · refine (rangeVerdict_eq_true_iff IdealHash.numbered (IdealMac.plain ℕ) frankEnclave
      (fun _ => some ()) twoBids hnul rfl hread rfl).mpr ?_
    rw [pairBytes, hlist, ledgerPairs_twoBids]
    rfl
  · rw [hlist, ledgerPairs_twoBids]
    decide

end SecureChaincode
