import SecureChaincode.CompositeKeys
import SecureChaincode.SimulatedReads

/-! The trip of a range result from Fabric into the enclave, for composite keys with any parts
that Fabric takes. -/
namespace SecureChaincode

open Std (ExtTreeMap)

/-- The pairs that are sent for composite keys, given by their components, and their values. -/
def sentItems (items : List (List Bytes × Bytes)) : List (Bytes × Bytes) :=
  items.map (fun item => (transformToSGX (fabricKey item.1), item.2))

theorem plainText_transformToSGX {comp : List Bytes} (h : ∀ w ∈ comp, PlainText w) :
    PlainText (transformToSGX (fabricKey comp)) := by
  rw [transformToSGX_fabricKey (fun w hw => (h w hw).no_nul)]
  intro c hc
  rcases mem_delimited.mp hc with rfl | ⟨w, hw, hmem⟩
  · decide
  · exact h w hw c hmem

/-- Different composite keys without dots in their components are sent under different names. -/
theorem nodup_sent_names {items : List (List Bytes × Bytes)}
    (hkeys : (items.map (fun item => fabricKey item.1)).Nodup)
    (hnul : ∀ item ∈ items, ∀ w ∈ item.1, (0 : UInt8) ∉ w)
    (hdots : ∀ item ∈ items, ∀ w ∈ item.1, sep ∉ w) : ((sentItems items).map Prod.fst).Nodup := by
  have hnames : (sentItems items).map Prod.fst =
      (items.map (fun item => fabricKey item.1)).map transformToSGX := by
    rw [sentItems, List.map_map, List.map_map]
    rfl
  rw [hnames]
  apply hkeys.map_on
  intro k hk k' hk' he
  obtain ⟨item, hitem, rfl⟩ := List.mem_map.mp hk
  obtain ⟨item', hitem', rfl⟩ := List.mem_map.mp hk'
  rw [transformToSGX_fabricKey (hnul item hitem), transformToSGX_fabricKey (hnul item' hitem')] at he
  rw [delimited_inj (hdots item hitem) (hdots item' hitem') he]

/-- If all names arrive, none of them has a special character: the longest one that had would
have to come from a longer one. -/
theorem plain_of_arrived {libc : Libc} {items : List (Bytes × Bytes)}
    (hkeys : ∀ p ∈ items, p.1.getLast? ≠ some 0x5c) (hvalues : ∀ p ∈ items, PlainText p.2) {rest : Bytes}
    (hrest : 0x5c ∉ rest) {received : WriteSet}
    (h : unmarshalValues libc ∅ (valuesText items ++ rest) = some received)
    (harrived : ∀ p ∈ items, p.1 ∈ received) : ∀ p ∈ items, PlainText p.1 := by
  by_contra hnot
  push Not at hnot
  obtain ⟨p, hp, hspecial, hmax⟩ := exists_longest (fun p => p.1.length) hnot
  obtain ⟨q, hq, hqspecial, hlt⟩ := longer_of_received hkeys hvalues hrest h (harrived p hp) hspecial
  exact absurd (hmax q hq hqspecial) (Nat.not_le_of_lt hlt)

theorem plainText_transformToSGX_iff {comp : List Bytes} (hnul : ∀ w ∈ comp, (0 : UInt8) ∉ w) :
    PlainText (transformToSGX (fabricKey comp)) ↔ ∀ w ∈ comp, PlainText w := by
  refine ⟨fun h w hw c hc => ?_, plainText_transformToSGX⟩
  rw [transformToSGX_fabricKey hnul] at h
  exact h c (mem_delimited.mpr (Or.inr ⟨w, hw, hc⟩))

/-- The pairs of a range arrive exactly as they are when no component has a quote, a backslash or a
control character and the names in the enclave's form are different, and they are different when no
component has a dot. -/
theorem values_arrive_iff (libc : Libc) {items : List (List Bytes × Bytes)}
    (hkeys : (items.map (fun item => fabricKey item.1)).Nodup)
    (hvalid : ∀ item ∈ items, ∀ w ∈ item.1, fabricRule.validAttribute w = true)
    (hvalues : ∀ item ∈ items, ∀ c ∈ item.2, c ∈ base64Chars ∨ c = 0x3d) (zeros : ℕ) :
    ((∃ m, unmarshalValues libc ∅ (valuesText (sentItems items) ++ List.replicate zeros 0) = some m ∧
        (∀ k v, m[k]? = some v ↔ (k, v) ∈ sentItems items) ∧ m.size = items.length) ↔
      (∀ item ∈ items, ∀ w ∈ item.1, PlainText w) ∧ ((sentItems items).map Prod.fst).Nodup) ∧
    ((∀ item ∈ items, ∀ w ∈ item.1, sep ∉ w) → ((sentItems items).map Prod.fst).Nodup) := by
  have hnul : ∀ item ∈ items, ∀ w ∈ item.1, (0 : UInt8) ∉ w :=
    fun item hitem w hw => fabricRule.no_nul w (hvalid item hitem w hw)
  have hlen : (sentItems items).length = items.length := List.length_map ..
  have htexts : ∀ p ∈ sentItems items, PlainText p.2 := by
    intro p hp
    obtain ⟨item, hitem, rfl⟩ := List.mem_map.mp hp
    exact plainText_of_base64 (hvalues item hitem)
  refine ⟨⟨?_, ?_⟩, nodup_sent_names hkeys hnul⟩
  · rintro ⟨m, hm, hentries, hsize⟩
    have hends : ∀ p ∈ sentItems items, p.1.getLast? ≠ some 0x5c := by
      intro p hp
      obtain ⟨item, hitem, rfl⟩ := List.mem_map.mp hp
      dsimp only
      rw [transformToSGX_fabricKey (hnul item hitem), sgxKey, getLast?_delimited]
      decide
    have harrived : ∀ p ∈ sentItems items, p.1 ∈ m := by
      intro p hp
      rw [ExtTreeMap.mem_iff_isSome_getElem?, (hentries p.1 p.2).mpr hp]
      rfl
    have hplain := plain_of_arrived hends htexts (backslash_not_mem_zeros zeros) hm harrived
    have hwords : ∀ item ∈ items, ∀ w ∈ item.1, PlainText w := fun item hitem =>
      (plainText_transformToSGX_iff (hnul item hitem)).mp (hplain _ (List.mem_map_of_mem hitem))
    have hread := unmarshalValues_valuesText libc ∅ (fun p hp => ⟨hplain p hp, htexts p hp⟩) (List.replicate zeros 0)
    obtain rfl : insertAll ∅ (sentItems items) = m := Option.some.inj (hread.symm.trans hm)
    exact ⟨hwords, size_insertAll_eq_length_iff.mp (hsize.trans hlen.symm)⟩
  · rintro ⟨hplain, hnodup⟩
    have hnames : ∀ p ∈ sentItems items, PlainText p.1 ∧ PlainText p.2 := by
      intro p hp
      refine ⟨?_, htexts p hp⟩
      obtain ⟨item, hitem, rfl⟩ := List.mem_map.mp hp
      exact plainText_transformToSGX (hplain item hitem)
    refine ⟨_, unmarshalValues_valuesText libc ∅ hnames _, ?_,
      (size_insertAll_eq_length_iff.mpr hnodup).trans hlen⟩
    intro k v
    constructor
    · exact mem_of_getElem?_insertAll_empty
    · intro hmem
      rw [getElem?_insertAll, ExtTreeMap.getElem?_empty, Option.none_or]
      apply lookup_eq_some_of_unique hmem
      -- a second value would need a second pair of the same name
      intro w hw
      exact (Prod.mk.inj (List.inj_on_of_nodup_map hnodup hw hmem rfl)).2

/-- Two bids of a range arrive. -/
theorem two_values_arrive :
    ∃ m, unmarshalValues signedLibc ∅ (valuesText (sentItems [([str "p", str "a"], sealedBid),
        ([str "p", str "b"], otherSealedBid)]) ++ [0]) = some m ∧
      m[str ".p.a."]? = some sealedBid ∧ m[str ".p.b."]? = some otherSealedBid ∧ m.size = 2 := by
  have hp : fabricRule.validAttribute (str "p") = true := (validAttribute_utf8 ['p']).mpr (by decide)
  have ha : fabricRule.validAttribute (str "a") = true := (validAttribute_utf8 ['a']).mpr (by decide)
  have hb : fabricRule.validAttribute (str "b") = true := (validAttribute_utf8 ['b']).mpr (by decide)
  obtain ⟨harrive, hnames⟩ := @values_arrive_iff signedLibc [([str "p", str "a"], sealedBid),
    ([str "p", str "b"], otherSealedBid)] (by decide +kernel) (by simp [hp, ha, hb]) (by decide +kernel) 1
  obtain ⟨m, hm, hentries, hsize⟩ := harrive.mpr ⟨by decide +kernel, hnames (by decide +kernel)⟩
  exact ⟨m, hm, (hentries _ _).mpr (by decide +kernel), (hentries _ _).mpr (by decide +kernel), hsize⟩

/-- A world state with a dot in a component. -/
def dottedWorld : Kvs :=
  ((∅ : Kvs).insert (fabricKey [str "p", str "a", str "b"]) (sealedBid, ⟨1, 0⟩)).insert
    (fabricKey [str "p", str "a.b"]) (otherSealedBid, ⟨1, 1⟩)

/-- Fabric takes a quote and a dot. The quote ends the text of the key, and no pair arrives; with
the dot two keys have the same name, and the second pair is lost. -/
theorem quote_and_dot_lose_pairs :
    createCompositeKey fabricRule (str "p") [str "a\"b"] = some (fabricKey [str "p", str "a\"b"]) ∧
      rangeItems quotedWorld (fabricKey [str "p"]) = sentItems [([str "p", str "a\"b"], sealedBid)] ∧
      (∀ libc, unmarshalValues libc ∅ (valuesText (rangeItems quotedWorld (fabricKey [str "p"])) ++ [0]) =
        some ∅) ∧
      createCompositeKey fabricRule (str "p") [str "a.b"] = some (fabricKey [str "p", str "a.b"]) ∧
      rangeItems dottedWorld (fabricKey [str "p"]) =
        sentItems [([str "p", str "a", str "b"], sealedBid), ([str "p", str "a.b"], otherSealedBid)] ∧
      ∀ libc, ∃ m,
        unmarshalValues libc ∅ (valuesText (rangeItems dottedWorld (fabricKey [str "p"])) ++ [0]) = some m ∧
          m.toList = [(str ".p.a.b.", sealedBid)] := by
  have hp : fabricRule.validAttribute (str "p") = true := (validAttribute_utf8 ['p']).mpr (by decide)
  have hquote : fabricRule.validAttribute (str "a\"b") = true :=
    (validAttribute_utf8 ['a', '"', 'b']).mpr (by decide)
  have hdot : fabricRule.validAttribute (str "a.b") = true :=
    (validAttribute_utf8 ['a', '.', 'b']).mpr (by decide)
  have hdotted : rangeItems dottedWorld (fabricKey [str "p"]) =
      sentItems [([str "p", str "a", str "b"], sealedBid), ([str "p", str "a.b"], otherSealedBid)] := by
    decide +kernel
  refine ⟨by simp [createCompositeKey, hp, hquote], rangeItems_quotedWorld, ?_, by simp [createCompositeKey, hp, hdot],
    hdotted, ?_⟩
  · exact fun libc => unmarshalValues_quotedWorld libc [0]
  · intro libc
    rw [hdotted]
    refine ⟨_, unmarshalValues_valuesText libc ∅ (by decide +kernel) [0], ?_⟩
    decide +kernel

end SecureChaincode
