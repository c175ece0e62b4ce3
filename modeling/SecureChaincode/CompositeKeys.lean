import SecureChaincode.LedgerQueries
import SecureChaincode.SimulatedWrites
import SecureChaincode.Utf8

/-! Composite keys under Fabric's own rule for their parts: the way from the enclave to Fabric
and back, the names that the ledger enclave gives them, and what the validator can tell apart. -/
namespace SecureChaincode

open Std (ExtTreeMap)

def minUnicodeRuneValue : ℕ := 0

def maxUnicodeRuneValue : ℕ := 0x10ffff

/-- Text that Fabric takes for a part of a composite key. -/
def FabricText (cs : List Char) : Prop :=
  ∀ c ∈ cs, c.toNat ≠ minUnicodeRuneValue ∧ c.toNat ≠ maxUnicodeRuneValue

instance (cs : List Char) : Decidable (FabricText cs) := List.decidableBAll _ _

theorem nul_notMem_utf8 {cs : List Char} (h : FabricText cs) : (0 : UInt8) ∉ utf8 cs := by
  have hascii : (Char.ofNat 0).toNat < 128 := by decide
  intro hmem
  exact (h (Char.ofNat 0) ((mem_utf8 hascii).mp hmem)).1 rfl

/-- `validateCompositeKeyAttribute` of the chaincode shim. -/
def fabricRule : KeyRule where
  validAttribute a := (runes a).any (fun cs => decide (FabricText cs))
  no_nul a h := by
    cases hrunes : runes a with
    | none => simp [hrunes] at h
    | some cs =>
      rw [hrunes, Option.any_some, decide_eq_true_eq] at h
      rw [← utf8_of_runes hrunes]
      exact nul_notMem_utf8 h

theorem validAttribute_utf8 (cs : List Char) :
    fabricRule.validAttribute (utf8 cs) = true ↔ FabricText cs := by
  have hrule : fabricRule.validAttribute (utf8 cs) =
      (runes (utf8 cs)).any (fun cs => decide (FabricText cs)) := rfl
  rw [hrule, runes_utf8, Option.any_some, decide_eq_true_eq]

theorem dot_ascii : '.'.toNat < 128 := by decide

/-- A key in the enclave's form is text in words without dots. -/
theorem exists_words_of_isSGXCompositeKey {cs : List Char} (htext : FabricText cs)
    (hkey : isSGXCompositeKey (utf8 cs) = true) : ∃ ws : List (List Char), cs = delimited '.' ws ∧
      (∀ w ∈ ws, FabricText w) ∧ (∀ w ∈ ws.map utf8, sep ∉ w) ∧ utf8 cs = sgxKey (ws.map utf8) := by
  rw [isSGXCompositeKey, Bool.and_eq_true, beq_iff_eq, beq_iff_eq] at hkey
  obtain ⟨ws, hws, rfl⟩ := exists_delimited (head?_utf8 dot_ascii hkey.1) (getLast?_utf8 dot_ascii hkey.2)
  refine ⟨ws, rfl, ?_, ?_, utf8_delimited dot_ascii ws⟩
  · intro w hw c hc
    exact htext c (mem_delimited.mpr (Or.inr ⟨w, hw, hc⟩))
  · intro b hb
    obtain ⟨w, hw, rfl⟩ := List.mem_map.mp hb
    exact fun hmem => hws w hw ((mem_utf8 dot_ascii).mp hmem)

/-- What the enclave's form of a key of at least two characters becomes in Fabric. -/
theorem transformToCompositeKey_utf8 {cs : List Char} (htext : FabricText cs) (hlen : 2 ≤ cs.length)
    (hkey : isSGXCompositeKey (utf8 cs) = true) : ∃ comp, comp ≠ [] ∧ (∀ w ∈ comp, sep ∉ w) ∧
      (∀ w ∈ comp, (0 : UInt8) ∉ w) ∧ utf8 cs = sgxKey comp ∧
      transformToCompositeKey fabricRule (utf8 cs) = some (fabricKey comp) := by
  obtain ⟨ws, rfl, htexts, hdots, hsgx⟩ := exists_words_of_isSGXCompositeKey htext hkey
  have hne : ws.map utf8 ≠ [] := by
    -- a single dot is too short
    rintro hnil
    rw [List.map_eq_nil_iff.mp hnil] at hlen
    exact absurd hlen (by decide)
  have hvalid : ∀ b ∈ ws.map utf8, fabricRule.validAttribute b = true := by
    intro b hb
    obtain ⟨w, hw, rfl⟩ := List.mem_map.mp hb
    exact (validAttribute_utf8 w).mpr (htexts w hw)
  refine ⟨ws.map utf8, hne, hdots, fun b hb => fabricRule.no_nul b (hvalid b hb), hsgx, ?_⟩
  rw [hsgx, transformToCompositeKey_sgxKey hne hdots, if_pos (List.all_eq_true.mpr hvalid)]

/-- A key that is not in the enclave's form keeps its bytes and has no NUL, so it is no
composite key of Fabric. -/
theorem goKey_simple_ne (F : KeyRule) {k : Bytes} (hk : isSGXCompositeKey (cstr k) = false)
    (comp : List Bytes) : goKey F (cstr k) ≠ some (fabricKey comp) := by
  have hsimple : ¬ isSGXCompositeKey (cstr k) = true := by rw [hk]; exact Bool.false_ne_true
  rw [goKey, if_neg hsimple]
  intro h
  have hmem : (0 : UInt8) ∈ cstr k := by
    rw [Option.some.inj h, fabricKey, delimited]
    exact List.mem_cons_self
  have hne := List.mem_takeWhile_imp hmem
  exact absurd hne (by decide)

/-- Every key in the enclave's form of at least two characters splits into its parts, and
comes back from Fabric as it went in. -/
theorem sgxCompositeKey_roundtrip {cs : List Char} (htext : FabricText cs) (hlen : 2 ≤ cs.length)
    (hkey : isSGXCompositeKey (utf8 cs) = true) :
    (∃ comp, splitSGXCompositeKey (utf8 cs) = some comp ∧ comp ≠ [] ∧
      [sep] ++ [sep].intercalate comp ++ [sep] = utf8 cs) ∧
    ∃ key, transformToCompositeKey fabricRule (utf8 cs) = some key ∧ transformToSGX key = utf8 cs ∧
      (∀ cs', FabricText cs' → 2 ≤ cs'.length → isSGXCompositeKey (utf8 cs') = true →
        transformToCompositeKey fabricRule (utf8 cs') = some key → cs' = cs) ∧
      ∀ simple, isSGXCompositeKey (cstr simple) = false → goKey fabricRule (cstr simple) ≠ some key := by
  obtain ⟨comp, hne, hdots, hnul, hsgx, hfabric⟩ := transformToCompositeKey_utf8 htext hlen hkey
  have hback : transformToSGX (fabricKey comp) = utf8 cs := by rw [transformToSGX_fabricKey hnul, hsgx]
  refine ⟨⟨comp, ?_, hne, ?_⟩, fabricKey comp, hfabric, hback, ?_, ?_⟩
  · rw [hsgx, splitSGXCompositeKey_sgxKey hdots]
  · rw [hsgx, sgxKey, delimited_eq_intercalate sep hne]
  · intro cs' htext' hlen' hkey' hsame
    obtain ⟨comp', -, -, hnul', hsgx', hfabric'⟩ := transformToCompositeKey_utf8 htext' hlen' hkey'
    have hkeys : fabricKey comp' = fabricKey comp := Option.some.inj (hfabric'.symm.trans hsame)
    apply utf8_injective
    rw [← hback, ← hkeys, transformToSGX_fabricKey hnul', hsgx']
  · intro simple hsimple
    exact goKey_simple_ne fabricRule hsimple comp

/-- Two keys with dots at their ends, one next to the other and with an empty part. -/
theorem dotted_keys_roundtrip :
    (∃ comp, splitSGXCompositeKey (utf8 ['.', 'é', '.', '.', '.']) = some comp ∧ comp ≠ [] ∧
      [sep] ++ [sep].intercalate comp ++ [sep] = utf8 ['.', 'é', '.', '.', '.']) ∧
    ∃ key, transformToCompositeKey fabricRule (utf8 ['.', '.']) = some key ∧
      transformToSGX key = utf8 ['.', '.'] := by
  have hlong := (sgxCompositeKey_roundtrip (show FabricText ['.', 'é', '.', '.', '.'] by decide)
    (by decide) (by decide)).1
  obtain ⟨key, hkey, hback, -⟩ := (sgxCompositeKey_roundtrip (show FabricText ['.', '.'] by decide)
    (by decide) (by decide)).2
  exact ⟨hlong, key, hkey, hback⟩

/-! The names of the ledger enclave. -/

/-- The walk over a composite key gives its dotted form exactly when no component is empty.
This is then the name behind the namespace in the hash of a range, and that of the chaincode
enclave. -/
theorem ledger_name_iff {comp : List Bytes} (hnul : ∀ w ∈ comp, (0 : UInt8) ∉ w) :
    (∃ name, compositeName (str "ecc") (fabricKey comp) = some name ∧
      eccName (str "ecc") (fabricKey comp) = some name ∧
      name = str "ecc" ++ transformToSGX (fabricKey comp) ∧
      fromDot name = transformToSGX (fabricKey comp) ∧
      ∀ F key, goKey F (cstr key) = some (fabricKey comp) → name = str "ecc" ++ cstr key) ↔
    ∀ w ∈ comp, w ≠ [] := by
  have hsgx := transformToSGX_fabricKey hnul
  constructor
  · rintro ⟨name, hname, -, hdotted, -⟩
    rw [compositeName_takeWhile _ hnul, Option.some.injEq, hdotted, hsgx] at hname
    -- the walk has stopped at no component, or its name would be shorter
    have hclosed : closed sep (comp.takeWhile (· ≠ [])) = closed sep comp :=
      (List.cons.inj (List.append_cancel_left hname)).2
    have hwhole : comp.takeWhile (· ≠ []) = comp := by
      obtain ⟨rest, hrest⟩ := comp.takeWhile_prefix (fun w => decide (w ≠ []))
      nth_rewrite 2 [← hrest] at hclosed
      rw [closed_append, List.self_eq_append_right, closed_eq_nil_iff] at hclosed
      rw [hclosed, List.append_nil] at hrest
      exact hrest
    rw [List.takeWhile_eq_self_iff] at hwhole
    exact fun w hw => of_decide_eq_true (hwhole w hw)
  · intro hne
    have hwords : ∀ w ∈ comp, w ≠ [] ∧ (0 : UInt8) ∉ w := fun w hw => ⟨hne w hw, hnul w hw⟩
    refine ⟨str "ecc" ++ sgxKey comp, compositeName_fabricKey _ hwords, eccName_fabricKey _ hwords, ?_, ?_, ?_⟩
    · rw [hsgx]
    · rw [hsgx]
      exact fromDot_ecc rfl
    · intro F key hkey
      have hfree : (0 : UInt8) ∉ cstr key := fun hmem => absurd (List.mem_takeWhile_imp hmem) (by decide)
      rw [← hsgx, transformToSGX_goKey hfree hkey (fun _ => List.cons_ne_nil _ _)]

/-- Without an empty component the names agree. -/
theorem names_of_two_components : ∃ name,
    compositeName (str "ecc") (fabricKey [str "a", str "b"]) = some name ∧
      name = str "ecc" ++ transformToSGX (fabricKey [str "a", str "b"]) ∧
      fromDot name = transformToSGX (fabricKey [str "a", str "b"]) := by
  obtain ⟨name, hname, -, hdotted, hfrom, -⟩ :=
    (@ledger_name_iff [str "a", str "b"] (by decide)).mpr (by decide)
  exact ⟨name, hname, hdotted, hfrom⟩

/-- The walk ends at an empty component: the name is that of another key. -/
theorem empty_component_merges :
    compositeName (str "ecc") (fabricKey [str "a", [], str "b"]) = some (str "ecc.a.") ∧
      compositeName (str "ecc") (fabricKey [str "a"]) = some (str "ecc.a.") ∧
      eccName (str "ecc") (fabricKey [str "a", [], str "b"]) = some (str "ecc.a.") ∧
      str "ecc" ++ transformToSGX (fabricKey [str "a", [], str "b"]) = str "ecc.a..b." := by
  decide

/-! What the validator can tell apart. -/

/-- The key that the peer makes for a key of the enclave: between NUL bytes and without a dot,
or without a NUL and not between dots. -/
def CanonicalKey (k : Bytes) : Prop :=
  (k.head? = some 0 ∧ k.getLast? = some 0 ∧ sep ∉ k) ∨ ((0 : UInt8) ∉ k ∧ isSGXCompositeKey k = false)

instance (k : Bytes) : Decidable (CanonicalKey k) := instDecidableOr

/-- The same byte, or a dot on one side and a NUL on the other. -/
def DotOrNul (c d : UInt8) : Prop := c = d ∨ c = sep ∧ d = 0 ∨ c = 0 ∧ d = sep

/-- No two of the keys differ only in that one has a dot where the other has a NUL. -/
def KeysApart (keys : Set Bytes) : Prop := ∀ k ∈ keys, ∀ k' ∈ keys, List.Forall₂ DotOrNul k k' → k = k'

theorem transformToSGX_eq_iff {k k' : Bytes} :
    transformToSGX k = transformToSGX k' ↔ List.Forall₂ DotOrNul k k' := by
  have hbyte (c d : UInt8) : (if c = 0 then sep else c) = (if d = 0 then sep else d) ↔ DotOrNul c d := by
    rw [DotOrNul]
    have hsep : sep ≠ 0 := by decide
    by_cases hc : c = 0 <;> by_cases hd : d = 0
    · simp [hc, hd]
    · simp [hc, hd, Ne.symm hd, eq_comm]
    · simp [hc, hd]
    · simp [hc, hd]
  rw [transformToSGX, transformToSGX, ← List.forall₂_eq_eq_eq, List.forall₂_map_left_iff, List.forall₂_map_right_iff]
  constructor
  · exact fun h => h.imp (fun c d hcd => (hbyte c d).mp hcd)
  · exact fun h => h.imp (fun c d hcd => (hbyte c d).mpr hcd)

/-- Without dots in it, a key is found back. -/
theorem map_transformToSGX {k : Bytes} (h : sep ∉ k) :
    (transformToSGX k).map (fun c => if c = sep then 0 else c) = k := by
  rw [transformToSGX, List.map_map]
  have hid : ∀ c ∈ k, ((fun c => if c = sep then 0 else c) ∘ fun c => if c = 0 then sep else c) c = c := by
    intro c hc
    have hne : c ≠ sep := fun he => h (he ▸ hc)
    by_cases hz : c = 0
    · simp [hz]
    · simp [hz, hne]
  rw [List.map_congr_left hid, List.map_id']

theorem isSGXCompositeKey_transformToSGX {k : Bytes} (hh : k.head? = some 0) (hl : k.getLast? = some 0) :
    isSGXCompositeKey (transformToSGX k) = true := by
  rw [isSGXCompositeKey, transformToSGX, List.head?_map, List.getLast?_map, hh, hl]
  rfl

theorem transformToSGX_inj_iff {keys : Set Bytes} :
    (∀ k ∈ keys, ∀ k' ∈ keys, transformToSGX k = transformToSGX k' → k = k') ↔ KeysApart keys := by
  simp only [transformToSGX_eq_iff]
  rfl

/-- Keys without dots are apart, and so are those that the peer makes for the enclave. -/
theorem keysApart_of_canonical {keys : Set Bytes} (h : (∀ k ∈ keys, sep ∉ k) ∨ ∀ k ∈ keys, CanonicalKey k) :
    KeysApart keys := by
  rw [← transformToSGX_inj_iff]
  intro k hk k' hk' he
  have hdotless : sep ∉ k → sep ∉ k' → k = k' := fun hd hd' => by
    rw [← map_transformToSGX hd, he, map_transformToSGX hd']
  rcases h with h | h
  · exact hdotless (h k hk) (h k' hk')
  · rcases h k hk with ⟨hh, hl, hd⟩ | ⟨hn, hs⟩ <;> rcases h k' hk' with ⟨hh', hl', hd'⟩ | ⟨hn', hs'⟩
    · exact hdotless hd hd'
    · -- only one of the two is between dots
      have hframed := isSGXCompositeKey_transformToSGX hh hl
      rw [he, transformToSGX_of_no_nul hn', hs'] at hframed
      cases hframed
    · have hframed := isSGXCompositeKey_transformToSGX hh' hl'
      rw [← he, transformToSGX_of_no_nul hn, hs] at hframed
      cases hframed
    · rw [← transformToSGX_of_no_nul hn, he, transformToSGX_of_no_nul hn']

/-- Back from the enclave's form, the parts of a composite key are those between its dots. -/
theorem transformToCompositeKey_fabricKey_iff {comp : List Bytes} (hne : comp ≠ [])
    (hvalid : ∀ w ∈ comp, fabricRule.validAttribute w = true) :
    transformToCompositeKey fabricRule (transformToSGX (fabricKey comp)) = some (fabricKey comp) ↔
      ∀ w ∈ comp, sep ∉ w := by
  have hnul : ∀ w ∈ comp, (0 : UInt8) ∉ w := fun w hw => fabricRule.no_nul w (hvalid w hw)
  rw [transformToSGX_fabricKey hnul]
  constructor
  · intro h
    -- the parts between the dots, which are the components only if these have no dot
    obtain ⟨comp', hdots, hsame⟩ : ∃ comp', (∀ w ∈ comp', sep ∉ w) ∧ sgxKey comp = sgxKey comp' := by
      apply isSGXCompositeKey_iff.mp
      by_contra hn
      rw [transformToCompositeKey, splitSGXCompositeKey, if_neg hn] at h
      cases h
    have hne' : comp' ≠ [] := by
      rintro rfl
      have hpanic : transformToCompositeKey fabricRule (sgxKey []) = none := rfl
      rw [hsame, hpanic] at h
      cases h
    rw [hsame, transformToCompositeKey_sgxKey hne' hdots, Option.some.injEq] at h
    split_ifs at h with hall
    · have hnul' : ∀ w ∈ comp', (0 : UInt8) ∉ w :=
        fun w hw => fabricRule.no_nul w (List.all_eq_true.mp hall w hw)
      rw [← delimited_inj hnul' hnul h]
      exact hdots
    · cases h
  · intro hdots
    rw [transformToCompositeKey_sgxKey hne hdots, if_pos (List.all_eq_true.mpr hvalid)]

/-- What is in the map of the plugin when no two writes have the same name. -/
theorem getElem?_writesetMap_iff {kv : Peer.KVRWSet} (hnodup : (writeKeys kv).Nodup) (k v : Bytes) :
    (∃ w ∈ kv.writes, transformToSGX w.key = k ∧ w.value = v) ↔ (writesetMap kv)[k]? = some v := by
  have hwrites : writesetMap kv =
      (kv.writes.map (fun w => (transformToSGX w.key, w.value))).foldl (fun m p => m.insert p.1 p.2) ∅ := by
    rw [writesetMap, List.foldl_map]
  rw [hwrites, getElem?_foldl_insert, ExtTreeMap.getElem?_empty, Option.or_none]
  constructor
  · rintro ⟨w, hw, rfl, rfl⟩
    apply lookup_eq_some_of_unique
    · exact List.mem_reverse.mpr (List.mem_map_of_mem hw)
    · intro v hv
      obtain ⟨w', hw', hp⟩ := List.mem_map.mp (List.mem_reverse.mp hv)
      obtain ⟨hname, rfl⟩ := Prod.mk.inj hp
      rw [List.inj_on_of_nodup_map hnodup hw' hw hname]
  · intro h
    obtain ⟨w, hw, hp⟩ := List.mem_map.mp (List.mem_reverse.mp (mem_of_lookup_eq_some h))
    exact ⟨w, hw, Prod.mk.inj hp⟩

section
variable {keys : Set Bytes} (hapart : KeysApart keys)
include hapart

/-- No two writes get the same name. -/
theorem nodup_writeKeys {kv : Peer.KVRWSet} (hkeys : ∀ w ∈ kv.writes, w.key ∈ keys)
    (hnodup : (kv.writes.map Peer.KVWrite.key).Nodup) : (writeKeys kv).Nodup := by
  have hnames : writeKeys kv = (kv.writes.map Peer.KVWrite.key).map transformToSGX := by
    rw [writeKeys, List.map_map]
    rfl
  rw [hnames]
  apply hnodup.map_on
  intro k hk k' hk' he
  obtain ⟨w, hw, rfl⟩ := List.mem_map.mp hk
  obtain ⟨w', hw', rfl⟩ := List.mem_map.mp hk'
  exact transformToSGX_inj_iff.mpr hapart _ (hkeys w hw) _ (hkeys w' hw') he

/-- The words that are signed determine the writes. -/
theorem mem_writes_of_writeset_eq {kv kv' : Peer.KVRWSet} (hkeys : ∀ w ∈ kv.writes, w.key ∈ keys)
    (hkeys' : ∀ w ∈ kv'.writes, w.key ∈ keys) (hnodup : (writeKeys kv).Nodup)
    (hnodup' : (writeKeys kv').Nodup) (h : writeset kv = writeset kv') {w : Peer.KVWrite}
    (hw : w ∈ kv.writes) : w ∈ kv'.writes := by
  rw [writeset_eq_pairWords hnodup (getElem?_writesetMap_iff hnodup),
    writeset_eq_pairWords hnodup' (getElem?_writesetMap_iff hnodup')] at h
  have hlist := pairWords_inj h
  have hfound := (getElem?_writesetMap_iff hnodup _ _).mp ⟨w, hw, rfl, rfl⟩
  rw [← lookup_toList, hlist, lookup_toList] at hfound
  obtain ⟨w', hw', hkey, hvalue⟩ := (getElem?_writesetMap_iff hnodup' _ _).mpr hfound
  have hsame : w'.key = w.key := transformToSGX_inj_iff.mpr hapart _ (hkeys' w' hw') _ (hkeys w hw) hkey
  obtain ⟨key, value⟩ := w'
  cases hsame
  cases hvalue
  exact hw'

end

/-- The writes under keys of a set are told apart: no two get the same name, none replaces another one
in the map of the plugin, and the words that are signed determine them. -/
def WritesTold (keys : Set Bytes) : Prop :=
  ∀ kv : Peer.KVRWSet, (∀ w ∈ kv.writes, w.key ∈ keys) → (kv.writes.map Peer.KVWrite.key).Nodup →
    (writeKeys kv).Nodup ∧ (∀ w ∈ kv.writes, (writesetMap kv)[transformToSGX w.key]? = some w.value) ∧
    ∀ kv' : Peer.KVRWSet, (∀ w ∈ kv'.writes, w.key ∈ keys) →
      (kv'.writes.map Peer.KVWrite.key).Nodup → writeset kv = writeset kv' → kv.writes.Perm kv'.writes

theorem writesTold_of_apart {keys : Set Bytes} (hapart : KeysApart keys) : WritesTold keys := by
  intro kv hkeys hkv
  have hnodup := nodup_writeKeys hapart hkeys hkv
  refine ⟨hnodup, fun w hw => (getElem?_writesetMap_iff hnodup _ _).mp ⟨w, hw, rfl, rfl⟩, ?_⟩
  intro kv' hkeys' hkv' h
  have hnodup' := nodup_writeKeys hapart hkeys' hkv'
  rw [List.perm_ext_iff_of_nodup hkv.of_map hkv'.of_map]
  intro w
  constructor
  · exact mem_writes_of_writeset_eq hapart hkeys hkeys' hnodup hnodup' h
  · exact mem_writes_of_writeset_eq hapart hkeys' hkeys hnodup' hnodup h.symm

/-- Two keys that are not apart merge in a set of two writes. -/
theorem apart_of_writesTold {keys : Set Bytes} (h : WritesTold keys) : KeysApart keys := by
  rw [← transformToSGX_inj_iff]
  intro k hk k' hk' he
  by_contra hne
  have hkeys : ∀ w ∈ [(⟨k, []⟩ : Peer.KVWrite), ⟨k', []⟩], w.key ∈ keys :=
    List.forall_mem_cons.mpr ⟨hk, List.forall_mem_singleton.mpr hk'⟩
  have hnodup := (h ⟨[], [], [⟨k, []⟩, ⟨k', []⟩]⟩ hkeys (by simpa using hne)).1
  simp [writeKeys, he] at hnodup

/-- Exactly among keys that do not differ just in dots and NUL bytes, a name in the enclave's form
stands for one key of Fabric, and exactly among these the writes are told apart. Keys without dots are
of this kind, and the keys that the peer makes for the enclave. A composite key comes back from
its name exactly when its components have no dot. -/
theorem names_told_apart (keys : Set Bytes) :
    ((∀ k ∈ keys, ∀ k' ∈ keys, transformToSGX k = transformToSGX k' → k = k') ↔ KeysApart keys) ∧
    (WritesTold keys ↔ KeysApart keys) ∧
    ((∀ k ∈ keys, sep ∉ k) ∨ (∀ k ∈ keys, CanonicalKey k) → KeysApart keys) ∧
    ∀ comp, comp ≠ [] → (∀ w ∈ comp, fabricRule.validAttribute w = true) →
      (transformToCompositeKey fabricRule (transformToSGX (fabricKey comp)) = some (fabricKey comp) ↔
        ∀ w ∈ comp, sep ∉ w) :=
  ⟨transformToSGX_inj_iff, ⟨apart_of_writesTold, writesTold_of_apart⟩, keysApart_of_canonical,
    fun _ => transformToCompositeKey_fabricKey_iff⟩

/-- Among the keys that the peer makes for the enclave, a simple key and the composite key of
the same text have two names. -/
theorem canonical_names_differ :
    transformToSGX (str "a.b") ≠ transformToSGX (fabricKey [str "a", str "b"]) ∧
      transformToSGX (fabricKey [str "a"]) ≠ transformToSGX (fabricKey [str "a", str "b"]) := by
  obtain ⟨hinj, -, hcanonical, -⟩ := names_told_apart {k | CanonicalKey k}
  have hapart := hinj.mpr (hcanonical (Or.inr (fun k hk => hk)))
  have hsimple : CanonicalKey (str "a.b") := by decide
  have hone : CanonicalKey (fabricKey [str "a"]) := by decide
  have htwo : CanonicalKey (fabricKey [str "a", str "b"]) := by decide
  exact ⟨fun he => absurd (hapart _ hsimple _ htwo he) (by decide),
    fun he => absurd (hapart _ hone _ htwo he) (by decide)⟩

/-- The writes of two values under two composite keys. -/
def twoComposites (first second : Bytes) : Peer.KVRWSet :=
  ⟨[], [], [⟨fabricKey [str "a.b"], first⟩, ⟨fabricKey [str "a", str "b"], second⟩]⟩

/-- A component with a dot has the name of two components: the first write is lost in the
map, whatever its value is, and the way back leads to the other key. -/
theorem dotted_component_merges :
    fabricKey [str "a.b"] ≠ fabricKey [str "a", str "b"] ∧
      transformToSGX (fabricKey [str "a.b"]) = transformToSGX (fabricKey [str "a", str "b"]) ∧
      transformToCompositeKey fabricRule (transformToSGX (fabricKey [str "a.b"])) =
        some (fabricKey [str "a", str "b"]) ∧
      writesetMap (twoComposites (str "1") (str "2")) = writesetMap (twoComposites (str "2") (str "2")) ∧
      writeset (twoComposites (str "1") (str "2")) = writeset (twoComposites (str "2") (str "2")) ∧
      transformToSGX (str "a.b") = transformToSGX (str "a" ++ [0] ++ str "b") := by
  have hmap : writesetMap (twoComposites (str "1") (str "2")) =
      writesetMap (twoComposites (str "2") (str "2")) := by
    have hmerged : ∀ first, writesetMap (twoComposites first (str "2")) =
        ((∅ : ExtTreeMap Bytes Bytes compare).insert (str ".a.b.") first).insert (str ".a.b.") (str "2") :=
      fun first => rfl
    rw [hmerged, hmerged]
    apply ExtTreeMap.ext_getElem?
    intro k
    simp only [ExtTreeMap.getElem?_insert]
    split_ifs <;> rfl
  have ha : fabricRule.validAttribute (str "a") = true := (validAttribute_utf8 ['a']).mpr (by decide)
  have hb : fabricRule.validAttribute (str "b") = true := (validAttribute_utf8 ['b']).mpr (by decide)
  have hback : transformToCompositeKey fabricRule (sgxKey [str "a", str "b"]) =
      some (fabricKey [str "a", str "b"]) := by
    rw [transformToCompositeKey_sgxKey (List.cons_ne_nil _ _) (by decide)]
    simp [ha, hb]
  refine ⟨by decide, by decide, hback, hmap, ?_, by decide⟩
  rw [writeset, writeset, hmap]
  rfl

end SecureChaincode
