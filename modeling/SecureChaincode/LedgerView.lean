import SecureChaincode.AuctionRuns
import SecureChaincode.Validation

/-! One read/write set in the messages of the peer and of the ledger enclave, and the reads
and writes that the two find in it. -/
namespace SecureChaincode

open Std

/-- Go leaves an empty field out of the wire form, and the enclave then has a NULL pointer. -/
def pbField (b : Bytes) : Option Bytes := if b = [] then none else some b

theorem pbField_of_ne_nil {b : Bytes} (h : b ≠ []) : pbField b = some b := if_neg h

section
variable (version : Bytes → Version)

/-- A read, with the version that Fabric has recorded for its key. -/
def pbRead (r : Peer.KVRead) : KVRead := ⟨pbField r.key, version r.key⟩

def pbRange (q : Peer.RangeQueryInfo) : RangeQueryInfo :=
  ⟨match q.rawReads with
    | some reads => .rawReads (reads.map (pbRead version))
    | none => .unset⟩

def pbWrite (w : Peer.KVWrite) : KVWrite := ⟨pbField w.key, pbField w.value⟩

/-- A namespace of the read/write set as the ledger enclave decodes it. -/
def pbNs (n : Peer.NsRwSet) : NsReadWriteSet :=
  ⟨pbField n.nameSpace, some (encode
    { reads := n.kvRwSet.reads.map (pbRead version)
      rangeQueriesInfo := n.kvRwSet.rangeQueriesInfo.map (pbRange version)
      writes := n.kvRwSet.writes.map pbWrite })⟩

def pbRWSet (txRWSet : List Peer.NsRwSet) : TxReadWriteSet := ⟨txRWSet.map (pbNs version)⟩

end

/-- A key of Fabric that the ledger enclave names as the validation plugin does, up to the name
of the chaincode. -/
def NamedAlike (k : Bytes) : Prop :=
  (k ≠ [] ∧ (0 : UInt8) ∉ k) ∨ ∃ comp, (∀ w ∈ comp, PlainWord w) ∧ k = fabricKey comp

/-- A read/write set of `ecc` in which the two sides find the same: point reads of simple keys,
raw reads of composite keys, and at most one write. The ledger enclave takes the value of
the first write for all of them. -/
structure EccShaped (kv : Peer.KVRWSet) : Prop where
  point : ∀ r ∈ kv.reads, r.key ≠ [] ∧ (0 : UInt8) ∉ r.key
  range : ∀ q ∈ kv.rangeQueriesInfo, ∃ reads, q.rawReads = some reads ∧
    ∀ r ∈ reads, ∃ comp, (∀ w ∈ comp, PlainWord w) ∧ r.key = fabricKey comp
  write : ∀ w ∈ kv.writes, NamedAlike w.key ∧ w.value ≠ []
  single : kv.writes.length ≤ 1

section
variable (version : Bytes → Version)

theorem fabricKey_ne_nil (comp : List Bytes) : fabricKey comp ≠ [] := List.cons_ne_nil _ _

theorem rangeKey_pbRead {r : Peer.KVRead} {comp : List Bytes} (hcomp : ∀ w ∈ comp, PlainWord w)
    (hkey : r.key = fabricKey comp) :
    rangeKey (str "ecc") (pbRead version r) = .ok [(str "ecc" ++ transformToSGX r.key, version r.key)] := by
  have hname : compositeName (str "ecc") r.key = some (str "ecc" ++ transformToSGX r.key) := by
    rw [hkey, transformToSGX_of_plain hcomp]
    exact compositeName_fabricKey (str "ecc") (fun w hw => ⟨(hcomp w hw).ne_nil, (hcomp w hw).no_nul⟩)
  have hne : r.key ≠ [] := by
    rw [hkey]
    exact fabricKey_ne_nil comp
  rw [rangeKey, pbRead, pbField_of_ne_nil hne]
  simp only [deref, bind, Except.bind, hname]
  rfl

theorem pointKey_pbRead {r : Peer.KVRead} (hne : r.key ≠ []) (hnul : (0 : UInt8) ∉ r.key) :
    pointKey (str "ecc") (pbRead version r) = .ok [(str "ecc." ++ r.key, version r.key)] := by
  rw [pointKey, pbRead, pbField_of_ne_nil hne]
  simp only [deref, bind, Except.bind, simpleName, cstr_eq_self hnul]
  rfl

theorem queryKeys_pbRange {q : Peer.RangeQueryInfo} {reads : List Peer.KVRead} (hq : q.rawReads = some reads)
    (hreads : ∀ r ∈ reads, ∃ comp, (∀ w ∈ comp, PlainWord w) ∧ r.key = fabricKey comp) :
    queryKeys (str "ecc") (pbRange version q) =
      .ok (reads.map (fun r => (str "ecc" ++ transformToSGX r.key, version r.key))) := by
  have hmap : (reads.map (pbRead version)).mapM (rangeKey (str "ecc")) =
      .ok (reads.map (fun r => [(str "ecc" ++ transformToSGX r.key, version r.key)])) := by
    apply mapM_map_eq_ok
    intro r hr
    obtain ⟨comp, hcomp, hkey⟩ := hreads r hr
    exact rangeKey_pbRead version hcomp hkey
  rw [queryKeys, pbRange, hq]
  simp only [rawReads, bind, Except.bind, hmap, pure, Except.pure]
  rw [← List.flatMap_def, ← List.map_eq_flatMap]

variable {kv : Peer.KVRWSet}

/-- The raw reads of the range queries. -/
def rangeReads (kv : Peer.KVRWSet) : List Peer.KVRead :=
  kv.rangeQueriesInfo.flatMap (fun q => q.rawReads.getD [])

/-- The reads that the plugin finds: those of the ranges behind the others. -/
theorem EccShaped.readKeys (hkv : EccShaped kv) :
    readKeys kv = .ok ((kv.reads ++ rangeReads kv).map (fun r => transformToSGX r.key)) := by
  have hranges : kv.rangeQueriesInfo.mapM (fun rqi => orPanic rqi.rawReads) =
      .ok (kv.rangeQueriesInfo.map (fun q => q.rawReads.getD [])) := by
    apply mapM_eq_ok
    intro q hq
    obtain ⟨reads, hreads, -⟩ := hkv.range q hq
    rw [hreads]
    rfl
  rw [SecureChaincode.readKeys, hranges]
  rfl

/-- The reads that the ledger enclave finds: those of the ranges before the others. -/
theorem EccShaped.nsEccReads (hkv : EccShaped kv) :
    nsEccReads (pbNs version ⟨str "ecc", kv⟩) =
      .ok ((rangeReads kv ++ kv.reads).map (fun r => transformToSGX r.key)) := by
  have hranges : (kv.rangeQueriesInfo.map (pbRange version)).mapM (queryKeys (str "ecc")) =
      .ok (kv.rangeQueriesInfo.map (fun q => (q.rawReads.getD []).map
        (fun r => (str "ecc" ++ transformToSGX r.key, version r.key)))) := by
    apply mapM_map_eq_ok
    intro q hq
    obtain ⟨reads, hreads, hkeys⟩ := hkv.range q hq
    rw [queryKeys_pbRange version hreads hkeys, hreads]
    rfl
  have hpoints : (kv.reads.map (pbRead version)).mapM (pointKey (str "ecc")) =
      .ok (kv.reads.map (fun r => [(str "ecc." ++ r.key, version r.key)])) :=
    mapM_map_eq_ok (fun r hr => pointKey_pbRead version (hkv.point r hr).1 (hkv.point r hr).2)
  have hns : pbField (str "ecc") = some (str "ecc") := rfl
  have hecc : cstr (str "ecc") = str "ecc" := by decide
  rw [SecureChaincode.nsEccReads, pbNs, hns]
  simp only [deref, decodePb, encode, bind, Except.bind, hecc, hranges, hpoints, pure, Except.pure, if_true]
  -- the name of the chaincode is cut off again
  have hcut : ∀ r : Peer.KVRead, (str "ecc" ++ transformToSGX r.key).drop 3 = transformToSGX r.key := fun r => rfl
  have hpoint : ∀ r ∈ kv.reads, (str "ecc." ++ r.key).drop 4 = transformToSGX r.key := by
    intro r hr
    rw [transformToSGX_of_no_nul (hkv.point r hr).2]
    rfl
  have hfirst : (kv.rangeQueriesInfo.map (fun q => (q.rawReads.getD []).map
      (fun r => (str "ecc" ++ transformToSGX r.key, version r.key)))).flatten.map (fun r => r.1.drop 3) =
        (rangeReads kv).map (fun r => transformToSGX r.key) := by
    rw [← List.flatMap_def, List.map_flatMap, rangeReads, List.map_flatMap]
    apply List.flatMap_congr
    intro q _
    rw [List.map_map]
    exact List.map_congr_left (fun r _ => hcut r)
  have hsecond : (kv.reads.map (fun r => [(str "ecc." ++ r.key, version r.key)])).flatten.map
      (fun r => r.1.drop 4) = kv.reads.map (fun r => transformToSGX r.key) := by
    rw [← List.flatMap_def, ← List.map_eq_flatMap, List.map_map]
    exact List.map_congr_left hpoint
  rw [hfirst, hsecond, List.map_append]

theorem eccPair_pbWrite {w : Peer.KVWrite} (hkey : NamedAlike w.key) (hval : w.value ≠ []) :
    eccPair [pbWrite w] (pbWrite w) = some (transformToSGX w.key, w.value) := by
  obtain ⟨key, value⟩ := w
  rcases hkey with ⟨hne, hnul⟩ | ⟨comp, hcomp, rfl⟩
  · have hhead : (key ++ [0]).head? ≠ some 0 := by
      obtain ⟨c, k, rfl⟩ := List.exists_cons_of_ne_nil hne
      intro he
      exact hnul (Option.some.inj he ▸ List.mem_cons_self)
    simp only [eccPair, pbWrite, pbField_of_ne_nil hne, pbField_of_ne_nil hval, eccName_simple (str "ecc") hnul hne,
      if_neg hhead, cstr_eq_self hnul, transformToSGX_of_no_nul hnul, Option.bind_eq_bind, Option.bind_some,
      List.head?_cons, Option.pure_def]
  · have hhead : (fabricKey comp ++ [0]).head? = some 0 := rfl
    simp only [eccPair, pbWrite, pbField_of_ne_nil (fabricKey_ne_nil comp), pbField_of_ne_nil hval,
      eccName_of_plain hcomp, if_pos hhead, transformToSGX_of_plain hcomp, Option.bind_eq_bind, Option.bind_some,
      List.head?_cons, Option.pure_def]
    rfl

/-- The pairs that the ledger enclave finds. -/
theorem EccShaped.nsEccWritePairs (hkv : EccShaped kv) :
    nsEccWritePairs (pbNs version ⟨str "ecc", kv⟩) = kv.writes.map (fun w => (transformToSGX w.key, w.value)) := by
  have hns : decodedNs (pbNs version ⟨str "ecc", kv⟩) = some (str "ecc", _) := rfl
  simp only [SecureChaincode.nsEccWritePairs, hns, Option.elim_some, if_true]
  cases hw : kv.writes with
  | nil => rfl
  | cons w ws =>
    have hone : ws = [] := by
      have hlen := hkv.single
      rw [hw, List.length_cons] at hlen
      exact List.eq_nil_of_length_eq_zero (by omega)
    obtain ⟨hkey, hval⟩ := hkv.write w (by rw [hw]; exact List.mem_cons_self)
    rw [hone, List.map_singleton, List.map_singleton, List.filterMap_cons, eccPair_pbWrite hkey hval,
      List.filterMap_nil]

end

end SecureChaincode
