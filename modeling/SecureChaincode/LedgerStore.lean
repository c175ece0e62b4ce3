import SecureChaincode.KeyNames
import SecureChaincode.OrderedStore

/-! The ledger enclave's key-value state: versions, their comparison, the per-block
update map and its commit. -/
namespace SecureChaincode

open Std

/-- `version_t`. The two counters are 64 bits wide; nothing here depends on the width. -/
@[ext] structure Version where
  blockNum : ℕ
  txNum : ℕ
deriving DecidableEq

/-- `v1 == v2` gives 0, `v1 < v2` gives -1 and `v1 > v2` gives 1. -/
def cmpVersion (v1 v2 : Version) : Int :=
  if v1.blockNum > v2.blockNum then 1
  else if v1.blockNum < v2.blockNum then -1
  else if v1.txNum > v2.txNum then 1
  else if v1.txNum < v2.txNum then -1
  else 0

/-- The version of a key that a read found absent: the message field keeps its zeros. -/
def Version.zero : Version := ⟨0, 0⟩

theorem Version.toLex_injective :
    Function.Injective (fun v : Version => toLex (v.blockNum, v.txNum)) := by
  intro v w h
  have hp : (v.blockNum, v.txNum) = (w.blockNum, w.txNum) := toLex.injective h
  exact Version.ext (congrArg Prod.fst hp) (congrArg Prod.snd hp)

instance : LinearOrder Version :=
  LinearOrder.lift' (fun v => toLex (v.blockNum, v.txNum)) Version.toLex_injective

theorem Version.lt_iff (v w : Version) :
    v < w ↔ v.blockNum < w.blockNum ∨ (v.blockNum = w.blockNum ∧ v.txNum < w.txNum) :=
  Prod.Lex.toLex_lt_toLex

theorem Version.lt_of_blockNum_lt {v w : Version} (h : v.blockNum < w.blockNum) : v < w :=
  (Version.lt_iff v w).mpr (Or.inl h)

theorem cmpVersion_eq_neg_one_iff (v w : Version) : cmpVersion v w = -1 ↔ v < w := by
  rw [Version.lt_iff, cmpVersion]
  split_ifs <;> simp <;> omega

abbrev KvsValue := Bytes × Version

abbrev Kvs := ExtTreeMap Bytes KvsValue compare

/-- The version under which a map holds a key. -/
def versionOf (s : Kvs) (k : Bytes) : Option Version := s[k]?.map Prod.snd

/-- Has the map an entry for the key that is newer than the version read? -/
def hasVersionConflict (key : Bytes) (state : Kvs) (v : Version) : Bool :=
  match state[key]? with
  | some e => cmpVersion v e.2 == -1
  | none => false

theorem hasVersionConflict_eq_true_iff (key : Bytes) (s : Kvs) (v : Version) :
    hasVersionConflict key s v = true ↔ ∃ w, versionOf s key = some w ∧ v < w := by
  rw [hasVersionConflict, versionOf]
  cases h : s[key]? with
  | none => simp
  | some e => simp [cmpVersion_eq_neg_one_iff]

/-- The root certificate stores of the orderer and of the application organisations:
NULL before `init_ledger` has made them, else the PEM certificates that were added. -/
structure RootCerts where
  orderer : Option (List Bytes)
  apps : Option (List Bytes)

/-- The static variables of `ledger.cpp`. -/
structure Ledger where
  state : Kvs
  sequenceNumber : UInt32
  rootCerts : RootCerts

/-- The variables of a freshly loaded enclave. -/
def Ledger.fresh : Ledger := ⟨∅, -1, ⟨none, none⟩⟩

def initLedger (L : Ledger) : Ledger := { L with rootCerts := ⟨some [], some []⟩ }

/-- `none` when the assertion fails, which aborts the enclave. -/
def commitStateUpdates (L : Ledger) (updates : Kvs) (blockSequenceNumber : UInt32) :
    Option Ledger :=
  if blockSequenceNumber = L.sequenceNumber + 1 then
    some { L with sequenceNumber := blockSequenceNumber, state := assignAll L.state updates }
  else none

theorem versionOf_assignAll (s u : Kvs) (k : Bytes) :
    versionOf (assignAll s u) k = (versionOf u k).or (versionOf s k) := by
  rw [versionOf, versionOf, versionOf, getElem?_assignAll, Option.map_or]

end SecureChaincode
