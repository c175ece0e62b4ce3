import SecureChaincode.EccVscc
import SecureChaincode.JsonTexts
import SecureChaincode.Shim
import SecureChaincode.StateReads

/-! The honest peer: the callbacks of `ecc/enclave/enclave_stub.go`, the way of a key to the
ledger enclave in `ecc/tlcc/stub.go`, and what Fabric answers and records. A panic and a copy
behind the end of a buffer do not return. -/
namespace SecureChaincode

open Std

section
variable {ω τ : Type} (H : IdealHash ω) (M : IdealMac ω τ)

/-- `TLCCStubImpl.VerifyState`, through to the ledger enclave. -/
def verifyState (state : Kvs) (key : Bytes) (isRangeQuery : Bool) : τ :=
  if isRangeQuery then ecallGetMultiStateMetadata H M state (str "ecc" ++ key)
  else ecallGetStateMetadata H M state (str "ecc" ++ str "." ++ key)

/-- An enclave that hashes in the ideal and shares its session key with the ledger enclave. -/
def idealEnclave {η τ' σ σ' : Type} [DecidableEq τ] (E : Enclave η τ' σ)
    (sign : List ω → Option σ') : Enclave (List ω) τ σ' where
  libc := E.libc
  gcm := E.gcm
  sha256 := fun b => H.sha256 (H.bytes b)
  zeroHash := H.zeros
  checkCmac := checkCmac H M
  stateEncryptionKey := E.stateEncryptionKey
  readRand := E.readRand
  length_readRand := E.length_readRand
  computeSharedDhkey := E.computeSharedDhkey
  deriveKey := E.deriveKey
  ecdsaSign := sign
  stackLeft := E.stackLeft
  stackLeft_le := E.stackLeft_le

end

/-- One item of a range query in the text for the enclave. -/
def itemText (item : Bytes × Bytes) : Bytes :=
  str "\x7b\"key\":\"" ++ item.1 ++ str "\",\"value\":\"" ++ item.2 ++ str "\"\x7d"

def valuesText (items : List (Bytes × Bytes)) : Bytes :=
  str "[" ++ commaSeparated (items.map itemText) ++ str "]"

section
variable {τ : Type} (F : KeyRule)

/-- The key for Fabric; `none` is a panic. -/
def goKey (key : Bytes) : Option Bytes :=
  if isSGXCompositeKey key then transformToCompositeKey F key else some key

/-- The keys that the partial key is a prefix of, with their values and in their order. -/
def getStateByPartialKey (worldState : Kvs) (start : Bytes) : List (Bytes × Bytes) :=
  (worldState.toList.filter (fun e => start.isPrefixOf e.1)).map (fun e => (e.1, e.2.1))

/-- What Fabric returns for the key of a range query; `none` is a panic. -/
def goRange (worldState : Kvs) (compKey : Bytes) : Option (List (Bytes × Bytes)) :=
  match splitSGXCompositeKey compKey with
  | some (objectType :: attributes) =>
    (createCompositeKey F objectType attributes).map (getStateByPartialKey worldState)
  | _ => none

/-- The callbacks over a world state, with tags from `verifyTag`. What the enclave has behind its
buffers may not be accessed. -/
def goHost (worldState : Kvs) (verifyTag : Bytes → Bool → τ) : Host τ where
  getState _ key maxValLen := do
    let keyStr ← goKey F key
    let data := (worldState[keyStr]?.map Prod.fst).getD []
    if maxValLen.toNat < data.length then none
    else return ⟨data, data.length.toUInt32, verifyTag keyStr false, []⟩
  -- Fabric refuses an empty key
  putState _ key _ := (goKey F key).any (fun keyStr => keyStr != [])
  getStateByPartialCompositeKey _ compKey := do
    let items ← goRange F worldState compKey
    let data := valuesText (items.map (fun item => (transformToSGX item.1, item.2)))
    if jsonBufferSize < data.length then none
    else return ⟨data, data.length.toUInt32, verifyTag compKey true, []⟩

/-- The answer to a read, once the key for Fabric is known. -/
theorem goHost_getState (worldState : Kvs) (verifyTag : Bytes → Bool → τ) (trace : List (Event τ))
    (maxValLen : UInt32) {key keyStr : Bytes} (h : goKey F key = some keyStr) :
    (goHost F worldState verifyTag).getState trace key maxValLen =
      let data := (worldState[keyStr]?.map Prod.fst).getD []
      if maxValLen.toNat < data.length then none
      else some ⟨data, data.length.toUInt32, verifyTag keyStr false, []⟩ := by
  simp only [goHost, h]
  rfl

theorem goHost_putState (worldState : Kvs) (verifyTag : Bytes → Bool → τ) (trace : List (Event τ))
    (key val : Bytes) :
    (goHost F worldState verifyTag).putState trace key val = true ↔
      ∃ keyStr, goKey F key = some keyStr ∧ keyStr ≠ [] := by
  simp only [goHost]
  cases goKey F key with
  | none => simp
  | some keyStr => simp

/-- The keys of the point reads of an invocation, each of them once. -/
def simulatedReads (trace : List (Event τ)) : ReadSet :=
  trace.foldl (fun reads e =>
    match e with
    | .getState key _ _ => (goKey F key).elim reads (fun keyStr => reads.insert keyStr)
    | _ => reads) ∅

/-- The last value that was put for each key. -/
def simulatedWrites (trace : List (Event τ)) : WriteSet :=
  trace.foldl (fun writes e =>
    match e with
    | .putState key val => (goKey F key).elim writes (fun keyStr => writes.insert keyStr val)
    | _ => writes) ∅

/-- The results of each range query. -/
def simulatedRanges (worldState : Kvs) (trace : List (Event τ)) : List (List Bytes) :=
  trace.filterMap (fun e =>
    match e with
    | .getStateByPartialCompositeKey compKey _ _ =>
      (goRange F worldState compKey).map (fun items => items.map Prod.fst)
    | _ => none)

/-- The read/write set that Fabric records for the ocalls of an invocation. -/
def simulate (worldState : Kvs) (trace : List (Event τ)) : Peer.KVRWSet where
  reads := (simulatedReads F trace).toList.map Peer.KVRead.mk
  rangeQueriesInfo := (simulatedRanges F worldState trace).map
    (fun keys => ⟨some (keys.map Peer.KVRead.mk)⟩)
  writes := (simulatedWrites F trace).toList.map (fun p => ⟨p.1, p.2⟩)

end

/-! The trip of a range result into the enclave. -/

theorem outBuffer_eq {n : ℕ} {b : Bytes} (h : b.length ≤ n) : ∃ rest, outBuffer n b = b ++ rest :=
  ⟨(List.replicate n 0).take (n-b.length), by rw [outBuffer, List.take_append, List.take_of_length_le h]⟩

/-- A value that fits is at the start of the memory. -/
theorem OcallReply.memory_eq {τ : Type} {reply : OcallReply τ} {n : ℕ} (h : reply.val.length ≤ n) :
    ∃ rest, reply.memory n = reply.val ++ rest := by
  obtain ⟨rest, hrest⟩ := outBuffer_eq h
  exact ⟨rest ++ reply.behind, by rw [OcallReply.memory, hrest, List.append_assoc]⟩

/-- With nothing behind the buffer, there are zeros behind the value. -/
theorem OcallReply.memory_eq_zeros {τ : Type} {reply : OcallReply τ} {n : ℕ} (h : reply.val.length ≤ n)
    (hbehind : reply.behind = []) : ∃ zeros, reply.memory n = reply.val ++ List.replicate zeros 0 := by
  refine ⟨min (n-reply.val.length) n, ?_⟩
  rw [OcallReply.memory, hbehind, List.append_nil, outBuffer, List.take_append, List.take_of_length_le h,
    List.take_replicate]

@[simp] theorem OcallReply.memory_nil {τ : Type} (val : Bytes) (valLen : UInt32) (cmac : τ) (n : ℕ) :
    (⟨val, valLen, cmac, []⟩ : OcallReply τ).memory n = outBuffer n val := List.append_nil _

/-- An item as a printed object of two members. -/
def itemMembers (item : Bytes × Bytes) : List Member :=
  [⟨str "key", quoted item.1, .string item.1⟩, ⟨str "value", quoted item.2, .string item.2⟩]

theorem itemText_eq (item : Bytes × Bytes) :
    itemText item = 0x7b :: (commaSeparated ((itemMembers item).map Member.print) ++ [0x7d]) := by
  simp [itemText, itemMembers, Member.print, commaSeparated, quoted, str]

theorem reads_itemText (libc : Libc) (levels : ℕ) {item : Bytes × Bytes} (hk : PlainText item.1)
    (hv : PlainText item.2) :
    Reads (parseValue libc (levels+2)) (itemText item) (.object ((itemMembers item).map Member.pair)) := by
  rw [itemText_eq]
  have hkey : PlainText (str "key") := by decide +kernel
  have hvalue : PlainText (str "value") := by decide +kernel
  apply reads_object
  · intro m hm
    rcases List.mem_pair.mp hm with rfl | rfl
    · exact ⟨hkey, (reads_quoted libc levels hk).member⟩
    · exact ⟨hvalue, (reads_quoted libc levels hv).member⟩
  · simp only [itemMembers, List.map_cons, List.map_nil]
    decide

/-- The value that parson makes of an item. -/
def itemJson (item : Bytes × Bytes) : Json := .object ((itemMembers item).map Member.pair)

theorem reads_valuesText (libc : Libc) {items : List (Bytes × Bytes)}
    (h : ∀ p ∈ items, PlainText p.1 ∧ PlainText p.2) :
    Reads (parseValue libc (maxNesting+1)) (valuesText items) (.array (items.map itemJson)) := by
  have hitems : ∀ p ∈ items.map (fun item => (itemText item, itemJson item)),
      Reads (parseValue libc maxNesting) p.1 p.2 := by
    intro p hp
    obtain ⟨item, hitem, rfl⟩ := List.mem_map.mp hp
    exact reads_itemText libc 2046 (h item hitem).1 (h item hitem).2
  have harray := reads_array libc maxNesting hitems
  rw [List.map_map, List.map_map] at harray
  exact harray

/-- The pairs arrive as they were sent, behind those that were already there. -/
theorem unmarshalValues_valuesText (libc : Libc) (values : WriteSet) {items : List (Bytes × Bytes)}
    (h : ∀ p ∈ items, PlainText p.1 ∧ PlainText p.2) (rest : Bytes) :
    unmarshalValues libc values (valuesText items ++ rest) = some (insertAll values items) := by
  have hbracket : (valuesText items).head? = some 0x5b := rfl
  have hhead : (valuesText items).head? ≠ some 0xef := by
    rw [hbracket]
    decide
  rw [unmarshalValues, jsonParseString_reads (reads_valuesText libc h) hhead]
  -- every item has both members, so the loop inserts them all
  have hloop : ∀ values : WriteSet, (items.map itemJson).foldlM (fun values pair => do
      let key ← jsonObjectGetString (str "key") (some pair)
      let value ← jsonObjectGetString (str "value") (some pair)
      return values.insertIfNew key value) values = some (insertAll values items) := by
    clear h hhead hbracket
    induction items with
    | nil => exact fun values => rfl
    | cons item items ih =>
      intro values
      rw [List.map_cons, List.foldlM_cons]
      exact ih (values.insertIfNew item.1 item.2)
  exact hloop values

/-- A quote inside a key ends it. The text that follows is no JSON, and no pair is found. -/
theorem unmarshalValues_quote (libc : Libc) (values : WriteSet) {q : Bytes} (hq : PlainText q) {c : UInt8}
    (hspace : isspace c = false) (hcomma : c ≠ 0x2c) (hbrace : c ≠ 0x7d) (rest : Bytes) :
    unmarshalValues libc values (str "[\x7b\"key\":" ++ quoted q ++ c :: rest) = some values := by
  let m : Member := ⟨str "key", quoted q, .string q⟩
  have hkey : PlainText (str "key") := by decide +kernel
  have htext : str "[\x7b\"key\":" ++ quoted q ++ c :: rest = 0x5b :: 0x7b :: (m.print ++ c :: rest) := by
    simp [m, Member.print, quoted, str]
  have hobject (parse : Bytes → Scan (Json × Bytes)) (hm : Reads parse m.text m.value) :
      parseObjectValue parse (m.print ++ c :: rest) = .error .null := by
    obtain ⟨n, hn⟩ : ∃ n, (m.print ++ c :: rest).length = n+1 := ⟨_, rfl⟩
    obtain ⟨s, hlook⟩ : ∃ s, look (m.print ++ c :: rest) = .ok (0x22, s) := ⟨_, rfl⟩
    have hround : parseMembers parse (n+1) [] (m.print ++ c :: rest) = .error .null := by
      rw [parseMembers_round hkey (hm.read _) List.not_mem_nil, skipWhitespaces_cons hspace]
      simp only [look, bind, Except.bind, if_neg hcomma, if_neg hbrace]
    rw [parseObjectValue, m.skip_print]
    simp only [hlook, bind, Except.bind, hn, hround]
    rfl
  have hitem : parseValue libc maxNesting (0x7b :: (m.print ++ c :: rest)) = .error .null :=
    hobject (parseValue libc 2047) (reads_quoted libc 2046 hq)
  have harray : parseArrayValue (parseValue libc maxNesting) (0x7b :: (m.print ++ c :: rest)) = .error .null := by
    obtain ⟨n, hn⟩ : ∃ n, (0x7b :: (m.print ++ c :: rest)).length = n+1 := ⟨_, rfl⟩
    have hskip : skipWhitespaces (0x7b :: (m.print ++ c :: rest)) = 0x7b :: (m.print ++ c :: rest) :=
      skipWhitespaces_cons (by decide) _
    have hbracket : (0x7b : UInt8) ≠ 0x5d := by decide
    rw [parseArrayValue, hskip]
    simp only [look, bind, Except.bind, if_neg hbracket, hn, parseItems, hitem]
  have hparse : jsonParseString libc (0x5b :: 0x7b :: (m.print ++ c :: rest)) = .error .null := by
    have hvalue : parseValue libc (maxNesting+1) (0x5b :: 0x7b :: (m.print ++ c :: rest)) = .error .null := harray
    have htoken : skipToken [0xef, 0xbb, 0xbf] (0x5b :: 0x7b :: (m.print ++ c :: rest)) = .error .null := rfl
    rw [jsonParseString, htoken]
    simp only [bind, Except.bind, hvalue]
  rw [htext, unmarshalValues, hparse]
  rfl

/-- The pairs of a reply that holds their text. -/
theorem receivedValues_valuesText {η τ σ : Type} (E : Enclave η τ σ) (values : WriteSet)
    {items : List (Bytes × Bytes)} {reply : OcallReply τ} (hval : reply.val = valuesText items)
    (h : ∀ p ∈ items, PlainText p.1 ∧ PlainText p.2) (hfit : (valuesText items).length ≤ jsonBufferSize) :
    receivedValues E values reply = some (insertAll values items) := by
  obtain ⟨rest, hrest⟩ := OcallReply.memory_eq (hval ▸ hfit)
  rw [receivedValues, hrest, hval]
  exact unmarshalValues_valuesText E.libc values h rest

end SecureChaincode
