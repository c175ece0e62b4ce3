import SecureChaincode.EncryptedArgs
import SecureChaincode.HonestReads
import SecureChaincode.SealedRecords
import SecureChaincode.ShimRuns

/-! Lengths on the way of a value through encryption and base64: what a buffer must hold so that
`get_state` returns what `put_state` has stored, and the length of the plaintext that is computed from
that of the ciphertext. -/
namespace SecureChaincode

open Std

section
variable {η τ σ : Type} {E E' : Enclave η τ σ} {F : KeyRule} {verifyTag verifyTag' : Bytes → Bool → τ}
  {worldState worldState' : Kvs} {s t : Session τ} {key plain : Bytes}

/-- What the invocation has put last under the key is in the world state. -/
def PutStored (F : KeyRule) (key : Bytes) (trace : List (Event τ)) (worldState : Kvs) : Prop :=
  ∀ keyStr ∈ goKey F (cstr key), worldState[keyStr]?.map Prod.fst = (simulatedWrites F trace)[keyStr]?

/-- What a put leaves under its key. -/
theorem stored_of_putState (hput : (putState key plain).run (shimStep E (goHost F worldState verifyTag)) s = (some (), t))
    (hstored : PutStored F key t.trace worldState') :
    ∃ keyStr iv, goKey F (cstr key) = some keyStr ∧ iv.length = 12 ∧
      worldState'[keyStr]?.map Prod.fst = some (sealWith E iv plain) := by
  have htrace := trace_putState E (goHost F worldState verifyTag) hput
  have hanswer : (goHost F worldState verifyTag).putState s.trace (cstr key)
      (base64Encode (encryptState E s.trace.length plain)) = true := by
    by_contra hrefused
    rw [putState, Program.run_request, shimStep] at hput
    simp only [if_neg hrefused] at hput
    cases hput
  obtain ⟨keyStr, hkey, -⟩ := (goHost_putState F worldState verifyTag _ _ _).mp hanswer
  refine ⟨keyStr, E.readRand s.trace.length, hkey, E.length_readRand _, ?_⟩
  rw [hstored keyStr hkey, htrace, simulatedWrites, List.foldl_append, List.foldl_cons, List.foldl_nil]
  simp only [hkey, Option.elim_some]
  exact ExtTreeMap.getElem?_insert_self

/-- The read of a sealed value from an honest peer. -/
theorem run_getState_sealed (hE : SameBuild E' E) (hgcm : E.gcm.RoundTrip) {keyStr iv : Bytes} (hiv : iv.length = 12)
    (hkey : goKey F (cstr key) = some keyStr) (hval : worldState'[keyStr]?.map Prod.fst = some (sealWith E iv plain))
    (maxValLen : UInt32) (s : Session τ) :
    ((getState key maxValLen).run (shimStep E' (goHost F worldState' verifyTag')) s).1 =
      if sealedLength plain.length < maxValLen.toNat then
        some (plain ++ List.replicate (sealedLength plain.length-plain.length) 0 ++
          (outBuffer maxValLen.toNat (sealWith E iv plain)).drop (sealedLength plain.length), plain.length)
      else none := by
  have hlength := @length_sealWith _ _ _ E iv hiv plain
  have hhost := goHost_getState F worldState' verifyTag' s.trace maxValLen hkey
  simp only [hval, Option.getD_some, hlength] at hhost
  rw [getState, Program.run_request, shimStep]
  by_cases hfit : maxValLen.toNat < sealedLength plain.length
  · rw [if_pos hfit] at hhost
    simp only [hhost]
    rw [if_neg (by omega)]
  · rw [if_neg hfit, ← hlength] at hhost
    simp only [hhost]
    exact hE.readValue_sealWith_eq hiv plain hgcm (by omega)

/-- A value that was put and committed is delivered by a later `get_state`, in a buffer of
`max_val_len` bytes that nothing is read or written behind, exactly if its base64 form is shorter than
the buffer. -/
theorem state_value_returned_iff (hE : SameBuild E' E) (hgcm : E.gcm.RoundTrip)
    (hput : (putState key plain).run (shimStep E (goHost F worldState verifyTag)) s = (some (), t))
    (hstored : PutStored F key t.trace worldState') (maxValLen : UInt32) (s' : Session τ) :
    (∃ val t', (getState key maxValLen).run (shimStep E' (goHost F worldState' verifyTag')) s' =
        (some (val, plain.length), t') ∧ val.length = maxValLen.toNat ∧ plain <+: val) ↔
      sealedLength plain.length < maxValLen.toNat := by
  obtain ⟨keyStr, iv, hkey, hiv, hval⟩ := stored_of_putState hput hstored
  have hread := @run_getState_sealed _ _ _ E E' F verifyTag' worldState' key plain hE hgcm keyStr iv hiv hkey hval
    maxValLen s'
  constructor
  · rintro ⟨val, t', hrun, -⟩
    by_contra hlong
    rw [hrun, if_neg hlong] at hread
    cases hread
  · intro hlt
    rw [if_pos hlt] at hread
    refine ⟨_, _, Prod.ext hread rfl, ?_, ?_⟩
    · have hle := le_sealedLength plain.length
      rw [List.length_append, List.length_append, List.length_replicate, List.length_drop, length_outBuffer]
      omega
    · rw [List.append_assoc]
      exact List.prefix_append _ _

end

/-- In a buffer of 1024 bytes a value may have 737 bytes. -/
theorem sealedLength_lt_maxValueSize_iff (n : ℕ) : sealedLength n < maxValueSize.toNat ↔ n ≤ 737 := by
  have hsize : maxValueSize.toNat = 1024 := rfl
  rw [hsize, sealedLength]
  omega

/-- The session and the world state after a put of the value under the key `k`. -/
def putSession (plain : Bytes) : Session Bool :=
  ⟨∅, (∅ : WriteSet).insertIfNew (str "k") (frankValue plain), [.putState (str "k") (frankValue plain)]⟩

def putWorld (plain : Bytes) : Kvs := (∅ : Kvs).insert (str "k") (frankValue plain, ⟨1, 0⟩)

/-- The peer over a world state, with tags that are right. -/
def frankHost (worldState : Kvs) : Host Bool := goHost nulFree worldState (fun _ _ => true)

theorem run_put_frank (plain : Bytes) :
    (putState (str "k") plain).run (shimStep frankEnclave (frankHost ∅)) freshSession = (some (), putSession plain) := by
  have hanswer : (frankHost ∅).putState [] (cstr (str "k")) (frankValue plain) = true :=
    (goHost_putState nulFree ∅ _ _ _ _).mpr ⟨str "k", by decide, by decide⟩
  rw [putState, Program.run_request, shimStep]
  exact (if_pos hanswer).trans rfl

theorem putStored_frank (plain : Bytes) : PutStored nulFree (str "k") (putSession plain).trace (putWorld plain) := by
  intro keyStr hkeyStr
  have hkey : goKey nulFree (str "k") = some (str "k") := by decide
  have hk : keyStr = str "k" := Option.some.inj (Eq.trans (Eq.symm hkeyStr) hkey)
  subst hk
  rw [simulatedWrites, putSession, List.foldl_cons, List.foldl_nil, putWorld, ExtTreeMap.getElem?_insert_self]
  simp only [hkey, Option.elim_some, ExtTreeMap.getElem?_insert_self, Option.map_some]

/-- A value of 737 bytes comes back. -/
theorem value_of_737_returned : ∃ val t,
    (getState (str "k") maxValueSize).run (shimStep frankEnclave (frankHost (putWorld (List.replicate 737 7))))
        freshSession = (some (val, (List.replicate 737 (7 : UInt8)).length), t) ∧
      val.length = maxValueSize.toNat ∧ List.replicate 737 7 <+: val :=
  (state_value_returned_iff ⟨rfl, rfl, rfl⟩ roundTrip_plainGcm (run_put_frank _) (putStored_frank _) maxValueSize
    freshSession).mpr ((sealedLength_lt_maxValueSize_iff _).mpr (by rw [List.length_replicate]))

/-- The value is put and committed, and a read of it does not return. -/
def ValueLost (plain : Bytes) : Prop :=
  (putState (str "k") plain).run (shimStep frankEnclave (frankHost ∅)) freshSession = (some (), putSession plain) ∧
    PutStored nulFree (str "k") (putSession plain).trace (putWorld plain) ∧
    ((getState (str "k") maxValueSize).run (shimStep frankEnclave (frankHost (putWorld plain))) freshSession).1 = none

theorem valueLost_of_length {plain : Bytes} (h : 737 < plain.length) : ValueLost plain := by
  refine ⟨run_put_frank plain, putStored_frank plain, ?_⟩
  obtain ⟨keyStr, iv, hkey, hiv, hval⟩ := stored_of_putState (run_put_frank plain) (putStored_frank plain)
  have hread := @run_getState_sealed _ _ _ frankEnclave frankEnclave nulFree (fun _ _ => true) _ (str "k") _ ⟨rfl, rfl, rfl⟩
    roundTrip_plainGcm keyStr iv hiv hkey hval maxValueSize freshSession
  have hlong : ¬sealedLength plain.length < maxValueSize.toNat := by
    rw [sealedLength_lt_maxValueSize_iff]
    omega
  rw [if_neg hlong] at hread
  exact hread

/-- Of a value of 738 bytes the text fills the buffer and has no end, and that of 741 bytes is longer
than the buffer. -/
theorem long_values_lost : ValueLost (List.replicate 738 7) ∧ ValueLost (List.replicate 741 7) := by
  refine ⟨valueLost_of_length ?_, valueLost_of_length ?_⟩
  · rw [List.length_replicate]
    decide
  · rw [List.length_replicate]
    decide

/-- `plain_len` in the two reads of the shim. The size of a string has 64 bits, and the difference is
cut to 32. -/
def plainLen (size : ℕ) : UInt32 := (UInt64.ofNat size-12-16).toUInt32

/-- `needed_size` in `decrypt_state`, which is given the size in 32 bits. -/
def stateNeededSize (cipherLen : UInt32) : UInt32 := cipherLen-12-16

theorem toNat_plainLen (size : ℕ) : (plainLen size).toNat = (size+(2^32-28))%2^32 := by
  have h12 : (12 : UInt64).toNat = 12 := rfl
  have h16 : (16 : UInt64).toNat = 16 := rfl
  rw [plainLen, UInt64.toNat_toUInt32, UInt64.toNat_sub, UInt64.toNat_sub, UInt64.toNat_ofNat', h12, h16]
  omega

/-- What is asserted in `decrypt_state` holds of any size. -/
theorem stateNeededSize_eq (size : ℕ) : stateNeededSize (UInt32.ofNat size) = plainLen size := by
  have h12 : (12 : UInt32).toNat = 12 := rfl
  have h16 : (16 : UInt32).toNat = 16 := rfl
  apply UInt32.toNat.inj
  rw [toNat_plainLen, stateNeededSize, UInt32.toNat_sub, UInt32.toNat_sub, UInt32.toNat_ofNat', h12, h16]
  omega

theorem argsNeededSize_eq (size : ℕ) : argsNeededSize size = plainLen size := by
  rw [← stateNeededSize_eq]
  rfl

/-- Something of the untrusted side that is decrypted: the reply of a read, that of a range query, or
the arguments of an encrypted invocation. -/
inductive SealedInput (τ : Type)
  | value (maxValLen : UInt32) (reply : OcallReply τ)
  | values (start : WriteSet) (reply : OcallReply τ)
  | args (text pk : Bytes)

namespace SealedInput
variable {η τ σ : Type} (E : Enclave η τ σ)

/-- What comes out of `base64_decode` before a length is computed. A read gets there unless there is
nothing to read or it has run out of the memory before. -/
def ciphers : SealedInput τ → List Bytes
  | .value maxValLen reply =>
    let val := reply.memory maxValLen.toNat
    if reply.valLen.toNat ≤ val.length ∧ reply.valLen.toNat ≠ 0 ∧ 0 ∈ val then [base64Decode (cstr val)] else []
  | .values start reply => ((receivedValues E start reply).elim [] (·.toList)).map fun p => base64Decode (cstr p.2)
  | .args text pk =>
    match invokeEncKey E pk with
    | some (some _) => [base64Decode text]
    | _ => []

/-- The length that decryption goes by. -/
def decryptLen : SealedInput τ → ℕ → UInt32
  | .value _ _, size => plainLen size
  | .values _ _, size => plainLen size
  | .args _ _, size => argsNeededSize size

/-- Bytes behind the plaintext, of which only `invoke_enc` has one. -/
def terminators : SealedInput τ → UInt32
  | .value _ _ => 0
  | .values _ _ => 0
  | .args _ _ => 1

/-- The size of the array that holds the plaintext. -/
def arraySize (x : SealedInput τ) (size : ℕ) : UInt32 := x.decryptLen size+x.terminators

/-- IV, tag and plaintext make up the ciphertext, and the array holds the plaintext. -/
def LengthsExact (x : SealedInput τ) (size : ℕ) : Prop :=
  (x.decryptLen size).toNat+28 = size ∧ (x.arraySize size).toNat = (x.decryptLen size).toNat+x.terminators.toNat

/-- The function that decrypts comes to an end, be it with an error code. -/
def Returns : SealedInput τ → Prop
  | .value maxValLen reply => readValue E maxValLen reply ≠ none
  | .values start reply => readValues E start reply ≠ none
  | .args text pk => ∃ invoke maxResponseLen, invokeEnc E invoke text pk maxResponseLen ≠ .fault

variable (x : SealedInput τ)

theorem decryptLen_eq (size : ℕ) : x.decryptLen size = plainLen size := by
  cases x with
  | value maxValLen reply => rfl
  | values start reply => rfl
  | args text pk => exact argsNeededSize_eq size

theorem terminators_le : x.terminators.toNat ≤ 1 := by
  cases x with
  | value maxValLen reply => exact Nat.zero_le 1
  | values start reply => exact Nat.zero_le 1
  | args text pk => exact Nat.le_refl 1

theorem lengthsExact_iff (size : ℕ) : x.LengthsExact size ↔ 28 ≤ size ∧ size+x.terminators.toNat < 2^32+28 := by
  have hle := x.terminators_le
  rw [LengthsExact, arraySize, UInt32.toNat_add, decryptLen_eq, toNat_plainLen]
  omega

/-- No length is looked at before it is used. -/
theorem not_returns_of_short {c : Bytes} (hc : c ∈ x.ciphers E) (hshort : c.length < 28) : ¬x.Returns E := by
  cases x with
  | value maxValLen reply =>
    simp only [ciphers] at hc
    split_ifs at hc with hreached
    · obtain ⟨hle, hpos, hzero⟩ := hreached
      rw [List.mem_singleton.mp hc] at hshort
      have htoo : tooShort (reply.memory maxValLen.toNat) = true := decide_eq_true hshort
      rw [Returns, not_not, readValue]
      simp only [if_neg (Nat.not_lt.mpr hle), if_neg hpos, if_neg (not_not_intro hzero), if_pos htoo]
    · cases hc
  | values start reply =>
    rw [Returns, not_not, readValues]
    cases hreceived : receivedValues E start reply with
    | none => rfl
    | some received =>
      rw [ciphers, hreceived, Option.elim_some] at hc
      obtain ⟨p, hp, rfl⟩ := List.mem_map.mp hc
      have hany : received.toList.any (fun p => tooShort p.2) = true :=
        List.any_eq_true.mpr ⟨p, hp, decide_eq_true hshort⟩
      exact if_pos hany
  | args text pk =>
    rintro ⟨invoke, maxResponseLen, hreturns⟩
    rw [invokeEnc_eq_key] at hreturns
    rw [ciphers] at hc
    cases hkey : invokeEncKey E pk with
    | none =>
      rw [hkey] at hc
      cases hc
    | some answer =>
      rw [hkey] at hc hreturns
      cases answer with
      | none => cases hc
      | some key =>
        rw [List.mem_singleton.mp hc] at hshort
        have hstack : E.stackLeft ≤ 0x80000 := E.stackLeft_le
        have hoverflow : plainOverflows E (argsNeededSize (base64Decode text).length) = true := by
          rw [plainOverflows_iff, toNat_argsNeededSize]
          omega
        simp only [if_pos hoverflow] at hreturns
        exact hreturns rfl

end SealedInput

/-- The lengths that are computed for what the untrusted side supplies are right exactly if each
decoded text holds an IV and a tag and its length fits into 32 bits. A shorter text is not refused: the
function that gets it does not return. -/
theorem sealed_lengths_exact_iff {η τ σ : Type} (E : Enclave η τ σ) (x : SealedInput τ) :
    ((∀ c ∈ x.ciphers E, x.LengthsExact c.length) ↔
      ∀ c ∈ x.ciphers E, 28 ≤ c.length ∧ c.length+x.terminators.toNat < 2^32+28) ∧
    ((∃ c ∈ x.ciphers E, c.length < 28) → ¬x.Returns E) := by
  constructor
  · exact forall₂_congr fun c _ => x.lengthsExact_iff c.length
  · rintro ⟨c, hc, hshort⟩
    exact x.not_returns_of_short E hc hshort

/-- A value with one byte, a range with an empty value and empty arguments. -/
def shortInputs : List (SealedInput Bool) :=
  [.value maxValueSize ⟨str "AA==", 4, true, []⟩, .values ∅ ⟨valuesText [(str "k", [])], 26, true, []⟩,
    .args [] (base64Encode (List.replicate 64 1))]

theorem ciphers_shortInputs : shortInputs.map (SealedInput.ciphers sharedEnclave) = [[[0]], [[]], [[]]] := by
  have hreceived : receivedValues sharedEnclave ∅ ⟨valuesText [(str "k", [])], 26, true, []⟩ =
      some (insertAll ∅ [(str "k", [])]) :=
    receivedValues_valuesText sharedEnclave ∅ rfl (by decide +kernel) (by decide +kernel)
  have hlist : (insertAll (∅ : WriteSet) [(str "k", [])]).toList = [(str "k", [])] :=
    toList_insertAll_of_sorted (by decide)
  have hvalue : SealedInput.ciphers sharedEnclave (.value maxValueSize ⟨str "AA==", 4, true, []⟩) = [[0]] := by
    decide +kernel
  rw [shortInputs, List.map_cons, List.map_cons, List.map_cons, List.map_nil, hvalue]
  simp only [SealedInput.ciphers, hreceived, invokeEncKey_sharedEnclave, Option.elim_some, hlist, List.map_cons, List.map_nil]
  rfl

/-- Their lengths wrap around, and none is refused. -/
theorem short_inputs_wrap : shortInputs.map (SealedInput.ciphers sharedEnclave) = [[[0]], [[]], [[]]] ∧
    plainLen 1 = 4294967269 ∧ plainLen 0 = 4294967268 ∧ argsNeededSize 0 = 4294967268 ∧
    ∀ x ∈ shortInputs, ¬x.Returns sharedEnclave := by
  refine ⟨ciphers_shortInputs, by decide, by decide, by decide, fun x hx => ?_⟩
  have hciphers : x.ciphers sharedEnclave ∈ [[[0]], [[]], [[]]] :=
    ciphers_shortInputs ▸ List.mem_map_of_mem hx
  have hshort : ∃ c ∈ x.ciphers sharedEnclave, c.length < 28 := by
    generalize x.ciphers sharedEnclave = cs at hciphers
    revert cs
    decide
  obtain ⟨c, hc, hlt⟩ := hshort
  exact x.not_returns_of_short sharedEnclave hc hlt

end SecureChaincode
