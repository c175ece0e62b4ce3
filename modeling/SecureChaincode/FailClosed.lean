import SecureChaincode.Auction
import SecureChaincode.ShimRuns

/-! What a rejected reply does to an invocation. -/
namespace SecureChaincode

open Std

section
variable {η τ σ : Type} (E : Enclave η τ σ)

/-- `check_cmac` or `decrypt_state` says no to the answer of an ocall. -/
def Event.Rejected : Event τ → Prop
  | .getState key maxValLen reply =>
    valueVerdict E key maxValLen reply = false ∨
      0 < reply.valLen.toNat ∧
        (decryptState E (base64Decode (cstr (reply.memory maxValLen.toNat)))).1 = false
  | .putState _ _ => False
  | .getStateByPartialCompositeKey compKey values reply =>
    rangeVerdict E compKey values reply = some false ∨
      ∃ received, receivedValues E values reply = some received ∧
        ∃ p ∈ received.toList, (decryptState E (base64Decode (cstr p.2))).1 = false

/-- If something is rejected, the chaincode does not get the data and nothing is signed. -/
def FailsClosed (invoke : ChaincodeEntry) (host : Host τ) (args pk : Bytes) (responseLenIn : ℕ) : Prop :=
  ∀ e ∈ (invokeRun E invoke host args pk responseLenIn).2.trace, e.Rejected E →
    ¬e.Returns E ∧ ∀ result, ecallInvoke E invoke host args pk responseLenIn ≠ some (some result)

/-- The answers at which the enclave crashes: a length or a text without an end that leads out of
the memory (and not just out of the buffer), a ciphertext shorter than IV and tag or longer than the
length given, and in a range query also a pair without its members. -/
def Event.Malformed : Event τ → Prop
  | .getState _ maxValLen reply =>
    let val := reply.memory maxValLen.toNat
    let valLen := reply.valLen.toNat
    let cipherLen := (base64Decode (cstr val)).length
    val.length < valLen ∨ 0 < valLen ∧ (0 ∉ val ∨ cipherLen < 28 ∨ valLen+28 < cipherLen)
  | .putState _ _ => False
  | .getStateByPartialCompositeKey _ values reply =>
    ∀ received, receivedValues E values reply = some received →
      ∃ p ∈ received.toList, (base64Decode (cstr p.2)).length < 28

theorem length_decryptState (cipher : Bytes) : (decryptState E cipher).2.length = cipher.length-28 := by
  rw [decryptState, E.gcm.length_plain, List.length_drop]

/-- A range query gets through when every value holds an IV and a tag. -/
theorem readValues_of_received {values received : WriteSet} {reply : OcallReply τ}
    (hreceived : receivedValues E values reply = some received)
    (hlong : received.toList.any (fun p => tooShort p.2) = false) :
    ∃ plain, readValues E values reply = some (received, plain) := by
  rw [readValues, hreceived]
  simp only [Option.bind_eq_bind, Option.bind_some, hlong, Bool.false_eq_true, if_false]
  exact ⟨_, rfl⟩

/-- The verdict on a range query that gets through. -/
theorem rangeVerdict_of_readValues {compKey : Bytes} {values received plain : WriteSet} {reply : OcallReply τ}
    (h : readValues E values reply = some (received, plain)) :
    rangeVerdict E compKey values reply =
      some (E.checkCmac compKey (E.sha256 (pairBytes received)) reply.cmac) := by
  rw [readValues] at h
  rw [rangeVerdict]
  cases hreceived : receivedValues E values reply with
  | none =>
    rw [hreceived] at h
    cases h
  | some pairs =>
    rw [hreceived] at h
    simp only [Option.bind_eq_bind, Option.bind_some] at h ⊢
    split_ifs at h ⊢ with hshort
    cases h
    rfl

/-- Whether a read gets through does not depend on any verdict. -/
theorem readValue_eq_none_iff (key : Bytes) (maxValLen : UInt32) (reply : OcallReply τ) :
    readValue E maxValLen reply = none ↔ (Event.getState key maxValLen reply).Malformed E := by
  simp only [readValue, Event.Malformed, tooShort, length_decryptState, decide_eq_true_eq]
  split_ifs with hbuf hzero hnul hshort hwrap
  · exact iff_of_true rfl (Or.inl hbuf)
  · refine iff_of_false (by simp) ?_
    omega
  · exact iff_of_true rfl (Or.inr ⟨Nat.pos_of_ne_zero hzero, Or.inr (Or.inl hshort)⟩)
  · refine iff_of_true rfl (Or.inr ⟨Nat.pos_of_ne_zero hzero, Or.inr (Or.inr ?_)⟩)
    omega
  · refine iff_of_false (by simp) ?_
    rintro (h | ⟨-, h | h | h⟩)
    · exact hbuf h
    · exact h hnul
    · exact hshort h
    · omega
  · exact iff_of_true rfl (Or.inr ⟨Nat.pos_of_ne_zero hzero, Or.inl hnul⟩)

theorem readValues_eq_none_iff (compKey : Bytes) (values : WriteSet) (reply : OcallReply τ) :
    readValues E values reply = none ↔
      (Event.getStateByPartialCompositeKey compKey values reply).Malformed E := by
  rw [readValues, Event.Malformed]
  cases receivedValues E values reply with
  | none => exact iff_of_true rfl (fun received h => absurd h (by simp))
  | some received =>
    have hany : received.toList.any (fun p => tooShort p.2) = true ↔
        ∃ p ∈ received.toList, (base64Decode (cstr p.2)).length < 28 := by
      simp only [List.any_eq_true, tooShort, decide_eq_true_eq]
    simp only [Option.bind_eq_bind, Option.bind_some, Option.some.injEq, forall_eq', ← hany]
    split_ifs with h
    · exact iff_of_true rfl h
    · exact iff_of_false (by simp) h

/-- An answer gets through exactly when it is not malformed. -/
theorem Event.returns_iff (e : Event τ) : e.Returns E ↔ ¬e.Malformed E := by
  cases e with
  | getState key maxValLen reply => exact not_congr (readValue_eq_none_iff E key maxValLen reply)
  | putState key val => exact iff_of_true trivial not_false
  | getStateByPartialCompositeKey compKey values reply =>
    exact not_congr (readValues_eq_none_iff E compKey values reply)

/-- After an answer that does not get through there is no result. -/
theorem ecallInvoke_ne_some {invoke : ChaincodeEntry} {host : Host τ} {args pk : Bytes}
    {responseLenIn : ℕ} {e : Event τ}
    (he : e ∈ (invokeRun E invoke host args pk responseLenIn).2.trace) (hr : ¬e.Returns E)
    (result : Bytes × σ) : ecallInvoke E invoke host args pk responseLenIn ≠ some (some result) := by
  intro h
  rw [ecallInvoke] at h
  cases hrun : invokeRun E invoke host args pk responseLenIn with
  | mk answer s =>
    rw [hrun] at h he
    cases answer with
    | none => cases h
    | some response => exact hr ((run_traced E host hrun).returns e he)

/-- An invocation fails closed exactly when everything that is rejected in it is malformed
as well: the verdicts themselves stop nothing. -/
theorem fails_closed_iff (invoke : ChaincodeEntry) (host : Host τ) (args pk : Bytes)
    (responseLenIn : ℕ) :
    FailsClosed E invoke host args pk responseLenIn ↔
      ∀ e ∈ (invokeRun E invoke host args pk responseLenIn).2.trace, e.Rejected E → e.Malformed E := by
  constructor
  · intro h e he hrej
    by_contra hm
    exact (h e he hrej).1 ((e.returns_iff E).mpr hm)
  · intro h e he hrej
    have hr : ¬e.Returns E := fun hr => (e.returns_iff E).mp hr (h e he hrej)
    exact ⟨hr, fun result => ecallInvoke_ne_some E he hr result⟩

end

/-- A cipher that hides nothing. -/
def plainGcm : Gcm where
  encrypt _ _ plain := (plain, List.replicate 16 0)
  decrypt _ _ _ cipher := (true, cipher)
  length_cipher _ _ _ := rfl
  length_mac _ _ _ := List.length_replicate
  length_plain _ _ _ _ := rfl

/-- An enclave whose tags say themselves whether they are right. -/
def frankEnclave : Enclave Bytes Bool Unit where
  libc := signedLibc
  gcm := plainGcm
  sha256 := id
  zeroHash := []
  checkCmac _ _ cmac := cmac
  stateEncryptionKey := []
  readRand _ := List.replicate 12 0
  length_readRand _ := List.length_replicate
  computeSharedDhkey _ := none
  deriveKey := id
  ecdsaSign _ := some ()
  stackLeft := stackMaxSize
  stackLeft_le := le_rfl

/-- A value as it is stored by this enclave. -/
def frankValue (plain : Bytes) : Bytes := base64Encode (encryptState frankEnclave 0 plain)

/-- A peer that denies every value, with a wrong tag. -/
def denyingHost : Host Bool where
  getState _ _ _ := some ⟨[], 0, false, []⟩
  putState _ _ _ := true
  getStateByPartialCompositeKey _ _ := some ⟨str "[]", 2, false, []⟩

def hasFalseTag : Event Bool → Bool
  | .getState _ _ reply => !reply.cmac
  | _ => false

/-- An auction is created on the word of that peer, and signed. -/
theorem denied_auction_signed :
    ecallInvoke frankEnclave (auctionInvoke signedLibc 0) denyingHost (str "[\"create\",\"a\"]") []
        1024 = some (some (str "OK", ())) ∧
      ¬FailsClosed frankEnclave (auctionInvoke signedLibc 0) denyingHost (str "[\"create\",\"a\"]") []
        1024 := by
  have hsigned : ecallInvoke frankEnclave (auctionInvoke signedLibc 0) denyingHost
      (str "[\"create\",\"a\"]") [] 1024 = some (some (str "OK", ())) := by
    decide +kernel
  have hdenied : (invokeRun frankEnclave (auctionInvoke signedLibc 0) denyingHost
      (str "[\"create\",\"a\"]") [] 1024).2.trace.any hasFalseTag = true := by
    decide +kernel
  refine ⟨hsigned, fun h => ?_⟩
  obtain ⟨e, he, hf⟩ := List.any_eq_true.mp hdenied
  cases e with
  | getState key maxValLen reply =>
    have htag : reply.cmac = false := by simpa [hasFalseTag] using hf
    exact (h _ he (Or.inl htag)).2 _ hsigned
  | putState key val => cases hf
  | getStateByPartialCompositeKey compKey values reply => cases hf

end SecureChaincode
