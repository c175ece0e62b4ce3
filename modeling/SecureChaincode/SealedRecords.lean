import SecureChaincode.RecordStore

/-! The record of an auction as the enclaves of the chaincode store and read it. The state
encryption key is a constant of the source, so each of them opens what another one has sealed. -/
namespace SecureChaincode

open Std

/-- What was encrypted is decrypted again. -/
def Gcm.RoundTrip (gcm : Gcm) : Prop :=
  ∀ key iv plain, gcm.decrypt key iv (gcm.encrypt key iv plain).2 (gcm.encrypt key iv plain).1 = (true, plain)

theorem roundTrip_plainGcm : plainGcm.RoundTrip := fun _ _ _ => rfl

/-- The ledger's name for the record of an auction. -/
def recordName (auctionName : Bytes) : Bytes := str "ecc." ++ auctionName

theorem cstr_append_zero {b : Bytes} (h : (0 : UInt8) ∉ b) (rest : Bytes) : cstr (b ++ 0 :: rest) = b := by
  have hself : b.takeWhile (· != 0) = b := cstr_eq_self h
  rw [cstr, List.takeWhile_append, if_pos (by rw [hself])]
  simp

section
variable {η τ σ : Type}

/-- Two enclaves with the same libraries and the same state encryption key. -/
structure SameBuild (E E' : Enclave η τ σ) : Prop where
  libc_eq : E.libc = E'.libc
  gcm_eq : E.gcm = E'.gcm
  key_eq : E.stateEncryptionKey = E'.stateEncryptionKey

/-- A value as it is stored. -/
def sealWith (E : Enclave η τ σ) (iv plain : Bytes) : Bytes :=
  base64Encode (iv ++ (E.gcm.encrypt E.stateEncryptionKey iv plain).2 ++
    (E.gcm.encrypt E.stateEncryptionKey iv plain).1)

variable {E E' : Enclave η τ σ}

theorem SameBuild.encryptState_eq (hE : SameBuild E E') (n : ℕ) (plain : Bytes) :
    base64Encode (encryptState E n plain) = sealWith E' (E.readRand n) plain := by
  rw [encryptState, hE.gcm_eq, hE.key_eq]
  rfl

theorem plainText_sealWith (E : Enclave η τ σ) (iv plain : Bytes) : PlainText (sealWith E iv plain) :=
  plainText_of_base64 (fun _ hc => mem_base64Encode hc)

section
variable {iv : Bytes} (hiv : iv.length = 12) (plain : Bytes)
include hiv

theorem length_sealWith : (sealWith E iv plain).length = sealedLength plain.length := by
  rw [sealWith, length_base64Encode, List.length_append, List.length_append, hiv, E.gcm.length_mac, E.gcm.length_cipher,
    sealedLength]
  omega

theorem sealWith_ne_nil : sealWith E iv plain ≠ [] := by
  intro h
  have hlen := @length_sealWith _ _ _ E iv hiv plain
  rw [h, List.length_nil, sealedLength] at hlen
  omega

/-- An enclave opens what another one has sealed. -/
theorem SameBuild.decryptState_eq (hE : SameBuild E E') (hgcm : E'.gcm.RoundTrip) :
    decryptState E (base64Decode (sealWith E' iv plain)) = (true, plain) := by
  have hmac := E'.gcm.length_mac E'.stateEncryptionKey iv plain
  have hopen := hgcm E'.stateEncryptionKey iv plain
  rw [sealWith, base64Decode_base64Encode, decryptState, hE.gcm_eq, hE.key_eq]
  generalize (E'.gcm.encrypt E'.stateEncryptionKey iv plain).2 = mac at hmac hopen ⊢
  generalize (E'.gcm.encrypt E'.stateEncryptionKey iv plain).1 = cipher at hopen ⊢
  obtain ⟨htakeIv, htakeMac, hdrop, -⟩ := @cut_message iv mac cipher hiv hmac
  rw [htakeIv, htakeMac, hdrop]
  exact hopen

/-- The read of a sealed value: the base64 text has to leave a byte of the buffer free, because it is
read as a C string. -/
theorem SameBuild.readValue_sealWith_eq (hE : SameBuild E E') (hgcm : E'.gcm.RoundTrip) {maxValLen : UInt32} {cmac : τ}
    (hfit : sealedLength plain.length ≤ maxValLen.toNat) :
    readValue E maxValLen ⟨sealWith E' iv plain, (sealWith E' iv plain).length.toUInt32, cmac, []⟩ =
      if sealedLength plain.length < maxValLen.toNat then
        some (plain ++ List.replicate (sealedLength plain.length-plain.length) 0 ++
          (outBuffer maxValLen.toNat (sealWith E' iv plain)).drop (sealedLength plain.length), plain.length)
      else none := by
  have hopen := hE.decryptState_eq hiv plain hgcm
  have hnul : (0 : UInt8) ∉ sealWith E' iv plain := (plainText_sealWith E' iv plain).no_nul
  have hlength := @length_sealWith _ _ _ E' iv hiv plain
  have hdecoded : 28 ≤ (base64Decode (sealWith E' iv plain)).length := by
    rw [sealWith, base64Decode_base64Encode, List.length_append, List.length_append, hiv, E'.gcm.length_mac]
    omega
  generalize sealWith E' iv plain = v at hopen hnul hlength hdecoded ⊢
  have hlen : v.length.toUInt32.toNat = sealedLength plain.length := by
    have hsmall := maxValLen.toNat_lt
    rw [hlength, Nat.toUInt32_eq, UInt32.toNat_ofNat', Nat.mod_eq_of_lt (by omega)]
  have hpos : sealedLength plain.length ≠ 0 := by rw [sealedLength]; omega
  have hle := le_sealedLength plain.length
  simp only [readValue, hlen, OcallReply.memory_nil, length_outBuffer]
  rw [if_neg (by omega), if_neg hpos]
  by_cases hlt : sealedLength plain.length < maxValLen.toNat
  · obtain ⟨rest, hbuf⟩ := outBuffer_eq_zero (hlength ▸ hlt)
    have hcstr : cstr (outBuffer maxValLen.toNat v) = v := by rw [hbuf, cstr_append_zero hnul]
    have hzero : ¬(0 : UInt8) ∉ outBuffer maxValLen.toNat v := by
      rw [hbuf]
      simp
    have hlong : ¬tooShort (outBuffer maxValLen.toNat v) = true := by
      rw [tooShort, hcstr, decide_eq_true_iff]
      omega
    rw [if_pos hlt, if_neg hzero, if_neg hlong, hcstr, hopen, if_neg (Nat.not_lt.mpr hle)]
  · -- there is no NUL in the buffer, and the read runs behind it
    have hbuf : outBuffer maxValLen.toNat v = v := by
      rw [outBuffer, List.take_append_of_le_length (by omega), List.take_of_length_le (by omega)]
    rw [if_neg hlt, hbuf, if_pos hnul]

/-- A read of a sealed value that gets through. -/
theorem SameBuild.readValue_sealWith (hE : SameBuild E E') (hgcm : E'.gcm.RoundTrip) {maxValLen : UInt32} {cmac : τ}
    (hfit : (sealWith E' iv plain).length ≤ maxValLen.toNat) {bytes : Bytes} {len : ℕ}
    (h : readValue E maxValLen ⟨sealWith E' iv plain, (sealWith E' iv plain).length.toUInt32, cmac, []⟩ =
      some (bytes, len)) :
    ∃ rest, bytes = plain ++ rest ∧ len = plain.length := by
  rw [length_sealWith hiv] at hfit
  rw [hE.readValue_sealWith_eq hiv plain hgcm hfit] at h
  split_ifs at h
  cases h
  exact ⟨_, List.append_assoc _ _ _, rfl⟩

end

/-- The record of an auction in the ledger: there is none, or one with this flag. -/
inductive RecordIs (E : Enclave η τ σ) (name : Bytes) (state : Kvs) : Option Bool → Prop
  | absent (h : state[recordName name]? = none) : RecordIs E name state none
  | stored {iv : Bytes} {isOpen : Bool} {version : Version} (hiv : iv.length = 12)
    (h : state[recordName name]? = some (sealWith E iv (marshalAuction E.libc ⟨name, isOpen⟩), version)) :
    RecordIs E name state (some isOpen)

theorem RecordIs.congr {name : Bytes} {state state' : Kvs} {flag : Option Bool} (h : RecordIs E name state flag)
    (heq : state'[recordName name]? = state[recordName name]?) : RecordIs E name state' flag := by
  cases h with
  | absent h => exact .absent (heq.trans h)
  | stored hiv h => exact .stored hiv (heq.trans h)

theorem marshalAuction_ne_nil (libc : Libc) (auction : Auction) : marshalAuction libc auction ≠ [] :=
  List.cons_ne_nil _ _

/-- An operation that gets through with a record has followed the flag in it. -/
theorem Operation.plan_of_marshalled {libc : Libc} {op : Operation} {isOpen : Bool} {rest : Bytes} {plan : Plan}
    (hnul : (0 : UInt8) ∉ op.auctionName)
    (h : op.plan libc (marshalAuction libc ⟨op.auctionName, isOpen⟩ ++ rest)
      (marshalAuction libc ⟨op.auctionName, isOpen⟩).length = some plan) :
    plan = op.planFor libc (some isOpen) := by
  have hlen : (marshalAuction libc ⟨op.auctionName, isOpen⟩).length ≠ 0 :=
    fun h0 => marshalAuction_ne_nil libc _ (List.length_eq_zero_iff.mp h0)
  cases hutf8 : isValidUtf8 op.auctionName with
  | true =>
    rw [op.plan_of_flag hlen (unmarshalAuction_marshalAuction hnul hutf8 isOpen rest)] at h
    exact (Option.some.inj h).symm
  | false =>
    -- the record has no name in it, and only `create` does not look into it
    have hnone := @unmarshalAuction_of_not_utf8 libc _ hnul hutf8 isOpen rest
    cases op with
    | create auctionName =>
      rw [Operation.plan, if_pos (Nat.pos_of_ne_zero hlen)] at h
      exact (Option.some.inj h).symm
    | submit auctionName bidderName value =>
      rw [Operation.plan, if_neg hlen] at h
      rw [Operation.auctionName] at hnone h
      rw [hnone] at h
      cases h
    | close auctionName =>
      rw [Operation.plan, if_neg hlen] at h
      rw [Operation.auctionName] at hnone h
      rw [hnone] at h
      cases h
    | eval auctionName =>
      rw [Operation.plan, if_neg hlen] at h
      rw [Operation.auctionName] at hnone h
      rw [hnone] at h
      cases h

end

end SecureChaincode
