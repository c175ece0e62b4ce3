import SecureChaincode.SharedKeys

/-! Encrypted arguments: the client encrypts with `ecc/crypto/enc.go`, the enclave decrypts in
`invoke_enc`. Go puts the tag behind the ciphertext, and the message has it in front. -/
namespace SecureChaincode

def aesgcmIvSize : ℕ := 12
def aesgcmMacSize : ℕ := 16

/-- AES-GCM of Go. `sealBytes` gives the ciphertext and the tag behind it. -/
structure GoGcm where
  sealBytes : (key iv plain : Bytes) → Bytes
  openBytes : (key iv cipherWithMac : Bytes) → Except String Bytes
  length_sealBytes : ∀ key iv plain, (sealBytes key iv plain).length = plain.length+aesgcmMacSize

/-- `aes.NewCipher`, which takes the keys of AES-128, AES-192 and AES-256. -/
def newCipher (key : Bytes) : Except String Unit :=
  if key.length = 16 ∨ key.length = 24 ∨ key.length = 32 then .ok ()
  else .error ("crypto/aes: invalid key size " ++ toString key.length)

section
variable (G : GoGcm)

/-- `random` is what `rand.Reader` gives for the IV. -/
def encrypt (random : Except String Bytes) (plaintextBytes key : Bytes) : Go Bytes := do
  (newCipher key).mapError GoExit.error
  let iv ← random.mapError GoExit.error
  let cipherWithMac := G.sealBytes key iv plaintextBytes
  let cipherLen := cipherWithMac.length-aesgcmMacSize
  let mac := cipherWithMac.drop cipherLen
  let ciphertext := cipherWithMac.take cipherLen
  return iv ++ mac ++ ciphertext

/-- An input without room for IV and tag is a panic. -/
def decrypt (input key : Bytes) : Go Bytes := do
  if input.length < aesgcmIvSize+aesgcmMacSize then .error .panic
  else
    let iv := input.take aesgcmIvSize
    let mac := (input.drop aesgcmIvSize).take aesgcmMacSize
    let ciphertext := input.drop (aesgcmIvSize+aesgcmMacSize) ++ mac
    (newCipher key).mapError GoExit.error
    (G.openBytes key iv ciphertext).mapError GoExit.error

/-- `Open` inverts `Seal` in Go, and the library of SGX decrypts what Go has encrypted. -/
structure OpenInvertsSeal (gcm : Gcm) : Prop where
  go : ∀ key iv plain, G.openBytes key iv (G.sealBytes key iv plain) = .ok plain
  sgx : ∀ key iv plain mac cipher, mac.length = aesgcmMacSize → cipher ++ mac = G.sealBytes key iv plain →
    gcm.decrypt key iv mac cipher = (true, plain)

variable {G}

/-- The message that `Encrypt` makes, cut where it was put together. -/
theorem encrypt_eq {key iv : Bytes} (plain : Bytes) (hkey : newCipher key = .ok ()) :
    ∃ mac cipher, encrypt G (.ok iv) plain key = .ok (iv ++ mac ++ cipher) ∧ mac.length = aesgcmMacSize ∧
      cipher ++ mac = G.sealBytes key iv plain := by
  have hlen := G.length_sealBytes key iv plain
  refine ⟨(G.sealBytes key iv plain).drop ((G.sealBytes key iv plain).length-aesgcmMacSize),
    (G.sealBytes key iv plain).take ((G.sealBytes key iv plain).length-aesgcmMacSize), ?_, ?_, List.take_append_drop _ _⟩
  · rw [encrypt, hkey]
    rfl
  · rw [List.length_drop]
    omega

/-- `Decrypt` gives back what `Encrypt` has made. -/
theorem decrypt_message {gcm : Gcm} (hopen : OpenInvertsSeal G gcm) {plain key iv mac cipher : Bytes}
    (hiv : iv.length = aesgcmIvSize) (hkey : newCipher key = .ok ()) (hmac : mac.length = aesgcmMacSize)
    (hsealed : cipher ++ mac = G.sealBytes key iv plain) : decrypt G (iv ++ mac ++ cipher) key = .ok plain := by
  obtain ⟨htakeIv, htakeMac, hdrop, hlen⟩ := @cut_message iv mac cipher hiv hmac
  have hlong : ¬(iv ++ mac ++ cipher).length < aesgcmIvSize+aesgcmMacSize := hlen
  rw [decrypt, if_neg hlong]
  change (do
    (newCipher key).mapError GoExit.error
    (G.openBytes key ((iv ++ mac ++ cipher).take 12)
      ((iv ++ mac ++ cipher).drop 28 ++ ((iv ++ mac ++ cipher).drop 12).take 16)).mapError GoExit.error) = _
  rw [htakeIv, htakeMac, hdrop, hsealed, hkey, hopen.go]
  rfl

section
variable {η τ σ : Type} {E : Enclave η τ σ}

theorem toNat_argsNeededSize (size : ℕ) : (argsNeededSize size).toNat = (size+(2^32-28))%2^32 := by
  have h12 : (12 : UInt32).toNat = 12 := rfl
  have h16 : (16 : UInt32).toNat = 16 := rfl
  have heq : argsNeededSize size = UInt32.ofNat size-12-16 := rfl
  rw [heq, UInt32.toNat_sub, UInt32.toNat_sub, UInt32.toNat_ofNat', h12, h16]
  omega

/-- The array overflows exactly if the text and its end do not fit on the stack, which holds of a
`needed_size` that has wrapped around too. -/
theorem plainOverflows_iff (neededSize : UInt32) :
    plainOverflows E neededSize = true ↔ E.stackLeft ≤ neededSize.toNat := by
  have hlt := neededSize.toNat_lt
  have hone : (1 : UInt32).toNat = 1 := rfl
  have hstack : E.stackLeft ≤ 0x80000 := E.stackLeft_le
  rw [plainOverflows, decide_eq_true_iff, UInt32.toNat_add, hone]
  omega

/-- `invoke_enc` on a message that is put together as `Encrypt` does it. -/
theorem invokeEnc_message {key iv mac cipher pk : Bytes} (hiv : iv.length = aesgcmIvSize)
    (hmac : mac.length = aesgcmMacSize) (hpk : invokeEncKey E pk = some (some key)) (invoke : ChaincodeEntry)
    (maxResponseLen : ℕ) :
    invokeEnc E invoke (base64Encode (iv ++ mac ++ cipher)) pk maxResponseLen =
      if E.stackLeft ≤ cipher.length%2^32 then .fault
      else if (E.gcm.decrypt key iv mac (cipher.take (cipher.length%2^32))).1 then
        invoke (cstr (E.gcm.decrypt key iv mac (cipher.take (cipher.length%2^32))).2) maxResponseLen
      else .done none := by
  obtain ⟨htakeIv, htakeMac, hdrop, hlen⟩ := @cut_message iv mac cipher hiv hmac
  have hsize : (argsNeededSize (iv ++ mac ++ cipher).length).toNat = cipher.length%2^32 := by
    rw [toNat_argsNeededSize, List.length_append, List.length_append, hiv, hmac, aesgcmIvSize, aesgcmMacSize]
    omega
  rw [invokeEnc_eq_key, hpk]
  simp only [base64Decode_base64Encode, hsize, htakeIv, htakeMac, hdrop]
  by_cases hoverflow : E.stackLeft ≤ cipher.length%2^32
  · rw [if_pos hoverflow, if_pos ((plainOverflows_iff _).mpr (hsize.symm ▸ hoverflow))]
  · rw [if_neg hoverflow, if_neg (fun h => hoverflow (hsize ▸ (plainOverflows_iff _).mp h))]
    cases E.gcm.decrypt key iv mac (cipher.take (cipher.length%2^32)) with
    | mk accepted plain => cases accepted <;> rfl

/-- The chaincode is called with the plaintext exactly if it fits with its terminator on the stack. -/
theorem message_delivered_iff (hopen : OpenInvertsSeal G E.gcm) {plain key iv mac cipher pk : Bytes}
    (hiv : iv.length = aesgcmIvSize) (hmac : mac.length = aesgcmMacSize)
    (hsealed : cipher ++ mac = G.sealBytes key iv plain) (hnul : (0 : UInt8) ∉ plain)
    (hpk : invokeEncKey E pk = some (some key)) :
    (∀ (invoke : ChaincodeEntry) (maxResponseLen : ℕ),
        invokeEnc E invoke (base64Encode (iv ++ mac ++ cipher)) pk maxResponseLen = invoke plain maxResponseLen) ↔
      plain.length+1 ≤ E.stackLeft := by
  have hcipher : cipher.length = plain.length := by
    have hlen := congrArg List.length hsealed
    rw [List.length_append, hmac, G.length_sealBytes] at hlen
    omega
  have hstack : E.stackLeft ≤ 0x80000 := E.stackLeft_le
  constructor
  · intro hall
    by_contra hlong
    -- a chaincode that answers with its arguments tells what it was called with
    have hecho := hall (fun args _ => .done (some args)) 0
    rw [invokeEnc_message hiv hmac hpk] at hecho
    -- less than the ciphertext is decrypted, so less than the plaintext comes out
    have hlength := E.gcm.length_plain key iv mac (cipher.take (cipher.length%2^32))
    rw [List.length_take] at hlength
    generalize E.gcm.decrypt key iv mac (cipher.take (cipher.length%2^32)) = decrypted at hecho hlength
    split_ifs at hecho with hoverflow haccepted
    · have htext : cstr decrypted.2 = plain := Option.some.inj (Program.done.inj hecho)
      have hle : (cstr decrypted.2).length ≤ decrypted.2.length := (List.takeWhile_sublist _).length_le
      rw [htext] at hle
      omega
    · cases hecho
  · intro hfit invoke maxResponseLen
    have hmod : cipher.length%2^32 = cipher.length := Nat.mod_eq_of_lt (by omega)
    rw [invokeEnc_message hiv hmac hpk, hmod, List.take_length, if_neg (by omega),
      hopen.sgx key iv plain mac cipher hmac hsealed, if_pos rfl, cstr_eq_self hnul]

end

end

/-- A cipher that hides nothing, in Go. -/
def plainGoGcm : GoGcm where
  sealBytes _ _ plain := plain ++ List.replicate 16 0
  openBytes _ _ cipherWithMac := .ok (cipherWithMac.take (cipherWithMac.length-16))
  length_sealBytes _ _ plain := by rw [List.length_append, List.length_replicate]; rfl

theorem openInvertsSeal_plain : OpenInvertsSeal plainGoGcm plainGcm where
  go _ _ plain := by simp [plainGoGcm]
  sgx _ _ plain mac cipher hmac h := by
    obtain ⟨hcipher, -⟩ := List.append_inj' h (hmac.trans List.length_replicate.symm)
    rw [hcipher]
    rfl

/-- An enclave that derives the same key from whatever it is sent. -/
def sharedEnclave : Enclave Bytes Bool Unit :=
  { frankEnclave with computeSharedDhkey := fun _ => some [], deriveKey := fun _ => List.replicate 16 7 }

theorem invokeEncKey_sharedEnclave :
    invokeEncKey sharedEnclave (base64Encode (List.replicate 64 1)) = some (some (List.replicate 16 7)) := by
  have hread : (base64Decode (base64Encode (List.replicate 64 1)) ++ [0]).length = 65 := by
    rw [base64Decode_base64Encode]
    rfl
  rw [invokeEncKey, readClientPk, if_neg (by omega)]
  rfl

/-- The message of the examples, with the key that this enclave derives. -/
def sharedMessage (plain : Bytes) : Go Bytes :=
  encrypt plainGoGcm (.ok (List.replicate 12 1)) plain (List.replicate 16 7)

/-- So many letters are encrypted, and the chaincode is not called with them. -/
def ArgsLost (size : ℕ) : Prop :=
  ∃ message, sharedMessage (List.replicate size 0x61) = .ok message ∧
    ¬∀ (invoke : ChaincodeEntry) (maxResponseLen : ℕ),
      invokeEnc sharedEnclave invoke (base64Encode message) (base64Encode (List.replicate 64 1)) maxResponseLen =
        invoke (List.replicate size 0x61) maxResponseLen

theorem argsLost_of_le {size : ℕ} (h : 0x80000 ≤ size) : ArgsLost size := by
  have hopen : OpenInvertsSeal plainGoGcm sharedEnclave.gcm := openInvertsSeal_plain
  have hiv : (List.replicate 12 (1 : UInt8)).length = aesgcmIvSize := List.length_replicate
  obtain ⟨mac, cipher, hmessage, hmac, hsealed⟩ :=
    @encrypt_eq plainGoGcm (List.replicate 16 7) (List.replicate 12 1) (List.replicate size 0x61) rfl
  have hnul : (0 : UInt8) ∉ List.replicate size (0x61 : UInt8) := fun hm => absurd (List.eq_of_mem_replicate hm) (by decide)
  refine ⟨_, hmessage, ?_⟩
  rw [message_delivered_iff hopen hiv hmac hsealed hnul invokeEncKey_sharedEnclave, List.length_replicate]
  have hstack : sharedEnclave.stackLeft = 0x80000 := rfl
  omega

end SecureChaincode
