import SecureChaincode.Der
import SecureChaincode.EnclaveSignature
import SecureChaincode.Setup

/-! The way of a signature from `sgx_ecdsa_sign` to the verifier: `ecall_invoke` turns both numbers
round, `MarshalEnclaveSignature` writes them in DER, and `UnmarshalECDSASignature` reads them. -/
namespace SecureChaincode

/-- The loop of `bytes_swap`: two bytes change places, and the pointers move towards each other. -/
def swapLoop (buffer : Bytes) (start stop : ℕ) : Bytes :=
  if start < stop then
    let swap := buffer.getD start 0
    swapLoop ((buffer.set start (buffer.getD stop 0)).set stop swap) (start+1) (stop-1)
  else buffer
termination_by stop-start

/-- `bytes_swap(buffer + offset, len)` -/
def bytesSwap (buffer : Bytes) (offset len : ℕ) : Bytes := swapLoop buffer offset (offset+len-1)

/-- The loop turns the part between the pointers round and leaves the rest. -/
theorem swapLoop_append (front part back : Bytes) :
    swapLoop (front ++ part ++ back) front.length (front.length+part.length-1) = front ++ part.reverse ++ back := by
  induction part using List.bidirectionalRec generalizing front back with
  | nil =>
    rw [swapLoop, if_neg (by simp)]
    rfl
  | singleton c =>
    rw [swapLoop, if_neg (by simp)]
    rfl
  | cons_append c part d ih =>
    have hlt : front.length < front.length+(c :: (part ++ [d])).length-1 := by
      simp only [List.length_cons, List.length_append, List.length_nil]
      omega
    have hstop : front.length+(c :: (part ++ [d])).length-1 = front.length+(part.length+1) := by
      simp only [List.length_cons, List.length_append, List.length_nil]
      omega
    have hbuffer : front ++ c :: (part ++ [d]) ++ back = front ++ c :: (part ++ d :: back) := by simp
    rw [swapLoop, if_pos hlt, hstop, hbuffer]
    have hstep : ((front ++ c :: (part ++ d :: back)).set front.length
          ((front ++ c :: (part ++ d :: back)).getD (front.length+(part.length+1)) 0)).set
            (front.length+(part.length+1)) ((front ++ c :: (part ++ d :: back)).getD front.length 0) =
        (front ++ [d]) ++ part ++ c :: back := by
      simp [List.getD_eq_getElem?_getD, List.set_append_right]
    have hih := ih (front ++ [d]) (c :: back)
    rw [List.length_append, List.length_singleton] at hih
    have hnext : front.length+(part.length+1)-1 = front.length+1+part.length-1 := by omega
    simp only [hstep, hnext, hih]
    simp

theorem bytesSwap_append (front part back : Bytes) {offset len : ℕ} (hoffset : front.length = offset)
    (hlen : part.length = len) : bytesSwap (front ++ part ++ back) offset len = front ++ part.reverse ++ back := by
  subst hoffset hlen
  exact swapLoop_append front part back

/-- The number of a byte string that starts with its least significant byte. -/
def ofLittleEndian (b : Bytes) : ℕ := Nat.ofDigits 256 (b.map UInt8.toNat)

theorem ofBigEndian_reverse (b : Bytes) : ofBigEndian b.reverse = ofLittleEndian b := by
  rw [ofBigEndian, List.map_reverse, List.reverse_reverse, ofLittleEndian]

theorem ofLittleEndian_lt (b : Bytes) : ofLittleEndian b < 256^b.length := by
  rw [← ofBigEndian_reverse, ← List.length_reverse]
  exact ofBigEndian_lt b.reverse

/-- The end of `ecall_invoke`: the signature of SGX with both of its numbers turned round. -/
def convertSignature (sig : Bytes) : Bytes := bytesSwap (bytesSwap sig 0 32) 32 32

theorem convertSignature_eq {sig : Bytes} (h : sig.length = 64) :
    convertSignature sig = (sig.take 32).reverse ++ (sig.drop 32).reverse := by
  have htake : (sig.take 32).length = 32 := by rw [List.length_take]; omega
  have hdrop : (sig.drop 32).length = 32 := by rw [List.length_drop]; omega
  have hfirst : bytesSwap ([] ++ sig.take 32 ++ sig.drop 32) 0 32 = [] ++ (sig.take 32).reverse ++ sig.drop 32 :=
    bytesSwap_append [] (sig.take 32) (sig.drop 32) rfl htake
  have hsecond := bytesSwap_append (sig.take 32).reverse (sig.drop 32) []
    (by rw [List.length_reverse, htake]) hdrop
  rw [List.nil_append, List.nil_append, List.take_append_drop] at hfirst
  rw [List.append_nil, List.append_nil] at hsecond
  rw [convertSignature, hfirst, hsecond]

section
variable {ρ κ : Type} {X : PkixLibs ρ} {D : Der κ}

/-- DER of two numbers of at most 32 bytes is read back. -/
def SignatureRoundTrip (X : PkixLibs ρ) (D : Der κ) : Prop :=
  ∀ r s, r < 256^32 → s < 256^32 →
    ∃ der, X.marshalASN1 r s = .ok der ∧ D.asn1Unmarshal der = .ok (some (r : ℤ), some (s : ℤ))

/-- The numbers that Go reads in the converted signature are those of SGX. -/
theorem marshalEnclaveSignature_convert (X : PkixLibs ρ) {sig : Bytes} (h : sig.length = 64) :
    marshalEnclaveSignature X (convertSignature sig) =
      let r := ofLittleEndian (sig.take 32)
      let s := ofLittleEndian (sig.drop 32)
      if r = 0 then .error (.error "Invalid signature. R must be larger than zero")
      else if s = 0 then .error (.error "Invalid signature. S must be larger than zero")
      else (X.marshalASN1 r s).mapError GoExit.error := by
  have htake : (sig.take 32).reverse.length = 32 := by rw [List.length_reverse, List.length_take]; omega
  have hhalves : halves (convertSignature sig) = .ok ((sig.take 32).reverse, (sig.drop 32).reverse) := by
    have hlen : ¬(convertSignature sig).length < 32 := by
      rw [convertSignature_eq h, List.length_append]
      omega
    rw [halves, if_neg hlen, convertSignature_eq h, List.take_left' htake, List.drop_left' htake]
  simp only [marshalEnclaveSignature, hhalves, bind, Except.bind, ofBigEndian_reverse, failUnless, bne_iff_ne, ne_eq]
  by_cases hr : ofLittleEndian (sig.take 32) = 0
  · rw [if_pos hr, if_neg (not_not.mpr hr)]
  · rw [if_neg hr, if_pos hr]
    by_cases hs : ofLittleEndian (sig.drop 32) = 0
    · rw [if_pos hs]
      simp only [if_neg (not_not.mpr hs)]
    · rw [if_neg hs]
      simp only [if_pos hs]

theorem unmarshalECDSASignature_of_pos {der : Bytes} {r s : ℕ} (hr : r ≠ 0) (hs : s ≠ 0)
    (h : D.asn1Unmarshal der = .ok (some (r : ℤ), some (s : ℤ))) :
    unmarshalECDSASignature D der = .ok ((r : ℤ), (s : ℤ)) := by
  have hsign {n : ℕ} (hn : n ≠ 0) : ¬(n : ℤ).sign ≠ 1 :=
    not_not.mpr (Int.sign_eq_one_of_pos (Int.natCast_pos.mpr (Nat.pos_of_ne_zero hn)))
  rw [unmarshalECDSASignature, h]
  simp only [Except.mapError, bind, Except.bind, if_neg (hsign hr), if_neg (hsign hs)]
  rfl

/-- A signature of SGX, two numbers of 32 bytes with the least significant byte first, arrives at
the verifier as the same two numbers if neither is zero, and is refused otherwise. -/
theorem signature_preserved (hder : SignatureRoundTrip X D) (sig : Bytes) (hlen : sig.length = 64) :
    let r := ofLittleEndian (sig.take 32)
    let s := ofLittleEndian (sig.drop 32)
    (r ≠ 0 → s ≠ 0 → ∃ der, marshalEnclaveSignature X (convertSignature sig) = .ok der ∧
      unmarshalECDSASignature D der = .ok ((r : ℤ), (s : ℤ)) ∧
      ∀ {ω : Type} (H : IdealHash ω) (S : IdealSig ω κ (ℤ × ℤ)) (args responseData : Bytes)
        (readset writeset : List Bytes) (enclavePk : Bytes) (pk : κ),
        D.parsePKIXPublicKey enclavePk = .ok (.ecdsa pk) →
          verify D H S args responseData readset writeset der enclavePk =
            .ok (S.verify pk (H.sha256 (H.sha256 (H.bytes (signedBytes args responseData readset writeset)))) (r, s))) ∧
    (r = 0 ∨ s = 0 → ∃ err, marshalEnclaveSignature X (convertSignature sig) = .error (.error err)) := by
  intro r s
  have hmarshal := marshalEnclaveSignature_convert X hlen
  refine ⟨fun hr hs => ?_, fun hzero => ?_⟩
  · have hrlt : r < 256^32 := by
      refine (ofLittleEndian_lt _).trans_le (Nat.pow_le_pow_right (by decide) ?_)
      rw [List.length_take]
      omega
    have hslt : s < 256^32 := by
      refine (ofLittleEndian_lt _).trans_le (Nat.pow_le_pow_right (by decide) ?_)
      rw [List.length_drop]
      omega
    obtain ⟨der, hencode, hdecode⟩ := hder r s hrlt hslt
    have hread := unmarshalECDSASignature_of_pos hr hs hdecode
    refine ⟨der, hmarshal.trans ((if_neg hr).trans ((if_neg hs).trans ?_)), hread, ?_⟩
    · exact congrArg (Except.mapError GoExit.error) hencode
    intro ω H S args responseData readset writeset enclavePk pk hpk
    rw [verify, hread, hpk]
    rfl
  · by_cases hr : r = 0
    · exact ⟨_, hmarshal.trans (if_pos hr)⟩
    · exact ⟨_, hmarshal.trans ((if_neg hr).trans (if_pos (hzero.resolve_left hr)))⟩

end

/-- The functions of Go for signatures, with DER as it is. -/
def derPkix : PkixLibs Unit := { plainPkix with marshalASN1 := fun r s => .ok (derPair r s) }

def pairDer : Der Bytes where
  asn1Unmarshal b :=
    match readPair b with
    | some (r, s) => .ok (some r, some s)
    | none => .error "asn1: structure error"
  parsePKIXPublicKey := shortDer.parsePKIXPublicKey

theorem signatureRoundTrip_der : SignatureRoundTrip derPkix pairDer := by
  intro r s hr hs
  refine ⟨derPair r s, rfl, ?_⟩
  simp only [pairDer, readPair_derPair hr hs (by decide)]

/-- The first number has a zero byte at its end and the other one its highest bit set. -/
theorem signature_preserved_example :
    let sig := List.replicate 31 7 ++ [0] ++ List.replicate 32 0x80
    ∃ der, marshalEnclaveSignature derPkix (convertSignature sig) = .ok der ∧
      unmarshalECDSASignature pairDer der =
        .ok ((ofLittleEndian (sig.take 32) : ℤ), (ofLittleEndian (sig.drop 32) : ℤ)) := by
  intro sig
  obtain ⟨der, hder, hread, -⟩ := (signature_preserved signatureRoundTrip_der sig (by decide)).1 (by decide +kernel)
    (by decide +kernel)
  exact ⟨der, hder, hread⟩

end SecureChaincode
