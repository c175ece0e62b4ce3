import SecureChaincode.PointwiseMaps
import SecureChaincode.SealedRecords
import SecureChaincode.SerialRuns

/-! Runs that differ in what they seal: the ocalls are the same, apart from the sealed values. Two
enclaves that are asked to endorse one invocation run in this way. -/
namespace SecureChaincode

open Std

section
variable {η τ σ : Type}

/-- Two sealed values for a key, with initialisation vectors and clear texts that are related by `Q`. -/
inductive Resealed (E : Enclave η τ σ) (Q : Bytes → Bytes × Bytes → Bytes × Bytes → Prop) (key : Bytes) :
    Bytes → Bytes → Prop
  | intro {iv iv' val val' : Bytes} (h : Q key (iv, val) (iv', val')) :
    Resealed E Q key (sealWith E iv val) (sealWith E iv' val')

/-- The same ocall, with another value that is sealed. -/
inductive EventAlike (E : Enclave η τ σ) (Q : Bytes → Bytes × Bytes → Bytes × Bytes → Prop) : Event τ → Event τ → Prop
  | getState (key : Bytes) (maxValLen : UInt32) {reply reply' : OcallReply τ}
    (h : reply.val.length = reply'.val.length) :
    EventAlike E Q (.getState key maxValLen reply) (.getState key maxValLen reply')
  | putState (key : Bytes) {val val' : Bytes} (h : Resealed E Q key val val') :
    EventAlike E Q (.putState key val) (.putState key val')
  | getStateByPartialCompositeKey (compKey : Bytes) (values : WriteSet) {reply reply' : OcallReply τ}
    (h : reply.val.length = reply'.val.length) :
    EventAlike E Q (.getStateByPartialCompositeKey compKey values reply)
      (.getStateByPartialCompositeKey compKey values reply')

variable {E : Enclave η τ σ} {Q : Bytes → Bytes × Bytes → Bytes × Bytes → Prop} {F : KeyRule}
  {trace trace' : List (Event τ)}

/-- Fabric records the same reads. -/
theorem simulatedReads_eq_of_alike (h : List.Forall₂ (EventAlike E Q) trace trace') :
    simulatedReads F trace = simulatedReads F trace' := by
  refine List.rel_foldl (P := Eq) (fun reads _ heq e e' hevent => ?_) rfl h
  subst heq
  cases hevent <;> rfl

theorem simulatedRanges_eq_of_alike (worldState : Kvs) (h : List.Forall₂ (EventAlike E Q) trace trace') :
    simulatedRanges F worldState trace = simulatedRanges F worldState trace' := by
  rw [simulatedRanges, simulatedRanges]
  induction h with
  | nil => rfl
  | cons hevent _ ih => cases hevent <;> simp only [List.filterMap_cons, ih]

/-- It records writes of the same keys. -/
theorem simulatedWrites_pointwise (h : List.Forall₂ (EventAlike E Q) trace trace') :
    Pointwise (fun f val val' => ∃ key, goKey F key = some f ∧ Resealed E Q key val val')
      (simulatedWrites F trace) (simulatedWrites F trace') := by
  refine List.rel_foldl
    (P := Pointwise (fun f val val' => ∃ key, goKey F key = some f ∧ Resealed E Q key val val'))
    (fun writes writes' hw e e' hevent => ?_) (pointwise_empty _) h
  cases hevent with
  | getState key maxValLen => exact hw
  | getStateByPartialCompositeKey compKey values => exact hw
  | putState key hval =>
    dsimp only
    cases hkey : goKey F key with
    | none => exact hw
    | some keyStr => exact hw.insert ⟨key, hkey, hval⟩

/-! Two enclaves of one build. -/

section
variable {E' : Enclave η τ σ} (hE : SameBuild E' E)
include hE

theorem SameBuild.decryptState_congr (cipher : Bytes) : decryptState E' cipher = decryptState E cipher := by
  rw [decryptState, decryptState, hE.gcm_eq, hE.key_eq]

/-- The tag of a reply is of no importance to what is read. -/
theorem SameBuild.readValue_congr (maxValLen : UInt32) {reply reply' : OcallReply τ} (hval : reply.val = reply'.val)
    (hlen : reply.valLen = reply'.valLen) (hbehind : reply.behind = reply'.behind) :
    readValue E' maxValLen reply = readValue E maxValLen reply' := by
  have hmemory (n : ℕ) : reply.memory n = reply'.memory n := by
    rw [OcallReply.memory, OcallReply.memory, hval, hbehind]
  simp only [readValue, hmemory, hE.decryptState_congr, hlen]

theorem SameBuild.readValues_congr (values : WriteSet) {reply reply' : OcallReply τ} (hval : reply.val = reply'.val)
    (hbehind : reply.behind = reply'.behind) : readValues E' values reply = readValues E values reply' := by
  simp only [readValues, receivedValues, OcallReply.memory, hE.libc_eq, hE.decryptState_congr, hval, hbehind]

end

/-- Sessions of two enclaves with the same ocalls. -/
structure SessionAlike (E : Enclave η τ σ) (Q : Bytes → Bytes × Bytes → Bytes × Bytes → Prop) (s s' : Session τ) : Prop where
  readSet : s.readSet = s'.readSet
  writeSet : Pointwise (Resealed E Q) s.writeSet s'.writeSet
  trace : List.Forall₂ (EventAlike E Q) s.trace s'.trace

theorem sessionAlike_fresh : SessionAlike E Q freshSession freshSession := ⟨rfl, pointwise_empty _, .nil⟩

theorem SessionAlike.event {s s' : Session τ} (h : SessionAlike E Q s s') {e e' : Event τ} (he : EventAlike E Q e e') :
    SessionAlike E Q { s with trace := s.trace ++ [e] } { s' with trace := s'.trace ++ [e'] } :=
  ⟨h.readSet, h.writeSet, List.rel_append h.trace (.cons he .nil)⟩

variable (E) in
/-- The same clear text, sealed with what the two enclaves have drawn for it. -/
def SameText (E' : Enclave η τ σ) (_ : Bytes) (x x' : Bytes × Bytes) : Prop :=
  x.2 = x'.2 ∧ ∃ n, x.1 = E.readRand n ∧ x'.1 = E'.readRand n

variable {E' : Enclave η τ σ} {worldState : Kvs} {verifyTag verifyTag' : Bytes → Bool → τ}

section
variable (F worldState verifyTag verifyTag') (pre pre' : List (Event τ))

/-- On one world state the replies are the same apart from their tags. -/
theorem goHost_getState_tags (key : Bytes) (maxValLen : UInt32) :
    Option.Rel (fun r r' => r.val = r'.val ∧ r.valLen = r'.valLen ∧ r.behind = r'.behind)
      ((goHost F worldState verifyTag).getState pre key maxValLen)
      ((goHost F worldState verifyTag').getState pre' key maxValLen) := by
  cases hkey : goKey F key with
  | none =>
    simp only [goHost, hkey]
    exact .none
  | some keyStr =>
    rw [goHost_getState F worldState verifyTag pre maxValLen hkey, goHost_getState F worldState verifyTag' pre' maxValLen hkey]
    dsimp only
    split_ifs
    · exact .none
    · exact .some ⟨rfl, rfl, rfl⟩

theorem goHost_range_tags (compKey : Bytes) :
    Option.Rel (fun r r' => r.val = r'.val ∧ r.behind = r'.behind)
      ((goHost F worldState verifyTag).getStateByPartialCompositeKey pre compKey)
      ((goHost F worldState verifyTag').getStateByPartialCompositeKey pre' compKey) := by
  cases hitems : goRange F worldState compKey with
  | none =>
    simp only [goHost, hitems]
    exact .none
  | some items =>
    simp only [goHost, hitems, Option.bind_eq_bind, Option.bind_some]
    split_ifs
    · exact .none
    · exact .some ⟨rfl, rfl⟩

end

theorem sealWith_encryptState (n : ℕ) (val : Bytes) : base64Encode (encryptState E n val) = sealWith E (E.readRand n) val :=
  rfl

/-- Step lemma: a call has the same answer in both sessions. -/
theorem shimStep_alike (hE : SameBuild E' E) {s s' : Session τ} (h : SessionAlike E (SameText E E') s s') (c : Call) :
    (shimStep E (goHost F worldState verifyTag) s c).1 = (shimStep E' (goHost F worldState verifyTag') s' c).1 ∧
      SessionAlike E (SameText E E') (shimStep E (goHost F worldState verifyTag) s c).2
        (shimStep E' (goHost F worldState verifyTag') s' c).2 := by
  have hlen : s.trace.length = s'.trace.length := h.trace.length_eq
  cases c with
  | getState key maxValLen =>
    have hread : SessionAlike E (SameText E E') { s with readSet := s.readSet.insert (cstr key) }
        { s' with readSet := s'.readSet.insert (cstr key) } := by
      refine ⟨?_, h.writeSet, h.trace⟩
      rw [h.readSet]
    have hreply := goHost_getState_tags F worldState verifyTag verifyTag' s.trace s'.trace (cstr key) maxValLen
    dsimp only [shimStep]
    generalize (goHost F worldState verifyTag).getState s.trace (cstr key) maxValLen = o at hreply ⊢
    generalize (goHost F worldState verifyTag').getState s'.trace (cstr key) maxValLen = o' at hreply ⊢
    cases hreply with
    | none => exact ⟨rfl, hread⟩
    | some hsame =>
      obtain ⟨hval, hlen, hbehind⟩ := hsame
      refine ⟨(hE.readValue_congr maxValLen hval.symm hlen.symm hbehind.symm).symm, hread.event (.getState _ _ ?_)⟩
      rw [hval]
  | putState key val =>
    have hsealed : Resealed E (SameText E E') (cstr key) (base64Encode (encryptState E s.trace.length val))
        (base64Encode (encryptState E' s'.trace.length val)) := by
      rw [hE.encryptState_eq, sealWith_encryptState, hlen]
      exact .intro ⟨rfl, _, rfl, rfl⟩
    have hwrite : SessionAlike E (SameText E E')
        { s with writeSet := s.writeSet.insertIfNew (cstr key) (base64Encode (encryptState E s.trace.length val)) }
        { s' with writeSet := s'.writeSet.insertIfNew (cstr key) (base64Encode (encryptState E' s'.trace.length val)) } :=
      ⟨h.readSet, h.writeSet.insertIfNew hsealed, h.trace⟩
    dsimp only [shimStep, goHost]
    split_ifs
    · exact ⟨rfl, hwrite.event (.putState _ hsealed)⟩
    · exact ⟨rfl, hwrite⟩
  | getStateByPartialCompositeKey compKey values =>
    have hreply := goHost_range_tags F worldState verifyTag verifyTag' s.trace s'.trace (cstr compKey)
    dsimp only [shimStep]
    generalize (goHost F worldState verifyTag).getStateByPartialCompositeKey s.trace (cstr compKey) = o at hreply ⊢
    generalize (goHost F worldState verifyTag').getStateByPartialCompositeKey s'.trace (cstr compKey) = o' at hreply ⊢
    cases hreply with
    | none => exact ⟨rfl, h⟩
    | @some reply reply' hsame =>
      have hevent : SessionAlike E (SameText E E')
          { s with trace := s.trace ++ [.getStateByPartialCompositeKey (cstr compKey) values reply] }
          { s' with trace := s'.trace ++ [.getStateByPartialCompositeKey (cstr compKey) values reply'] } :=
        h.event (.getStateByPartialCompositeKey _ _ (by rw [hsame.1]))
      dsimp only
      rw [hE.readValues_congr values hsame.1.symm hsame.2.symm]
      cases readValues E values reply with
      | none => exact ⟨rfl, hevent⟩
      | some r =>
        refine ⟨rfl, ?_, h.writeSet, hevent.trace⟩
        dsimp only
        rw [h.readSet]

/-- Run lemma: whatever the chaincode is, the two runs go along with each other. -/
theorem invokeRun_alike (hE : SameBuild E' E) (invoke : ChaincodeEntry) (args : Bytes) (responseLenIn : ℕ) :
    (invokeRun E invoke (goHost F worldState verifyTag) args [] responseLenIn).1 =
        (invokeRun E' invoke (goHost F worldState verifyTag') args [] responseLenIn).1 ∧
      SessionAlike E (SameText E E') (invokeRun E invoke (goHost F worldState verifyTag) args [] responseLenIn).2
        (invokeRun E' invoke (goHost F worldState verifyTag') args [] responseLenIn).2 := by
  rw [invokeRun, invokeRun]
  exact Program.run_related (P := fun _ => True) (SessionAlike E (SameText E E'))
    (fun s s' c _ h => shimStep_alike hE h c) (Program.within_true _) sessionAlike_fresh

/-- A sealed value begins with its initialisation vector. -/
theorem iv_eq_of_sealWith {iv iv' val val' : Bytes} (hiv : iv.length = 12) (hiv' : iv'.length = 12)
    (h : sealWith E iv val = sealWith E iv' val') : iv = iv' := by
  have hdecoded := congrArg base64Decode h
  rw [sealWith, sealWith, base64Decode_base64Encode, base64Decode_base64Encode] at hdecoded
  have htake := congrArg (List.take 12) hdecoded
  rwa [List.append_assoc, List.append_assoc, List.take_left' hiv, List.take_left' hiv'] at htake

/-- Two writes of the same value, each sealed by the enclave that has made it. -/
def SealedTwice (E E' : Enclave η τ σ) (w w' : Peer.KVWrite) : Prop :=
  w.key = w'.key ∧ ∃ n plain, w.value = sealWith E (E.readRand n) plain ∧ w'.value = sealWith E (E'.readRand n) plain

/-- The writes that Fabric records for the two runs. -/
theorem simulate_writes_alike {trace trace' : List (Event τ)}
    (h : List.Forall₂ (EventAlike E (SameText E E')) trace trace') :
    List.Forall₂ (SealedTwice E E') (simulate F worldState trace).writes (simulate F worldState trace').writes := by
  rw [simulate, simulate]
  refine List.forall₂_map_left_iff.mpr (List.forall₂_map_right_iff.mpr ((simulatedWrites_pointwise h).toList.imp ?_))
  rintro ⟨k, v⟩ ⟨k', v'⟩ ⟨hkey, key, -, hsealed⟩
  refine ⟨hkey, ?_⟩
  dsimp only at hsealed ⊢
  cases hsealed with
  | intro htext =>
    obtain ⟨htexts, n, hiv, hiv'⟩ := htext
    dsimp only at htexts hiv hiv'
    exact ⟨n, _, by rw [hiv], by rw [hiv', htexts]⟩

/-- With other initialisation vectors no write is the same. -/
theorem SealedTwice.ne {w w' : Peer.KVWrite} (h : SealedTwice E E' w w') (hrand : ∀ n, E.readRand n ≠ E'.readRand n) :
    w ≠ w' := by
  rintro rfl
  obtain ⟨-, n, plain, hval, hval'⟩ := h
  exact hrand n (iv_eq_of_sealWith (E.length_readRand n) (E'.length_readRand n) (hval.symm.trans hval'))

/-- Two enclaves endorse one invocation of a chaincode in clear text, on the same world state. They
return the same response, and Fabric records the same reads, ranges and keys that are written;
the values are the same in clear text. They are sealed with different initialisation vectors,
however, so that the two read/write sets are the same only if nothing is written. -/
theorem endorsements_agree (F : KeyRule) (E E' : Enclave η τ σ) (hE : SameBuild E' E) (invoke : ChaincodeEntry)
    (worldState : Kvs) (verifyTag verifyTag' : Bytes → Bool → τ) (args : Bytes) (responseLenIn : ℕ) :
    let run := invokeRun E invoke (goHost F worldState verifyTag) args [] responseLenIn
    let run' := invokeRun E' invoke (goHost F worldState verifyTag') args [] responseLenIn
    let kv := simulate F worldState run.2.trace
    let kv' := simulate F worldState run'.2.trace
    run.1 = run'.1 ∧ run.2.readSet = run'.2.readSet ∧ kv.reads = kv'.reads ∧
      kv.rangeQueriesInfo = kv'.rangeQueriesInfo ∧ List.Forall₂ (SealedTwice E E') kv.writes kv'.writes ∧
      ((∀ n, E.readRand n ≠ E'.readRand n) → (kv = kv' ↔ kv.writes = [])) := by
  intro run run' kv kv'
  obtain ⟨hresult, hsession⟩ : run.1 = run'.1 ∧ SessionAlike E (SameText E E') run.2 run'.2 :=
    invokeRun_alike hE invoke args responseLenIn
  have hreads : kv.reads = kv'.reads := congrArg (fun r : ReadSet => r.toList.map Peer.KVRead.mk)
    (simulatedReads_eq_of_alike hsession.trace)
  have hranges : kv.rangeQueriesInfo = kv'.rangeQueriesInfo := by
    change (simulatedRanges F worldState run.2.trace).map _ = (simulatedRanges F worldState run'.2.trace).map _
    rw [simulatedRanges_eq_of_alike worldState hsession.trace]
  have hwrites : List.Forall₂ (SealedTwice E E') kv.writes kv'.writes := simulate_writes_alike hsession.trace
  refine ⟨hresult, hsession.readSet, hreads, hranges, hwrites, fun hrand => ⟨fun heq => ?_, fun hnone => ?_⟩⟩
  · -- the first write would be the same in both
    rw [← heq] at hwrites
    cases hlist : kv.writes with
    | nil => rfl
    | cons w ws =>
      rw [hlist] at hwrites
      cases hwrites with
      | cons hw _ => exact absurd rfl (hw.ne hrand)
  · rw [hnone] at hwrites
    have hnone' : kv'.writes = [] := List.forall₂_nil_left_iff.mp hwrites
    cases hkv : kv with
    | mk reads ranges writes =>
      cases hkv' : kv' with
      | mk reads' ranges' writes' =>
        rw [hkv, hkv'] at hreads hranges
        rw [hkv] at hnone
        rw [hkv'] at hnone'
        dsimp only at hreads hranges hnone hnone'
        rw [hreads, hranges, hnone, hnone']

end

/-- The enclave that hides nothing, with other random bytes. -/
def otherFrankEnclave : Enclave Bytes Bool Unit :=
  { frankEnclave with readRand := fun _ => List.replicate 12 1, length_readRand := fun _ => List.length_replicate }

/-- Both create the auction `a`, and neither of the read/write sets is that of the other. -/
theorem endorsements_agree_creation :
    (invokeRun frankEnclave (auctionInvoke signedLibc 0) (goHost nulFree ∅ (fun _ _ => true))
        (str "[\"create\",\"a\"]") [] 1024).1 =
      (invokeRun otherFrankEnclave (auctionInvoke signedLibc 0) (goHost nulFree ∅ (fun _ _ => true))
        (str "[\"create\",\"a\"]") [] 1024).1 ∧
    simulate nulFree ∅ (invokeRun frankEnclave (auctionInvoke signedLibc 0) (goHost nulFree ∅ (fun _ _ => true))
        (str "[\"create\",\"a\"]") [] 1024).2.trace ≠
      simulate nulFree ∅ (invokeRun otherFrankEnclave (auctionInvoke signedLibc 0) (goHost nulFree ∅ (fun _ _ => true))
        (str "[\"create\",\"a\"]") [] 1024).2.trace := by
  have h := endorsements_agree nulFree frankEnclave otherFrankEnclave ⟨rfl, rfl, rfl⟩ (auctionInvoke signedLibc 0) ∅
    (fun _ _ => true) (fun _ _ => true) (str "[\"create\",\"a\"]") 1024
  obtain ⟨hresult, -, -, -, -, hwrites⟩ := h
  refine ⟨hresult, fun heq => ?_⟩
  have hnone := (hwrites (fun _ => (by decide : (List.replicate 12 0 : Bytes) ≠ List.replicate 12 1))).mp heq
  revert hnone
  decide +kernel

end SecureChaincode
