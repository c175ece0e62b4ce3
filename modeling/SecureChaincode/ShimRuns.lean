import SecureChaincode.Shim

/-! What a run of a chaincode leaves in its session, whatever the untrusted side answers. -/
namespace SecureChaincode

open Std

section
variable {η τ σ : Type} (E : Enclave η τ σ) (host : Host τ)

/-- The keys that an ocall puts into the read set. -/
def Event.reads : Event τ → List Bytes
  | .getState key _ _ => [key]
  | .putState _ _ => []
  | .getStateByPartialCompositeKey _ values reply =>
    (receivedValues E values reply).elim [] ExtTreeMap.keys

/-- The pair that an ocall offers to the write set. -/
def Event.writes : Event τ → List (Bytes × Bytes)
  | .putState key val => [(key, val)]
  | _ => []

def Event.key : Event τ → Bytes
  | .getState key _ _ => key
  | .putState key _ => key
  | .getStateByPartialCompositeKey compKey _ _ => compKey

/-- The code behind the ocall gets through with the answer. -/
def Event.Returns : Event τ → Prop
  | .getState _ maxValLen reply => readValue E maxValLen reply ≠ none
  | .putState _ _ => True
  | .getStateByPartialCompositeKey _ values reply => readValues E values reply ≠ none

/-- After the ocalls `pre` this is the answer of the host. -/
def Event.AnsweredBy (pre : List (Event τ)) : Event τ → Prop
  | .getState key maxValLen reply => host.getState pre key maxValLen = some reply
  | .putState key val => host.putState pre key val = true
  | .getStateByPartialCompositeKey compKey _ reply =>
    host.getStateByPartialCompositeKey pre compKey = some reply

/-- The places at which a ciphertext is cut into its parts. -/
theorem cut_message {iv mac cipher : Bytes} (hiv : iv.length = 12) (hmac : mac.length = 16) :
    (iv ++ mac ++ cipher).take 12 = iv ∧ ((iv ++ mac ++ cipher).drop 12).take 16 = mac ∧
      (iv ++ mac ++ cipher).drop 28 = cipher ∧ ¬(iv ++ mac ++ cipher).length < 28 := by
  have hfront : (iv ++ mac).length = 28 := by rw [List.length_append, hiv, hmac]
  refine ⟨?_, ?_, List.drop_left' hfront, ?_⟩
  · rw [List.append_assoc]
    exact List.take_left' hiv
  · rw [List.append_assoc, List.drop_left' hiv]
    exact List.take_left' hmac
  · rw [List.length_append, hfront]
    omega

theorem zero_notMem_cstr (b : Bytes) : (0 : UInt8) ∉ cstr b := by
  intro h
  have hne := List.mem_takeWhile_imp h
  exact absurd hne (by decide)

/-- What a call that is answered does to the session. It does the same over other sets. -/
theorem shimStep_some {s t : Session τ} {c : Call} {a : c.Answer}
    (h : shimStep E host s c = (some a, t)) :
    ∃ e : Event τ, (∀ r w, shimStep E host ⟨r, w, s.trace⟩ c =
        (some a, ⟨(e.reads E).foldl (fun r k => r.insert k) r, insertAll w e.writes, s.trace ++ [e]⟩)) ∧
      t = ⟨(e.reads E).foldl (fun r k => r.insert k) s.readSet, insertAll s.writeSet e.writes,
        s.trace ++ [e]⟩ ∧
      e.AnsweredBy host s.trace ∧ e.Returns E ∧ (0 : UInt8) ∉ e.key := by
  -- the sets are not looked at, so the session itself is a case of the general form
  suffices hover : ∃ e : Event τ, (∀ r w, shimStep E host ⟨r, w, s.trace⟩ c =
        (some a, ⟨(e.reads E).foldl (fun r k => r.insert k) r, insertAll w e.writes, s.trace ++ [e]⟩)) ∧
      e.AnsweredBy host s.trace ∧ e.Returns E ∧ (0 : UInt8) ∉ e.key by
    obtain ⟨e, hsame, hanswer⟩ := hover
    exact ⟨e, hsame, (Prod.mk.inj (h.symm.trans (hsame s.readSet s.writeSet))).2, hanswer⟩
  cases c with
  | getState key maxValLen =>
    rw [shimStep] at h
    cases hr : host.getState s.trace (cstr key) maxValLen with
    | none =>
      rw [hr] at h
      cases h
    | some reply =>
      rw [hr] at h
      obtain ⟨hread, -⟩ := Prod.mk.inj h
      refine ⟨.getState (cstr key) maxValLen reply, ?_, hr, ?_, zero_notMem_cstr key⟩
      · intro r w
        rw [shimStep]
        simp only [hr, hread]
        rfl
      · exact fun hn => absurd (hread.symm.trans hn) (by simp)
  | putState key val =>
    rw [shimStep] at h
    dsimp only at h
    split_ifs at h with hput
    · cases h
      refine ⟨.putState (cstr key) _, ?_, hput, trivial, zero_notMem_cstr key⟩
      intro r w
      rw [shimStep]
      dsimp only
      rw [if_pos hput]
      rfl
    · cases h
  | getStateByPartialCompositeKey compKey values =>
    rw [shimStep] at h
    cases hr : host.getStateByPartialCompositeKey s.trace (cstr compKey) with
    | none =>
      rw [hr] at h
      cases h
    | some reply =>
      cases hv : readValues E values reply with
      | none =>
        simp only [hr, hv] at h
        cases h
      | some p =>
        simp only [hr, hv] at h
        have hrecv : receivedValues E values reply = some p.1 := by
          rw [readValues] at hv
          obtain ⟨received, hreceived, hv⟩ := Option.bind_eq_some_iff.mp hv
          split_ifs at hv
          cases hv
          exact hreceived
        refine ⟨.getStateByPartialCompositeKey (cstr compKey) values reply, ?_, hr, ?_,
          zero_notMem_cstr compKey⟩
        · intro r w
          rw [shimStep]
          simp only [hr, hv, Event.reads, hrecv, Option.elim_some]
          obtain ⟨hplain, -⟩ := Prod.mk.inj h
          rw [hplain]
          rfl
        · exact fun hn => absurd (hv.symm.trans hn) (by simp)

theorem run_getState {s : Session τ} {key : Bytes} {maxValLen : UInt32} {reply : OcallReply τ} {a : Bytes × ℕ}
    (hreply : host.getState s.trace (cstr key) maxValLen = some reply)
    (hread : readValue E maxValLen reply = some a) :
    (getState key maxValLen).run (shimStep E host) s =
      (some a, ⟨s.readSet.insert (cstr key), s.writeSet, s.trace ++ [.getState (cstr key) maxValLen reply]⟩) := by
  rw [getState, Program.run_request, shimStep]
  simp only [hreply, hread]

theorem run_getStateByPartialCompositeKey {s : Session τ} {compKey : Bytes} {values received plain : WriteSet}
    {reply : OcallReply τ} (hreply : host.getStateByPartialCompositeKey s.trace (cstr compKey) = some reply)
    (hread : readValues E values reply = some (received, plain)) :
    (getStateByPartialCompositeKey compKey values).run (shimStep E host) s =
      (some plain, ⟨received.keys.foldl (fun r k => r.insert k) s.readSet, s.writeSet,
        s.trace ++ [.getStateByPartialCompositeKey (cstr compKey) values reply]⟩) := by
  rw [getStateByPartialCompositeKey, Program.run_request, shimStep]
  simp only [hreply, hread]

/-! The calls when they get through: the answers, and what is left in the trace. -/

theorem getState_cases {s t : Session τ} {key : Bytes} {maxValLen : UInt32} {a : Bytes × ℕ}
    (h : (getState key maxValLen).run (shimStep E host) s = (some a, t)) :
    ∃ reply, host.getState s.trace (cstr key) maxValLen = some reply ∧ readValue E maxValLen reply = some a ∧
      t.trace = s.trace ++ [.getState (cstr key) maxValLen reply] := by
  rw [getState, Program.run_request, shimStep] at h
  cases hr : host.getState s.trace (cstr key) maxValLen with
  | none =>
    simp only [hr] at h
    cases h
  | some reply =>
    simp only [hr] at h
    obtain ⟨hread, rfl⟩ := Prod.mk.inj h
    exact ⟨reply, rfl, hread, rfl⟩

theorem trace_putState {s t : Session τ} {key val : Bytes} {a : Unit}
    (h : (putState key val).run (shimStep E host) s = (some a, t)) :
    t.trace = s.trace ++ [.putState (cstr key) (base64Encode (encryptState E s.trace.length val))] := by
  rw [putState, Program.run_request, shimStep] at h
  dsimp only at h
  split_ifs at h with hput
  · cases h
    rfl
  · cases h

theorem getStateByPartialCompositeKey_cases {s t : Session τ} {compKey : Bytes} {values plain : WriteSet}
    (h : (getStateByPartialCompositeKey compKey values).run (shimStep E host) s = (some plain, t)) :
    ∃ reply received, host.getStateByPartialCompositeKey s.trace (cstr compKey) = some reply ∧
      readValues E values reply = some (received, plain) ∧
      t.trace = s.trace ++ [.getStateByPartialCompositeKey (cstr compKey) values reply] := by
  rw [getStateByPartialCompositeKey, Program.run_request, shimStep] at h
  cases hr : host.getStateByPartialCompositeKey s.trace (cstr compKey) with
  | none =>
    simp only [hr] at h
    cases h
  | some reply =>
    cases hv : readValues E values reply with
    | none =>
      simp only [hr, hv] at h
      cases h
    | some p =>
      simp only [hr, hv] at h
      cases h
      exact ⟨reply, p.1, rfl, hv, rfl⟩

/-- The chaincode that a call runs, on arguments in clear text or encrypted. -/
def invokeProgram (invoke : ChaincodeEntry) (args pk : Bytes) (responseLenIn : ℕ) : Chaincode (Option Bytes) :=
  if (cstr pk).length = 0 then invoke (cstr args) responseLenIn
  else invokeEnc E invoke (cstr args) (cstr pk) responseLenIn

theorem invokeRun_eq (invoke : ChaincodeEntry) (args pk : Bytes) (responseLenIn : ℕ) :
    invokeRun E invoke host args pk responseLenIn =
      (invokeProgram E invoke args pk responseLenIn).run (shimStep E host) freshSession := rfl

/-- The session of a run in which every call so far was answered. -/
structure Traced (s : Session τ) : Prop where
  readSet : s.readSet = (s.trace.flatMap (Event.reads E)).foldl (fun r k => r.insert k) ∅
  writeSet : s.writeSet = insertAll ∅ (s.trace.flatMap Event.writes)
  answered : ∀ pre e post, s.trace = pre ++ e :: post → e.AnsweredBy host pre
  returns : ∀ e ∈ s.trace, e.Returns E
  key : ∀ e ∈ s.trace, (0 : UInt8) ∉ e.key

theorem traced_freshSession : Traced E host (freshSession : Session τ) where
  readSet := rfl
  writeSet := rfl
  answered := fun pre e post h => absurd h (by simp [freshSession])
  returns := fun e he => absurd he List.not_mem_nil
  key := fun e he => absurd he List.not_mem_nil

theorem Traced.step {s t : Session τ} {c : Call} {a : c.Answer} (hs : Traced E host s)
    (h : shimStep E host s c = (some a, t)) : Traced E host t := by
  obtain ⟨e, -, rfl, hanswer, hreturn, hkey⟩ := shimStep_some E host h
  have hmem : ∀ e' ∈ s.trace ++ [e], e' ∈ s.trace ∨ e' = e := by
    intro e' he'
    simpa using he'
  refine ⟨?_, ?_, ?_, ?_, ?_⟩
  · rw [hs.readSet, List.flatMap_append, List.foldl_append, List.flatMap_singleton]
  · rw [hs.writeSet, List.flatMap_append, insertAll_append, List.flatMap_singleton]
  · intro pre e' post hsplit
    -- the event is the new one, or it was there before
    rcases List.eq_nil_or_concat post with rfl | ⟨post, last, rfl⟩
    · obtain ⟨rfl, he⟩ := List.append_inj' hsplit rfl
      cases he
      exact hanswer
    · rw [List.concat_eq_append, ← List.cons_append, ← List.append_assoc] at hsplit
      exact hs.answered pre e' post (List.append_inj' hsplit rfl).1
  · intro e' he'
    rcases hmem e' he' with he' | rfl
    · exact hs.returns e' he'
    · exact hreturn
  · intro e' he'
    rcases hmem e' he' with he' | rfl
    · exact hs.key e' he'
    · exact hkey

/-- A run that gets through has the session that its ocalls tell. -/
theorem run_traced {α : Type} {p : Chaincode α} {x : α} {t : Session τ}
    (h : p.run (shimStep E host) freshSession = (some x, t)) : Traced E host t := by
  refine Program.run_invariant_of_some (Traced E host) ?_ h (traced_freshSession E host)
  intro s c a u hstep hs
  exact hs.step E host hstep

end

end SecureChaincode
