import SecureChaincode.Exec
import SecureChaincode.FailClosed

/-! Calls of `ecall_invoke` that run at the same time. The read and write set of a call are
on its stack; the shim finds them through the global map `context` under the pointer `ctx`
that came with the call. -/
namespace SecureChaincode

open Std

/-- A call: what it was entered with, what its chaincode still has to do, and its session, the
ocalls of which are those that were made for this call. -/
structure InvokeCall (τ : Type) where
  ctx : ℕ
  host : Host τ
  args : Bytes
  pk : Bytes
  responseLenIn : ℕ
  program : Chaincode (Option Bytes)
  session : Session τ
  active : Bool

/-- The call after its return. -/
def InvokeCall.ended {τ : Type} (call : InvokeCall τ) : InvokeCall τ := { call with active := false }

/-- The map `context`, which gives the call that has the sets on its stack, and all calls in
the order in which they were entered. -/
structure EnclaveCalls (τ : Type) where
  context : ExtTreeMap ℕ ℕ compare
  calls : List (InvokeCall τ)

inductive InvokeAction (τ : Type)
  | enter (ctx : ℕ) (host : Host τ) (args pk : Bytes) (responseLenIn : ℕ)
  | shim (call : ℕ)
  | finish (call : ℕ)

/-- The return codes; an error of the decryption counts as one of the chaincode. -/
inductive InvokeResult (σ : Type)
  | chaincodeError
  | signingError
  | success (response : Bytes) (signature : σ)

def InvokeResult.isError {σ : Type} : InvokeResult σ → Bool
  | .chaincodeError => true
  | _ => false

/-- Response and signature, where there are any. -/
def InvokeResult.outcome {σ : Type} : InvokeResult σ → Option (Bytes × σ)
  | .success response signature => some (response, signature)
  | _ => none

/-- A call that returns, with what `context` then has under its `ctx`, the sets that were
hashed, if it came to that, and the result. -/
structure InvokeReturn (τ σ : Type) where
  call : InvokeCall τ
  left : Option ℕ
  hashed : Option (ReadSet × WriteSet)
  result : InvokeResult σ

section
variable {η τ σ : Type} (E : Enclave η τ σ) (invoke : ChaincodeEntry)

/-- `register_rwset` keeps an entry that is already there. Calls that are active have
different pointers. -/
def enterCall (S : EnclaveCalls τ) (ctx : ℕ) (host : Host τ) (args pk : Bytes) (responseLenIn : ℕ) :
    Option (EnclaveCalls τ) :=
  if S.calls.any (fun call => call.active && call.ctx == ctx) then none
  else
    let program := invokeProgram E invoke args pk responseLenIn
    some ⟨S.context.insertIfNew ctx S.calls.length,
      S.calls ++ [⟨ctx, host, args, pk, responseLenIn, program, freshSession, true⟩]⟩

/-- Ocalls for which the shim goes to neither set: range queries without a result. -/
def leavesSets (events : List (Event τ)) : Bool :=
  events.all (fun e => (e.reads E).isEmpty && e.writes.isEmpty)

/-- One call of the shim. It works on the sets that `get_read_set` and `get_write_set` find;
without an entry they return NULL, and the stack of a call that has returned is gone, so that
nothing can be put into the sets there. -/
def shimCall (S : EnclaveCalls τ) (i : ℕ) : Option (EnclaveCalls τ) := do
  let call ← S.calls[i]?
  let owner ← S.context[call.ctx]?
  let frame ← S.calls[owner]?
  match call.program with
  | .call c next =>
    match shimStep E call.host ⟨frame.session.readSet, frame.session.writeSet, call.session.trace⟩ c with
    | (some a, t) =>
      if call.active && (frame.active || leavesSets E (t.trace.drop call.session.trace.length)) then
        let frame' := { frame with session := ⟨t.readSet, t.writeSet, frame.session.trace⟩ }
        let advance (call : InvokeCall τ) : InvokeCall τ :=
          { call with program := next a, session := { call.session with trace := t.trace } }
        some ⟨S.context, (S.calls.set owner frame').modify i advance⟩
      else none
    | (none, _) => none
  | _ => none

/-- The end of `ecall_invoke`. An error returns before `free_rwset`. -/
def finishCall (S : EnclaveCalls τ) (i : ℕ) : Option (EnclaveCalls τ × InvokeReturn τ σ) := do
  let call ← S.calls[i]?
  let calls := S.calls.set i call.ended
  match call.program with
  | .done none =>
    if call.active then
      some (⟨S.context, calls⟩, ⟨call, S.context[call.ctx]?, none, .chaincodeError⟩)
    else none
  | .done (some response) =>
    if call.active then
      let context := S.context.erase call.ctx
      let hash := E.sha256 (invokeMessage call.args response call.session)
      let result := match E.ecdsaSign hash with
        | none => .signingError
        | some signature => .success response signature
      some (⟨context, calls⟩,
        ⟨call, context[call.ctx]?, some (call.session.readSet, call.session.writeSet), result⟩)
    else none
  | _ => none

/-- One step, with the return of a call, if it is one. `none` when the enclave faults, an
ocall does not return, or the call is not at this point. -/
def EnclaveCalls.step (S : EnclaveCalls τ) : InvokeAction τ → Option (EnclaveCalls τ × Option (InvokeReturn τ σ))
  | .enter ctx host args pk responseLenIn =>
    (enterCall E invoke S ctx host args pk responseLenIn).map (fun S' => (S', none))
  | .shim i => (shimCall E S i).map (fun S' => (S', none))
  | .finish i => (finishCall E S i).map (fun r => (r.1, some r.2))

def noInvocations : EnclaveCalls τ := ⟨∅, []⟩

/-- The keys and values that the shim records in the course of some ocalls. -/
def recordedSets (trace : List (Event τ)) : ReadSet × WriteSet :=
  ((trace.flatMap (Event.reads E)).foldl (fun r k => r.insert k) ∅, insertAll ∅ (trace.flatMap Event.writes))

/-- The run of the chaincode as it is when nothing else happens. -/
def InvokeCall.alone (call : InvokeCall τ) : Option (Option Bytes) × Session τ :=
  invokeRun E invoke call.host call.args call.pk call.responseLenIn

/-- What holds of the map and of the calls in every interleaving. -/
structure ContextInv (S : EnclaveCalls τ) : Prop where
  entry : ∀ (i : ℕ) call, S.calls[i]? = some call → call.active = true → ∃ j, S.context[call.ctx]? = some j
  distinct : ∀ (i j : ℕ) call call', S.calls[i]? = some call → S.calls[j]? = some call' →
    call.active = true → call'.active = true → call.ctx = call'.ctx → i = j
  owner : ∀ x j : ℕ, S.context[x]? = some j → ∃ call, S.calls[j]? = some call ∧ call.ctx = x
  traced : ∀ (i : ℕ) call, S.calls[i]? = some call → Traced E call.host call.session
  resumes : ∀ (i : ℕ) call, S.calls[i]? = some call →
    call.program.run (shimStep E call.host) call.session = call.alone E invoke

variable {E invoke}

theorem modify_eq_set {α : Type} {l : List α} {i : ℕ} {x : α} (h : l[i]? = some x) (f : α → α) :
    l.modify i f = l.set i (f x) := by
  rw [List.modify_eq_set_getElem?, h]
  rfl

/-- A call of the shim is a step of the call on its own session: an entry that leads to the
stack of another call can only have been left by one that has returned. -/
theorem shimCall_eq {S S' : EnclaveCalls τ} {i : ℕ} (hi : ContextInv E invoke S)
    (h : shimCall E S i = some S') :
    ∃ call c next a t, S.calls[i]? = some call ∧ call.active = true ∧ call.program = .call c next ∧
      shimStep E call.host call.session c = (some a, t) ∧
      S' = ⟨S.context, S.calls.set i { call with program := next a, session := t }⟩ := by
  obtain ⟨call, hcall, h⟩ := Option.bind_eq_some_iff.mp h
  obtain ⟨owner, howner, h⟩ := Option.bind_eq_some_iff.mp h
  obtain ⟨frame, hframe, h⟩ := Option.bind_eq_some_iff.mp h
  obtain ⟨registered, hregistered, hctx⟩ := hi.owner _ _ howner
  obtain rfl : frame = registered := Option.some.inj (hframe.symm.trans hregistered)
  cases hp : call.program with
  | done r =>
    rw [hp] at h
    cases h
  | fault =>
    rw [hp] at h
    cases h
  | call c next =>
    rw [hp] at h
    dsimp only at h
    cases hs : shimStep E call.host ⟨frame.session.readSet, frame.session.writeSet, call.session.trace⟩ c with
    | mk answer t =>
      rw [hs] at h
      cases answer with
      | none => cases h
      | some a =>
        obtain ⟨e, hover, rfl, -⟩ := shimStep_some E call.host hs
        dsimp only at h hover
        rw [List.drop_left] at h
        split_ifs at h with hcond
        obtain ⟨hactive, hcond⟩ := Bool.and_eq_true_iff.mp hcond
        cases h
        refine ⟨call, c, next, a, _, hcall, hactive, hp, hover call.session.readSet call.session.writeSet, ?_⟩
        by_cases hf : frame.active = true
        · obtain rfl : owner = i := hi.distinct owner i frame call hframe hcall hf hactive hctx
          obtain rfl : frame = call := Option.some.inj (hframe.symm.trans hcall)
          have hlt : owner < S.calls.length := (List.getElem?_eq_some_iff.mp hcall).1
          rw [modify_eq_set (List.getElem?_set_self hlt), List.set_set]
        · rw [Bool.eq_false_of_not_eq_true hf, Bool.false_or] at hcond
          have hnone : e.reads E = [] ∧ e.writes = [] := by simpa [leavesSets] using hcond
          -- the sets of the call that has returned stay as they are
          have hset : S.calls.set owner frame = S.calls := by
            obtain ⟨hlt, rfl⟩ := List.getElem?_eq_some_iff.mp hframe
            exact List.set_getElem_self hlt
          rw [hnone.1, hnone.2]
          dsimp only [List.foldl_nil, insertAll]
          rw [hset, modify_eq_set hcall]

/-- What the end of a call does. -/
theorem finishCall_eq {S S' : EnclaveCalls τ} {i : ℕ} {ret : InvokeReturn τ σ}
    (h : finishCall E S i = some (S', ret)) :
    S.calls[i]? = some ret.call ∧ ret.call.active = true ∧
      S'.calls = S.calls.set i ret.call.ended ∧
      ((ret.call.program = .done none ∧ S'.context = S.context ∧ ret.left = S.context[ret.call.ctx]? ∧
          ret.hashed = none ∧ ret.result = .chaincodeError) ∨
        ∃ response, ret.call.program = .done (some response) ∧ S'.context = S.context.erase ret.call.ctx ∧
          ret.left = none ∧ ret.hashed = some (ret.call.session.readSet, ret.call.session.writeSet) ∧
          ret.result = match E.ecdsaSign (E.sha256 (invokeMessage ret.call.args response ret.call.session)) with
            | none => .signingError
            | some signature => .success response signature) := by
  obtain ⟨call, hcall, h⟩ := Option.bind_eq_some_iff.mp h
  dsimp only at h
  cases hp : call.program with
  | fault =>
    rw [hp] at h
    cases h
  | call c next =>
    rw [hp] at h
    cases h
  | done r =>
    rw [hp] at h
    cases r with
    | none =>
      dsimp only at h
      split_ifs at h with hactive
      cases h
      exact ⟨hcall, hactive, rfl, Or.inl ⟨hp, rfl, rfl, rfl, rfl⟩⟩
    | some response =>
      dsimp only at h
      split_ifs at h with hactive
      cases h
      refine ⟨hcall, hactive, rfl, Or.inr ⟨response, hp, rfl, ?_, rfl, rfl⟩⟩
      exact ExtTreeMap.getElem?_erase_self

theorem contextInv_noInvocations : ContextInv E invoke (noInvocations : EnclaveCalls τ) where
  entry _ _ h := by cases h
  distinct _ _ _ _ h := by cases h
  owner _ _ h := by simp [noInvocations] at h
  traced _ _ h := by cases h
  resumes _ _ h := by cases h

theorem ContextInv.enter {S S' : EnclaveCalls τ} {ctx : ℕ} {host : Host τ} {args pk : Bytes}
    {responseLenIn : ℕ} (hi : ContextInv E invoke S)
    (h : enterCall E invoke S ctx host args pk responseLenIn = some S') : ContextInv E invoke S' := by
  rw [enterCall] at h
  split_ifs at h with hused
  cases h
  have hnew (i : ℕ) (call : InvokeCall τ) (hcall : S.calls[i]? = some call) (hactive : call.active = true) :
      call.ctx ≠ ctx := by
    intro he
    apply hused
    rw [List.any_eq_true]
    exact ⟨call, List.mem_of_getElem? hcall, by rw [hactive, he, BEq.rfl]; rfl⟩
  have hcontext (x : ℕ) : (S.context.insertIfNew ctx S.calls.length)[x]? =
      (S.context[x]?).or (if ctx = x then some S.calls.length else none) := by
    rw [getElem?_insertIfNew_or]
    simp only [beq_iff_eq]
  constructor
  · intro i call hcall hactive
    dsimp only
    rw [hcontext]
    rcases getElem?_snoc hcall with hcall | ⟨-, rfl⟩
    · obtain ⟨j, hj⟩ := hi.entry i call hcall hactive
      exact ⟨j, by rw [hj]; rfl⟩
    · -- a new entry, or an old one for the same pointer
      cases S.context[ctx]? with
      | none => exact ⟨S.calls.length, by simp⟩
      | some j => exact ⟨j, rfl⟩
  · intro i j call call' hcall hcall' hactive hactive' he
    rcases getElem?_snoc hcall with hcall | ⟨rfl, rfl⟩
    · rcases getElem?_snoc hcall' with hcall' | ⟨rfl, rfl⟩
      · exact hi.distinct i j call call' hcall hcall' hactive hactive' he
      · exact absurd he (hnew i call hcall hactive)
    · rcases getElem?_snoc hcall' with hcall' | ⟨rfl, rfl⟩
      · exact absurd he.symm (hnew j call' hcall' hactive')
      · rfl
  · intro x j hx
    dsimp only at hx ⊢
    rw [hcontext] at hx
    cases hold : S.context[x]? with
    | some k =>
      rw [hold] at hx
      cases hx
      obtain ⟨call, hcall, hctx⟩ := hi.owner x j hold
      exact ⟨call, by grind, hctx⟩
    | none =>
      rw [hold, Option.none_or] at hx
      split_ifs at hx with he
      cases hx
      exact ⟨_, List.getElem?_concat_length, he⟩
  · intro i call hcall
    rcases getElem?_snoc hcall with hcall | ⟨-, rfl⟩
    · exact hi.traced i call hcall
    · exact traced_freshSession E host
  · intro i call hcall
    rcases getElem?_snoc hcall with hcall | ⟨-, rfl⟩
    · exact hi.resumes i call hcall
    · rfl

theorem ContextInv.shim {S S' : EnclaveCalls τ} {i : ℕ} (hi : ContextInv E invoke S)
    (h : shimCall E S i = some S') : ContextInv E invoke S' := by
  obtain ⟨call, c, next, a, t, hcall, hactive, hp, hs, rfl⟩ := shimCall_eq hi h
  constructor
  · intro j call' hj hactive'
    rcases getElem?_set_cases hj with ⟨rfl, rfl⟩ | ⟨-, hj⟩
    · exact hi.entry j call hcall hactive
    · exact hi.entry j call' hj hactive'
  · intro j k call' call'' hj hk hactive' hactive'' he
    rcases getElem?_set_cases hj with ⟨rfl, rfl⟩ | ⟨-, hold⟩
    · rcases getElem?_set_cases hk with ⟨rfl, rfl⟩ | ⟨-, hold'⟩
      · rfl
      · exact hi.distinct j k call call'' hcall hold' hactive hactive'' he
    · rcases getElem?_set_cases hk with ⟨rfl, rfl⟩ | ⟨-, hold'⟩
      · exact hi.distinct j k call' call hold hcall hactive' hactive he
      · exact hi.distinct j k call' call'' hold hold' hactive' hactive'' he
  · intro x j hx
    obtain ⟨call', hj, hctx⟩ := hi.owner x j hx
    by_cases he : i = j
    · subst he
      obtain rfl : call = call' := Option.some.inj (hcall.symm.trans hj)
      exact ⟨_, List.getElem?_set_self (List.getElem?_eq_some_iff.mp hcall).1, hctx⟩
    · exact ⟨call', by rw [List.getElem?_set_ne he]; exact hj, hctx⟩
  · intro j call' hj
    rcases getElem?_set_cases hj with ⟨rfl, rfl⟩ | ⟨-, hj⟩
    · exact (hi.traced j call hcall).step E call.host hs
    · exact hi.traced j call' hj
  · intro j call' hj
    rcases getElem?_set_cases hj with ⟨rfl, rfl⟩ | ⟨-, hj⟩
    · have hrun := hi.resumes j call hcall
      rw [hp, Program.run, hs] at hrun
      exact hrun
    · exact hi.resumes j call' hj

theorem ContextInv.finish {S S' : EnclaveCalls τ} {i : ℕ} {ret : InvokeReturn τ σ} (hi : ContextInv E invoke S)
    (h : finishCall E S i = some (S', ret)) : ContextInv E invoke S' := by
  obtain ⟨hcall, hactive, hcalls, hend⟩ := finishCall_eq h
  have hcontext (x j : ℕ) (hx : S'.context[x]? = some j) : S.context[x]? = some j := by
    rcases hend with ⟨-, hsame, -⟩ | ⟨response, -, herase, -⟩
    · rw [hsame] at hx
      exact hx
    · rw [herase, ExtTreeMap.getElem?_erase] at hx
      split_ifs at hx
      exact hx
  have hother (x j : ℕ) (hx : S.context[x]? = some j) (hne : x ≠ ret.call.ctx) : S'.context[x]? = some j := by
    rcases hend with ⟨-, hsame, -⟩ | ⟨response, -, herase, -⟩
    · rw [hsame]
      exact hx
    · rw [herase, ExtTreeMap.getElem?_erase, if_neg]
      · exact hx
      · rw [LawfulEqCmp.compare_eq_iff_eq]
        exact hne.symm
  -- an active call is another one, which has not changed
  have hkept (j : ℕ) (call : InvokeCall τ) (hj : S'.calls[j]? = some call) (ha : call.active = true) :
      j ≠ i ∧ S.calls[j]? = some call := by
    rw [hcalls] at hj
    rcases getElem?_set_cases hj with ⟨-, rfl⟩ | ⟨hne, hj⟩
    · cases ha
    · exact ⟨hne, hj⟩
  constructor
  · intro j call hj ha
    obtain ⟨hne, hj⟩ := hkept j call hj ha
    obtain ⟨k, hk⟩ := hi.entry j call hj ha
    refine ⟨k, hother _ k hk ?_⟩
    intro he
    exact hne (hi.distinct j i call ret.call hj hcall ha hactive he)
  · intro j k call call' hj hk ha ha' he
    exact hi.distinct j k call call' (hkept j call hj ha).2 (hkept k call' hk ha').2 ha ha' he
  · intro x j hx
    obtain ⟨call, hj, hctx⟩ := hi.owner x j (hcontext x j hx)
    rw [hcalls]
    by_cases he : i = j
    · subst he
      obtain rfl : ret.call = call := Option.some.inj (hcall.symm.trans hj)
      exact ⟨_, List.getElem?_set_self (List.getElem?_eq_some_iff.mp hcall).1, hctx⟩
    · exact ⟨call, by rw [List.getElem?_set_ne he]; exact hj, hctx⟩
  · intro j call hj
    rw [hcalls] at hj
    rcases getElem?_set_cases hj with ⟨rfl, rfl⟩ | ⟨-, hj⟩
    · exact hi.traced j ret.call hcall
    · exact hi.traced j call hj
  · intro j call hj
    rw [hcalls] at hj
    rcases getElem?_set_cases hj with ⟨rfl, rfl⟩ | ⟨-, hj⟩
    · exact hi.resumes j ret.call hcall
    · exact hi.resumes j call hj

/-- Step lemma. -/
theorem ContextInv.step {S S' : EnclaveCalls τ} {a : InvokeAction τ} {o : Option (InvokeReturn τ σ)}
    (hi : ContextInv E invoke S) (h : S.step E invoke a = some (S', o)) : ContextInv E invoke S' := by
  cases a with
  | enter ctx host args pk responseLenIn =>
    obtain ⟨S'', hS, he⟩ := Option.map_eq_some_iff.mp h
    cases he
    exact hi.enter hS
  | shim i =>
    obtain ⟨S'', hS, he⟩ := Option.map_eq_some_iff.mp h
    cases he
    exact hi.shim hS
  | finish i =>
    obtain ⟨⟨S'', ret⟩, hS, he⟩ := Option.map_eq_some_iff.mp h
    cases he
    exact hi.finish hS

/-- Every return is the end of a call, from a state in which the invariant holds. -/
theorem mem_returns {actions : List (InvokeAction τ)} {S : EnclaveCalls τ}
    {answers : List (Option (InvokeReturn τ σ))}
    (h : exec (EnclaveCalls.step E invoke) noInvocations actions = some (S, answers)) {ret : InvokeReturn τ σ}
    (hret : some ret ∈ answers) :
    ∃ (S₀ S₁ : EnclaveCalls τ) (i : ℕ), ContextInv E invoke S₀ ∧ finishCall E S₀ i = some (S₁, ret) := by
  have hrun : ContextInv E invoke S ∧ ∀ ret, some ret ∈ answers →
      ∃ (S₀ S₁ : EnclaveCalls τ) (i : ℕ), ContextInv E invoke S₀ ∧ finishCall E S₀ i = some (S₁, ret) := by
    apply exec_invariant (EnclaveCalls.step E invoke) (fun _ os t => ContextInv E invoke t ∧
      ∀ ret, some ret ∈ os →
        ∃ (S₀ S₁ : EnclaveCalls τ) (i : ℕ), ContextInv E invoke S₀ ∧ finishCall E S₀ i = some (S₁, ret)) _ _ h
    · exact ⟨contextInv_noInvocations, fun _ hmem => by cases hmem⟩
    · intro is os t a t' o _ ⟨hi, hos⟩ hs
      refine ⟨hi.step hs, ?_⟩
      intro ret hmem
      rcases List.mem_append.mp hmem with hmem | hmem
      · exact hos ret hmem
      · obtain rfl := List.mem_singleton.mp hmem
        cases a with
        | enter ctx host args pk responseLenIn =>
          obtain ⟨_, _, he⟩ := Option.map_eq_some_iff.mp hs
          cases he
        | shim i =>
          obtain ⟨_, _, he⟩ := Option.map_eq_some_iff.mp hs
          cases he
        | finish i =>
          obtain ⟨⟨t'', ret'⟩, hfin, he⟩ := Option.map_eq_some_iff.mp hs
          cases he
          exact ⟨t, _, i, hi, hfin⟩
  exact hrun.2 ret hret

/-- Whatever runs beside it, a call that returns has done what it does alone. -/
theorem returned_as_alone {actions : List (InvokeAction τ)} {S : EnclaveCalls τ}
    {answers : List (Option (InvokeReturn τ σ))}
    (h : exec (EnclaveCalls.step E invoke) noInvocations actions = some (S, answers)) {ret : InvokeReturn τ σ}
    (hret : some ret ∈ answers) :
    ecallInvoke E invoke ret.call.host ret.call.args ret.call.pk ret.call.responseLenIn =
      some ret.result.outcome := by
  obtain ⟨S₀, S₁, i, hi, hfin⟩ := mem_returns h hret
  obtain ⟨hcall, -, -, hend⟩ := finishCall_eq hfin
  have hrun := hi.resumes i ret.call hcall
  rw [InvokeCall.alone] at hrun
  rcases hend with ⟨hp, -, -, -, hresult⟩ | ⟨response, hp, -, -, -, hresult⟩
  · rw [hp, Program.run] at hrun
    rw [ecallInvoke, ← hrun, hresult]
    rfl
  · rw [hp, Program.run] at hrun
    rw [ecallInvoke, ← hrun, hresult]
    dsimp only
    cases E.ecdsaSign (E.sha256 (invokeMessage ret.call.args response ret.call.session)) <;> rfl

/-- The contexts of all calls are cleaned up, and what each of them hashes is its own, exactly
when none of them returns an error of its chaincode: such a call leaves its entry behind. -/
theorem contexts_isolated_iff (E : Enclave η τ σ) (invoke : ChaincodeEntry) (actions : List (InvokeAction τ))
    (S : EnclaveCalls τ) (answers : List (Option (InvokeReturn τ σ)))
    (h : exec (EnclaveCalls.step E invoke) noInvocations actions = some (S, answers)) :
    (∀ ret, some ret ∈ answers → ret.left = none ∧
        ∀ sets, ret.hashed = some sets → sets = recordedSets E ret.call.session.trace) ↔
      ∀ ret, some ret ∈ answers → ret.result.isError = false := by
  constructor
  · intro hisolated ret hret
    obtain ⟨S₀, S₁, i, hi, hfin⟩ := mem_returns h hret
    obtain ⟨hcall, hactive, -, hend⟩ := finishCall_eq hfin
    rcases hend with ⟨-, -, hleft, -, -⟩ | ⟨response, -, -, -, -, hresult⟩
    · obtain ⟨j, hj⟩ := hi.entry i ret.call hcall hactive
      rw [(hisolated ret hret).1, hj] at hleft
      cases hleft
    · rw [hresult]
      cases E.ecdsaSign (E.sha256 (invokeMessage ret.call.args response ret.call.session)) <;> rfl
  · intro hok ret hret
    have hno := hok ret hret
    obtain ⟨S₀, S₁, i, hi, hfin⟩ := mem_returns h hret
    obtain ⟨hcall, -, -, hend⟩ := finishCall_eq hfin
    rcases hend with ⟨-, -, -, -, hresult⟩ | ⟨response, -, -, hleft, hhashed, -⟩
    · rw [hresult] at hno
      cases hno
    · refine ⟨hleft, ?_⟩
      intro sets hsets
      have htraced := hi.traced i ret.call hcall
      rw [hhashed] at hsets
      rw [← Option.some.inj hsets, recordedSets, ← htraced.readSet, ← htraced.writeSet]

end

/-- Two auctions are created at the same time. -/
def createBoth : List (InvokeAction Bool) :=
  [.enter 5 denyingHost (str "[\"create\",\"a\"]") [] 1024,
    .enter 7 denyingHost (str "[\"create\",\"b\"]") [] 1024,
    .shim 0, .shim 1, .shim 1, .shim 0, .finish 0, .finish 1]

def auctionCalls : EnclaveCalls Bool → InvokeAction Bool → Option (EnclaveCalls Bool × Option (InvokeReturn Bool Unit)) :=
  EnclaveCalls.step frankEnclave (auctionInvoke signedLibc 0)

theorem create_both_isolated :
    ∃ S answers, exec auctionCalls noInvocations createBoth = some (S, answers) ∧
      ∀ ret, some ret ∈ answers → ret.left = none ∧
        ∀ sets, ret.hashed = some sets → sets = recordedSets frankEnclave ret.call.session.trace := by
  have hresults : (exec auctionCalls noInvocations createBoth).map
      (fun r => r.2.all (fun o => o.all (fun ret => !ret.result.isError))) = some true := by
    decide +kernel
  obtain ⟨⟨S, answers⟩, hrun, hall⟩ := Option.map_eq_some_iff.mp hresults
  refine ⟨S, answers, hrun, (contexts_isolated_iff frankEnclave _ createBoth S answers hrun).mpr ?_⟩
  intro ret hret
  simpa using List.all_eq_true.mp hall (some ret) hret

/-- A call whose arguments cannot be decrypted, and one that reuses its pointer. -/
def failedCall : List (InvokeAction Bool) :=
  [.enter 5 denyingHost [] (List.replicate 88 0x41) 1024, .finish 0,
    .enter 5 denyingHost (str "[\"create\",\"a\"]") [] 1024]

/-- The entry of the first call stays, and the second finds the sets of a stack that is gone. -/
theorem failed_call_leaves_context :
    ∃ S answers ret, exec auctionCalls noInvocations failedCall = some (S, answers) ∧ some ret ∈ answers ∧
      ret.result.isError = true ∧ ret.left = some 0 ∧ S.context[5]? = some 0 ∧
      (auctionCalls S (.shim 1)).isNone := by
  have hfacts : (exec auctionCalls noInvocations failedCall).map (fun r =>
      (r.2.any (fun o => o.any (fun ret => ret.result.isError && (ret.left == some 0))),
        r.1.context[5]?, (auctionCalls r.1 (.shim 1)).isNone)) = some (true, some 0, true) := by
    decide +kernel
  obtain ⟨⟨S, answers⟩, hrun, hrest⟩ := Option.map_eq_some_iff.mp hfacts
  rw [Prod.mk.injEq, Prod.mk.injEq] at hrest
  obtain ⟨o, ho, hret⟩ := List.any_eq_true.mp hrest.1
  cases o with
  | none => cases hret
  | some ret =>
    rw [Option.any_some, Bool.and_eq_true, beq_iff_eq] at hret
    exact ⟨S, answers, ret, hrun, ho, hret.1, hret.2, hrest.2⟩

end SecureChaincode
