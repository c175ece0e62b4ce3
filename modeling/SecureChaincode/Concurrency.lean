import SecureChaincode.CertStores
import SecureChaincode.Chain
import SecureChaincode.LedgerQueries

/-! Calls of the ledger enclave that run at the same time. The sequence check of
`parse_block` is outside the lock and the lock is given back between two envelopes, so the
steps of several calls mix; a commit that gets past its assertion has still seen one state. -/
namespace SecureChaincode

open Std (ExtTreeMap)

/-- What the enclave does in one step when nothing else runs: a whole block is committed,
or a query is answered. -/
inductive LedgerCall
  | nextBlock (block : Block)
  | getStateHash (key : Bytes)
  | getMultiStateHash (compKey : Bytes)

inductive LedgerReply (η : Type)
  | committed
  | stateHash (hash : Option η)
  | multiStateHash (hash : η)

section
variable {η : Type} (libs : Libs) (sha256 : Bytes → η)

def ledgerStep (L : Ledger) : LedgerCall → Option (Ledger × LedgerReply η)
  | .nextBlock block =>
    match parseBlock libs L (encode block) with
    | some (L', .success) => some (L', .committed)
    | _ => none
  | .getStateHash key => some (L, .stateHash (ledgerGetStateHash sha256 L.state key))
  | .getMultiStateHash compKey =>
    some (L, .multiStateHash (ledgerGetMultiStateHash sha256 L.state compKey))

/-- A call of `parse_block` between its sequence check and its commit. -/
structure OpenCall where
  block : Block
  txFilter : Bytes
  pending : List (Encoded Envelope × ℕ)
  updates : Kvs

structure System where
  ledger : Ledger
  calls : List OpenCall

/-- The steps of the calls; an open call is named by its place in the list. -/
inductive Action
  | check (blockData : Encoded Block)
  | envelope (i : ℕ)
  | commit (i : ℕ)
  | getStateHash (key : Bytes)
  | getMultiStateHash (compKey : Bytes)

/-- One round of the loop of an open call. The headers are unwrapped before the lock is
taken, from memory of the call's own; the rest is done under the lock. -/
def envelopeStep (S : System) (i : ℕ) (call : OpenCall) : Option System :=
  match call.pending with
  | [] => none
  | e :: es =>
    match processEnvelope libs S.ledger.state call.block.number call.txFilter
        ⟨call.updates, S.ledger.rootCerts⟩ e with
    | .ok s =>
      some ⟨{ S.ledger with rootCerts := s.rootCerts },
        S.calls.set i { call with pending := es, updates := s.updates }⟩
    | .error (.decoding, s) =>
      -- the call returns LEDGER_ERROR_DECODING
      some ⟨{ S.ledger with rootCerts := s.rootCerts }, S.calls.eraseIdx i⟩
    | .error (.fault, _) => none

/-- The sequence check of a new call and what it does with the metadata, which is its own.
A block that is rejected here leaves nothing behind. -/
def checkStep (S : System) (blockData : Encoded Block) : Option System :=
  match blockData.decoded with
  | none => some S
  | some block =>
    if UInt32.ofNat block.number = S.ledger.sequenceNumber + 1 then
      match blockMetadata block with
      | .error .decoding => some S
      | .error .fault => none
      | .ok txFilter => some { S with calls := S.calls ++ [⟨block, txFilter, block.data.zipIdx, ∅⟩] }
    else some S

/-- The assertion in `commit_state_updates` compares with the counter of this moment. -/
def commitStep (S : System) (i : ℕ) (call : OpenCall) : Option System :=
  if call.pending.isEmpty then
    (commitStateUpdates S.ledger call.updates (UInt32.ofNat call.block.number)).map
      (fun L => ⟨L, S.calls.eraseIdx i⟩)
  else none

/-- One step, with the call that takes effect in it, if any, and its reply. `none` when the
enclave aborts, or the step is not the next one of an open call. -/
def System.step (S : System) : Action → Option (System × Option (LedgerCall × LedgerReply η))
  | .check blockData => (checkStep S blockData).map (fun S' => (S', none))
  | .envelope i => do
    let call ← S.calls[i]?
    let S' ← envelopeStep libs S i call
    return (S', none)
  | .commit i => do
    let call ← S.calls[i]?
    let S' ← commitStep S i call
    return (S', some (.nextBlock call.block, .committed))
  | .getStateHash key =>
    some (S, some (.getStateHash key, .stateHash (ledgerGetStateHash sha256 S.ledger.state key)))
  | .getMultiStateHash compKey =>
    some (S, some (.getMultiStateHash compKey,
      .multiStateHash (ledgerGetMultiStateHash sha256 S.ledger.state compKey)))

/-- A run of the calls in some interleaving, up to some moment before the first abort. -/
def interleave (actions : List Action) :
    Option (System × List (Option (LedgerCall × LedgerReply η))) :=
  exec (System.step libs sha256) ⟨start, []⟩ actions

end

def LedgerCall.block? : LedgerCall → Option Block
  | .nextBlock block => some block
  | .getStateHash _ => none
  | .getMultiStateHash _ => none

/-- The blocks that were committed, in order. -/
def committed {η : Type} (history : List (LedgerCall × LedgerReply η)) : List Block :=
  history.filterMap (fun x => x.1.block?)

section
variable {η : Type} {libs : Libs} {sha256 : Bytes → η}

theorem committed_append (history history' : List (LedgerCall × LedgerReply η)) :
    committed (history ++ history') = committed history ++ committed history' :=
  List.filterMap_append

/-- A whole call is a block that is committed, or a query, which leaves the ledger alone. -/
theorem ledgerStep_cases {L L' : Ledger} {call : LedgerCall} {reply : LedgerReply η}
    (h : ledgerStep libs sha256 L call = some (L', reply)) :
    (∃ block, call = .nextBlock block ∧
        parseBlock libs L (encode block) = some (L', .success)) ∨
      (call.block? = none ∧ L' = L) := by
  cases call with
  | nextBlock block =>
    rw [ledgerStep] at h
    split at h
    · next M hp =>
      cases h
      exact Or.inl ⟨block, rfl, hp⟩
    · cases h
  | getStateHash key =>
    cases h
    exact Or.inr ⟨rfl, rfl⟩
  | getMultiStateHash compKey =>
    cases h
    exact Or.inr ⟨rfl, rfl⟩

/-- A sequence of whole calls without the queries is a run of `parse_block`. -/
theorem run_of_ledgerSteps {history : List (LedgerCall × LedgerReply η)} {L : Ledger}
    {replies : List (LedgerReply η)}
    (h : exec (ledgerStep libs sha256) start (history.map Prod.fst) = some (L, replies)) :
    run libs ((committed history).map encode) =
      some (L, List.replicate (committed history).length .success) := by
  induction history using List.reverseRecOn generalizing L replies with
  | nil =>
    cases h
    rfl
  | append_singleton history x ih =>
    rw [List.map_append, List.map_singleton] at h
    obtain ⟨M, os, M', o, hM, hstep, hr⟩ := (exec_snoc_eq_some _).mp h
    cases hr
    have hrun := ih hM
    rw [committed_append]
    rcases ledgerStep_cases hstep with ⟨block, hcall, hp⟩ | ⟨hcall, rfl⟩
    · have hblock : committed [x] = [block] := by simp [committed, hcall, LedgerCall.block?]
      rw [hblock, List.map_append, List.map_singleton, List.length_append, List.length_singleton,
        List.replicate_succ']
      exact (exec_snoc_eq_some _).mpr ⟨M, _, L, .success, hrun, hp, rfl⟩
    · have hblock : committed [x] = [] := by simp [committed, hcall]
      rw [hblock, List.append_nil]
      exact hrun

/-- The envelopes that the call is done with have been processed as they would be on this
state alone, over whatever certificates. -/
def Saw (libs : Libs) (state : Kvs) (call : OpenCall) : Prop :=
  ∃ done, call.block.data.zipIdx = done ++ call.pending ∧
    ∀ certs, HasStores certs → ∃ certs', HasStores certs' ∧
      done.foldlM (processEnvelope libs state call.block.number call.txFilter) ⟨∅, certs⟩ =
        .ok ⟨call.updates, certs'⟩

/-- An open call when `n` blocks have been committed: it passed its check after some number
of commits, and if there was none since then, it has only seen the state as it is now. -/
def OpenCall.Valid (libs : Libs) (state : Kvs) (n : ℕ) (call : OpenCall) : Prop :=
  blockMetadata call.block = .ok call.txFilter ∧
    ∃ c ≤ n, UInt32.ofNat call.block.number = UInt32.ofNat c ∧ (c = n → Saw libs state call)

/-- The calls that took effect, one after the other, lead to the same state and counter. -/
structure Linearised (libs : Libs) (sha256 : Bytes → η) (S : System)
    (history : List (LedgerCall × LedgerReply η)) : Prop where
  replay : ∃ L, exec (ledgerStep libs sha256) start (history.map Prod.fst) =
      some (L, history.map Prod.snd) ∧
    L.state = S.ledger.state ∧ L.sequenceNumber = S.ledger.sequenceNumber ∧ HasStores L.rootCerts
  stores : HasStores S.ledger.rootCerts
  counter : S.ledger.sequenceNumber + 1 = UInt32.ofNat (committed history).length
  numbers : (committed history).map (fun b => UInt32.ofNat b.number) =
    (List.range (committed history).length).map UInt32.ofNat
  calls : ∀ call ∈ S.calls, call.Valid libs S.ledger.state (committed history).length

theorem ofNat_inj_of_lt {a b : ℕ} (ha : a < 2^32) (hb : b < 2^32)
    (h : UInt32.ofNat a = UInt32.ofNat b) : a = b := by
  have he := congrArg UInt32.toNat h
  rw [UInt32.toNat_ofNat', UInt32.toNat_ofNat'] at he
  omega

theorem linearised_start : Linearised libs sha256 ⟨start, []⟩ [] := by
  have hstores : HasStores start.rootCerts := ⟨rfl, rfl⟩
  have hcounter : start.sequenceNumber + 1 = UInt32.ofNat 0 := by decide
  exact ⟨⟨start, rfl, rfl, rfl, hstores⟩, hstores, hcounter, rfl, fun _ h => absurd h List.not_mem_nil⟩

/-- Step lemma for the check: a call that gets past it has seen nothing yet. -/
theorem Linearised.check {S S' : System} {history : List (LedgerCall × LedgerReply η)}
    {blockData : Encoded Block} (hi : Linearised libs sha256 S history)
    (h : checkStep S blockData = some S') : Linearised libs sha256 S' history := by
  rw [checkStep] at h
  cases hb : blockData.decoded with
  | none =>
    rw [hb] at h
    cases h
    exact hi
  | some block =>
    rw [hb] at h
    simp only at h
    by_cases hseq : UInt32.ofNat block.number = S.ledger.sequenceNumber + 1
    · rw [if_pos hseq] at h
      cases hm : blockMetadata block with
      | error x =>
        rw [hm] at h
        cases x with
        | fault => cases h
        | decoding =>
          cases h
          exact hi
      | ok txFilter =>
        rw [hm] at h
        cases h
        refine ⟨hi.replay, hi.stores, hi.counter, hi.numbers, ?_⟩
        intro call hcall
        rcases List.mem_append.mp hcall with hcall | hcall
        · exact hi.calls call hcall
        · rw [List.mem_singleton.mp hcall]
          refine ⟨hm, _, le_rfl, hseq.trans hi.counter, fun _ => ⟨[], rfl, ?_⟩⟩
          intro certs hc
          exact ⟨certs, hc, rfl⟩
    · rw [if_neg hseq] at h
      cases h
      exact hi

/-- The part of the step lemma for an envelope that is about the call itself. -/
theorem Saw.envelope {state : Kvs} {call : OpenCall} {e : Encoded Envelope × ℕ}
    {es : List (Encoded Envelope × ℕ)} {certs : RootCerts} {s : BlockPhase}
    (h : Saw libs state call) (hp : call.pending = e :: es) (hc : HasStores certs)
    (he : processEnvelope libs state call.block.number call.txFilter ⟨call.updates, certs⟩ e =
      .ok s) :
    Saw libs state { call with pending := es, updates := s.updates } := by
  obtain ⟨done, hdone, hfold⟩ := h
  refine ⟨done ++ [e], ?_, ?_⟩
  · rw [hdone, hp, List.append_assoc, List.singleton_append]
  · intro certs₀ h₀
    obtain ⟨certs', hc', hd⟩ := hfold certs₀ h₀
    -- the same envelope over the stores of the call on its own
    obtain ⟨d, hds, hs⟩ := processEnvelope_of_stores he hc hc'
    refine ⟨d, hds, ?_⟩
    rw [List.foldlM_append, hd]
    change [e].foldlM (processEnvelope libs state call.block.number call.txFilter) _ = _
    rw [List.foldlM_cons, hs]
    rfl

theorem Linearised.envelope {S S' : System} {history : List (LedgerCall × LedgerReply η)} {i : ℕ}
    {call : OpenCall} (hi : Linearised libs sha256 S history) (hcall : S.calls[i]? = some call)
    (h : envelopeStep libs S i call = some S') : Linearised libs sha256 S' history := by
  obtain ⟨hmeta, c, hcn, hnumber, hsaw⟩ := hi.calls call (List.mem_of_getElem? hcall)
  rw [envelopeStep] at h
  cases hp : call.pending with
  | nil =>
    rw [hp] at h
    cases h
  | cons e es =>
    rw [hp] at h
    simp only at h
    cases he : processEnvelope libs S.ledger.state call.block.number call.txFilter
        ⟨call.updates, S.ledger.rootCerts⟩ e with
    | ok s =>
      rw [he] at h
      cases h
      refine ⟨hi.replay, processEnvelope_hasStores hi.stores (Or.inl he), hi.counter, hi.numbers, ?_⟩
      intro call' hcall'
      rcases List.mem_or_eq_of_mem_set hcall' with hcall' | rfl
      · exact hi.calls call' hcall'
      · exact ⟨hmeta, c, hcn, hnumber, fun hc => (hsaw hc).envelope hp hi.stores he⟩
    | error x =>
      obtain ⟨x, s⟩ := x
      rw [he] at h
      cases x with
      | fault => cases h
      | decoding =>
        cases h
        exact ⟨hi.replay, processEnvelope_hasStores hi.stores (Or.inr ⟨_, he⟩), hi.counter,
          hi.numbers, fun call' hcall' => hi.calls call' (List.mem_of_mem_eraseIdx hcall')⟩

/-- A call that is through with its envelopes and saw one state commits what `parse_block`
commits on that state. -/
theorem parseBlock_of_saw {L : Ledger} {call : OpenCall} (hL : HasStores L.rootCerts)
    (hsaw : Saw libs L.state call) (hp : call.pending = [])
    (hmeta : blockMetadata call.block = .ok call.txFilter)
    (hn : UInt32.ofNat call.block.number = L.sequenceNumber + 1) :
    ∃ certs, HasStores certs ∧ parseBlock libs L (encode call.block) =
      some (⟨assignAll L.state call.updates, UInt32.ofNat call.block.number, certs⟩, .success) := by
  obtain ⟨done, hdone, hfold⟩ := hsaw
  obtain ⟨certs, hc, hd⟩ := hfold L.rootCerts hL
  rw [hp, List.append_nil] at hdone
  refine ⟨certs, hc, ?_⟩
  rw [parseBlock]
  simp only [encode, if_pos hn, hmeta, hdone, hd, commitStateUpdates, Option.map_some]

/-- Step lemma for the commit. The assertion holds, so that no block has been committed
since the check of this call: the counter would have to have come round. -/
theorem Linearised.commit {S S' : System} {history : List (LedgerCall × LedgerReply η)} {i : ℕ}
    {call : OpenCall} (hi : Linearised libs sha256 S history) (hcall : S.calls[i]? = some call)
    (h : commitStep S i call = some S') (hl : (committed history).length < 2^32) :
    Linearised libs sha256 S' (history ++ [(.nextBlock call.block, .committed)]) := by
  obtain ⟨hmeta, c, hcn, hnumber, hsaw⟩ := hi.calls call (List.mem_of_getElem? hcall)
  obtain ⟨L, hreplay, hstate, hseq, hstores⟩ := hi.replay
  rw [commitStep] at h
  by_cases hp : call.pending.isEmpty
  · rw [if_pos hp, commitStateUpdates] at h
    by_cases hassert : UInt32.ofNat call.block.number = S.ledger.sequenceNumber + 1
    · rw [if_pos hassert] at h
      cases h
      have hc : c = (committed history).length := by
        apply ofNat_inj_of_lt (by omega) hl
        calc UInt32.ofNat c = UInt32.ofNat call.block.number := hnumber.symm
          _ = S.ledger.sequenceNumber + 1 := hassert
          _ = UInt32.ofNat (committed history).length := hi.counter
      have hsawL : Saw libs L.state call := by
        rw [hstate]
        exact hsaw hc
      obtain ⟨certs, hcerts, hparse⟩ := parseBlock_of_saw hstores hsawL (List.isEmpty_iff.mp hp)
        hmeta (by rw [hassert, hseq])
      have hcommitted : committed (history ++ [(.nextBlock call.block, (.committed : LedgerReply η))]) =
          committed history ++ [call.block] := committed_append _ _
      have hL : ledgerStep libs sha256 L (.nextBlock call.block) = some (⟨assignAll L.state
          call.updates, UInt32.ofNat call.block.number, certs⟩, .committed) := by
        rw [ledgerStep, hparse]
      refine ⟨⟨⟨assignAll L.state call.updates, _, certs⟩, ?_, by rw [hstate], rfl, hcerts⟩,
        hi.stores, ?_, ?_, ?_⟩
      · rw [List.map_append, List.map_append]
        exact (exec_snoc_eq_some _).mpr ⟨L, _, _, _, hreplay, hL, rfl⟩
      · rw [hcommitted, List.length_append, List.length_singleton, UInt32.ofNat_add, ← hi.counter,
          ← hassert]
        rfl
      · rw [hcommitted, List.map_append, hi.numbers, List.length_append, List.length_singleton,
          List.range_succ, List.map_append, List.map_singleton, List.map_singleton, hassert,
          hi.counter]
      · intro call' hcall'
        -- every other open call is one commit behind from now on
        obtain ⟨hmeta', c', hcn', hnumber', -⟩ := hi.calls call' (List.mem_of_mem_eraseIdx hcall')
        rw [hcommitted, List.length_append, List.length_singleton]
        exact ⟨hmeta', c', by omega, hnumber', fun hc' => by omega⟩
    · rw [if_neg hassert] at h
      cases h
  · rw [if_neg hp] at h
    cases h

/-- Step lemma for the queries. -/
theorem Linearised.query {S : System} {history : List (LedgerCall × LedgerReply η)}
    {call : LedgerCall} {reply : LedgerReply η} (hi : Linearised libs sha256 S history)
    (hb : call.block? = none)
    (h : ∀ L, L.state = S.ledger.state → ledgerStep libs sha256 L call = some (L, reply)) :
    Linearised libs sha256 S (history ++ [(call, reply)]) := by
  have hcommitted : committed (history ++ [(call, reply)]) = committed history := by
    rw [committed_append]
    simp [committed, hb]
  obtain ⟨L, hreplay, hstate, hrest⟩ := hi.replay
  refine ⟨⟨L, ?_, hstate, hrest⟩, hi.stores, ?_, ?_, ?_⟩
  · rw [List.map_append, List.map_append]
    exact (exec_snoc_eq_some _).mpr ⟨L, _, L, reply, hreplay, h L hstate, rfl⟩
  · rw [hcommitted]
    exact hi.counter
  · rw [hcommitted]
    exact hi.numbers
  · rw [hcommitted]
    exact hi.calls

theorem Linearised.step {S S' : System} {history : List (LedgerCall × LedgerReply η)} {a : Action}
    {o : Option (LedgerCall × LedgerReply η)} (hi : Linearised libs sha256 S history)
    (h : System.step libs sha256 S a = some (S', o)) (hl : (committed history).length < 2^32) :
    Linearised libs sha256 S' (history ++ o.toList) := by
  cases a with
  | check blockData =>
    obtain ⟨T, hT, hr⟩ := Option.map_eq_some_iff.mp h
    cases hr
    simpa using hi.check hT
  | envelope i =>
    obtain ⟨call, hcall, h⟩ := Option.bind_eq_some_iff.mp h
    obtain ⟨T, hT, hr⟩ := Option.bind_eq_some_iff.mp h
    cases hr
    simpa using hi.envelope hcall hT
  | commit i =>
    obtain ⟨call, hcall, h⟩ := Option.bind_eq_some_iff.mp h
    obtain ⟨T, hT, hr⟩ := Option.bind_eq_some_iff.mp h
    cases hr
    exact hi.commit hcall hT hl
  | getStateHash key =>
    cases h
    apply hi.query rfl
    intro L hL
    rw [ledgerStep, hL]
  | getMultiStateHash compKey =>
    cases h
    apply hi.query rfl
    intro L hL
    rw [ledgerStep, hL]

/-- Run lemma: every interleaving amounts to the calls that took effect in it, one after
the other. -/
theorem interleave_linearised {actions : List Action} {S : System}
    {events : List (Option (LedgerCall × LedgerReply η))}
    (h : interleave libs sha256 actions = some (S, events))
    (hl : (committed events.reduceOption).length < 2^32) :
    Linearised libs sha256 S events.reduceOption := by
  refine exec_invariant (System.step libs sha256)
    (fun _ events S => (committed events.reduceOption).length < 2^32 →
      Linearised libs sha256 S events.reduceOption) (fun _ => linearised_start) ?_ h hl
  intro actions events S a S' o _ ih hs hl
  rw [List.reduceOption_append, List.reduceOption_singleton] at hl ⊢
  rw [committed_append, List.length_append] at hl
  have hl' : (committed events.reduceOption).length < 2^32 := by omega
  exact (ih hl').step hs hl'

/-- Every interleaving of calls linearises as long as fewer than 2^32 blocks are committed:
the state is that of the committed blocks processed in the order of their commits, no value
of the counter is given to two blocks, and every query is answered on the state after the
blocks committed before it. As a run may end at any moment, this holds after each commit. -/
theorem concurrent_calls_linearise (libs : Libs) (sha256 : Bytes → η) (actions : List Action)
    (S : System) (events : List (Option (LedgerCall × LedgerReply η)))
    (h : interleave libs sha256 actions = some (S, events))
    (hl : (committed events.reduceOption).length < 2^32) :
    (∃ L, run libs ((committed events.reduceOption).map encode) =
        some (L, List.replicate (committed events.reduceOption).length .success) ∧
      L.state = S.ledger.state ∧ L.sequenceNumber = S.ledger.sequenceNumber) ∧
    ((committed events.reduceOption).map (fun b => UInt32.ofNat b.number)).Nodup ∧
    ∀ pre call reply post, events.reduceOption = pre ++ (call, reply) :: post →
      call.block? = none →
      ∃ L, run libs ((committed pre).map encode) =
          some (L, List.replicate (committed pre).length .success) ∧
        ledgerStep libs sha256 L call = some (L, reply) := by
  have hi := interleave_linearised h hl
  obtain ⟨L, hreplay, hstate, hseq, -⟩ := hi.replay
  refine ⟨⟨L, run_of_ledgerSteps hreplay, hstate, hseq⟩, ?_, ?_⟩
  · rw [hi.numbers]
    apply List.Nodup.map_on _ List.nodup_range
    intro a ha b hb hab
    have ha' := List.mem_range.mp ha
    have hb' := List.mem_range.mp hb
    exact ofNat_inj_of_lt (by omega) (by omega) hab
  · intro pre call reply post he hb
    -- the replay up to the query, and the query as its next call
    rw [he, List.map_append, List.map_append, List.map_cons, List.map_cons] at hreplay
    obtain ⟨M, os, M', os', hpre, hrest, hr⟩ := (exec_append_eq_some _).mp hreplay
    obtain ⟨N, o, N', os'', hstep, -, hr'⟩ := (exec_cons_eq_some _).mp hrest
    cases hr'
    have hlen : (pre.map Prod.snd).length = os.length := by
      rw [exec_length _ hpre, List.length_map, List.length_map]
    obtain ⟨-, hcons⟩ := List.append_inj (Prod.mk.inj hr).2 hlen
    obtain ⟨rfl, -⟩ := List.cons.inj hcons
    rcases ledgerStep_cases hstep with ⟨block, rfl, -⟩ | ⟨-, rfl⟩
    · cases hb
    · exact ⟨N, run_of_ledgerSteps hpre, hstep⟩

/-- A block with a setup of `ecc`, which stores its measurement. -/
def setupBlock (mrenclave : String) : Encoded Block :=
  wrapBlock 1 [0] [writeTx "ecc" [⟨some (str "MRENCLAVE"), some (str mrenclave)⟩]]

/-- Two blocks with the same number are under way; the one that was entered last commits. -/
def rivalBlocks : List Action :=
  [.check (configBlock 0), .envelope 0, .commit 0, .check (setupBlock "AAAA"),
    .check (setupBlock "BBBB"), .envelope 1, .envelope 0,
    .getStateHash (str "ecc.MRENCLAVE"), .commit 1, .getStateHash (str "ecc.MRENCLAVE")]

theorem rival_blocks_linearise :
    ∃ S events, interleave parsonLibs id rivalBlocks = some (S, events) ∧
      (committed events.reduceOption).length = 2 ∧
      ∃ L, run parsonLibs ((committed events.reduceOption).map encode) =
          some (L, [.success, .success]) ∧ L.state = S.ledger.state := by
  have hcount : (interleave parsonLibs id rivalBlocks).map (fun r => (committed r.2.reduceOption).length) =
      some 2 := by decide +kernel
  obtain ⟨⟨S, events⟩, h, hlength⟩ := Option.map_eq_some_iff.mp hcount
  obtain ⟨⟨L, hrun, hstate, -⟩, -⟩ := concurrent_calls_linearise parsonLibs id rivalBlocks S events h
    (by rw [hlength]; decide)
  rw [hlength] at hrun
  exact ⟨S, events, h, hlength, L, hrun, hstate⟩

end

end SecureChaincode
