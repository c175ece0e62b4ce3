import SecureChaincode.LedgerCalls

/-! The way of a block from the block iterator to the ledger enclave, through `tlcc.go`, its
enclave stub, `trusted_ledger.c` and the ecalls, each with a convention of its own for errors. -/
namespace SecureChaincode

/-- `LEDGER_SUCCESS`, `LEDGER_ERROR_DECODING` and `LEDGER_INVALID_BLOCK_NUMBER`. -/
def RetCode.toInt : RetCode → ℤ
  | .success => 0
  | .errorDecoding => -1
  | .invalidBlockNumber => -3

def sgxSuccess : ℤ := 0

def sgxErrorEnclaveCrashed : ℤ := 0x100e

/-- The ledger in the enclave, with the blocks that it has answered with success. -/
structure LedgerEnclave where
  ledger : Ledger
  committed : List (Encoded Block)

def LedgerEnclave.created : LedgerEnclave := ⟨Ledger.fresh, []⟩

def LedgerEnclave.answered (E : LedgerEnclave) (L : Ledger) (block : Encoded Block) (code : RetCode) :
    LedgerEnclave :=
  ⟨L, if code = .success then E.committed ++ [block] else E.committed⟩

/-- What the platform makes of the calls for one block. -/
structure Platform where
  /-- Is an enclave there after `tlcc_create_enclave`? -/
  created : Bool
  /-- The two results of `ecall_init`, which makes a key pair. -/
  initStatus : ℤ
  initRet : ℤ
  /-- The enclave is entered for the block exactly when this is `SGX_SUCCESS`. -/
  status : ℤ
  /-- What `errno` is when the C function has returned. -/
  errno : ℤ

/-- An ecall has a status, and the result of the function in the enclave is left behind a
pointer. -/
structure EcallResult where
  enclave : Option LedgerEnclave
  ret : ℤ
  enclaveRet : ℤ

/-- `none` stands for an enclave that is not there or has not survived a call. -/
def ecall (status : ℤ) (enclave : Option LedgerEnclave) (enclaveRet : ℤ)
    (f : Ledger → Encoded Block → Option (Ledger × RetCode)) (block : Encoded Block) :
    EcallResult :=
  if status ≠ sgxSuccess then ⟨enclave, status, enclaveRet⟩
  else
    match enclave with
    | none => ⟨none, sgxErrorEnclaveCrashed, enclaveRet⟩
    | some E =>
      match f E.ledger block with
      | none => ⟨none, sgxErrorEnclaveCrashed, enclaveRet⟩
      | some (L, code) => ⟨some (E.answered L block code), sgxSuccess, code.toInt⟩

section
variable (libs : Libs)

def tlccInitWithGenesis (p : Platform) (enclave : Option LedgerEnclave) (genesis : Encoded Block) :
    Option LedgerEnclave × ℤ :=
  if p.initStatus ≠ sgxSuccess ∨ p.initRet ≠ sgxSuccess then (enclave, -1)
  else
    let r := ecall p.status enclave p.initRet (ecallJoinChannel libs) genesis
    if r.ret ≠ sgxSuccess ∨ r.enclaveRet ≠ sgxSuccess then (r.enclave, -1) else (r.enclave, r.enclaveRet)

def tlccSendBlock (p : Platform) (enclave : Option LedgerEnclave) (block : Encoded Block) :
    Option LedgerEnclave × ℤ :=
  let r := ecall p.status enclave (-1) (ecallNextBlock libs) block
  -- also for a block that the enclave refuses it is the status of the call that is returned
  if r.ret ≠ sgxSuccess ∨ r.enclaveRet ≠ sgxSuccess then (r.enclave, r.ret) else (r.enclave, r.enclaveRet)

inductive DeliveryError
  | marshal
  | errno (n : ℤ)

/-- The result of the C function is dropped. -/
def initWithGenesis (p : Platform) (enclave : Option LedgerEnclave) (genesis : Encoded Block) :
    Option LedgerEnclave × Option DeliveryError :=
  ((tlccInitWithGenesis libs p enclave genesis).1, none)

/-- The error of a call through cgo is `errno`; the result of the C function is dropped. -/
def nextBlock (p : Platform) (enclave : Option LedgerEnclave) (block : Encoded Block) :
    Option LedgerEnclave × Option DeliveryError :=
  let err := if p.errno ≠ 0 then some (.errno p.errno) else none
  ((tlccSendBlock libs p enclave block).1, err)

/-- A block from the iterator. -/
structure Delivery where
  block : Encoded Block
  /-- Does `proto.Marshal` succeed? -/
  marshalled : Bool
  platform : Platform

structure TrustedLedgerCC where
  enclave : Option LedgerEnclave
  delivered : List (Encoded Block)
  panicked : Bool

def noChannel : TrustedLedgerCC := ⟨none, [], false⟩

/-- A new enclave, and the genesis block. That the enclave could not be created is not
reported by `Create`. -/
def initNewEnclave (d : Delivery) : Option LedgerEnclave × Option DeliveryError :=
  let enclave := if d.platform.created then some LedgerEnclave.created else none
  initWithGenesis libs d.platform enclave d.block

/-- The first block goes to `joinChannel`, the others one by one through the loop of
`readBlocks`. Both panic on an error, and nothing comes after a panic. -/
def TrustedLedgerCC.step (T : TrustedLedgerCC) (d : Delivery) :
    Option (TrustedLedgerCC × Option DeliveryError) :=
  if T.panicked then none
  else
    let r :=
      if !d.marshalled then (T.enclave, some .marshal)
      else if T.delivered = [] then initNewEnclave libs d
      else nextBlock libs d.platform T.enclave d.block
    some (⟨r.1, T.delivered ++ [d.block], r.2.isSome⟩, r.2)

end

/-- The enclave has committed every block delivered so far. -/
def TrustedLedgerCC.Committed (T : TrustedLedgerCC) : Prop :=
  T.delivered = [] ∨ ∃ E, T.enclave = some E ∧ E.committed = T.delivered

/-- The first `n` of the blocks have been delivered and committed. -/
def CommittedUpTo (libs : Libs) (ds : List Delivery) (n : ℕ) : Prop :=
  ∃ T errs, exec (TrustedLedgerCC.step libs) noChannel (ds.take n) = some (T, errs) ∧ T.Committed

/-- At any time all blocks are committed, or an error has been seen for the first that is not. -/
def NothingLost (libs : Libs) (ds : List Delivery) (errs : List (Option DeliveryError)) : Prop :=
  ∀ n ≤ ds.length, CommittedUpTo libs ds n ∨
    ∃ i < n, CommittedUpTo libs ds i ∧ ¬CommittedUpTo libs ds (i+1) ∧ ∃ err, errs[i]? = some (some err)

/-- An enclave after an ecall: it has committed the block, or has the same history. -/
theorem ecall_enclave {status enclaveRet : ℤ} {enclave : Option LedgerEnclave}
    {f : Ledger → Encoded Block → Option (Ledger × RetCode)} {block : Encoded Block} {E' : LedgerEnclave}
    (h : (ecall status enclave enclaveRet f block).enclave = some E') :
    ∃ E, enclave = some E ∧ (E'.committed = E.committed ∨
      (f E.ledger block = some (E'.ledger, .success) ∧ E'.committed = E.committed ++ [block])) := by
  rw [ecall.eq_def] at h
  split_ifs at h with hstatus
  · exact ⟨E', h, Or.inl rfl⟩
  cases enclave with
  | none => cases h
  | some E =>
    refine ⟨E, rfl, ?_⟩
    dsimp only at h
    cases hf : f E.ledger block with
    | none =>
      rw [hf] at h
      cases h
    | some r =>
      obtain ⟨L, code⟩ := r
      rw [hf] at h
      cases h
      by_cases hcode : code = .success
      · rw [hcode]
        exact Or.inr ⟨rfl, rfl⟩
      · exact Or.inl (if_neg hcode)

theorem tlccInitWithGenesis_enclave {libs : Libs} {p : Platform} {enclave : Option LedgerEnclave}
    {genesis : Encoded Block} {E' : LedgerEnclave}
    (h : (tlccInitWithGenesis libs p enclave genesis).1 = some E') :
    ∃ E, enclave = some E ∧ (E'.committed = E.committed ∨
      (ecallJoinChannel libs E.ledger genesis = some (E'.ledger, .success) ∧
        E'.committed = E.committed ++ [genesis])) := by
  rw [tlccInitWithGenesis] at h
  split_ifs at h with hinit
  · exact ⟨E', h, Or.inl rfl⟩
  dsimp only at h
  split_ifs at h
  · exact ecall_enclave h
  · exact ecall_enclave h

theorem tlccSendBlock_enclave {libs : Libs} {p : Platform} {enclave : Option LedgerEnclave}
    {block : Encoded Block} {E' : LedgerEnclave} (h : (tlccSendBlock libs p enclave block).1 = some E') :
    ∃ E, enclave = some E ∧ (E'.committed = E.committed ∨
      (ecallNextBlock libs E.ledger block = some (E'.ledger, .success) ∧
        E'.committed = E.committed ++ [block])) := by
  rw [tlccSendBlock] at h
  split_ifs at h
  · exact ecall_enclave h
  · exact ecall_enclave h

/-- The enclave that a block is meant for. The genesis block finds one with new stores. -/
def TrustedLedgerCC.target (T : TrustedLedgerCC) : Option LedgerEnclave :=
  if T.delivered = [] then some ⟨start, []⟩ else T.enclave

/-- What a delivery does. Whether there is an error does not depend on the enclave. -/
theorem deliveryStep_cases {libs : Libs} {T T' : TrustedLedgerCC} {d : Delivery} {err : Option DeliveryError}
    (h : T.step libs d = some (T', err)) :
    T'.delivered = T.delivered ++ [d.block] ∧
      (err.isSome ↔ d.marshalled = false ∨ (T.delivered ≠ [] ∧ d.platform.errno ≠ 0)) ∧
      ∀ E', T'.enclave = some E' → T.enclave = some E' ∨ ∃ E, T.target = some E ∧
        (E'.committed = E.committed ∨ (parseBlock libs E.ledger d.block = some (E'.ledger, .success) ∧
          E'.committed = E.committed ++ [d.block])) := by
  rw [TrustedLedgerCC.step] at h
  split_ifs at h with hpanic hmarshal hfirst
  · -- no bytes to send
    cases h
    refine ⟨rfl, ?_, fun E' hE => Or.inl hE⟩
    rw [Bool.not_eq_true'] at hmarshal
    simp [hmarshal]
  · -- the genesis block, for which there is never an error
    cases h
    rw [Bool.not_eq_true', Bool.not_eq_false] at hmarshal
    refine ⟨rfl, by simp [initNewEnclave, initWithGenesis, hmarshal, hfirst], ?_⟩
    intro E' hE
    rw [TrustedLedgerCC.target, if_pos hfirst]
    obtain ⟨E, hcreated, hcases⟩ := tlccInitWithGenesis_enclave hE
    have hE : E = LedgerEnclave.created := by
      split_ifs at hcreated
      exact (Option.some.inj hcreated).symm
    rw [hE] at hcases
    exact Or.inr ⟨_, rfl, hcases⟩
  · cases h
    rw [Bool.not_eq_true', Bool.not_eq_false] at hmarshal
    refine ⟨rfl, ?_, ?_⟩
    · by_cases herrno : d.platform.errno = 0 <;> simp [nextBlock, hmarshal, hfirst, herrno]
    · intro E' hE
      rw [TrustedLedgerCC.target, if_neg hfirst]
      exact Or.inr (tlccSendBlock_enclave hE)

/-- The enclave is never ahead of the iterator, and when it is not behind either, its ledger is
the one that the blocks lead to. -/
structure DeliveryInv (libs : Libs) (T : TrustedLedgerCC) : Prop where
  behind : ∀ E, T.enclave = some E → E.committed.length ≤ T.delivered.length
  ledger : ∀ E, T.enclave = some E → E.committed = T.delivered → T.delivered ≠ [] →
    run libs T.delivered = some (E.ledger, List.replicate T.delivered.length .success)

section
variable {libs : Libs} {T T' : TrustedLedgerCC} {d : Delivery} {err : Option DeliveryError}

theorem deliveryInv_noChannel : DeliveryInv libs noChannel := by
  constructor
  · intro E hE
    cases hE
  · intro E hE
    cases hE

theorem DeliveryInv.target_behind (hi : DeliveryInv libs T) {E : LedgerEnclave} (hE : T.target = some E) :
    E.committed.length ≤ T.delivered.length := by
  rw [TrustedLedgerCC.target] at hE
  split_ifs at hE
  · cases hE
    exact Nat.zero_le _
  · exact hi.behind E hE

theorem DeliveryInv.target_run (hi : DeliveryInv libs T) {E : LedgerEnclave} (hE : T.target = some E)
    (hc : E.committed = T.delivered) :
    run libs T.delivered = some (E.ledger, List.replicate T.delivered.length .success) := by
  rw [TrustedLedgerCC.target] at hE
  split_ifs at hE with hfirst
  · cases hE
    rw [hfirst]
    rfl
  · exact hi.ledger E hE hc hfirst

/-- When all blocks are committed after a delivery, this one was, and all were before it. -/
theorem DeliveryInv.committed_step (hi : DeliveryInv libs T) (h : T.step libs d = some (T', err))
    {E' : LedgerEnclave} (hE' : T'.enclave = some E') (hc : E'.committed = T'.delivered) :
    ∃ E, T.target = some E ∧ parseBlock libs E.ledger d.block = some (E'.ledger, .success) ∧
      E.committed = T.delivered := by
  obtain ⟨hdel, -, henclave⟩ := deliveryStep_cases h
  have hlen : E'.committed.length = T.delivered.length+1 := by rw [hc, hdel, List.length_append]; rfl
  rcases henclave E' hE' with hE | ⟨E, hE, hsame | ⟨hp, happ⟩⟩
  · have := hi.behind E' hE
    omega
  · have := hi.target_behind hE
    rw [hsame] at hlen
    omega
  · refine ⟨E, hE, hp, ?_⟩
    rw [happ, hdel] at hc
    exact List.append_inj_left' hc rfl

theorem DeliveryInv.step (hi : DeliveryInv libs T) (h : T.step libs d = some (T', err)) :
    DeliveryInv libs T' := by
  obtain ⟨hdel, -, henclave⟩ := deliveryStep_cases h
  constructor
  · intro E' hE'
    rw [hdel, List.length_append, List.length_singleton]
    rcases henclave E' hE' with hE | ⟨E, hE, hsame | ⟨-, happ⟩⟩
    · have := hi.behind E' hE
      omega
    · have := hi.target_behind hE
      rw [hsame]
      omega
    · have := hi.target_behind hE
      rw [happ, List.length_append, List.length_singleton]
      omega
  · intro E' hE' hc _
    obtain ⟨E, hE, hp, hcE⟩ := hi.committed_step h hE' hc
    rw [hdel, List.length_append, List.length_singleton, List.replicate_succ']
    exact (exec_snoc_eq_some _).mpr ⟨E.ledger, _, E'.ledger, .success, hi.target_run hE hcE, hp, rfl⟩

theorem run_deliveryInv {ds : List Delivery} {errs : List (Option DeliveryError)}
    (h : exec (TrustedLedgerCC.step libs) noChannel ds = some (T, errs)) : DeliveryInv libs T := by
  refine exec_invariant (TrustedLedgerCC.step libs) (fun _ _ T => DeliveryInv libs T) deliveryInv_noChannel ?_ h
  intro ds errs T d T' err _ hi hs
  exact hi.step hs

/-- Blocks that are all committed have led to the ledger as one run of `parse_block`. -/
theorem committed_is_run {ds : List Delivery} {errs : List (Option DeliveryError)} {E : LedgerEnclave}
    (h : exec (TrustedLedgerCC.step libs) noChannel ds = some (T, errs)) (hE : T.enclave = some E)
    (hc : E.committed = T.delivered) (hne : T.delivered ≠ []) :
    run libs T.delivered = some (E.ledger, List.replicate T.delivered.length .success) :=
  (run_deliveryInv h).ledger E hE hc hne

theorem DeliveryInv.committed_of_step (hi : DeliveryInv libs T) (h : T.step libs d = some (T', err))
    (hc : T'.Committed) : T.Committed := by
  obtain ⟨hdel, -⟩ := deliveryStep_cases h
  rcases hc with hnil | ⟨E', hE', hc⟩
  · rw [hdel] at hnil
    exact absurd hnil (by simp)
  · obtain ⟨E, hE, -, hcE⟩ := hi.committed_step h hE' hc
    rw [TrustedLedgerCC.target] at hE
    split_ifs at hE with hfirst
    · exact Or.inl hfirst
    · exact Or.inr ⟨E, hE, hcE⟩

theorem delivered_eq {ds : List Delivery} {errs : List (Option DeliveryError)}
    (h : exec (TrustedLedgerCC.step libs) noChannel ds = some (T, errs)) :
    T.delivered = ds.map Delivery.block := by
  refine exec_invariant (TrustedLedgerCC.step libs) (fun ds _ T => T.delivered = ds.map Delivery.block) rfl ?_ h
  intro ds errs T d T' err _ ih hs
  rw [(deliveryStep_cases hs).1, ih, List.map_append, List.map_singleton]

/-- For which deliveries there is an error. -/
theorem error_seen_iff {ds : List Delivery} {errs : List (Option DeliveryError)}
    (h : exec (TrustedLedgerCC.step libs) noChannel ds = some (T, errs)) {i : ℕ} (hd : ds[i]? = some d) :
    (∃ e, errs[i]? = some (some e)) ↔ d.marshalled = false ∨ (i ≠ 0 ∧ d.platform.errno ≠ 0) := by
  obtain ⟨U, us, U', err, hU, hs, herr, -⟩ := exec_getElem? _ h hd
  have hlt : i < ds.length := (List.getElem?_eq_some_iff.mp hd).1
  have hfirst : U.delivered = [] ↔ i = 0 := by
    rw [delivered_eq hU, List.map_eq_nil_iff, List.take_eq_nil_iff]
    constructor
    · rintro (hi | hnil)
      · exact hi
      · rw [hnil] at hlt
        exact absurd hlt (Nat.not_lt_zero i)
    · exact Or.inl
  have hiff := (deliveryStep_cases hs).2.1
  rw [Ne, hfirst] at hiff
  rw [herr, ← hiff]
  cases err with
  | none => simp
  | some e => simp

/-- All blocks were committed at any earlier time as well. -/
theorem CommittedUpTo.mono {ds : List Delivery} {i n : ℕ} (hin : i ≤ n) (hn : n ≤ ds.length)
    (h : CommittedUpTo libs ds n) : CommittedUpTo libs ds i := by
  induction n, hin using Nat.le_induction with
  | base => exact h
  | succ n hin ih =>
    apply ih (by omega)
    obtain ⟨T', errs, hrun, hc⟩ := h
    obtain ⟨d, hd⟩ : ∃ d, ds[n]? = some d := ⟨ds[n], List.getElem?_eq_getElem hn⟩
    have hd' : (ds.take (n+1))[n]? = some d := by rw [List.getElem?_take_of_lt (Nat.lt_succ_self n), hd]
    obtain ⟨T, us, T'', err, hT, hs, -, hT''⟩ := exec_getElem? _ hrun hd'
    rw [List.take_take, Nat.min_eq_left (Nat.le_succ n)] at hT
    rw [List.take_take, Nat.min_self, hrun] at hT''
    cases hT''
    exact ⟨T, us, hT, (run_deliveryInv hT).committed_of_step hs hc⟩

/-- As long as not all blocks are committed, there is a first one that is not. -/
theorem exists_first_lost {ds : List Delivery} {n : ℕ} (h : ¬CommittedUpTo libs ds n) :
    ∃ i < n, CommittedUpTo libs ds i ∧ ¬CommittedUpTo libs ds (i+1) := by
  induction n with
  | zero => exact absurd ⟨noChannel, [], rfl, Or.inl rfl⟩ h
  | succ n ih =>
    by_cases hn : CommittedUpTo libs ds n
    · exact ⟨n, Nat.lt_succ_self n, hn, h⟩
    · obtain ⟨i, hi, hfirst⟩ := ih hn
      exact ⟨i, Nat.lt_succ_of_lt hi, hfirst⟩

end

/-- No block is lost exactly when the first one that the enclave does not commit cannot be
marshalled, or comes after the genesis block and leaves something in `errno`: what the enclave
and the C functions return has no part in it. -/
theorem nothing_lost_iff (libs : Libs) (ds : List Delivery) (T : TrustedLedgerCC)
    (errs : List (Option DeliveryError))
    (h : exec (TrustedLedgerCC.step libs) noChannel ds = some (T, errs)) :
    NothingLost libs ds errs ↔
      ∀ i d, ds[i]? = some d → CommittedUpTo libs ds i → ¬CommittedUpTo libs ds (i+1) →
        d.marshalled = false ∨ (i ≠ 0 ∧ d.platform.errno ≠ 0) := by
  constructor
  · intro hlost i d hd hbefore hafter
    have hlt : i < ds.length := (List.getElem?_eq_some_iff.mp hd).1
    rcases hlost (i+1) hlt with hc | ⟨j, hj, -, hafter', herr⟩
    · exact absurd hc hafter
    · -- the error is for this block and not for an earlier one
      have hji : j = i := by
        by_contra hne
        exact hafter' (hbefore.mono (by omega) hlt.le)
      rw [hji] at herr
      exact (error_seen_iff h hd).mp herr
  · intro hseen n hn
    by_cases hc : CommittedUpTo libs ds n
    · exact Or.inl hc
    · obtain ⟨i, hi, hbefore, hafter⟩ := exists_first_lost hc
      have hd : ds[i]? = some ds[i] := List.getElem?_eq_getElem (by omega)
      exact Or.inr ⟨i, hi, hbefore, hafter,
        (error_seen_iff h hd).mpr (hseen i _ hd hbefore hafter)⟩

/-- All calls get through to the enclave, and `errno` is what is given. -/
def calm (errno : ℤ) : Platform := ⟨true, 0, 0, 0, errno⟩

/-- A block that does not decode comes after the genesis block, and `errno` happens to be set. -/
def noticedLoss : List Delivery :=
  [⟨configBlock 0, true, calm 0⟩, ⟨garbled, true, calm 5⟩]

theorem noticed_loss_not_silent :
    ∃ T errs, exec (TrustedLedgerCC.step parsonLibs) noChannel noticedLoss = some (T, errs) ∧
      NothingLost parsonLibs noticedLoss errs := by
  have hrun : exec (TrustedLedgerCC.step parsonLibs) noChannel noticedLoss =
      some (⟨some ⟨{ start with sequenceNumber := 0 }, [configBlock 0]⟩,
        [configBlock 0, garbled], true⟩, [none, some (.errno 5)]) := rfl
  refine ⟨_, _, hrun, (nothing_lost_iff parsonLibs noticedLoss _ _ hrun).mpr ?_⟩
  intro i d hd hbefore hafter
  match i with
  | 0 => exact absurd ⟨_, _, rfl, Or.inr ⟨_, rfl, rfl⟩⟩ hafter
  | 1 =>
    cases hd
    exact Or.inr ⟨by decide, by decide⟩
  | n+2 => cases hd

/-- A genesis block that does not decode, and a later block that does not: every block after it
is refused, and the peer goes on. -/
theorem refused_blocks_lost :
    (∃ T E, exec (TrustedLedgerCC.step parsonLibs) noChannel
          [⟨garbled, true, calm 0⟩, ⟨configBlock 1, true, calm 0⟩] = some (T, [none, none]) ∧
        T.enclave = some E ∧ E.committed = []) ∧
      ∃ T E, exec (TrustedLedgerCC.step parsonLibs) noChannel
          [⟨configBlock 0, true, calm 0⟩, ⟨garbled, true, calm 0⟩, ⟨configBlock 2, true, calm 0⟩] =
          some (T, [none, none, none]) ∧
        T.enclave = some E ∧ E.committed = [configBlock 0] :=
  ⟨⟨_, _, rfl, rfl, rfl⟩, ⟨_, _, rfl, rfl, rfl⟩⟩

end SecureChaincode
