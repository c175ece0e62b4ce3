import SecureChaincode.EnclaveStub

/-! The permits for the threads of the enclave, over every interleaving of operations of the
stub. -/
namespace SecureChaincode

def StubCall.use : StubCall → PermitUse
  | .acquire => .acquire
  | .release => .release
  | _ => .other

/-- A `Create` that has returned an error. -/
def StubResult.failedCreate (r : StubResult) : Bool :=
  match r.op with
  | .create _ => r.err.isSome
  | _ => false

/-- The permits that are not given back at the end of an operation. -/
def StubResult.kept (r : StubResult) : ℕ := if r.failedCreate then 1 else 0

abbrev StubState := PermitState StubCall StubCall.Answer StubResult

section
variable {ρ : Type} (X : PkixLibs ρ)

def stubPrograms : Set (StubProgram StubResult) := {p | ∃ op : StubOp, p = op.program X}

theorem program_mem (op : StubOp) : op.program X ∈ stubPrograms X := ⟨op, rfl⟩

/-- What operations side by side can lead to. -/
def StubReachable (s : StubState) : Prop := PermitReachable StubCall.use enclaveTcsNum (stubPrograms X) s

variable {X}

/-- What is left to do when the permit has been given back. -/
theorem settles_ofGo {α : Type} {op : StubOp} (hop : ∀ err, StubResult.kept ⟨op, err⟩ = 0) (g : Go α) :
    Settles StubCall.use StubResult.kept (ofGo g >>= fun r => pure ⟨op, errorOf r⟩) 0 := by
  match g with
  | .ok a => exact (hop _).symm
  | .error (.error err) => exact (hop _).symm
  | .error .panic => trivial

/-- Each operation gives back the permit that it takes, except for a `Create` that fails. -/
theorem settles_program (op : StubOp) : Settles StubCall.use StubResult.kept (op.program X) 0 := by
  cases op with
  | create enclaveLibFile =>
    intro _ a
    obtain ⟨ret, eid⟩ := a
    simp only [Program.bind]
    split_ifs with hret
    · exact rfl
    · exact fun _ => ⟨Nat.one_pos, fun _ => rfl⟩
  | invoke args pk shimStub =>
    cases shimStub with
    | false => exact rfl
    | true =>
      refine fun _ a => ⟨Nat.one_pos, fun _ => ?_⟩
      obtain ⟨ret, response, signature⟩ := a
      simp only [Program.bind]
      split_ifs with hret
      · exact rfl
      · exact settles_ofGo (fun _ => rfl) _
  | getPublicKey => exact fun _ a => ⟨Nat.one_pos, fun _ => settles_ofGo (fun _ => rfl) _⟩
  | getTargetInfo => exact fun _ a => ⟨Nat.one_pos, fun _ => rfl⟩
  | getRemoteAttestationReport spid => exact fun _ a => ⟨Nat.one_pos, fun _ => settles_ofGo (fun _ => rfl) _⟩
  | bind report pk =>
    -- the key is converted before the permit is taken
    cases report with
    | none => exact fun _ a => ⟨Nat.one_pos, fun _ => rfl⟩
    | some report =>
      cases pk with
      | none => exact fun _ a => ⟨Nat.one_pos, fun _ => rfl⟩
      | some pk =>
        rw [StubOp.program, StubImpl.bind]
        cases unmarshalEnclavePk X pk with
        | ok transPk => exact fun _ a => ⟨Nat.one_pos, fun _ => rfl⟩
        | error e =>
          cases e with
          | error err => exact rfl
          | panic => trivial

theorem sum_kept (results : List StubResult) :
    (results.map StubResult.kept).sum = (results.filter StubResult.failedCreate).length := by
  induction results with
  | nil => rfl
  | cons r results ih =>
    rw [List.map_cons, List.sum_cons, ih, StubResult.kept, List.filter_cons]
    split_ifs
    · rw [List.length_cons, add_comm]
    · rw [zero_add]

/-- There are never more holders of permits than threads. When no operation is in progress, a
permit is missing for every `Create` that has failed, and so all are free exactly if none has. -/
theorem thread_slots_free_iff {s : StubState} (hs : StubReachable X s) :
    s.taken ≤ enclaveTcsNum ∧
      (s.running = [] → s.taken = (s.results.filter StubResult.failedCreate).length) ∧
      (s.running = [] →
        (enclaveTcsNum-s.taken = enclaveTcsNum ↔ ∀ r ∈ s.results, r.failedCreate = false)) := by
  have hprograms : ∀ p ∈ stubPrograms X, Settles StubCall.use StubResult.kept p 0 := by
    rintro p ⟨op, rfl⟩
    exact settles_program op
  obtain ⟨held, hinv⟩ := permitInv_of_reachable hprograms hs
  have hidle (h : s.running = []) : s.taken = (s.results.filter StubResult.failedCreate).length := by
    rw [taken_of_idle hprograms hs h, sum_kept]
  refine ⟨hinv.taken_le, hidle, ?_⟩
  intro h
  have hfree : enclaveTcsNum-s.taken = enclaveTcsNum ↔ s.taken = 0 := by
    have hle := hinv.taken_le
    rw [enclaveTcsNum] at hle ⊢
    omega
  rw [hfree, hidle h, List.length_eq_zero_iff, List.filter_eq_nil_iff]
  simp only [Bool.not_eq_true]

end

/-- Libraries without any keys. -/
def noKeys : PkixLibs Unit where
  marshalPKIXPublicKey _ _ := .error "unsupported public key type"
  parsePKIXPublicKey _ := .error "asn1: structure error"
  marshalASN1 _ _ := .ok []

/-- After an operation has succeeded and one has failed all permits are free. -/
theorem slots_free_after_invoke :
    StubReachable noKeys ⟨0, [], [⟨.invoke [] [] true, some "Invoke failed. Reason: 1"⟩, ⟨.getTargetInfo, none⟩]⟩ ∧
      enclaveTcsNum-0 = enclaveTcsNum := by
  have htarget : PermitSteps StubCall.use enclaveTcsNum (stubPrograms noKeys) ⟨0, [], []⟩
      ⟨0, [], [⟨.getTargetInfo, none⟩]⟩ := by
    apply (steps_start (program_mem noKeys StubOp.getTargetInfo)).trans
    apply (steps_acquire rfl () (by decide)).trans
    apply (steps_other rfl (0, [])).trans
    apply (steps_release rfl ()).trans
    exact steps_finish _
  have hinvoke : PermitSteps StubCall.use enclaveTcsNum (stubPrograms noKeys) ⟨0, [], [⟨.getTargetInfo, none⟩]⟩
      ⟨0, [], [⟨.invoke [] [] true, some "Invoke failed. Reason: 1"⟩, ⟨.getTargetInfo, none⟩]⟩ := by
    apply (steps_start (program_mem noKeys (StubOp.invoke [] [] true))).trans
    apply (steps_acquire rfl () (by decide)).trans
    apply (steps_other rfl (1, [], [])).trans
    apply (steps_release rfl ()).trans
    exact steps_finish _
  have hreach := htarget.trans hinvoke
  exact ⟨hreach, ((thread_slots_free_iff hreach).2.2 rfl).mpr (by decide)⟩

/-- The result of a `Create` without the file of the enclave. -/
def missingFile : StubResult := ⟨.create (str "missing.so"), some "Can not create enclave: Reason: -1"⟩

/-- Eight of them take all the permits, although nothing is in progress any more. -/
theorem failed_creates_take_all :
    StubReachable noKeys ⟨enclaveTcsNum, [], List.replicate 8 missingFile⟩ ∧
      enclaveTcsNum-enclaveTcsNum ≠ enclaveTcsNum := by
  have hone (taken : ℕ) (results : List StubResult) (hfree : taken < enclaveTcsNum) :
      PermitSteps StubCall.use enclaveTcsNum (stubPrograms noKeys) ⟨taken, [], results⟩
        ⟨taken+1, [], missingFile :: results⟩ := by
    apply (steps_start (program_mem noKeys (StubOp.create (str "missing.so")))).trans
    apply (steps_acquire rfl () hfree).trans
    apply (steps_other rfl (-1, 0)).trans
    exact steps_finish _
  have hmany (n : ℕ) (hn : n ≤ enclaveTcsNum) : StubReachable noKeys ⟨n, [], List.replicate n missingFile⟩ := by
    induction n with
    | zero => exact .refl
    | succ n ih => exact (ih (Nat.le_of_succ_le hn)).trans (hone n _ hn)
  exact ⟨hmany enclaveTcsNum le_rfl, by decide⟩

end SecureChaincode
