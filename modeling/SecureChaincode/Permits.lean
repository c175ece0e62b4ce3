import SecureChaincode.Interaction

/-! Programs that run side by side and share a number of permits: a call may take one, give one
back, or have nothing to do with them. -/
namespace SecureChaincode

inductive PermitUse
  | acquire
  | release
  | other

/-- How many permits are taken, the programs that are running, and the results of those that have
ended. -/
structure PermitState (κ : Type) (A : κ → Type) (α : Type) where
  taken : ℕ
  running : List (Program κ A α)
  results : List α

section
variable {κ : Type} {A : κ → Type} {α : Type} (use : κ → PermitUse) (size : ℕ)

/-- A step of one of the programs. A call is answered at any time and in any way, but a permit is
given only if there is one left, and taken back only if it was given. -/
inductive PermitStep (programs : Set (Program κ A α)) : PermitState κ A α → PermitState κ A α → Prop
  | start {s : PermitState κ A α} {p : Program κ A α} (hp : p ∈ programs) :
    PermitStep programs s { s with running := p :: s.running }
  | acquire {taken : ℕ} {before behind : List (Program κ A α)} {results : List α} {c : κ}
      {next : A c → Program κ A α} (a : A c) (hc : use c = .acquire) (hfree : taken < size) :
    PermitStep programs ⟨taken, before ++ .call c next :: behind, results⟩
      ⟨taken+1, before ++ next a :: behind, results⟩
  | release {taken : ℕ} {before behind : List (Program κ A α)} {results : List α} {c : κ}
      {next : A c → Program κ A α} (a : A c) (hc : use c = .release) :
    PermitStep programs ⟨taken+1, before ++ .call c next :: behind, results⟩
      ⟨taken, before ++ next a :: behind, results⟩
  | other {taken : ℕ} {before behind : List (Program κ A α)} {results : List α} {c : κ}
      {next : A c → Program κ A α} (a : A c) (hc : use c = .other) :
    PermitStep programs ⟨taken, before ++ .call c next :: behind, results⟩
      ⟨taken, before ++ next a :: behind, results⟩
  | finish {taken : ℕ} {before behind : List (Program κ A α)} {results : List α} (r : α) :
    PermitStep programs ⟨taken, before ++ .done r :: behind, results⟩ ⟨taken, before ++ behind, r :: results⟩

/-- Any number of steps. -/
abbrev PermitSteps (programs : Set (Program κ A α)) := Relation.ReflTransGen (PermitStep use size programs)

/-- What can come about when nothing is running at first and no permit is taken. -/
def PermitReachable (programs : Set (Program κ A α)) (s : PermitState κ A α) : Prop :=
  PermitSteps use size programs ⟨0, [], []⟩ s

/-- A program that has so many permits, never gives back more, and has at its end as many as its
result tells. -/
def Settles (kept : α → ℕ) : Program κ A α → ℕ → Prop
  | .done r, held => held = kept r
  | .fault, _ => True
  | .call c next, held =>
    match use c with
    | .acquire => ∀ a, Settles kept (next a) (held+1)
    | .release => 0 < held ∧ ∀ a, Settles kept (next a) (held-1)
    | .other => ∀ a, Settles kept (next a) held

variable {use size} {kept : α → ℕ}

theorem Settles.acquire {c : κ} {next : A c → Program κ A α} {held : ℕ} (hc : use c = .acquire)
    (h : Settles use kept (.call c next) held) (a : A c) : Settles use kept (next a) (held+1) := by
  rw [Settles, hc] at h
  exact h a

theorem Settles.release {c : κ} {next : A c → Program κ A α} {held : ℕ} (hc : use c = .release)
    (h : Settles use kept (.call c next) held) : 0 < held ∧ ∀ a, Settles use kept (next a) (held-1) := by
  rw [Settles, hc] at h
  exact h

theorem Settles.other {c : κ} {next : A c → Program κ A α} {held : ℕ} (hc : use c = .other)
    (h : Settles use kept (.call c next) held) (a : A c) : Settles use kept (next a) held := by
  rw [Settles, hc] at h
  exact h a

section
variable {programs : Set (Program κ A α)} {taken : ℕ} {results : List α} {c : κ} {next : A c → Program κ A α}

/-! The steps of a program that runs alone. -/

theorem steps_start {p : Program κ A α} (hp : p ∈ programs) :
    PermitSteps use size programs ⟨taken, [], results⟩ ⟨taken, [p], results⟩ :=
  .single (.start hp)

theorem steps_acquire (hc : use c = .acquire) (a : A c) (hfree : taken < size) :
    PermitSteps use size programs ⟨taken, [.call c next], results⟩ ⟨taken+1, [next a], results⟩ :=
  .single (@PermitStep.acquire κ A α use size programs taken [] [] results c next a hc hfree)

theorem steps_release (hc : use c = .release) (a : A c) :
    PermitSteps use size programs ⟨taken+1, [.call c next], results⟩ ⟨taken, [next a], results⟩ :=
  .single (@PermitStep.release κ A α use size programs taken [] [] results c next a hc)

theorem steps_other (hc : use c = .other) (a : A c) :
    PermitSteps use size programs ⟨taken, [.call c next], results⟩ ⟨taken, [next a], results⟩ :=
  .single (@PermitStep.other κ A α use size programs taken [] [] results c next a hc)

theorem steps_finish (r : α) :
    PermitSteps use size programs ⟨taken, [.done r], results⟩ ⟨taken, [], r :: results⟩ :=
  .single (@PermitStep.finish κ A α use size programs taken [] [] results r)

end

/-- The permits that are taken are those that the running programs hold, by some account of them,
and those that ended programs have kept. -/
structure PermitInv (use : κ → PermitUse) (size : ℕ) (kept : α → ℕ) (s : PermitState κ A α) (held : List ℕ) :
    Prop where
  settles : List.Forall₂ (fun n p => Settles use kept p n) held s.running
  taken_eq : s.taken = held.sum+(s.results.map kept).sum
  taken_le : s.taken ≤ size

theorem forall₂_middle {β γ : Type} {R : β → γ → Prop} {l : List β} {before behind : List γ} {c : γ}
    (h : List.Forall₂ R l (before ++ c :: behind)) :
    ∃ l₁ b l₂, l = l₁ ++ b :: l₂ ∧ List.Forall₂ R l₁ before ∧ R b c ∧ List.Forall₂ R l₂ behind := by
  induction before generalizing l with
  | nil =>
    cases h with
    | cons hb ht => exact ⟨[], _, _, rfl, .nil, hb, ht⟩
  | cons d before ih =>
    cases h with
    | cons hd ht =>
      obtain ⟨l₁, b, l₂, rfl, h₁, hb, h₂⟩ := ih ht
      exact ⟨_ :: l₁, b, l₂, rfl, .cons hd h₁, hb, h₂⟩

/-- One step keeps the account. -/
theorem PermitInv.step {programs : Set (Program κ A α)} {s t : PermitState κ A α} {held : List ℕ}
    (hp : ∀ p ∈ programs, Settles use kept p 0) (h : PermitInv use size kept s held)
    (hstep : PermitStep use size programs s t) : ∃ held', PermitInv use size kept t held' := by
  obtain ⟨hsettles, htaken, hle⟩ := h
  cases hstep with
  | start hmem =>
    refine ⟨0 :: held, .cons (hp _ hmem) hsettles, ?_, hle⟩
    rw [List.sum_cons, zero_add]
    exact htaken
  | acquire a hc hfree =>
    obtain ⟨l₁, n, l₂, rfl, h₁, hn, h₂⟩ := forall₂_middle hsettles
    refine ⟨l₁ ++ (n+1) :: l₂, List.rel_append h₁ (.cons (hn.acquire hc a) h₂), ?_, hfree⟩
    simp only [List.sum_append, List.sum_cons] at htaken ⊢
    omega
  | release a hc =>
    obtain ⟨l₁, n, l₂, rfl, h₁, hn, h₂⟩ := forall₂_middle hsettles
    obtain ⟨hpos, hnext⟩ := hn.release hc
    refine ⟨l₁ ++ (n-1) :: l₂, List.rel_append h₁ (.cons (hnext a) h₂), ?_, Nat.le_of_succ_le hle⟩
    simp only [List.sum_append, List.sum_cons] at htaken ⊢
    omega
  | other a hc =>
    obtain ⟨l₁, n, l₂, rfl, h₁, hn, h₂⟩ := forall₂_middle hsettles
    exact ⟨l₁ ++ n :: l₂, List.rel_append h₁ (.cons (hn.other hc a) h₂), htaken, hle⟩
  | finish r =>
    obtain ⟨l₁, n, l₂, rfl, h₁, hn, h₂⟩ := forall₂_middle hsettles
    have hkept : n = kept r := hn
    refine ⟨l₁ ++ l₂, List.rel_append h₁ h₂, ?_, hle⟩
    simp only [List.sum_append, List.sum_cons, List.map_cons] at htaken ⊢
    omega

/-- Over every run there is such an account. -/
theorem permitInv_of_reachable {programs : Set (Program κ A α)} {s : PermitState κ A α}
    (hp : ∀ p ∈ programs, Settles use kept p 0) (hs : PermitReachable use size programs s) :
    ∃ held, PermitInv use size kept s held := by
  induction hs with
  | refl => exact ⟨[], .nil, rfl, Nat.zero_le size⟩
  | tail _ hstep ih =>
    obtain ⟨held, hinv⟩ := ih
    exact hinv.step hp hstep

/-- When nothing is running, only the ended programs account for permits. -/
theorem taken_of_idle {programs : Set (Program κ A α)} {s : PermitState κ A α}
    (hp : ∀ p ∈ programs, Settles use kept p 0) (hs : PermitReachable use size programs s)
    (hidle : s.running = []) : s.taken = (s.results.map kept).sum := by
  obtain ⟨held, hinv⟩ := permitInv_of_reachable hp hs
  have hnil : held = [] := List.forall₂_nil_right_iff.mp (hidle ▸ hinv.settles)
  rw [hinv.taken_eq, hnil, List.sum_nil, zero_add]

end

end SecureChaincode
