import Mathlib

/-! Programs that make calls to their surroundings, and their runs against a state in which
every call may fail. -/
namespace SecureChaincode

/-- A program makes calls, each with answers of its own type, and ends with a value or in a
fault. -/
inductive Program (κ : Type) (A : κ → Type) (α : Type) : Type
  | done (a : α)
  | fault
  | call (c : κ) (next : A c → Program κ A α)

namespace Program

section
variable {κ : Type} {A : κ → Type} {α β S T : Type}

def bind : Program κ A α → (α → Program κ A β) → Program κ A β
  | .done a, f => f a
  | .fault, _ => .fault
  | .call c next, f => .call c (fun a => (next a).bind f)

instance : Monad (Program κ A) where
  pure := .done
  bind := Program.bind

/-- A single call. -/
def request (c : κ) : Program κ A (A c) := .call c .done

/-- A value that may be missing, without which there is no going on. -/
def orFault : Option α → Program κ A α
  | some a => .done a
  | none => .fault

@[simp] theorem orFault_some_bind (a : α) (f : α → Program κ A β) : (orFault (some a) >>= f) = f a := rfl

/-- The state changes with every call. One that is not answered ends the run. -/
def run (step : S → (c : κ) → Option (A c) × S) : Program κ A α → S → Option α × S
  | .done a, s => (some a, s)
  | .fault, s => (none, s)
  | .call c next, s =>
    match step s c with
    | (none, s) => (none, s)
    | (some a, s) => (next a).run step s

variable {step : S → (c : κ) → Option (A c) × S}

@[simp] theorem run_pure (a : α) (s : S) : (pure a : Program κ A α).run step s = (some a, s) := rfl

theorem run_bind (p : Program κ A α) (f : α → Program κ A β) (s : S) :
    (p >>= f).run step s =
      match p.run step s with
      | (none, s) => (none, s)
      | (some a, s) => (f a).run step s := by
  induction p generalizing s with
  | done a => rfl
  | fault => rfl
  | call c next ih =>
    have hcall : (Program.call c next >>= f) = .call c (fun a => next a >>= f) := rfl
    rw [hcall, run, run]
    cases step s c with
    | mk answer t =>
      cases answer with
      | none => rfl
      | some a => exact ih a t

@[simp] theorem run_request (c : κ) (s : S) : (request c : Program κ A (A c)).run step s = step s c := by
  rw [request, run]
  cases step s c with
  | mk answer t =>
    cases answer with
    | none => rfl
    | some a => rfl

theorem run_bind_of_some {p : Program κ A α} {f : α → Program κ A β} {s t : S} {a : α}
    (h : p.run step s = (some a, t)) : (p >>= f).run step s = (f a).run step t := by
  rw [run_bind, h]

/-- A run that gets through gets through its first part. -/
theorem run_bind_eq_some {p : Program κ A α} {f : α → Program κ A β} {s t : S} {x : β}
    (h : (p >>= f).run step s = (some x, t)) :
    ∃ a u, p.run step s = (some a, u) ∧ (f a).run step u = (some x, t) := by
  rw [run_bind] at h
  cases hp : p.run step s with
  | mk answer u =>
    rw [hp] at h
    cases answer with
    | none => cases h
    | some a => exact ⟨a, u, rfl, h⟩

theorem run_orFault_bind_eq_some {o : Option α} {f : α → Program κ A β} {s t : S} {x : β}
    (h : (orFault o >>= f).run step s = (some x, t)) :
    ∃ a, o = some a ∧ (f a).run step s = (some x, t) := by
  cases o with
  | none => cases h
  | some a => exact ⟨a, rfl, h⟩

/-- The run ends with a value. -/
def Ends (step : S → (c : κ) → Option (A c) × S) (p : Program κ A α) (s : S) : Prop :=
  ∃ x t, p.run step s = (some x, t)

theorem ends_pure (a : α) (s : S) : Ends step (pure a : Program κ A α) s := ⟨a, s, rfl⟩

theorem ends_bind_iff {p : Program κ A α} {f : α → Program κ A β} {s : S} :
    Ends step (p >>= f) s ↔ ∃ a u, p.run step s = (some a, u) ∧ Ends step (f a) u := by
  constructor
  · rintro ⟨x, t, h⟩
    obtain ⟨a, u, hp, hf⟩ := run_bind_eq_some h
    exact ⟨a, u, hp, x, t, hf⟩
  · rintro ⟨a, u, hp, x, t, hf⟩
    exact ⟨x, t, (run_bind_of_some hp).trans hf⟩

theorem ends_orFault_iff {o : Option α} {s : S} : Ends step (orFault o : Program κ A α) s ↔ ∃ a, o = some a := by
  cases o with
  | none =>
    refine iff_of_false ?_ ?_
    · rintro ⟨_, _, h⟩
      cases h
    · rintro ⟨_, h⟩
      cases h
  | some a => exact iff_of_true ⟨a, s, rfl⟩ ⟨a, rfl⟩

theorem ends_orFault_bind_iff {o : Option α} {f : α → Program κ A β} {s : S} :
    Ends step (orFault o >>= f) s ↔ ∃ a, o = some a ∧ Ends step (f a) s := by
  constructor
  · rintro ⟨x, t, h⟩
    obtain ⟨a, ho, hf⟩ := run_orFault_bind_eq_some h
    exact ⟨a, ho, x, t, hf⟩
  · rintro ⟨a, rfl, h⟩
    exact h

/-- What every answered step keeps holds at the end of a run that gets through. -/
theorem run_invariant_of_some (I : S → Prop)
    (hstep : ∀ s c a t, step s c = (some a, t) → I s → I t) {p : Program κ A α} {s t : S} {x : α}
    (h : p.run step s = (some x, t)) (hs : I s) : I t := by
  induction p generalizing s with
  | done a =>
    cases h
    exact hs
  | fault => cases h
  | call c next ih =>
    rw [run] at h
    cases hc : step s c with
    | mk answer u =>
      rw [hc] at h
      cases answer with
      | none => cases h
      | some a => exact ih a h (hstep s c a u hc hs)

/-- All calls that the program can make, whatever it is answered, are among `P`. -/
def Within (P : κ → Prop) : Program κ A α → Prop
  | .done _ => True
  | .fault => True
  | .call c next => P c ∧ ∀ a, (next a).Within P

variable {P : κ → Prop}

theorem within_true (p : Program κ A α) : p.Within (fun _ => True) := by
  induction p with
  | done a => trivial
  | fault => trivial
  | call c next ih => exact ⟨trivial, ih⟩

theorem within_request {c : κ} (h : P c) : (request c : Program κ A (A c)).Within P :=
  ⟨h, fun _ => trivial⟩

theorem within_orFault (o : Option α) : (orFault o : Program κ A α).Within P := by
  cases o with
  | none => trivial
  | some a => trivial

theorem within_bind {p : Program κ A α} {f : α → Program κ A β} (hp : p.Within P)
    (hf : ∀ a, (f a).Within P) : (p >>= f).Within P := by
  induction p with
  | done a => exact hf a
  | fault => trivial
  | call c next ih => exact ⟨hp.1, fun a => ih a (hp.2 a)⟩

/-- What the steps for these calls keep holds at the end, whether the run faults or not. -/
theorem run_invariant_within (I : S → Prop) (hstep : ∀ s c, P c → I s → I (step s c).2)
    {p : Program κ A α} (hp : p.Within P) {s : S} (hs : I s) : I (p.run step s).2 := by
  induction p generalizing s with
  | done a => exact hs
  | fault => exact hs
  | call c next ih =>
    have hnext := hstep s c hp.1 hs
    rw [run]
    cases h : step s c with
    | mk answer t =>
      rw [h] at hnext
      cases answer with
      | none => exact hnext
      | some a => exact ih a (hp.2 a) hnext

/-- Two runs whose steps give the same answers to these calls end alike. -/
theorem run_related {step' : T → (c : κ) → Option (A c) × T} (R : S → T → Prop)
    (hstep : ∀ s t c, P c → R s t → (step s c).1 = (step' t c).1 ∧ R (step s c).2 (step' t c).2)
    {p : Program κ A α} (hp : p.Within P) {s : S} {t : T} (h : R s t) :
    (p.run step s).1 = (p.run step' t).1 ∧ R (p.run step s).2 (p.run step' t).2 := by
  induction p generalizing s t with
  | done a => exact ⟨rfl, h⟩
  | fault => exact ⟨rfl, h⟩
  | call c next ih =>
    obtain ⟨hanswer, hnext⟩ := hstep s t c hp.1 h
    rw [run, run]
    cases hs : step s c with
    | mk answer s' =>
      cases ht : step' t c with
      | mk answer' t' =>
        rw [hs, ht] at hanswer hnext
        obtain rfl : answer = answer' := hanswer
        cases answer with
        | none => exact ⟨rfl, hnext⟩
        | some a => exact ih a (hp.2 a) hnext

/-- In particular they do so from one state, if the steps are the same for these calls. -/
theorem run_congr {step' : S → (c : κ) → Option (A c) × S} (hstep : ∀ s c, P c → step s c = step' s c)
    {p : Program κ A α} (hp : p.Within P) (s : S) : p.run step s = p.run step' s := by
  have hsame : ∀ s t c, P c → s = t → (step s c).1 = (step' t c).1 ∧ (step s c).2 = (step' t c).2 := by
    rintro s _ c hc rfl
    rw [hstep s c hc]
    exact ⟨rfl, rfl⟩
  have hrel := run_related Eq hsame hp (rfl : s = s)
  exact Prod.ext hrel.1 hrel.2

end

end Program

end SecureChaincode
