import SecureChaincode.Executor

/-! What the executor owes to the tasks that it has accepted. Both wait groups count tasks at certain
places, and a task that was sent is at one place at a time. -/
namespace SecureChaincode

namespace Executor

/-! The places, and what each of them adds to the counters. -/

/-- The part of `e.wg` that a call of `Submit` has added and not yet passed on. -/
def Submission.weight : Submission → ℕ
  | .counted => 1
  | _ => 0

def Delayed.weight : Delayed → ℕ
  | .spawned inner => 1+inner.weight
  | _ => 0

def Procedure.weight : Procedure → ℕ
  | .submit pc => pc.weight
  | .submitDelayed pc => pc.weight
  | _ => 0

/-- The task was sent. -/
def Submission.sends : Submission → ℕ
  | .sent => 1
  | _ => 0

def Delayed.sends : Delayed → ℕ
  | .spawned inner => inner.sends
  | .finished true => 1
  | _ => 0

def Procedure.sends : Procedure → ℕ
  | .submit pc => pc.sends
  | .submitDelayed pc => pc.sends
  | _ => 0

def Dispatcher.weight : Dispatcher → ℕ
  | .waiting => 0
  | .exited => 0
  | _ => 1

/-- The part of the pool's `taskWg` for a task that no worker has yet. -/
def Dispatcher.taskWeight : Dispatcher → ℕ
  | .counted _ => 1
  | .paired _ _ => 1
  | _ => 0

/-- One for the task itself, and zero for others. -/
def only (task n : ℕ) (t : ℕ) : ℕ := if task = t then n else 0

def Dispatcher.holds (t : ℕ) : Dispatcher → ℕ
  | .received task => only task 1 t
  | .counted task => only task 1 t
  | .paired task _ => only task 1 t
  | _ => 0

def Worker.weight : Worker → ℕ
  | .received _ => 1
  | .running _ => 1
  | .finished => 1
  | _ => 0

def Worker.holds (t : ℕ) : Worker → ℕ
  | .received task => only task 1 t
  | .running task => only task 1 t
  | _ => 0

def Worker.runs (t : ℕ) : Worker → ℕ
  | .running task => only task 1 t
  | _ => 0

namespace Shared

def load (x : Shared) : ℕ := x.tasks.length+x.dispatcher.weight

def busy (x : Shared) : ℕ := x.dispatcher.taskWeight+(x.workers.map Worker.weight).sum

def inHands (x : Shared) (t : ℕ) : ℕ := (x.workers.map (Worker.holds t)).sum

def running (x : Shared) (t : ℕ) : ℕ := (x.workers.map (Worker.runs t)).sum

/-- How often the task is on its way to the end of its invocation. -/
def holds (x : Shared) (t : ℕ) : ℕ := x.tasks.count t+x.dispatcher.holds t+x.inHands t

end Shared

theorem only_zero (task t : ℕ) : only task 0 t = 0 := by
  rw [only]
  split_ifs <;> rfl

theorem count_task (task t : ℕ) : [task].count t = only task 1 t := by
  rw [List.count_singleton, only]
  simp only [beq_iff_eq]

/-! A step moves a task from one place to the next. -/

/-- The counters stay right over a step. `weight` and `sends` are those of the call before and after
it, and `e` is what happens to an invocation. -/
structure Conserves (x x' : Shared) (weight weight' : ℕ) (sends sends' : ℕ → ℕ) (e : Event) : Prop where
  wg : x'.wg+weight+x.load = x.wg+weight'+x'.load
  taskWg : x'.taskWg+x.busy = x.taskWg+x'.busy
  holds : ∀ t, x'.holds t+sends t+[e].count (.completed t) = x.holds t+sends' t
  inHands : ∀ t, x.inHands t ≤ x'.inHands t+[e].count (.completed t)
  running : ∀ t, x'.running t+[e].count (.completed t) = x.running t+[e].count (.started t)

section
variable {x x' : Shared} {weight weight' : ℕ} {sends sends' : ℕ → ℕ} {e : Event} {w : ℕ} {v v' : Worker}

/-- A step that does not touch the workers. -/
theorem conserves_of_workers_eq (hworkers : x'.workers = x.workers)
    (hwg : x'.wg+weight+x.load = x.wg+weight'+x'.load)
    (htaskWg : x'.taskWg+x.dispatcher.taskWeight = x.taskWg+x'.dispatcher.taskWeight)
    (hholds : ∀ t, x'.tasks.count t+x'.dispatcher.holds t+sends t = x.tasks.count t+x.dispatcher.holds t+sends' t) :
    Conserves x x' weight weight' sends sends' .silent := by
  have hinHands : x'.inHands = x.inHands := by
    funext t
    rw [Shared.inHands, Shared.inHands, hworkers]
  refine ⟨hwg, ?_, fun t => ?_, fun t => ?_, fun t => ?_⟩
  · rw [Shared.busy, Shared.busy, hworkers]
    omega
  · have h := hholds t
    rw [Shared.holds, Shared.holds, hinHands, List.count_singleton]
    simp only [beq_iff_eq, reduceCtorEq, if_false]
    omega
  · rw [hinHands]
    exact Nat.le_add_right _ _
  · rw [Shared.running, Shared.running, hworkers]
    rfl

/-- A step that takes one worker from `v` to `v'`. -/
theorem conserves_of_set (hv : x.workers[w]? = some v) (hworkers : x'.workers = x.workers.set w v')
    (hwg : x'.wg+weight+x.load = x.wg+weight'+x'.load)
    (htaskWg : x'.taskWg+x.dispatcher.taskWeight+v.weight = x.taskWg+x'.dispatcher.taskWeight+v'.weight)
    (hholds : ∀ t, x'.tasks.count t+x'.dispatcher.holds t+v'.holds t+sends t+[e].count (.completed t) =
      x.tasks.count t+x.dispatcher.holds t+v.holds t+sends' t)
    (hinHands : ∀ t, v.holds t ≤ v'.holds t+[e].count (.completed t))
    (hrunning : ∀ t, v'.runs t+[e].count (.completed t) = v.runs t+[e].count (.started t)) :
    Conserves x x' weight weight' sends sends' e := by
  have hset (f : Worker → ℕ) : (x'.workers.map f).sum+f v = (x.workers.map f).sum+f v' := by
    rw [hworkers]
    exact sum_map_set f hv
  refine ⟨hwg, ?_, fun t => ?_, fun t => ?_, fun t => ?_⟩
  · have h := hset Worker.weight
    rw [Shared.busy, Shared.busy]
    omega
  · have h := hset (Worker.holds t)
    have h' := hholds t
    rw [Shared.holds, Shared.holds, Shared.inHands, Shared.inHands]
    omega
  · have h := hset (Worker.holds t)
    have h' := hinHands t
    rw [Shared.inHands, Shared.inHands]
    omega
  · have h := hset (Worker.runs t)
    have h' := hrunning t
    rw [Shared.running, Shared.running]
    omega

theorem conserves_refl (x : Shared) (weight : ℕ) (sends : ℕ → ℕ) : Conserves x x weight weight sends sends .silent :=
  conserves_of_workers_eq rfl rfl rfl (fun _ => rfl)

theorem Conserves.succ (h : Conserves x x' weight weight' sends sends' e) :
    Conserves x x' (1+weight) (1+weight') sends sends' e := by
  have hwg := h.wg
  exact ⟨by omega, h.taskWg, h.holds, h.inHands, h.running⟩

theorem conserves_wgDone (h : x.wgDone = some x') (sends : ℕ → ℕ) : Conserves x x' 1 0 sends sends .silent := by
  rw [Shared.wgDone] at h
  split_ifs at h with hzero
  cases h
  refine conserves_of_workers_eq rfl ?_ rfl (fun _ => rfl)
  dsimp only [Shared.load]
  omega

end

section
variable {x x' : Shared} {k : ℕ} {direct : Bool}

theorem conserves_send (h : x.send k direct = some x') : Conserves x x' 1 0 (only k 0) (only k 1) .silent := by
  rw [Shared.send] at h
  split_ifs at h with hdirect hmeet hroom
  · cases h
    have hwaiting := hmeet.2
    refine conserves_of_workers_eq rfl ?_ ?_ (fun t => ?_)
    · rw [Shared.load, Shared.load, hwaiting]
      dsimp only [Dispatcher.weight]
      omega
    · rw [hwaiting]
      rfl
    · rw [hwaiting, only_zero]
      dsimp only [Dispatcher.holds]
      omega
  · cases h
    refine conserves_of_workers_eq rfl ?_ rfl (fun t => ?_)
    · dsimp only [Shared.load]
      rw [List.length_append, List.length_singleton]
      omega
    · dsimp only
      rw [List.count_append, count_task, only_zero]
      omega

theorem Submission.advance_conserves {pc pc' : Submission} (h : pc.advance x k direct = some (pc', x')) :
    Conserves x x' pc.weight pc'.weight (only k pc.sends) (only k pc'.sends) .silent := by
  cases pc with
  | entered =>
    rw [Submission.advance] at h
    split_ifs at h with hstate
    · cases h
      exact conserves_refl x 0 _
    · cases h
      exact conserves_refl x 0 _
  | admitted =>
    cases h
    refine conserves_of_workers_eq rfl ?_ rfl (fun _ => rfl)
    dsimp only [Shared.load, Submission.weight]
  | counted =>
    obtain ⟨y, hsend, hy⟩ := Option.map_eq_some_iff.mp h
    cases hy
    exact conserves_send hsend
  | sent => cases h
  | refused => cases h

theorem Delayed.advance_spawned {inner : Submission} (hsent : inner ≠ .sent) (hrefused : inner ≠ .refused) :
    (Delayed.spawned inner).advance x k direct = (inner.advance x k direct).map fun r => (.spawned r.1, r.2) := by
  cases inner with
  | sent => exact absurd rfl hsent
  | refused => exact absurd rfl hrefused
  | _ => rfl

theorem Delayed.advance_conserves {pc pc' : Delayed} (h : pc.advance x k direct = some (pc', x')) :
    Conserves x x' pc.weight pc'.weight (only k pc.sends) (only k pc'.sends) .silent := by
  cases pc with
  | entered =>
    rw [Delayed.advance] at h
    split_ifs at h with hstate
    · cases h
      exact conserves_refl x 0 _
    · cases h
      exact conserves_refl x 0 _
  | refused => cases h
  | admitted =>
    cases h
    refine conserves_of_workers_eq rfl ?_ rfl (fun _ => rfl)
    dsimp only [Shared.load, Delayed.weight, Submission.weight]
  | spawned inner =>
    by_cases hsent : inner = .sent
    · subst hsent
      obtain ⟨y, hdone, hy⟩ := Option.map_eq_some_iff.mp h
      cases hy
      exact conserves_wgDone hdone _
    by_cases hrefused : inner = .refused
    · subst hrefused
      obtain ⟨y, hdone, hy⟩ := Option.map_eq_some_iff.mp h
      cases hy
      exact conserves_wgDone hdone _
    rw [Delayed.advance_spawned hsent hrefused] at h
    obtain ⟨r, hr, heq⟩ := Option.map_eq_some_iff.mp h
    cases heq
    exact (Submission.advance_conserves hr).succ
  | finished sent => cases h

theorem Stopping.advance_conserves {pc pc' : Stopping} (h : pc.advance x = some (pc', x')) :
    Conserves x x' 0 0 (only k 0) (only k 0) .silent := by
  cases pc with
  | entered =>
    cases h
    exact conserves_refl x 0 _
  | admitted =>
    cases h
    exact conserves_of_workers_eq rfl rfl rfl (fun _ => rfl)
  | closing =>
    obtain ⟨-, h⟩ := Option.ite_none_right_eq_some.mp h
    cases h
    exact conserves_refl x 0 _
  | drained =>
    obtain ⟨hwaiting, h⟩ := Option.ite_none_right_eq_some.mp h
    cases h
    refine conserves_of_workers_eq rfl ?_ ?_ (fun t => ?_)
    · rw [Shared.load, Shared.load, hwaiting]
      rfl
    · rw [hwaiting]
      rfl
    · rw [hwaiting]
      rfl
  | dispatcherStopped =>
    obtain ⟨-, h⟩ := Option.ite_none_right_eq_some.mp h
    cases h
    exact conserves_refl x 0 _
  | stopping i =>
    rw [Stopping.advance] at h
    split_ifs at h with hi hpool
    · cases havailable : x.availableWorker with
      | nil =>
        rw [havailable] at h
        cases h
      | cons w rest =>
        rw [havailable] at h
        cases h
        exact conserves_of_workers_eq rfl rfl rfl (fun _ => rfl)
    · cases h
      exact conserves_refl x 0 _
  | holding i w =>
    obtain ⟨hready, h⟩ := Option.ite_none_right_eq_some.mp h
    cases h
    exact conserves_of_set hready rfl rfl rfl (fun _ => rfl) (fun _ => Nat.le_refl _) (fun _ => rfl)
  | refused => cases h
  | returned => cases h

theorem Procedure.advance_conserves {p p' : Procedure} (h : p.advance x k direct = some (p', x')) :
    Conserves x x' p.weight p'.weight (only k p.sends) (only k p'.sends) .silent := by
  cases p with
  | submit pc =>
    obtain ⟨r, hr, heq⟩ := Option.map_eq_some_iff.mp h
    cases heq
    exact Submission.advance_conserves hr
  | submitDelayed pc =>
    obtain ⟨r, hr, heq⟩ := Option.map_eq_some_iff.mp h
    cases heq
    exact Delayed.advance_conserves hr
  | wait returned =>
    cases returned with
    | false =>
      obtain ⟨-, h⟩ := Option.ite_none_right_eq_some.mp h
      cases h
      exact conserves_refl x 0 _
    | true => cases h
  | stop pc =>
    obtain ⟨r, hr, heq⟩ := Option.map_eq_some_iff.mp h
    cases heq
    exact Stopping.advance_conserves hr

theorem Shared.dispatch_conserves (h : x.dispatch = some x') (sends : ℕ → ℕ) :
    Conserves x x' 0 0 sends sends .silent := by
  obtain ⟨state, queueLength, tasks, wg, dispatcher, workers, availableWorker, taskWg, poolWg⟩ := x
  cases dispatcher with
  | waiting =>
    cases tasks with
    | nil => cases h
    | cons task rest =>
      cases h
      refine conserves_of_workers_eq rfl ?_ rfl (fun t => ?_)
      · dsimp only [Shared.load, Dispatcher.weight]
        rw [List.length_cons]
      · have hcount : (task :: rest).count t = only task 1 t+rest.count t := by
          rw [← count_task, ← List.count_append]
          rfl
        dsimp only [Dispatcher.holds]
        omega
  | received task =>
    cases h
    exact conserves_of_workers_eq rfl rfl rfl (fun _ => rfl)
  | counted task =>
    cases availableWorker with
    | nil => cases h
    | cons w rest =>
      cases h
      exact conserves_of_workers_eq rfl rfl rfl (fun _ => rfl)
  | paired task w =>
    -- from here on the worker has the task
    obtain ⟨hready, h⟩ := Option.ite_none_right_eq_some.mp h
    cases h
    exact conserves_of_set hready rfl rfl rfl (fun _ => rfl) (fun _ => Nat.zero_le _) (fun _ => rfl)
  | handed =>
    obtain ⟨y, hdone, hy⟩ := Option.map_eq_some_iff.mp h
    cases hy
    obtain ⟨hpos, hdone⟩ := Option.ite_none_left_eq_some.mp hdone
    cases hdone
    refine conserves_of_workers_eq rfl ?_ rfl (fun _ => rfl)
    dsimp only [Shared.load, Dispatcher.weight] at hpos ⊢
    omega
  | exited => cases h

theorem Shared.work_conserves {w : ℕ} {e : Event} (h : x.work w = some (x', e)) (sends : ℕ → ℕ) :
    Conserves x x' 0 0 sends sends e := by
  rw [Shared.work] at h
  cases hw : x.workers[w]? with
  | none =>
    rw [hw] at h
    cases h
  | some v =>
    rw [hw] at h
    cases v with
    | starting =>
      obtain ⟨-, h⟩ := Option.ite_none_right_eq_some.mp h
      cases h
      exact conserves_of_set hw rfl rfl rfl (fun _ => rfl) (fun _ => Nat.le_refl _) (fun _ => rfl)
    | ready => cases h
    | received task =>
      cases h
      refine conserves_of_set hw rfl rfl rfl (fun t => ?_) (fun _ => Nat.le_add_right _ _) (fun t => ?_)
      · rw [List.count_singleton]
        simp [Worker.holds]
      · simp [Worker.runs, List.count_singleton, only]
    | running task =>
      cases h
      refine conserves_of_set hw rfl rfl rfl (fun t => ?_) (fun t => ?_) (fun t => ?_)
      · simp [Worker.holds, List.count_singleton, only]
        omega
      · simp [Worker.holds, List.count_singleton, only]
      · simp [Worker.runs, List.count_singleton, only]
    | finished =>
      obtain ⟨hpos, h⟩ := Option.ite_none_left_eq_some.mp h
      cases h
      refine conserves_of_set hw rfl rfl ?_ (fun _ => rfl) (fun _ => Nat.le_refl _) (fun _ => rfl)
      dsimp only [Worker.weight]
      omega
    | stopping =>
      obtain ⟨-, h⟩ := Option.ite_none_left_eq_some.mp h
      cases h
      exact conserves_of_set hw rfl rfl rfl (fun _ => rfl) (fun _ => Nat.le_refl _) (fun _ => rfl)
    | stopped => cases h

end

/-! The steps of the whole system. -/

/-- How often the task of a call was sent. -/
def System.sends (s : System) (t : ℕ) : ℕ := (s.calls[t]?.map Procedure.sends).getD 0

section
variable {s s' : System} {a : Action} {e : Event} {os : List Event}

theorem Kind.weight_enter (kind : Kind) : kind.enter.weight = 0 := by
  cases kind <;> rfl

theorem Kind.sends_enter (kind : Kind) : kind.enter.sends = 0 := by
  cases kind <;> rfl

/-- The call `t` is as before, or it was its turn. -/
theorem step_call {t : ℕ} {p : Procedure} (h : step s a = some (s', e)) (hp : s.calls[t]? = some p) :
    s'.calls[t]? = some p ∨
      ∃ direct p', p.advance s.shared t direct = some (p', s'.shared) ∧ s'.calls[t]? = some p' := by
  cases a with
  | call kind =>
    cases h
    exact Or.inl (List.getElem?_append_left (List.getElem?_eq_some_iff.mp hp).1 ▸ hp)
  | advance k direct =>
    obtain ⟨q, hq, h⟩ := Option.bind_eq_some_iff.mp h
    obtain ⟨⟨q', x⟩, hx, h⟩ := Option.bind_eq_some_iff.mp h
    cases h
    by_cases hk : k = t
    · subst hk
      cases hq.symm.trans hp
      exact Or.inr ⟨direct, q', hx, List.getElem?_set_self (List.getElem?_eq_some_iff.mp hp).1⟩
    · exact Or.inl ((List.getElem?_set_ne hk).trans hp)
  | dispatch =>
    obtain ⟨x, -, h⟩ := Option.map_eq_some_iff.mp h
    cases h
    exact Or.inl hp
  | work w =>
    obtain ⟨r, -, h⟩ := Option.map_eq_some_iff.mp h
    cases h
    exact Or.inl hp

/-- Where the call `t` comes from. -/
theorem step_call_back {t : ℕ} {p' : Procedure} (h : step s a = some (s', e)) (hp' : s'.calls[t]? = some p') :
    (∃ kind : Kind, p' = kind.enter) ∨ s.calls[t]? = some p' ∨
      ∃ direct p, s.calls[t]? = some p ∧ p.advance s.shared t direct = some (p', s'.shared) := by
  cases a with
  | call kind =>
    cases h
    rcases getElem?_snoc hp' with hold | ⟨-, rfl⟩
    · exact Or.inr (Or.inl hold)
    · exact Or.inl ⟨kind, rfl⟩
  | advance k direct =>
    obtain ⟨q, hq, h⟩ := Option.bind_eq_some_iff.mp h
    obtain ⟨⟨q', x⟩, hx, h⟩ := Option.bind_eq_some_iff.mp h
    cases h
    rcases getElem?_set_cases hp' with ⟨rfl, rfl⟩ | ⟨-, hold⟩
    · exact Or.inr (Or.inr ⟨direct, q, hq, hx⟩)
    · exact Or.inr (Or.inl hold)
  | dispatch =>
    obtain ⟨x, -, h⟩ := Option.map_eq_some_iff.mp h
    cases h
    exact Or.inr (Or.inl hp')
  | work w =>
    obtain ⟨r, -, h⟩ := Option.map_eq_some_iff.mp h
    cases h
    exact Or.inr (Or.inl hp')

/-- Every step conserves, with the call that it belongs to. -/
theorem step_conserves (h : step s a = some (s', e)) :
    ∃ weight weight' sends sends', Conserves s.shared s'.shared weight weight' sends sends' e ∧
      (s'.calls.map Procedure.weight).sum+weight = (s.calls.map Procedure.weight).sum+weight' ∧
      ∀ t, s'.sends t+sends t = s.sends t+sends' t := by
  cases a with
  | call kind =>
    cases h
    refine ⟨0, 0, fun _ => 0, fun _ => 0, conserves_refl _ _ _, ?_, fun t => ?_⟩
    · dsimp only
      rw [List.map_append, List.sum_append, List.map_singleton, List.sum_singleton, kind.weight_enter]
    · dsimp only [System.sends]
      rw [List.getElem?_append]
      split_ifs with ht
      · rfl
      · rw [List.getElem?_eq_none (Nat.le_of_not_lt ht)]
        cases t-s.calls.length with
        | zero => exact congrArg (·+0) kind.sends_enter
        | succ n => rfl
  | advance k direct =>
    obtain ⟨p, hp, h⟩ := Option.bind_eq_some_iff.mp h
    obtain ⟨⟨p', x⟩, hx, h⟩ := Option.bind_eq_some_iff.mp h
    cases h
    refine ⟨_, _, _, _, Procedure.advance_conserves hx, sum_map_set Procedure.weight hp, fun t => ?_⟩
    dsimp only [System.sends, only]
    by_cases hk : k = t
    · subst hk
      rw [List.getElem?_set_self (List.getElem?_eq_some_iff.mp hp).1, hp, if_pos rfl, if_pos rfl]
      exact Nat.add_comm _ _
    · rw [List.getElem?_set_ne hk, if_neg hk, if_neg hk]
  | dispatch =>
    obtain ⟨x, hx, h⟩ := Option.map_eq_some_iff.mp h
    cases h
    exact ⟨0, 0, fun _ => 0, fun _ => 0, Shared.dispatch_conserves hx _, rfl, fun _ => rfl⟩
  | work w =>
    obtain ⟨⟨x, e'⟩, hx, h⟩ := Option.map_eq_some_iff.mp h
    cases h
    exact ⟨0, 0, fun _ => 0, fun _ => 0, Shared.work_conserves hx _, rfl, fun _ => rfl⟩

/-- The counters count the tasks that are on their way, and a task that was sent is at one place, or
its invocation has ended. -/
structure Invariant (s : System) (os : List Event) : Prop where
  wg : s.shared.wg = (s.calls.map Procedure.weight).sum+s.shared.load
  taskWg : s.shared.taskWg = s.shared.busy
  holds : ∀ t, s.shared.holds t+os.count (.completed t) = s.sends t
  invoked : ∀ t, os.count (.started t) = os.count (.completed t)+s.shared.running t

theorem invariant_start (concurrency queueLength : ℕ) : Invariant (start concurrency queueLength) [] := by
  have hsum (f : Worker → ℕ) (hf : f .starting = 0) : ((List.replicate concurrency Worker.starting).map f).sum = 0 := by
    rw [List.map_replicate, hf, List.sum_replicate, smul_zero]
  refine ⟨rfl, ?_, fun t => ?_, fun t => ?_⟩
  · exact ((Nat.zero_add _).trans (hsum Worker.weight rfl)).symm
  · exact (Nat.zero_add _).trans (hsum (Worker.holds t) rfl)
  · exact ((Nat.zero_add _).trans (hsum (Worker.runs t) rfl)).symm

theorem Invariant.step (hs : Invariant s os) (h : step s a = some (s', e)) : Invariant s' (os ++ [e]) := by
  obtain ⟨weight, weight', sends, sends', hconserves, hweight, hsends⟩ := step_conserves h
  refine ⟨?_, ?_, fun t => ?_, fun t => ?_⟩
  · have h0 := hs.wg
    have h1 := hconserves.wg
    omega
  · have h0 := hs.taskWg
    have h1 := hconserves.taskWg
    omega
  · have h0 := hs.holds t
    have h1 := hconserves.holds t
    have h2 := hsends t
    rw [List.count_append]
    omega
  · have h0 := hs.invoked t
    have h1 := hconserves.running t
    rw [List.count_append, List.count_append]
    omega

end

/-! The calls. -/

/-- The call has returned nil. -/
def Procedure.accepted : Procedure → Bool
  | .submit .sent => true
  | .submitDelayed (.spawned _) => true
  | .submitDelayed (.finished _) => true
  | _ => false

/-- The task of a call that had returned nil was refused when its time came. -/
def Procedure.dropped : Procedure → Bool
  | .submitDelayed (.spawned .refused) => true
  | .submitDelayed (.finished false) => true
  | _ => false

/-- From 1 on `Wait` or `Stop` has seen no outstanding task, and from 2 on `Stop` has after that seen no
task at work. -/
def Procedure.phase : Procedure → ℕ
  | .wait true => 1
  | .stop .drained => 1
  | .stop .dispatcherStopped => 1
  | .stop (.stopping _) => 2
  | .stop (.holding _ _) => 2
  | .stop .returned => 2
  | _ => 0

section
variable {x x' : Shared} {k : ℕ} {direct : Bool} {p p' : Procedure}

theorem Procedure.sends_le (p : Procedure) : p.sends ≤ 1 := by
  rcases p with pc | pc | returned | pc
  · cases pc <;> decide
  · rcases pc with _ | _ | _ | inner | sent
    · decide
    · decide
    · decide
    · cases inner <;> decide
    · cases sent <;> decide
  · exact Nat.zero_le 1
  · exact Nat.zero_le 1

theorem Procedure.phase_le (p : Procedure) : p.phase ≤ 2 := by
  rcases p with pc | pc | returned | pc
  · exact Nat.zero_le 2
  · exact Nat.zero_le 2
  · cases returned <;> decide
  · cases pc <;> simp [Procedure.phase]

theorem Procedure.sends_of_dropped (h : p.dropped = true) : p.sends = 0 := by
  match p, h with
  | .submitDelayed (.spawned .refused), _ => rfl
  | .submitDelayed (.finished false), _ => rfl

/-- A call that has returned nil and has nothing left in the wait group has sent its task or
dropped it. -/
theorem Procedure.sends_or_dropped (h : p.accepted = true) (hweight : p.weight = 0) :
    p.sends = 1 ∨ p.dropped = true := by
  match p, h, hweight with
  | .submit .sent, _, _ => exact Or.inl rfl
  | .submitDelayed (.spawned inner), _, hweight =>
    dsimp only [Procedure.weight, Delayed.weight] at hweight
    omega
  | .submitDelayed (.finished true), _, _ => exact Or.inl rfl
  | .submitDelayed (.finished false), _, _ => exact Or.inr rfl

theorem Procedure.accepted_advance (h : p.advance x k direct = some (p', x')) (hp : p.accepted = true) :
    p'.accepted = true := by
  match p, hp with
  | .submit .sent, _ => cases h
  | .submitDelayed (.finished sent), _ => cases h
  | .submitDelayed (.spawned inner), _ =>
    obtain ⟨r, hr, heq⟩ := Option.map_eq_some_iff.mp h
    cases heq
    by_cases hsent : inner = .sent
    · subst hsent
      obtain ⟨y, -, hy⟩ := Option.map_eq_some_iff.mp hr
      cases hy
      rfl
    by_cases hrefused : inner = .refused
    · subst hrefused
      obtain ⟨y, -, hy⟩ := Option.map_eq_some_iff.mp hr
      cases hy
      rfl
    rw [Delayed.advance_spawned hsent hrefused] at hr
    obtain ⟨q, -, hq⟩ := Option.map_eq_some_iff.mp hr
    cases hq
    rfl

theorem Procedure.dropped_advance (h : p.advance x k direct = some (p', x')) (hp : p.dropped = true) :
    p'.dropped = true := by
  match p, hp with
  | .submitDelayed (.finished false), _ => cases h
  | .submitDelayed (.spawned .refused), _ =>
    obtain ⟨r, hr, heq⟩ := Option.map_eq_some_iff.mp h
    cases heq
    obtain ⟨y, -, hy⟩ := Option.map_eq_some_iff.mp hr
    cases hy
    rfl

/-- A phase begins with a look at one of the counters. -/
theorem Procedure.phase_advance (h : p.advance x k direct = some (p', x')) :
    p'.phase ≤ p.phase ∨ p'.phase = 1 ∧ x.wg = 0 ∨ p.phase = 1 ∧ x.taskWg = 0 := by
  cases p with
  | submit pc =>
    obtain ⟨r, -, heq⟩ := Option.map_eq_some_iff.mp h
    cases heq
    exact Or.inl (Nat.le_refl 0)
  | submitDelayed pc =>
    obtain ⟨r, -, heq⟩ := Option.map_eq_some_iff.mp h
    cases heq
    exact Or.inl (Nat.le_refl 0)
  | wait returned =>
    cases returned with
    | false =>
      obtain ⟨hwg, h⟩ := Option.ite_none_right_eq_some.mp h
      cases h
      exact Or.inr (Or.inl ⟨rfl, hwg⟩)
    | true => cases h
  | stop pc =>
    obtain ⟨r, hr, heq⟩ := Option.map_eq_some_iff.mp h
    cases heq
    cases pc with
    | entered =>
      rw [Stopping.advance] at hr
      split_ifs at hr with hstate
      · cases hr
        exact Or.inl (Nat.le_refl 0)
      · cases hr
        exact Or.inl (Nat.le_refl 0)
    | refused => cases hr
    | admitted =>
      cases hr
      exact Or.inl (Nat.le_refl 0)
    | closing =>
      obtain ⟨hwg, hr⟩ := Option.ite_none_right_eq_some.mp hr
      cases hr
      exact Or.inr (Or.inl ⟨rfl, hwg⟩)
    | drained =>
      obtain ⟨-, hr⟩ := Option.ite_none_right_eq_some.mp hr
      cases hr
      exact Or.inl (Nat.le_refl 1)
    | dispatcherStopped => exact Or.inr (Or.inr ⟨rfl, (Option.ite_none_right_eq_some.mp hr).1⟩)
    | _ => exact Or.inl (Procedure.phase_le _)

theorem Kind.phase_enter (kind : Kind) : kind.enter.phase = 0 := by
  cases kind <;> rfl

end

def System.Accepted (s : System) (t : ℕ) : Prop := ∃ p, s.calls[t]? = some p ∧ p.accepted = true

def System.Dropped (s : System) (t : ℕ) : Prop := ∃ p, s.calls[t]? = some p ∧ p.dropped = true

/-- The task was invoked once, and the invocation has ended. -/
def Done (os : List Event) (t : ℕ) : Prop := os.count (.started t) = 1 ∧ os.count (.completed t) = 1

section
variable {s s' u u' : System} {a : Action} {e : Event} {os : List Event} {t k : ℕ}

theorem System.Accepted.step (ht : s.Accepted t) (h : step s a = some (s', e)) : s'.Accepted t := by
  obtain ⟨p, hp, haccepted⟩ := ht
  rcases step_call h hp with hsame | ⟨direct, p', hadvance, hp'⟩
  · exact ⟨p, hsame, haccepted⟩
  · exact ⟨p', hp', p.accepted_advance hadvance haccepted⟩

theorem System.Dropped.step (ht : s.Dropped t) (h : step s a = some (s', e)) : s'.Dropped t := by
  obtain ⟨p, hp, hdropped⟩ := ht
  rcases step_call h hp with hsame | ⟨direct, p', hadvance, hp'⟩
  · exact ⟨p, hsame, hdropped⟩
  · exact ⟨p', hp', p.dropped_advance hadvance hdropped⟩

theorem Shared.running_le_inHands (x : Shared) (t : ℕ) : x.running t ≤ x.inHands t := by
  refine List.sum_le_sum fun v _ => ?_
  cases v with
  | running task => exact Nat.le_refl _
  | _ => exact Nat.zero_le _

theorem Shared.inHands_le_busy (x : Shared) (t : ℕ) : x.inHands t ≤ x.busy := by
  refine Nat.le_trans (List.sum_le_sum fun v _ => ?_) (Nat.le_add_left _ _)
  have honly (task : ℕ) : only task 1 t ≤ 1 := by
    rw [only]
    split_ifs
    · exact Nat.le_refl 1
    · exact Nat.zero_le 1
  cases v with
  | received task => exact honly task
  | running task => exact honly task
  | _ => exact Nat.zero_le _

theorem Shared.holds_of_load (h : s.shared.load = 0) (t : ℕ) : s.shared.holds t = s.shared.inHands t := by
  obtain ⟨htasks, hdispatcher⟩ := Nat.add_eq_zero_iff.mp h
  rw [Shared.holds, List.eq_nil_of_length_eq_zero htasks]
  cases hd : s.shared.dispatcher with
  | waiting => simp [Dispatcher.holds]
  | exited => simp [Dispatcher.holds]
  | _ =>
    rw [hd] at hdispatcher
    cases hdispatcher

theorem Invariant.sends_le (hs : Invariant s os) (t : ℕ) : s.shared.holds t+os.count (.completed t) ≤ 1 := by
  rw [hs.holds t, System.sends]
  cases s.calls[t]? with
  | none => exact Nat.zero_le 1
  | some p => exact p.sends_le

/-- No task is invoked twice. -/
theorem Invariant.invoked_le (hs : Invariant s os) (t : ℕ) : os.count (.started t) ≤ 1 := by
  have hle := hs.sends_le t
  have hrunning := s.shared.running_le_inHands t
  rw [hs.invoked t]
  rw [Shared.holds] at hle
  omega

theorem Invariant.done_of_completed (hs : Invariant s os) (h : 0 < os.count (.completed t)) : Done os t := by
  have hle := hs.sends_le t
  have hrunning := s.shared.running_le_inHands t
  have hinvoked := hs.invoked t
  rw [Shared.holds] at hle
  exact ⟨by omega, by omega⟩

theorem Invariant.not_done_of_dropped (hs : Invariant s os) (h : s.Dropped t) : ¬Done os t := by
  obtain ⟨p, hp, hdropped⟩ := h
  have hholds := hs.holds t
  rw [System.sends, hp, Option.map_some, Option.getD_some, Procedure.sends_of_dropped hdropped] at hholds
  rintro ⟨-, hcompleted⟩
  omega

/-- Without outstanding tasks, those that were accepted are in the hands of workers, completed or
dropped. -/
theorem Invariant.handed_of_wg (hs : Invariant s os) (hwg : s.shared.wg = 0) (ht : s.Accepted t) :
    0 < s.shared.inHands t+os.count (.completed t) ∨ s.Dropped t := by
  obtain ⟨p, hp, haccepted⟩ := ht
  have hsum := hs.wg
  have hle := le_sum_map Procedure.weight hp
  rcases Procedure.sends_or_dropped haccepted (by omega) with hsends | hdropped
  · have hholds := hs.holds t
    rw [System.sends, hp, Option.map_some, Option.getD_some, hsends, Shared.holds_of_load (by omega)] at hholds
    exact Or.inl (by omega)
  · exact Or.inr ⟨p, hp, hdropped⟩

/-- What the call `k` has waited for, as far as the tasks are concerned that were accepted in `s`. -/
structure Awaited (s : System) (k : ℕ) (u : System) (os : List Event) : Prop where
  accepted : ∀ t, s.Accepted t → u.Accepted t
  handed : ∀ p, u.calls[k]? = some p → 1 ≤ p.phase → ∀ t, s.Accepted t →
    0 < u.shared.inHands t+os.count (.completed t) ∨ u.Dropped t
  settled : ∀ p, u.calls[k]? = some p → 2 ≤ p.phase → ∀ t, s.Accepted t →
    0 < os.count (.completed t) ∨ u.Dropped t

theorem Awaited.step (hu : Invariant u os) (h : Awaited s k u os) (hstep : step u a = some (u', e)) :
    Awaited s k u' (os ++ [e]) := by
  obtain ⟨_, _, _, _, hconserves, -, -⟩ := step_conserves hstep
  -- both are kept once they hold
  have hhanded {t : ℕ} (ht : 0 < u.shared.inHands t+os.count (.completed t) ∨ u.Dropped t) :
      0 < u'.shared.inHands t+(os ++ [e]).count (.completed t) ∨ u'.Dropped t := by
    have hmono := hconserves.inHands t
    rw [List.count_append]
    exact ht.imp (fun h => by omega) (fun h => h.step hstep)
  have hsettled {t : ℕ} (ht : 0 < os.count (.completed t) ∨ u.Dropped t) :
      0 < (os ++ [e]).count (.completed t) ∨ u'.Dropped t := by
    rw [List.count_append]
    exact ht.imp (fun h => by omega) (fun h => h.step hstep)
  refine ⟨fun t ht => (h.accepted t ht).step hstep, fun p' hp' hphase t ht => hhanded ?_,
    fun p' hp' hphase t ht => hsettled ?_⟩
  · rcases step_call_back hstep hp' with ⟨kind, rfl⟩ | hsame | ⟨direct, p, hp, hadvance⟩
    · rw [kind.phase_enter] at hphase
      cases hphase
    · exact h.handed p' hsame hphase t ht
    · rcases Procedure.phase_advance hadvance with hle | ⟨-, hwg⟩ | ⟨hone, -⟩
      · exact h.handed p hp (hphase.trans hle) t ht
      · exact hu.handed_of_wg hwg (h.accepted t ht)
      · exact h.handed p hp hone.ge t ht
  · rcases step_call_back hstep hp' with ⟨kind, rfl⟩ | hsame | ⟨direct, p, hp, hadvance⟩
    · rw [kind.phase_enter] at hphase
      cases hphase
    · exact h.settled p' hsame hphase t ht
    · rcases Procedure.phase_advance hadvance with hle | ⟨hone, -⟩ | ⟨hone, htaskWg⟩
      · exact h.settled p hp (hphase.trans hle) t ht
      · omega
      · -- no worker is left that could have the task
        have hbusy := u.shared.inHands_le_busy t
        have htotal := hu.taskWg
        exact (h.handed p hp hone.ge t ht).imp_left (fun hpos => by omega)

/-- What a call has waited for over a whole run. -/
theorem exec_awaited {concurrency queueLength : ℕ} {is is' : List Action} {os' : List Event} {kind : Kind}
    (hs : exec step (start concurrency queueLength) is = some (s, os))
    (hu : exec step s (.call kind :: is') = some (u, os')) :
    Invariant u (os ++ os') ∧ Awaited s s.calls.length u (os ++ os') := by
  have hinvariant : Invariant s os :=
    exec_invariant step (fun _ os s => Invariant s os) (invariant_start _ _) (fun _ _ _ _ _ _ _ hinv hstep => hinv.step hstep) hs
  obtain ⟨v, e, w, ws, hv, hw, hr⟩ := (exec_cons_eq_some step).mp hu
  cases hr
  have hlast : v.calls[s.calls.length]? = some kind.enter := by
    cases hv
    exact List.getElem?_concat_length
  have hfirst : Awaited s s.calls.length v (os ++ [e]) := by
    refine ⟨fun t ht => ht.step hv, fun p hp hphase => ?_, fun p hp hphase => ?_⟩
    · cases hlast.symm.trans hp
      rw [kind.phase_enter] at hphase
      cases hphase
    · cases hlast.symm.trans hp
      rw [kind.phase_enter] at hphase
      cases hphase
  have hrun := exec_invariant step
    (fun _ os' u => Invariant u (os ++ [e] ++ os') ∧ Awaited s s.calls.length u (os ++ [e] ++ os'))
    (by rw [List.append_nil]; exact ⟨hinvariant.step hv, hfirst⟩) (fun _ os' t i t' o _ ih hstep => by
      rw [← List.append_assoc]
      exact ⟨ih.1.step hstep, ih.2.step ih.1 hstep⟩) hw
  rw [List.append_assoc] at hrun
  exact hrun

end

/-- All that happens from a state on, if every step is possible. -/
def played (s : System) (is : List Action) : System × List Event := (exec step s is).getD (s, [])

theorem exec_played {s : System} {is : List Action} (h : (exec step s is).isSome = true) :
    exec step s is = some (played s is) := by
  rw [played]
  cases hrun : exec step s is with
  | none =>
    rw [hrun] at h
    cases h
  | some r => rfl

/-- A task is submitted. -/
def submitting : List Action := [.call .submit, .advance 0 false, .advance 0 false, .advance 0 false]

/-- The dispatcher hands it to the worker. -/
def handing : List Action := [.work 0, .dispatch, .dispatch, .dispatch, .dispatch, .dispatch]

/-- The worker invokes it. -/
def working : List Action := [.work 0, .work 0, .work 0]

/-- `Stop(true)`, as the second call, sets the state. -/
def closing : List Action := [.advance 1 false, .advance 1 false]

/-- It goes on to its end, with the worker. -/
def stopping : List Action :=
  [.advance 1 false, .advance 1 false, .advance 1 false, .work 0, .advance 1 false, .advance 1 false, .work 0,
    .advance 1 false]

theorem not_dropped_of_calls {u : System} (h : ∀ p ∈ u.calls, p.dropped = false) (t : ℕ) : ¬u.Dropped t := by
  rintro ⟨p, hp, hdropped⟩
  rw [h p (List.mem_of_getElem? hp)] at hdropped
  cases hdropped

/-- After the steps `is` the first call has returned nil, and when after `is'` a further call has come to
`p`, the task of the first call has not been invoked. -/
def LeavesBehind (is : List Action) (kind : Kind) (is' : List Action) (p : Procedure) : Prop :=
  ∃ s os u os', exec step (start 1 1) is = some (s, os) ∧ exec step s (.call kind :: is') = some (u, os') ∧
    s.Accepted 0 ∧ u.calls[s.calls.length]? = some p ∧ (os ++ os').count (.started 0) = 0

end Executor

open Executor

/-- Each task is invoked at most once. When `Stop(true)` has stopped the executor, the tasks that were
accepted before the call are done exactly if none of them was dropped, as a delayed task whose time comes
after the call has set the state. When `Wait` returns, some may also be in the hands of a worker still. -/
theorem executor_completes_iff {concurrency queueLength : ℕ} {is is' : List Action} {s u : System}
    {os os' : List Executor.Event} {kind : Kind} (hs : exec step (start concurrency queueLength) is = some (s, os))
    (hu : exec step s (.call kind :: is') = some (u, os')) :
    (∀ t, (os ++ os').count (.started t) ≤ 1) ∧
    (u.calls[s.calls.length]? = some (.stop .returned) →
      ((∀ t, s.Accepted t → Done (os ++ os') t) ↔ ∀ t, s.Accepted t → ¬u.Dropped t)) ∧
    (u.calls[s.calls.length]? = some (.wait true) →
      ((∀ t, s.Accepted t → Done (os ++ os') t) ↔
        ∀ t, s.Accepted t → ¬u.Dropped t ∧ u.shared.inHands t = 0)) := by
  obtain ⟨hinvariant, hawaited⟩ := exec_awaited hs hu
  have hnot {t : ℕ} (hdone : Done (os ++ os') t) : ¬u.Dropped t := fun h => hinvariant.not_done_of_dropped h hdone
  refine ⟨hinvariant.invoked_le, fun hreturned => ?_, fun hreturned => ?_⟩
  · constructor
    · intro h t ht
      exact hnot (h t ht)
    · intro h t ht
      rcases hawaited.settled _ hreturned (Nat.le_refl 2) t ht with hcompleted | hdropped
      · exact hinvariant.done_of_completed hcompleted
      · exact absurd hdropped (h t ht)
  · constructor
    · intro h t ht
      have hle := hinvariant.sends_le t
      have hcompleted := (h t ht).2
      rw [Shared.holds] at hle
      exact ⟨hnot (h t ht), by omega⟩
    · intro h t ht
      obtain ⟨hnone, hfree⟩ := h t ht
      rcases hawaited.handed _ hreturned (Nat.le_refl 1) t ht with hpos | hdropped
      · exact hinvariant.done_of_completed (by omega)
      · exact absurd hdropped hnone

/-- One task, one worker and `Stop(true)`: the task is done. -/
theorem stopped_after_task : ∃ s os u os', exec step (start 1 1) submitting = some (s, os) ∧
    exec step s (.call .stop :: (closing ++ handing ++ working ++ stopping)) = some (u, os') ∧ s.Accepted 0 ∧
    u.calls[s.calls.length]? = some (.stop .returned) ∧ Done (os ++ os') 0 := by
  have hs : exec step (start 1 1) submitting = some (played (start 1 1) submitting) := exec_played (by decide)
  have hu : exec step (played (start 1 1) submitting).1 (.call .stop :: (closing ++ handing ++ working ++ stopping)) =
      some (played _ _) := exec_played (by decide +kernel)
  have haccepted : (played (start 1 1) submitting).1.Accepted 0 := ⟨.submit .sent, by decide, rfl⟩
  refine ⟨_, _, _, _, hs, hu, haccepted, by decide +kernel, ?_⟩
  refine ((executor_completes_iff hs hu).2.1 (by decide +kernel)).mpr (fun t _ => ?_) 0 haccepted
  exact not_dropped_of_calls (by decide +kernel) t

/-- Tasks that have not been invoked when a call returns: one is in the hands of the worker when
`Wait` returns, one is delayed until `Stop(true)` has set the state, and one is in the queue when a
second `Stop(true)` returns. -/
theorem returned_before_task :
    LeavesBehind (submitting ++ handing) .wait [.advance 1 false] (.wait true) ∧
    LeavesBehind [.call .submitDelayed, .advance 0 false, .advance 0 false] .stop
      (closing ++ [.advance 0 false, .advance 0 false] ++ stopping) (.stop .returned) ∧
    LeavesBehind (submitting ++ .call .stop :: closing) .stop [.advance 2 false] (.stop .refused) := by
  refine ⟨⟨_, _, _, _, exec_played ?_, exec_played ?_, ⟨.submit .sent, ?_, rfl⟩, ?_, ?_⟩,
    ⟨_, _, _, _, exec_played ?_, exec_played ?_, ⟨.submitDelayed (.spawned .entered), ?_, rfl⟩, ?_, ?_⟩,
    ⟨_, _, _, _, exec_played ?_, exec_played ?_, ⟨.submit .sent, ?_, rfl⟩, ?_, ?_⟩⟩
  all_goals decide +kernel

end SecureChaincode
