import SecureChaincode.ExecutorRuns

/-! Nothing in the executor goes on for ever, and unless calls race with `Stop` nothing gets stuck:
when no process can take a step, every call has returned and the tasks are done. -/
namespace SecureChaincode

namespace Executor

/-! What the processes have still to do. -/

def Submission.cost : Submission → ℕ
  | .entered => 12
  | .admitted => 11
  | .counted => 10
  | .sent => 0
  | .refused => 0

def Delayed.cost : Delayed → ℕ
  | .entered => 15
  | .refused => 0
  | .admitted => 14
  | .spawned inner => 1+inner.cost
  | .finished _ => 0

/-- With `n` workers to stop. -/
def Stopping.cost (n : ℕ) : Stopping → ℕ
  | .entered => 3*n+6
  | .refused => 0
  | .admitted => 3*n+5
  | .closing => 3*n+4
  | .drained => 3*n+3
  | .dispatcherStopped => 3*n+2
  | .stopping i => 3*(n-i)+1
  | .holding i _ => 3*(n-(i+1))+3
  | .returned => 0

def Procedure.cost (n : ℕ) : Procedure → ℕ
  | .submit pc => pc.cost
  | .submitDelayed pc => pc.cost
  | .wait returned => if returned then 0 else 1
  | .stop pc => pc.cost n

def Dispatcher.cost : Dispatcher → ℕ
  | .waiting => 0
  | .received _ => 8
  | .counted _ => 7
  | .paired _ _ => 6
  | .handed => 1
  | .exited => 0

def Worker.cost : Worker → ℕ
  | .starting => 1
  | .ready => 0
  | .received _ => 4
  | .running _ => 3
  | .finished => 2
  | .stopping => 1
  | .stopped => 0

/-! Where a worker that is ready can be found, and how many have stopped. -/

def Worker.readiness : Worker → ℕ
  | .ready => 1
  | _ => 0

def Worker.aliveness : Worker → ℕ
  | .stopped => 0
  | _ => 1

def Worker.retirement : Worker → ℕ
  | .stopping => 1
  | .stopped => 1
  | _ => 0

def Dispatcher.has (w : ℕ) : Dispatcher → ℕ
  | .paired _ w' => only w' 1 w
  | _ => 0

def Procedure.has (w : ℕ) : Procedure → ℕ
  | .stop (.holding _ w') => only w' 1 w
  | _ => 0

/-- How many workers `Stop` has stopped. -/
def Procedure.retired (n : ℕ) : Procedure → ℕ
  | .stop (.stopping i) => i
  | .stop (.holding i _) => i
  | .stop .returned => n
  | _ => 0

/-- `Stop` has stopped the dispatcher. -/
def Procedure.passed : Procedure → ℕ
  | .stop .dispatcherStopped => 1
  | .stop (.stopping _) => 1
  | .stop (.holding _ _) => 1
  | .stop .returned => 1
  | _ => 0

def Procedure.Bounded (n : ℕ) : Procedure → Prop
  | .stop (.stopping i) => i ≤ n
  | .stop (.holding i _) => i < n
  | _ => True

def Dispatcher.exits : Dispatcher → ℕ
  | .exited => 1
  | _ => 0

namespace Shared

def rest (x : Shared) : ℕ := 9*x.tasks.length+x.dispatcher.cost

def cost (x : Shared) : ℕ := x.rest+(x.workers.map Worker.cost).sum

/-- How often the worker can be found in the channel of the pool, or with the dispatcher. -/
def spare (x : Shared) (w : ℕ) : ℕ := x.availableWorker.count w+x.dispatcher.has w

def isReady (x : Shared) (w : ℕ) : ℕ := (x.workers[w]?.map Worker.readiness).getD 0

def alive (x : Shared) : ℕ := (x.workers.map Worker.aliveness).sum

def retired (x : Shared) : ℕ := (x.workers.map Worker.retirement).sum

end Shared

/-- A step of a call from `p` to `p'`, or of another process if `p` and `p'` are the same call. -/
structure Balanced (x x' : Shared) (p p' : Procedure) : Prop where
  length : x'.workers.length = x.workers.length
  bounded : p'.Bounded x.workers.length
  spare : ∀ w, x'.spare w+p'.has w+x.isReady w = x.spare w+p.has w+x'.isReady w
  alive : x'.poolWg+x.alive = x.poolWg+x'.alive
  retired : x'.retired+p.retired x.workers.length = x.retired+p'.retired x.workers.length
  passed : x'.dispatcher.exits+p.passed = x.dispatcher.exits+p'.passed
  cost : p'.cost x.workers.length+x'.cost < p.cost x.workers.length+x.cost

section
variable {x x' : Shared} {p p' : Procedure} {w : ℕ} {v v' : Worker}

/-- A step that does not touch the workers. -/
theorem balanced_of_workers_eq (hworkers : x'.workers = x.workers) (hbounded : p'.Bounded x.workers.length)
    (hspare : ∀ u, x'.spare u+p'.has u = x.spare u+p.has u) (halive : x'.poolWg = x.poolWg)
    (hretired : p.retired x.workers.length = p'.retired x.workers.length)
    (hpassed : x'.dispatcher.exits+p.passed = x.dispatcher.exits+p'.passed)
    (hcost : p'.cost x.workers.length+x'.rest < p.cost x.workers.length+x.rest) : Balanced x x' p p' := by
  refine ⟨by rw [hworkers], hbounded, fun u => ?_, ?_, ?_, hpassed, ?_⟩
  · have h := hspare u
    rw [Shared.isReady, Shared.isReady, hworkers]
    omega
  · rw [Shared.alive, Shared.alive, hworkers, halive]
  · rw [Shared.retired, Shared.retired, hworkers, hretired]
  · rw [Shared.cost, Shared.cost, hworkers]
    omega

/-- A step that takes one worker from `v` to `v'`. -/
theorem balanced_of_set (hv : x.workers[w]? = some v) (hworkers : x'.workers = x.workers.set w v')
    (hbounded : p'.Bounded x.workers.length)
    (hspare : ∀ u, x'.spare u+p'.has u+only w v.readiness u = x.spare u+p.has u+only w v'.readiness u)
    (halive : x'.poolWg+v.aliveness = x.poolWg+v'.aliveness)
    (hretired : v'.retirement+p.retired x.workers.length = v.retirement+p'.retired x.workers.length)
    (hpassed : x'.dispatcher.exits+p.passed = x.dispatcher.exits+p'.passed)
    (hcost : p'.cost x.workers.length+x'.rest+v'.cost < p.cost x.workers.length+x.rest+v.cost) :
    Balanced x x' p p' := by
  have hset (f : Worker → ℕ) : (x'.workers.map f).sum+f v = (x.workers.map f).sum+f v' := by
    rw [hworkers]
    exact sum_map_set f hv
  have hw : w < x.workers.length := (List.getElem?_eq_some_iff.mp hv).1
  have hready (u : ℕ) : x'.isReady u+only w v.readiness u = x.isReady u+only w v'.readiness u := by
    rw [Shared.isReady, Shared.isReady, hworkers]
    by_cases hu : w = u
    · subst hu
      rw [List.getElem?_set_self hw, hv, only, only, if_pos rfl, if_pos rfl]
      exact Nat.add_comm _ _
    · rw [List.getElem?_set_ne hu, only, only, if_neg hu, if_neg hu]
  refine ⟨by rw [hworkers, List.length_set], hbounded, fun u => ?_, ?_, ?_, hpassed, ?_⟩
  · have h := hspare u
    have h' := hready u
    omega
  · have h := hset Worker.aliveness
    rw [Shared.alive, Shared.alive]
    omega
  · have h := hset Worker.retirement
    rw [Shared.retired, Shared.retired]
    omega
  · have h := hset Worker.cost
    rw [Shared.cost, Shared.cost]
    omega

end

section
variable {x x' : Shared} {k : ℕ} {direct : Bool}

/-- A step of a call of `Submit`, which costs it `c` and leaves it with `c'`. -/
structure Submits (x x' : Shared) (c c' : ℕ) : Prop where
  workers : x'.workers = x.workers
  spare : ∀ w, x'.spare w = x.spare w
  poolWg : x'.poolWg = x.poolWg
  exits : x'.dispatcher.exits = x.dispatcher.exits
  rest : c'+x'.rest < c+x.rest

theorem submits_send (h : x.send k direct = some x') : Submits x x' 10 0 := by
  obtain ⟨state, queueLength, tasks, wg, dispatcher, workers, availableWorker, taskWg, poolWg⟩ := x
  rw [Shared.send] at h
  cases direct with
  | true =>
    obtain ⟨⟨htasks, hwaiting⟩, h⟩ := Option.ite_none_right_eq_some.mp h
    cases h
    dsimp only at htasks hwaiting
    subst htasks hwaiting
    exact ⟨rfl, fun _ => rfl, rfl, rfl, by simp [Shared.rest, Dispatcher.cost]⟩
  | false =>
    obtain ⟨-, h⟩ := Option.ite_none_right_eq_some.mp h
    cases h
    refine ⟨rfl, fun _ => rfl, rfl, rfl, ?_⟩
    dsimp only [Shared.rest]
    rw [List.length_append, List.length_singleton]
    omega

theorem submits_wgDone (h : x.wgDone = some x') : Submits x x' 1 0 := by
  obtain ⟨-, h⟩ := Option.ite_none_left_eq_some.mp h
  cases h
  exact ⟨rfl, fun _ => rfl, rfl, rfl, by simp [Shared.rest]⟩

theorem Submission.advance_submits {pc pc' : Submission} (h : pc.advance x k direct = some (pc', x')) :
    Submits x x' pc.cost pc'.cost := by
  cases pc with
  | entered =>
    cases h
    refine ⟨rfl, fun _ => rfl, rfl, rfl, ?_⟩
    split_ifs <;> simp [Submission.cost]
  | admitted =>
    cases h
    exact ⟨rfl, fun _ => rfl, rfl, rfl, by simp [Submission.cost, Shared.rest]⟩
  | counted =>
    obtain ⟨y, hy, h⟩ := Option.map_eq_some_iff.mp h
    cases h
    exact submits_send hy
  | sent => cases h
  | refused => cases h

theorem Delayed.advance_submits {pc pc' : Delayed} (h : pc.advance x k direct = some (pc', x')) :
    Submits x x' pc.cost pc'.cost := by
  cases pc with
  | entered =>
    cases h
    refine ⟨rfl, fun _ => rfl, rfl, rfl, ?_⟩
    split_ifs <;> simp [Delayed.cost]
  | refused => cases h
  | admitted =>
    cases h
    exact ⟨rfl, fun _ => rfl, rfl, rfl, by simp [Delayed.cost, Submission.cost, Shared.rest]⟩
  | spawned inner =>
    by_cases hsent : inner = .sent
    · subst hsent
      obtain ⟨y, hy, h⟩ := Option.map_eq_some_iff.mp h
      cases h
      exact submits_wgDone hy
    by_cases hrefused : inner = .refused
    · subst hrefused
      obtain ⟨y, hy, h⟩ := Option.map_eq_some_iff.mp h
      cases h
      exact submits_wgDone hy
    rw [Delayed.advance_spawned hsent hrefused] at h
    obtain ⟨⟨inner', y⟩, hy, h⟩ := Option.map_eq_some_iff.mp h
    cases h
    have hinner := Submission.advance_submits hy
    refine ⟨hinner.workers, hinner.spare, hinner.poolWg, hinner.exits, ?_⟩
    have hrest := hinner.rest
    dsimp only [Delayed.cost]
    omega
  | finished sent => cases h

/-- The steps of `Stop`, in their order. -/
theorem Stopping.advance_balanced {pc pc' : Stopping} (hbounded : (Procedure.stop pc).Bounded x.workers.length)
    (h : pc.advance x = some (pc', x')) : Balanced x x' (.stop pc) (.stop pc') := by
  cases pc with
  | entered =>
    cases h
    split_ifs
    · exact balanced_of_workers_eq rfl trivial (fun _ => rfl) rfl rfl rfl (by simp [Procedure.cost, Stopping.cost])
    · exact balanced_of_workers_eq rfl trivial (fun _ => rfl) rfl rfl rfl (by simp [Procedure.cost, Stopping.cost])
  | refused => cases h
  | admitted =>
    cases h
    exact balanced_of_workers_eq rfl trivial (fun _ => rfl) rfl rfl rfl
      (by simp [Procedure.cost, Stopping.cost, Shared.rest])
  | closing =>
    obtain ⟨-, h⟩ := Option.ite_none_right_eq_some.mp h
    cases h
    exact balanced_of_workers_eq rfl trivial (fun _ => rfl) rfl rfl rfl (by simp [Procedure.cost, Stopping.cost])
  | drained =>
    obtain ⟨hwaiting, h⟩ := Option.ite_none_right_eq_some.mp h
    cases h
    refine balanced_of_workers_eq rfl trivial (fun u => ?_) rfl rfl ?_ ?_
    · simp [Shared.spare, hwaiting, Dispatcher.has, Procedure.has]
    · simp [hwaiting, Dispatcher.exits, Procedure.passed]
    · simp [Procedure.cost, Stopping.cost, Shared.rest, hwaiting, Dispatcher.cost]
  | dispatcherStopped =>
    obtain ⟨-, h⟩ := Option.ite_none_right_eq_some.mp h
    cases h
    exact balanced_of_workers_eq rfl (Nat.zero_le _) (fun _ => rfl) rfl rfl rfl
      (by simp [Procedure.cost, Stopping.cost])
  | stopping i =>
    rw [Stopping.advance] at h
    split_ifs at h with hi hwg
    · cases hfree : x.availableWorker with
      | nil =>
        rw [hfree] at h
        cases h
      | cons w rest =>
        rw [hfree] at h
        cases h
        refine balanced_of_workers_eq rfl hi (fun u => ?_) rfl rfl rfl ?_
        · have hcount : (w :: rest).count u = only w 1 u+rest.count u := by
            rw [← count_task, ← List.count_append]
            rfl
          dsimp only [Shared.spare, Procedure.has]
          rw [hfree]
          omega
        · dsimp only [Procedure.cost, Stopping.cost, Shared.rest]
          omega
    · cases h
      have hle : i ≤ x.workers.length := hbounded
      have hi' : i = x.workers.length := by omega
      refine balanced_of_workers_eq rfl trivial (fun _ => rfl) rfl hi' rfl ?_
      simp [Procedure.cost, Stopping.cost]
  | holding i w =>
    obtain ⟨hready, h⟩ := Option.ite_none_right_eq_some.mp h
    cases h
    have hi : i < x.workers.length := hbounded
    refine balanced_of_set hready rfl hi (fun u => ?_) rfl ?_ rfl ?_
    · simp [Shared.spare, Procedure.has, Worker.readiness, only]
    · simp [Procedure.retired, Worker.retirement]
      omega
    · dsimp only [Procedure.cost, Stopping.cost, Shared.rest, Worker.cost]
      omega
  | returned => cases h

theorem Procedure.advance_balanced {p p' : Procedure} (hbounded : p.Bounded x.workers.length)
    (h : p.advance x k direct = some (p', x')) : Balanced x x' p p' := by
  have hcalm {c c' : ℕ} (hsub : Submits x x' c c') (hc : p.cost x.workers.length = c)
      (hc' : p'.cost x.workers.length = c') (hb : p'.Bounded x.workers.length) (hhas : ∀ w, p'.has w = p.has w)
      (hretired : p.retired x.workers.length = p'.retired x.workers.length) (hpassed : p.passed = p'.passed) :
      Balanced x x' p p' := by
    refine balanced_of_workers_eq hsub.workers hb (fun u => ?_) hsub.poolWg hretired ?_ ?_
    · rw [hsub.spare, hhas]
    · rw [hsub.exits, hpassed]
    · rw [hc, hc']
      exact hsub.rest
  cases p with
  | submit pc =>
    obtain ⟨⟨pc', y⟩, hy, h⟩ := Option.map_eq_some_iff.mp h
    cases h
    exact hcalm (Submission.advance_submits hy) rfl rfl trivial (fun _ => rfl) rfl rfl
  | submitDelayed pc =>
    obtain ⟨⟨pc', y⟩, hy, h⟩ := Option.map_eq_some_iff.mp h
    cases h
    exact hcalm (Delayed.advance_submits hy) rfl rfl trivial (fun _ => rfl) rfl rfl
  | wait returned =>
    cases returned with
    | true => cases h
    | false =>
      obtain ⟨-, h⟩ := Option.ite_none_right_eq_some.mp h
      cases h
      exact balanced_of_workers_eq rfl trivial (fun _ => rfl) rfl rfl rfl (by simp [Procedure.cost])
  | stop pc =>
    obtain ⟨⟨pc', y⟩, hy, h⟩ := Option.map_eq_some_iff.mp h
    cases h
    exact Stopping.advance_balanced hbounded hy

/-- A call that has come to its end, for the steps of the other processes. -/
def idle : Procedure := .wait true

theorem Shared.dispatch_balanced (h : x.dispatch = some x') : Balanced x x' idle idle := by
  obtain ⟨state, queueLength, tasks, wg, dispatcher, workers, availableWorker, taskWg, poolWg⟩ := x
  cases dispatcher with
  | waiting =>
    cases tasks with
    | nil => cases h
    | cons task rest =>
      cases h
      refine balanced_of_workers_eq rfl trivial (fun _ => rfl) rfl rfl rfl ?_
      dsimp only [Shared.rest, Dispatcher.cost]
      rw [List.length_cons]
      omega
  | received task =>
    cases h
    exact balanced_of_workers_eq rfl trivial (fun _ => rfl) rfl rfl rfl (by simp [Shared.rest, Dispatcher.cost])
  | counted task =>
    cases availableWorker with
    | nil => cases h
    | cons w rest =>
      cases h
      refine balanced_of_workers_eq rfl trivial (fun u => ?_) rfl rfl rfl (by simp [Shared.rest, Dispatcher.cost])
      have hcount : (w :: rest).count u = only w 1 u+rest.count u := by
        rw [← count_task, ← List.count_append]
        rfl
      dsimp only [Shared.spare, Dispatcher.has]
      omega
  | paired task w =>
    obtain ⟨hready, h⟩ := Option.ite_none_right_eq_some.mp h
    cases h
    refine balanced_of_set hready rfl trivial (fun u => ?_) rfl rfl rfl ?_
    · dsimp only [Shared.spare, Dispatcher.has, Worker.readiness]
      rw [only_zero]
      omega
    · dsimp only [Shared.rest, Dispatcher.cost, Worker.cost]
      omega
  | handed =>
    obtain ⟨y, hdone, hy⟩ := Option.map_eq_some_iff.mp h
    cases hy
    obtain ⟨-, hdone⟩ := Option.ite_none_left_eq_some.mp hdone
    cases hdone
    exact balanced_of_workers_eq rfl trivial (fun _ => rfl) rfl rfl rfl (by simp [Shared.rest, Dispatcher.cost])
  | exited => cases h

theorem Shared.work_balanced {w : ℕ} {e : Event} (h : x.work w = some (x', e)) : Balanced x x' idle idle := by
  rw [Shared.work] at h
  cases hw : x.workers[w]? with
  | none =>
    rw [hw] at h
    cases h
  | some v =>
    rw [hw] at h
    cases v with
    | starting =>
      obtain ⟨-, h⟩ := Option.ite_none_right_eq_some.mp h
      cases h
      refine balanced_of_set hw rfl trivial (fun u => ?_) rfl rfl rfl (by simp [Shared.rest, Worker.cost])
      dsimp only [Shared.spare, Worker.readiness]
      rw [List.count_append, count_task, only_zero]
      omega
    | ready => cases h
    | received task =>
      cases h
      exact balanced_of_set hw rfl trivial (fun _ => rfl) rfl rfl rfl (by simp [Shared.rest, Worker.cost])
    | running task =>
      cases h
      exact balanced_of_set hw rfl trivial (fun _ => rfl) rfl rfl rfl (by simp [Shared.rest, Worker.cost])
    | finished =>
      obtain ⟨-, h⟩ := Option.ite_none_left_eq_some.mp h
      cases h
      exact balanced_of_set hw rfl trivial (fun _ => rfl) rfl rfl rfl (by simp [Shared.rest, Worker.cost])
    | stopping =>
      obtain ⟨hpos, h⟩ := Option.ite_none_left_eq_some.mp h
      cases h
      refine balanced_of_set hw rfl trivial (fun _ => rfl) ?_ rfl rfl (by simp [Shared.rest, Worker.cost])
      dsimp only [Worker.aliveness]
      omega
    | stopped => cases h

end

/-! The whole system. -/

def System.potential (s : System) : ℕ :=
  (s.calls.map (Procedure.cost s.shared.workers.length)).sum+s.shared.cost

/-- A step of a process, not a new call. -/
def Action.internal : Action → Bool
  | .call _ => false
  | _ => true

/-- A worker is ready if and only if it can be found at one place, the wait group of the pool counts
the workers that have not stopped, `Stop` knows how many it has stopped, and one call at most has
stopped the dispatcher. -/
structure Accounts (s : System) : Prop where
  bounded : ∀ p ∈ s.calls, p.Bounded s.shared.workers.length
  spare : ∀ w, s.shared.spare w+(s.calls.map (Procedure.has w)).sum = s.shared.isReady w
  alive : s.shared.poolWg = s.shared.alive
  retired : s.shared.retired = (s.calls.map (Procedure.retired s.shared.workers.length)).sum
  passed : s.shared.dispatcher.exits = (s.calls.map Procedure.passed).sum

section
variable {s s' : System} {a : Action} {e : Event}

/-- Every step of a process is balanced, with the call that it belongs to. -/
theorem step_balanced (hs : Accounts s) (h : step s a = some (s', e)) (ha : a.internal = true) :
    ∃ p p', Balanced s.shared s'.shared p p' ∧ (∀ q ∈ s'.calls, q ∈ s.calls ∨ q = p') ∧
      ∀ f : Procedure → ℕ, (s'.calls.map f).sum+f p = (s.calls.map f).sum+f p' := by
  cases a with
  | call kind => cases ha
  | advance k direct =>
    obtain ⟨p, hp, h⟩ := Option.bind_eq_some_iff.mp h
    obtain ⟨⟨p', x⟩, hx, h⟩ := Option.bind_eq_some_iff.mp h
    cases h
    have hbounded := hs.bounded p (List.mem_of_getElem? hp)
    refine ⟨p, p', Procedure.advance_balanced hbounded hx, ?_, fun f => sum_map_set f hp⟩
    intro q hq
    exact List.mem_or_eq_of_mem_set hq
  | dispatch =>
    obtain ⟨x, hx, h⟩ := Option.map_eq_some_iff.mp h
    cases h
    exact ⟨idle, idle, Shared.dispatch_balanced hx, fun q hq => Or.inl hq, fun _ => rfl⟩
  | work w =>
    obtain ⟨⟨x, e'⟩, hx, h⟩ := Option.map_eq_some_iff.mp h
    cases h
    exact ⟨idle, idle, Shared.work_balanced hx, fun q hq => Or.inl hq, fun _ => rfl⟩

theorem step_potential_lt (hs : Accounts s) (h : step s a = some (s', e)) (ha : a.internal = true) :
    s'.potential < s.potential := by
  obtain ⟨p, p', hbal, -, hsum⟩ := step_balanced hs h ha
  have hcalls := hsum (Procedure.cost s.shared.workers.length)
  have hcost := hbal.cost
  rw [System.potential, System.potential, hbal.length]
  omega

theorem accounts_start (concurrency queueLength : ℕ) : Accounts (start concurrency queueLength) where
  bounded := by
    intro p hp
    cases hp
  spare := by
    intro w
    have hready : (start concurrency queueLength).shared.isReady w = 0 := by
      dsimp only [Shared.isReady, start]
      rw [List.getElem?_replicate]
      split_ifs <;> rfl
    rw [hready]
    rfl
  alive := by
    dsimp only [Shared.alive, start]
    rw [List.map_replicate, List.sum_replicate]
    simp [Worker.aliveness]
  retired := by
    dsimp only [Shared.retired, start]
    rw [List.map_replicate, List.sum_replicate]
    simp [Worker.retirement]
  passed := rfl

theorem Accounts.step (hs : Accounts s) (h : step s a = some (s', e)) : Accounts s' := by
  by_cases ha : a.internal = true
  · obtain ⟨p, p', hbal, hmem, hsum⟩ := step_balanced hs h ha
    constructor
    · intro q hq
      rw [hbal.length]
      rcases hmem q hq with hq | rfl
      · exact hs.bounded q hq
      · exact hbal.bounded
    · intro w
      have hw := hs.spare w
      have hbalw := hbal.spare w
      have hcalls := hsum (Procedure.has w)
      omega
    · have halive := hs.alive
      have hbala := hbal.alive
      omega
    · have hret := hs.retired
      have hbalr := hbal.retired
      have hcalls := hsum (Procedure.retired s.shared.workers.length)
      rw [hbal.length]
      omega
    · have hpass := hs.passed
      have hbalp := hbal.passed
      have hcalls := hsum Procedure.passed
      omega
  · cases a with
    | call kind =>
      cases h
      have henter (f : Procedure → ℕ) (hf : f kind.enter = 0) :
          ((s.calls ++ [kind.enter]).map f).sum = (s.calls.map f).sum := by
        rw [List.map_append, List.sum_append, List.map_singleton, List.sum_singleton, hf, Nat.add_zero]
      constructor
      · intro q hq
        rcases List.mem_append.mp hq with hq | hq
        · exact hs.bounded q hq
        · rw [List.mem_singleton.mp hq]
          cases kind <;> trivial
      · intro w
        dsimp only
        rw [henter _ (by cases kind <;> rfl)]
        exact hs.spare w
      · exact hs.alive
      · dsimp only
        rw [henter _ (by cases kind <;> rfl)]
        exact hs.retired
      · dsimp only
        rw [henter _ (by cases kind <;> rfl)]
        exact hs.passed
    | advance k direct => exact absurd rfl ha
    | dispatch => exact absurd rfl ha
    | work w => exact absurd rfl ha

end

/-! When nothing moves any more. -/

/-- No process can take a step. -/
def System.Quiet (s : System) : Prop := ∀ a, a.internal = true → step s a = none

theorem System.quiet_iff {s : System} : s.Quiet ↔ s.shared.dispatch = none ∧
    (∀ w < s.shared.workers.length, s.shared.work w = none) ∧
    ∀ k < s.calls.length, ∀ direct, step s (.advance k direct) = none := by
  constructor
  · intro hq
    exact ⟨Option.map_eq_none_iff.mp (hq .dispatch rfl), fun w _ => Option.map_eq_none_iff.mp (hq (.work w) rfl),
      fun k _ direct => hq (.advance k direct) rfl⟩
  · rintro ⟨hdispatch, hwork, hadvance⟩ a ha
    cases a with
    | call kind => cases ha
    | advance k direct =>
      by_cases hk : k < s.calls.length
      · exact hadvance k hk direct
      · dsimp only [step]
        rw [List.getElem?_eq_none (Nat.le_of_not_lt hk)]
        rfl
    | dispatch => exact Option.map_eq_none_iff.mpr hdispatch
    | work w =>
      apply Option.map_eq_none_iff.mpr
      by_cases hw : w < s.shared.workers.length
      · exact hwork w hw
      · rw [Shared.work, List.getElem?_eq_none (Nat.le_of_not_lt hw)]

instance (s : System) : Decidable s.Quiet := decidable_of_iff _ System.quiet_iff.symm

/-- The call has returned; a delayed task has in addition been sent or dropped. -/
def Procedure.returned : Procedure → Bool
  | .submit .sent => true
  | .submit .refused => true
  | .submitDelayed .refused => true
  | .submitDelayed (.finished _) => true
  | .wait returned => returned
  | .stop .refused => true
  | .stop .returned => true
  | _ => false

section
variable {s : System} {os : List Event}

theorem System.Quiet.advance (hq : s.Quiet) {p : Procedure} {k : ℕ} (hp : s.calls[k]? = some p) (direct : Bool) :
    p.advance s.shared k direct = none := by
  have h := hq (.advance k direct) rfl
  dsimp only [step] at h
  rw [hp] at h
  cases hadv : p.advance s.shared k direct with
  | none => rfl
  | some r =>
    rw [Option.bind_eq_bind, Option.bind_some, hadv] at h
    cases h

theorem System.Quiet.dispatch (hq : s.Quiet) : s.shared.dispatch = none :=
  Option.map_eq_none_iff.mp (hq .dispatch rfl)

theorem System.Quiet.work (hq : s.Quiet) (w : ℕ) : s.shared.work w = none :=
  Option.map_eq_none_iff.mp (hq (.work w) rfl)

theorem Shared.ready_of_isReady {x : Shared} {w : ℕ} (h : 0 < x.isReady w) : x.workers[w]? = some .ready := by
  rw [Shared.isReady] at h
  cases hw : x.workers[w]? with
  | none =>
    rw [hw] at h
    cases h
  | some v =>
    rw [hw] at h
    cases v with
    | ready => rfl
    | _ => cases h

theorem Shared.isReady_le (x : Shared) (w : ℕ) : x.isReady w ≤ 1 := by
  rw [Shared.isReady]
  cases x.workers[w]? with
  | none => exact Nat.zero_le 1
  | some v => cases v <;> simp [Worker.readiness]

theorem Accounts.available_ready (hs : Accounts s) {w : ℕ} (hw : w ∈ s.shared.availableWorker) :
    s.shared.workers[w]? = some .ready := by
  apply Shared.ready_of_isReady
  have hcount := List.count_pos_iff.mpr hw
  have hspare := hs.spare w
  rw [Shared.spare] at hspare
  omega

/-- There is room in the channel of the pool for a worker that is not in it. -/
theorem Accounts.room (hs : Accounts s) {w : ℕ} (hw : s.shared.workers[w]? = some .starting) :
    s.shared.availableWorker.length < s.shared.workers.length := by
  have hnot : w ∉ s.shared.availableWorker := by
    intro hmem
    have hready := hs.available_ready hmem
    rw [hw] at hready
    cases hready
  have hnodup : (w :: s.shared.availableWorker).Nodup := by
    refine List.nodup_cons.mpr ⟨hnot, List.nodup_iff_count_le_one.mpr ?_⟩
    intro u
    have hspare := hs.spare u
    have hle := s.shared.isReady_le u
    rw [Shared.spare] at hspare
    omega
  have hsub : (w :: s.shared.availableWorker) ⊆ List.range s.shared.workers.length := by
    intro u hu
    rw [List.mem_range]
    rcases List.mem_cons.mp hu with rfl | hu
    · exact (List.getElem?_eq_some_iff.mp hw).1
    · exact (List.getElem?_eq_some_iff.mp (hs.available_ready hu)).1
  have hlen := (List.subperm_of_subset hnodup hsub).length_le
  rw [List.length_cons, List.length_range] at hlen
  omega

theorem Procedure.has_of_passed {p : Procedure} (h : p.passed = 0) (w : ℕ) : p.has w = 0 := by
  cases p with
  | stop pc =>
    cases pc with
    | holding i w' => cases h
    | _ => rfl
  | _ => rfl

theorem Procedure.retired_of_passed {p : Procedure} (h : p.passed = 0) (n : ℕ) : p.retired n = 0 := by
  cases p with
  | stop pc =>
    cases pc with
    | stopping i => cases h
    | holding i w' => cases h
    | returned => cases h
    | _ => rfl
  | _ => rfl

theorem sum_map_eq_zero {f g : Procedure → ℕ} {l : List Procedure} (hf : (l.map f).sum = 0)
    (hg : ∀ p, f p = 0 → g p = 0) : (l.map g).sum = 0 := by
  apply List.sum_eq_zero
  intro x hx
  obtain ⟨p, hp, rfl⟩ := List.mem_map.mp hx
  have hle : f p ≤ (l.map f).sum := List.le_sum_of_mem (List.mem_map_of_mem hp)
  exact hg p (by omega)

theorem Dispatcher.exits_le (d : Dispatcher) : d.exits ≤ 1 := by
  cases d <;> simp [Dispatcher.exits]

/-- No other call has anything to do with the workers. -/
theorem Accounts.only_passed (hs : Accounts s) {k : ℕ} {p : Procedure} (hp : s.calls[k]? = some p)
    (hpassed : p.passed = 1) {g : Procedure → ℕ} (hg : ∀ q, q.passed = 0 → g q = 0) :
    (s.calls.map g).sum = g p := by
  have hothers := sum_map_set (q := idle) Procedure.passed hp
  have hle := s.shared.dispatcher.exits_le
  have hpass := hs.passed
  have hidle : Procedure.passed idle = 0 := rfl
  have hzero : ((s.calls.set k idle).map Procedure.passed).sum = 0 := by omega
  have hsum := sum_map_set (q := idle) g hp
  rw [sum_map_eq_zero hzero hg, hg idle rfl] at hsum
  omega

variable (hq : s.Quiet) (hs : Accounts s) (hi : Invariant s os)
include hq hs hi

theorem quiet_worker {w : ℕ} {v : Worker} (hw : s.shared.workers[w]? = some v) : v = .ready ∨ v = .stopped := by
  have h := hq.work w
  rw [Shared.work, hw] at h
  cases v with
  | starting =>
    dsimp only at h
    rw [if_pos (hs.room hw)] at h
    cases h
  | ready => exact Or.inl rfl
  | received task => cases h
  | running task => cases h
  | finished =>
    -- its task is counted still
    have hweight := le_sum_map Worker.weight hw
    have htaskWg := hi.taskWg
    dsimp only [Worker.weight] at hweight
    rw [Shared.busy] at htaskWg
    have hne : s.shared.taskWg ≠ 0 := by omega
    dsimp only at h
    rw [if_neg hne] at h
    cases h
  | stopping =>
    have halive := le_sum_map Worker.aliveness hw
    have hpool := hs.alive
    dsimp only [Worker.aliveness] at halive
    rw [Shared.alive] at hpool
    have hne : s.shared.poolWg ≠ 0 := by omega
    dsimp only at h
    rw [if_neg hne] at h
    cases h
  | stopped => exact Or.inr rfl

theorem quiet_workers_sum (f : Worker → ℕ) (hf : f .ready = f .stopped) :
    (s.shared.workers.map f).sum = s.shared.workers.length*f .stopped := by
  have hall : s.shared.workers.map f = s.shared.workers.map (fun _ => f .stopped) := by
    apply List.map_congr_left
    intro v hv
    obtain ⟨w, hw⟩ := List.getElem?_of_mem hv
    rcases quiet_worker hq hs hi hw with rfl | rfl
    · exact hf
    · rfl
  rw [hall, List.map_const', List.sum_replicate, smul_eq_mul]

/-- Those that have not stopped and those that have are all. -/
theorem quiet_alive_add_retired : s.shared.alive+s.shared.retired = s.shared.workers.length := by
  have hsum := quiet_workers_sum hq hs hi (fun v => v.aliveness+v.retirement) rfl
  rw [List.sum_map_add] at hsum
  rw [Shared.alive, Shared.retired, hsum]
  exact Nat.mul_one _

/-- The dispatcher has nothing to do. -/
theorem quiet_dispatcher (hpos : 0 < s.shared.workers.length) :
    s.shared.dispatcher = .waiting ∧ s.shared.tasks = [] ∨ s.shared.dispatcher = .exited := by
  have h := hq.dispatch
  have hwg := hi.wg
  rw [Shared.dispatch] at h
  cases hd : s.shared.dispatcher with
  | waiting =>
    rw [hd] at h
    cases ht : s.shared.tasks with
    | nil => exact Or.inl ⟨rfl, rfl⟩
    | cons task rest =>
      rw [ht] at h
      cases h
  | received task =>
    rw [hd] at h
    cases h
  | counted task =>
    rw [hd] at h
    have hfree : s.shared.availableWorker = [] := by
      cases hfree : s.shared.availableWorker with
      | nil => rfl
      | cons w rest =>
        rw [hfree] at h
        cases h
    -- no call of `Stop` has come to the workers, and none of them is ready
    have hpass := hs.passed
    rw [hd] at hpass
    have hhas := hs.spare 0
    rw [Shared.spare, hfree, hd, sum_map_eq_zero hpass.symm (fun p hp => p.has_of_passed hp 0)] at hhas
    have hretired := hs.retired
    rw [sum_map_eq_zero hpass.symm (fun p hp => p.retired_of_passed hp _)] at hretired
    have hw := List.getElem?_eq_getElem hpos
    rcases quiet_worker hq hs hi hw with hv | hv
    · rw [hv] at hw
      rw [Shared.isReady, hw] at hhas
      cases hhas
    · rw [hv] at hw
      have hle := le_sum_map Worker.retirement hw
      rw [Shared.retired] at hretired
      dsimp only [Worker.retirement] at hle
      omega
  | paired task w =>
    rw [hd] at h
    have hready : s.shared.workers[w]? = some .ready := by
      apply Shared.ready_of_isReady
      have hspare := hs.spare w
      have hone : only w 1 w = 1 := if_pos rfl
      rw [Shared.spare, hd] at hspare
      dsimp only [Dispatcher.has] at hspare
      omega
    dsimp only at h
    rw [if_pos hready] at h
    cases h
  | handed =>
    rw [hd] at h
    rw [Shared.load, hd] at hwg
    dsimp only [Dispatcher.weight] at hwg
    have hne : s.shared.wg ≠ 0 := by omega
    dsimp only [Shared.wgDone] at h
    rw [if_neg hne] at h
    cases h
  | exited => exact Or.inr rfl

theorem quiet_taskWg (hpos : 0 < s.shared.workers.length) : s.shared.taskWg = 0 := by
  have hworkers := quiet_workers_sum hq hs hi Worker.weight rfl
  have hzero : Worker.weight .stopped = 0 := rfl
  have htaskWg := hi.taskWg
  rw [Shared.busy, hworkers, hzero, Nat.mul_zero] at htaskWg
  rcases quiet_dispatcher hq hs hi hpos with ⟨hd, -⟩ | hd
  · rw [hd] at htaskWg
    exact htaskWg
  · rw [hd] at htaskWg
    exact htaskWg

omit hs in
/-- A call of `Submit` that has added to the wait group goes on, as long as there is a dispatcher. -/
theorem quiet_weight (hd : s.shared.dispatcher = .waiting) (ht : s.shared.tasks = []) {k : ℕ} {p : Procedure}
    (hp : s.calls[k]? = some p) : p.weight = 0 := by
  have hsend : s.shared.send k true = some { s.shared with dispatcher := .received k } := by
    rw [Shared.send, if_pos rfl, if_pos ⟨ht, hd⟩]
  have hadv := hq.advance hp true
  have hle := le_sum_map Procedure.weight hp
  have hwg := hi.wg
  cases p with
  | submit pc =>
    cases pc with
    | counted =>
      dsimp only [Procedure.advance, Submission.advance] at hadv
      rw [hsend] at hadv
      cases hadv
    | _ => rfl
  | submitDelayed pc =>
    cases pc with
    | spawned inner =>
      have hdone : s.shared.wgDone = some { s.shared with wg := s.shared.wg-1 } := by
        have hne : s.shared.wg ≠ 0 := by
          dsimp only [Procedure.weight, Delayed.weight] at hle
          omega
        rw [Shared.wgDone, if_neg hne]
      cases inner with
      | entered => cases hadv
      | admitted => cases hadv
      | counted =>
        dsimp only [Procedure.advance, Delayed.advance, Submission.advance] at hadv
        rw [hsend] at hadv
        cases hadv
      | sent =>
        dsimp only [Procedure.advance, Delayed.advance] at hadv
        rw [hdone] at hadv
        cases hadv
      | refused =>
        dsimp only [Procedure.advance, Delayed.advance] at hadv
        rw [hdone] at hadv
        cases hadv
    | _ => rfl
  | wait returned => rfl
  | stop pc => rfl

/-- With the wait group at zero, all calls but those of `Stop` have returned, and these are at their
end or wait for a dispatcher that is not there. -/
theorem quiet_returned (hpos : 0 < s.shared.workers.length) (hwg : s.shared.wg = 0) {k : ℕ} {p : Procedure}
    (hp : s.calls[k]? = some p) :
    p.returned = true ∨ p = .stop .drained ∧ s.shared.dispatcher ≠ .waiting := by
  have hadv := hq.advance hp true
  have hle := le_sum_map Procedure.weight hp
  have hsum := hi.wg
  cases p with
  | submit pc =>
    left
    cases pc with
    | entered => cases hadv
    | admitted => cases hadv
    | counted =>
      dsimp only [Procedure.weight, Submission.weight] at hle
      omega
    | sent => rfl
    | refused => rfl
  | submitDelayed pc =>
    left
    cases pc with
    | entered => cases hadv
    | refused => rfl
    | admitted => cases hadv
    | spawned inner =>
      dsimp only [Procedure.weight, Delayed.weight] at hle
      omega
    | finished sent => rfl
  | wait returned =>
    left
    cases returned with
    | true => rfl
    | false =>
      dsimp only [Procedure.advance] at hadv
      rw [if_pos hwg] at hadv
      cases hadv
  | stop pc =>
    dsimp only [Procedure.advance] at hadv
    rw [Option.map_eq_none_iff] at hadv
    cases pc with
    | entered => cases hadv
    | refused => exact Or.inl rfl
    | admitted => cases hadv
    | closing =>
      rw [Stopping.advance, if_pos hwg] at hadv
      cases hadv
    | drained =>
      refine Or.inr ⟨rfl, ?_⟩
      intro hd
      rw [Stopping.advance, if_pos hd] at hadv
      cases hadv
    | dispatcherStopped =>
      rw [Stopping.advance, if_pos (quiet_taskWg hq hs hi hpos)] at hadv
      cases hadv
    | stopping i =>
      have hbounded : i ≤ s.shared.workers.length := hs.bounded _ (List.mem_of_getElem? hp)
      have hret : (s.calls.map (Procedure.retired s.shared.workers.length)).sum = i :=
        hs.only_passed hp rfl (fun q hq => q.retired_of_passed hq _)
      have hhas (w : ℕ) : (s.calls.map (Procedure.has w)).sum = 0 :=
        hs.only_passed hp rfl (fun q hq => q.has_of_passed hq w)
      have hall := quiet_alive_add_retired hq hs hi
      have hretired := hs.retired
      have halive := hs.alive
      have hexited : s.shared.dispatcher = .exited := by
        rcases quiet_dispatcher hq hs hi hpos with ⟨hd, -⟩ | hd
        · have hpass := hs.passed
          have hone := le_sum_map Procedure.passed hp
          rw [hd] at hpass
          dsimp only [Procedure.passed, Dispatcher.exits] at hpass hone
          omega
        · exact hd
      rw [Stopping.advance] at hadv
      split_ifs at hadv with hlt hpool
      · have hfree : s.shared.availableWorker = [] := by
          cases hfree : s.shared.availableWorker with
          | nil => rfl
          | cons w rest =>
            rw [hfree] at hadv
            cases hadv
        -- no worker is ready, so all have stopped, which are more than `i`
        have hstopped : s.shared.alive = 0 := by
          apply List.sum_eq_zero
          intro n hn
          obtain ⟨v, hv, rfl⟩ := List.mem_map.mp hn
          obtain ⟨w, hw⟩ := List.getElem?_of_mem hv
          rcases quiet_worker hq hs hi hw with rfl | rfl
          · have hspare := hs.spare w
            rw [Shared.spare, hfree, hexited, hhas w, Shared.isReady, hw] at hspare
            cases hspare
          · rfl
        omega
      · omega
    | holding i w =>
      have hready : s.shared.workers[w]? = some .ready := by
        apply Shared.ready_of_isReady
        have hspare := hs.spare w
        have hhas := le_sum_map (Procedure.has w) hp
        have hone : only w 1 w = 1 := if_pos rfl
        dsimp only [Procedure.has] at hhas
        omega
      rw [Stopping.advance, if_pos hready] at hadv
      cases hadv
    | returned => exact Or.inl rfl

end

/-! Calls that race with `Stop`. -/

/-- The call has found the executor started and has not acted on it yet. -/
def Procedure.admitted : Procedure → Bool
  | .submit .admitted => true
  | .submitDelayed .admitted => true
  | .submitDelayed (.spawned .admitted) => true
  | .stop .admitted => true
  | _ => false

/-- `Stop` has set the state. -/
def Procedure.closes : Procedure → ℕ
  | .stop .closing => 1
  | .stop .drained => 1
  | p => p.passed

/-- `Stop` has seen the wait group at zero. -/
def Procedure.drains : Procedure → ℕ
  | .stop .drained => 1
  | p => p.passed

/-- Without races: once the state is set no call acts on what it found before, one call at most is
stopping the executor, and the wait group stays at zero once this call has seen it there. -/
structure Settled (s : System) : Prop where
  admitted : s.shared.state ≠ .started → ∀ p ∈ s.calls, p.admitted = false
  closes : (s.calls.map Procedure.closes).sum ≤ if s.shared.state = .started then 0 else 1
  drains : 0 < (s.calls.map Procedure.drains).sum → s.shared.wg = 0

/-- A call of `Stop` sets the state while another call stands between its look at the state and what it
does then. -/
def races (s : System) : Action → Bool
  | .advance k _ => decide (s.calls[k]? = some (.stop .admitted)) && (s.calls.eraseIdx k).any Procedure.admitted
  | _ => false

/-- No step of the run is such a race. -/
def stopsAlone (s : System) : List Action → Bool
  | [] => true
  | a :: is => !races s a && (step s a).elim true (fun r => stopsAlone r.1 is)

/-- What a step of a call can do to the state and to the wait group. -/
structure Respects (x x' : Shared) (p p' : Procedure) : Prop where
  state : x'.state = x.state ∨ p = .stop .admitted ∧ x'.state ≠ .started ∧ p'.admitted = false
  admitted : p'.admitted = true → x.state = .started
  closes : p'.closes = p.closes ∨ p = .stop .admitted ∧ x'.state ≠ .started ∧ p'.closes = 1
  drains : p'.drains = p.drains ∨ x'.wg = 0
  dropped : p'.dropped = true → p.dropped = true ∨ x.state ≠ .started
  wg : x'.wg ≤ x.wg ∨ p.admitted = true

section
variable {x x' : Shared} {k : ℕ} {direct : Bool}

theorem send_wg (h : x.send k direct = some x') : x'.state = x.state ∧ x'.wg = x.wg := by
  rw [Shared.send] at h
  split_ifs at h
  · cases h
    exact ⟨rfl, rfl⟩
  · cases h
    exact ⟨rfl, rfl⟩

theorem wgDone_wg (h : x.wgDone = some x') : x'.state = x.state ∧ x'.wg ≤ x.wg := by
  obtain ⟨-, h⟩ := Option.ite_none_left_eq_some.mp h
  cases h
  exact ⟨rfl, Nat.sub_le _ _⟩

theorem Submission.advance_respects {pc pc' : Submission} (h : pc.advance x k direct = some (pc', x')) :
    x'.state = x.state ∧ (pc' = .admitted → x.state = .started) ∧ (pc' = .refused → x.state ≠ .started) ∧
      (x'.wg ≤ x.wg ∨ pc = .admitted) := by
  cases pc with
  | entered =>
    cases h
    refine ⟨rfl, ?_, ?_, Or.inl (Nat.le_refl _)⟩
    · intro hpc
      by_contra hstate
      rw [if_neg hstate] at hpc
      cases hpc
    · intro hpc hstate
      rw [if_pos hstate] at hpc
      cases hpc
  | admitted =>
    cases h
    exact ⟨rfl, Submission.noConfusion, Submission.noConfusion, Or.inr rfl⟩
  | counted =>
    obtain ⟨y, hy, h⟩ := Option.map_eq_some_iff.mp h
    cases h
    obtain ⟨hstate, hwg⟩ := send_wg hy
    exact ⟨hstate, Submission.noConfusion, Submission.noConfusion, Or.inl hwg.le⟩
  | sent => cases h
  | refused => cases h

theorem Delayed.advance_respects {pc pc' : Delayed} (h : pc.advance x k direct = some (pc', x')) :
    Respects x x' (.submitDelayed pc) (.submitDelayed pc') := by
  have hcalm (hstate : x'.state = x.state) (hadmitted : (Procedure.submitDelayed pc').admitted = true → x.state = .started)
      (hdropped : (Procedure.submitDelayed pc').dropped = true →
        (Procedure.submitDelayed pc).dropped = true ∨ x.state ≠ .started)
      (hwg : x'.wg ≤ x.wg ∨ (Procedure.submitDelayed pc).admitted = true) :
      Respects x x' (.submitDelayed pc) (.submitDelayed pc') :=
    ⟨Or.inl hstate, hadmitted, Or.inl rfl, Or.inl rfl, hdropped, hwg⟩
  cases pc with
  | entered =>
    cases h
    split_ifs at hcalm ⊢ with hstate
    · exact hcalm rfl (fun _ => hstate) Bool.noConfusion (Or.inl (Nat.le_refl _))
    · exact hcalm rfl Bool.noConfusion Bool.noConfusion (Or.inl (Nat.le_refl _))
  | refused => cases h
  | admitted =>
    cases h
    exact hcalm rfl Bool.noConfusion Bool.noConfusion (Or.inr rfl)
  | spawned inner =>
    by_cases hsent : inner = .sent
    · subst hsent
      obtain ⟨y, hy, h⟩ := Option.map_eq_some_iff.mp h
      cases h
      obtain ⟨hstate, hwg⟩ := wgDone_wg hy
      exact hcalm hstate Bool.noConfusion Bool.noConfusion (Or.inl hwg)
    by_cases hrefused : inner = .refused
    · subst hrefused
      obtain ⟨y, hy, h⟩ := Option.map_eq_some_iff.mp h
      cases h
      obtain ⟨hstate, hwg⟩ := wgDone_wg hy
      exact hcalm hstate Bool.noConfusion (fun _ => Or.inl rfl) (Or.inl hwg)
    rw [Delayed.advance_spawned hsent hrefused] at h
    obtain ⟨⟨inner', y⟩, hy, h⟩ := Option.map_eq_some_iff.mp h
    cases h
    obtain ⟨hstate, hadmitted, hlate, hwg⟩ := Submission.advance_respects hy
    apply hcalm hstate
    · intro hpc
      apply hadmitted
      cases inner' with
      | admitted => rfl
      | _ => cases hpc
    · intro hpc
      right
      apply hlate
      cases inner' with
      | refused => rfl
      | _ => cases hpc
    · rcases hwg with hwg | rfl
      · exact Or.inl hwg
      · exact Or.inr rfl
  | finished sent => cases h

theorem Stopping.advance_respects {pc pc' : Stopping} (h : pc.advance x = some (pc', x')) :
    Respects x x' (.stop pc) (.stop pc') := by
  -- only the step that sets the state, and the one that looks at the wait group, do anything here
  have hcalm (hstate : x'.state = x.state) (hwg : x'.wg = x.wg)
      (hcloses : (Procedure.stop pc').closes = (Procedure.stop pc).closes)
      (hdrains : (Procedure.stop pc').drains = (Procedure.stop pc).drains)
      (hadmitted : (Procedure.stop pc').admitted = false) : Respects x x' (.stop pc) (.stop pc') := by
    refine ⟨Or.inl hstate, ?_, Or.inl hcloses, Or.inl hdrains, Bool.noConfusion, Or.inl hwg.le⟩
    intro h
    rw [hadmitted] at h
    cases h
  cases pc with
  | entered =>
    cases h
    split_ifs at hcalm ⊢ with hstate
    · exact ⟨Or.inl rfl, fun _ => hstate, Or.inl rfl, Or.inl rfl, Bool.noConfusion, Or.inl (Nat.le_refl _)⟩
    · exact hcalm rfl rfl rfl rfl rfl
  | refused => cases h
  | admitted =>
    cases h
    exact ⟨Or.inr ⟨rfl, State.noConfusion, rfl⟩, Bool.noConfusion, Or.inr ⟨rfl, State.noConfusion, rfl⟩, Or.inl rfl,
      Bool.noConfusion, Or.inl (Nat.le_refl _)⟩
  | closing =>
    obtain ⟨hwg, h⟩ := Option.ite_none_right_eq_some.mp h
    cases h
    exact ⟨Or.inl rfl, Bool.noConfusion, Or.inl rfl, Or.inr hwg, Bool.noConfusion, Or.inl (Nat.le_refl _)⟩
  | drained =>
    obtain ⟨-, h⟩ := Option.ite_none_right_eq_some.mp h
    cases h
    exact hcalm rfl rfl rfl rfl rfl
  | dispatcherStopped =>
    obtain ⟨-, h⟩ := Option.ite_none_right_eq_some.mp h
    cases h
    exact hcalm rfl rfl rfl rfl rfl
  | stopping i =>
    rw [Stopping.advance] at h
    split_ifs at h with hi hwg
    · cases hfree : x.availableWorker with
      | nil =>
        rw [hfree] at h
        cases h
      | cons w rest =>
        rw [hfree] at h
        cases h
        exact hcalm rfl rfl rfl rfl rfl
    · cases h
      exact hcalm rfl rfl rfl rfl rfl
  | holding i w =>
    obtain ⟨-, h⟩ := Option.ite_none_right_eq_some.mp h
    cases h
    exact hcalm rfl rfl rfl rfl rfl
  | returned => cases h

theorem Procedure.advance_respects {p p' : Procedure} (h : p.advance x k direct = some (p', x')) :
    Respects x x' p p' := by
  cases p with
  | submit pc =>
    obtain ⟨⟨pc', y⟩, hy, h⟩ := Option.map_eq_some_iff.mp h
    cases h
    obtain ⟨hstate, hadmitted, -, hwg⟩ := Submission.advance_respects hy
    refine ⟨Or.inl hstate, ?_, Or.inl rfl, Or.inl rfl, Bool.noConfusion, ?_⟩
    · intro hpc
      apply hadmitted
      cases pc' with
      | admitted => rfl
      | _ => cases hpc
    · rcases hwg with hwg | rfl
      · exact Or.inl hwg
      · exact Or.inr rfl
  | submitDelayed pc =>
    obtain ⟨⟨pc', y⟩, hy, h⟩ := Option.map_eq_some_iff.mp h
    cases h
    exact Delayed.advance_respects hy
  | wait returned =>
    cases returned with
    | true => cases h
    | false =>
      obtain ⟨-, h⟩ := Option.ite_none_right_eq_some.mp h
      cases h
      exact ⟨Or.inl rfl, Bool.noConfusion, Or.inl rfl, Or.inl rfl, Bool.noConfusion, Or.inl (Nat.le_refl _)⟩
  | stop pc =>
    obtain ⟨⟨pc', y⟩, hy, h⟩ := Option.map_eq_some_iff.mp h
    cases h
    exact Stopping.advance_respects hy

/-- The other processes do not look at the state, and only lower the wait group. -/
theorem Shared.dispatch_wg (h : x.dispatch = some x') : x'.state = x.state ∧ x'.wg ≤ x.wg := by
  rw [Shared.dispatch] at h
  cases hd : x.dispatcher with
  | waiting =>
    rw [hd] at h
    cases ht : x.tasks with
    | nil =>
      rw [ht] at h
      cases h
    | cons task rest =>
      rw [ht] at h
      cases h
      exact ⟨rfl, Nat.le_refl _⟩
  | received task =>
    rw [hd] at h
    cases h
    exact ⟨rfl, Nat.le_refl _⟩
  | counted task =>
    rw [hd] at h
    cases hfree : x.availableWorker with
    | nil =>
      rw [hfree] at h
      cases h
    | cons w rest =>
      rw [hfree] at h
      cases h
      exact ⟨rfl, Nat.le_refl _⟩
  | paired task w =>
    rw [hd] at h
    obtain ⟨-, h⟩ := Option.ite_none_right_eq_some.mp h
    cases h
    exact ⟨rfl, Nat.le_refl _⟩
  | handed =>
    rw [hd] at h
    obtain ⟨y, hdone, hy⟩ := Option.map_eq_some_iff.mp h
    cases hy
    obtain ⟨hstate, hwg⟩ := wgDone_wg hdone
    exact ⟨hstate, hwg⟩
  | exited =>
    rw [hd] at h
    cases h

theorem Shared.work_wg {w : ℕ} {e : Event} (h : x.work w = some (x', e)) :
    x'.state = x.state ∧ x'.wg = x.wg := by
  rw [Shared.work] at h
  cases hw : x.workers[w]? with
  | none =>
    rw [hw] at h
    cases h
  | some v =>
    rw [hw] at h
    cases v with
    | starting =>
      obtain ⟨-, h⟩ := Option.ite_none_right_eq_some.mp h
      cases h
      exact ⟨rfl, rfl⟩
    | finished =>
      obtain ⟨-, h⟩ := Option.ite_none_left_eq_some.mp h
      cases h
      exact ⟨rfl, rfl⟩
    | stopping =>
      obtain ⟨-, h⟩ := Option.ite_none_left_eq_some.mp h
      cases h
      exact ⟨rfl, rfl⟩
    | received task =>
      cases h
      exact ⟨rfl, rfl⟩
    | running task =>
      cases h
      exact ⟨rfl, rfl⟩
    | ready => cases h
    | stopped => cases h

end

section
variable {s s' : System} {a : Action} {e : Event}

theorem Procedure.passed_le_drains (p : Procedure) : p.passed ≤ p.drains := by
  cases p with
  | stop pc =>
    cases pc with
    | drained => exact Nat.zero_le _
    | _ => exact Nat.le_refl _
  | _ => exact Nat.le_refl _

theorem Procedure.drains_le_closes (p : Procedure) : p.drains ≤ p.closes := by
  cases p with
  | stop pc =>
    cases pc with
    | closing => exact Nat.zero_le _
    | _ => exact Nat.le_refl _
  | _ => exact Nat.le_refl _

theorem Settled.started_of_admitted (hs : Settled s) {p : Procedure} (hp : p ∈ s.calls)
    (hadmitted : p.admitted = true) : s.shared.state = .started := by
  by_contra hstate
  rw [hs.admitted hstate p hp] at hadmitted
  cases hadmitted

theorem Settled.not_started_of_drains (hs : Settled s) (h : 0 < (s.calls.map Procedure.drains).sum) :
    s.shared.state ≠ .started := by
  intro hstate
  have hle : (s.calls.map Procedure.drains).sum ≤ (s.calls.map Procedure.closes).sum :=
    List.sum_le_sum (fun p _ => p.drains_le_closes)
  have hcloses := hs.closes
  rw [if_pos hstate] at hcloses
  omega

theorem settled_start (concurrency queueLength : ℕ) : Settled (start concurrency queueLength) where
  admitted := by
    intro _ p hp
    cases hp
  closes := Nat.zero_le _
  drains := fun _ => rfl

/-- A step of another process than a call. -/
theorem Settled.other (hs : Settled s) (hcalls : s'.calls = s.calls) (hstate : s'.shared.state = s.shared.state)
    (hwg : s'.shared.wg ≤ s.shared.wg) : Settled s' where
  admitted := by
    rw [hcalls, hstate]
    exact hs.admitted
  closes := by
    rw [hcalls, hstate]
    exact hs.closes
  drains := by
    intro h
    rw [hcalls] at h
    have hzero := hs.drains h
    omega

theorem Settled.step (hs : Settled s) (h : step s a = some (s', e))
    (halone : races s a = false) : Settled s' := by
  cases a with
  | call kind =>
    cases h
    have henter (f : Procedure → ℕ) (hf : f kind.enter = 0) :
        ((s.calls ++ [kind.enter]).map f).sum = (s.calls.map f).sum := by
      rw [List.map_append, List.sum_append, List.map_singleton, List.sum_singleton, hf, Nat.add_zero]
    constructor
    · intro hstate q hq
      rcases List.mem_append.mp hq with hq | hq
      · exact hs.admitted hstate q hq
      · rw [List.mem_singleton.mp hq]
        cases kind <;> rfl
    · dsimp only
      rw [henter _ (by cases kind <;> rfl)]
      exact hs.closes
    · dsimp only
      rw [henter _ (by cases kind <;> rfl)]
      exact hs.drains
  | advance k direct =>
    obtain ⟨p, hp, h⟩ := Option.bind_eq_some_iff.mp h
    obtain ⟨⟨p', x⟩, hx, h⟩ := Option.bind_eq_some_iff.mp h
    cases h
    have hr := Procedure.advance_respects hx
    have hmem : p ∈ s.calls := List.mem_of_getElem? hp
    constructor
    · intro hstate q hq
      obtain ⟨j, hj⟩ := List.getElem?_of_mem hq
      rcases hr.state with hsame | ⟨rfl, -, hp'⟩
      · have hstate' : s.shared.state ≠ .started := hsame ▸ hstate
        rcases getElem?_set_cases hj with ⟨-, rfl⟩ | ⟨-, hj⟩
        · by_contra hadmitted
          exact hstate' (hr.admitted (by simpa using hadmitted))
        · exact hs.admitted hstate' q (List.mem_of_getElem? hj)
      · rcases getElem?_set_cases hj with ⟨-, rfl⟩ | ⟨hne, hj⟩
        · exact hp'
        · dsimp only [races] at halone
          rw [hp, decide_eq_true rfl, Bool.true_and] at halone
          have hall := List.any_eq_false.mp halone q (List.mem_eraseIdx_iff_getElem?.mpr ⟨j, hne, hj⟩)
          exact Bool.eq_false_of_not_eq_true hall
    · have hsum := sum_map_set (q := p') Procedure.closes hp
      have hcloses := hs.closes
      dsimp only
      rcases hr.closes with hsame | ⟨rfl, hset, hone⟩
      · rcases hr.state with hstate | ⟨-, hset, -⟩
        · rw [hstate]
          omega
        · rw [if_neg hset]
          split_ifs at hcloses <;> omega
      · rw [if_pos (hs.started_of_admitted hmem rfl)] at hcloses
        rw [if_neg hset]
        omega
    · intro hdrains
      have hsum := sum_map_set (q := p') Procedure.drains hp
      rcases hr.drains with hsame | hzero
      · have hpos : 0 < (s.calls.map Procedure.drains).sum := by
          dsimp only at hdrains
          omega
        have hzero := hs.drains hpos
        rcases hr.wg with hwg | hadmitted
        · dsimp only
          omega
        · exact absurd (hs.started_of_admitted hmem hadmitted) (hs.not_started_of_drains hpos)
      · exact hzero
  | dispatch =>
    obtain ⟨x, hx, h⟩ := Option.map_eq_some_iff.mp h
    cases h
    obtain ⟨hstate, hwg⟩ := Shared.dispatch_wg hx
    exact hs.other rfl hstate hwg
  | work w =>
    obtain ⟨⟨x, e'⟩, hx, h⟩ := Option.map_eq_some_iff.mp h
    cases h
    obtain ⟨hstate, hwg⟩ := Shared.work_wg hx
    exact hs.other rfl hstate hwg.le

/-- As long as the state is not set, no call has stopped the dispatcher, and no task is dropped. -/
def Unstopped (s : System) : Prop :=
  s.shared.state = .started → ∀ p ∈ s.calls, p.closes = 0 ∧ p.dropped = false

theorem started_of_step (h : step s a = some (s', e)) (hstate : s'.shared.state = .started) :
    s.shared.state = .started := by
  cases a with
  | call kind =>
    cases h
    exact hstate
  | advance k direct =>
    obtain ⟨p, hp, h⟩ := Option.bind_eq_some_iff.mp h
    obtain ⟨⟨p', x⟩, hx, h⟩ := Option.bind_eq_some_iff.mp h
    cases h
    rcases (Procedure.advance_respects hx).state with hsame | ⟨-, hset, -⟩
    · exact hsame.symm.trans hstate
    · exact absurd hstate hset
  | dispatch =>
    obtain ⟨x, hx, h⟩ := Option.map_eq_some_iff.mp h
    cases h
    exact (Shared.dispatch_wg hx).1.symm.trans hstate
  | work w =>
    obtain ⟨⟨x, e'⟩, hx, h⟩ := Option.map_eq_some_iff.mp h
    cases h
    exact (Shared.work_wg hx).1.symm.trans hstate

theorem Unstopped.step (hs : Unstopped s) (h : step s a = some (s', e)) : Unstopped s' := by
  intro hstate q hq
  have hstarted := started_of_step h hstate
  obtain ⟨j, hj⟩ := List.getElem?_of_mem hq
  rcases step_call_back h hj with ⟨kind, rfl⟩ | hold | ⟨direct, p, hp, hadvance⟩
  · cases kind <;> exact ⟨rfl, rfl⟩
  · exact hs hstarted q (List.mem_of_getElem? hold)
  · obtain ⟨hcloses, hdropped⟩ := hs hstarted p (List.mem_of_getElem? hp)
    have hr := Procedure.advance_respects hadvance
    constructor
    · rcases hr.closes with hsame | ⟨-, hset, -⟩
      · exact hsame.trans hcloses
      · exact absurd hstate hset
    · by_contra hdrop
      rcases hr.dropped (Bool.eq_true_of_not_eq_false hdrop) with hbefore | hset
      · rw [hdropped] at hbefore
        cases hbefore
      · exact hset hstarted

end

/-! Whole runs. -/

section
variable {s u : System} {os os' : List Event} {concurrency queueLength : ℕ} {is is' : List Action}

theorem step_workers_length {s' : System} {a : Action} {e : Event} (hs : Accounts s) (h : step s a = some (s', e)) :
    s'.shared.workers.length = s.shared.workers.length := by
  by_cases ha : a.internal = true
  · obtain ⟨p, p', hbal, -, -⟩ := step_balanced hs h ha
    exact hbal.length
  · cases a with
    | call kind =>
      cases h
      rfl
    | _ => exact absurd rfl ha

theorem exec_accounts (h : exec step (start concurrency queueLength) is = some (s, os)) :
    Accounts s ∧ s.shared.workers.length = concurrency := by
  refine exec_invariant step (fun _ _ t => Accounts t ∧ t.shared.workers.length = concurrency) ?_ ?_ h
  · exact ⟨accounts_start _ _, List.length_replicate⟩
  · intro js ps t a t' e _ ih hstep
    exact ⟨ih.1.step hstep, (step_workers_length ih.1 hstep).trans ih.2⟩

theorem exec_unstopped (h : exec step (start concurrency queueLength) is = some (s, os)) : Unstopped s := by
  refine exec_invariant step (fun _ _ t => Unstopped t) ?_ ?_ h
  · intro _ p hp
    cases hp
  · intro js ps t a t' e _ ih hstep
    exact ih.step hstep

theorem exec_settled (hs : Settled s) (halone : stopsAlone s is = true) (h : exec step s is = some (u, os)) :
    Settled u := by
  induction is generalizing s os with
  | nil =>
    cases h
    exact hs
  | cons a is ih =>
    obtain ⟨t, e, v, vs, hstep, hrest, hr⟩ := (exec_cons_eq_some step).mp h
    cases hr
    rw [stopsAlone, hstep] at halone
    obtain ⟨hfirst, hothers⟩ := Bool.and_eq_true_iff.mp halone
    exact ih (hs.step hstep (by simpa using hfirst)) hothers hrest

/-- Every step of a process uses up some of the potential. -/
theorem internal_run_length (hs : Accounts s) (hinternal : ∀ a ∈ is, a.internal = true)
    (h : exec step s is = some (u, os)) : is.length+u.potential ≤ s.potential := by
  induction is generalizing s os with
  | nil =>
    cases h
    exact (Nat.zero_add _).le
  | cons a is ih =>
    obtain ⟨t, e, v, vs, hstep, hrest, hr⟩ := (exec_cons_eq_some step).mp h
    cases hr
    have hlt := step_potential_lt hs hstep (hinternal a List.mem_cons_self)
    have hle := ih (hs.step hstep) (fun b hb => hinternal b (List.mem_cons_of_mem a hb)) hrest
    rw [List.length_cons]
    omega

/-- With no outstanding task and nothing that moves, the tasks that were accepted are done or dropped. -/
theorem quiet_done {t : ℕ} (hq : s.Quiet) (hs : Accounts s) (hi : Invariant s os)
    (hpos : 0 < s.shared.workers.length) (hwg : s.shared.wg = 0) (ht : s.Accepted t) : Done os t ∨ s.Dropped t := by
  rcases hi.handed_of_wg hwg ht with hhanded | hdropped
  · have hbusy := s.shared.inHands_le_busy t
    have htotal := hi.taskWg
    have hzero := quiet_taskWg hq hs hi hpos
    exact Or.inl (hi.done_of_completed (by omega))
  · exact Or.inr hdropped

/-- The wait group is at zero where a dispatcher is left that waits. -/
theorem quiet_wg (hq : s.Quiet) (hi : Invariant s os) (hd : s.shared.dispatcher = .waiting)
    (ht : s.shared.tasks = []) : s.shared.wg = 0 := by
  have hcalls : (s.calls.map Procedure.weight).sum = 0 := by
    apply List.sum_eq_zero
    intro n hn
    obtain ⟨p, hp, rfl⟩ := List.mem_map.mp hn
    obtain ⟨k, hk⟩ := List.getElem?_of_mem hp
    exact quiet_weight hq hi hd ht hk
  rw [hi.wg, hcalls, Shared.load, hd, ht]
  rfl

/-- Where the dispatcher has exited, `Stop` has gone past it. -/
theorem Accounts.exists_passed (hs : Accounts s) (hd : s.shared.dispatcher = .exited) :
    0 < (s.calls.map Procedure.passed).sum := by
  rw [← hs.passed, hd]
  exact Nat.one_pos

end

end Executor

open Executor

/-- Two calls of `Stop` that both found the executor started: the second waits for ever for a dispatcher
that the first has stopped. -/
example : ∃ s os, exec step (start 1 1) ([.call .stop, .call .stop, .advance 0 false, .advance 1 false,
      .advance 0 false, .advance 1 false, .advance 0 false] ++ stopping) = some (s, os) ∧ s.Quiet ∧ s.calls[0]? = some (.stop .drained) := by
  refine ⟨_, _, exec_played ?_, ?_, ?_⟩
  all_goals decide +kernel

end SecureChaincode
