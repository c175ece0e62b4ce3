import SecureChaincode.Exec

/-! The executor of the benchmark: `executor.go`, `worker/workerpool.go` and `worker/worker.go`. Its
processes are the calls, the goroutines of delayed tasks, the dispatcher and the workers. One step of a
process is one access to what it shares with others: the state, a channel or a wait group. A task is
named by the number of the call that submits it. -/
namespace SecureChaincode

namespace Executor

inductive State
  | new
  | started
  | terminated
deriving DecidableEq

/-- How far `Submit` is: it was called, it has found the executor started, it has added to the wait
group, it has sent the task and returned nil, or it has returned an error. -/
inductive Submission
  | entered
  | admitted
  | counted
  | sent
  | refused
deriving DecidableEq

/-- How far `SubmitDelayed` is. From `spawned` on it has returned nil, and the goroutine is in its own
call of `Submit`, where the timer may keep it as long as it likes. After that it is done with the wait
group, and the task was sent or not. -/
inductive Delayed
  | entered
  | refused
  | admitted
  | spawned (inner : Submission)
  | finished (sent : Bool)
deriving DecidableEq

/-- How far `Stop(true)` is: it has set the state, has seen no outstanding task, has stopped the
dispatcher, has seen no task at work, and goes through the workers. -/
inductive Stopping
  | entered
  | refused
  | admitted
  | closing
  | drained
  | dispatcherStopped
  | stopping (i : ℕ)
  | holding (i w : ℕ)
  | returned
deriving DecidableEq

inductive Procedure
  | submit (pc : Submission)
  | submitDelayed (pc : Delayed)
  | wait (returned : Bool)
  | stop (pc : Stopping)
deriving DecidableEq

/-- The dispatcher waits in its `select`, or is in `Pool.Submit` with a task. -/
inductive Dispatcher
  | waiting
  | received (task : ℕ)
  | counted (task : ℕ)
  | paired (task w : ℕ)
  | handed
  | exited
deriving DecidableEq

/-- A worker is ready from when it has put itself into the channel of the pool. -/
inductive Worker
  | starting
  | ready
  | received (task : ℕ)
  | running (task : ℕ)
  | finished
  | stopping
  | stopped
deriving DecidableEq

/-- What the processes share. -/
structure Shared where
  state : State
  queueLength : ℕ
  tasks : List ℕ
  wg : ℕ
  dispatcher : Dispatcher
  workers : List Worker
  availableWorker : List ℕ
  taskWg : ℕ
  poolWg : ℕ
deriving DecidableEq

/-- `e.wg.Done()`, which panics at zero. -/
def Shared.wgDone (x : Shared) : Option Shared :=
  if x.wg = 0 then none else some { x with wg := x.wg-1 }

/-- `e.tasks <- task`, directly to the dispatcher or into the buffer. -/
def Shared.send (x : Shared) (task : ℕ) (direct : Bool) : Option Shared :=
  if direct then
    if x.tasks = [] ∧ x.dispatcher = .waiting then some { x with dispatcher := .received task } else none
  else if x.tasks.length < x.queueLength then some { x with tasks := x.tasks ++ [task] }
  else none

def Submission.advance (x : Shared) (task : ℕ) (direct : Bool) : Submission → Option (Submission × Shared)
  | .entered => some (if x.state = .started then .admitted else .refused, x)
  | .admitted => some (.counted, { x with wg := x.wg+1 })
  | .counted => (x.send task direct).map (.sent, ·)
  | .sent => none
  | .refused => none

/-- The error of the inner `Submit` is dropped. -/
def Delayed.advance (x : Shared) (task : ℕ) (direct : Bool) : Delayed → Option (Delayed × Shared)
  | .entered => some (if x.state = .started then .admitted else .refused, x)
  | .refused => none
  | .admitted => some (.spawned .entered, { x with wg := x.wg+1 })
  | .spawned .sent => x.wgDone.map (.finished true, ·)
  | .spawned .refused => x.wgDone.map (.finished false, ·)
  | .spawned inner => (inner.advance x task direct).map fun r => (.spawned r.1, r.2)
  | .finished _ => none

def Stopping.advance (x : Shared) : Stopping → Option (Stopping × Shared)
  | .entered => some (if x.state = .started then .admitted else .refused, x)
  | .refused => none
  | .admitted => some (.closing, { x with state := .terminated })
  | .closing => if x.wg = 0 then some (.drained, x) else none
  | .drained =>
    if x.dispatcher = .waiting then some (.dispatcherStopped, { x with dispatcher := .exited }) else none
  | .dispatcherStopped => if x.taskWg = 0 then some (.stopping 0, x) else none
  | .stopping i =>
    if i < x.workers.length then
      match x.availableWorker with
      | [] => none
      | w :: rest => some (.holding i w, { x with availableWorker := rest })
    else if x.poolWg = 0 then some (.returned, x)
    else none
  | .holding i w =>
    if x.workers[w]? = some .ready then some (.stopping (i+1), { x with workers := x.workers.set w .stopping })
    else none
  | .returned => none

/-- `Wait` returns at a moment at which the counter is zero. -/
def Procedure.advance (x : Shared) (task : ℕ) (direct : Bool) : Procedure → Option (Procedure × Shared)
  | .submit pc => (pc.advance x task direct).map fun r => (.submit r.1, r.2)
  | .submitDelayed pc => (pc.advance x task direct).map fun r => (.submitDelayed r.1, r.2)
  | .wait false => if x.wg = 0 then some (.wait true, x) else none
  | .wait true => none
  | .stop pc => (pc.advance x).map fun r => (.stop r.1, r.2)

/-- A step of the dispatcher. Its other choice in the `select` is taken by `Stop`. -/
def Shared.dispatch (x : Shared) : Option Shared :=
  match x.dispatcher with
  | .waiting =>
    match x.tasks with
    | [] => none
    | task :: rest => some { x with tasks := rest, dispatcher := .received task }
  | .received task => some { x with taskWg := x.taskWg+1, dispatcher := .counted task }
  | .counted task =>
    match x.availableWorker with
    | [] => none
    | w :: rest => some { x with availableWorker := rest, dispatcher := .paired task w }
  | .paired task w =>
    if x.workers[w]? = some .ready then
      some { x with workers := x.workers.set w (.received task), dispatcher := .handed }
    else none
  | .handed => x.wgDone.map fun x => { x with dispatcher := .waiting }
  | .exited => none

/-- An invocation begins, or has ended. -/
inductive Event
  | started (task : ℕ)
  | completed (task : ℕ)
  | silent
deriving DecidableEq

/-- A step of the worker `w`. When it is ready, the dispatcher or `Stop` comes to it. -/
def Shared.work (x : Shared) (w : ℕ) : Option (Shared × Event) :=
  match x.workers[w]? with
  | none => none
  | some .starting =>
    if x.availableWorker.length < x.workers.length then
      some ({ x with workers := x.workers.set w .ready, availableWorker := x.availableWorker ++ [w] }, .silent)
    else none
  | some .ready => none
  | some (.received task) => some ({ x with workers := x.workers.set w (.running task) }, .started task)
  | some (.running task) => some ({ x with workers := x.workers.set w .finished }, .completed task)
  | some .finished =>
    if x.taskWg = 0 then none
    else some ({ x with taskWg := x.taskWg-1, workers := x.workers.set w .starting }, .silent)
  | some .stopping =>
    if x.poolWg = 0 then none
    else some ({ x with poolWg := x.poolWg-1, workers := x.workers.set w .stopped }, .silent)
  | some .stopped => none

/-- The executor with all calls that were made to it. -/
structure System where
  shared : Shared
  calls : List Procedure
deriving DecidableEq

inductive Kind
  | submit
  | submitDelayed
  | wait
  | stop

def Kind.enter : Kind → Procedure
  | .submit => .submit .entered
  | .submitDelayed => .submitDelayed .entered
  | .wait => .wait false
  | .stop => .stop .entered

/-- A call is made, or one of the processes takes a step. -/
inductive Action
  | call (kind : Kind)
  | advance (k : ℕ) (direct : Bool)
  | dispatch
  | work (w : ℕ)

def step (s : System) : Action → Option (System × Event)
  | .call kind => some (⟨s.shared, s.calls ++ [kind.enter]⟩, .silent)
  | .advance k direct => do
    let p ← s.calls[k]?
    let (p', x) ← p.advance s.shared k direct
    return (⟨x, s.calls.set k p'⟩, .silent)
  | .dispatch => s.shared.dispatch.map fun x => (⟨x, s.calls⟩, .silent)
  | .work w => (s.shared.work w).map fun r => (⟨r.1, s.calls⟩, r.2)

/-- The executor after `Start`. -/
def start (concurrency queueLength : ℕ) : System where
  shared :=
    { state := .started
      queueLength := queueLength
      tasks := []
      wg := 0
      dispatcher := .waiting
      workers := List.replicate concurrency .starting
      availableWorker := []
      taskWg := 0
      poolWg := concurrency }
  calls := []

end Executor

end SecureChaincode
