import Acnet.Framework.Machine
import Acnet.Scheduler.GlobalQueue
import Mathlib.Algebra.GroupWithZero.Nat
import Mathlib.Data.Fintype.Basic
import Mathlib.Data.Fin.Basic
import Mathlib.Logic.Function.Basic

namespace Acnet.Scheduler

variable {n : Nat} {κ η : Type}

/-- Inside one call of the `try_get_task` lambda. -/
inductive GetPc (n : Nat) (η : Type) where
  | tick
  | periodic
  | popLocal
  | popGlobal
  | steal (target : Fin n) (i : Nat)
  | approxSize (target : Fin n) (task : η)
  | notifyIdle (task : η)
  | notify (task : η)
  deriving DecidableEq

/-- Inside `Enqueue` or `EnqueueBatch`. -/
inductive EnqueuePc (η : Type) where
  | pushLocal (task : η)
  | approxSize
  | notifyIdle
  | push (task : η)
  | pushBatch (tasks : List η)
  | notify (wakeCount : Nat)
  deriving DecidableEq

/-- Which of the two calls of `try_get_task` in one loop iteration; the second one knows the
epoch that `prepare_park` returned. -/
inductive Attempt where
  | first
  | second (observedEpoch : Nat)
  deriving DecidableEq

/-- Inside `scheduler_thread`. At `park` the worker is about to take the mutex and test the
predicate; `blocked` is a worker inside the wait that nobody has notified. -/
inductive WorkerPc (n : Nat) (η : Type) where
  | loop
  | get (attempt : Attempt) (pc : GetPc n η)
  | preparePark
  | park (observedEpoch : Nat)
  | blocked (observedEpoch : Nat)
  | cancelPark (task : η)
  | done (task : η)
  | resume
  | submit (pc : EnqueuePc η)
  | exited
  deriving DecidableEq

/-- A worker thread. The deque is a list from `top_` to `bottom_`. -/
structure Worker (n : Nat) (η : Type) where
  localQueue : List η
  tick : Nat
  pc : WorkerPc n η
  deriving DecidableEq

/-- The memory that the workers and the submitting threads share. -/
structure Pool (n : Nat) (η : Type) where
  global : GlobalQueue η
  workers : Fin n → Worker n η

/-- What the environment settles in a worker's step: the value drawn from `rng`, whether a
`steal` loses its race, whether the task is already finished, and the waiter that a
`notify_one` unblocks. -/
structure Choice (n : Nat) where
  target : Fin n
  abort : Bool
  finished : Bool
  wake : Option (Fin n)

def WorkerPc.isBlocked : WorkerPc n η → Bool
  | .blocked _ => true
  | _ => false

/-- A blocked worker that is notified, or wakes up spuriously, tests the predicate again. -/
def WorkerPc.unblock : WorkerPc n η → WorkerPc n η
  | .blocked e => .park e
  | pc => pc

namespace Pool

def set (p : Pool n η) (i : Fin n) (w : Worker n η) : Pool n η :=
  {p with workers := Function.update p.workers i w}

def setPc (p : Pool n η) (i : Fin n) (pc : WorkerPc n η) : Pool n η :=
  p.set i {p.workers i with pc := pc}

def setLocal (p : Pool n η) (i : Fin n) (tasks : List η) : Pool n η :=
  p.set i {p.workers i with localQueue := tasks}

def unblock (p : Pool n η) (i : Fin n) : Pool n η := p.setPc i (p.workers i).pc.unblock

/-- `notify_one` unblocks a blocked waiter and returns at once only if there is none. -/
def notifyOne (p : Pool n η) : Option (Fin n) → Option (Pool n η)
  | some j => if (p.workers j).pc.isBlocked then some (p.unblock j) else none
  | none => if ∀ j,(p.workers j).pc.isBlocked=false then some p else none

def notifyAll (p : Pool n η) : Pool n η :=
  {p with workers := fun j => {p.workers j with pc := (p.workers j).pc.unblock}}

end Pool

section Threads

variable [NeZero n]

/-- One step of `try_get_task` on worker `i`. -/
def tryGetTask (p : Pool n η) (i : Fin n) (c : Choice n) :
    GetPc n η → Option (Pool n η×Control (GetPc n η) (Option η))
  | .tick =>
      let tick := ((p.workers i).tick+1)%2^32
      some (p.set i {p.workers i with tick := tick},
        .running (if tick%61=0 then .periodic else .popLocal))
  | .periodic =>
      let (g,task) := p.global.tryPop
      some ({p with global := g},
        match task with
        | some task => .returned (some task)
        | none => .running .popLocal)
  | .popLocal =>
      match (p.workers i).localQueue.getLast? with
      | some task =>
          some (p.setLocal i (p.workers i).localQueue.dropLast,.returned (some task))
      | none => some (p,.running .popGlobal)
  | .popGlobal =>
      let (g,task) := p.global.tryPop
      some ({p with global := g},
        match task with
        | some task => .returned (some task)
        | none => .running (.steal c.target 0))
  | .steal target k =>
      if k=n then some (p,.returned none)
      else
        match decide (target=i),c.abort,(p.workers target).localQueue with
        | false,false,task::rest =>
            some (p.setLocal target rest,.running (.approxSize target task))
        | _,_,_ => some (p,.running (.steal (Fin.ofNat n (target.val+1)) (k+1)))
  | .approxSize target task =>
      some (p,if 1<(p.workers target).localQueue.length then .running (.notifyIdle task)
        else .returned (some task))
  | .notifyIdle task =>
      let (g,wakeCount) := p.global.notifyOneIdle
      some ({p with global := g},
        if 0<wakeCount then .running (.notify task) else .returned (some task))
  | .notify task => (p.notifyOne c.wake).map fun p' => (p',.returned (some task))

def notifies (wakeCount : Nat) : Control (EnqueuePc η) Unit :=
  if wakeCount=0 then .returned () else .running (.notify wakeCount)

/-- One step of `Enqueue` or `EnqueueBatch`; `own` is `tls_worker`. -/
def enqueue (capacity : Nat) (own wake : Option (Fin n)) (p : Pool n η) :
    EnqueuePc η → Option (Pool n η×Control (EnqueuePc η) Unit)
  | .pushLocal task =>
      match own with
      | none => some (p,.running (.push task))
      | some i =>
          if (p.workers i).localQueue.length<capacity then
            some (p.setLocal i ((p.workers i).localQueue++[task]),.running .approxSize)
          else some (p,.running (.push task))
  | .approxSize =>
      match own with
      | none => none
      | some i =>
          some (p,if 1<(p.workers i).localQueue.length then .running .notifyIdle
            else .returned ())
  | .notifyIdle =>
      let (g,wakeCount) := p.global.notifyOneIdle
      some ({p with global := g},notifies wakeCount)
  | .push task =>
      let (g,wakeCount) := p.global.push task
      some ({p with global := g},notifies wakeCount)
  | .pushBatch tasks =>
      if tasks.isEmpty then some (p,.returned ())
      else
        let (g,wakeCount) := p.global.pushBatch tasks
        some ({p with global := g},notifies wakeCount)
  | .notify wakeCount => (p.notifyOne wake).map fun p' => (p',notifies (wakeCount-1))

/-- Where `scheduler_thread` goes on inside and after `try_get_task`. -/
def afterGet (attempt : Attempt) : Control (GetPc n η) (Option η) → WorkerPc n η
  | .running pc => .get attempt pc
  | .returned (some task) =>
      match attempt with
      | .first => .done task
      | .second _ => .cancelPark task
  | .returned none =>
      match attempt with
      | .first => .preparePark
      | .second e => .park e

def afterSubmit : Control (EnqueuePc η) Unit → WorkerPc n η
  | .running pc => .submit pc
  | .returned _ => .resume

/-- One step of `scheduler_thread` on worker `i`; a resumed task moves by itself. -/
def work (capacity : Nat) (running : Bool) (p : Pool n η) (i : Fin n) (c : Choice n) :
    WorkerPc n η → Option (Pool n η)
  | .loop => some (p.setPc i (if running then .get .first .tick else .exited))
  | .get attempt pc =>
      (tryGetTask p i c pc).map fun (p',control) => p'.setPc i (afterGet attempt control)
  | .preparePark =>
      let (g,observedEpoch) := p.global.preparePark
      some ({p with global := g}.setPc i (.get (.second observedEpoch) .tick))
  | .park e =>
      if p.global.mayLeave e then some ({p with global := p.global.cancelPark}.setPc i .loop)
      else some (p.setPc i (.blocked e))
  | .blocked _ => none
  | .cancelPark task => some ({p with global := p.global.cancelPark}.setPc i (.done task))
  | .done _ => some (p.setPc i (if c.finished then .loop else .resume))
  | .resume => none
  | .submit pc =>
      (enqueue capacity (some i) c.wake p pc).map fun (p',control) =>
        p'.setPc i (afterSubmit control)
  | .exited => none

end Threads

/-- The thread that calls `Shutdown`, between its calls or inside one. -/
inductive StopPc where
  | idle
  | stop
  | notifyAll
  deriving DecidableEq

/-- The scheduler with its submitting threads. `stopped` records that a call of
`GlobalQueue::stop` has completed. -/
structure State (n : Nat) (κ η : Type) where
  pool : Pool n η
  submitters : κ → Option (EnqueuePc η)
  running : Bool
  stopper : StopPc
  stopped : Bool

inductive Action (n : Nat) (κ η : Type) where
  | work (i : Fin n) (c : Choice n)
  | call (i : Fin n) (pc : EnqueuePc η)
  | suspend (i : Fin n)
  | submit (k : κ) (pc : EnqueuePc η)
  | enqueue (k : κ) (wake : Option (Fin n))
  | spurious (i : Fin n)
  | shutdown
  | stop

/-- The calls that start `Enqueue(task)` and `EnqueueBatch(tasks)`. -/
def EnqueuePc.isCall : EnqueuePc η → Bool
  | .pushLocal _ | .pushBatch _ => true
  | _ => false

def init : State n κ η where
  pool := ⟨.new,fun _ => ⟨[],0,.loop⟩⟩
  submitters _ := none
  running := true
  stopper := .idle
  stopped := false

def stopStep (s : State n κ η) : StopPc → Option (State n κ η)
  | .idle => none
  | .stop =>
      let (g,notify) := s.pool.global.stop
      some {s with
        pool := {s.pool with global := g}
        stopper := if notify then .notifyAll else .idle
        stopped := s.stopped || !notify}
  | .notifyAll => some {s with pool := s.pool.notifyAll, stopper := .idle, stopped := true}

def next [NeZero n] [DecidableEq κ] (capacity : Nat) (s : State n κ η) :
    Action n κ η → Option (State n κ η)
  | .work i c =>
      (work capacity s.running s.pool i c (s.pool.workers i).pc).map fun p => {s with pool := p}
  | .call i pc =>
      match (s.pool.workers i).pc,pc.isCall with
      | .resume,true => some {s with pool := s.pool.setPc i (.submit pc)}
      | _,_ => none
  | .suspend i =>
      match (s.pool.workers i).pc with
      | .resume => some {s with pool := s.pool.setPc i .loop}
      | _ => none
  | .submit k pc =>
      match s.submitters k,pc.isCall with
      | none,true => some {s with submitters := Function.update s.submitters k (some pc)}
      | _,_ => none
  | .enqueue k wake =>
      match s.submitters k with
      | none => none
      | some pc =>
          (enqueue capacity none wake s.pool pc).map fun (p,control) =>
            {s with
              pool := p
              submitters := Function.update s.submitters k control.pc?}
  | .spurious i => some {s with pool := s.pool.unblock i}
  | .shutdown =>
      match s.stopper with
      | .idle => some {s with running := false, stopper := .stop}
      | _ => none
  | .stop => stopStep s s.stopper

/-- `n` workers with deques of the given capacity and any number of submitting threads. -/
def machine (n : Nat) (κ η : Type) [NeZero n] [DecidableEq κ] (capacity : Nat) :
    Machine (State n κ η) (Action n κ η) where
  start s := s=init
  next := next capacity

end Acnet.Scheduler
