import Acnet.Scheduler.Conservation

/-!
The numbers of the submissions are not part of the scheduler: it does the same to handles whatever
they carry, so each of its runs is a tracked run without the numbers.
-/

namespace Acnet.Scheduler

variable {n : Nat} {κ η θ : Type} (f : η → θ)

def GetPc.map : GetPc n η → GetPc n θ
  | .tick => .tick
  | .periodic => .periodic
  | .popLocal => .popLocal
  | .popGlobal => .popGlobal
  | .steal target i => .steal target i
  | .approxSize target task => .approxSize target (f task)
  | .notifyIdle task => .notifyIdle (f task)
  | .notify task => .notify (f task)

def EnqueuePc.map : EnqueuePc η → EnqueuePc θ
  | .pushLocal task => .pushLocal (f task)
  | .approxSize => .approxSize
  | .notifyIdle => .notifyIdle
  | .push task => .push (f task)
  | .pushBatch tasks => .pushBatch (tasks.map f)
  | .notify wakeCount => .notify wakeCount

def WorkerPc.map : WorkerPc n η → WorkerPc n θ
  | .loop => .loop
  | .get attempt pc => .get attempt (pc.map f)
  | .preparePark => .preparePark
  | .park e => .park e
  | .blocked e => .blocked e
  | .cancelPark task => .cancelPark (f task)
  | .done task => .done (f task)
  | .resume => .resume
  | .submit pc => .submit (pc.map f)
  | .exited => .exited

def Worker.map (w : Worker n η) : Worker n θ := ⟨w.localQueue.map f,w.tick,w.pc.map f⟩

def mapGlobal (g : GlobalQueue η) : GlobalQueue θ :=
  ⟨g.queue.map f,g.idleThreads,g.wakeEpoch,g.stopFlag⟩

def Pool.map (p : Pool n η) : Pool n θ := ⟨mapGlobal f p.global,fun i => (p.workers i).map f⟩

def State.map (s : State n κ η) : State n κ θ :=
  ⟨s.pool.map f,fun k => (s.submitters k).map (EnqueuePc.map f),s.running,s.stopper,s.stopped⟩

def Action.map : Action n κ η → Action n κ θ
  | .work i c => .work i c
  | .call i pc => .call i (pc.map f)
  | .suspend i => .suspend i
  | .submit k pc => .submit k (pc.map f)
  | .enqueue k wake => .enqueue k wake
  | .spurious i => .spurious i
  | .shutdown => .shutdown
  | .stop => .stop

def mapFound : Control (GetPc n η) (Option η) → Control (GetPc n θ) (Option θ)
  | .running pc => .running (pc.map f)
  | .returned task => .returned (task.map f)

def mapEnqueue : Control (EnqueuePc η) Unit → Control (EnqueuePc θ) Unit
  | .running pc => .running (pc.map f)
  | .returned u => .returned u

section Maps

variable {f} (p : Pool n η) (i : Fin n)

@[simp] theorem map_workers : (p.map f).workers i=(p.workers i).map f := rfl

@[simp] theorem map_global : (p.map f).global=mapGlobal f p.global := rfl

theorem map_set (w : Worker n η) : (p.set i w).map f=(p.map f).set i (w.map f) := by
  simp only [Pool.map,Pool.set,Pool.mk.injEq,true_and]
  funext j
  simp only [Function.update_apply]
  split_ifs <;> rfl

@[simp] theorem map_setPc (pc : WorkerPc n η) :
    (p.setPc i pc).map f=(p.map f).setPc i (pc.map f) := map_set p i _

@[simp] theorem map_setLocal (tasks : List η) :
    (p.setLocal i tasks).map f=(p.map f).setLocal i (tasks.map f) := map_set p i _

@[simp] theorem map_unblock (pc : WorkerPc n η) : (pc.map f).unblock=pc.unblock.map f := by
  cases pc <;> rfl

@[simp] theorem map_isBlocked (pc : WorkerPc n η) : (pc.map f).isBlocked=pc.isBlocked := by
  cases pc <;> rfl

theorem map_notifyOne (wake : Option (Fin n)) :
    (p.map f).notifyOne wake=(p.notifyOne wake).map (Pool.map f) := by
  cases wake with
  | none =>
    simp only [Pool.notifyOne,map_workers,Worker.map,map_isBlocked]
    split_ifs <;> rfl
  | some j =>
    simp only [Pool.notifyOne,map_workers,Worker.map,map_isBlocked]
    split_ifs
    · simp [Pool.unblock,Worker.map]
    · rfl

theorem map_tryPop (g : GlobalQueue η) :
    (mapGlobal f g).tryPop=(mapGlobal f g.tryPop.1,g.tryPop.2.map f) := by
  unfold GlobalQueue.tryPop
  cases hq : g.queue <;> simp [mapGlobal,hq]

theorem map_notifyOneIdle (g : GlobalQueue η) :
    (mapGlobal f g).notifyOneIdle=(mapGlobal f g.notifyOneIdle.1,g.notifyOneIdle.2) := by
  by_cases hi : 0 < g.idleThreads <;> simp [GlobalQueue.notifyOneIdle,mapGlobal,hi]

theorem map_push (g : GlobalQueue η) (task : η) :
    (mapGlobal f g).push (f task)=(mapGlobal f (g.push task).1,(g.push task).2) := by
  by_cases hi : 0 < g.idleThreads <;> simp [GlobalQueue.push,mapGlobal,hi]

theorem map_pushBatch (g : GlobalQueue η) (tasks : List η) :
    (mapGlobal f g).pushBatch (tasks.map f)=
      (mapGlobal f (g.pushBatch tasks).1,(g.pushBatch tasks).2) := by
  by_cases hi : 0 < min tasks.length g.idleThreads
  · simp only [GlobalQueue.pushBatch,mapGlobal,List.length_map,if_pos hi,List.map_append]
  · simp only [GlobalQueue.pushBatch,mapGlobal,List.length_map,if_neg hi,List.map_append]

theorem map_notifies (wakeCount : Nat) :
    mapEnqueue f (notifies wakeCount)=notifies wakeCount := by
  unfold notifies
  split_ifs <;> rfl

theorem map_tryGetTask [NeZero n] (c : Choice n) (pc : GetPc n η) :
    tryGetTask (p.map f) i c (pc.map f)=
      (tryGetTask p i c pc).map fun (p',control) => (p'.map f,mapFound f control) := by
  cases pc with
  | tick =>
    have hnext (tick : Nat) :
        mapFound f (.running (if tick%61=0 then .periodic else .popLocal : GetPc n η))=
          .running (if tick%61=0 then .periodic else .popLocal) := by
      split_ifs <;> rfl
    simp only [GetPc.map,tryGetTask,Option.map_some,map_set,hnext]
    rfl
  | periodic | popGlobal =>
    simp only [GetPc.map,tryGetTask,Option.map_some,map_global,map_tryPop]
    cases p.global.tryPop.2 <;> rfl
  | popLocal =>
    simp only [GetPc.map,tryGetTask,map_workers,Worker.map,List.getLast?_map]
    cases (p.workers i).localQueue.getLast? with
    | none => rfl
    | some task => simp [mapFound,List.map_dropLast]
  | steal target k =>
    simp only [GetPc.map,tryGetTask,map_workers,Worker.map]
    split_ifs
    · rfl
    · cases (p.workers target).localQueue with
      | nil => cases decide (target=i) <;> cases c.abort <;> rfl
      | cons task rest =>
        cases decide (target=i) <;> cases c.abort <;> simp [mapFound,GetPc.map]
  | approxSize target task =>
    simp only [GetPc.map,tryGetTask,map_workers,Worker.map,List.length_map,Option.map_some]
    split_ifs <;> rfl
  | notifyIdle task =>
    simp only [GetPc.map,tryGetTask,map_global,map_notifyOneIdle,Option.map_some]
    split_ifs <;> rfl
  | notify task =>
    simp only [GetPc.map,tryGetTask,map_notifyOne,Option.map_map]
    rfl

theorem map_enqueue (capacity : Nat) (own wake : Option (Fin n)) (pc : EnqueuePc η) :
    enqueue capacity own wake (p.map f) (pc.map f)=
      (enqueue capacity own wake p pc).map fun (p',control) =>
        (p'.map f,mapEnqueue f control) := by
  cases pc with
  | pushLocal task =>
    cases own with
    | none => rfl
    | some j =>
      simp only [EnqueuePc.map,enqueue,map_workers,Worker.map,List.length_map]
      split_ifs
      · simp [mapEnqueue,EnqueuePc.map]
      · rfl
  | approxSize =>
    cases own with
    | none => rfl
    | some j =>
      simp only [EnqueuePc.map,enqueue,map_workers,Worker.map,List.length_map,Option.map_some]
      split_ifs <;> rfl
  | notifyIdle =>
    simp only [EnqueuePc.map,enqueue,map_global,map_notifyOneIdle,Option.map_some,map_notifies]
    rfl
  | push task =>
    simp only [EnqueuePc.map,enqueue,map_global,map_push,Option.map_some,map_notifies]
    rfl
  | pushBatch tasks =>
    simp only [EnqueuePc.map,enqueue,map_global,map_pushBatch,List.isEmpty_map]
    split_ifs
    · rfl
    · simp only [Option.map_some,map_notifies]
      rfl
  | notify wakeCount =>
    simp only [EnqueuePc.map,enqueue,map_notifyOne,Option.map_map,Function.comp_def,map_notifies]

theorem map_work [NeZero n] (capacity : Nat) (running : Bool) (c : Choice n)
    (pc : WorkerPc n η) : work capacity running (p.map f) i c (pc.map f)=
      (work capacity running p i c pc).map (Pool.map f) := by
  cases pc with
  | loop =>
    simp only [WorkerPc.map,work,Option.map_some,map_setPc]
    split_ifs <;> rfl
  | get attempt pc =>
    simp only [WorkerPc.map,work,map_tryGetTask,Option.map_map]
    congr 1
    funext x
    simp only [Function.comp_def,map_setPc]
    congr 1
    rcases x with ⟨q,_ | task⟩
    · rfl
    · cases attempt <;> cases task <;> rfl
  | preparePark =>
    simp only [WorkerPc.map,work,Option.map_some,map_setPc]
    rfl
  | park e =>
    have hleave : (mapGlobal f p.global).mayLeave e=p.global.mayLeave e := rfl
    simp only [WorkerPc.map,work,map_global,hleave]
    split_ifs
    · simp only [Option.map_some,map_setPc]
      rfl
    · simp only [Option.map_some,map_setPc]
      rfl
  | blocked e => rfl
  | cancelPark task =>
    simp only [WorkerPc.map,work,Option.map_some,map_setPc]
    rfl
  | done task =>
    simp only [WorkerPc.map,work,Option.map_some,map_setPc]
    split_ifs <;> rfl
  | resume => rfl
  | submit pc =>
    simp only [WorkerPc.map,work,map_enqueue,Option.map_map]
    congr 1
    funext x
    simp only [Function.comp_def,map_setPc]
    congr 1
    rcases x with ⟨q,_ | u⟩ <;> rfl
  | exited => rfl

end Maps

section Runs

variable {f} [NeZero n] [DecidableEq κ]

omit [NeZero n] [DecidableEq κ] in
theorem map_isCall (pc : EnqueuePc η) : (pc.map f).isCall=pc.isCall := by
  cases pc <;> rfl

theorem map_submitters (submitters : κ → Option (EnqueuePc η)) (k : κ)
    (pc : Option (EnqueuePc η)) :
    (fun j => (Function.update submitters k pc j).map (EnqueuePc.map f))=
      Function.update (fun j => (submitters j).map (EnqueuePc.map f)) k
        (pc.map (EnqueuePc.map f)) := by
  funext j
  simp only [Function.update_apply]
  split_ifs <;> rfl

omit [NeZero n] [DecidableEq κ] in
theorem map_stopStep (s : State n κ η) (pc : StopPc) :
    stopStep (s.map f) pc=(stopStep s pc).map (State.map f) := by
  cases pc with
  | idle => rfl
  | stop =>
    have hstop : (mapGlobal f s.pool.global).stop=
        (mapGlobal f s.pool.global.stop.1,s.pool.global.stop.2) := by
      cases hf : s.pool.global.stopFlag <;> simp [GlobalQueue.stop,mapGlobal,hf]
    simp only [stopStep,State.map,map_global,hstop]
    rfl
  | notifyAll =>
    simp only [stopStep,State.map,Pool.notifyAll,map_workers,Worker.map,map_unblock]
    rfl

theorem map_next (capacity : Nat) (s : State n κ η) (a : Action n κ η) :
    next capacity (s.map f) (a.map f)=(next capacity s a).map (State.map f) := by
  cases a with
  | work i c =>
    simp only [Action.map,next,State.map,map_workers,Worker.map,map_work,Option.map_map]
    rfl
  | call i pc =>
    simp only [Action.map,next,State.map,map_workers,Worker.map]
    rw [map_isCall]
    cases (s.pool.workers i).pc <;> cases pc.isCall <;> simp [WorkerPc.map,State.map]
  | suspend i =>
    simp only [Action.map,next,State.map,map_workers,Worker.map]
    cases (s.pool.workers i).pc <;> simp [WorkerPc.map,State.map]
  | submit k pc =>
    simp only [Action.map,next,State.map]
    rw [map_isCall]
    cases s.submitters k with
    | some _ => rfl
    | none =>
      cases pc.isCall with
      | false => rfl
      | true => simp [State.map,map_submitters]
  | enqueue k wake =>
    simp only [Action.map,next,State.map]
    cases s.submitters k with
    | none => rfl
    | some pc =>
      simp only [Option.map_some,map_enqueue,Option.map_map]
      congr 1
      funext x
      rcases x with ⟨p,_ | _⟩ <;> simp [State.map,map_submitters,mapEnqueue,Control.pc?]
  | spurious i =>
    simp [Action.map,next,State.map,Pool.unblock,Worker.map]
  | shutdown =>
    simp only [Action.map,next,State.map]
    cases s.stopper <;> rfl
  | stop => exact map_stopStep s s.stopper

omit [NeZero n] [DecidableEq κ] in
theorem map_tag (a : Action n κ η) (serial : Nat) : (a.tag serial).map Prod.fst=a := by
  have hpc (pc : EnqueuePc η) : (pc.tag serial).map Prod.fst=pc := by
    cases pc <;> simp [EnqueuePc.tag,EnqueuePc.map]
  cases a <;> simp [Action.tag,Action.map,hpc]

/-- Every run of the scheduler is a tracked run without the numbers. -/
theorem tracked_covers {capacity : Nat} {ok : Action n κ η → Prop} {s : State n κ η}
    (h : (machine n κ η capacity).ReachableBy (fun _ a _ => ok a) s) :
    ∃ r,(tracked n κ η capacity).ReachableBy (fun _ a _ => ok a) r ∧
      r.scheduler.map Prod.fst=s := by
  obtain ⟨s₀,hs₀,hr⟩ := h
  induction hr with
  | refl =>
    cases hs₀
    exact ⟨.init fun _ => 0,⟨_,⟨_,rfl⟩,.refl⟩,rfl⟩
  | @tail t u a _ hn ho ih =>
    obtain ⟨r,hr,rfl⟩ := ih
    have htag : (a.tag r.serial).map Prod.fst=a := map_tag a r.serial
    have hstep := map_next (f := Prod.fst) capacity r.scheduler (a.tag r.serial)
    rw [htag] at hstep
    change next capacity _ a=some u at hn
    rw [hn] at hstep
    obtain ⟨s',hs',he⟩ := Option.map_eq_some_iff.mp hstep.symm
    have hnext : (tracked n κ η capacity).next r a=some ⟨s',_,_,_⟩ :=
      Option.map_eq_some_iff.mpr ⟨s',hs',rfl⟩
    exact ⟨_,hr.next hnext ho,he⟩

end Runs

end Acnet.Scheduler
