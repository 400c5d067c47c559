import Acnet.Framework.Placement
import Acnet.Scheduler.Parking

/-!
Where the submitted handles are. The scheduler runs on handles that carry the number of their
submission, so that two submissions of one handle can be told apart; nothing in it looks at the
number.
-/

namespace Acnet.Scheduler

variable {n : Nat} {κ η : Type}

/-- The task that `try_get_task` has found and not returned yet. -/
def GetPc.hand : GetPc n η → List η
  | .approxSize _ task | .notifyIdle task | .notify task => [task]
  | _ => []

/-- The tasks that a submission has not put into a queue yet. -/
def EnqueuePc.hand : EnqueuePc η → List η
  | .pushLocal task | .push task => [task]
  | .pushBatch tasks => tasks
  | _ => []

/-- The tasks that a worker has taken and not resumed, or not submitted yet. -/
def WorkerPc.hand : WorkerPc n η → List η
  | .get _ pc => pc.hand
  | .cancelPark task | .done task => [task]
  | .submit pc => pc.hand
  | _ => []

inductive Queue (n : Nat) where
  | localQueue (i : Fin n)
  | globalQueue
  deriving DecidableEq

def Pool.queued (p : Pool n η) : Queue n → List η
  | .localQueue i => (p.workers i).localQueue
  | .globalQueue => p.global.queue

/-- Where a submission can be: in a queue, in the hands of a worker or of a submitting thread, or
among those that a worker has resumed. -/
inductive Place (n : Nat) (κ : Type) where
  | queue (q : Queue n)
  | worker (i : Fin n)
  | submitter (k : κ)
  | resumed (i : Fin n)
  deriving DecidableEq

def lies (p : Pool n η) (submitters : κ → Option (EnqueuePc η)) (resumed : Fin n → List η) :
    Place n κ → List η
  | .queue q => p.queued q
  | .worker i => (p.workers i).pc.hand
  | .submitter k => (submitters k).elim [] EnqueuePc.hand
  | .resumed i => resumed i

/-- The scheduler with a record of what has been submitted and of what each worker has resumed. -/
structure Tracked (n : Nat) (κ η : Type) where
  scheduler : State n κ (η×Nat)
  serial : Nat
  submitted : List (η×Nat)
  resumed : Fin n → List (η×Nat)

/-- The handles of a call get the next numbers. -/
def EnqueuePc.tag (serial : Nat) : EnqueuePc η → EnqueuePc (η×Nat)
  | .pushLocal task => .pushLocal (task,serial)
  | .approxSize => .approxSize
  | .notifyIdle => .notifyIdle
  | .push task => .push (task,serial)
  | .pushBatch tasks => .pushBatch (tasks.zipIdx serial)
  | .notify wakeCount => .notify wakeCount

namespace Action

def tag (serial : Nat) : Action n κ η → Action n κ (η×Nat)
  | .work i c => .work i c
  | .call i pc => .call i (pc.tag serial)
  | .suspend i => .suspend i
  | .submit k pc => .submit k (pc.tag serial)
  | .enqueue k wake => .enqueue k wake
  | .spurious i => .spurious i
  | .shutdown => .shutdown
  | .stop => .stop

/-- The handles that a step submits. -/
def handles : Action n κ η → List η
  | .call _ pc | .submit _ pc => pc.hand
  | _ => []

end Action

/-- Worker `i` resumes the task that it is done with finding. -/
def resumedBy (resumed : Fin n → List η) (i : Fin n) : WorkerPc n η → Fin n → List η
  | .done task => Function.update resumed i (resumed i++[task])
  | _ => resumed

namespace Tracked

def lies (r : Tracked n κ η) : Place n κ → List (η×Nat) :=
  Scheduler.lies r.scheduler.pool r.scheduler.submitters r.resumed

/-- What the workers have resumed after a step. -/
def resumes (r : Tracked n κ η) : Action n κ η → Fin n → List (η×Nat)
  | .work i c =>
      if c.finished then r.resumed
      else resumedBy r.resumed i (r.scheduler.pool.workers i).pc
  | _ => r.resumed

def next [NeZero n] [DecidableEq κ] (capacity : Nat) (r : Tracked n κ η) (a : Action n κ η) :
    Option (Tracked n κ η) :=
  (Scheduler.next capacity r.scheduler (a.tag r.serial)).map fun s =>
    { scheduler := s
      serial := r.serial+a.handles.length
      submitted := r.submitted++a.handles.zipIdx r.serial
      resumed := r.resumes a}

/-- No task is found finished by the worker that has taken it. -/
def unfinished (_ : Tracked n κ η) (a : Action n κ η) (_ : Tracked n κ η) : Prop :=
  match a with
  | .work _ c => c.finished=false
  | _ => True

instance (r : Tracked n κ η) (a : Action n κ η) (t : Tracked n κ η) :
    Decidable (unfinished r a t) := by
  unfold unfinished
  split <;> infer_instance

/-- The workers start with any tick. -/
def init (ticks : Fin n → Nat) : Tracked n κ η where
  scheduler := {(Scheduler.init : State n κ (η×Nat)) with
    pool := ⟨.new,fun i => ⟨[],ticks i,.loop⟩⟩}
  serial := 0
  submitted := []
  resumed _ := []

end Tracked

def tracked (n : Nat) (κ η : Type) [NeZero n] [DecidableEq κ] (capacity : Nat) :
    Machine (Tracked n κ η) (Action n κ η) where
  start r := ∃ ticks,r=.init ticks
  next := Tracked.next capacity

@[simp] theorem WorkerPc.unblock_hand (pc : WorkerPc n η) : pc.unblock.hand=pc.hand := by
  cases pc <;> rfl

theorem Pool.Follows.hand {own : Option (Fin n)} {p p' : Pool n η} (h : p.Follows own p')
    (j : Fin n) : (p'.workers j).pc.hand=(p.workers j).pc.hand := by
  rcases h.pc j with he | he <;> simp [he]

/-- A thread and the queues, one step later: nothing has changed hands, the thread has taken
tasks out of one queue, or it has put all it had into one. -/
inductive Exchange (p p' : Pool n η) (before after : List η) : Prop
  | same (queued : ∀ q,p'.queued q=p.queued q) (hand : after=before)
  | take (q : Queue n) (empty : before=[]) (taken : (p.queued q).Perm (after++p'.queued q))
      (others : ∀ q',q'≠q → p'.queued q'=p.queued q')
  | put (q : Queue n) (empty : after=[]) (given : (p'.queued q).Perm (p.queued q++before))
      (others : ∀ q',q'≠q → p'.queued q'=p.queued q')

theorem Exchange.placed {p p' : Pool n η} {things : List η} {lies lies' : Place n κ → List η}
    {w : Place n κ} (hw : ∀ q,w≠.queue q) (h : Placed things lies)
    (hx : Exchange p p' (lies w) (lies' w)) (hq : ∀ q,lies (.queue q)=p.queued q)
    (hq' : ∀ q,lies' (.queue q)=p'.queued q)
    (ho : ∀ x,x≠w → (∀ q,x≠.queue q) → lies' x=lies x) : Placed things lies' := by
  have elsewhere {q : Queue n} (hs : ∀ q',q'≠q → p'.queued q'=p.queued q') (x : Place n κ)
      (hxq : x≠.queue q) (hxw : x≠w) : lies' x=lies x := by
    cases x with
    | queue q' =>
      rw [hq,hq']
      exact hs q' fun he => hxq (congrArg _ he)
    | worker | submitter | resumed => exact ho _ hxw (by simp)
  cases hx with
  | same queued hand =>
    apply h.congr
    intro x
    by_cases hxw : x=w
    · rw [hxw,hand]
    · cases x with
      | queue q => rw [hq,hq',queued]
      | worker | submitter | resumed => exact ho _ hxw (by simp)
  | take q empty taken others =>
    refine h.move (a := .queue q) (b := w) (hw q).symm (lies' w) ?_ ?_ (elsewhere others)
    · rw [hq,hq']
      exact taken
    · rw [empty]
      exact .refl _
  | put q empty given others =>
    refine h.move (a := w) (b := .queue q) (hw q) (lies w) ?_ ?_
      fun x hxw hxq => elsewhere others x hxq hxw
    · rw [empty,List.append_nil]
    · rw [hq,hq']
      exact given

section Pools

variable {p p' : Pool n η} {i : Fin n}

@[simp] theorem setPc_queued (p : Pool n η) (i : Fin n) (pc : WorkerPc n η) (q : Queue n) :
    (p.setPc i pc).queued q=p.queued q := by
  cases q with
  | globalQueue => rfl
  | localQueue j =>
    simp only [Pool.queued,Pool.setPc,Pool.set_workers]
    split_ifs with hj
    · rw [hj]
    · rfl

theorem setPc_hand (p : Pool n η) (i j : Fin n) (pc : WorkerPc n η) :
    ((p.setPc i pc).workers j).pc.hand=if j=i then pc.hand else (p.workers j).pc.hand := by
  simp only [Pool.setPc,Pool.set_workers]
  split_ifs <;> rfl

theorem queued_setLocal (p : Pool n η) (i : Fin n) (tasks : List η) {q : Queue n}
    (hq : q≠.localQueue i) : (p.setLocal i tasks).queued q=p.queued q := by
  cases q with
  | globalQueue => rfl
  | localQueue j =>
    have hj : j≠i := fun he => hq (congrArg _ he)
    simp only [Pool.queued,Pool.setLocal,Pool.set_workers,if_neg hj]

@[simp] theorem queued_setLocal_self (p : Pool n η) (i : Fin n) (tasks : List η) :
    (p.setLocal i tasks).queued (.localQueue i)=tasks := by
  simp [Pool.queued,Pool.setLocal,Pool.set]

/-- A locked section that leaves the global queue alone. -/
theorem queued_global {g : GlobalQueue η} (hg : g.queue=p.global.queue) (q : Queue n) :
    ({p with global := g} : Pool n η).queued q=p.queued q := by
  cases q with
  | globalQueue => exact hg
  | localQueue j => rfl

theorem notifyOneIdle_queue (g : GlobalQueue η) : g.notifyOneIdle.1.queue=g.queue := by
  unfold GlobalQueue.notifyOneIdle
  split_ifs <;> rfl

theorem stop_queue (g : GlobalQueue η) : g.stop.1.queue=g.queue := by
  unfold GlobalQueue.stop
  split_ifs <;> rfl

theorem push_queue (g : GlobalQueue η) (task : η) : (g.push task).1.queue=g.queue++[task] := by
  unfold GlobalQueue.push
  split_ifs <;> rfl

theorem pushBatch_queue (g : GlobalQueue η) (tasks : List η) :
    (g.pushBatch tasks).1.queue=g.queue++tasks := by
  unfold GlobalQueue.pushBatch
  split_ifs <;> rfl

theorem queued_notifyOne {wake : Option (Fin n)} (h : p.notifyOne wake=some p') (q : Queue n) :
    p'.queued q=p.queued q := by
  unfold Pool.notifyOne at h
  split at h <;> split_ifs at h <;> cases h
  · exact setPc_queued p _ _ q
  · rfl

/-- What a call of `try_get_task` leaves in the worker's hands. -/
def found : Control (GetPc n η) (Option η) → List η
  | .running pc => pc.hand
  | .returned task => task.toList

theorem afterGet_hand (attempt : Attempt) (control : Control (GetPc n η) (Option η)) :
    (afterGet attempt control).hand=found control := by
  cases control with
  | running pc => rfl
  | returned task => cases attempt <;> cases task <;> rfl

/-- What a submission leaves in the thread's hands. -/
def unsubmitted : Control (EnqueuePc η) Unit → List η
  | .running pc => pc.hand
  | .returned _ => []

theorem afterSubmit_hand (control : Control (EnqueuePc η) Unit) :
    (afterSubmit control : WorkerPc n η).hand=unsubmitted control := by
  cases control <;> rfl

theorem notifies_unsubmitted (wakeCount : Nat) :
    unsubmitted (notifies wakeCount : Control (EnqueuePc η) Unit)=[] := by
  unfold notifies
  split_ifs <;> rfl

theorem tryPop_exchange (p : Pool n η) :
    Exchange p {p with global := p.global.tryPop.1} [] p.global.tryPop.2.toList := by
  refine .take .globalQueue rfl ?_ ?_
  · simp only [Pool.queued,GlobalQueue.tryPop]
    split
    · rename_i hq
      simp [hq]
    · rename_i hq
      simp [hq]
  · intro q hq
    cases q with
    | globalQueue => exact absurd rfl hq
    | localQueue j => rfl

theorem Exchange.locked {g : GlobalQueue η} {before after : List η}
    (hg : g.queue=p.global.queue) (hand : after=before) :
    Exchange p {p with global := g} before after :=
  .same (queued_global hg) hand

/-- The five ways to find a task, and the failures, which leave the hands empty. -/
theorem tryGetTask_exchange [NeZero n] {c : Choice n} {pc : GetPc n η}
    {control : Control (GetPc n η) (Option η)} (h : tryGetTask p i c pc=some (p',control)) :
    Exchange p p' pc.hand (found control) := by
  cases pc with
  | tick =>
    cases h
    refine .same ?_ ?_
    · intro q
      cases q with
      | globalQueue => rfl
      | localQueue j =>
        simp only [Pool.queued,Pool.set_workers]
        split_ifs with hj
        · rw [hj]
        · rfl
    · split_ifs <;> rfl
  | periodic | popGlobal =>
    have hx := tryPop_exchange p
    simp only [tryGetTask,Option.some.injEq,Prod.mk.injEq] at h
    obtain ⟨rfl,rfl⟩ := h
    cases ht : p.global.tryPop.2 with
    | none =>
      rw [ht] at hx
      exact hx
    | some task =>
      rw [ht] at hx
      exact hx
  | popLocal =>
    simp only [tryGetTask] at h
    split at h <;> cases h
    · rename_i task ht
      refine .take (.localQueue i) rfl ?_ fun q => queued_setLocal p i _
      have hl : (p.workers i).localQueue.dropLast++[task]=(p.workers i).localQueue :=
        List.dropLast_append_getLast? task ht
      rw [queued_setLocal_self]
      simp only [Pool.queued,found,Option.toList_some]
      rw [← hl,List.dropLast_concat]
      exact List.perm_append_comm
    · exact .same (fun _ => rfl) rfl
  | steal target k =>
    simp only [tryGetTask] at h
    split_ifs at h
    · cases h
      exact .same (fun _ => rfl) rfl
    · split at h <;> cases h
      · rename_i task rest _ _ hq
        refine .take (.localQueue target) rfl ?_ fun q => queued_setLocal p target _
        rw [queued_setLocal_self]
        simp only [Pool.queued,hq]
        exact .refl _
      · exact .same (fun _ => rfl) rfl
  | approxSize target task =>
    cases h
    refine .same (fun _ => rfl) ?_
    split_ifs <;> rfl
  | notifyIdle task =>
    cases h
    refine .locked (notifyOneIdle_queue _) ?_
    split_ifs <;> rfl
  | notify task =>
    simp only [tryGetTask,Option.map_eq_some_iff] at h
    obtain ⟨q,hq,he⟩ := h
    cases he
    exact .same (queued_notifyOne hq) rfl

/-- A submission goes to the own deque, or to the global queue if that is full. -/
theorem enqueue_exchange {capacity : Nat} {own wake : Option (Fin n)} {pc : EnqueuePc η}
    {control : Control (EnqueuePc η) Unit}
    (h : enqueue capacity own wake p pc=some (p',control)) :
    Exchange p p' pc.hand (unsubmitted control) := by
  have others (g : GlobalQueue η) (q : Queue n) (hq : q≠.globalQueue) :
      ({p with global := g} : Pool n η).queued q=p.queued q := by
    cases q with
    | globalQueue => exact absurd rfl hq
    | localQueue j => rfl
  cases pc with
  | pushLocal task =>
    simp only [enqueue] at h
    split at h
    · cases h
      exact .same (fun _ => rfl) rfl
    · rename_i i
      split_ifs at h <;> cases h
      · refine .put (.localQueue i) rfl ?_ fun q => queued_setLocal p i _
        rw [queued_setLocal_self]
        exact .refl _
      · exact .same (fun _ => rfl) rfl
  | approxSize =>
    simp only [enqueue] at h
    split at h <;> cases h
    refine .same (fun _ => rfl) ?_
    split_ifs <;> rfl
  | notifyIdle =>
    cases h
    exact .locked (notifyOneIdle_queue _) (notifies_unsubmitted _)
  | push task =>
    simp only [enqueue,Option.some.injEq,Prod.mk.injEq] at h
    obtain ⟨rfl,rfl⟩ := h
    refine .put .globalQueue (notifies_unsubmitted _) ?_ (others _)
    simp only [Pool.queued,push_queue]
    exact .refl _
  | pushBatch tasks =>
    simp only [enqueue] at h
    split_ifs at h with he
    · cases h
      exact .same (fun _ => rfl) (List.isEmpty_iff.mp he).symm
    · simp only [Option.some.injEq,Prod.mk.injEq] at h
      obtain ⟨rfl,rfl⟩ := h
      refine .put .globalQueue (notifies_unsubmitted _) ?_ (others _)
      simp only [Pool.queued,pushBatch_queue]
      exact .refl _
  | notify wakeCount =>
    simp only [enqueue,Option.map_eq_some_iff] at h
    obtain ⟨q,hq,he⟩ := h
    cases he
    exact .same (queued_notifyOne hq) (notifies_unsubmitted _)

variable {things : List η} {submitters : κ → Option (EnqueuePc η)} {resumed : Fin n → List η}

/-- Worker `i` moves to another program point after an exchange with the queues. -/
theorem placed_setPc {pc : WorkerPc n η} (h : Placed things (lies p submitters resumed))
    (hh : ∀ j,(p'.workers j).pc.hand=(p.workers j).pc.hand)
    (hx : Exchange p p' (p.workers i).pc.hand pc.hand) :
    Placed things (lies (p'.setPc i pc) submitters resumed) := by
  have hi : lies (p'.setPc i pc) submitters resumed (.worker i : Place n κ)=pc.hand := by
    simp [lies,setPc_hand]
  have hxi : Exchange p p' (lies p submitters resumed (.worker i : Place n κ))
      (lies (p'.setPc i pc) submitters resumed (.worker i : Place n κ)) := by
    rw [hi]
    exact hx
  refine Exchange.placed (w := .worker i) (by simp) h hxi (fun _ => rfl) ?_ ?_
  · intro q
    exact setPc_queued p' i pc q
  · intro x hxw hxq
    cases x with
    | queue q => exact absurd rfl (hxq q)
    | worker j =>
      have hj : j≠i := fun he => hxw (congrArg _ he)
      simp only [lies,setPc_hand,if_neg hj]
      exact hh j
    | submitter | resumed => rfl

/-- The worker resumes the task that it has in hand. -/
theorem placed_resume {task : η} (h : Placed things (lies p submitters resumed))
    (hpc : (p.workers i).pc=.done task) :
    Placed things (lies (p.setPc i .resume) submitters
      (Function.update resumed i (resumed i++[task]))) := by
  refine h.move (a := .worker i) (b := .resumed i) (by simp) [task] ?_ ?_ ?_
  · simp only [lies,setPc_hand,if_true,hpc]
    exact .refl _
  · simp only [lies,Function.update_self]
    exact .refl _
  · intro x hx hx'
    cases x with
    | queue q => exact setPc_queued p i _ q
    | worker j =>
      have hj : j≠i := fun he => hx (congrArg _ he)
      simp only [lies,setPc_hand,if_neg hj]
    | submitter k => rfl
    | resumed j =>
      have hj : j≠i := fun he => hx' (congrArg _ he)
      simp only [lies,Function.update_of_ne hj]

/-- A resumed task starts a submission. -/
theorem placed_call {pc : EnqueuePc η} (h : Placed things (lies p submitters resumed))
    (hpc : (p.workers i).pc=.resume) (hnd : pc.hand.Nodup) (hnew : ∀ x∈pc.hand,x∉things) :
    Placed (things++pc.hand) (lies (p.setPc i (.submit pc)) submitters resumed) := by
  refine h.add (b := .worker i) hnd hnew ?_ ?_
  · simp only [lies,setPc_hand,if_true,hpc]
    exact .refl _
  · intro x hx
    cases x with
    | queue q => exact setPc_queued p i _ q
    | worker j =>
      have hj : j≠i := fun he => hx (congrArg _ he)
      simp only [lies,setPc_hand,if_neg hj]
    | submitter | resumed => rfl

theorem placed_submit [DecidableEq κ] {k : κ} {pc : EnqueuePc η}
    (h : Placed things (lies p submitters resumed)) (hk : submitters k=none)
    (hnd : pc.hand.Nodup) (hnew : ∀ x∈pc.hand,x∉things) :
    Placed (things++pc.hand) (lies p (Function.update submitters k (some pc)) resumed) := by
  refine h.add (b := .submitter k) hnd hnew ?_ ?_
  · simp only [lies,Function.update_self,hk]
    exact .refl _
  · intro x hx
    cases x with
    | submitter j =>
      have hj : j≠k := fun he => hx (congrArg _ he)
      simp only [lies,Function.update_of_ne hj]
    | queue | worker | resumed => rfl

theorem placed_enqueue [DecidableEq κ] {capacity : Nat} {wake : Option (Fin n)} {k : κ}
    {pc : EnqueuePc η} {control : Control (EnqueuePc η) Unit}
    (h : Placed things (lies p submitters resumed)) (hk : submitters k=some pc)
    (hn : enqueue capacity none wake p pc=some (p',control)) :
    Placed things (lies p' (Function.update submitters k control.pc?) resumed) := by
  have hx : Exchange p p' (lies p submitters resumed (.submitter k))
      (lies p' (Function.update submitters k control.pc?) resumed (.submitter k)) := by
    have hx := enqueue_exchange hn
    simp only [lies,Function.update_self,hk,Option.elim_some]
    cases control <;> exact hx
  refine Exchange.placed (w := .submitter k) (by simp) h hx (fun _ => rfl) (fun _ => rfl) ?_
  intro x hxw hxq
  cases x with
  | queue q => exact absurd rfl (hxq q)
  | worker j => exact (enqueue_follows hn).hand j
  | submitter j =>
    have hj : j≠k := fun he => hxw (congrArg _ he)
    simp only [lies,Function.update_of_ne hj]
  | resumed => rfl

end Pools

section Runs

variable [NeZero n] {p p' : Pool n η} {i : Fin n} {things : List η}
  {submitters : κ → Option (EnqueuePc η)} {resumed : Fin n → List η}

theorem placed_work {capacity : Nat} {running : Bool} {c : Choice n}
    (h : Placed things (lies p submitters resumed)) (hf : c.finished=false)
    (hn : work capacity running p i c (p.workers i).pc=some p') :
    Placed things (lies p' submitters (resumedBy resumed i (p.workers i).pc)) := by
  -- a step that exchanges nothing with the queues
  have still {g : GlobalQueue η} {pc : WorkerPc n η} (hg : g.queue=p.global.queue)
      (hh : pc.hand=(p.workers i).pc.hand) :
      Placed things (lies ({p with global := g}.setPc i pc) submitters resumed) :=
    placed_setPc h (fun _ => rfl) (.locked hg hh)
  cases hpc : (p.workers i).pc with
  | loop =>
    rw [hpc] at hn
    cases hn
    cases running
    · exact still rfl (by rw [hpc]; rfl)
    · exact still rfl (by rw [hpc]; rfl)
  | get attempt pc =>
    rw [hpc] at hn
    simp only [work,Option.map_eq_some_iff] at hn
    obtain ⟨⟨q,control⟩,hq,he⟩ := hn
    cases he
    refine placed_setPc h (tryGetTask_follows hq).hand ?_
    rw [hpc,afterGet_hand]
    exact tryGetTask_exchange hq
  | preparePark =>
    rw [hpc] at hn
    cases hn
    exact still rfl (by rw [hpc]; rfl)
  | park e =>
    rw [hpc] at hn
    simp only [work] at hn
    split_ifs at hn <;> cases hn
    · exact still rfl (by rw [hpc]; rfl)
    · exact still rfl (by rw [hpc]; rfl)
  | cancelPark task =>
    rw [hpc] at hn
    cases hn
    exact still rfl (by rw [hpc]; rfl)
  | done task =>
    rw [hpc] at hn
    simp only [work,hf] at hn
    cases hn
    exact placed_resume h hpc
  | submit pc =>
    rw [hpc] at hn
    simp only [work,Option.map_eq_some_iff] at hn
    obtain ⟨⟨q,control⟩,hq,he⟩ := hn
    cases he
    refine placed_setPc h (enqueue_follows hq).hand ?_
    rw [hpc,afterSubmit_hand]
    exact enqueue_exchange hq
  | blocked e | resume | exited =>
    rw [hpc] at hn
    cases hn

omit [NeZero n] in
theorem placed_stop {s t : State n κ η} (h : Placed things (lies s.pool s.submitters resumed))
    (hn : stopStep s s.stopper=some t) : Placed things (lies t.pool t.submitters resumed) := by
  cases hs : s.stopper with
  | idle => simp [hs,stopStep] at hn
  | stop =>
    rw [hs] at hn
    cases hn
    apply h.congr
    intro x
    cases x with
    | queue q => exact queued_global (stop_queue _) q
    | worker | submitter | resumed => rfl
  | notifyAll =>
    rw [hs] at hn
    cases hn
    apply h.congr
    intro x
    cases x with
    | queue q => cases q <;> rfl
    | worker j => exact WorkerPc.unblock_hand _
    | submitter | resumed => rfl

end Runs

theorem hand_tag (pc : EnqueuePc η) (serial : Nat) :
    (pc.tag serial).hand=pc.hand.zipIdx serial := by
  cases pc <;> rfl

theorem nodup_zipIdx (l : List η) (k : Nat) : (l.zipIdx k).Nodup := by
  apply List.Nodup.of_map Prod.snd
  rw [List.zipIdx_map_snd]
  exact List.nodup_range'

theorem nodup_tag (pc : EnqueuePc η) (serial : Nat) : (pc.tag serial).hand.Nodup := by
  rw [hand_tag]
  exact nodup_zipIdx _ _

structure TrackedInv (r : Tracked n κ η) : Prop where
  placed : Placed r.submitted r.lies
  serials : ∀ x∈r.submitted,x.2 < r.serial
  nodup : r.submitted.Nodup

namespace TrackedInv

variable {r t : Tracked n κ η}

theorem fresh (h : TrackedInv r) {pc : EnqueuePc η} :
    ∀ x∈(pc.tag r.serial).hand,x∉r.submitted := by
  intro x hx hs
  rw [hand_tag] at hx
  have hge := (List.mem_zipIdx hx).1
  have hlt := h.serials x hs
  omega

/-- The record of a step: what it submits gets the next numbers. -/
theorem record (h : TrackedInv r) {a : Action n κ η} {s : State n κ (η×Nat)}
    (hp : Placed (r.submitted++a.handles.zipIdx r.serial)
      (lies s.pool s.submitters (r.resumes a))) :
    TrackedInv ⟨s,r.serial+a.handles.length,r.submitted++a.handles.zipIdx r.serial,
      r.resumes a⟩ where
  placed := hp
  serials x hx := by
    rcases List.mem_append.mp hx with hx | hx
    · exact (h.serials x hx).trans_le (Nat.le_add_right _ _)
    · exact (List.mem_zipIdx hx).2.1
  nodup := by
    refine h.nodup.append (nodup_zipIdx _ _) ?_
    intro x hx hz
    have hge := (List.mem_zipIdx hz).1
    have hlt := h.serials x hx
    omega

theorem next [NeZero n] [DecidableEq κ] {capacity : Nat} {a : Action n κ η} (h : TrackedInv r)
    (hn : Tracked.next capacity r a=some t) (hf : Tracked.unfinished r a t) : TrackedInv t := by
  obtain ⟨s,hs,rfl⟩ := Option.map_eq_some_iff.mp hn
  have hp := h.placed
  apply h.record
  cases a with
  | work i c =>
    obtain ⟨p,hw,rfl⟩ := Option.map_eq_some_iff.mp hs
    change c.finished=false at hf
    simp only [Action.handles,List.zipIdx_nil,List.append_nil,Tracked.resumes,hf,
      Bool.false_eq_true,if_false]
    exact placed_work hp hf hw
  | call i pc =>
    simp only [Action.tag,Scheduler.next] at hs
    split at hs <;> cases hs
    rename_i hpc _
    have hplaced := placed_call hp hpc (nodup_tag pc r.serial) h.fresh
    rw [hand_tag] at hplaced
    exact hplaced
  | suspend i =>
    simp only [Action.tag,Scheduler.next] at hs
    split at hs <;> cases hs
    rename_i hpc
    simp only [Action.handles,List.zipIdx_nil,List.append_nil]
    exact placed_setPc hp (fun _ => rfl) (.same (fun _ => rfl) (by rw [hpc]; rfl))
  | submit k pc =>
    simp only [Action.tag,Scheduler.next] at hs
    split at hs <;> cases hs
    rename_i hk _
    have hplaced := placed_submit hp hk (nodup_tag pc r.serial) h.fresh
    rw [hand_tag] at hplaced
    exact hplaced
  | enqueue k wake =>
    simp only [Action.tag,Scheduler.next] at hs
    split at hs
    · cases hs
    · rename_i pc hk
      obtain ⟨⟨p,control⟩,he,rfl⟩ := Option.map_eq_some_iff.mp hs
      simp only [Action.handles,List.zipIdx_nil,List.append_nil]
      exact placed_enqueue hp hk he
  | spurious i =>
    cases hs
    simp only [Action.handles,List.zipIdx_nil,List.append_nil]
    exact placed_setPc hp (fun _ => rfl)
      (.same (fun _ => rfl) (WorkerPc.unblock_hand _))
  | shutdown =>
    simp only [Action.tag,Scheduler.next] at hs
    split at hs <;> cases hs
    simp only [Action.handles,List.zipIdx_nil,List.append_nil]
    exact hp
  | stop =>
    simp only [Action.handles,List.zipIdx_nil,List.append_nil]
    exact placed_stop hp hs

end TrackedInv

theorem tracked_inv [NeZero n] [DecidableEq κ] {capacity : Nat} {r : Tracked n κ η}
    (h : (tracked n κ η capacity).ReachableBy Tracked.unfinished r) : TrackedInv r := by
  apply h.invariant
  · intro x hx
    obtain ⟨ticks,rfl⟩ := hx
    refine ⟨.nowhere ?_,by simp [Tracked.init],by simp [Tracked.init]⟩
    intro place
    cases place with
    | queue q => cases q <;> rfl
    | worker | submitter | resumed => rfl
  · intro x a y hx hn hf
    exact hx.next hn hf

/-- Every submission is in exactly one place, and there once: it waits in one queue, is in the
hands of one thread, or has been resumed once by one worker. -/
theorem handles_conserved [NeZero n] [DecidableEq κ] {capacity : Nat} {r : Tracked n κ η}
    (h : (tracked n κ η capacity).ReachableBy Tracked.unfinished r) :
    r.submitted.Nodup ∧ (∀ x∈r.submitted,∃! place,x∈r.lies place) ∧
      ∀ place,(r.lies place).Nodup ∧ ∀ x∈r.lies place,x∈r.submitted := by
  have hi := tracked_inv h
  refine ⟨hi.nodup,?_,?_⟩
  · intro x hx
    exact hi.placed.existsUnique hx
  · intro place
    exact ⟨hi.placed.nodup place,fun x hx => (hi.placed.mem x).mpr ⟨place,hx⟩⟩

/-- Handle 7 is submitted twice in one batch; worker 0 resumes the first submission, which
submits handle 8 to the worker's own deque. -/
theorem handles_conserved_batch :
    ∃ r : Tracked 2 Unit Nat,(tracked 2 Unit Nat 1).ReachableBy Tracked.unfinished r ∧
      r.submitted=[(7,0),(7,1),(8,2)] ∧ r.lies (.resumed 0)=[(7,0)] ∧
      r.lies (.queue .globalQueue)=[(7,1)] ∧ r.lies (.queue (.localQueue 0))=[(8,2)] ∧
      ∃! place,(8,2)∈r.lies place := by
  obtain ⟨r,hr,hp⟩ := (tracked 2 Unit Nat 1).exists_reachableBy Tracked.unfinished
    (List.flatten [[.submit () (.pushBatch [7,7]),.enqueue () none],
      List.replicate 5 (.work 0 ⟨0,false,false,none⟩),
      [.call 0 (.pushLocal 8),.work 0 ⟨0,false,false,none⟩,.work 0 ⟨0,false,false,none⟩,
        .suspend 0]])
    (fun r => decide (r.submitted=[(7,0),(7,1),(8,2)] ∧ r.lies (.resumed 0)=[(7,0)] ∧
      r.lies (.queue .globalQueue)=[(7,1)] ∧ r.lies (.queue (.localQueue 0))=[(8,2)]))
    ⟨fun _ => 0,rfl⟩ (by decide +kernel)
  obtain ⟨hs,h0,hg,hl⟩ := of_decide_eq_true hp
  exact ⟨r,hr,hs,h0,hg,hl,(handles_conserved hr).2.1 _ (by simp [hs])⟩

end Acnet.Scheduler
