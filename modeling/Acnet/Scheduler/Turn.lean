import Acnet.Scheduler.Parking
import Mathlib.Order.Lattice

/-!
Everything that a step of the scheduler can do, seen from one worker.
-/

namespace Acnet.Scheduler

variable {n : Nat} {κ η : Type}

/-- A bound on the steps that a call of `try_get_task` still takes. -/
def GetPc.rank : GetPc n η → Nat
  | .tick => n+7
  | .periodic => n+6
  | .popLocal => n+5
  | .popGlobal => n+4
  | .steal _ k => n-k+3
  | .approxSize _ _ => 2
  | .notifyIdle _ => 1
  | .notify _ => 0

namespace WorkerPc

/-- A bound on the steps that a worker still takes in an iteration of its loop. -/
def rank : WorkerPc n η → Nat
  | .exited => 0
  | .loop => 1
  | .resume | .submit _ => 2
  | .done _ | .park _ | .blocked _ => 3
  | .cancelPark _ => 4
  | .get (.second _) pc => pc.rank+5
  | .preparePark => n+13
  | .get .first pc => pc.rank+n+14

/-- The worker is inside a task. -/
def busy : WorkerPc n η → Bool
  | .resume | .submit _ => true
  | _ => false

/-- A round of steals goes over each worker once. -/
def inRange : WorkerPc n η → Bool
  | .get _ (.steal _ k) => k ≤ n
  | _ => true

/-- The worker has this task in hand and is about to resume it. -/
def holds (task : η) (pc : WorkerPc n η) : Prop := pc=.done task ∨ pc=.cancelPark task

theorem rank_le (pc : WorkerPc n η) : pc.rank ≤ 2*n+21 := by
  cases pc with
  | get attempt pc => cases attempt <;> cases pc <;> simp only [rank,GetPc.rank] <;> omega
  | preparePark =>
    simp only [rank]
    omega
  | _ => simp [rank]

theorem unblock_of_awake {pc : WorkerPc n η} (h : pc.isBlocked=false) : pc.unblock=pc := by
  cases pc <;> first | rfl | cases h

@[simp] theorem unblock_inRange (pc : WorkerPc n η) : pc.unblock.inRange=pc.inRange := by
  cases pc <;> rfl

theorem unblock_exited {pc : WorkerPc n η} (h : pc.unblock=.exited) : pc=.exited := by
  cases pc <;> first | exact h | cases h

end WorkerPc

/-- What a step of another thread leaves of a worker: it may be notified or stolen from. -/
structure Worker.Spared (w w' : Worker n η) : Prop where
  tick : w'.tick=w.tick
  pc : w'.pc=w.pc ∨ w'.pc=w.pc.unblock

theorem Worker.Spared.refl (w : Worker n η) : w.Spared w := ⟨rfl,Or.inl rfl⟩

theorem Worker.Spared.awake {w w' : Worker n η} (h : w.Spared w') (ha : w.pc.isBlocked=false) :
    w'.pc=w.pc := by
  rcases h.pc with he | he
  · exact he
  · exact he.trans (WorkerPc.unblock_of_awake ha)

namespace Pool

variable {p : Pool n η}

theorem spared_set {i : Fin n} {w : Worker n η} (hw : (p.workers i).Spared w) (j : Fin n) :
    (p.workers j).Spared ((p.set i w).workers j) := by
  rw [set_workers]
  split_ifs with hj
  · exact hj ▸ hw
  · exact .refl _

theorem spared_setLocal (i : Fin n) (tasks : List η) (j : Fin n) :
    (p.workers j).Spared ((p.setLocal i tasks).workers j) :=
  spared_set (w := {p.workers i with localQueue := tasks}) ⟨rfl,Or.inl rfl⟩ j

theorem spared_unblock (i j : Fin n) : (p.workers j).Spared ((p.unblock i).workers j) :=
  spared_set (w := {p.workers i with pc := (p.workers i).pc.unblock}) ⟨rfl,Or.inr rfl⟩ j

theorem spared_other {i j : Fin n} (hj : j≠i) (w : Worker n η) :
    (p.workers j).Spared ((p.set i w).workers j) := by
  rw [set_workers,if_neg hj]
  exact .refl _

theorem spared_notifyOne {wake : Option (Fin n)} {p' : Pool n η} (h : p.notifyOne wake=some p')
    (j : Fin n) : (p.workers j).Spared (p'.workers j) := by
  unfold notifyOne at h
  split at h <;> split_ifs at h <;> cases h
  · exact spared_unblock _ j
  · exact .refl _

/-- A `notify_one` never waits: it unblocks some waiter, or there is none. -/
theorem exists_notifyOne (p : Pool n η) : ∃ wake,(p.notifyOne wake).isSome=true := by
  by_cases h : ∃ j,(p.workers j).pc.isBlocked=true
  · obtain ⟨j,hj⟩ := h
    exact ⟨some j,by simp [notifyOne,hj]⟩
  · have hnone : ∀ j,(p.workers j).pc.isBlocked=false := by simpa using h
    exact ⟨none,by simp [notifyOne,hnone]⟩

end Pool

theorem enqueue_spares {capacity : Nat} {own wake : Option (Fin n)} {p p' : Pool n η}
    {pc : EnqueuePc η} {control : Control (EnqueuePc η) Unit}
    (h : enqueue capacity own wake p pc=some (p',control)) (j : Fin n) :
    (p.workers j).Spared (p'.workers j) := by
  cases pc with
  | pushLocal task =>
    simp only [enqueue] at h
    split at h
    · cases h
      exact .refl _
    · split_ifs at h <;> cases h
      · exact Pool.spared_setLocal _ _ j
      · exact .refl _
  | approxSize =>
    simp only [enqueue] at h
    split at h <;> cases h
    exact .refl _
  | notifyIdle | push =>
    cases h
    exact .refl _
  | pushBatch tasks =>
    simp only [enqueue] at h
    split_ifs at h <;> cases h <;> exact .refl _
  | notify wakeCount =>
    simp only [enqueue,Option.map_eq_some_iff] at h
    obtain ⟨q,hq,he⟩ := h
    cases he
    exact Pool.spared_notifyOne hq j

/-- Everything that a step of `try_get_task` can do. -/
inductive GetStep (p : Pool n η) (i : Fin n) :
    GetPc n η → Pool n η → Control (GetPc n η) (Option η) → Prop
  | tick {tick : Nat} (count : tick=((p.workers i).tick+1)%2^32) :
      GetStep p i .tick (p.set i {p.workers i with tick := tick})
        (.running (if tick%61=0 then .periodic else .popLocal))
  | pop {pc : GetPc n η} {task : η} {rest : List η} (look : pc=.periodic ∨ pc=.popGlobal)
      (queue : p.global.queue=task::rest) :
      GetStep p i pc {p with global := {p.global with queue := rest}} (.returned (some task))
  | periodic (queue : p.global.queue=[]) : GetStep p i .periodic p (.running .popLocal)
  | popLocal {task : η} (last : (p.workers i).localQueue.getLast?=some task) :
      GetStep p i .popLocal (p.setLocal i (p.workers i).localQueue.dropLast)
        (.returned (some task))
  | popGlobal : GetStep p i .popLocal p (.running .popGlobal)
  | search (target : Fin n) (queue : p.global.queue=[]) :
      GetStep p i .popGlobal p (.running (.steal target 0))
  | giveUp (target : Fin n) : GetStep p i (.steal target n) p (.returned none)
  | steal {target : Fin n} {k : Nat} {task : η} {rest : List η} (more : k≠n)
      (queue : (p.workers target).localQueue=task::rest) :
      GetStep p i (.steal target k) (p.setLocal target rest) (.running (.approxSize target task))
  | goOn {target other : Fin n} {k : Nat} (more : k≠n) :
      GetStep p i (.steal target k) p (.running (.steal other (k+1)))
  | many (target : Fin n) (task : η) :
      GetStep p i (.approxSize target task) p (.running (.notifyIdle task))
  | few (target : Fin n) (task : η) :
      GetStep p i (.approxSize target task) p (.returned (some task))
  | idle (task : η) :
      GetStep p i (.notifyIdle task) {p with global := p.global.notifyOneIdle.1}
        (.running (.notify task))
  | noIdle (task : η) :
      GetStep p i (.notifyIdle task) {p with global := p.global.notifyOneIdle.1}
        (.returned (some task))
  | notify {q : Pool n η} {wake : Option (Fin n)} (task : η) (woken : p.notifyOne wake=some q) :
      GetStep p i (.notify task) q (.returned (some task))

theorem tryGetTask_cases [NeZero n] {p p' : Pool n η} {i : Fin n} {c : Choice n}
    {pc : GetPc n η} {control : Control (GetPc n η) (Option η)}
    (h : tryGetTask p i c pc=some (p',control)) : GetStep p i pc p' control := by
  cases pc with
  | tick =>
    cases h
    exact .tick rfl
  | periodic =>
    cases hq : p.global.queue <;> simp only [tryGetTask,GlobalQueue.tryPop,hq] at h <;> cases h
    · exact .periodic hq
    · exact .pop (Or.inl rfl) hq
  | popLocal =>
    simp only [tryGetTask] at h
    split at h <;> cases h
    · rename_i hl
      exact .popLocal hl
    · exact .popGlobal
  | popGlobal =>
    cases hq : p.global.queue <;> simp only [tryGetTask,GlobalQueue.tryPop,hq] at h <;> cases h
    · exact .search c.target hq
    · exact .pop (Or.inr rfl) hq
  | steal target k =>
    simp only [tryGetTask] at h
    split_ifs at h with hk
    · cases h
      rw [hk]
      exact .giveUp target
    · split at h <;> cases h
      · rename_i hq
        exact .steal hk hq
      · exact .goOn hk
  | approxSize target task =>
    cases h
    split_ifs
    · exact .many target task
    · exact .few target task
  | notifyIdle task =>
    simp only [tryGetTask,Option.some.injEq,Prod.mk.injEq] at h
    obtain ⟨rfl,rfl⟩ := h
    split_ifs
    · exact .idle task
    · exact .noIdle task
  | notify task =>
    simp only [tryGetTask,Option.map_eq_some_iff] at h
    obtain ⟨q,hq,he⟩ := h
    cases he
    exact .notify task hq

namespace GetStep

variable {p p' : Pool n η} {i : Fin n} {pc : GetPc n η}
  {control : Control (GetPc n η) (Option η)}

theorem spares (h : GetStep p i pc p' control) {j : Fin n} (hj : j≠i) :
    (p.workers j).Spared (p'.workers j) := by
  cases h with
  | tick | popLocal => exact Pool.spared_other hj _
  | steal => exact Pool.spared_setLocal _ _ j
  | notify task woken => exact Pool.spared_notifyOne woken j
  | pop | periodic | popGlobal | search | giveUp | goOn | many | few | idle | noIdle =>
    exact .refl _

/-- The counter moves in the first step of a call only. -/
theorem tick_eq (h : GetStep p i pc p' control) (hpc : pc≠.tick) :
    (p'.workers i).tick=(p.workers i).tick := by
  cases h with
  | tick => exact absurd rfl hpc
  | popLocal | steal => exact (Pool.spared_setLocal _ _ i).tick
  | notify task woken => exact (Pool.spared_notifyOne woken i).tick
  | pop | periodic | popGlobal | search | giveUp | goOn | many | few | idle | noIdle => rfl

/-- Tasks leave the injection queue from the front, into the hands of the worker. -/
theorem queue (h : GetStep p i pc p' control) : p'.global.queue=p.global.queue ∨
    ∃ task,p.global.queue=task::p'.global.queue ∧ control=.returned (some task) := by
  cases h with
  | pop look queue => exact Or.inr ⟨_,queue,rfl⟩
  | notify task woken =>
    left
    unfold Pool.notifyOne at woken
    split at woken <;> split_ifs at woken <;> cases woken <;> rfl
  | idle | noIdle =>
    left
    change p.global.notifyOneIdle.1.queue=p.global.queue
    unfold GlobalQueue.notifyOneIdle
    split_ifs <;> rfl
  | tick | popLocal | steal | periodic | popGlobal | search | giveUp | goOn | many | few =>
    exact Or.inl rfl

/-- Each step brings the call closer to its end. -/
theorem rank_lt (h : GetStep p i pc p' control) (attempt : Attempt)
    (hr : (WorkerPc.get attempt pc).inRange=true) :
    (afterGet attempt control).rank < (WorkerPc.get attempt pc).rank ∧
      (afterGet attempt control).inRange=true := by
  have ret (task : Option η) :
      (afterGet attempt (.returned task) : WorkerPc n η).rank < (WorkerPc.get attempt pc).rank ∧
        (afterGet attempt (.returned task) : WorkerPc n η).inRange=true := by
    cases attempt <;> cases task <;>
      simp only [afterGet,WorkerPc.rank,WorkerPc.inRange,and_true] <;> omega
  have run {pc' : GetPc n η} (hlt : pc'.rank < pc.rank)
      (hr' : (WorkerPc.get attempt pc').inRange=true) :
      (afterGet attempt (.running pc')).rank < (WorkerPc.get attempt pc).rank ∧
        (afterGet attempt (.running pc')).inRange=true := by
    refine ⟨?_,hr'⟩
    cases attempt <;> simp only [afterGet,WorkerPc.rank] <;> omega
  cases h with
  | tick =>
    split_ifs
    · exact run (Nat.lt_succ_self _) rfl
    · exact run (by simp only [GetPc.rank]; omega) rfl
  | periodic | popGlobal | many | idle => exact run (Nat.lt_succ_self _) rfl
  | search target => exact run (by simp only [GetPc.rank]; omega) (by simp [WorkerPc.inRange])
  | steal => exact run (by simp only [GetPc.rank]; omega) rfl
  | @goOn target other k more =>
    have hk : k ≤ n := by simpa [WorkerPc.inRange] using hr
    refine run ?_ ?_
    · simp only [GetPc.rank]
      omega
    · simp only [WorkerPc.inRange,decide_eq_true_eq]
      omega
  | pop | popLocal | giveUp | few | noIdle | notify => exact ret _

end GetStep

theorem enqueue_queue {capacity : Nat} {own wake : Option (Fin n)} {p p' : Pool n η}
    {pc : EnqueuePc η} {control : Control (EnqueuePc η) Unit}
    (h : enqueue capacity own wake p pc=some (p',control)) :
    ∃ tasks,p'.global.queue=p.global.queue++tasks := by
  have same (he : p'.global.queue=p.global.queue) : ∃ tasks,p'.global.queue=p.global.queue++tasks :=
    ⟨[],by rw [he,List.append_nil]⟩
  cases pc with
  | pushLocal task =>
    simp only [enqueue] at h
    split at h
    · cases h
      exact same rfl
    · split_ifs at h <;> cases h <;> exact same rfl
  | approxSize =>
    simp only [enqueue] at h
    split at h <;> cases h
    exact same rfl
  | notifyIdle =>
    cases h
    apply same
    change p.global.notifyOneIdle.1.queue=p.global.queue
    unfold GlobalQueue.notifyOneIdle
    split_ifs <;> rfl
  | push task =>
    cases h
    refine ⟨[task],?_⟩
    change (p.global.push task).1.queue=p.global.queue++[task]
    unfold GlobalQueue.push
    split_ifs <;> rfl
  | pushBatch tasks =>
    simp only [enqueue] at h
    split_ifs at h <;> cases h
    · exact same rfl
    · refine ⟨tasks,?_⟩
      change (p.global.pushBatch tasks).1.queue=p.global.queue++tasks
      unfold GlobalQueue.pushBatch
      split_ifs <;> rfl
  | notify wakeCount =>
    simp only [enqueue,Option.map_eq_some_iff] at h
    obtain ⟨q,hq,he⟩ := h
    cases he
    apply same
    unfold Pool.notifyOne at hq
    split at hq <;> split_ifs at hq <;> cases hq <;> rfl

/-- Everything that a step of `scheduler_thread` can do. -/
inductive WorkTurn (capacity : Nat) (running : Bool) (p : Pool n η) (i : Fin n) :
    WorkerPc n η → Pool n η → Prop
  | loop : WorkTurn capacity running p i .loop
      (p.setPc i (if running then .get .first .tick else .exited))
  | get {attempt : Attempt} {pc : GetPc n η} {q : Pool n η}
      {control : Control (GetPc n η) (Option η)} (step : GetStep p i pc q control) :
      WorkTurn capacity running p i (.get attempt pc) (q.setPc i (afterGet attempt control))
  | prepare : WorkTurn capacity running p i .preparePark
      ({p with global := p.global.preparePark.1}.setPc i
        (.get (.second p.global.wakeEpoch) .tick))
  | leave {e : Nat} (may : p.global.mayLeave e=true) : WorkTurn capacity running p i (.park e)
      ({p with global := p.global.cancelPark}.setPc i .loop)
  | block {e : Nat} (stay : p.global.mayLeave e=false) :
      WorkTurn capacity running p i (.park e) (p.setPc i (.blocked e))
  | cancel (task : η) : WorkTurn capacity running p i (.cancelPark task)
      ({p with global := p.global.cancelPark}.setPc i (.done task))
  | done (task : η) {pc : WorkerPc n η} (after : pc=.loop ∨ pc=.resume) :
      WorkTurn capacity running p i (.done task) (p.setPc i pc)
  | submit {pc : EnqueuePc η} {q : Pool n η} {control : Control (EnqueuePc η) Unit}
      {wake : Option (Fin n)} (step : enqueue capacity (some i) wake p pc=some (q,control)) :
      WorkTurn capacity running p i (.submit pc) (q.setPc i (afterSubmit control))

theorem work_turn [NeZero n] {capacity : Nat} {running : Bool} {p p' : Pool n η} {i : Fin n}
    {c : Choice n} {pc : WorkerPc n η} (h : work capacity running p i c pc=some p') :
    WorkTurn capacity running p i pc p' := by
  cases pc with
  | loop =>
    cases h
    exact .loop
  | get attempt pc =>
    simp only [work,Option.map_eq_some_iff] at h
    obtain ⟨⟨q,control⟩,hq,he⟩ := h
    cases he
    exact .get (tryGetTask_cases hq)
  | preparePark =>
    cases h
    exact .prepare
  | park e =>
    simp only [work] at h
    split_ifs at h with hl
    · cases h
      exact .leave hl
    · cases h
      exact .block (by simpa using hl)
  | cancelPark task =>
    cases h
    exact .cancel task
  | done task =>
    cases h
    apply WorkTurn.done
    split_ifs
    · exact Or.inl rfl
    · exact Or.inr rfl
  | submit pc =>
    simp only [work,Option.map_eq_some_iff] at h
    obtain ⟨⟨q,control⟩,hq,he⟩ := h
    cases he
    exact .submit hq
  | blocked | resume | exited => cases h

theorem Pool.setPc_self (p : Pool n η) (i : Fin n) (pc : WorkerPc n η) :
    (p.setPc i pc).workers i={p.workers i with pc := pc} := by
  simp [setPc,set]

namespace WorkTurn

variable {capacity : Nat} {running : Bool} {p p' : Pool n η} {i : Fin n} {pc : WorkerPc n η}

theorem spares (h : WorkTurn capacity running p i pc p') {j : Fin n} (hj : j≠i) :
    (p.workers j).Spared (p'.workers j) := by
  cases h with
  | loop | prepare | leave | block | cancel | done => exact Pool.spared_other hj _
  | get step =>
    have hs := step.spares hj
    rw [Pool.setPc,Pool.set_workers,if_neg hj]
    exact hs
  | submit step =>
    have hs := enqueue_spares step j
    rw [Pool.setPc,Pool.set_workers,if_neg hj]
    exact hs

/-- The injection queue gets tasks at the back, or the worker takes the first one. -/
theorem queue (h : WorkTurn capacity running p i pc p') :
    (∃ tasks,p'.global.queue=p.global.queue++tasks) ∨
      ∃ task,p.global.queue=task::p'.global.queue ∧ (p'.workers i).pc.holds task := by
  have same (he : p'.global.queue=p.global.queue) : ∃ tasks,p'.global.queue=p.global.queue++tasks :=
    ⟨[],by rw [he,List.append_nil]⟩
  cases h with
  | loop | prepare | leave | block | cancel | done => exact Or.inl (same rfl)
  | @get attempt pc q control step =>
    rcases step.queue with he | ⟨task,hq,rfl⟩
    · exact Or.inl (same he)
    · refine Or.inr ⟨task,hq,?_⟩
      rw [Pool.setPc_self]
      cases attempt with
      | first => exact Or.inl rfl
      | second e => exact Or.inr rfl
  | submit step =>
    obtain ⟨tasks,he⟩ := enqueue_queue step
    exact Or.inl ⟨tasks,he⟩

/-- A step outside a task brings the worker closer to the end of the iteration, unless it starts
the next one or blocks. -/
theorem rank_lt (h : WorkTurn capacity running p i pc p') (hr : pc.inRange=true)
    (hb : pc.busy=false) (hloop : pc=.loop → running=false)
    (hpark : ∀ e,pc=.park e → p.global.mayLeave e=true) :
    (p'.workers i).pc.rank < pc.rank := by
  cases h with
  | loop =>
    rw [hloop rfl,Pool.setPc_self]
    exact Nat.lt_succ_self _
  | @get attempt pc q control step =>
    rw [Pool.setPc_self]
    exact (step.rank_lt attempt hr).1
  | prepare =>
    rw [Pool.setPc_self]
    simp only [WorkerPc.rank,GetPc.rank]
    omega
  | leave | cancel =>
    rw [Pool.setPc_self]
    simp [WorkerPc.rank]
  | @block e stay => exact absurd (stay.symm.trans (hpark e rfl)) (by decide)
  | done task after =>
    rw [Pool.setPc_self]
    rcases after with rfl | rfl <;> simp [WorkerPc.rank]
  | submit => cases hb

theorem awake (h : WorkTurn capacity running p i pc p')
    (hpark : ∀ e,pc=.park e → p.global.mayLeave e=true) :
    (p'.workers i).pc.isBlocked=false := by
  cases h with
  | loop =>
    rw [Pool.setPc_self]
    cases running <;> rfl
  | @get attempt pc q control step =>
    rw [Pool.setPc_self]
    cases attempt <;> cases control with
    | running => rfl
    | returned task => cases task <;> rfl
  | prepare | leave | cancel =>
    rw [Pool.setPc_self]
    rfl
  | @block e stay => exact absurd (stay.symm.trans (hpark e rfl)) (by decide)
  | done task after =>
    rw [Pool.setPc_self]
    rcases after with rfl | rfl <;> rfl
  | @submit pc q control =>
    rw [Pool.setPc_self]
    cases control <;> rfl

/-- A round of steals goes over each worker once. -/
theorem inRange (h : WorkTurn capacity running p i pc p') (hr : pc.inRange=true) :
    (p'.workers i).pc.inRange=true := by
  cases h with
  | loop =>
    rw [Pool.setPc_self]
    cases running <;> rfl
  | get step =>
    rw [Pool.setPc_self]
    exact (step.rank_lt _ hr).2
  | prepare | leave | block | cancel =>
    rw [Pool.setPc_self]
    rfl
  | done task after =>
    rw [Pool.setPc_self]
    rcases after with rfl | rfl <;> rfl
  | @submit pc q control =>
    rw [Pool.setPc_self]
    cases control <;> rfl

/-- A task that submits is still running afterwards. -/
theorem busy (h : WorkTurn capacity running p i pc p') (hb : pc.busy=true) :
    (p'.workers i).pc.busy=true ∧ (p'.workers i).tick=(p.workers i).tick := by
  cases h with
  | @submit pc q control wake step =>
    have htick := (enqueue_spares step i).tick
    rw [Pool.setPc_self]
    cases control <;> exact ⟨rfl,htick⟩
  | loop | get | prepare | leave | block | cancel | done => cases hb

/-- The thread returns from its loop only. -/
theorem exited (h : WorkTurn capacity running p i pc p') (he : (p'.workers i).pc=.exited) :
    running=false := by
  cases h with
  | loop =>
    rw [Pool.setPc_self] at he
    cases running with
    | false => rfl
    | true => cases he
  | @get attempt pc q control step =>
    rw [Pool.setPc_self] at he
    cases attempt <;> cases control with
    | running => cases he
    | returned task => cases task <;> cases he
  | prepare | leave | block | cancel =>
    rw [Pool.setPc_self] at he
    cases he
  | done task after =>
    rw [Pool.setPc_self] at he
    rcases after with rfl | rfl <;> cases he
  | @submit pc q control =>
    rw [Pool.setPc_self] at he
    cases control <;> cases he

end WorkTurn

section System

variable [NeZero n] [DecidableEq κ] {capacity : Nat} {s t : State n κ η} {a : Action n κ η}

/-- Everything that a step of the system can do. -/
inductive Turn (capacity : Nat) (s : State n κ η) : Action n κ η → State n κ η → Prop
  | work {i : Fin n} {c : Choice n} {p : Pool n η}
      (turn : WorkTurn capacity s.running s.pool i (s.pool.workers i).pc p) :
      Turn capacity s (.work i c) {s with pool := p}
  | call {i : Fin n} {pc : EnqueuePc η} (resume : (s.pool.workers i).pc=.resume) :
      Turn capacity s (.call i pc) {s with pool := s.pool.setPc i (.submit pc)}
  | suspend {i : Fin n} (resume : (s.pool.workers i).pc=.resume) :
      Turn capacity s (.suspend i) {s with pool := s.pool.setPc i .loop}
  | submit {k : κ} {pc : EnqueuePc η} (free : s.submitters k=none) :
      Turn capacity s (.submit k pc)
        {s with submitters := Function.update s.submitters k (some pc)}
  | enqueue {k : κ} {wake : Option (Fin n)} {pc : EnqueuePc η} {p : Pool n η}
      {control : Control (EnqueuePc η) Unit} (running : s.submitters k=some pc)
      (step : Scheduler.enqueue capacity none wake s.pool pc=some (p,control)) :
      Turn capacity s (.enqueue k wake)
        {s with pool := p, submitters := Function.update s.submitters k control.pc?}
  | spurious (i : Fin n) : Turn capacity s (.spurious i) {s with pool := s.pool.unblock i}
  | shutdown (idle : s.stopper=.idle) :
      Turn capacity s .shutdown {s with running := false, stopper := .stop}
  | flag (pc : s.stopper=.stop) (first : s.pool.global.stop.2=true) :
      Turn capacity s .stop
        {s with pool := {s.pool with global := s.pool.global.stop.1}, stopper := .notifyAll}
  | again (pc : s.stopper=.stop) (first : s.pool.global.stop.2=false) :
      Turn capacity s .stop
        {s with
          pool := {s.pool with global := s.pool.global.stop.1}
          stopper := .idle
          stopped := true}
  | notifyAll (pc : s.stopper=.notifyAll) :
      Turn capacity s .stop {s with pool := s.pool.notifyAll, stopper := .idle, stopped := true}

theorem next_turn (hn : next capacity s a=some t) : Turn capacity s a t := by
  cases a with
  | work i c =>
    simp only [next,Option.map_eq_some_iff] at hn
    obtain ⟨p,hp,rfl⟩ := hn
    exact .work (work_turn hp)
  | call i pc =>
    simp only [next] at hn
    split at hn <;> cases hn
    rename_i hpc _
    exact .call hpc
  | suspend i =>
    simp only [next] at hn
    split at hn <;> cases hn
    rename_i hpc
    exact .suspend hpc
  | submit k pc =>
    simp only [next] at hn
    split at hn <;> cases hn
    rename_i hk _
    exact .submit hk
  | enqueue k wake =>
    simp only [next] at hn
    split at hn
    · cases hn
    · rename_i pc hk
      simp only [Option.map_eq_some_iff] at hn
      obtain ⟨⟨p,control⟩,hp,rfl⟩ := hn
      exact .enqueue hk hp
  | spurious i =>
    cases hn
    exact .spurious i
  | shutdown =>
    simp only [next] at hn
    split at hn <;> cases hn
    rename_i hidle
    exact .shutdown hidle
  | stop =>
    cases hp : s.stopper with
    | idle => simp [next,stopStep,hp] at hn
    | stop =>
      cases hf : s.pool.global.stop.2 with
      | true =>
        simp only [next,stopStep,hp,hf] at hn
        cases hn
        simpa using Turn.flag hp hf
      | false =>
        simp only [next,stopStep,hp,hf] at hn
        cases hn
        simpa using Turn.again hp hf
    | notifyAll =>
      simp only [next,stopStep,hp] at hn
      cases hn
      exact .notifyAll hp

/-- What a step of the system is for one worker. -/
inductive Move (capacity : Nat) (s : State n κ η) (i : Fin n) :
    Action n κ η → State n κ η → Prop
  | work {c : Choice n} {p : Pool n η}
      (turn : WorkTurn capacity s.running s.pool i (s.pool.workers i).pc p) :
      Move capacity s i (.work i c) {s with pool := p}
  | call {pc : EnqueuePc η} (resume : (s.pool.workers i).pc=.resume) :
      Move capacity s i (.call i pc) {s with pool := s.pool.setPc i (.submit pc)}
  | suspend (resume : (s.pool.workers i).pc=.resume) :
      Move capacity s i (.suspend i) {s with pool := s.pool.setPc i .loop}
  | other {a : Action n κ η} {t : State n κ η} (work : ∀ c,a≠.work i c) (suspend : a≠.suspend i)
      (spared : (s.pool.workers i).Spared (t.pool.workers i)) : Move capacity s i a t

theorem next_move (hn : next capacity s a=some t) (i : Fin n) : Move capacity s i a t := by
  cases next_turn hn with
  | @work j c p turn =>
    by_cases hj : i=j
    · subst hj
      exact .work turn
    · exact .other (by simp [Ne.symm hj]) (by simp) (turn.spares hj)
  | @call j pc resume =>
    by_cases hj : i=j
    · subst hj
      exact .call resume
    · exact .other (by simp) (by simp) (Pool.spared_other hj _)
  | @suspend j resume =>
    by_cases hj : i=j
    · subst hj
      exact .suspend resume
    · exact .other (by simp) (by simp [Ne.symm hj]) (Pool.spared_other hj _)
  | enqueue pc step => exact .other (by simp) (by simp) (enqueue_spares step i)
  | spurious j => exact .other (by simp) (by simp) (Pool.spared_unblock j i)
  | notifyAll => exact .other (by simp) (by simp) ⟨rfl,Or.inr rfl⟩
  | submit | shutdown | flag | again => exact .other (by simp) (by simp) (.refl _)

/-- Tasks come into the injection queue at the back and leave it from the front, into the hands
of a worker. -/
theorem next_queue (hn : next capacity s a=some t) :
    (∃ tasks,t.pool.global.queue=s.pool.global.queue++tasks) ∨
      ∃ task j,s.pool.global.queue=task::t.pool.global.queue ∧
        (t.pool.workers j).pc.holds task := by
  have same (he : t.pool.global.queue=s.pool.global.queue) :
      ∃ tasks,t.pool.global.queue=s.pool.global.queue++tasks := ⟨[],by rw [he,List.append_nil]⟩
  have stop : s.pool.global.stop.1.queue=s.pool.global.queue := by
    unfold GlobalQueue.stop
    split_ifs <;> rfl
  cases next_turn hn with
  | @work j c p turn =>
    rcases turn.queue with hq | ⟨task,hq⟩
    · exact Or.inl hq
    · exact Or.inr ⟨task,j,hq⟩
  | enqueue pc step => exact Or.inl (enqueue_queue step)
  | flag | again => exact Or.inl (same stop)
  | call | suspend | submit | spurious | shutdown | notifyAll => exact Or.inl (same rfl)

/-- `running_` is cleared by `Shutdown` and never set again. -/
theorem next_running (hn : next capacity s a=some t) :
    t.running=s.running ∧ a≠.shutdown ∨ a=.shutdown ∧ t.running=false := by
  cases next_turn hn with
  | shutdown => exact Or.inr ⟨rfl,rfl⟩
  | work | call | suspend | submit | enqueue | spurious | flag | again | notifyAll =>
    exact Or.inl ⟨rfl,by simp⟩

/-- A submission goes on by its own steps only. -/
theorem next_submitter {k : κ} {pc : EnqueuePc η} (hn : next capacity s a=some t)
    (ha : ∀ wake,a≠.enqueue k wake) (hk : s.submitters k=some pc) : t.submitters k=some pc := by
  cases next_turn hn with
  | @submit l _ free =>
    have hne : k≠l := by
      rintro rfl
      simp [hk] at free
    simpa [hne] using hk
  | @enqueue l wake =>
    have hne : k≠l := by
      rintro rfl
      exact ha wake rfl
    simpa [hne] using hk
  | work | call | suspend | spurious | shutdown | flag | again | notifyAll => exact hk

end System

end Acnet.Scheduler
