import Acnet.Scheduler.Progress
import Mathlib.Data.Finset.Lattice.Fold

/-!
The worker threads return after `Shutdown`, so that the destructor can join them.
-/

namespace Acnet.Scheduler

variable {n : Nat} {κ η : Type} [NeZero n] [DecidableEq κ] {capacity : Nat}

section Stop

variable {s t : State n κ η} {a : Action n κ η}

/-- `Shutdown` has cleared `running_` and is in its call of `GlobalQueue::stop` or past it. -/
structure Halting (s : State n κ η) : Prop extends Sane s where
  running : s.running=false
  stopping : s.stopped=true ∨ s.stopper≠.idle

theorem next_stopping (h : s.running=false → s.stopped=true ∨ s.stopper≠.idle)
    (hn : next capacity s a=some t) (hr : t.running=false) :
    t.stopped=true ∨ t.stopper≠.idle := by
  cases next_turn hn with
  | shutdown | flag => exact Or.inr (by simp)
  | again | notifyAll => exact Or.inl rfl
  | work | call | suspend | submit | enqueue | spurious => exact h hr

theorem reachable_halting (h : (machine n κ η capacity).Reachable s) (hr : s.running=false) :
    Halting s := by
  have hstop : s.running=false → s.stopped=true ∨ s.stopper≠.idle := by
    apply h.invariant (I := fun s => s.running=false → s.stopped=true ∨ s.stopper≠.idle)
    · rintro x rfl hx
      cases hx
    · exact fun x a y hx hn _ => next_stopping hx hn
  exact ⟨reachable_sane h,hr,hstop hr⟩

theorem Halting.next (h : Halting s) (hn : Scheduler.next capacity s a=some t) : Halting t := by
  have hr : t.running=false := by
    rcases next_running hn with ⟨he,-⟩ | ⟨-,he⟩
    · exact he.trans h.running
    · exact he
  exact ⟨h.toSane.next hn,hr,next_stopping (fun _ => h.stopping) hn hr⟩

/-- The call of `GlobalQueue::stop` has returned. -/
structure Halted (s : State n κ η) : Prop extends Halting s where
  returned : s.stopped=true

theorem Halted.next (h : Halted s) (hn : Scheduler.next capacity s a=some t) : Halted t :=
  ⟨h.toHalting.next hn,next_stopped h.returned hn⟩

omit [NeZero n] [DecidableEq κ] in
theorem Halted.unblocked (h : Halted s) (i : Fin n) : (s.pool.workers i).pc.isBlocked=false :=
  h.toInv.stopped h.returned i

omit [NeZero n] [DecidableEq κ] in
theorem Halted.mayLeave (h : Halted s) (e : Nat) : s.pool.global.mayLeave e=true := by
  have hflag := h.stop.mpr (Or.inl h.returned)
  simp [GlobalQueue.mayLeave,hflag]

/-- Nothing but the end of its loop is ahead of a worker. -/
theorem Halted.worker (h : Halted s) (hn : Scheduler.next capacity s a=some t) (i : Fin n) :
    (t.pool.workers i).pc.rank < (s.pool.workers i).pc.rank ∨
      Stays i (fun s => (s.pool.workers i).pc.rank) a s t := by
  have hbusy {pc : WorkerPc n η} (hb : pc.busy=true) : pc.rank=2 := by
    cases pc <;> first | rfl | cases hb
  cases next_move hn i with
  | @work c p turn =>
    by_cases hb : (s.pool.workers i).pc.busy=true
    · obtain ⟨hb',-⟩ := turn.busy hb
      refine Or.inr ⟨?_,hb'.trans hb.symm,by simp,fun _ => hb⟩
      exact (hbusy hb').trans (hbusy hb).symm
    · exact Or.inl (turn.rank_lt (h.inRange i) (by simpa using hb) (fun _ => h.running)
        fun e _ => h.mayLeave e)
  | @call pc resume =>
    have hself := s.pool.setPc_self i (.submit pc)
    refine Or.inr ⟨?_,?_,by simp,by simp⟩
    · change ((s.pool.setPc i (.submit pc)).workers i).pc.rank=_
      rw [hself,resume]
      rfl
    · rw [hself,resume]
      rfl
  | suspend resume =>
    left
    rw [Pool.setPc_self,resume]
    exact Nat.lt_succ_self _
  | other work suspend spared =>
    have hpc := spared.awake (h.unblocked i)
    exact Or.inr ⟨congrArg _ hpc,by rw [hpc],suspend,fun ⟨c,hc⟩ => absurd hc (work c)⟩

theorem exited_stays {i : Fin n} (h : (s.pool.workers i).pc=.exited)
    (hn : next capacity s a=some t) : (t.pool.workers i).pc=.exited := by
  cases next_move hn i with
  | work turn =>
    rw [h] at turn
    cases turn
  | call resume => simp [h] at resume
  | suspend resume => simp [h] at resume
  | other work suspend spared => exact (spared.awake (by rw [h]; rfl)).trans h

end Stop

section Run

variable {ok : State n κ η → Action n κ η → State n κ η → Prop}
  {r : (machine n κ η capacity).Trace ok} {m : Nat}

theorem Halting.stops (stopper : r.Fair (·=.stop)) (h : Halting (r.state m)) :
    ∃ l ≥ m,Halted (r.state l) := by
  apply r.leadsTo (P := Halting) stopper
    (fun s => if s.stopper=.stop then 1 else 0) _ _ h
  · intro s hs hq
    have hidle : s.stopper≠.idle := hs.stopping.resolve_left fun hst => hq ⟨hs,hst⟩
    have hsome : ((machine n κ η capacity).next s .stop).isSome=true := by
      cases hp : s.stopper with
      | idle => exact absurd hp hidle
      | stop | notifyAll => simp [machine,Scheduler.next,stopStep,hp]
    exact .of_isSome hsome rfl
  · intro s a t hs hn _
    have ht := hs.next hn
    by_cases hst : s.stopped=true
    · exact Or.inl ⟨ht,next_stopped hst hn⟩
    · cases next_turn hn with
      | shutdown idle => exact absurd idle (hs.stopping.resolve_left hst)
      | flag pc => exact Or.inr ⟨ht,by simp,fun _ => by simp [pc]⟩
      | again | notifyAll => exact Or.inl ⟨ht,rfl⟩
      | work | call | suspend | submit | enqueue | spurious =>
        exact Or.inr ⟨ht,le_rfl,fun ha => by cases ha⟩

theorem Halted.exits (workers : ∀ i,r.Fair fun a => ∃ c,a=.work i c) (suspends : Suspends r)
    (h : Halted (r.state m)) (i : Fin n) :
    ∃ l ≥ m,((r.state l).pool.workers i).pc=.exited := by
  apply worker_progress (P := Halted) (Q := fun s => (s.pool.workers i).pc=.exited)
    (fun s => (s.pool.workers i).pc.rank) (workers i) suspends _ _ h
  · intro s hs he hb
    exact work_enabled hb (hs.unblocked i) he
  · exact fun s a t hs hn _ => Or.inr ⟨hs.next hn,hs.worker hn i⟩

/-- After `Shutdown` every worker thread returns, in every run in which the threads go on and every
resumed task suspends: none stays parked, and none finds ever more work. -/
theorem shutdown_returns (hs : (machine n κ η capacity).Reachable (r.state m))
    (hrun : (r.state m).running=false) (stopper : r.Fair (·=.stop))
    (workers : ∀ i,r.Fair fun a => ∃ c,a=.work i c) (suspends : Suspends r) :
    ∃ l ≥ m,∀ k ≥ l,∀ i,((r.state k).pool.workers i).pc=.exited := by
  obtain ⟨m',hm,hh⟩ := (reachable_halting hs hrun).stops stopper
  choose f hf hexited using hh.exits workers suspends
  refine ⟨max m' (Finset.univ.sup f),le_max_of_le_left hm,fun k hk i => ?_⟩
  apply r.invariant (P := fun s => (s.pool.workers i).pc=.exited) (hexited i)
    (fun s a t hs hn _ => exited_stays hs hn) k
  exact (Finset.le_sup (Finset.mem_univ i)).trans ((le_max_right _ _).trans hk)

end Run

section Runs

open Machine

/-- The only worker parks and is woken by `Shutdown`. -/
def halts : List (Action 1 Unit Nat) :=
  works 13++[.shutdown,.stop,.stop]++works 2

theorem halts_runs : ((machine 1 Unit Nat 2).exec anyStep init halts).isSome=true := by
  decide +kernel

theorem shutdown_returns_parked :
    ∃ r : (machine 1 Unit Nat 2).Trace anyStep,((r.state 14).pool.workers 0).pc.isBlocked=true ∧
      ∃ l ≥ 14,∀ k ≥ l,∀ i,((r.state k).pool.workers i).pc=.exited := by
  let r := Trace.ofList (machine 1 Unit Nat 2) anyStep init halts halts_runs
  have at_time (m : Nat) (p : State 1 Unit Nat → Bool)
      (h : ((machine 1 Unit Nat 2).exec anyStep init (halts.take m)).any p=true) :
      p (r.state m)=true := Trace.ofList_any halts_runs m p h
  have hend (m : Nat) (hm : m ≥ 18) : r.state m=r.state 18 := Trace.ofList_last halts_runs hm
  have hexited : ((r.state 18).pool.workers 0).pc=.exited := by
    have := at_time 18 (fun s => (s.pool.workers 0).pc=.exited) (by decide +kernel)
    simpa using this
  have hidle : (r.state 18).stopper=.idle := by
    have := at_time 18 (fun s => s.stopper=.idle) (by decide +kernel)
    simpa using this
  have hreach : (machine 1 Unit Nat 2).Reachable (r.state 14) :=
    ⟨init,rfl,steps_of_exec _ _ _ (Trace.ofList_exec halts_runs 14)⟩
  have hrun : (r.state 14).running=false := by
    have := at_time 14 (fun s => !s.running) (by decide +kernel)
    simpa using this
  have suspends : Suspends r := by
    intro m i hb
    exfalso
    obtain rfl : i=0 := Subsingleton.elim _ _
    have hnever : ∀ m < 19,((machine 1 Unit Nat 2).exec anyStep init (halts.take m)).any
        (fun s => !(s.pool.workers 0).pc.busy)=true := by
      decide +kernel
    rcases Nat.lt_or_ge m 19 with hlt | hge
    · have := at_time m _ (hnever m hlt)
      simp [hb] at this
    · rw [hend m (by omega),hexited] at hb
      cases hb
  refine ⟨r,at_time 14 (fun s => (s.pool.workers 0).pc.isBlocked) (by decide +kernel),?_⟩
  apply shutdown_returns hreach hrun _ _ suspends
  · refine r.fair_of_disabled ⟨18,fun m hm => ?_⟩
    rintro ⟨_,t,rfl,hn⟩
    rw [hend m hm] at hn
    simp [machine,next,stopStep,hidle] at hn
  · intro i
    obtain rfl : i=0 := Subsingleton.elim _ _
    exact r.fair_of_disabled ⟨18,fun m hm => hend m hm ▸ not_work (Or.inr hexited)⟩

end Runs

end Acnet.Scheduler
