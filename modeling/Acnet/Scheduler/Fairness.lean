import Acnet.Scheduler.Conservation
import Acnet.Scheduler.Progress

/-!
No task starves in the injection queue. A worker with local work looks there when its tick counter
reaches a multiple of 61 or comes round to zero.
-/

namespace Acnet.Scheduler

variable {n : Nat} {κ η : Type}

/-- How many more calls of `try_get_task` until one begins with the injection queue. -/
def ticksLeft (tick : Nat) : Nat := min (61-tick%2^32%61) (2^32-tick%2^32)

theorem ticksLeft_pos (tick : Nat) : 0 < ticksLeft tick := by
  unfold ticksLeft
  omega

theorem ticksLeft_next {tick : Nat} (h : (tick+1)%2^32%61≠0) :
    ticksLeft ((tick+1)%2^32) ≤ ticksLeft tick-1 := by
  have hcount : (tick+1)%2^32=tick%2^32+1 := by omega
  have hlt : tick%2^32+1 < 2^32 := hcount ▸ Nat.mod_lt _ (by decide)
  unfold ticksLeft
  rw [Nat.mod_mod,hcount]
  rw [hcount] at h
  generalize tick%2^32=u at *
  omega

namespace Worker

variable {w w' : Worker n η}

/-- The same, with the call that has begun counted off. -/
def ticks (w : Worker n η) : Nat :=
  match w.pc with
  | .get _ .tick => ticksLeft w.tick-1
  | .get _ .periodic => 0
  | _ => ticksLeft w.tick

/-- A bound on the steps until the worker takes a task from the injection queue. -/
def rank (w : Worker n η) : Nat := w.ticks*(2*n+22)+w.pc.rank

theorem ticks_le (w : Worker n η) : w.ticks ≤ ticksLeft w.tick := by
  unfold ticks
  split <;> omega

theorem ticks_eq (h : ∀ attempt,w.pc≠.get attempt .tick)
    (k : ∀ attempt,w.pc≠.get attempt .periodic) : w.ticks=ticksLeft w.tick := by
  unfold ticks
  split
  · rename_i hpc
    exact absurd hpc (h _)
  · rename_i hpc
    exact absurd hpc (k _)
  · rfl

theorem rank_lt (ht : w'.ticks ≤ w.ticks) (hp : w'.pc.rank < w.pc.rank) : w'.rank < w.rank := by
  have := Nat.mul_le_mul_right (2*n+22) ht
  unfold rank
  omega

theorem rank_lt_of_ticks (ht : w'.ticks < w.ticks) : w'.rank < w.rank := by
  have hmul := Nat.mul_le_mul_right (2*n+22) (Nat.succ_le_of_lt ht)
  have hrank := w'.pc.rank_le
  rw [Nat.succ_mul] at hmul
  unfold rank
  omega

theorem rank_congr (hp : w'.pc=w.pc) (ht : w'.tick=w.tick) : w'.rank=w.rank := by
  unfold rank ticks
  rw [hp,ht]

theorem rank_of_busy (h : w.pc.busy=true) : w.rank=ticksLeft w.tick*(2*n+22)+2 := by
  cases hpc : w.pc with
  | resume | submit => simp only [rank,ticks,hpc,WorkerPc.rank]
  | _ => simp [hpc,WorkerPc.busy] at h

end Worker

/-- While there is a task in the injection queue, each step of a worker brings it closer to taking
one. -/
theorem WorkTurn.approaches {capacity : Nat} {p p' : Pool n η} {i : Fin n} {pc : WorkerPc n η}
    (h : WorkTurn capacity true p i pc p') (hpc : (p.workers i).pc=pc) (hr : pc.inRange=true)
    (hb : pc.busy=false) (hpark : ∀ e,pc=.park e → p.global.mayLeave e=true)
    (hq : p.global.queue≠[]) :
    (∃ task,p.global.queue=task::p'.global.queue ∧ (p'.workers i).pc.holds task) ∨
      (p'.workers i).rank < (p.workers i).rank := by
  have hrank (hl : pc≠.loop) : (p'.workers i).pc.rank < (p.workers i).pc.rank := by
    rw [hpc]
    exact h.rank_lt hr hb (fun he => absurd he hl) hpark
  have plain (ht : (p'.workers i).tick=(p.workers i).tick) (hl : pc≠.loop)
      (hne : ∀ attempt,pc≠.get attempt .tick) (hper : ∀ attempt,pc≠.get attempt .periodic) :
      (p'.workers i).rank < (p.workers i).rank := by
    apply Worker.rank_lt _ (hrank hl)
    rw [Worker.ticks_eq (w := p.workers i) (by rwa [hpc]) (by rwa [hpc]),← ht]
    exact Worker.ticks_le _
  cases h with
  | loop =>
    right
    apply Worker.rank_lt_of_ticks
    rw [Worker.ticks_eq (w := p.workers i) (by simp [hpc]) (by simp [hpc]),Pool.setPc_self]
    exact Nat.sub_lt (ticksLeft_pos _) Nat.one_pos
  | @get attempt pc q control step =>
    have htick := step.tick_eq
    cases step with
    | pop look queue =>
      left
      refine ⟨_,queue,?_⟩
      rw [Pool.setPc_self]
      cases attempt with
      | first => exact Or.inl rfl
      | second e => exact Or.inr rfl
    | periodic queue => exact absurd queue hq
    | search target queue => exact absurd queue hq
    | tick count =>
      refine Or.inr (Worker.rank_lt ?_ (hrank (by simp)))
      have hself : (p.workers i).ticks=ticksLeft (p.workers i).tick-1 := by
        simp only [Worker.ticks,hpc]
      rw [hself,Pool.setPc_self]
      split_ifs with hzero
      · exact Nat.zero_le _
      · subst count
        change ticksLeft ((p.set i _).workers i).tick ≤ _
        rw [Pool.set_workers,if_pos rfl]
        exact ticksLeft_next hzero
    | popLocal | popGlobal | giveUp | steal | goOn | many | few | idle | noIdle | notify =>
      refine Or.inr (plain ?_ (by simp) (by simp) (by simp))
      exact (congrArg Worker.tick (Pool.setPc_self _ _ _)).trans (htick (by simp))
  | prepare =>
    refine Or.inr (Worker.rank_lt ?_ (hrank (by simp)))
    rw [Worker.ticks_eq (w := p.workers i) (by simp [hpc]) (by simp [hpc]),Pool.setPc_self]
    exact Worker.ticks_le _
  | leave | cancel | done =>
    exact Or.inr (plain (by rw [Pool.setPc_self]) (by simp) (by simp) (by simp))
  | @block e stay => exact absurd (stay.symm.trans (hpark e rfl)) (by decide)
  | submit => cases hb

section System

variable [NeZero n] [DecidableEq κ] {capacity : Nat} {s t : State n κ η} {a : Action n κ η}
  {x : η} {k : Nat} {i : Fin n}

/-- The task has `k` others before it in the injection queue. -/
structure Waiting (x : η) (k : Nat) (s : State n κ η) : Prop extends Sane s where
  running : s.running=true
  queued : s.pool.global.queue[k]?=some x

/-- One of those has gone, or a worker has the task. -/
def Closer (x : η) : Nat → State n κ η → Prop
  | 0,s => ∃ j,(s.pool.workers j).pc.holds x
  | k+1,s => Waiting x k s

namespace Waiting

theorem next_of_queued (h : Waiting x k s) (hn : Scheduler.next capacity s a=some t)
    (ok : a≠.shutdown) {l : Nat} (hq : t.pool.global.queue[l]?=some x) : Waiting x l t := by
  refine ⟨h.toSane.next hn,?_,hq⟩
  rcases next_running hn with ⟨hr,-⟩ | ⟨ha,-⟩
  · exact hr.trans h.running
  · exact absurd ha ok

theorem popped (h : Waiting x k s) (hn : Scheduler.next capacity s a=some t) (ok : a≠.shutdown)
    {task : η} (hq : s.pool.global.queue=task::t.pool.global.queue)
    (hi : (t.pool.workers i).pc.holds task) : Closer x k t := by
  have hx := h.queued
  rw [hq] at hx
  cases k with
  | zero =>
    obtain rfl : task=x := by simpa using hx
    exact ⟨i,hi⟩
  | succ k => exact h.next_of_queued hn ok (by simpa using hx)

theorem next (h : Waiting x k s) (hn : Scheduler.next capacity s a=some t) (ok : a≠.shutdown) :
    Closer x k t ∨ Waiting x k t := by
  rcases next_queue hn with ⟨tasks,he⟩ | ⟨task,j,hq,hj⟩
  · have hlt := (List.getElem?_eq_some_iff.mp h.queued).1
    refine Or.inr (h.next_of_queued hn ok ?_)
    rw [he,List.getElem?_append_left hlt]
    exact h.queued
  · exact Or.inl (h.popped hn ok hq hj)

omit [NeZero n] [DecidableEq κ] in
/-- A worker does not block while the task waits. -/
theorem mayLeave (h : Waiting x k s) (e : Nat) (he : (s.pool.workers i).pc=.park e) :
    s.pool.global.mayLeave e=true := by
  by_contra hl
  have hnil := (h.pool.queue_empty he (by simpa using hl)).1
  have hx := h.queued
  simp [hnil] at hx

/-- A step of the system brings a worker that is awake closer to the injection queue or does not
concern it, and it does if it is one of the worker outside a task or ends a task. -/
theorem worker (h : Waiting x k s) (ha : (s.pool.workers i).pc.isBlocked=false)
    (hn : Scheduler.next capacity s a=some t) (ok : a≠.shutdown) :
    Closer x k t ∨ Waiting x k t ∧ (t.pool.workers i).pc.isBlocked=false ∧
      ((t.pool.workers i).rank < (s.pool.workers i).rank ∨
        Stays i (fun s => (s.pool.workers i).rank) a s t) := by
  rcases h.next hn ok with hc | hw
  · exact Or.inl hc
  cases next_move hn i with
  | @work c p turn =>
    by_cases hb : (s.pool.workers i).pc.busy=true
    · obtain ⟨hb',htick⟩ := turn.busy hb
      refine Or.inr ⟨hw,turn.awake h.mayLeave,Or.inr ⟨?_,hb'.trans hb.symm,by simp,fun _ => hb⟩⟩
      change (p.workers i).rank=_
      rw [Worker.rank_of_busy hb,Worker.rank_of_busy hb',htick]
    · have hturn := h.running ▸ turn
      rcases hturn.approaches rfl (h.inRange i) (by simpa using hb) h.mayLeave
        (List.ne_nil_of_mem (List.mem_of_getElem? h.queued)) with ⟨task,hq,hi⟩ | hlt
      · exact Or.inl (h.popped hn ok hq hi)
      · exact Or.inr ⟨hw,turn.awake h.mayLeave,Or.inl hlt⟩
  | @call pc resume =>
    have hb : (s.pool.workers i).pc.busy=true := by rw [resume]; rfl
    have hself := s.pool.setPc_self i (.submit pc)
    refine Or.inr ⟨hw,by rw [hself]; rfl,Or.inr ⟨?_,by rw [hself,hb]; rfl,by simp,by simp⟩⟩
    rw [Worker.rank_of_busy hb,hself]
    exact Worker.rank_of_busy rfl
  | suspend resume =>
    have hb : (s.pool.workers i).pc.busy=true := by rw [resume]; rfl
    have hself := s.pool.setPc_self i .loop
    refine Or.inr ⟨hw,by rw [hself]; rfl,Or.inl ?_⟩
    rw [Worker.rank_of_busy hb,hself]
    exact Nat.lt_succ_self _
  | other work suspend spared =>
    have hpc := spared.awake ha
    refine Or.inr ⟨hw,hpc ▸ ha,Or.inr ⟨?_,by rw [hpc],suspend,fun ⟨c,hc⟩ => absurd hc (work c)⟩⟩
    exact Worker.rank_congr hpc spared.tick

/-- If every worker is blocked while the task waits, a submission is about to notify one. -/
theorem notified {wake : Option (Fin n)} {j : κ} (hj : owesNotify (s.submitters j)=true)
    (hn : Scheduler.next capacity s (.enqueue j wake)=some t) :
    ∃ i,(t.pool.workers i).pc.isBlocked=false := by
  cases hpc : s.submitters j with
  | none => simp [hpc,owesNotify] at hj
  | some pc =>
    cases pc with
    | notify wakeCount =>
      simp only [Scheduler.next,hpc,enqueue,Option.map_map,Option.map_eq_some_iff] at hn
      obtain ⟨p,hp,rfl⟩ := hn
      exact Pool.notifyOne_awake hp
    | _ => simp [hpc,owesNotify] at hj

end Waiting

end System

def Action.isShutdown : Action n κ η → Bool
  | .shutdown => true
  | _ => false

def NoShutdown (_ : State n κ η) (a : Action n κ η) (_ : State n κ η) : Prop :=
  a.isShutdown=false

instance (s t : State n κ η) (a : Action n κ η) : Decidable (NoShutdown s a t) :=
  inferInstanceAs (Decidable (_=_))

theorem NoShutdown.ne {s t : State n κ η} {a : Action n κ η} (h : NoShutdown s a t) :
    a≠.shutdown := by
  rintro rfl
  cases h

section Run

variable [NeZero n] [DecidableEq κ] {capacity : Nat}

variable {r : (machine n κ η capacity).Trace NoShutdown} {x : η} {k m : Nat} {i : Fin n}

/-- The task waits and the worker is awake. -/
def Served (x : η) (k : Nat) (i : Fin n) (s : State n κ η) : Prop :=
  Waiting x k s ∧ (s.pool.workers i).pc.isBlocked=false

/-- A worker that is awake takes a task from the injection queue. -/
theorem Served.advances (workers : ∀ i,r.Fair fun a => ∃ c,a=.work i c) (suspends : Suspends r)
    (h : Served x k i (r.state m)) : ∃ l ≥ m,Closer x k (r.state l) := by
  apply worker_progress (P := Served x k i) (fun s => (s.pool.workers i).rank) (workers i)
    suspends _ _ h
  · intro s hs _ hb
    exact work_enabled hb hs.2 (hs.1.alive hs.1.running i)
  · intro s a t hs hn ok
    rcases hs.1.worker hs.2 hn ok.ne with hc | ⟨hw,ha,hrank⟩
    · exact Or.inl hc
    · exact Or.inr ⟨⟨hw,ha⟩,hrank⟩

/-- A worker is awake, or a submission wakes one. -/
theorem Waiting.served (submitters : ∀ j,r.Fair fun a => ∃ wake,a=.enqueue j wake)
    (h : Waiting x k (r.state m)) :
    ∃ l ≥ m,Closer x k (r.state l) ∨ ∃ i,Served x k i (r.state l) := by
  rcases h.awake (List.ne_nil_of_mem (List.mem_of_getElem? h.queued)) with ⟨i,hi⟩ | ⟨j,hj⟩
  · exact ⟨m,le_rfl,Or.inr ⟨i,h,hi⟩⟩
  · apply r.leadsTo (P := fun s => Waiting x k s ∧ owesNotify (s.submitters j)=true)
      (Q := fun s => Closer x k s ∨ ∃ i,Served x k i s) (submitters j) (fun _ => 0) _ _ ⟨h,hj⟩
    · intro s ⟨_,hj⟩ _
      cases hpc : s.submitters j with
      | none => simp [hpc,owesNotify] at hj
      | some pc =>
        apply enqueue_enabled hpc
        rintro rfl
        simp [hpc,owesNotify] at hj
    · intro s a t ⟨hw,hj⟩ hn ok
      rcases hw.next hn ok.ne with hc | hw'
      · exact Or.inl (Or.inl hc)
      by_cases ha : ∃ wake,a=.enqueue j wake
      · obtain ⟨wake,rfl⟩ := ha
        obtain ⟨i,hi⟩ := Waiting.notified hj hn
        exact Or.inl (Or.inr ⟨i,hw',hi⟩)
      · cases hpc : s.submitters j with
        | none => simp [hpc,owesNotify] at hj
        | some pc =>
          have hsame := next_submitter hn (fun wake he => ha ⟨wake,he⟩) hpc
          exact Or.inr ⟨⟨hw',by rw [hsame,← hpc]; exact hj⟩,le_rfl,fun hk => absurd hk ha⟩

/-- A worker that has the task is about to resume it. -/
theorem done_of_holds (workers : ∀ i,r.Fair fun a => ∃ c,a=.work i c)
    (h : ((r.state m).pool.workers i).pc.holds x) :
    ∃ l ≥ m,∃ i,((r.state l).pool.workers i).pc=.done x := by
  rcases h with hd | hc
  · exact ⟨m,le_rfl,i,hd⟩
  · apply r.leadsTo (P := fun s => (s.pool.workers i).pc=.cancelPark x)
      (Q := fun s => ∃ i,(s.pool.workers i).pc=.done x) (workers i) (fun _ => 0) _ _ hc
    · intro s hs _
      exact work_enabled (by rw [hs]; rfl) (by rw [hs]; rfl) (by simp [hs])
    · intro s a t hs hn _
      cases next_move hn i with
      | @work c p turn =>
        rw [hs] at turn
        cases turn with
        | cancel => exact Or.inl ⟨i,by rw [Pool.setPc_self]⟩
      | call resume => simp [hs] at resume
      | suspend resume => simp [hs] at resume
      | other work suspend spared =>
        refine Or.inr ⟨(spared.awake (by rw [hs]; rfl)).trans hs,le_rfl,fun ⟨c,hk⟩ => ?_⟩
        exact absurd hk (work c)

theorem Waiting.closer (workers : ∀ i,r.Fair fun a => ∃ c,a=.work i c)
    (submitters : ∀ j,r.Fair fun a => ∃ wake,a=.enqueue j wake) (suspends : Suspends r)
    (h : Waiting x k (r.state m)) : ∃ l ≥ m,Closer x k (r.state l) := by
  obtain ⟨l,hl,hc | ⟨i,hs⟩⟩ := h.served submitters
  · exact ⟨l,hl,hc⟩
  · obtain ⟨l',hl',hc⟩ := hs.advances workers suspends
    exact ⟨l',hl.trans hl',hc⟩

theorem Waiting.resumed (workers : ∀ i,r.Fair fun a => ∃ c,a=.work i c)
    (submitters : ∀ j,r.Fair fun a => ∃ wake,a=.enqueue j wake) (suspends : Suspends r)
    (h : Waiting x k (r.state m)) : ∃ l ≥ m,∃ i,((r.state l).pool.workers i).pc=.done x := by
  obtain ⟨l,hl,hc⟩ := h.closer workers submitters suspends
  -- on the number of tasks before it
  induction k generalizing m l with
  | zero =>
    obtain ⟨i,hi⟩ := hc
    obtain ⟨l',hl',hd⟩ := done_of_holds workers hi
    exact ⟨l',hl.trans hl',hd⟩
  | succ k ih =>
    have hw : Waiting x k (r.state l) := hc
    obtain ⟨l',hl',hc'⟩ := hw.closer workers submitters suspends
    obtain ⟨l'',hl'',hd⟩ := ih hw l' hl' hc'
    exact ⟨l'',hl.trans hl'',hd⟩

/-- The task is in the injection queue, or a thread that is not a worker is about to put it
there. -/
def Injected (x : η) (s : State n κ η) : Prop :=
  x∈s.pool.global.queue ∨ ∃ j pc,s.submitters j=some pc ∧ x∈pc.hand

/-- How many steps a submission is from the locked section. -/
def submitRank (j : κ) (s : State n κ η) : Nat :=
  match s.submitters j with
  | some (.pushLocal _) => 1
  | _ => 0

theorem enqueue_step {s t : State n κ η} {j : κ} {wake : Option (Fin n)} {pc : EnqueuePc η}
    (hj : s.submitters j=some pc) (hx : x∈pc.hand)
    (hn : next capacity s (.enqueue j wake)=some t) :
    x∈t.pool.global.queue ∨
      (∃ pc,t.submitters j=some pc ∧ x∈pc.hand) ∧ submitRank j t < submitRank j s := by
  simp only [next,hj,Option.map_eq_some_iff] at hn
  obtain ⟨⟨p,control⟩,hp,rfl⟩ := hn
  cases pc with
  | pushLocal task =>
    cases hp
    refine Or.inr ⟨⟨.push task,by simp [Control.pc?],hx⟩,?_⟩
    simp [submitRank,hj,Control.pc?]
  | push task =>
    cases hp
    left
    change x∈(s.pool.global.push task).1.queue
    obtain rfl : x=task := by simpa [EnqueuePc.hand] using hx
    unfold GlobalQueue.push
    split_ifs <;> simp
  | pushBatch tasks =>
    have hx : x∈tasks := hx
    simp only [enqueue] at hp
    split_ifs at hp with he
    · simp [List.isEmpty_iff.mp he] at hx
    · cases hp
      left
      change x∈(s.pool.global.pushBatch tasks).1.queue
      unfold GlobalQueue.pushBatch
      split_ifs <;> simp [hx]
  | approxSize | notifyIdle | notify => simp [EnqueuePc.hand] at hx

theorem Injected.queued (submitters : ∀ j,r.Fair fun a => ∃ wake,a=.enqueue j wake)
    (h : Injected x (r.state m)) : ∃ l ≥ m,x∈(r.state l).pool.global.queue := by
  rcases h with hq | ⟨j,hj⟩
  · exact ⟨m,le_rfl,hq⟩
  · apply r.leadsTo (P := fun s => ∃ pc,s.submitters j=some pc ∧ x∈pc.hand)
      (Q := fun s => x∈s.pool.global.queue) (submitters j) (submitRank j) _ _ hj
    · intro s ⟨pc,hpc,hx⟩ _
      apply enqueue_enabled hpc
      rintro rfl
      simp [EnqueuePc.hand] at hx
    · intro s a t ⟨pc,hpc,hx⟩ hn ok
      by_cases ha : ∃ wake,a=.enqueue j wake
      · obtain ⟨wake,rfl⟩ := ha
        rcases enqueue_step hpc hx hn with hq | ⟨hP,hlt⟩
        · exact Or.inl hq
        · exact Or.inr ⟨hP,hlt.le,fun _ => hlt⟩
      · have hsame := next_submitter hn (fun wake he => ha ⟨wake,he⟩) hpc
        refine Or.inr ⟨⟨pc,hsame,hx⟩,?_,fun hk => absurd hk ha⟩
        rw [submitRank,submitRank,hpc,hsame]

/-- No task that is handed to `EnqueueBatch`, or to `Enqueue` by a thread that is not a worker,
starves: in every run without shutdown in which the threads go on and every resumed task suspends,
a worker gets to resume it. -/
theorem injected_task_resumed (hs : (machine n κ η capacity).Reachable (r.state 0))
    (hrun : (r.state 0).running=true) (workers : ∀ i,r.Fair fun a => ∃ c,a=.work i c)
    (submitters : ∀ j,r.Fair fun a => ∃ wake,a=.enqueue j wake) (suspends : Suspends r)
    (h : Injected x (r.state m)) : ∃ l ≥ m,∃ i,((r.state l).pool.workers i).pc=.done x := by
  have hsane : ∀ l ≥ 0,Sane (r.state l) ∧ (r.state l).running=true := by
    apply r.invariant (P := fun s => Sane s ∧ s.running=true) ⟨reachable_sane hs,hrun⟩
    intro s a t ⟨hs,hr⟩ hn ok
    rcases next_running hn with ⟨he,-⟩ | ⟨ha,-⟩
    · exact ⟨hs.next hn,he.trans hr⟩
    · exact absurd ha ok.ne
  obtain ⟨l,hl,hx⟩ := h.queued submitters
  obtain ⟨k,hk⟩ := List.mem_iff_getElem?.mp hx
  obtain ⟨hsl,hrl⟩ := hsane l (Nat.zero_le l)
  have hw : Waiting x k (r.state l) := ⟨hsl,hrl,hk⟩
  obtain ⟨l',hl',hd⟩ := hw.resumed workers submitters suspends
  exact ⟨l',hl.trans hl',hd⟩

end Run

section Runs

open Machine

/-- The only worker parks, is woken for a task, runs it, and parks again. -/
def wakesOnce : List (Action 1 Unit Nat) :=
  works 13++[.submit () (.pushLocal 7),.enqueue () none,.enqueue () none,
    .enqueue () (some only)]++works 6++[.suspend only]++works 13

theorem wakesOnce_runs : ((machine 1 Unit Nat 2).exec NoShutdown init wakesOnce).isSome=true := by
  decide +kernel

theorem not_enqueue {n capacity : Nat} {κ η : Type} [NeZero n] [DecidableEq κ]
    {s : State n κ η} {j : κ} (h : s.submitters j=none) :
    ¬(machine n κ η capacity).Enabled (fun a => ∃ wake,a=.enqueue j wake) s := by
  rintro ⟨_,t,⟨wake,rfl⟩,hn⟩
  simp [machine,next,h] at hn

theorem injected_task_resumed_parked :
    ∃ r : (machine 1 Unit Nat 2).Trace NoShutdown,
      ((r.state 13).pool.workers 0).pc.isBlocked=true ∧ Injected 7 (r.state 14) ∧
      ∃ l ≥ 14,∃ i,((r.state l).pool.workers i).pc=.done 7 := by
  let r := Trace.ofList (machine 1 Unit Nat 2) NoShutdown init wakesOnce wakesOnce_runs
  have at_time (m : Nat) (p : State 1 Unit Nat → Bool)
      (h : ((machine 1 Unit Nat 2).exec NoShutdown init (wakesOnce.take m)).any p=true) :
      p (r.state m)=true := Trace.ofList_any wakesOnce_runs m p h
  have hend (m : Nat) (hm : m ≥ 37) : r.state m=r.state 37 := Trace.ofList_last wakesOnce_runs hm
  have hblocked : ((r.state 37).pool.workers 0).pc.isBlocked=true :=
    at_time 37 (fun s => (s.pool.workers 0).pc.isBlocked) (by decide +kernel)
  have hidle : ((r.state 37).submitters ())=none := by
    have := at_time 37 (fun s => (s.submitters ()).isNone) (by decide +kernel)
    exact Option.isNone_iff_eq_none.mp this
  have suspends : Suspends r := by
    intro m i hb
    obtain rfl : i=0 := Subsingleton.elim _ _
    by_cases hm : m ≤ 23
    · exact ⟨23,hm,rfl⟩
    · exfalso
      have hlate : ∀ m < 38,23 < m → ((machine 1 Unit Nat 2).exec NoShutdown init
          (wakesOnce.take m)).any (fun s => !(s.pool.workers 0).pc.busy)=true := by
        decide +kernel
      rcases Nat.lt_or_ge m 38 with hlt | hge
      · have := at_time m _ (hlate m hlt (by omega))
        simp [hb] at this
      · rw [hend m (by omega)] at hb
        have := at_time 37 _ (hlate 37 (by decide) (by decide))
        simp [hb] at this
  have hinjected : Injected 7 (r.state 14) := by
    have := at_time 14 (fun s => s.submitters ()=some (.pushLocal 7)) (by decide +kernel)
    exact Or.inr ⟨(),.pushLocal 7,by simpa using this,by simp [EnqueuePc.hand]⟩
  refine ⟨r,at_time 13 (fun s => (s.pool.workers 0).pc.isBlocked) (by decide +kernel),hinjected,?_⟩
  apply injected_task_resumed ⟨init,rfl,.refl⟩ rfl _ _ suspends hinjected
  · intro i
    obtain rfl : i=0 := Subsingleton.elim _ _
    exact r.fair_of_disabled ⟨37,fun m hm => hend m hm ▸ not_work (Or.inl hblocked)⟩
  · intro j
    exact r.fair_of_disabled ⟨37,fun m hm => hend m hm ▸ not_enqueue hidle⟩

end Runs

end Acnet.Scheduler
