import Acnet.Framework.Threads
import Acnet.Scheduler.Scheduler

namespace Acnet.Scheduler

variable {n : Nat} {κ η : Type}

namespace WorkerPc

/-- The worker is between `prepare_park` and the decrement in `park` or `cancel_park`. -/
def parking : WorkerPc n η → Bool
  | .get (.second _) _ | .park _ | .blocked _ | .cancelPark _ => true
  | _ => false

def observed : WorkerPc n η → Option Nat
  | .get (.second e) _ | .park e | .blocked e => some e
  | _ => none

/-- The second `try_get_task` has found the local queue empty. -/
def drained : WorkerPc n η → Bool
  | .get (.second _) .popGlobal | .get (.second _) (.steal _ _) | .park _ | .blocked _ => true
  | _ => false

/-- The second `try_get_task` has found the global queue empty. -/
def checked : WorkerPc n η → Bool
  | .get (.second _) (.steal _ _) | .park _ | .blocked _ => true
  | _ => false

section Unblock

variable (pc : WorkerPc n η)

@[simp] theorem unblock_parking : pc.unblock.parking=pc.parking := by cases pc <;> rfl

@[simp] theorem unblock_observed : pc.unblock.observed=pc.observed := by cases pc <;> rfl

@[simp] theorem unblock_drained : pc.unblock.drained=pc.drained := by cases pc <;> rfl

@[simp] theorem unblock_checked : pc.unblock.checked=pc.checked := by cases pc <;> rfl

@[simp] theorem unblock_isBlocked : pc.unblock.isBlocked=false := by cases pc <;> rfl

end Unblock

theorem parking_of_checked {pc : WorkerPc n η} (h : pc.checked=true) : pc.parking=true := by
  unfold checked at h
  split at h <;> first | rfl | cases h

theorem parking_of_blocked {pc : WorkerPc n η} (h : pc.isBlocked=true) : pc.parking=true := by
  cases pc <;> first | rfl | cases h

theorem drained_of_blocked {pc : WorkerPc n η} (h : pc.isBlocked=true) : pc.drained=true := by
  cases pc <;> first | rfl | cases h

end WorkerPc

/-- What a worker on its way into `park` knows about the queues. -/
structure WorkerOk (g : GlobalQueue η) (w : Worker n η) : Prop where
  past : ∀ e,w.pc.observed=some e → e ≤ g.wakeEpoch
  drained : w.pc.drained=true → w.localQueue=[]
  checked : w.pc.checked=true → w.pc.observed=some g.wakeEpoch → g.queue=[]

theorem WorkerOk.of_not_parking {g : GlobalQueue η} {w : Worker n η}
    (ho : w.pc.observed=none) (hd : w.pc.drained=false) : WorkerOk g w where
  past e he := by simp [ho] at he
  drained h := by simp [hd] at h
  checked _ he := by simp [ho] at he

theorem WorkerOk.searching {g : GlobalQueue η} {w : Worker n η} {e : Nat}
    (he : e ≤ g.wakeEpoch) (ho : w.pc.observed=some e) (hd : w.pc.drained=false)
    (hc : w.pc.checked=false) : WorkerOk g w where
  past x hx := by
    have hx : some e=some x := ho ▸ hx
    cases hx
    exact he
  drained h := by simp [hd] at h
  checked h := by simp [hc] at h

/-- A locked section of another thread keeps what a worker knows: a task that comes in while
the worker counts as idle moves the epoch on. -/
theorem WorkerOk.mono {g g' : GlobalQueue η} {w : Worker n η} (h : WorkerOk g w)
    (hg : g.Evolves g') (hi : w.pc.parking=true → 0<g.idleThreads) : WorkerOk g' w where
  past e he := (h.past e he).trans hg.epoch
  drained := h.drained
  checked hc he := by
    have hle := h.past _ he
    have hge := hg.epoch
    have heq : g'.wakeEpoch=g.wakeEpoch := by omega
    rw [heq] at he
    exact hg.quiet heq (hi (WorkerPc.parking_of_checked hc)) (h.checked hc he)

/-- What a step of another thread may do to a worker: notify it or steal from it. -/
structure Worker.Follows (w w' : Worker n η) : Prop where
  pc : w'.pc=w.pc ∨ w'.pc=w.pc.unblock
  drained : w.localQueue=[] → w'.localQueue=[]

namespace Worker.Follows

variable {w w' : Worker n η}

theorem parking (h : w.Follows w') : w'.pc.parking=w.pc.parking := by
  rcases h.pc with h | h <;> simp [h]

theorem ok {g : GlobalQueue η} (h : w.Follows w') (hw : WorkerOk g w) : WorkerOk g w' := by
  have ho : w'.pc.observed=w.pc.observed := by rcases h.pc with h | h <;> simp [h]
  have hd : w'.pc.drained=w.pc.drained := by rcases h.pc with h | h <;> simp [h]
  have hc : w'.pc.checked=w.pc.checked := by rcases h.pc with h | h <;> simp [h]
  exact {
    past := fun e he => hw.past e (ho ▸ he)
    drained := fun he => h.drained (hw.drained (hd ▸ he))
    checked := fun hk he => hw.checked (hc ▸ hk) (ho ▸ he)}

end Worker.Follows

/-- What a step of one thread may do to the pool, apart from that thread's own program point
and, if it is worker `own`, its own deque. -/
structure Pool.Follows (own : Option (Fin n)) (p p' : Pool n η) : Prop where
  global : p.global.Evolves p'.global
  idle : p'.global.idleThreads=p.global.idleThreads
  stop : p'.global.stopFlag=p.global.stopFlag
  pc : ∀ j,(p'.workers j).pc=(p.workers j).pc ∨ (p'.workers j).pc=(p.workers j).pc.unblock
  drained : ∀ j,own≠some j → (p.workers j).localQueue=[] → (p'.workers j).localQueue=[]

namespace Pool

@[simp] theorem setPc_global (p : Pool n η) (i : Fin n) (pc : WorkerPc n η) :
    (p.setPc i pc).global=p.global := rfl

theorem set_workers (p : Pool n η) (i j : Fin n) (w : Worker n η) :
    (p.set i w).workers j=if j=i then w else p.workers j := by
  simp [set,Function.update_apply]

theorem Follows.refl (own : Option (Fin n)) (p : Pool n η) : p.Follows own p :=
  ⟨.refl _,rfl,rfl,fun _ => Or.inl rfl,fun _ _ h => h⟩

theorem Follows.section {own : Option (Fin n)} {p : Pool n η} {g : GlobalQueue η}
    (hg : p.global.Evolves g) (hi : g.idleThreads=p.global.idleThreads)
    (hs : g.stopFlag=p.global.stopFlag) : p.Follows own {p with global := g} :=
  ⟨hg,hi,hs,fun _ => Or.inl rfl,fun _ _ h => h⟩

theorem Follows.set {own : Option (Fin n)} (p : Pool n η) (i : Fin n) (w : Worker n η)
    (hp : w.pc=(p.workers i).pc ∨ w.pc=(p.workers i).pc.unblock)
    (hl : own≠some i → (p.workers i).localQueue=[] → w.localQueue=[]) :
    p.Follows own (p.set i w) := by
  constructor
  · exact .refl _
  · rfl
  · rfl
  · intro j
    rw [set_workers]
    split_ifs with h
    · rw [h]
      exact hp
    · exact Or.inl rfl
  · intro j hj hq
    rw [set_workers]
    split_ifs with h
    · exact hl (h ▸ hj) (h ▸ hq)
    · exact hq

theorem Follows.unblock (own : Option (Fin n)) (p : Pool n η) (i : Fin n) :
    p.Follows own (p.unblock i) :=
  .set p i _ (Or.inr rfl) fun _ h => h

theorem Follows.notifyOne {own wake : Option (Fin n)} {p p' : Pool n η}
    (h : p.notifyOne wake=some p') : p.Follows own p' := by
  unfold Pool.notifyOne at h
  split at h <;> split_ifs at h <;> cases h
  · exact .unblock own p _
  · exact .refl own p

/-- After a `notify_one` some worker is not blocked. -/
theorem notifyOne_awake [NeZero n] {wake : Option (Fin n)} {p p' : Pool n η}
    (h : p.notifyOne wake=some p') : ∃ i,(p'.workers i).pc.isBlocked=false := by
  unfold Pool.notifyOne at h
  split at h <;> split_ifs at h with hb <;> cases h
  · rename_i j
    exact ⟨j,by simp [Pool.unblock,setPc,set]⟩
  · exact ⟨0,hb 0⟩

theorem Follows.awake {own : Option (Fin n)} {p p' : Pool n η} (h : p.Follows own p')
    {i : Fin n} (hi : (p.workers i).pc.isBlocked=false) :
    (p'.workers i).pc.isBlocked=false := by
  rcases h.pc i with he | he
  · rw [he]
    exact hi
  · simp [he]

end Pool

theorem tryPop_follows (own : Option (Fin n)) (p : Pool n η) :
    p.Follows own {p with global := p.global.tryPop.1} := by
  apply Pool.Follows.section p.global.tryPop_evolves
  all_goals
    unfold GlobalQueue.tryPop
    split <;> rfl

theorem notifyOneIdle_follows (own : Option (Fin n)) (p : Pool n η) :
    p.Follows own {p with global := p.global.notifyOneIdle.1} := by
  apply Pool.Follows.section p.global.notifyOneIdle_evolves
  all_goals
    unfold GlobalQueue.notifyOneIdle
    split <;> rfl

theorem push_follows (own : Option (Fin n)) (p : Pool n η) (task : η) :
    p.Follows own {p with global := (p.global.push task).1} := by
  apply Pool.Follows.section (p.global.push_evolves task)
  all_goals
    unfold GlobalQueue.push
    split <;> rfl

theorem pushBatch_follows (own : Option (Fin n)) (p : Pool n η) {tasks : List η}
    (ht : tasks≠[]) : p.Follows own {p with global := (p.global.pushBatch tasks).1} := by
  apply Pool.Follows.section (p.global.pushBatch_evolves tasks ht)
  all_goals
    unfold GlobalQueue.pushBatch
    split <;> rfl

theorem enqueue_follows {capacity : Nat} {own wake : Option (Fin n)} {p p' : Pool n η}
    {pc : EnqueuePc η} {control : Control (EnqueuePc η) Unit}
    (h : enqueue capacity own wake p pc=some (p',control)) : p.Follows own p' := by
  cases pc with
  | pushLocal task =>
    simp only [enqueue] at h
    split at h
    · cases h
      exact .refl _ p
    · split_ifs at h <;> cases h
      · exact .set p _ _ (Or.inl rfl) fun hne => absurd rfl hne
      · exact .refl _ p
  | approxSize =>
    simp only [enqueue] at h
    split at h <;> cases h
    exact .refl _ p
  | notifyIdle =>
    cases h
    exact notifyOneIdle_follows own p
  | push task =>
    cases h
    exact push_follows own p task
  | pushBatch tasks =>
    simp only [enqueue] at h
    split_ifs at h with he
    · cases h
      exact .refl _ p
    · cases h
      exact pushBatch_follows own p (by simpa using he)
  | notify wakeCount =>
    simp only [enqueue,Option.map_eq_some_iff] at h
    obtain ⟨q,hq,he⟩ := h
    cases he
    exact .notifyOne hq

section Steps

variable [NeZero n]

theorem tryGetTask_follows {p p' : Pool n η} {i : Fin n} {c : Choice n} {pc : GetPc n η}
    {control : Control (GetPc n η) (Option η)} (h : tryGetTask p i c pc=some (p',control)) :
    p.Follows (some i) p' := by
  cases pc with
  | tick =>
    cases h
    exact .set p i _ (Or.inl rfl) fun hne => absurd rfl hne
  | periodic | popGlobal =>
    cases h
    exact tryPop_follows (some i) p
  | popLocal =>
    simp only [tryGetTask] at h
    split at h <;> cases h
    · exact .set p i _ (Or.inl rfl) fun hne => absurd rfl hne
    · exact .refl _ p
  | steal target k =>
    simp only [tryGetTask] at h
    split_ifs at h
    · cases h
      exact .refl _ p
    · split at h <;> cases h
      · rename_i hq
        exact .set p target _ (Or.inl rfl) fun _ he => by simp [hq] at he
      · exact .refl _ p
  | approxSize target task =>
    cases h
    exact .refl _ p
  | notifyIdle task =>
    cases h
    exact notifyOneIdle_follows (some i) p
  | notify task =>
    simp only [tryGetTask,Option.map_eq_some_iff] at h
    obtain ⟨q,hq,he⟩ := h
    cases he
    exact .notifyOne hq

/-- `try_get_task` builds up what a worker knows when it parks. -/
theorem tryGetTask_ok {p p' : Pool n η} {i : Fin n} {c : Choice n} {attempt : Attempt}
    {pc : GetPc n η} {control : Control (GetPc n η) (Option η)}
    (hpc : (p.workers i).pc=.get attempt pc) (hw : WorkerOk p.global (p.workers i))
    (h : tryGetTask p i c pc=some (p',control)) :
    WorkerOk p'.global {p'.workers i with pc := afterGet attempt control} := by
  have hg := (tryGetTask_follows h).global
  cases attempt with
  | first =>
    apply WorkerOk.of_not_parking
    all_goals
      cases control with
      | running pc => rfl
      | returned task => cases task <;> rfl
  | second e =>
    have hpast : e ≤ p.global.wakeEpoch := hw.past e (by simp [hpc,WorkerPc.observed])
    have hpast' : e ≤ p'.global.wakeEpoch := hpast.trans hg.epoch
    cases pc with
    | tick =>
      cases h
      split_ifs
      · exact .searching hpast' rfl rfl rfl
      · exact .searching hpast' rfl rfl rfl
    | periodic =>
      simp only [tryGetTask,Option.some.injEq,Prod.mk.injEq] at h
      obtain ⟨rfl,rfl⟩ := h
      cases p.global.tryPop.2 with
      | some task => exact .of_not_parking rfl rfl
      | none => exact .searching hpast' rfl rfl rfl
    | popLocal =>
      simp only [tryGetTask] at h
      split at h <;> cases h
      · exact .of_not_parking rfl rfl
      · rename_i hq
        exact {
          past := fun x hx => by cases hx; exact hpast
          drained := fun _ => List.getLast?_eq_none_iff.mp hq
          checked := fun hx => by cases hx}
    | popGlobal =>
      have hd : (p.workers i).localQueue=[] := hw.drained (by simp [hpc,WorkerPc.drained])
      simp only [tryGetTask,Option.some.injEq,Prod.mk.injEq] at h
      obtain ⟨rfl,rfl⟩ := h
      cases ht : p.global.tryPop.2 with
      | some task => exact .of_not_parking rfl rfl
      | none =>
        have hq := GlobalQueue.tryPop_none ht
        have he : p.global.tryPop.1=p.global := by simp [GlobalQueue.tryPop,hq]
        exact {
          past := fun x hx => by cases hx; exact hpast'
          drained := fun _ => hd
          checked := fun _ _ => (congrArg GlobalQueue.queue he).trans hq}
    | steal target k =>
      have keep {pc : WorkerPc n η} (ho : pc.observed=some e) :
          WorkerOk p.global {p.workers i with pc := pc} := {
        past := fun x hx => by
          have hx : some e=some x := ho ▸ hx
          cases hx
          exact hpast
        drained := fun _ => hw.drained (by simp [hpc,WorkerPc.drained])
        checked := fun _ hx => by
          apply hw.checked
          · simp [hpc,WorkerPc.checked]
          · rw [hpc]
            exact ho.symm.trans hx}
      simp only [tryGetTask] at h
      split_ifs at h
      · cases h
        exact keep rfl
      · split at h <;> cases h
        · exact .searching hpast' rfl rfl rfl
        · exact keep rfl
    | approxSize target task =>
      cases h
      split_ifs
      · exact .searching hpast' rfl rfl rfl
      · exact .of_not_parking rfl rfl
    | notifyIdle task =>
      simp only [tryGetTask,Option.some.injEq,Prod.mk.injEq] at h
      obtain ⟨rfl,rfl⟩ := h
      split_ifs
      · exact .searching hpast' rfl rfl rfl
      · exact .of_not_parking rfl rfl
    | notify task =>
      simp only [tryGetTask,Option.map_eq_some_iff] at h
      obtain ⟨q,hq,he⟩ := h
      cases he
      exact .of_not_parking rfl rfl

end Steps

/-- The count of idle threads is right and every worker knows what it should. -/
structure PoolInv (p : Pool n η) : Prop where
  idle : p.global.idleThreads=countThreads (fun w => w.pc.parking) p.workers
  worker : ∀ i,WorkerOk p.global (p.workers i)

namespace PoolInv

variable {p p' : Pool n η}

theorem idle_pos (h : PoolInv p) {i : Fin n} (hp : (p.workers i).pc.parking=true) :
    0<p.global.idleThreads := by
  rw [h.idle,countThreads_pos_iff]
  exact ⟨i,hp⟩

/-- One worker moves and the count of idle threads moves with it. -/
theorem move (h : PoolInv p) (i : Fin n) {g : GlobalQueue η} {w : Worker n η}
    (hg : p.global.Evolves g)
    (hi : g.idleThreads+(p.workers i).pc.parking.toNat=
      p.global.idleThreads+w.pc.parking.toNat) (hw : WorkerOk g w) :
    PoolInv ({p with global := g}.set i w) where
  idle := by
    have hu := countThreads_update (fun w : Worker n η => w.pc.parking) p.workers i w
    have hc := h.idle
    change g.idleThreads=countThreads _ (Function.update p.workers i w)
    omega
  worker j := by
    rw [Pool.set_workers]
    split_ifs with hj
    · exact hw
    · exact (h.worker j).mono hg h.idle_pos

theorem setPc (h : PoolInv p) (i : Fin n) {pc : WorkerPc n η}
    (hp : pc.parking=(p.workers i).pc.parking)
    (hw : WorkerOk p.global {p.workers i with pc := pc}) : PoolInv (p.setPc i pc) := by
  apply h.move i (.refl _)
  · simp [hp]
  · exact hw

theorem worker_follows (h : PoolInv p) {own : Option (Fin n)} (hf : p.Follows own p')
    {j : Fin n} (hj : own≠some j) : WorkerOk p'.global (p'.workers j) := by
  have hw := (h.worker j).mono hf.global h.idle_pos
  exact Worker.Follows.ok ⟨hf.pc j,hf.drained j hj⟩ hw

theorem idle_follows (h : PoolInv p) {own : Option (Fin n)} (hf : p.Follows own p') :
    p'.global.idleThreads=countThreads (fun w => w.pc.parking) p'.workers := by
  have same (j : Fin n) : (p'.workers j).pc.parking=(p.workers j).pc.parking := by
    rcases hf.pc j with he | he <;> simp [he]
  rw [hf.idle,h.idle,countThreads_eq_sum,countThreads_eq_sum]
  simp only [same]

theorem evolves (h : PoolInv p) {g : GlobalQueue η} (hg : p.global.Evolves g)
    (hi : g.idleThreads=p.global.idleThreads) : PoolInv {p with global := g} :=
  ⟨hi.trans h.idle,fun i => (h.worker i).mono hg h.idle_pos⟩

/-- A step of a submitting thread keeps the invariant. -/
theorem follows (h : PoolInv p) (hf : p.Follows none p') : PoolInv p' :=
  ⟨h.idle_follows hf,fun _ => h.worker_follows hf nofun⟩

/-- A step of worker `i` inside `try_get_task` or `Enqueue` keeps the invariant. -/
theorem follows_setPc (h : PoolInv p) {i : Fin n} (hf : p.Follows (some i) p')
    {pc : WorkerPc n η} (hp : pc.parking=(p.workers i).pc.parking)
    (hw : WorkerOk p'.global {p'.workers i with pc := pc}) : PoolInv (p'.setPc i pc) := by
  have hown : (p'.workers i).pc.parking=(p.workers i).pc.parking := by
    rcases hf.pc i with he | he <;> simp [he]
  constructor
  · rw [Pool.setPc_global,h.idle_follows hf]
    exact (countThreads_update_same (fun w : Worker n η => w.pc.parking) p'.workers i _
      (hp.trans hown.symm)).symm
  · intro j
    rw [Pool.setPc,Pool.set_workers]
    split_ifs with hj
    · exact hw
    · exact h.worker_follows hf (by simpa using fun he => hj he.symm)

end PoolInv

/-- The ways in which a worker moves: a step that leaves its share of the idle count alone,
`prepare_park`, the decrement of `park` or `cancel_park`, or blocking in `park`. -/
inductive WorkStep (p : Pool n η) (i : Fin n) : Pool n η → Prop
  | quiet {q : Pool n η} {pc : WorkerPc n η} (follows : p.Follows (some i) q)
      (parking : pc.parking=(p.workers i).pc.parking) (awake : pc.isBlocked=false)
      (ok : WorkerOk p.global (p.workers i) →
        WorkerOk q.global {q.workers i with pc := pc}) : WorkStep p i (q.setPc i pc)
  | prepare (parking : (p.workers i).pc.parking=false) :
      WorkStep p i ({p with global := p.global.preparePark.1}.setPc i
        (.get (.second p.global.wakeEpoch) .tick))
  | leave {pc : WorkerPc n η} (parking : (p.workers i).pc.parking=true)
      (left : pc.parking=false) (awake : pc.isBlocked=false)
      (ok : WorkerOk p.global.cancelPark {p.workers i with pc := pc}) :
      WorkStep p i ({p with global := p.global.cancelPark}.setPc i pc)
  | block {e : Nat} (pc : (p.workers i).pc=.park e) (stay : p.global.mayLeave e=false) :
      WorkStep p i (p.setPc i (.blocked e))

/-- A step that only moves the worker between points outside the parking protocol. -/
theorem WorkStep.plain {p : Pool n η} {i : Fin n} {pc : WorkerPc n η}
    (hp : (p.workers i).pc.parking=false) (hq : pc.parking=false) (hb : pc.isBlocked=false)
    (ho : pc.observed=none) (hd : pc.drained=false) : WorkStep p i (p.setPc i pc) :=
  .quiet (.refl _ p) (hq.trans hp.symm) hb fun _ => .of_not_parking ho hd

theorem work_cases [NeZero n] {capacity : Nat} {running : Bool} {p p' : Pool n η} {i : Fin n}
    {c : Choice n} (hn : work capacity running p i c (p.workers i).pc=some p') :
    WorkStep p i p' := by
  cases hpc : (p.workers i).pc with
  | loop =>
    rw [hpc] at hn
    cases hn
    have hp : (p.workers i).pc.parking=false := by rw [hpc]; rfl
    cases running <;> exact .plain hp rfl rfl rfl rfl
  | get attempt pc =>
    rw [hpc] at hn
    simp only [work,Option.map_eq_some_iff] at hn
    obtain ⟨⟨q,control⟩,hq,he⟩ := hn
    cases he
    apply WorkStep.quiet (tryGetTask_follows hq)
    · rw [hpc]
      cases attempt <;> cases control with
      | running pc => rfl
      | returned task => cases task <;> rfl
    · cases attempt <;> cases control with
      | running pc => rfl
      | returned task => cases task <;> rfl
    · intro hw
      exact tryGetTask_ok hpc hw hq
  | preparePark =>
    rw [hpc] at hn
    cases hn
    apply WorkStep.prepare
    rw [hpc]
    rfl
  | park e =>
    have hp : (p.workers i).pc.parking=true := by rw [hpc]; rfl
    rw [hpc] at hn
    simp only [work] at hn
    split_ifs at hn with hl
    · cases hn
      exact .leave hp rfl rfl (.of_not_parking rfl rfl)
    · cases hn
      exact .block hpc (by simpa using hl)
  | cancelPark task =>
    have hp : (p.workers i).pc.parking=true := by rw [hpc]; rfl
    rw [hpc] at hn
    cases hn
    exact .leave hp rfl rfl (.of_not_parking rfl rfl)
  | done task =>
    rw [hpc] at hn
    cases hn
    have hp : (p.workers i).pc.parking=false := by rw [hpc]; rfl
    cases c.finished <;> exact .plain hp rfl rfl rfl rfl
  | submit pc =>
    rw [hpc] at hn
    simp only [work,Option.map_eq_some_iff] at hn
    obtain ⟨⟨q,control⟩,hq,he⟩ := hn
    cases he
    apply WorkStep.quiet (enqueue_follows hq)
    · rw [hpc]
      cases control <;> rfl
    · cases control <;> rfl
    · intro _
      cases control <;> exact .of_not_parking rfl rfl
  | blocked e | resume | exited =>
    rw [hpc] at hn
    cases hn

namespace WorkStep

variable {p p' : Pool n η} {i : Fin n}

theorem pool (hs : WorkStep p i p') (h : PoolInv p) : PoolInv p' := by
  cases hs with
  | quiet follows parking awake ok => exact h.follows_setPc follows parking (ok (h.worker i))
  | prepare parking =>
    apply h.move i
    · exact ⟨le_refl _,fun _ _ he => he⟩
    · simp only [parking,Bool.toNat_false]
      rfl
    · exact .searching (le_refl _) rfl rfl rfl
  | leave parking left awake ok =>
    have hpos := h.idle_pos parking
    apply h.move i
    · exact ⟨le_refl _,fun _ _ he => he⟩
    · simp only [parking,left,GlobalQueue.cancelPark,Bool.toNat_true,Bool.toNat_false]
      omega
    · exact ok
  | block pc stay =>
    have hw := h.worker i
    apply h.setPc
    · rw [pc]
      rfl
    · exact {
        past := fun x hx => hw.past x (by rw [pc]; exact hx)
        drained := fun _ => hw.drained (by rw [pc]; rfl)
        checked := fun _ hx => hw.checked (by rw [pc]; rfl) (by rw [pc]; exact hx)}

theorem stopFlag (hs : WorkStep p i p') : p'.global.stopFlag=p.global.stopFlag := by
  cases hs with
  | quiet follows _ _ _ => exact follows.stop
  | prepare _ | leave _ _ _ _ | block _ _ => rfl

/-- A worker that is blocked after the step was blocked before it, or blocks now. -/
theorem blocked (hs : WorkStep p i p') {j : Fin n} (hb : (p'.workers j).pc.isBlocked=true) :
    (p.workers j).pc.isBlocked=true ∨
      ∃ e,(p.workers i).pc=.park e ∧ p.global.mayLeave e=false := by
  have unmoved (q : Pool n η) (pc : WorkerPc n η) (ha : pc.isBlocked=false)
      (hq : ((q.setPc i pc).workers j).pc.isBlocked=true) :
      (q.workers j).pc.isBlocked=true := by
    rw [Pool.setPc,Pool.set_workers] at hq
    split_ifs at hq
    · simp [ha] at hq
    · exact hq
  cases hs with
  | quiet follows _ awake _ =>
    left
    have hq := unmoved _ _ awake hb
    rcases follows.pc j with he | he
    · rwa [he] at hq
    · simp [he] at hq
  | prepare _ =>
    left
    exact unmoved _ _ rfl hb
  | leave _ _ awake _ =>
    left
    exact unmoved _ _ awake hb
  | block pc stay =>
    right
    exact ⟨_,pc,stay⟩

/-- The worker that moved is not blocked, unless it blocked and left the queue as it was. -/
theorem awake (hs : WorkStep p i p') : (p'.workers i).pc.isBlocked=false ∨
    p'.global=p.global ∧ ∃ e,(p.workers i).pc=.park e ∧ p.global.mayLeave e=false := by
  have moved (q : Pool n η) (pc : WorkerPc n η) : ((q.setPc i pc).workers i).pc=pc := by
    simp [Pool.setPc,Pool.set]
  cases hs with
  | quiet _ _ awake _ | leave _ _ awake _ =>
    left
    rw [moved]
    exact awake
  | prepare _ =>
    left
    rw [moved]
    rfl
  | block pc stay =>
    right
    exact ⟨rfl,_,pc,stay⟩

end WorkStep

/-- A submitting thread still has a `notify_one` to issue. -/
def owesNotify : Option (EnqueuePc η) → Bool
  | some (.notify _) => true
  | _ => false

/-- The scheduler's invariant. A queued task is always known to someone: a worker that is not
blocked, or a submitter about to notify one. -/
structure Inv (s : State n κ η) : Prop where
  pool : PoolInv s.pool
  awake : s.pool.global.queue≠[] → (∃ i,(s.pool.workers i).pc.isBlocked=false) ∨
    ∃ k,owesNotify (s.submitters k)=true
  stop : s.pool.global.stopFlag=true ↔ s.stopped=true ∨ s.stopper=.notifyAll
  stopped : s.stopped=true → ∀ i,(s.pool.workers i).pc.isBlocked=false

/-- A worker about to block has seen the queue empty, and it still is. -/
theorem PoolInv.queue_empty {p : Pool n η} (h : PoolInv p) {i : Fin n} {e : Nat}
    (hpc : (p.workers i).pc=.park e) (hl : p.global.mayLeave e=false) :
    p.global.queue=[] ∧ p.global.stopFlag=false := by
  simp only [GlobalQueue.mayLeave,ne_eq,decide_not,Bool.or_eq_false_iff,Bool.not_eq_false',
    decide_eq_true_eq] at hl
  refine ⟨(h.worker i).checked ?_ ?_,hl.1⟩
  · rw [hpc]
    rfl
  · rw [hpc,hl.2]
    rfl

theorem PoolInv.awake_of_idle [NeZero n] {p : Pool n η} (h : PoolInv p)
    (hi : p.global.idleThreads=0) (i : Fin n) : (p.workers i).pc.isBlocked=false := by
  have hc := h.idle
  rw [hi] at hc
  have hp := (countThreads_eq_zero_iff _ _).mp hc.symm i
  by_contra hb
  have := WorkerPc.parking_of_blocked (by simpa using hb)
  simp [hp] at this

theorem owesNotify_notifies {wakeCount : Nat} (h : 0<wakeCount) :
    owesNotify (notifies wakeCount : Control (EnqueuePc η) Unit).pc?=true := by
  simp [notifies,Nat.ne_of_gt h,Control.pc?,owesNotify]

/-- A submitter that puts a task into the global queue then owes a notification, unless no
worker is on its way into `park`; a notification leaves some worker unblocked. -/
theorem enqueue_awake [NeZero n] {capacity : Nat} {wake : Option (Fin n)} {p p' : Pool n η}
    {pc : EnqueuePc η} {control : Control (EnqueuePc η) Unit} (h : PoolInv p)
    (hn : enqueue capacity none wake p pc=some (p',control)) :
    (∃ i,(p'.workers i).pc.isBlocked=false) ∨ owesNotify control.pc?=true ∨
      p'.global.queue=p.global.queue ∧ owesNotify (some pc)=false := by
  cases pc with
  | pushLocal task =>
    cases hn
    exact Or.inr (Or.inr ⟨rfl,rfl⟩)
  | approxSize => cases hn
  | notifyIdle =>
    cases hn
    right
    right
    refine ⟨?_,rfl⟩
    change p.global.notifyOneIdle.1.queue=p.global.queue
    unfold GlobalQueue.notifyOneIdle
    split_ifs <;> rfl
  | push task =>
    cases hn
    by_cases hi : 0<p.global.idleThreads
    · right
      left
      exact owesNotify_notifies (GlobalQueue.push_wakes hi task)
    -- The count is exact: if it is zero, no worker is parked.
    · left
      exact ⟨0,h.awake_of_idle (by omega) 0⟩
  | pushBatch tasks =>
    simp only [enqueue] at hn
    split_ifs at hn with he
    · cases hn
      exact Or.inr (Or.inr ⟨rfl,rfl⟩)
    · cases hn
      by_cases hi : 0<p.global.idleThreads
      · right
        left
        exact owesNotify_notifies (GlobalQueue.pushBatch_wakes hi (by simpa using he))
      · left
        exact ⟨0,h.awake_of_idle (by omega) 0⟩
  | notify wakeCount =>
    simp only [enqueue,Option.map_eq_some_iff] at hn
    obtain ⟨q,hq,he⟩ := hn
    cases he
    left
    exact Pool.notifyOne_awake hq

section System

variable {s : State n κ η}

theorem Inv.work_step {p : Pool n η} {i : Fin n} (h : Inv s)
    (hs : WorkStep s.pool i p) : Inv {s with pool := p} where
  pool := hs.pool h.pool
  awake hq := by
    rcases hs.awake with ha | ⟨hg,e,hpc,hl⟩
    · exact Or.inl ⟨i,ha⟩
    · exact absurd (hg ▸ (h.pool.queue_empty hpc hl).1) hq
  stop := by
    rw [hs.stopFlag]
    exact h.stop
  stopped hst j := by
    by_contra hb
    rcases hs.blocked (by simpa using hb) with hj | ⟨e,hpc,hl⟩
    · simp [h.stopped hst j] at hj
    · have hflag := h.stop.mpr (Or.inl hst)
      simp [(h.pool.queue_empty hpc hl).2] at hflag

theorem Inv.submit_step [DecidableEq κ] (h : Inv s) {k : κ} {pc : EnqueuePc η}
    (hk : s.submitters k=none) :
    Inv {s with submitters := Function.update s.submitters k (some pc)} where
  pool := h.pool
  awake hq := by
    rcases h.awake hq with ha | ⟨j,hj⟩
    · exact Or.inl ha
    · have hne : j≠k := by
        intro he
        simp [he,hk,owesNotify] at hj
      exact Or.inr ⟨j,by simpa [hne] using hj⟩
  stop := h.stop
  stopped := h.stopped

theorem Inv.enqueue_step [NeZero n] [DecidableEq κ] (h : Inv s) {capacity : Nat}
    {wake : Option (Fin n)} {k : κ} {pc : EnqueuePc η} {p : Pool n η}
    {control : Control (EnqueuePc η) Unit} (hk : s.submitters k=some pc)
    (hn : enqueue capacity none wake s.pool pc=some (p,control)) :
    Inv {s with
      pool := p
      submitters := Function.update s.submitters k control.pc?} := by
  have hf := enqueue_follows hn
  constructor
  · exact h.pool.follows hf
  · intro hq
    rcases enqueue_awake h.pool hn with ha | ha | ⟨hsame,hpc⟩
    · exact Or.inl ha
    · exact Or.inr ⟨k,by simpa using ha⟩
    · rcases h.awake (hsame ▸ hq) with ⟨i,hi⟩ | ⟨j,hj⟩
      · exact Or.inl ⟨i,hf.awake hi⟩
      · have hne : j≠k := by
          intro he
          rw [he,hk,hpc] at hj
          cases hj
        exact Or.inr ⟨j,by simpa [hne] using hj⟩
  · exact hf.stop ▸ h.stop
  · exact fun hst i => hf.awake (h.stopped hst i)

theorem Inv.spurious_step (h : Inv s) (i : Fin n) : Inv {s with pool := s.pool.unblock i} := by
  have hf := Pool.Follows.unblock none s.pool i
  constructor
  · exact h.pool.follows hf
  · intro _
    left
    exact ⟨i,by simp [Pool.unblock,Pool.setPc,Pool.set]⟩
  · exact h.stop
  · exact fun hst j => hf.awake (h.stopped hst j)

theorem Inv.stop_step [NeZero n] (h : Inv s) {t : State n κ η}
    (hn : stopStep s s.stopper=some t) : Inv t := by
  cases hp : s.stopper with
  | idle =>
    rw [hp] at hn
    cases hn
  | stop =>
    have hstop := h.stop
    simp only [hp,reduceCtorEq,or_false] at hstop
    rw [hp] at hn
    by_cases hf : s.pool.global.stopFlag=true
    · simp only [stopStep,GlobalQueue.stop,hf,if_true] at hn
      cases hn
      exact ⟨h.pool,h.awake,by simp [hf],fun _ => h.stopped (hstop.mp hf)⟩
    · simp only [stopStep,GlobalQueue.stop,hf] at hn
      cases hn
      constructor
      · apply h.pool.evolves
        · exact ⟨Nat.le_succ _,fun he => absurd he (Nat.succ_ne_self _)⟩
        · rfl
      · exact h.awake
      · simp
      · intro hst
        exact h.stopped (by simpa using hst)
  | notifyAll =>
    rw [hp] at hn
    cases hn
    constructor
    · apply h.pool.follows
      exact ⟨.refl _,rfl,rfl,fun _ => Or.inr rfl,fun _ _ hq => hq⟩
    · intro _
      left
      exact ⟨0,by simp [Pool.notifyAll]⟩
    · exact iff_of_true (h.stop.mpr (Or.inr hp)) (Or.inl rfl)
    · intro _ i
      simp [Pool.notifyAll]

theorem init_inv [NeZero n] : Inv (init : State n κ η) where
  pool := {
    idle := by
      symm
      rw [init,GlobalQueue.new,countThreads_eq_zero_iff]
      intro i
      rfl
    worker := fun i => .of_not_parking rfl rfl}
  awake hq := absurd rfl hq
  stop := by simp [init,GlobalQueue.new]
  stopped h := by simp [init] at h

/-- Every step of every thread keeps the invariant. -/
theorem next_inv [NeZero n] [DecidableEq κ] {capacity : Nat} {a : Action n κ η}
    {t : State n κ η} (h : Inv s) (hn : next capacity s a=some t) : Inv t := by
  cases a with
  | work i c =>
    simp only [next,Option.map_eq_some_iff] at hn
    obtain ⟨p,hp,rfl⟩ := hn
    exact h.work_step (work_cases hp)
  | call i pc =>
    simp only [next] at hn
    split at hn <;> cases hn
    rename_i hpc _
    exact h.work_step (.plain (by rw [hpc]; rfl) rfl rfl rfl rfl)
  | suspend i =>
    simp only [next] at hn
    split at hn <;> cases hn
    rename_i hpc
    exact h.work_step (.plain (by rw [hpc]; rfl) rfl rfl rfl rfl)
  | submit k pc =>
    simp only [next] at hn
    split at hn <;> cases hn
    rename_i hk _
    exact h.submit_step hk
  | enqueue k wake =>
    simp only [next] at hn
    split at hn
    · cases hn
    · rename_i pc hk
      simp only [Option.map_eq_some_iff] at hn
      obtain ⟨⟨p,control⟩,hp,rfl⟩ := hn
      exact h.enqueue_step hk hp
  | spurious i =>
    cases hn
    exact h.spurious_step i
  | shutdown =>
    simp only [next] at hn
    split at hn <;> cases hn
    rename_i hp
    have hstop := h.stop
    simp only [hp,reduceCtorEq,or_false] at hstop
    exact ⟨h.pool,h.awake,by simp [hstop],h.stopped⟩
  | stop => exact h.stop_step hn

theorem reachable_inv [NeZero n] [DecidableEq κ] {capacity : Nat}
    (h : (machine n κ η capacity).Reachable s) : Inv s := by
  apply h.invariant
  · rintro x rfl
    exact init_inv
  · intro x a y hi hn _
    exact next_inv hi hn

/-- A completed `stop` stays completed. -/
theorem next_stopped [NeZero n] [DecidableEq κ] {capacity : Nat} {a : Action n κ η}
    {t : State n κ η} (h : s.stopped=true) (hn : next capacity s a=some t) :
    t.stopped=true := by
  cases a with
  | work i c =>
    simp only [next,Option.map_eq_some_iff] at hn
    obtain ⟨p,_,rfl⟩ := hn
    exact h
  | call i pc | suspend i | submit k pc | shutdown =>
    simp only [next] at hn
    split at hn <;> cases hn
    exact h
  | enqueue k wake =>
    simp only [next] at hn
    split at hn
    · cases hn
    · simp only [Option.map_eq_some_iff] at hn
      obtain ⟨x,_,rfl⟩ := hn
      exact h
  | spurious i =>
    cases hn
    exact h
  | stop =>
    simp only [next,stopStep] at hn
    split at hn <;> cases hn
    · simp [h]
    · rfl

/-- No task is stranded by the parking protocol. The idle count is exact, a blocked worker has
an empty deque, a queued task never meets only blocked workers with no notification under way,
and after `stop` nobody is or will be blocked. -/
theorem no_stranded_task [NeZero n] [DecidableEq κ] {capacity : Nat}
    (h : (machine n κ η capacity).Reachable s) :
    s.pool.global.idleThreads=countThreads (fun w => w.pc.parking) s.pool.workers ∧
    (∀ i,(s.pool.workers i).pc.isBlocked=true → (s.pool.workers i).localQueue=[]) ∧
    ¬((s.pool.global.queue≠[] ∨ ∃ i,(s.pool.workers i).localQueue≠[]) ∧
      (∀ i,(s.pool.workers i).pc.isBlocked=true) ∧
      ∀ k,owesNotify (s.submitters k)=false) ∧
    (s.stopped=true → ∀ t,(machine n κ η capacity).Steps Machine.anyStep s t →
      ∀ i,(t.pool.workers i).pc.isBlocked=false) := by
  have hi := reachable_inv h
  have drained (i : Fin n) (hb : (s.pool.workers i).pc.isBlocked=true) :
      (s.pool.workers i).localQueue=[] :=
    (hi.pool.worker i).drained (WorkerPc.drained_of_blocked hb)
  refine ⟨hi.pool.idle,drained,?_,?_⟩
  · rintro ⟨hq | ⟨i,hq⟩,hb,hk⟩
    · rcases hi.awake hq with ⟨i,ha⟩ | ⟨k,ha⟩
      · simp [hb i] at ha
      · simp [hk k] at ha
    · exact hq (drained i (hb i))
  · intro hst t ht
    have hlater := ht.invariant (I := fun t => Inv t ∧ t.stopped=true) ⟨hi,hst⟩
      fun x a y hx hn _ => ⟨next_inv hx.1 hn,next_stopped hx.2 hn⟩
    exact hlater.1.stopped hlater.2

end System

/-- Two workers are blocked when a task is pushed; the pushing thread is then about to wake
one of them. -/
theorem no_stranded_task_push : ∃ s : State 2 (Fin 1) Nat,
    (machine 2 (Fin 1) Nat 256).Reachable s ∧
    s.pool.global.queue=[7] ∧ s.pool.global.idleThreads=2 ∧
      (∀ i,(s.pool.workers i).pc.isBlocked=true) ∧
        ∃ k,owesNotify (s.submitters k)=true := by
  obtain ⟨s,hs,hp⟩ := Machine.exists_reachableBy (machine 2 (Fin 1) Nat 256) Machine.anyStep
    (List.flatten [List.replicate 15 (.work 0 ⟨0,false,false,none⟩),
      List.replicate 15 (.work 1 ⟨0,false,false,none⟩),
      [.submit 0 (.pushLocal 7),.enqueue 0 none,.enqueue 0 none]])
    (fun s => s.pool.global.queue=[7] ∧ s.pool.global.idleThreads=2 ∧
      ∀ i,(s.pool.workers i).pc.isBlocked=true) rfl (by decide +kernel)
  have hv : s.pool.global.queue=[7] ∧ s.pool.global.idleThreads=2 ∧
      ∀ i,(s.pool.workers i).pc.isBlocked=true := by simpa using hp
  have hsafe := (no_stranded_task hs).2.2.1
  refine ⟨s,hs,hv.1,hv.2.1,hv.2.2,?_⟩
  by_contra hk
  apply hsafe
  exact ⟨Or.inl (by simp [hv.1]),hv.2.2,fun k => by simpa using not_exists.mp hk k⟩

end Acnet.Scheduler
