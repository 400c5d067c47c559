import Acnet.Framework.Fair
import Acnet.Scheduler.Turn

/-!
What the scheduler gets done. A worker that is awake goes through one call of `try_get_task`
after another; how far it is from the next one is a number that only its own steps change.
-/

namespace Acnet.Scheduler

variable {n : Nat} {κ η : Type}

section System

variable [NeZero n] [DecidableEq κ] {capacity : Nat} {s t : State n κ η} {a : Action n κ η}

/-- What holds of the workers in every reachable state, beside `Inv`. -/
structure Sane (s : State n κ η) : Prop extends Inv s where
  alive : s.running=true → ∀ i,(s.pool.workers i).pc≠.exited
  inRange : ∀ i,(s.pool.workers i).pc.inRange=true

theorem Sane.next (h : Sane s) (hn : Scheduler.next capacity s a=some t) : Sane t where
  toInv := next_inv h.toInv hn
  alive hrun i he := by
    rcases next_running hn with ⟨hr,-⟩ | ⟨-,hr⟩
    · rw [hr] at hrun
      cases next_move hn i with
      | work turn => exact absurd ((turn.exited he).symm.trans hrun) (by decide)
      | call | suspend =>
        rw [Pool.setPc_self] at he
        cases he
      | other _ _ spared =>
        apply h.alive hrun i
        rcases spared.pc with hpc | hpc
        · exact hpc.symm.trans he
        · exact WorkerPc.unblock_exited (hpc.symm.trans he)
    · exact absurd (hr.symm.trans hrun) (by decide)
  inRange i := by
    cases next_move hn i with
    | work turn => exact turn.inRange (h.inRange i)
    | call | suspend =>
      rw [Pool.setPc_self]
      rfl
    | other _ _ spared =>
      rcases spared.pc with hpc | hpc
      · rw [hpc]
        exact h.inRange i
      · rw [hpc,WorkerPc.unblock_inRange]
        exact h.inRange i

theorem reachable_sane (h : (machine n κ η capacity).Reachable s) : Sane s := by
  apply h.invariant
  · rintro x rfl
    exact ⟨init_inv,fun _ _ => by simp [init],fun _ => rfl⟩
  · intro x a y hi hn _
    exact hi.next hn

/-- A worker that is neither blocked nor inside a task can take its next step. -/
theorem work_enabled {i : Fin n} (hb : (s.pool.workers i).pc.busy=false)
    (ha : (s.pool.workers i).pc.isBlocked=false) (he : (s.pool.workers i).pc≠.exited) :
    (machine n κ η capacity).Enabled (fun a => ∃ c,a=.work i c) s := by
  have of_work (c : Choice n)
      (h : (work capacity s.running s.pool i c (s.pool.workers i).pc).isSome=true) :
      (machine n κ η capacity).Enabled (fun a => ∃ c,a=.work i c) s := by
    apply Machine.Enabled.of_isSome (a := .work i c) _ ⟨c,rfl⟩
    change (Option.map _ _).isSome=true
    rw [Option.isSome_map]
    exact h
  let c : Choice n := ⟨0,false,false,none⟩
  cases hpc : (s.pool.workers i).pc with
  | loop | preparePark | cancelPark | done => exact of_work c (by rw [hpc]; rfl)
  | park e =>
    apply of_work c
    rw [hpc,work]
    split_ifs <;> rfl
  | get attempt pc =>
    cases pc with
    | tick | periodic | popGlobal | approxSize | notifyIdle => exact of_work c (by rw [hpc]; rfl)
    | popLocal =>
      apply of_work c
      rw [hpc,work,Option.isSome_map,tryGetTask]
      split <;> rfl
    | steal target k =>
      apply of_work c
      rw [hpc,work,Option.isSome_map,tryGetTask]
      split_ifs
      · rfl
      · split <;> rfl
    | notify task =>
      obtain ⟨wake,hw⟩ := s.pool.exists_notifyOne
      apply of_work {c with wake := wake}
      rw [hpc,work,Option.isSome_map,tryGetTask,Option.isSome_map]
      exact hw
  | blocked | exited | resume | submit =>
    simp [hpc,WorkerPc.isBlocked,WorkerPc.busy] at ha hb he

/-- A submission can always take its next step. -/
theorem enqueue_enabled {k : κ} {pc : EnqueuePc η} (hk : s.submitters k=some pc)
    (hpc : pc≠.approxSize) :
    (machine n κ η capacity).Enabled (fun a => ∃ wake,a=.enqueue k wake) s := by
  have of_enqueue (wake : Option (Fin n))
      (h : (enqueue capacity none wake s.pool pc).isSome=true) :
      (machine n κ η capacity).Enabled (fun a => ∃ wake,a=.enqueue k wake) s := by
    apply Machine.Enabled.of_isSome (a := .enqueue k wake) _ ⟨wake,rfl⟩
    change (Scheduler.next capacity s (.enqueue k wake)).isSome=true
    rw [Scheduler.next,hk,Option.isSome_map]
    exact h
  cases pc with
  | pushLocal | notifyIdle | push => exact of_enqueue none rfl
  | pushBatch =>
    apply of_enqueue none
    rw [enqueue]
    split_ifs <;> rfl
  | notify wakeCount =>
    obtain ⟨wake,hw⟩ := s.pool.exists_notifyOne
    apply of_enqueue wake
    rw [enqueue,Option.isSome_map]
    exact hw
  | approxSize => exact absurd rfl hpc

end System

section Run

variable [NeZero n] [DecidableEq κ] {capacity : Nat}
  {ok : State n κ η → Action n κ η → State n κ η → Prop}

/-- Every task that is resumed suspends or returns at some time. -/
def Suspends (r : (machine n κ η capacity).Trace ok) : Prop :=
  ∀ m i,((r.state m).pool.workers i).pc.busy=true → ∃ l ≥ m,r.label l=some (.suspend i)

/-- The step does not concern the worker, or is one of the task that it runs. -/
structure Stays (i : Fin n) (rank : State n κ η → Nat) (a : Action n κ η) (s t : State n κ η) :
    Prop where
  rank : rank t=rank s
  busy : (t.pool.workers i).pc.busy=(s.pool.workers i).pc.busy
  suspend : a≠.suspend i
  work : (∃ c,a=.work i c) → (s.pool.workers i).pc.busy=true

/-- Until `Q` comes, the rank only falls or stays, and it falls with each step of the worker
outside a task and at the end of each task: then `Q` comes. -/
theorem worker_progress {r : (machine n κ η capacity).Trace ok} {i : Fin n} {m : Nat}
    {P Q : State n κ η → Prop} (rank : State n κ η → Nat)
    (fair : r.Fair fun a => ∃ c,a=.work i c) (suspends : Suspends r)
    (enabled : ∀ s,P s → ¬Q s → (s.pool.workers i).pc.busy=false →
      (machine n κ η capacity).Enabled (fun a => ∃ c,a=.work i c) s)
    (step : ∀ s a t,P s → next capacity s a=some t → ok s a t →
      Q t ∨ P t ∧ (rank t < rank s ∨ Stays i rank a s t)) (h : P (r.state m)) :
    ∃ l ≥ m,Q (r.state l) := by
  induction hrank : rank (r.state m) using Nat.strong_induction_on generalizing m with
  | _ bound ih =>
  have again {l : Nat} (hl : l ≥ m) (hp : P (r.state l)) (hlt : rank (r.state l) < bound) :
      ∃ l ≥ m,Q (r.state l) := by
    obtain ⟨l',hl',hq⟩ := ih _ hlt hp rfl
    exact ⟨l',hl.trans hl',hq⟩
  by_cases hb : ((r.state m).pool.workers i).pc.busy=true
  · obtain ⟨l,hl,hlabel⟩ := suspends m i hb
    -- inside a task the rank does not grow, until the task suspends
    have hlast : (∃ l ≥ m,Q (r.state l)) ∨ P (r.state l) ∧ rank (r.state l) ≤ bound := by
      apply r.lasts (P := fun s => P s ∧ rank s ≤ bound) _ ⟨h,hrank.le⟩ l hl
      intro s a t ⟨hp,hle⟩ hn hok
      rcases step s a t hp hn hok with hq | ⟨hp',hlt | hstay⟩
      · exact Or.inl hq
      · exact Or.inr ⟨hp',hlt.le.trans hle⟩
      · exact Or.inr ⟨hp',hstay.rank.le.trans hle⟩
    rcases hlast with hq | ⟨hp,hle⟩
    · exact hq
    · have hn : next capacity (r.state l) (.suspend i)=some (r.state (l+1)) :=
        (r.step l _ hlabel).1
      rcases step _ _ _ hp hn (r.step l _ hlabel).2 with hq | ⟨hp',hlt | hstay⟩
      · exact ⟨l+1,by omega,hq⟩
      · exact again (by omega) hp' (hlt.trans_le hle)
      · exact absurd rfl hstay.suspend
  · have hlead : ∃ l ≥ m,Q (r.state l) ∨ P (r.state l) ∧ rank (r.state l) < bound := by
      apply r.leadsTo (P := fun s => P s ∧ (s.pool.workers i).pc.busy=false ∧ rank s=bound)
        (Q := fun s => Q s ∨ P s ∧ rank s < bound) fair (fun _ => 0) _ _
        ⟨h,by simpa using hb,hrank⟩
      · intro s ⟨hp,hb,_⟩ hq
        exact enabled s hp (fun hs => hq (Or.inl hs)) hb
      · intro s a t ⟨hp,hb,he⟩ hn hok
        rcases step s a t hp hn hok with hq | ⟨hp',hlt | hstay⟩
        · exact Or.inl (Or.inl hq)
        · exact Or.inl (Or.inr ⟨hp',he ▸ hlt⟩)
        · refine Or.inr ⟨⟨hp',hstay.busy.trans hb,hstay.rank.trans he⟩,le_rfl,fun hk => ?_⟩
          exact absurd ((hstay.work hk).symm.trans hb) (by decide)
    obtain ⟨l,hl,hq | ⟨hp,hlt⟩⟩ := hlead
    · exact ⟨l,hl,hq⟩
    · exact again hl hp hlt

end Run

section Runs

theorem not_work {n capacity : Nat} {κ η : Type} [NeZero n] [DecidableEq κ] {s : State n κ η}
    {i : Fin n} (h : (s.pool.workers i).pc.isBlocked=true ∨ (s.pool.workers i).pc=.exited) :
    ¬(machine n κ η capacity).Enabled (fun a => ∃ c,a=.work i c) s := by
  rintro ⟨_,t,⟨c,rfl⟩,hn⟩
  cases hpc : (s.pool.workers i).pc with
  | blocked | exited => simp [machine,next,hpc,work] at hn
  | _ => simp [hpc,WorkerPc.isBlocked] at h

def only : Fin 1 := 0

/-- Steps of the only worker; the first 13 find nothing and park it. -/
def works (k : Nat) : List (Action 1 Unit Nat) :=
  List.replicate k (.work only ⟨only,false,false,none⟩)

end Runs

end Acnet.Scheduler
