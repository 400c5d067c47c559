import Mathlib.Data.List.Basic
import Mathlib.Order.Lattice
import Mathlib.Tactic.SplitIfs

namespace Acnet

/-- The injection queue and the parking state beside it. `wakeEpoch` and `idleThreads` are
64-bit words in the source; here they are plain numbers, so an epoch never comes round. -/
structure GlobalQueue (η : Type) where
  queue : List η
  idleThreads : Nat
  wakeEpoch : Nat
  stopFlag : Bool

namespace GlobalQueue

variable {η : Type}

def new : GlobalQueue η := ⟨[],0,0,false⟩

/-- The locked section of `push`, and how often the caller then notifies. -/
def push (task : η) (q : GlobalQueue η) : GlobalQueue η×Nat :=
  if 0<q.idleThreads then
    ({q with queue := q.queue++[task], wakeEpoch := q.wakeEpoch+1},1)
  else ({q with queue := q.queue++[task]},0)

/-- The locked section of `push_batch`, entered for a non-empty batch. -/
def pushBatch (tasks : List η) (q : GlobalQueue η) : GlobalQueue η×Nat :=
  if 0 < min tasks.length q.idleThreads then
    ({q with queue := q.queue++tasks, wakeEpoch := q.wakeEpoch+1},
      min tasks.length q.idleThreads)
  else ({q with queue := q.queue++tasks},0)

def tryPop (q : GlobalQueue η) : GlobalQueue η×Option η :=
  match q.queue with
  | [] => (q,none)
  | task::rest => ({q with queue := rest},some task)

/-- The locked section of `notify_one_idle`, and how often the caller then notifies. -/
def notifyOneIdle (q : GlobalQueue η) : GlobalQueue η×Nat :=
  if 0<q.idleThreads then ({q with wakeEpoch := q.wakeEpoch+1},1) else (q,0)

def preparePark (q : GlobalQueue η) : GlobalQueue η×Nat :=
  ({q with idleThreads := q.idleThreads+1},q.wakeEpoch)

/-- The decrement in `cancel_park`, which also ends `park`. -/
def cancelPark (q : GlobalQueue η) : GlobalQueue η := {q with idleThreads := q.idleThreads-1}

/-- The predicate that `park` waits for. -/
def mayLeave (observedEpoch : Nat) (q : GlobalQueue η) : Bool :=
  q.stopFlag || q.wakeEpoch≠observedEpoch

/-- The locked section of `stop`, and whether the caller then notifies all. -/
def stop (q : GlobalQueue η) : GlobalQueue η×Bool :=
  if q.stopFlag then (q,false)
  else ({q with stopFlag := true, wakeEpoch := q.wakeEpoch+1},true)

/-- What one locked section may do to a queue that a parking worker has seen: either the epoch
moves on, or tasks only leave, unless nobody was counted as idle. -/
structure Evolves (q q' : GlobalQueue η) : Prop where
  epoch : q.wakeEpoch ≤ q'.wakeEpoch
  quiet : q'.wakeEpoch=q.wakeEpoch → 0<q.idleThreads → q.queue=[] → q'.queue=[]

theorem Evolves.refl (q : GlobalQueue η) : q.Evolves q := ⟨le_refl _,fun _ _ h => h⟩

theorem push_evolves (q : GlobalQueue η) (task : η) : q.Evolves (q.push task).1 := by
  unfold push
  split_ifs with h
  · exact ⟨Nat.le_succ _,fun he => absurd he (Nat.succ_ne_self _)⟩
  · exact ⟨le_refl _,fun _ hi => absurd hi h⟩

theorem pushBatch_evolves (q : GlobalQueue η) (tasks : List η) (ht : tasks≠[]) :
    q.Evolves (q.pushBatch tasks).1 := by
  have hl : 0<tasks.length := List.length_pos_iff.mpr ht
  unfold pushBatch
  split_ifs with h
  · exact ⟨Nat.le_succ _,fun he => absurd he (Nat.succ_ne_self _)⟩
  · exact ⟨le_refl _,fun _ hi => absurd (lt_min hl hi) h⟩

theorem tryPop_evolves (q : GlobalQueue η) : q.Evolves q.tryPop.1 := by
  unfold tryPop
  split
  · exact .refl q
  · rename_i hq
    exact ⟨le_refl _,fun _ _ he => by simp [hq] at he⟩

theorem notifyOneIdle_evolves (q : GlobalQueue η) : q.Evolves q.notifyOneIdle.1 := by
  unfold notifyOneIdle
  split_ifs
  · exact ⟨Nat.le_succ _,fun he => absurd he (Nat.succ_ne_self _)⟩
  · exact .refl q

theorem push_wakes {q : GlobalQueue η} (h : 0<q.idleThreads) (task : η) :
    0<(q.push task).2 := by
  simp [push,h]

theorem pushBatch_wakes {q : GlobalQueue η} (h : 0<q.idleThreads) {tasks : List η}
    (ht : tasks≠[]) : 0<(q.pushBatch tasks).2 := by
  have hl : 0<tasks.length := List.length_pos_iff.mpr ht
  have hm := lt_min hl h
  rw [pushBatch,if_pos hm]
  exact hm

theorem tryPop_none {q : GlobalQueue η} (h : q.tryPop.2=none) : q.queue=[] := by
  unfold tryPop at h
  split at h
  · assumption
  · cases h

end GlobalQueue

end Acnet
