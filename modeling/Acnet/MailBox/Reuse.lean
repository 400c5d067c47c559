import Acnet.Framework.Placement
import Acnet.MailBox.Wakeup

/-!
One mailbox and a succession of consumers, as the manager launches them for a child: the mailbox
is never armed, and each incarnation after the first one finds it as its predecessor left it. An
incarnation is named by the handle of its coroutine frame.
-/

namespace Acnet.Reuse

open MailBox MailQueue

variable {ι κ μ : Type}

/-- A thread that runs an incarnation, or still executes an `await_suspend` of one. -/
inductive WorkerPc (μ : Type) where
  | idle
  | markRunning (j : Handle)
  | receive (j : Handle) (pc : ReceivePc μ)
  | awaitReady (j : Handle) (pc : CanDequeuePc)
  | suspend (j : Handle) (pc : SuspendPc)
  | resume (j : Handle)
  deriving DecidableEq

/-- An entry of the scheduler: an incarnation to be started, or one to be resumed that a `Send`
has enqueued. -/
inductive Entry where
  | launch (j : Handle)
  | wake (j : Handle)
  deriving DecidableEq

def Entry.handle : Entry → Handle
  | .launch j => j
  | .wake j => j

/-- What the current incarnation does. -/
inductive Status where
  | launched
  | running
  | suspended
  | returned
  deriving DecidableEq

structure State (ι κ μ : Type) where
  box : MailBox μ
  senders : ι → Option (SendPc μ)
  workers : κ → WorkerPc μ
  scheduler : List Entry
  current : Handle
  status : Status

inductive Action (ι κ μ : Type) where
  | call (i : ι) (message : μ)
  | send (i : ι) (spurious : Bool)
  | take (k : κ) (position : Nat)
  | work (k : κ)
  | finish (k : κ)
  | launch

def init (size : Nat) : State ι κ μ where
  box := .new size
  senders _ := none
  workers _ := .idle
  scheduler := [.launch 0]
  current := 0
  status := .launched

namespace State

/-- The answer of `handle.done()`. -/
def done (s : State ι κ μ) (j : Handle) : Bool := j≠s.current || s.status=.returned

/-- The status after incarnation `j` has come to a point. -/
def reach (s : State ι κ μ) (j : Handle) (status : Status) : Status :=
  if j=s.current then status else s.status

variable [DecidableEq κ]

def setWorker (s : State ι κ μ) (k : κ) (b : MailBox μ) (pc : WorkerPc μ) : State ι κ μ :=
  {s with box := b, workers := Function.update s.workers k pc}

end State

section Steps

variable [DecidableEq ι] [DecidableEq κ]

/-- One access of the incarnation that worker `k` runs, or of its `await_suspend`. -/
def work (s : State ι κ μ) (k : κ) : WorkerPc μ → Option (State ι κ μ)
  | .idle => none
  | .markRunning j => some (s.setWorker k s.box.markRunning (.receive j .start))
  | .receive j pc =>
      match s.box.tryReceive pc with
      | (b,.running pc') => some (s.setWorker k b (.receive j pc'))
      | (b,.returned (some _)) => some (s.setWorker k b (.receive j .start))
      | (b,.returned none) => some (s.setWorker k b (.awaitReady j .loadIndex))
  | .awaitReady j pc =>
      match s.box.mailbox.canDequeue pc with
      | .running pc' => some (s.setWorker k s.box (.awaitReady j pc'))
      | .returned true => some (s.setWorker k s.box (.receive j .start))
      | .returned false =>
          some {s.setWorker k s.box (.suspend j .storeConsumer) with
            status := s.reach j .suspended}
  | .suspend j pc =>
      match s.box.awaitSuspend j pc with
      | (b,.running pc') => some (s.setWorker k b (.suspend j pc'))
      | (b,.returned false) => some (s.setWorker k b (.resume j))
      | (b,.returned true) => some (s.setWorker k b .idle)
  | .resume j =>
      some {s.setWorker k s.box (.receive j .start) with status := s.reach j .running}

def next (s : State ι κ μ) : Action ι κ μ → Option (State ι κ μ)
  | .call i m =>
      match s.senders i with
      | none => some {s with senders := Function.update s.senders i (some (.start m))}
      | some _ => none
  | .send i spurious =>
      match s.senders i with
      | none => none
      | some pc =>
          let (b,task,control) := s.box.send s.done spurious pc
          some {s with
            box := b
            scheduler := s.scheduler++(task.map Entry.wake).toList
            senders := Function.update s.senders i control.pc?}
  | .take k position =>
      match s.workers k,s.scheduler[position]? with
      | .idle,some (.launch j) =>
          some {s.setWorker k s.box (.markRunning j) with
            scheduler := s.scheduler.eraseIdx position
            status := s.reach j .running}
      | .idle,some (.wake j) =>
          some {s.setWorker k s.box (.receive j .start) with
            scheduler := s.scheduler.eraseIdx position
            status := s.reach j .running}
      | _,_ => none
  | .work k => work s k (s.workers k)
  | .finish k =>
      match s.workers k with
      | .receive j (.tryDequeue .loadIndex) =>
          some {s.setWorker k s.box .idle with status := s.reach j .returned}
      | _ => none
  | .launch =>
      match s.status with
      | .returned =>
          some {s with
            scheduler := s.scheduler++[.launch (s.current+1)]
            current := s.current+1
            status := .launched}
      | _ => none

end Steps

/-- Any number of senders and workers around one mailbox. -/
def machine (ι κ μ : Type) [DecidableEq ι] [DecidableEq κ] :
    Machine (State ι κ μ) (Action ι κ μ) where
  start s := ∃ size,s=init size
  next := next

/-- The incarnation whose `await_suspend` the worker executes. -/
def WorkerPc.suspending : WorkerPc μ → Option Handle
  | .suspend j _ => some j
  | _ => none

/-- When `await_suspend` stores its handle no `Send` is between its winning exchange and its load
of `consumer_`; when it clears `scheduled_` no `await_suspend` of another incarnation is under
way. -/
def settled (s : State ι κ μ) (a : Action ι κ μ) (_ : State ι κ μ) : Prop :=
  match a with
  | .work k =>
      match s.workers k with
      | .suspend _ .storeConsumer => ∀ i,s.senders i≠some .loadConsumer
      | .suspend j .clearScheduled => ∀ k',∀ j'∈(s.workers k').suspending,j'=j
      | _ => True
  | _ => True

instance [DecidableEq μ] [Fintype ι] [Fintype κ] (s : State ι κ μ) (a : Action ι κ μ)
    (t : State ι κ μ) : Decidable (settled s a t) := by
  unfold settled
  split
  · split <;> infer_instance
  · infer_instance

/-- The incarnation that the worker has the permit to run: from its start or resumption to the
moment `await_suspend` clears `scheduled_`, or since an `await_suspend` won the flag back. -/
def WorkerPc.holder : WorkerPc μ → Option Handle
  | .markRunning j | .receive j _ | .awaitReady j _ => some j
  | .suspend j .storeConsumer | .suspend j .clearScheduled => some j
  | .resume j => some j
  | _ => none

/-- The handle that a sender who won `scheduled_.exchange(true)` is going to enqueue. -/
def owed (consumer : Option Handle) : Option (SendPc μ) → Option Handle
  | some .loadConsumer => consumer
  | some (.enqueue j) => some j
  | _ => none

/-- Who may hold the permit to run the mailbox's consumer. -/
inductive Place (ι κ : Type) where
  | worker (k : κ)
  | sender (i : ι)
  | scheduler
  | returned

def lies (s : State ι κ μ) : Place ι κ → List Handle
  | .worker k => (s.workers k).holder.toList
  | .sender i => (owed s.box.consumer (s.senders i)).toList
  | .scheduler => s.scheduler.map Entry.handle
  | .returned => if s.status=.returned then [s.current] else []

/-- There is one permit, that of the current incarnation, unless it sleeps in `Wait`. -/
def permit (s : State ι κ μ) : List Handle :=
  if s.box.consumer=none ∨ s.box.scheduled=true then [s.current] else []

namespace WorkerPc

def runs : WorkerPc μ → Bool
  | .markRunning _ | .receive _ _ | .awaitReady _ _ => true
  | _ => false

/-- The worker has the permit and has seen `scheduled_` set. -/
def marked : WorkerPc μ → Bool
  | .receive _ _ | .awaitReady _ _ | .resume _ => true
  | .suspend _ .storeConsumer | .suspend _ .clearScheduled => true
  | _ => false

/-- The worker executes an `await_suspend` that has stored its handle. -/
def stored : WorkerPc μ → Bool
  | .suspend _ .storeConsumer => false
  | .suspend _ _ => true
  | _ => false

theorem clearing_of_stored {pc : WorkerPc μ} {j : Handle} (hs : pc.stored=true)
    (hh : pc.holder=some j) : pc=.suspend j .clearScheduled := by
  cases pc with
  | suspend j' pc => cases pc <;> simp_all [stored,holder]
  | idle | markRunning | receive | awaitReady | resume => cases hs

theorem holder_of_runs {pc : WorkerPc μ} (h : pc.runs=true) : pc.holder≠none := by
  cases pc <;> simp_all [runs,holder]

theorem holder_of_marked {pc : WorkerPc μ} (h : pc.marked=true) : pc.holder≠none := by
  cases pc with
  | suspend j pc => cases pc <;> simp_all [marked,holder]
  | idle | markRunning | receive | awaitReady | resume => simp_all [marked,holder]

end WorkerPc

structure Inv (s : State ι κ μ) : Prop where
  placed : Placed (permit s) (lies s)
  launched : s.status=.launched → .launch s.current∈s.scheduler
  running : s.status=.running → ∃ k,(s.workers k).runs=true
  marked : ∀ k,(s.workers k).marked=true → s.box.scheduled=true
  stored : ∀ k,(s.workers k).stored=true → s.box.consumer≠none
  wakes : ∀ j,.wake j∈s.scheduler → s.box.consumer≠none
  sends : ∀ i j,s.senders i=some (.enqueue j) → s.box.consumer≠none
  clearing : ∀ k j,s.workers k=.suspend j .clearScheduled → s.box.consumer=some j
  bound : s.status=.suspended → (∃ k,(s.workers k).holder≠none) ∨ s.box.consumer=some s.current
  fresh : s.box.consumer≠none → s.box.scheduled=false →
    ∀ k,∀ j∈(s.workers k).suspending,j=s.current

namespace Inv

variable {s : State ι κ μ}

theorem placed_one (hc : s.box.consumer=none ∨ s.box.scheduled=true)
    (h : Placed [s.current] (lies s)) : Placed (permit s) (lies s) := by
  rwa [permit,if_pos hc]

/-- Whoever holds a permit holds that of the current incarnation, alone. -/
theorem token (h : Inv s) {p : Place ι κ} {j : Handle} (hp : j∈lies s p) :
    j=s.current ∧ (s.box.consumer=none ∨ s.box.scheduled=true) ∧
      Placed [s.current] (lies s) := by
  have hj : j∈permit s := (h.placed.mem j).mpr ⟨p,hp⟩
  have hpl := h.placed
  unfold permit at hj hpl
  split_ifs at hj hpl with hc
  · exact ⟨List.mem_singleton.mp hj,hc,hpl⟩
  · exact absurd hj List.not_mem_nil

theorem mem_worker {k : κ} {j : Handle} (hk : (s.workers k).holder=some j) :
    j∈lies s (.worker k) := by
  simp [lies,hk]

/-- The permit says what the current incarnation does: it sleeps unless a worker runs it, it waits
to be started, or it has returned. -/
theorem suspended (h : Inv s) {p : Place ι κ} {j : Handle} (hp : j∈lies s p)
    (hr : ∀ k,(s.workers k).runs=true → p≠.worker k)
    (hl : p=.scheduler → .launch s.current∉s.scheduler) (hd : p≠.returned) :
    s.status=.suspended := by
  obtain ⟨-,-,hone⟩ := h.token hp
  cases hs : s.status with
  | suspended => rfl
  | launched =>
    have hm := h.launched hs
    by_cases hps : p=.scheduler
    · exact absurd hm (hl hps)
    · have hempty := hone.elsewhere hp (Ne.symm hps)
      simp only [lies,List.map_eq_nil_iff] at hempty
      simp [hempty] at hm
  | running =>
    obtain ⟨k,hk⟩ := h.running hs
    have hempty := hone.elsewhere hp (hr k hk).symm
    exfalso
    cases hw : s.workers k <;> simp [lies,hw,WorkerPc.holder,WorkerPc.runs] at hempty hk
  | returned =>
    have hempty := hone.elsewhere hp hd.symm
    simp [lies,hs] at hempty

theorem worker_current (h : Inv s) {k : κ} {j : Handle} (hk : (s.workers k).holder=some j) :
    j=s.current :=
  (h.token (mem_worker hk)).1

/-- A worker with the permit has the only one. -/
theorem worker_alone (h : Inv s) {k : κ} {j : Handle} (hk : (s.workers k).holder=some j)
    {p : Place ι κ} (hp : p≠.worker k) : lies s p=[] :=
  (h.token (mem_worker hk)).2.2.elsewhere (mem_worker hk) hp

theorem other_worker (h : Inv s) {k k' : κ} {j : Handle} (hk : (s.workers k).holder=some j)
    (hne : k'≠k) : (s.workers k').holder=none := by
  have hempty := h.worker_alone hk (p := .worker k') (by simpa using hne)
  simpa [lies] using hempty

theorem worker_status (h : Inv s) {k : κ} {j : Handle} (hk : (s.workers k).holder=some j) :
    s.status≠.launched ∧ s.status≠.returned := by
  constructor
  · intro hs
    have hempty := h.worker_alone hk (p := .scheduler) (by simp)
    simp only [lies,List.map_eq_nil_iff] at hempty
    simpa [hempty] using h.launched hs
  · intro hs
    have hempty := h.worker_alone hk (p := .returned) (by simp)
    simp [lies,hs] at hempty

/-- With `scheduled_` clear and a consumer bound, the current incarnation sleeps in `Wait`. -/
theorem asleep (h : Inv s) (hc : s.box.consumer≠none) (hf : s.box.scheduled=false) :
    (∀ p,lies s p=[]) ∧ s.status=.suspended ∧ s.box.consumer=some s.current := by
  have hp : permit s=[] := by simp [permit,hc,hf]
  have empty (p : Place ι κ) : lies s p=[] := by
    apply List.eq_nil_iff_forall_not_mem.mpr
    intro j hj
    have hmem := (h.placed.mem j).mpr ⟨p,hj⟩
    simp [hp] at hmem
  have idle (k : κ) : (s.workers k).holder=none := by simpa [lies] using empty (.worker k)
  have hsus : s.status=.suspended := by
    cases hs : s.status with
    | suspended => rfl
    | launched =>
      have hnil : s.scheduler=[] := by simpa [lies] using empty .scheduler
      simpa [hnil] using h.launched hs
    | running =>
      obtain ⟨k,hk⟩ := h.running hs
      exact absurd (idle k) (WorkerPc.holder_of_runs hk)
    | returned => simpa [lies,hs] using empty .returned
  refine ⟨empty,hsus,(h.bound hsus).resolve_left ?_⟩
  rintro ⟨k,hk⟩
  exact hk (idle k)

/-- An entry of the scheduler is its only one, and nobody else has a permit. -/
theorem scheduler_alone (h : Inv s) {position : Nat} {e : Entry}
    (he : s.scheduler[position]?=some e) :
    e.handle=s.current ∧ s.scheduler=[e] ∧ ∀ p,p≠.scheduler → lies s p=[] := by
  have hm : e∈s.scheduler := List.mem_of_getElem? he
  have hp : e.handle∈lies s .scheduler := List.mem_map_of_mem hm
  obtain ⟨hj,-,hone⟩ := h.token hp
  have hl := hone.eq_singleton hp
  refine ⟨hj,?_,fun p hne => hone.elsewhere hp hne⟩
  obtain ⟨e',hs,-⟩ := List.map_eq_singleton_iff.mp hl
  rw [hs] at hm ⊢
  rw [List.mem_singleton.mp hm]

variable [DecidableEq κ]

theorem setWorker_workers (s : State ι κ μ) (k k' : κ) (b : MailBox μ) (pc : WorkerPc μ) :
    (s.setWorker k b pc).workers k'=if k'=k then pc else s.workers k' := by
  simp [State.setWorker,Function.update_apply]

/-- When the worker with the permit gives it up, no worker has one. -/
theorem none_holds (h : Inv s) {k : κ} {j : Handle} (hk : (s.workers k).holder=some j)
    {b : MailBox μ} {pc : WorkerPc μ} (hh : pc.holder=none) (k' : κ) :
    ((s.setWorker k b pc).workers k').holder=none := by
  rw [setWorker_workers]
  split_ifs with he
  · exact hh
  · exact h.other_worker hk he

/-- A worker without the permit moves on. -/
theorem pass (h : Inv s) {k : κ} {b : MailBox μ} {pc : WorkerPc μ}
    (hc : b.consumer=s.box.consumer) (hf : b.scheduled=s.box.scheduled)
    (hk : (s.workers k).holder=none) (hh : pc.holder=none)
    (hst : pc.stored=true → (s.workers k).stored=true)
    (hs : ∀ j∈pc.suspending,j∈(s.workers k).suspending) : Inv (s.setWorker k b pc) := by
  refine ⟨?_,h.launched,?_,?_,?_,?_,?_,?_,?_,?_⟩
  · have hp : permit (s.setWorker k b pc)=permit s := by
      simp [permit,State.setWorker,hc,hf]
    rw [hp]
    apply h.placed.congr
    intro p
    cases p with
    | worker k' =>
      simp only [lies,setWorker_workers]
      split_ifs with he
      · rw [he,hk,hh]
      · rfl
    | sender i => simp only [lies,State.setWorker,hc]
    | scheduler | returned => rfl
  · intro hrun
    obtain ⟨k',hk'⟩ := h.running hrun
    have hne : k'≠k := fun he => WorkerPc.holder_of_runs hk' (he ▸ hk)
    exact ⟨k',by rwa [setWorker_workers,if_neg hne]⟩
  · intro k' hk'
    change b.scheduled=true
    rw [hf]
    rw [setWorker_workers] at hk'
    split_ifs at hk'
    · exact absurd hh (WorkerPc.holder_of_marked hk')
    · exact h.marked k' hk'
  · intro k' hk'
    change b.consumer≠none
    rw [hc]
    rw [setWorker_workers] at hk'
    split_ifs at hk'
    · exact h.stored k (hst hk')
    · exact h.stored k' hk'
  · intro j hj
    exact hc ▸ h.wakes j hj
  · intro i j hi
    exact hc ▸ h.sends i j hi
  · intro k' j hk'
    change b.consumer=_
    rw [hc]
    rw [setWorker_workers] at hk'
    split_ifs at hk'
    · simp [hk',WorkerPc.holder] at hh
    · exact h.clearing k' j hk'
  · intro hsus
    refine (h.bound hsus).imp ?_ hc.trans
    rintro ⟨k',hk'⟩
    have hne : k'≠k := fun he => hk' (he ▸ hk)
    exact ⟨k',by rwa [setWorker_workers,if_neg hne]⟩
  · intro hcon hflag k' j hj
    change b.consumer≠none at hcon
    change b.scheduled=false at hflag
    rw [hc] at hcon
    rw [hf] at hflag
    rw [setWorker_workers] at hj
    split_ifs at hj
    · exact h.fresh hcon hflag k j (hs j hj)
    · exact h.fresh hcon hflag k' j hj

/-- A worker with the permit moves on and keeps it; `scheduled_` stays set. -/
theorem hold (h : Inv s) {k : κ} {j : Handle} {b : MailBox μ} {pc : WorkerPc μ} {st : Status}
    (hk : (s.workers k).holder=some j) (hh : pc.holder=some j) (hf : b.scheduled=true)
    (hc : ∀ i,owed b.consumer (s.senders i)=owed s.box.consumer (s.senders i))
    (hb : s.box.consumer≠none → b.consumer≠none)
    (hcl : ∀ j',pc=.suspend j' .clearScheduled → b.consumer=some j')
    (hr : st=.running → pc.runs=true) (hl : st≠.launched) (hd : st≠.returned) :
    Inv {s.setWorker k b pc with status := st} := by
  have hj := h.worker_current hk
  have other (k' : κ) (hne : k'≠k) := h.other_worker hk hne
  refine ⟨?_,fun he => absurd he hl,fun he => ⟨k,?_⟩,fun _ _ => hf,?_,
    fun j' hj' => hb (h.wakes j' hj'),fun i j' hi => hb (h.sends i j' hi),?_,
    fun _ => Or.inl ⟨k,?_⟩,fun _ he => ?_⟩
  · refine placed_one (Or.inr hf) (.single (a := .worker k) ?_ ?_)
    · simp [lies,State.setWorker,hh,hj]
    · intro p hp
      have hempty := h.worker_alone hk hp
      cases p with
      | worker k' =>
        have hne : k'≠k := fun he => hp (congrArg _ he)
        simpa [lies,State.setWorker,hne] using hempty
      | sender i =>
        simp only [lies,State.setWorker] at hempty ⊢
        rw [hc]
        exact hempty
      | scheduler => exact hempty
      | returned => simp [lies,hd]
  · simp [State.setWorker,hr he]
  · intro k' hk'
    change ((s.setWorker k b pc).workers k').stored=true at hk'
    rw [setWorker_workers] at hk'
    split_ifs at hk'
    · simp [State.setWorker,hcl j (WorkerPc.clearing_of_stored hk' hh)]
    · exact hb (h.stored k' hk')
  · intro k' j' hk'
    change (s.setWorker k b pc).workers k'=_ at hk'
    rw [setWorker_workers] at hk'
    split_ifs at hk' with he
    · exact hcl j' hk'
    · have hnone := other k' he
      simp [hk',WorkerPc.holder] at hnone
  · simp [State.setWorker,hh]
  · simp [State.setWorker,hf] at he

/-- `await_suspend` clears `scheduled_` and lets go of the permit. -/
theorem clear (h : Inv s) {k : κ} {j : Handle}
    (hk : s.workers k=.suspend j .clearScheduled)
    (ho : ∀ k',∀ j'∈(s.workers k').suspending,j'=j) :
    Inv (s.setWorker k {s.box with scheduled := false} (.suspend j (.recheck .loadIndex))) := by
  have hh : (s.workers k).holder=some j := by simp [hk,WorkerPc.holder]
  have hj := h.worker_current hh
  have hcon := h.clearing k j hk
  have hst := h.worker_status hh
  have hsus : s.status=.suspended := by
    refine h.suspended (mem_worker hh) ?_ (by simp) (by simp)
    intro k' hk' he
    cases he
    simp [hk,WorkerPc.runs] at hk'
  have none_holds (k' : κ) : ((s.setWorker k {s.box with scheduled := false}
      (.suspend j (.recheck .loadIndex))).workers k').holder=none := h.none_holds hh rfl k'
  refine ⟨?_,fun he => absurd he hst.1,?_,?_,?_,h.wakes,h.sends,?_,
    fun _ => Or.inr (hj ▸ hcon),?_⟩
  · have hp : permit (s.setWorker k {s.box with scheduled := false}
        (.suspend j (.recheck .loadIndex)))=[] := by
      simp [permit,State.setWorker,hcon]
    rw [hp]
    apply Placed.nowhere
    intro p
    cases p with
    | worker k' => simp only [lies,none_holds,Option.toList_none]
    | sender i => exact h.worker_alone hh (p := .sender i) (by simp)
    | scheduler => exact h.worker_alone hh (p := .scheduler) (by simp)
    | returned => exact h.worker_alone hh (p := .returned) (by simp)
  · intro hrun
    change s.status=.running at hrun
    simp [hsus] at hrun
  · intro k' hk'
    exact absurd (none_holds k') (WorkerPc.holder_of_marked hk')
  · intro k' _
    simp [State.setWorker,hcon]
  · intro k' j' hk'
    have hnone := none_holds k'
    simp [hk',WorkerPc.holder] at hnone
  · intro _ _ k' j' hj'
    change j'=s.current
    rw [setWorker_workers] at hj'
    split_ifs at hj'
    · cases hj'
      exact hj
    · exact (ho k' j' hj').trans hj

/-- The second exchange of an `await_suspend` wins the flag back. -/
theorem rewin (h : Inv s) {k : κ} {j : Handle} (hk : s.workers k=.suspend j .exchange)
    (hf : s.box.scheduled=false) :
    Inv (s.setWorker k {s.box with scheduled := true} (.resume j)) := by
  have hc : s.box.consumer≠none := h.stored k (by simp [hk,WorkerPc.stored])
  obtain ⟨empty,hsus,hcon⟩ := h.asleep hc hf
  have hj : j=s.current := h.fresh hc hf k j (by simp [hk,WorkerPc.suspending])
  refine ⟨?_,?_,?_,fun _ _ => rfl,fun _ _ => hc,fun _ _ => hc,fun _ _ _ => hc,?_,
    fun _ => Or.inr hcon,fun _ he => by cases he⟩
  · refine placed_one (Or.inr rfl) (.single (a := .worker k) ?_ ?_)
    · simp [lies,State.setWorker,WorkerPc.holder,hj]
    · intro p hp
      cases p with
      | worker k' =>
        have hne : k'≠k := fun he => hp (congrArg _ he)
        have hempty := empty (.worker k')
        simpa [lies,State.setWorker,hne] using hempty
      | sender i => exact empty (.sender i)
      | scheduler => exact empty .scheduler
      | returned => exact empty .returned
  · intro hl
    change s.status=.launched at hl
    simp [hsus] at hl
  · intro hr
    change s.status=.running at hr
    simp [hsus] at hr
  · intro k' j' hk'
    rw [setWorker_workers] at hk'
    split_ifs at hk'
    exact h.clearing k' j' hk'

theorem suspend_step (h : Inv s) {t : State ι κ μ} {k : κ} {j : Handle} {pc : SuspendPc}
    (hk : s.workers k=.suspend j pc) (hn : work s k (.suspend j pc)=some t)
    (ho : settled s (.work k) t) : Inv t := by
  simp only [settled,hk] at ho
  cases pc with
  | storeConsumer =>
    have hh : (s.workers k).holder=some j := by simp [hk,WorkerPc.holder]
    have hst := h.worker_status hh
    cases hn
    refine h.hold hh rfl (h.marked k (by simp [hk,WorkerPc.marked])) ?_ (by simp) ?_ ?_
      hst.1 hst.2
    · intro i
      unfold owed
      split
      · rename_i hi
        exact absurd hi (ho i)
      · rfl
      · rfl
    · intro j' hj'
      cases hj'
      rfl
    · intro hr
      obtain ⟨k',hk'⟩ := h.running hr
      have hne : k'≠k := by
        rintro rfl
        simp [hk,WorkerPc.runs] at hk'
      exact absurd (h.other_worker hh hne) (WorkerPc.holder_of_runs hk')
  | clearScheduled =>
    cases hn
    exact h.clear hk ho
  | recheck pc =>
    have hnone : (s.workers k).holder=none := by simp [hk,WorkerPc.holder]
    have next {pc' : SuspendPc} (hh : (WorkerPc.suspend j pc' : WorkerPc μ).holder=none) :
        Inv (s.setWorker k s.box (.suspend j pc')) :=
      h.pass rfl rfl hnone hh (by simp [hk,WorkerPc.stored]) (by simp [hk,WorkerPc.suspending])
    cases pc with
    | loadIndex =>
      simp only [work,awaitSuspend,canDequeue] at hn
      cases hn
      exact next rfl
    | loadSequence r =>
      simp only [work,awaitSuspend,canDequeue] at hn
      cases hd : decide (0 ≤ signedSub (s.box.mailbox.slot r).sequence (wrap (r+1))) with
      | true =>
        rw [hd] at hn
        cases hn
        exact next rfl
      | false =>
        rw [hd] at hn
        cases hn
        exact h.pass rfl rfl hnone rfl (by simp [WorkerPc.stored])
          (by simp [WorkerPc.suspending])
  | exchange =>
    have hnone : (s.workers k).holder=none := by simp [hk,WorkerPc.holder]
    cases hf : s.box.scheduled with
    | true =>
      simp only [work,awaitSuspend,hf] at hn
      cases hn
      exact h.pass rfl hf.symm hnone rfl (by simp [WorkerPc.stored])
        (by simp [WorkerPc.suspending])
    | false =>
      simp only [work,awaitSuspend,hf] at hn
      cases hn
      exact h.rewin hk hf

theorem work_step (h : Inv s) {t : State ι κ μ} {k : κ}
    (hn : work s k (s.workers k)=some t) (ho : settled s (.work k) t) : Inv t := by
  -- the incarnation runs on: `scheduled_` and `consumer_` stay as they are
  have runs {j : Handle} {b : MailBox μ} {pc : WorkerPc μ}
      (hk : (s.workers k).holder=some j) (hm : (s.workers k).marked=true)
      (hb : b.scheduled=s.box.scheduled ∧ b.consumer=s.box.consumer) (hh : pc.holder=some j)
      (hr : pc.runs=true) : Inv (s.setWorker k b pc) := by
    have hst := h.worker_status hk
    refine h.hold hk hh (hb.1.trans (h.marked k hm)) (fun i => by rw [hb.2]) (hb.2 ▸ id) ?_
      (fun _ => hr) hst.1 hst.2
    rintro j' rfl
    cases hr
  cases hk : s.workers k with
  | idle =>
    rw [hk] at hn
    cases hn
  | markRunning j =>
    have hh : (s.workers k).holder=some j := by simp [hk,WorkerPc.holder]
    have hst := h.worker_status hh
    rw [hk] at hn
    cases hn
    refine h.hold hh rfl rfl (fun _ => rfl) id (by simp) (fun _ => rfl) hst.1 hst.2
  | receive j pc =>
    have hh : (s.workers k).holder=some j := by simp [hk,WorkerPc.holder]
    have hm : (s.workers k).marked=true := by simp [hk,WorkerPc.marked]
    have hf := Wakeup.tryReceive_flags s.box pc
    rw [hk] at hn
    simp only [work] at hn
    split at hn
    all_goals
      rename_i hr
      rw [hr] at hf
      cases hn
      exact runs hh hm hf rfl rfl
  | awaitReady j pc =>
    have hh : (s.workers k).holder=some j := by simp [hk,WorkerPc.holder]
    have hm : (s.workers k).marked=true := by simp [hk,WorkerPc.marked]
    rw [hk] at hn
    simp only [work] at hn
    split at hn
    · cases hn
      exact runs hh hm ⟨rfl,rfl⟩ rfl rfl
    · cases hn
      exact runs hh hm ⟨rfl,rfl⟩ rfl rfl
    · cases hn
      have hs : s.reach j .suspended=.suspended := if_pos (h.worker_current hh)
      rw [hs]
      exact h.hold hh rfl (h.marked k hm) (fun _ => rfl) id (by simp) (by simp) (by simp) (by simp)
  | suspend j pc =>
    rw [hk] at hn
    exact h.suspend_step hk hn ho
  | resume j =>
    have hh : (s.workers k).holder=some j := by simp [hk,WorkerPc.holder]
    have hm : (s.workers k).marked=true := by simp [hk,WorkerPc.marked]
    rw [hk] at hn
    cases hn
    have hs : s.reach j .running=.running := if_pos (h.worker_current hh)
    rw [hs]
    exact h.hold hh rfl (h.marked k hm) (fun _ => rfl) id (by simp) (fun _ => rfl) (by simp)
      (by simp)

/-- A worker takes the entry of an incarnation and starts or resumes it. -/
theorem take (h : Inv s) {k : κ} {position : Nat} {e : Entry} {pc : WorkerPc μ}
    (he : s.scheduler[position]?=some e) (hh : pc.holder=some e.handle) (hr : pc.runs=true)
    (hm : pc.marked=true → ∃ j,e=.wake j) :
    Inv {s.setWorker k s.box pc with
      scheduler := s.scheduler.eraseIdx position
      status := s.reach e.handle .running} := by
  obtain ⟨hj,hl,alone⟩ := h.scheduler_alone he
  have hpos : position=0 := by
    have hlt := (List.getElem?_eq_some_iff.mp he).1
    simp only [hl,List.length_singleton] at hlt
    omega
  have hrun : s.reach e.handle .running=.running := if_pos hj
  have hnil : s.scheduler.eraseIdx position=[] := by rw [hl,hpos]; rfl
  have idle (k' : κ) : (s.workers k').holder=none := by
    simpa [lies] using alone (.worker k') (by simp)
  have hcond : s.box.consumer=none ∨ s.box.scheduled=true :=
    (h.token (p := .scheduler) (j := e.handle) (by simp [lies,hl])).2.1
  rw [hrun,hnil]
  refine ⟨?_,by simp,fun _ => ⟨k,?_⟩,?_,?_,fun _ hw => absurd hw List.not_mem_nil,h.sends,?_,
    by simp,?_⟩
  · refine placed_one hcond (.single (a := .worker k) ?_ ?_)
    · simp [lies,State.setWorker,hh,hj]
    · intro p hp
      cases p with
      | worker k' =>
        have hne : k'≠k := fun he => hp (congrArg _ he)
        simp [lies,State.setWorker,hne,idle k']
      | sender i => exact alone (.sender i) (by simp)
      | scheduler => rfl
      | returned => rfl
  · simp [State.setWorker,hr]
  · intro k' hk'
    change ((s.setWorker k s.box pc).workers k').marked=true at hk'
    rw [setWorker_workers] at hk'
    split_ifs at hk'
    · obtain ⟨j,rfl⟩ := hm hk'
      exact hcond.resolve_left (h.wakes j (by simp [hl]))
    · exact absurd (idle k') (WorkerPc.holder_of_marked hk')
  · intro k' hk'
    change ((s.setWorker k s.box pc).workers k').stored=true at hk'
    rw [setWorker_workers] at hk'
    split_ifs at hk'
    · have hclear := WorkerPc.clearing_of_stored hk' hh
      simp [hclear,WorkerPc.runs] at hr
    · exact h.stored k' hk'
  · intro k' j' hk'
    change (s.setWorker k s.box pc).workers k'=_ at hk'
    rw [setWorker_workers] at hk'
    split_ifs at hk'
    · simp [hk',WorkerPc.runs] at hr
    · exact h.clearing k' j' hk'
  · intro hc hf
    exact absurd (h.asleep hc hf).1 (fun hempty => by
      have := hempty .scheduler
      simp [lies,hl] at this)

/-- The incarnation returns; the flag stays set behind it. -/
theorem finish (h : Inv s) {k : κ} {j : Handle} (hk : (s.workers k).holder=some j)
    (hm : (s.workers k).marked=true) :
    Inv {s.setWorker k s.box .idle with status := s.reach j .returned} := by
  have hf := h.marked k hm
  have hst : s.reach j .returned=.returned := if_pos (h.worker_current hk)
  have none_holds (k' : κ) : ((s.setWorker k s.box .idle).workers k').holder=none :=
    h.none_holds hk rfl k'
  rw [hst]
  refine ⟨?_,by simp,by simp,?_,?_,h.wakes,h.sends,?_,by simp,?_⟩
  · refine placed_one (Or.inr hf) (.single (a := .returned) (by simp [lies,State.setWorker]) ?_)
    intro p hp
    cases p with
    | worker k' => simp only [lies,none_holds,Option.toList_none]
    | sender i => exact h.worker_alone hk (p := .sender i) (by simp)
    | scheduler => exact h.worker_alone hk (p := .scheduler) (by simp)
    | returned => exact absurd rfl hp
  · intro k' hk'
    exact absurd (none_holds k') (WorkerPc.holder_of_marked hk')
  · intro k' hk'
    change ((s.setWorker k s.box .idle).workers k').stored=true at hk'
    rw [setWorker_workers] at hk'
    split_ifs at hk'
    · cases hk'
    · exact h.stored k' hk'
  · intro k' j' hk'
    have hnone := none_holds k'
    change (s.setWorker k s.box .idle).workers k'=_ at hk'
    simp [hk',WorkerPc.holder] at hnone
  · intro _ he
    change s.box.scheduled=false at he
    simp [hf] at he

omit [DecidableEq κ] in
theorem launch (h : Inv s) (hs : s.status=.returned) :
    Inv {s with
      scheduler := s.scheduler++[.launch (s.current+1)]
      current := s.current+1
      status := .launched} := by
  have hmem : s.current∈lies s .returned := by simp [lies,hs]
  obtain ⟨-,hcond,hone⟩ := h.token hmem
  have hnil : s.scheduler=[] := by
    simpa [lies] using hone.elsewhere hmem (p := .scheduler) (by simp)
  have idle (k : κ) : (s.workers k).holder=none := by
    simpa [lies] using hone.elsewhere hmem (p := .worker k) (by simp)
  refine ⟨?_,by simp,by simp,h.marked,h.stored,?_,h.sends,h.clearing,by simp,?_⟩
  · refine placed_one hcond (.single (a := .scheduler) (by simp [lies,hnil,Entry.handle]) ?_)
    intro p hp
    cases p with
    | worker k => simp [lies,idle k]
    | sender i => exact hone.elsewhere hmem (p := .sender i) (by simp)
    | scheduler => exact absurd rfl hp
    | returned => rfl
  · intro j hj
    simp [hnil] at hj
  · intro hc hf
    have hempty := (h.asleep hc hf).1 .returned
    simp [lies,hs] at hempty

section Senders

variable [DecidableEq ι] {i : ι} {b : MailBox μ} {x : Option (SendPc μ)}

omit [DecidableEq κ] in
/-- A sender moves on with the permit that it has, or without one. -/
theorem sendPass (h : Inv s) (hc : b.consumer=s.box.consumer)
    (hf : b.scheduled=s.box.scheduled)
    (ho : owed s.box.consumer x=owed s.box.consumer (s.senders i))
    (hx : ∀ j,x=some (.enqueue j) → s.box.consumer≠none) :
    Inv {s with box := b, senders := Function.update s.senders i x} := by
  have hp : permit ({s with box := b, senders := Function.update s.senders i x})=permit s := by
    simp [permit,hc,hf]
  refine ⟨?_,h.launched,h.running,?_,?_,?_,?_,?_,?_,?_⟩
  · rw [hp]
    apply h.placed.congr
    intro p
    cases p with
    | sender i' =>
      simp only [lies,hc,Function.update_apply]
      split_ifs with he
      · rw [ho,he]
      · rfl
    | worker | scheduler | returned => rfl
  · intro k hk
    exact hf.trans (h.marked k hk)
  · intro k hk
    exact hc ▸ h.stored k hk
  · intro j hj
    exact hc ▸ h.wakes j hj
  · intro i' j hj
    change Function.update s.senders i x i'=_ at hj
    rw [Function.update_apply] at hj
    change b.consumer≠none
    rw [hc]
    split_ifs at hj
    · exact hx j hj
    · exact h.sends i' j hj
  · intro k j hk
    exact hc.trans (h.clearing k j hk)
  · intro hsus
    exact (h.bound hsus).imp id hc.trans
  · intro hcon hflag
    exact h.fresh (hc ▸ hcon) (hf ▸ hflag)

omit [DecidableEq κ] in
/-- The exchange of a `Send` sets the flag; with a consumer bound the sender now owes the
wake-up. -/
theorem sendWin (h : Inv s) (hi : s.senders i=some .exchange) (hf : s.box.scheduled=false) :
    Inv {s with
      box := {s.box with scheduled := true}
      senders := Function.update s.senders i (some .loadConsumer)} := by
  have hsends : ∀ i' j,Function.update s.senders i (some .loadConsumer) i'=some (.enqueue j) →
      s.box.consumer≠none := by
    intro i' j hj
    rw [Function.update_apply] at hj
    split_ifs at hj
    · simp at hj
    · exact h.sends i' j hj
  refine ⟨?_,h.launched,h.running,fun _ _ => rfl,h.stored,h.wakes,hsends,h.clearing,h.bound,
    fun _ he => by simp at he⟩
  apply placed_one (Or.inr rfl)
  by_cases hc : s.box.consumer=none
  · -- nothing to enqueue: the permit stays where it is
    have hpl := h.placed
    rw [permit,if_pos (Or.inl hc)] at hpl
    apply hpl.congr
    intro p
    cases p with
    | sender i' =>
      simp only [lies,Function.update_apply]
      split_ifs with he
      · simp [he,hi,owed,hc]
      · rfl
    | worker | scheduler | returned => rfl
  · obtain ⟨empty,-,hcon⟩ := h.asleep hc hf
    refine .single (a := .sender i) (by simp [lies,owed,hcon]) ?_
    intro p hp
    cases p with
    | sender i' =>
      have hne : i'≠i := fun he => hp (congrArg _ he)
      have hempty := empty (.sender i')
      simpa [lies,hne] using hempty
    | worker k => exact empty (.worker k)
    | scheduler => exact empty .scheduler
    | returned => exact empty .returned

omit [DecidableEq ι] [DecidableEq κ] in
/-- A sender with the permit: the current incarnation sleeps and its handle is bound. -/
theorem sender_alone (h : Inv s) {j : Handle} (hi : owed s.box.consumer (s.senders i)=some j) :
    j=s.current ∧ s.status=.suspended ∧ ∀ p,p≠.sender i → lies s p=[] := by
  have hm : j∈lies s (.sender i) := by simp [lies,hi]
  obtain ⟨hj,-,hone⟩ := h.token hm
  exact ⟨hj,h.suspended hm (by simp) (by simp) (by simp),fun p hp => hone.elsewhere hm hp⟩

omit [DecidableEq κ] in
theorem sendEnqueue (h : Inv s) {j : Handle} (hi : s.senders i=some (.enqueue j)) :
    Inv {s with
      scheduler := s.scheduler++[.wake j]
      senders := Function.update s.senders i none} := by
  have ho : owed s.box.consumer (s.senders i)=some j := by simp [hi,owed]
  obtain ⟨hj,hsus,alone⟩ := h.sender_alone ho
  have hcond := (h.token (p := .sender i) (j := j) (by simp [lies,ho])).2.1
  have hnil : s.scheduler=[] := by simpa [lies] using alone .scheduler (by simp)
  have hc := h.sends i j hi
  refine ⟨?_,?_,h.running,h.marked,h.stored,fun _ _ => hc,fun _ _ _ => hc,h.clearing,h.bound,
    h.fresh⟩
  · refine placed_one hcond (.single (a := .scheduler) (by simp [lies,hnil,Entry.handle,hj]) ?_)
    intro p hp
    cases p with
    | sender i' =>
      by_cases he : i'=i
      · simp [lies,he,owed]
      · have hempty := alone (.sender i') (by simpa using he)
        simpa [lies,he] using hempty
    | worker k => exact alone (.worker k) (by simp)
    | scheduler => exact absurd rfl hp
    | returned => exact alone .returned (by simp)
  · intro hl
    change s.status=.launched at hl
    simp [hsus] at hl

omit [DecidableEq κ] in
theorem send_step (h : Inv s) {t : State ι κ μ} {spurious : Bool} {pc : SendPc μ}
    (hi : s.senders i=some pc)
    (ht : t={s with
      box := (s.box.send s.done spurious pc).1
      scheduler := s.scheduler++((s.box.send s.done spurious pc).2.1.map Entry.wake).toList
      senders := Function.update s.senders i (s.box.send s.done spurious pc).2.2.pc?}) :
    Inv t := by
  subst ht
  cases pc with
  | tryEnqueue m pc =>
    simp only [MailBox.send]
    split
    all_goals
      simp only [Option.map_none,Option.toList_none,List.append_nil,Control.pc?]
      exact h.sendPass rfl rfl (by simp [hi,owed]) (by simp)
  | exchange =>
    cases hf : s.box.scheduled with
    | true =>
      simp only [MailBox.send,hf,if_true,Option.map_none,Option.toList_none,List.append_nil,
        Control.pc?]
      exact h.sendPass rfl hf.symm (by simp [hi,owed]) (by simp)
    | false =>
      simp only [MailBox.send,hf,Bool.false_eq_true,if_false,Option.map_none,Option.toList_none,
        List.append_nil,Control.pc?]
      exact h.sendWin hi hf
  | loadConsumer =>
    cases hc : s.box.consumer with
    | none =>
      simp only [MailBox.send,hc,Option.map_none,Option.toList_none,List.append_nil,Control.pc?]
      exact h.sendPass rfl rfl (by simp [hi,owed,hc]) (by simp)
    | some j =>
      obtain ⟨hj,hsus,-⟩ := h.sender_alone (i := i) (j := j) (by simp [hi,owed,hc])
      have hd : s.done j=false := by simp [State.done,hj,hsus]
      simp only [MailBox.send,hc,hd,Bool.false_eq_true,if_false,Option.map_none,
        Option.toList_none,List.append_nil,Control.pc?]
      exact h.sendPass rfl rfl (by simp [hi,owed,hc]) (by simp [hc])
  | enqueue j => exact h.sendEnqueue hi
  | release m =>
    simp only [MailBox.send,Option.map_none,Option.toList_none,List.append_nil,Control.pc?]
    exact h.sendPass rfl rfl (by simp [hi,owed]) (by simp)
  | countDiscarded =>
    simp only [MailBox.send,Option.map_none,Option.toList_none,List.append_nil,Control.pc?]
    exact h.sendPass rfl rfl (by simp [hi,owed]) (by simp)

theorem next {t : State ι κ μ} {a : Action ι κ μ} (h : Inv s) (hn : next s a=some t)
    (ho : settled s a t) : Inv t := by
  cases a with
  | call i m =>
    simp only [Reuse.next] at hn
    split at hn
    · rename_i hi
      cases hn
      exact h.sendPass rfl rfl (by simp [hi,owed,SendPc.start]) (by simp [SendPc.start])
    · cases hn
  | send i spurious =>
    cases hi : s.senders i with
    | none => simp [Reuse.next,hi] at hn
    | some pc =>
      simp only [Reuse.next,hi,Option.some.injEq] at hn
      exact h.send_step hi hn.symm
  | take k position =>
    simp only [Reuse.next] at hn
    split at hn
    · rename_i j _ he
      cases hn
      exact h.take he rfl rfl (by simp [WorkerPc.marked])
    · rename_i j _ he
      cases hn
      exact h.take he rfl rfl fun _ => ⟨j,rfl⟩
    · cases hn
  | work k => exact h.work_step hn ho
  | finish k =>
    simp only [Reuse.next] at hn
    split at hn
    · rename_i j hk
      cases hn
      exact h.finish (by simp [hk,WorkerPc.holder]) (by simp [hk,WorkerPc.marked])
    · cases hn
  | launch =>
    simp only [Reuse.next] at hn
    split at hn
    · rename_i hs
      cases hn
      exact h.launch hs
    · cases hn

end Senders

end Inv

theorem init_inv (size : Nat) : Inv (init size : State ι κ μ) := by
  refine ⟨Inv.placed_one (Or.inl rfl) (.single (a := .scheduler) rfl ?_),
    fun _ => List.mem_singleton_self _,?_,?_,?_,?_,?_,?_,?_,?_⟩
  · intro p hp
    cases p with
    | scheduler => exact absurd rfl hp
    | worker | sender | returned => rfl
  all_goals simp [init,MailBox.new,WorkerPc.marked,WorkerPc.stored]

section Runs

variable [DecidableEq ι] [DecidableEq κ]

theorem reachable_inv {s : State ι κ μ} (h : (machine ι κ μ).ReachableBy settled s) : Inv s := by
  apply h.invariant
  · intro x hx
    obtain ⟨size,-,rfl⟩ := hx
    exact init_inv size
  · intro x a y hx hn ho
    exact hx.next hn ho

/-- Whoever resumes a consumer, the scheduler after a `Send` or an `await_suspend` that returns
`false`, resumes the current incarnation while it sleeps in `Wait`; and an `await_suspend` of an
earlier incarnation finds `scheduled_` set, so it takes nobody's wake-up. -/
theorem resumes_current {s : State ι κ μ} (h : (machine ι κ μ).ReachableBy settled s) :
    (∀ j,.wake j∈s.scheduler → j=s.current ∧ s.status=.suspended) ∧
    (∀ k j,s.workers k=.resume j → j=s.current ∧ s.status=.suspended) ∧
    ∀ k j,s.workers k=.suspend j .exchange → j≠s.current → s.box.scheduled=true := by
  have hi := reachable_inv h
  refine ⟨?_,?_,?_⟩
  · intro j hj
    obtain ⟨n,hn⟩ := List.mem_iff_getElem?.mp hj
    obtain ⟨hc,hl,-⟩ := hi.scheduler_alone hn
    refine ⟨hc,hi.suspended (p := .scheduler) (j := j) ?_ (by simp) ?_ (by simp)⟩
    · simp [lies,hl,Entry.handle]
    · simp [hl]
  · intro k j hk
    have hh : (s.workers k).holder=some j := by simp [hk,WorkerPc.holder]
    refine ⟨hi.worker_current hh,hi.suspended (Inv.mem_worker hh) ?_ (by simp) (by simp)⟩
    intro k' hk' he
    cases he
    simp [hk,WorkerPc.runs] at hk'
  · intro k j hk hne
    have hc := hi.stored k (by simp [hk,WorkerPc.stored])
    by_contra hf
    exact hne (hi.fresh hc (by simpa using hf) k j (by simp [hk,WorkerPc.suspending]))

end Runs

/-- The first incarnation returns at once; the second one sleeps when a message comes, and the
scheduler has its handle. -/
theorem resumes_current_second :
    ∃ s : State (Fin 1) (Fin 1) Nat,(machine (Fin 1) (Fin 1) Nat).ReachableBy settled s ∧
      s.scheduler=[.wake 1] ∧ 1=s.current ∧ s.status=.suspended := by
  obtain ⟨s,hs,hp⟩ := (machine (Fin 1) (Fin 1) Nat).exists_reachableBy settled
    (List.flatten [[.take 0 0,.work 0,.finish 0,.launch,.take 0 0],List.replicate 9 (.work 0),
      [.call 0 6],List.replicate 8 (.send 0 false)])
    (fun s => decide (s.scheduler=[.wake 1])) ⟨2,rfl⟩ (by decide +kernel)
  have hw := of_decide_eq_true hp
  obtain ⟨hc,hst⟩ := (resumes_current hs).1 1 (by simp [hw])
  exact ⟨s,hs,hw,hc,hst⟩

/-- An `await_suspend` of the first incarnation, still under way after that has returned, wins the
flag while the second one sleeps: it is about to resume the first, and the `Send` whose message
came in has done nothing. And a `Send` that won the flag before the first incarnation bound its
handle enqueues it all the same, so a second entry is there while it runs. -/
theorem dead_consumer_resumed :
    (∃ s : State (Fin 1) (Fin 2) Nat,(machine (Fin 1) (Fin 2) Nat).Reachable s ∧
      s.workers 0=.resume 0 ∧ s.current=1 ∧ s.status=.suspended ∧ s.workers 1=.idle ∧
      s.scheduler=[] ∧ s.senders 0=none ∧ s.box.mailbox.headPublished=true) ∧
    ∃ s : State (Fin 1) (Fin 2) Nat,(machine (Fin 1) (Fin 2) Nat).Reachable s ∧
      .wake 0∈s.scheduler ∧ s.current=0 ∧ s.status=.running := by
  constructor
  · obtain ⟨s,hs,hp⟩ := (machine (Fin 1) (Fin 2) Nat).exists_reachableBy Machine.anyStep
      (List.flatten [[.take 0 0],List.replicate 7 (.work 0),[.call 0 5],
        List.replicate 8 (.send 0 false),[.take 1 0],List.replicate 7 (.work 1),
        [.finish 1,.launch,.take 1 0],List.replicate 9 (.work 1),[.call 0 6],
        List.replicate 5 (.send 0 false),List.replicate 3 (.work 0),[.send 0 false]])
      (fun s => decide (s.workers 0=.resume 0 ∧ s.current=1 ∧ s.status=.suspended ∧
        s.workers 1=.idle ∧ s.scheduler=[] ∧ s.senders 0=none ∧
        s.box.mailbox.headPublished=true)) ⟨2,rfl⟩ (by decide +kernel)
    exact ⟨s,hs,of_decide_eq_true hp⟩
  · obtain ⟨s,hs,hp⟩ := (machine (Fin 1) (Fin 2) Nat).exists_reachableBy Machine.anyStep
      (List.flatten [[.call 0 5],List.replicate 6 (.send 0 false),[.take 0 0],
        List.replicate 16 (.work 0),List.replicate 2 (.send 0 false),[.call 0 6],
        List.replicate 8 (.send 0 false),[.take 0 0]])
      (fun s => decide (.wake 0∈s.scheduler ∧ s.current=0 ∧ s.status=.running))
      ⟨2,rfl⟩ (by decide +kernel)
    exact ⟨s,hs,of_decide_eq_true hp⟩

end Acnet.Reuse
