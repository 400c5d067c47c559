import Acnet.Framework.Threads
import Acnet.MailBox.MailBox

namespace Acnet.Wakeup

open MailBox MailQueue

variable {ι κ μ : Type}

/-- A thread that may run the consumer coroutine: its body is the loop
`while (try_receive) ...; co_await Wait()`, entered through `MarkRunning`. -/
inductive WorkerPc (μ : Type) where
  | idle
  | markRunning
  | receive (pc : ReceivePc μ)
  | awaitReady (pc : CanDequeuePc)
  | suspend (pc : SuspendPc)
  | resume
  deriving DecidableEq

/-- One mailbox, its senders, the worker threads, and the handles that sit in the scheduler.
`started` says whether the coroutine has left its initial suspension. -/
structure State (ι κ μ : Type) where
  box : MailBox μ
  senders : ι → Option (SendPc μ)
  workers : κ → WorkerPc μ
  scheduler : List Handle
  started : Bool

inductive Action (ι μ : Type) (κ : Type) where
  | call (i : ι) (message : μ)
  | send (i : ι) (spurious : Bool)
  | take (k : κ) (position : Nat)
  | work (k : κ)

/-- The consumer `handle` is bound with `ArmConsumer` and enqueued once. -/
def init (size : Nat) (handle : Handle) : State ι κ μ where
  box := (MailBox.new size).armConsumer handle
  senders _ := none
  workers _ := .idle
  scheduler := [handle]
  started := false

section Next

variable [DecidableEq ι] [DecidableEq κ]

def setWorker (s : State ι κ μ) (k : κ) (b : MailBox μ) (pc : WorkerPc μ) : State ι κ μ :=
  {s with box := b, workers := Function.update s.workers k pc}

/-- One access of the coroutine `handle` on worker `k`. The body never returns. -/
def work (handle : Handle) (s : State ι κ μ) (k : κ) : WorkerPc μ → Option (State ι κ μ)
  | .idle => none
  | .markRunning => some (setWorker s k s.box.markRunning (.receive .start))
  | .receive pc =>
      match s.box.tryReceive pc with
      | (b,.running pc') => some (setWorker s k b (.receive pc'))
      | (b,.returned (some _)) => some (setWorker s k b (.receive .start))
      | (b,.returned none) => some (setWorker s k b (.awaitReady .loadIndex))
  | .awaitReady pc =>
      match s.box.mailbox.canDequeue pc with
      | .running pc' => some (setWorker s k s.box (.awaitReady pc'))
      | .returned true => some (setWorker s k s.box (.receive .start))
      | .returned false => some (setWorker s k s.box (.suspend .storeConsumer))
  | .suspend pc =>
      match s.box.awaitSuspend handle pc with
      | (b,.running pc') => some (setWorker s k b (.suspend pc'))
      | (b,.returned false) => some (setWorker s k b .resume)
      | (b,.returned true) => some (setWorker s k b .idle)
  | .resume => some (setWorker s k s.box (.receive .start))

def next (handle : Handle) (s : State ι κ μ) : Action ι μ κ → Option (State ι κ μ)
  | .call i m =>
      match s.senders i with
      | none => some {s with senders := Function.update s.senders i (some (.start m))}
      | some _ => none
  | .send i spurious =>
      match s.senders i with
      | none => none
      | some pc =>
          let (b,task,control) := s.box.send (fun _ => false) spurious pc
          some {s with
            box := b
            scheduler := s.scheduler++task.toList
            senders := Function.update s.senders i
              (match control with | .running pc' => some pc' | .returned _ => none)}
  | .take k position =>
      match s.workers k,s.scheduler[position]? with
      | .idle,some _ =>
          some {s with
            scheduler := s.scheduler.eraseIdx position
            workers := Function.update s.workers k
              (if s.started then .receive .start else .markRunning)
            started := true}
      | _,_ => none
  | .work k => work handle s k (s.workers k)

/-- Any number of senders and workers around one mailbox of at least two slots. -/
def machine (ι κ μ : Type) [DecidableEq ι] [DecidableEq κ] (handle : Handle) :
    Machine (State ι κ μ) (Action ι μ κ) where
  start s := ∃ size,2 ≤ bitCeil size ∧ s=init size handle
  next := next handle

end Next

/-- The worker executes the consumer's body: from its resumption to the moment
`await_suspend` clears `scheduled_`. -/
def WorkerPc.executes : WorkerPc μ → Bool
  | .markRunning | .receive _ | .awaitReady _ => true
  | .suspend .storeConsumer | .suspend .clearScheduled => true
  | _ => false

/-- `await_suspend` won the flag back and is about to return `false`. -/
def WorkerPc.returnsFalse : WorkerPc μ → Bool
  | .resume => true
  | _ => false

/-- The sender won `scheduled_.exchange(true)` and has not called `Enqueue` yet. -/
def owesEnqueue : Option (SendPc μ) → Bool
  | some .loadConsumer | some (.enqueue _) => true
  | _ => false

/-- The worker is inside `await_suspend` after clearing `scheduled_`, and its second
`can_dequeue` has found or will find the present head. -/
def SeesHead (q : MailQueue μ) : WorkerPc μ → Prop
  | .suspend (.recheck .loadIndex) => True
  | .suspend (.recheck (.loadSequence r)) => r=q.readIndex
  | .suspend .exchange => True
  | _ => False

/-- Somebody is on the way to `scheduled_.exchange(true)`. -/
def Awake (s : State ι κ μ) : Prop :=
  (∃ i,s.senders i=some .exchange) ∨ ∃ k,SeesHead s.box.mailbox (s.workers k)

variable {handle : Handle} {s t : State ι κ μ}

theorem Awake.setWorker [DecidableEq κ] (h : Awake s) (k : κ) (b : MailBox μ)
    (pc : WorkerPc μ) (hr : b.mailbox.readIndex=s.box.mailbox.readIndex)
    (hk : SeesHead s.box.mailbox (s.workers k) → SeesHead b.mailbox pc) :
    Awake (setWorker s k b pc) := by
  rcases h with ⟨i,hi⟩ | ⟨j,hj⟩
  · exact Or.inl ⟨i,hi⟩
  · refine Or.inr ⟨j,?_⟩
    simp only [Wakeup.setWorker]
    by_cases he : j=k
    · subst j
      rw [Function.update_self]
      exact hk hj
    · rw [Function.update_of_ne he]
      unfold SeesHead at hj ⊢
      split <;> simp_all

/-- A sender that is not at the exchange is not the one the consumer waits for. -/
theorem Awake.setSender [DecidableEq ι] (h : Awake s) (i : ι) (b : MailBox μ) (tasks : List Handle)
    (x : Option (SendPc μ)) (hr : b.mailbox.readIndex=s.box.mailbox.readIndex)
    (hi : s.senders i≠some .exchange) :
    Awake {s with box := b, scheduler := tasks, senders := Function.update s.senders i x} := by
  rcases h with ⟨j,hj⟩ | ⟨k,hk⟩
  · have hne : j≠i := fun e => hi (e ▸ hj)
    exact Or.inl ⟨j,by simpa [hne] using hj⟩
  · refine Or.inr ⟨k,?_⟩
    unfold SeesHead at hk ⊢
    split <;> simp_all

/-- Only the publishing store of `try_enqueue` can publish the head. -/
theorem tryEnqueue_head (m : μ) (spurious : Bool) (q : MailQueue μ) (pc : EnqueuePc) :
    (q.tryEnqueue m spurious pc).1.readIndex=q.readIndex ∧
    ((q.tryEnqueue m spurious pc).2≠.returned true →
      (q.tryEnqueue m spurious pc).1.headPublished=q.headPublished) := by
  cases pc with
  | loadIndex => simp [tryEnqueue]
  | loadSequence w =>
    simp only [tryEnqueue]
    split_ifs <;> simp
  | compareExchange w =>
    simp only [tryEnqueue]
    split_ifs
    · exact ⟨rfl,fun _ => rfl⟩
    · simp
  | writeMessage w =>
    refine ⟨rfl,fun _ => ?_⟩
    have hs : ((q.setSlot w {q.slot w with message := some m}).slot q.readIndex).sequence=
        (q.slot q.readIndex).sequence := by
      rw [slot_setSlot]
      split_ifs with h
      · simp [slot,h]
      · rfl
    simp [tryEnqueue,headPublished,hs]
  | storeSequence w => simp [tryEnqueue]

theorem tryReceive_flags (b : MailBox μ) (pc : ReceivePc μ) :
    (b.tryReceive pc).1.scheduled=b.scheduled ∧ (b.tryReceive pc).1.consumer=b.consumer := by
  cases pc with
  | tryDequeue pc =>
    simp only [tryReceive]
    split <;> simp
  | countSolved m => simp [tryReceive]

variable [Fintype ι] [Fintype κ]

def permits (s : State ι κ μ) : Nat :=
  countThreads WorkerPc.executes s.workers+s.scheduler.length+
    countThreads owesEnqueue s.senders+countThreads WorkerPc.returnsFalse s.workers

structure Inv (handle : Handle) (s : State ι κ μ) : Prop where
  permit : permits s=s.box.scheduled.toNat
  consumer : s.box.consumer=some handle
  wake : s.box.mailbox.headPublished=true → s.box.scheduled=false → Awake s

/-- Whoever holds a permit finds the flag set. -/
theorem Inv.scheduled (h : Inv handle s) (hp : 0<permits s) : s.box.scheduled=true := by
  have he := h.permit
  cases hs : s.box.scheduled with
  | true => rfl
  | false =>
    rw [hs,Bool.toNat_false] at he
    omega

theorem Inv.scheduled_of_worker (h : Inv handle s) (k : κ)
    (hk : (s.workers k).executes=true ∨ (s.workers k).returnsFalse=true) :
    s.box.scheduled=true := by
  apply h.scheduled
  unfold permits
  rcases hk with hk | hk
  · have := (countThreads_pos_iff WorkerPc.executes s.workers).mpr ⟨k,hk⟩
    omega
  · have := (countThreads_pos_iff WorkerPc.returnsFalse s.workers).mpr ⟨k,hk⟩
    omega

theorem Inv.scheduled_of_sender (h : Inv handle s) (i : ι)
    (hi : owesEnqueue (s.senders i)=true) : s.box.scheduled=true := by
  apply h.scheduled
  have := (countThreads_pos_iff owesEnqueue s.senders).mpr ⟨i,hi⟩
  unfold permits
  omega

section Worker

variable [DecidableEq κ]

theorem permits_setWorker (s : State ι κ μ) (k : κ) (b : MailBox μ) (pc : WorkerPc μ) :
    permits (setWorker s k b pc)+(s.workers k).executes.toNat+
        (s.workers k).returnsFalse.toNat=
      permits s+pc.executes.toNat+pc.returnsFalse.toNat := by
  have he := countThreads_update WorkerPc.executes s.workers k pc
  have hr := countThreads_update WorkerPc.returnsFalse s.workers k pc
  simp only [permits,setWorker]
  omega

/-- A worker that moves with the flag set keeps the invariant as long as its permit moves
along. -/
theorem Inv.setWorker (h : Inv handle s) (k : κ) (b : MailBox μ) (pc : WorkerPc μ)
    (hc : b.consumer=some handle)
    (hp : s.box.scheduled.toNat+pc.executes.toNat+pc.returnsFalse.toNat=
      b.scheduled.toNat+(s.workers k).executes.toNat+(s.workers k).returnsFalse.toNat)
    (hw : b.mailbox.headPublished=true → b.scheduled=false → Awake (setWorker s k b pc)) :
    Inv handle (setWorker s k b pc) := by
  refine ⟨?_,hc,hw⟩
  have hm := permits_setWorker s k b pc
  have he := h.permit
  change _=b.scheduled.toNat
  omega

theorem Inv.suspend_step (h : Inv handle s) (k : κ) (pc : SuspendPc)
    (hk : s.workers k=.suspend pc) (hn : work handle s k (.suspend pc)=some t) :
    Inv handle t := by
  have exec (hx : (s.workers k).executes=true) := h.scheduled_of_worker k (Or.inl hx)
  cases pc with
  | storeConsumer =>
    have hs := exec (by simp [hk,WorkerPc.executes])
    simp only [work,awaitSuspend] at hn
    cases hn
    refine h.setWorker k _ _ rfl ?_ ?_
    · simp [hk,WorkerPc.executes,WorkerPc.returnsFalse]
    · simp [hs]
  | clearScheduled =>
    have hs := exec (by simp [hk,WorkerPc.executes])
    simp only [work,awaitSuspend] at hn
    cases hn
    -- From here a sender may have the coroutine resumed elsewhere; this call still rechecks.
    refine h.setWorker k _ _ h.consumer ?_ ?_
    · simp [hk,hs,WorkerPc.executes,WorkerPc.returnsFalse]
    · intro _ _
      exact Or.inr ⟨k,by simp [Wakeup.setWorker,SeesHead]⟩
  | recheck pc =>
    cases pc with
    | loadIndex =>
      simp only [work,awaitSuspend,canDequeue] at hn
      cases hn
      refine h.setWorker k _ _ h.consumer ?_ ?_
      · simp [hk,WorkerPc.executes,WorkerPc.returnsFalse]
      · intro hp hs
        exact (h.wake hp hs).setWorker k _ _ rfl (by simp [SeesHead])
    | loadSequence r =>
      simp only [work,awaitSuspend,canDequeue] at hn
      cases hd : decide (0 ≤ signedSub (s.box.mailbox.slot r).sequence (wrap (r+1))) with
      | true =>
        rw [hd] at hn
        cases hn
        refine h.setWorker k _ _ h.consumer ?_ ?_
        · simp [hk,WorkerPc.executes,WorkerPc.returnsFalse]
        · intro hp hs
          exact (h.wake hp hs).setWorker k _ _ rfl (by simp [SeesHead])
      | false =>
        rw [hd] at hn
        cases hn
        refine h.setWorker k _ _ h.consumer ?_ ?_
        · simp [hk,WorkerPc.executes,WorkerPc.returnsFalse]
        · intro hp hs
          refine (h.wake hp hs).setWorker k _ _ rfl ?_
          intro hsee
          rw [hk] at hsee
          -- The call gives up only on a head that is not published.
          obtain rfl : r=s.box.mailbox.readIndex := hsee
          exact absurd (hd.symm.trans hp) (by decide)
  | exchange =>
    cases hs : s.box.scheduled with
    | true =>
      simp only [work,awaitSuspend,hs] at hn
      cases hn
      refine h.setWorker k _ _ h.consumer ?_ ?_
      · simp [hk,hs,WorkerPc.executes,WorkerPc.returnsFalse]
      · simp
    | false =>
      simp only [work,awaitSuspend,hs] at hn
      cases hn
      refine h.setWorker k _ _ h.consumer ?_ ?_
      · simp [hk,hs,WorkerPc.executes,WorkerPc.returnsFalse]
      · simp

theorem Inv.work_step (h : Inv handle s) (k : κ)
    (hn : work handle s k (s.workers k)=some t) : Inv handle t := by
  have exec (hx : (s.workers k).executes=true) := h.scheduled_of_worker k (Or.inl hx)
  cases hk : s.workers k with
  | idle =>
    rw [hk] at hn
    simp [work] at hn
  | markRunning =>
    have hs := exec (by simp [hk,WorkerPc.executes])
    rw [hk] at hn
    cases hn
    refine h.setWorker k _ _ h.consumer ?_ ?_
    · simp [hk,hs,MailBox.markRunning,WorkerPc.executes,WorkerPc.returnsFalse]
    · simp [MailBox.markRunning]
  | receive pc =>
    have hs := exec (by simp [hk,WorkerPc.executes])
    have hf := tryReceive_flags s.box pc
    rw [hk] at hn
    simp only [work] at hn
    split at hn
    all_goals
      rename_i hr
      simp only [hr] at hf
      cases hn
      refine h.setWorker k _ _ (hf.2.trans h.consumer) ?_ ?_
      · simp [hk,hf.1,WorkerPc.executes,WorkerPc.returnsFalse]
      · simp [hf.1,hs]
  | awaitReady pc =>
    have hs := exec (by simp [hk,WorkerPc.executes])
    rw [hk] at hn
    simp only [work] at hn
    split at hn
    all_goals
      cases hn
      refine h.setWorker k _ _ h.consumer ?_ ?_
      · simp [hk,WorkerPc.executes,WorkerPc.returnsFalse]
      · simp [hs]
  | suspend pc =>
    rw [hk] at hn
    exact h.suspend_step k pc hk hn
  | resume =>
    have hs := h.scheduled_of_worker k (Or.inr (by simp [hk,WorkerPc.returnsFalse]))
    rw [hk] at hn
    cases hn
    refine h.setWorker k _ _ h.consumer ?_ ?_
    · simp [hk,WorkerPc.executes,WorkerPc.returnsFalse]
    · simp [hs]

end Worker

section Sender

variable [DecidableEq ι]

theorem permits_sender (s : State ι κ μ) (i : ι) (b : MailBox μ) (task : Option Handle)
    (x : Option (SendPc μ)) :
    permits {s with
        box := b
        scheduler := s.scheduler++task.toList
        senders := Function.update s.senders i x}+(owesEnqueue (s.senders i)).toNat=
      permits s+(owesEnqueue x).toNat+task.toList.length := by
  have ho := countThreads_update owesEnqueue s.senders i x
  simp only [permits,List.length_append]
  omega

theorem Inv.setSender (h : Inv handle s) (i : ι) (b : MailBox μ) (task : Option Handle)
    (x : Option (SendPc μ)) (hc : b.consumer=some handle)
    (hp : s.box.scheduled.toNat+(owesEnqueue x).toNat+task.toList.length=
      b.scheduled.toNat+(owesEnqueue (s.senders i)).toNat)
    (hw : b.mailbox.headPublished=true → b.scheduled=false →
      Awake {s with
        box := b
        scheduler := s.scheduler++task.toList
        senders := Function.update s.senders i x}) :
    Inv handle {s with
      box := b
      scheduler := s.scheduler++task.toList
      senders := Function.update s.senders i x} := by
  refine ⟨?_,hc,hw⟩
  have hm := permits_sender s i b task x
  have he := h.permit
  change _=b.scheduled.toNat
  omega

end Sender

theorem init_inv (size : Nat) (handle : Handle) : Inv handle (init size handle : State ι κ μ) where
  permit := by
    have h1 := (countThreads_eq_zero_iff (WorkerPc.executes (μ := μ))
      fun _ : κ => .idle).mpr fun _ => rfl
    have h2 := (countThreads_eq_zero_iff (WorkerPc.returnsFalse (μ := μ))
      fun _ : κ => .idle).mpr fun _ => rfl
    have h3 := (countThreads_eq_zero_iff (owesEnqueue (μ := μ))
      fun _ : ι => none).mpr fun _ => rfl
    simp [permits,init,MailBox.armConsumer,h1,h2,h3]
  consumer := rfl
  wake := by simp [init,MailBox.armConsumer]

variable [DecidableEq ι] [DecidableEq κ]

theorem Inv.send_step (h : Inv handle s) (i : ι) (spurious : Bool)
    (hn : next handle s (.send i spurious)=some t) : Inv handle t := by
  cases hi : s.senders i with
  | none => simp [next,hi] at hn
  | some pc =>
    simp only [next,hi,Option.some.injEq] at hn
    subst hn
    have owes (hx : owesEnqueue (s.senders i)=true) := h.scheduled_of_sender i hx
    cases pc with
    | tryEnqueue m pc =>
      have hq := tryEnqueue_head m spurious s.box.mailbox pc
      have hne : s.senders i≠some .exchange := by simp [hi]
      simp only [MailBox.send]
      split
      · rename_i q pc' he
        simp only [he] at hq
        refine h.setSender i _ none _ h.consumer (by simp [hi,owesEnqueue]) ?_
        intro hp hs
        exact (h.wake ((hq.2 (by simp)).symm.trans hp) hs).setSender i _ _ _ hq.1 hne
      · refine h.setSender i _ none _ h.consumer (by simp [hi,owesEnqueue]) ?_
        intro _ _
        exact Or.inl ⟨i,by simp⟩
      · rename_i q he
        simp only [he] at hq
        refine h.setSender i _ none _ h.consumer (by simp [hi,owesEnqueue]) ?_
        intro hp hs
        exact (h.wake ((hq.2 (by simp)).symm.trans hp) hs).setSender i _ _ _ hq.1 hne
    | exchange =>
      refine h.setSender i _ none _ h.consumer ?_ (by simp [MailBox.send])
      cases hs : s.box.scheduled <;> simp [MailBox.send,hs,hi,owesEnqueue]
    | loadConsumer =>
      have hs := owes (by simp [hi,owesEnqueue])
      simp only [MailBox.send,h.consumer]
      exact h.setSender i _ none _ h.consumer (by simp [hi,owesEnqueue]) (by simp [hs])
    | enqueue handle' =>
      have hs := owes (by simp [hi,owesEnqueue])
      exact h.setSender i _ (some handle') _ h.consumer
        (by simp [MailBox.send,hi,hs,owesEnqueue]) (by simp [MailBox.send,hs])
    | release m =>
      refine h.setSender i _ none _ h.consumer (by simp [MailBox.send,hi,owesEnqueue]) ?_
      intro hp hs
      exact (h.wake hp hs).setSender i _ _ _ rfl (by simp [hi])
    | countDiscarded =>
      refine h.setSender i _ none _ h.consumer (by simp [MailBox.send,hi,owesEnqueue]) ?_
      intro hp hs
      exact (h.wake hp hs).setSender i _ _ _ rfl (by simp [hi])

theorem Inv.take_step (h : Inv handle s) (k : κ) (position : Nat)
    (hn : next handle s (.take k position)=some t) : Inv handle t := by
  simp only [next] at hn
  split at hn
  · rename_i hk hp
    cases hn
    have hlt : position<s.scheduler.length := (List.getElem?_eq_some_iff.mp hp).1
    have hlen := List.length_eraseIdx_of_lt hlt
    have hs : s.box.scheduled=true := h.scheduled (by unfold permits; omega)
    have he := countThreads_update WorkerPc.executes s.workers k
      (if s.started then .receive .start else .markRunning)
    have hr := countThreads_update WorkerPc.returnsFalse s.workers k
      (if s.started then .receive .start else .markRunning)
    refine ⟨?_,h.consumer,by simp [hs]⟩
    have hpm := h.permit
    simp only [permits,hlen] at hpm ⊢
    cases hst : s.started <;>
      simp [hk,hst,WorkerPc.executes,WorkerPc.returnsFalse] at he hr ⊢ <;> omega
  · cases hn

theorem next_inv {a : Action ι μ κ} (h : Inv handle s) (hn : next handle s a=some t) :
    Inv handle t := by
  cases a with
  | call i m =>
    simp only [next] at hn
    split at hn
    · rename_i hi
      cases hn
      have hp : s.box.scheduled.toNat+
          (owesEnqueue (some (SendPc.start m) : Option (SendPc μ))).toNat+
            (none : Option Handle).toList.length=
          s.box.scheduled.toNat+(owesEnqueue (s.senders i)).toNat := by
        simp [hi,owesEnqueue,SendPc.start]
      have hu := h.setSender i s.box none _ h.consumer hp (fun hp hs =>
        (h.wake hp hs).setSender i _ _ _ rfl (by simp [hi]))
      simpa using hu
    · cases hn
  | send i spurious => exact h.send_step i spurious hn
  | take k position => exact h.take_step k position hn
  | work k => exact h.work_step k hn

/-- The wake-up protocol. There is exactly one run permit while `scheduled_` is set and none
while it is clear, so the coroutine is queued at most once and run by at most one thread, even
while stale `await_suspend` calls are still under way. And no wake-up is lost: with a published
head either the flag is set, or a sender that has published is at its exchange, or an
`await_suspend` will see the head. -/
theorem mailbox_wakeup {s : State ι κ μ} (h : (machine ι κ μ handle).Reachable s) :
    (permits s=if s.box.scheduled then 1 else 0) ∧
    s.scheduler.length ≤ 1 ∧
    (∀ k k',(s.workers k).executes=true → (s.workers k').executes=true → k=k') ∧
    (s.box.mailbox.headPublished=true → s.box.scheduled=true ∨ Awake s) := by
  have hi : Inv handle s := by
    refine h.invariant ?_ fun x a y hx hn _ => next_inv hx hn
    rintro x ⟨size,_,rfl⟩
    exact init_inv size handle
  have hp := hi.permit
  have hle : permits s ≤ 1 := hp ▸ Bool.toNat_le _
  refine ⟨?_,?_,?_,?_⟩
  · rw [hp]
    cases s.box.scheduled <;> rfl
  · unfold permits at hle
    omega
  · intro k k'
    apply countThreads_unique
    unfold permits at hle
    omega
  · intro hpub
    cases hs : s.box.scheduled with
    | true => exact Or.inl rfl
    | false => exact Or.inr (hi.wake hpub hs)

/-- Worker 1 already runs the coroutine again while worker 0 is still inside the
`await_suspend` that suspended it. -/
theorem mailbox_wakeup_stale : ∃ s : State (Fin 1) (Fin 2) Nat,
    (machine (Fin 1) (Fin 2) Nat 9).Reachable s ∧
    (s.workers 0=.suspend (.recheck .loadIndex) ∧ s.workers 1=.receive .start ∧
      s.box.scheduled=true) ∧ permits s=1 := by
  obtain ⟨s,hs,hv⟩ := Machine.exists_reachableBy (machine (Fin 1) (Fin 2) Nat 9)
    Machine.anyStep
    (List.flatten [[.take 0 0],List.replicate 7 (.work 0),[.call 0 7],
      List.replicate 8 (.send 0 false),[.take 1 0]])
    (fun s => s.workers 0=.suspend (.recheck .loadIndex) ∧ s.workers 1=.receive .start ∧
      s.box.scheduled=true) ⟨2,by decide,rfl⟩ (by decide +kernel)
  have hv' := of_decide_eq_true hv
  have hp := (mailbox_wakeup hs).1
  exact ⟨s,hs,hv',by simpa [hv'.2.2] using hp⟩

end Acnet.Wakeup
