import Acnet.MailBox.Wakeup
import Acnet.Queue.Publication

/-!
The mailbox uses its queue as the queue asks for: whatever worker runs the consumer, the accesses
to the queue are those of any number of producers and of one consumer.
-/

namespace Acnet.Wakeup

open MailBox MailQueue

variable {ι κ μ : Type}

/-- The call of `try_enqueue` that a sender is in. -/
def producer : Option (SendPc μ) → Option (μ×EnqueuePc)
  | some (.tryEnqueue m pc) => some (m,pc)
  | _ => none

/-- What the queue's consumer does while the coroutine is at a point; `n` messages are counted
in `solved_nr_`. -/
def At (x : Mpsc.State ι μ) (n : Nat) : WorkerPc μ → Prop
  | .receive (.tryDequeue pc) => x.consumer=.dequeue pc ∧ x.returned.length=n
  | .receive (.countSolved m) =>
      x.consumer=.idle ∧ x.returned.length=n+1 ∧ x.returned[n]?=some m
  | .awaitReady (.loadSequence r) =>
      x.consumer=.idle ∧ x.returned.length=n ∧ r=x.queue.readIndex
  | _ => x.consumer=.idle ∧ x.returned.length=n

/-- Runs on which every stored index stays below `2^63`. -/
def InRange (_ : State ι κ μ) (_ : Action ι μ κ) (t : State ι κ μ) : Prop :=
  t.box.mailbox.InRange

instance (s : State ι κ μ) (a : Action ι μ κ) (t : State ι κ μ) : Decidable (InRange s a t) :=
  inferInstanceAs (Decidable t.box.mailbox.InRange)

/-- What a worker's step is for the queue's consumer. Who comes to the head of the receive loop
calls `try_dequeue`. -/
def WorkerPc.access (q : MailQueue μ) : WorkerPc μ → Option (Mpsc.Action ι μ)
  | .receive (.tryDequeue _) => some .consume
  | .markRunning | .receive (.countSolved _) | .resume => some .tryDequeue
  | .awaitReady pc => if q.canDequeue pc=.returned true then some .tryDequeue else none
  | _ => none

/-- The access to the queue that a step of the mailbox is. -/
def access (s : State ι κ μ) : Action ι μ κ → Option (Mpsc.Action ι μ)
  | .call i m => some (.tryEnqueue i m)
  | .send i spurious =>
      match s.senders i with
      | some (.tryEnqueue _ _) => some (.produce i spurious)
      | _ => none
  | .take _ _ => if s.started then some .tryDequeue else none
  | .work k => (s.workers k).access s.box.mailbox

section Steps

variable [DecidableEq ι] [DecidableEq κ]

omit [DecidableEq ι] in
theorem setWorker_self (s : State ι κ μ) (k : κ) (b : MailBox μ) (pc : WorkerPc μ) :
    (setWorker s k b pc).workers k=pc :=
  Function.update_self _ _ _

omit [DecidableEq ι] in
theorem setWorker_of_ne (s : State ι κ μ) {k k' : κ} (h : k'≠k) (b : MailBox μ)
    (pc : WorkerPc μ) : (setWorker s k b pc).workers k'=s.workers k' :=
  Function.update_of_ne h _ _

/-- What one access of a worker does to the mailbox and where it leaves the worker. -/
inductive Access (handle : Handle) (b : MailBox μ) :
    WorkerPc μ → MailBox μ → WorkerPc μ → Prop
  | markRunning : Access handle b .markRunning b.markRunning (.receive .start)
  | dequeue {pc pc' : DequeuePc μ} {q : MailQueue μ}
      (access : b.mailbox.tryDequeue pc=(q,.running pc')) :
      Access handle b (.receive (.tryDequeue pc)) {b with mailbox := q}
        (.receive (.tryDequeue pc'))
  | found {pc : DequeuePc μ} {q : MailQueue μ} {m : Option μ}
      (access : b.mailbox.tryDequeue pc=(q,.returned (some m))) :
      Access handle b (.receive (.tryDequeue pc)) {b with mailbox := q}
        (.receive (.countSolved m))
  | empty {pc : DequeuePc μ} {q : MailQueue μ}
      (access : b.mailbox.tryDequeue pc=(q,.returned none)) :
      Access handle b (.receive (.tryDequeue pc)) {b with mailbox := q} (.awaitReady .loadIndex)
  | countSolved (m : Option μ) : Access handle b (.receive (.countSolved m))
      {b with solvedNr := b.solvedNr+1} (.receive .start)
  | checkIndex : Access handle b (.awaitReady .loadIndex) b
      (.awaitReady (.loadSequence b.mailbox.readIndex))
  | ready {r : Nat} (access : b.mailbox.canDequeue (.loadSequence r)=.returned true) :
      Access handle b (.awaitReady (.loadSequence r)) b (.receive .start)
  | unready {r : Nat} (access : b.mailbox.canDequeue (.loadSequence r)=.returned false) :
      Access handle b (.awaitReady (.loadSequence r)) b (.suspend .storeConsumer)
  | storeConsumer : Access handle b (.suspend .storeConsumer) {b with consumer := some handle}
      (.suspend .clearScheduled)
  | clearScheduled : Access handle b (.suspend .clearScheduled) {b with scheduled := false}
      (.suspend (.recheck .loadIndex))
  | recheckIndex : Access handle b (.suspend (.recheck .loadIndex)) b
      (.suspend (.recheck (.loadSequence b.mailbox.readIndex)))
  | recheckReady {r : Nat} (access : b.mailbox.canDequeue (.loadSequence r)=.returned true) :
      Access handle b (.suspend (.recheck (.loadSequence r))) b (.suspend .exchange)
  | recheckUnready {r : Nat} (access : b.mailbox.canDequeue (.loadSequence r)=.returned false) :
      Access handle b (.suspend (.recheck (.loadSequence r))) b .idle
  | won (clear : b.scheduled=false) :
      Access handle b (.suspend .exchange) {b with scheduled := true} .resume
  | lost (set : b.scheduled=true) :
      Access handle b (.suspend .exchange) {b with scheduled := true} .idle
  | resume : Access handle b .resume b (.receive .start)

omit [DecidableEq ι] in
theorem work_access {handle : Handle} {s t : State ι κ μ} {k : κ}
    (hn : work handle s k (s.workers k)=some t) :
    ∃ b pc,t=setWorker s k b pc ∧ Access handle s.box (s.workers k) b pc := by
  cases hk : s.workers k with
  | idle =>
    rw [hk] at hn
    cases hn
  | markRunning | resume =>
    rw [hk] at hn
    cases hn
    exact ⟨_,_,rfl,by constructor⟩
  | receive pc =>
    rw [hk] at hn
    cases pc with
    | countSolved m =>
      cases hn
      exact ⟨_,_,rfl,.countSolved m⟩
    | tryDequeue pc =>
      simp only [work,tryReceive] at hn
      cases hd : s.box.mailbox.tryDequeue pc with
      | mk q control =>
        rw [hd] at hn
        rcases control with pc' | _ | m <;> cases hn
        · exact ⟨_,_,rfl,.dequeue hd⟩
        · exact ⟨_,_,rfl,.empty hd⟩
        · exact ⟨_,_,rfl,.found hd⟩
  | awaitReady pc =>
    rw [hk] at hn
    cases pc with
    | loadIndex =>
      cases hn
      exact ⟨_,_,rfl,.checkIndex⟩
    | loadSequence r =>
      simp only [work] at hn
      cases hc : s.box.mailbox.canDequeue (.loadSequence r) with
      | running pc' => cases hc
      | returned found =>
        rw [hc] at hn
        cases found <;> cases hn
        · exact ⟨_,_,rfl,.unready hc⟩
        · exact ⟨_,_,rfl,.ready hc⟩
  | suspend pc =>
    rw [hk] at hn
    cases pc with
    | storeConsumer | clearScheduled =>
      cases hn
      exact ⟨_,_,rfl,by constructor⟩
    | recheck pc =>
      cases pc with
      | loadIndex =>
        cases hn
        exact ⟨_,_,rfl,.recheckIndex⟩
      | loadSequence r =>
        simp only [work,awaitSuspend] at hn
        cases hc : s.box.mailbox.canDequeue (.loadSequence r) with
        | running pc' => cases hc
        | returned found =>
          rw [hc] at hn
          cases found <;> cases hn
          · exact ⟨_,_,rfl,.recheckUnready hc⟩
          · exact ⟨_,_,rfl,.recheckReady hc⟩
    | exchange =>
      simp only [work,awaitSuspend] at hn
      cases hs : s.box.scheduled <;> rw [hs] at hn <;> cases hn
      · exact ⟨_,_,rfl,.won hs⟩
      · exact ⟨_,_,rfl,.lost hs⟩

/-- What a step does, with what it needs. -/
inductive Step (handle : Handle) (s : State ι κ μ) : Action ι μ κ → State ι κ μ → Prop
  | call {i : ι} {m : μ} (idle : s.senders i=none) : Step handle s (.call i m)
      {s with senders := Function.update s.senders i (some (.start m))}
  | send {i : ι} {spurious : Bool} {pc : SendPc μ} (sending : s.senders i=some pc) :
      Step handle s (.send i spurious) {s with
        box := (s.box.send (fun _ => false) spurious pc).1
        scheduler := s.scheduler++(s.box.send (fun _ => false) spurious pc).2.1.toList
        senders := Function.update s.senders i
          (match (s.box.send (fun _ => false) spurious pc).2.2 with
          | .running pc' => some pc'
          | .returned _ => none)}
  | take {k : κ} {position : Nat} {task : Handle} (idle : s.workers k=.idle)
      (queued : s.scheduler[position]?=some task) : Step handle s (.take k position) {s with
        scheduler := s.scheduler.eraseIdx position
        workers := Function.update s.workers k
          (if s.started then .receive .start else .markRunning)
        started := true}
  | work {k : κ} {b : MailBox μ} {pc : WorkerPc μ}
      (access : Access handle s.box (s.workers k) b pc) :
      Step handle s (.work k) (setWorker s k b pc)

theorem next_step {handle : Handle} {s t : State ι κ μ} {a : Action ι μ κ}
    (hn : next handle s a=some t) : Step handle s a t := by
  cases a with
  | call i m =>
    simp only [next] at hn
    split at hn <;> cases hn
    rename_i hi
    exact .call hi
  | send i spurious =>
    simp only [next] at hn
    split at hn <;> cases hn
    rename_i pc hi
    exact .send hi
  | take k position =>
    simp only [next] at hn
    split at hn <;> cases hn
    rename_i task hk hp
    exact .take hk hp
  | work k =>
    obtain ⟨b,pc,rfl,hacc⟩ := work_access hn
    exact .work hacc

end Steps

variable [Fintype ι] [Fintype κ] {handle : Handle} {s t : State ι κ μ}
  {x : Mpsc.State ι μ}

/-- Whoever else has the permit, no worker executes the coroutine. -/
theorem Inv.resting_of (h : Inv handle s)
    (hp : 0<s.scheduler.length ∨ ∃ k,(s.workers k).returnsFalse=true) (k : κ) :
    (s.workers k).executes=false := by
  have hle : permits s ≤ 1 := h.permit ▸ Bool.toNat_le _
  unfold permits at hle
  apply (countThreads_eq_zero_iff WorkerPc.executes s.workers).mp
  rcases hp with hp | hp
  · omega
  · have := (countThreads_pos_iff WorkerPc.returnsFalse s.workers).mpr hp
    omega

theorem Inv.alone (h : Inv handle s) {k k' : κ} (hk : (s.workers k).executes=true) (hne : k'≠k) :
    (s.workers k').executes=false := by
  have hle : permits s ≤ 1 := h.permit ▸ Bool.toNat_le _
  by_contra hk'
  apply hne
  apply countThreads_unique WorkerPc.executes _ (by simpa using hk') hk
  unfold permits at hle
  omega

variable [DecidableEq ι]

/-- The queue and its callers, seen from the mailbox. -/
structure Follows (handle : Handle) (s : State ι κ μ) (x : Mpsc.State ι μ) : Prop where
  inv : Inv handle s
  reachable : (Mpsc.machine ι μ).ReachableBy Mpsc.InRange x
  queue : x.queue=s.box.mailbox
  producers : ∀ i,x.producers i=producer (s.senders i)
  running : ∀ k,(s.workers k).executes=true → At x s.box.solvedNr (s.workers k)
  resting : (∀ k,(s.workers k).executes=false) →
    x.consumer=.idle ∧ x.returned.length=s.box.solvedNr

namespace Follows

theorem inRange (h : Follows handle s x) : s.box.mailbox.InRange :=
  h.queue ▸ (Mpsc.reachable_inv h.reachable).1

/-- A step of a sender; the consumer stays where it is. -/
theorem sender (h : Follows handle s x) {y : Mpsc.State ι μ} (hi : Inv handle t)
    (hy : (Mpsc.machine ι μ).ReachableBy Mpsc.InRange y) (hq : y.queue=t.box.mailbox)
    (hp : ∀ i,y.producers i=producer (t.senders i)) (hw : t.workers=s.workers)
    (hn : t.box.solvedNr=s.box.solvedNr) (hc : y.consumer=x.consumer)
    (hret : y.returned=x.returned) (hread : y.queue.readIndex=x.queue.readIndex) :
    Follows handle t y where
  inv := hi
  reachable := hy
  queue := hq
  producers := hp
  running k hk := by
    rw [hw] at hk ⊢
    have hat := h.running k hk
    unfold At at hat ⊢
    rw [hn,hc,hret,hread]
    exact hat
  resting hr := by
    rw [hn,hc,hret]
    exact h.resting fun k => hw ▸ hr k

theorem producers_update (h : Follows handle s x) (i : ι) (y : Option (SendPc μ)) (j : ι) :
    Function.update x.producers i (producer y) j=producer (Function.update s.senders i y j) := by
  by_cases he : j=i
  · subst j
    simp
  · simpa [he] using h.producers j

/-- A sender that is in no call of `try_enqueue` leaves the queue alone. -/
theorem sender_aside (h : Follows handle s x) {i : ι} {b : MailBox μ} {tasks : List Handle}
    {y : Option (SendPc μ)}
    (hi : Inv handle {s with
      box := b, scheduler := tasks, senders := Function.update s.senders i y})
    (hq : b.mailbox=s.box.mailbox) (hn : b.solvedNr=s.box.solvedNr)
    (hs : producer (s.senders i)=none) (hy : producer y=none) :
    Follows handle {s with
      box := b, scheduler := tasks, senders := Function.update s.senders i y} x := by
  refine h.sender hi h.reachable (h.queue.trans hq.symm) ?_ rfl hn rfl rfl rfl
  intro j
  rw [← h.producers_update i y j,hy,← hs,← h.producers i,Function.update_eq_self]

variable [DecidableEq κ]

/-- The worker that executes the coroutine says what the consumer does. -/
theorem of_running {k : κ} {pc : WorkerPc μ} (hi : Inv handle t)
    (hx : (Mpsc.machine ι μ).ReachableBy Mpsc.InRange x) (hq : x.queue=t.box.mailbox)
    (hp : ∀ i,x.producers i=producer (t.senders i)) (hk : t.workers k=pc)
    (hpc : pc.executes=true) (hat : At x t.box.solvedNr pc) : Follows handle t x where
  inv := hi
  reachable := hx
  queue := hq
  producers := hp
  running k' hk' := by
    by_cases he : k'=k
    · rw [he,hk]
      exact hat
    · exact absurd hk' (by rw [hi.alone (hk ▸ hpc) he]; decide)
  resting hr := absurd (hr k) (by rw [hk,hpc]; decide)

/-- A worker whose step is none of the consumer's own. -/
theorem aside (h : Follows handle s x) {k : κ} {b : MailBox μ} {pc : WorkerPc μ}
    (hi : Inv handle (setWorker s k b pc)) (hq : b.mailbox=s.box.mailbox)
    (hn : b.solvedNr=s.box.solvedNr) (hpc : pc.executes=false)
    (hk : (s.workers k).executes=true → x.consumer=.idle ∧ x.returned.length=s.box.solvedNr) :
    Follows handle (setWorker s k b pc) x where
  inv := hi
  reachable := h.reachable
  queue := h.queue.trans hq.symm
  producers := h.producers
  running k' hk' := by
    by_cases he : k'=k
    · subst k'
      rw [setWorker_self,hpc] at hk'
      cases hk'
    · rw [setWorker_of_ne s he] at hk' ⊢
      change At x b.solvedNr _
      rw [hn]
      exact h.running k' hk'
  resting hr := by
    change _ ∧ _=b.solvedNr
    rw [hn]
    by_cases he : (s.workers k).executes=true
    · exact hk he
    · apply h.resting
      intro k'
      by_cases hne : k'=k
      · subst k'
        simpa using he
      · have hk' := hr k'
        rwa [setWorker_of_ne s hne] at hk'

/-- The consumer is in no call of the queue and calls `try_dequeue`. -/
theorem enter (h : Follows handle s x) {k : κ} (hi : Inv handle t)
    (hq : t.box.mailbox=s.box.mailbox) (hs : t.senders=s.senders)
    (hk : t.workers k=.receive .start) (hidle : x.consumer=.idle)
    (hn : x.returned.length=t.box.solvedNr) :
    (Mpsc.machine ι μ).Answers x (some .tryDequeue) (Follows handle t) := by
  have hnext : (Mpsc.machine ι μ).next x .tryDequeue=
      some {x with consumer := .dequeue .loadIndex} := by
    simp [Mpsc.machine,Mpsc.next,hidle]
  have hr : x.queue.InRange := h.queue ▸ h.inRange
  have hp : ∀ i,x.producers i=producer (t.senders i) := hs ▸ h.producers
  exact ⟨_,hnext,of_running hi (h.reachable.next hnext hr) (h.queue.trans hq.symm) hp hk rfl
    ⟨rfl,hn⟩⟩

/-- A step of the worker that executes the coroutine outside the calls of the queue. -/
theorem go_on (h : Follows handle s x) {k : κ} {b : MailBox μ} {pc : WorkerPc μ}
    (hi : Inv handle (setWorker s k b pc)) (hq : b.mailbox=s.box.mailbox)
    (hpc : pc.executes=true) (hat : At x b.solvedNr pc) : Follows handle (setWorker s k b pc) x :=
  of_running hi h.reachable (h.queue.trans hq.symm) h.producers (setWorker_self _ _ _ _) hpc hat

theorem consume (h : Follows handle s x) {k : κ} {q : MailQueue μ} {pc : DequeuePc μ}
    {control : Control (DequeuePc μ) (Option (Option μ))} {pc' : WorkerPc μ}
    (hi : Inv handle (setWorker s k {s.box with mailbox := q} pc')) (hr : q.InRange)
    (hc : x.consumer=.dequeue pc) (hd : s.box.mailbox.tryDequeue pc=(q,control))
    (hpc : pc'.executes=true)
    (hat : At (Mpsc.consume x (q,control)) s.box.solvedNr pc') :
    (Mpsc.machine ι μ).Answers x (some .consume)
      (Follows handle (setWorker s k {s.box with mailbox := q} pc')) := by
  have hnext : (Mpsc.machine ι μ).next x .consume=some (Mpsc.consume x (q,control)) := by
    simp [Mpsc.machine,Mpsc.next,hc,h.queue,hd]
  have hq : (Mpsc.consume x (q,control)).queue=q := by
    rcases control with pc'' | _ | m <;> rfl
  have hp : (Mpsc.consume x (q,control)).producers=x.producers := by
    rcases control with pc'' | _ | m <;> rfl
  have hok : Mpsc.InRange x .consume (Mpsc.consume x (q,control)) := by
    unfold Mpsc.InRange
    rw [hq]
    exact hr
  exact ⟨_,hnext,of_running hi (h.reachable.next hnext hok) hq (hp ▸ h.producers)
    (setWorker_self _ _ _ _) hpc hat⟩

theorem work_step (h : Follows handle s x) {k : κ} (hi : Inv handle t)
    (hr : t.box.mailbox.InRange) (hn : work handle s k (s.workers k)=some t) :
    (Mpsc.machine ι μ).Answers x (access s (.work k)) (Follows handle t) := by
  obtain ⟨b,pc,rfl,hacc⟩ := work_access hn
  have hat := h.running k
  have hrest (hf : (s.workers k).returnsFalse=true) :=
    h.resting (h.inv.resting_of (Or.inr ⟨k,hf⟩))
  change (Mpsc.machine ι μ).Answers x ((s.workers k).access s.box.mailbox) _
  generalize hk : s.workers k=pc₀ at hacc hat hrest ⊢
  have aside (hx : pc₀.executes=false) : (s.workers k).executes=true →
      x.consumer=.idle ∧ x.returned.length=s.box.solvedNr := by
    intro ht
    rw [hk,hx] at ht
    cases ht
  cases hacc with
  | markRunning => exact h.enter hi rfl rfl (setWorker_self _ _ _ _) (hat rfl).1 (hat rfl).2
  | dequeue hd => exact h.consume hi hr (hat rfl).1 hd rfl ⟨rfl,(hat rfl).2⟩
  | found hd =>
    have hlen := (hat rfl).2
    exact h.consume hi hr (hat rfl).1 hd rfl
      ⟨rfl,by simp [Mpsc.consume,hlen],by simp [Mpsc.consume,← hlen]⟩
  | empty hd => exact h.consume hi hr (hat rfl).1 hd rfl ⟨rfl,(hat rfl).2⟩
  | countSolved m =>
    exact h.enter hi rfl rfl (setWorker_self _ _ _ _) (hat rfl).1 (hat rfl).2.1
  | checkIndex => exact h.go_on hi rfl rfl ⟨(hat rfl).1,(hat rfl).2,by rw [h.queue]⟩
  | ready hc =>
    rw [WorkerPc.access,if_pos hc]
    exact h.enter hi rfl rfl (setWorker_self _ _ _ _) (hat rfl).1 (hat rfl).2.1
  | unready hc =>
    rw [WorkerPc.access,if_neg (by simp [hc])]
    exact h.go_on hi rfl rfl ⟨(hat rfl).1,(hat rfl).2.1⟩
  | storeConsumer => exact h.go_on hi rfl rfl (hat rfl)
  | clearScheduled => exact h.aside hi rfl rfl rfl fun _ => hat rfl
  | recheckIndex | recheckReady | recheckUnready => exact h.aside hi rfl rfl rfl (aside rfl)
  | won | lost => exact h.aside hi rfl rfl rfl (aside rfl)
  | resume => exact h.enter hi rfl rfl (setWorker_self _ _ _ _) (hrest rfl).1 (hrest rfl).2

theorem send_step (h : Follows handle s x) {i : ι} {spurious : Bool} (hi : Inv handle t)
    (hr : t.box.mailbox.InRange) (hn : next handle s (.send i spurious)=some t) :
    (Mpsc.machine ι μ).Answers x (access s (.send i spurious)) (Follows handle t) := by
  cases next_step hn with
  | @send _ _ pc hs =>
    have hxi : x.producers i=producer (some pc) := hs ▸ h.producers i
    cases pc with
    | tryEnqueue m pc =>
      simp only [access,hs]
      have hread := (tryEnqueue_head m spurious s.box.mailbox pc).1
      have hnext : (Mpsc.machine ι μ).next x (.produce i spurious)=
          some (Mpsc.produce x i m (s.box.mailbox.tryEnqueue m spurious pc)) := by
        simp [Mpsc.machine,Mpsc.next,hxi,producer,h.queue]
      refine ⟨_,hnext,?_⟩
      have hreach := h.reachable.next hnext
      simp only [MailBox.send] at hi hr ⊢
      cases hd : s.box.mailbox.tryEnqueue m spurious pc with
      | mk q control =>
        simp only [hd] at hi hr hread hreach ⊢
        have hread' : q.readIndex=x.queue.readIndex := by rw [hread,h.queue]
        have hp := h.producers_update i
        rcases control with pc' | _ | _
        · exact h.sender hi (hreach hr) rfl (hp (some (.tryEnqueue m pc'))) rfl rfl rfl rfl hread'
        · exact h.sender hi (hreach hr) rfl (hp (some (.release m))) rfl rfl rfl rfl hread'
        · exact h.sender hi (hreach hr) rfl (hp (some .exchange)) rfl rfl rfl rfl hread'
    | exchange =>
      simp only [access,hs]
      cases hf : s.box.scheduled with
      | false =>
        simp only [MailBox.send,hf] at hi ⊢
        exact h.sender_aside hi rfl rfl (by rw [hs]; rfl) rfl
      | true =>
        simp only [MailBox.send,hf] at hi ⊢
        exact h.sender_aside hi rfl rfl (by rw [hs]; rfl) rfl
    | loadConsumer =>
      simp only [access,hs]
      have hc := h.inv.consumer
      simp only [MailBox.send,hc] at hi ⊢
      exact h.sender_aside hi rfl rfl (by rw [hs]; rfl) rfl
    | enqueue | release | countDiscarded =>
      simp only [access,hs]
      exact h.sender_aside hi rfl rfl (by rw [hs]; rfl) rfl

theorem call_step (h : Follows handle s x) {i : ι} {m : μ} (hi : Inv handle t)
    (hn : next handle s (.call i m)=some t) :
    (Mpsc.machine ι μ).Answers x (some (.tryEnqueue i m)) (Follows handle t) := by
  cases next_step hn with
  | call hs =>
    have hxi : x.producers i=none := by rw [h.producers i,hs]; rfl
    have hnext : (Mpsc.machine ι μ).next x (.tryEnqueue i m)=
        some {x with producers := Function.update x.producers i (some (m,.loadIndex))} := by
      simp [Mpsc.machine,Mpsc.next,hxi]
    have hr : x.queue.InRange := h.queue ▸ h.inRange
    exact ⟨_,hnext,h.sender hi (h.reachable.next hnext hr) h.queue
      (h.producers_update i (some (.start m))) rfl rfl rfl rfl rfl⟩

theorem take_step (h : Follows handle s x) {k : κ} {position : Nat} (hi : Inv handle t)
    (hn : next handle s (.take k position)=some t) :
    (Mpsc.machine ι μ).Answers x (access s (.take k position)) (Follows handle t) := by
  cases next_step hn with
  | take _ hp =>
    have hlt : position < s.scheduler.length := (List.getElem?_eq_some_iff.mp hp).1
    have hrest := h.resting (h.inv.resting_of (Or.inl (by omega)))
    unfold access
    split_ifs at hi ⊢ with hst
    · exact h.enter (k := k) hi rfl rfl (by simp) hrest.1 hrest.2
    · have hk' : Function.update s.workers k .markRunning k=.markRunning :=
        Function.update_self _ _ _
      exact of_running hi h.reachable h.queue h.producers hk' rfl hrest

end Follows

theorem init_follows {size : Nat} (handle : Handle) (h2 : 2 ≤ bitCeil size) (hle : size ≤ 2^63) :
    Follows handle (init size handle : State ι κ μ) (Mpsc.init size) where
  inv := init_inv size handle
  reachable := ⟨_,⟨size,h2,hle,rfl⟩,.refl⟩
  queue := rfl
  producers _ := rfl
  running k hk := by cases hk
  resting _ := ⟨rfl,rfl⟩

variable [DecidableEq κ]

/-- The wake-up protocol makes the workers one consumer: each step of the mailbox is one access of
the queue's producers or of its consumer, or none. -/
theorem simulates (handle : Handle) : (machine ι κ μ handle).Simulates InRange
    (Mpsc.machine ι μ) access (Follows handle) := by
  intro s a t x h hn hr
  have hi : Inv handle t := next_inv h.inv hn
  cases a with
  | call i m => exact h.call_step hi hn
  | send i spurious => exact h.send_step hi hr hn
  | take k position => exact h.take_step hi hn
  | work k => exact h.work_step hi hr hn

end Acnet.Wakeup
