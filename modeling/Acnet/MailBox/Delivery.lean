import Acnet.Framework.Fair
import Acnet.MailBox.Consumption

/-!
No message is left behind. While the threads go on and the scheduler hands out what it holds, a
message that `Send` has got into the queue is received, in its turn.
-/

namespace Acnet.Wakeup

open MailBox MailQueue

variable {ι κ μ : Type}

section Steps

variable [DecidableEq ι] [DecidableEq κ] {handle : Handle} {s t : State ι κ μ}
  {a : Action ι μ κ}

/-- A worker that is not idle is moved by its own steps only. -/
theorem next_worker (hn : next handle s a=some t) {k : κ} (hk : s.workers k≠.idle)
    (ha : a≠.work k) : t.workers k=s.workers k := by
  cases next_step hn with
  | call | send => rfl
  | @take k' _ _ idle =>
    have hne : k≠k' := by
      rintro rfl
      exact hk idle
    simp [hne]
  | work =>
    apply setWorker_of_ne
    rintro rfl
    exact ha rfl

theorem next_sender (hn : next handle s a=some t) {i : ι} {pc : SendPc μ}
    (hi : s.senders i=some pc) (ha : ∀ spurious,a≠.send i spurious) : t.senders i=some pc := by
  cases next_step hn with
  | @call i' m idle =>
    have hne : i≠i' := by
      rintro rfl
      simp [hi] at idle
    simpa [hne] using hi
  | @send i' spurious =>
    have hne : i≠i' := by
      rintro rfl
      exact ha spurious rfl
    simpa [hne] using hi
  | take | work => exact hi

theorem work_enabled {k : κ} (hk : s.workers k≠.idle) :
    (machine ι κ μ handle).Enabled (fun a => a=.work k) s := by
  refine Machine.Enabled.of_isSome (M := machine ι κ μ handle) (a := .work k) ?_ rfl
  change (work handle s k (s.workers k)).isSome=true
  unfold work
  split
  · rename_i hidle
    exact absurd hidle hk
  all_goals first | rfl | split <;> rfl

theorem send_enabled {i : ι} {pc : SendPc μ} (hi : s.senders i=some pc) :
    (machine ι κ μ handle).Enabled (fun a => ∃ spurious,a=.send i spurious) s := by
  apply Machine.Enabled.of_isSome (a := .send i false) _ ⟨false,rfl⟩
  simp [machine,next,hi]

theorem take_enabled {k : κ} (hk : s.workers k=.idle) (hs : 0 < s.scheduler.length) :
    (machine ι κ μ handle).Enabled (fun a => ∃ k position,a=.take k position) s := by
  apply Machine.Enabled.of_isSome (a := .take k 0) _ ⟨k,0,rfl⟩
  simp [machine,next,hk,List.getElem?_eq_getElem hs]

/-- Only the access after a successful `try_dequeue` counts a message. -/
theorem next_solved (hn : next handle s a=some t) :
    t.box.solvedNr=s.box.solvedNr ∨ t.box.solvedNr=s.box.solvedNr+1 ∧
      ∃ k m,s.workers k=.receive (.countSolved m) := by
  cases next_step hn with
  | call | take => exact Or.inl rfl
  | send =>
    left
    unfold MailBox.send
    split
    · split <;> rfl
    · rfl
    · split <;> rfl
    all_goals rfl
  | @work k b pc access =>
    generalize hk : s.workers k=pc₀ at access
    cases access with
    | countSolved m => exact Or.inr ⟨rfl,k,m,hk⟩
    | _ => exact Or.inl rfl

variable [Fintype ι] [Fintype κ]

/-- Whoever sets the flag has the permit to run the coroutine and has not begun to use it. -/
theorem Inv.next_scheduled (h : Inv handle s) (hs : s.box.scheduled=false)
    (hn : next handle s a=some t) :
    t.box.scheduled=false ∨ (∃ i,owesEnqueue (t.senders i)=true) ∨ ∃ k,t.workers k=.resume := by
  cases next_step hn with
  | call | take => exact Or.inl hs
  | @send i spurious pc =>
    cases pc with
    | exchange => exact Or.inr (Or.inl ⟨i,by simp [MailBox.send,hs,owesEnqueue]⟩)
    | tryEnqueue m pc =>
      left
      simp only [MailBox.send]
      split <;> exact hs
    | loadConsumer =>
      left
      simp only [MailBox.send]
      split <;> exact hs
    | enqueue | release | countDiscarded => exact Or.inl hs
  | @work k b pc access =>
    generalize hk : s.workers k=pc₀ at access
    cases access with
    | markRunning =>
      have ht := h.scheduled_of_worker k (Or.inl (by rw [hk]; rfl))
      exact absurd (hs.symm.trans ht) (by decide)
    | won => exact Or.inr (Or.inr ⟨k,setWorker_self _ _ _ _⟩)
    | lost set => exact absurd (hs.symm.trans set) (by decide)
    | clearScheduled => exact Or.inl rfl
    | _ => exact Or.inl hs

omit [DecidableEq ι] [DecidableEq κ] in
/-- While the coroutine is in the scheduler nobody runs it. -/
theorem Inv.queued (h : Inv handle s) (hs : 0 < s.scheduler.length) : s.box.scheduled=true ∧
    ∀ k,(s.workers k).executes=false ∧ (s.workers k).returnsFalse=false := by
  have hle : permits s ≤ 1 := h.permit ▸ Bool.toNat_le _
  unfold permits at hle
  refine ⟨h.scheduled (by unfold permits; omega),fun k => ⟨?_,?_⟩⟩
  · exact (countThreads_eq_zero_iff WorkerPc.executes s.workers).mp (by omega) k
  · exact (countThreads_eq_zero_iff WorkerPc.returnsFalse s.workers).mp (by omega) k

end Steps

/-- The worker has found the head of the queue published and is about to hand its message over. -/
def WorkerPc.delivering : WorkerPc μ → Bool
  | .receive (.tryDequeue .loadIndex) | .receive (.tryDequeue (.loadSequence _)) => false
  | .receive _ => true
  | _ => false

/-- The worker runs the coroutine and will look at the head of the queue before it suspends it. -/
def WorkerPc.drains : WorkerPc μ → Bool
  | .markRunning | .receive _ | .awaitReady _ | .resume => true
  | _ => false

/-- How far a worker is from the end of what it is about to do. -/
def WorkerPc.rank : WorkerPc μ → Nat
  | .awaitReady .loadIndex => 9
  | .awaitReady (.loadSequence _) | .markRunning | .resume => 8
  | .receive (.tryDequeue .loadIndex) => 7
  | .receive (.tryDequeue (.loadSequence _)) => 6
  | .receive (.tryDequeue (.readMessage _)) => 5
  | .receive (.tryDequeue (.clearMessage _ _)) => 4
  | .receive (.tryDequeue (.storeIndex _ _)) => 3
  | .receive (.tryDequeue (.storeSequence _ _)) => 2
  | .receive (.countSolved _) => 1
  | .suspend .storeConsumer => 5
  | .suspend .clearScheduled => 4
  | .suspend (.recheck .loadIndex) => 3
  | .suspend (.recheck (.loadSequence _)) => 2
  | .suspend .exchange => 1
  | .idle => 0

def sendRank : Option (SendPc μ) → Nat
  | some (.tryEnqueue _ (.writeMessage _)) => 4
  | some (.tryEnqueue _ (.storeSequence _)) => 3
  | some .loadConsumer => 2
  | some (.enqueue _) => 1
  | _ => 0

section Takes

variable [DecidableEq ι] [DecidableEq κ] {handle : Handle} {s t : State ι κ μ}
  {a : Action ι μ κ}

theorem take_drains {k : κ} {position : Nat} (hn : next handle s (.take k position)=some t) :
    (t.workers k).drains=true := by
  cases next_step hn with
  | take => cases s.started <;> simp [WorkerPc.drains]

/-- What is in the scheduler is there until a worker takes it. -/
theorem next_scheduler (hn : next handle s a=some t) (hs : 0 < s.scheduler.length) :
    0 < t.scheduler.length ∨ ∃ k,(t.workers k).drains=true := by
  cases next_step hn with
  | call | work => exact Or.inl hs
  | send =>
    left
    simp only [List.length_append]
    omega
  | @take k => exact Or.inr ⟨k,take_drains hn⟩

theorem next_idle (hn : next handle s a=some t) {k : κ} (hk : s.workers k=.idle)
    (ha : ¬∃ k position,a=.take k position) : t.workers k=.idle := by
  cases next_step hn with
  | call | send => exact hk
  | @take k' position => exact absurd ⟨k',position,rfl⟩ ha
  | @work k' b pc access =>
    rw [setWorker_of_ne]
    · exact hk
    · rintro rfl
      rw [hk] at access
      cases access

/-- A delivery goes on to the access that counts the message. -/
theorem Access.delivers {b b' : MailBox μ} {pc pc' : WorkerPc μ}
    (h : Access handle b pc b' pc') (hd : pc.delivering=true) :
    b'.solvedNr=b.solvedNr+1 ∨ pc'.delivering=true ∧ pc'.rank < pc.rank := by
  cases h with
  | countSolved m => exact Or.inl rfl
  | @dequeue pc pc' q access =>
    right
    cases pc with
    | loadIndex | loadSequence => cases hd
    | readMessage | clearMessage | storeIndex =>
      cases access
      exact ⟨rfl,by simp [WorkerPc.rank]⟩
    | storeSequence => cases access
  | @found pc q m access =>
    right
    cases pc with
    | storeSequence =>
      cases access
      exact ⟨rfl,by simp [WorkerPc.rank]⟩
    | loadIndex | readMessage | clearMessage | storeIndex => cases access
    | loadSequence => cases hd
  | @empty pc q access =>
    cases pc with
    | loadSequence => cases hd
    | loadIndex | readMessage | clearMessage | storeIndex | storeSequence => cases access
  | _ => cases hd

end Takes

section Stages

variable [DecidableEq ι] [Fintype ι] [Fintype κ]

/-- The consumer is about to get `m` from `try_receive`, after `w` other messages. -/
def Received (w : Nat) (m : μ) (s : State ι κ μ) : Prop :=
  s.box.solvedNr=w ∧ ∃ k,s.workers k=.receive (.countSolved (some m))

/-- Counter `w` of the queue was claimed for `m`, and its turn has not gone by. -/
structure Pending (handle : Handle) (w : Nat) (m : μ) (s : State ι κ μ) : Prop where
  ahead : s.box.solvedNr ≤ w
  claimed : ∃ x,Follows handle s x ∧ x.claimed[w]?=some m

/-- The `d`-th message has its turn, and `m` is still to come. -/
structure Awaiting (handle : Handle) (w : Nat) (m : μ) (d : Nat) (s : State ι κ μ) : Prop
    extends Pending handle w m s where
  solved : s.box.solvedNr=d
  missing : ¬Received w m s

/-- The `d`-th message has been handed over. -/
def Advanced (handle : Handle) (w : Nat) (m : μ) (d : Nat) (s : State ι κ μ) : Prop :=
  Received w m s ∨ Pending handle w m s ∧ d < s.box.solvedNr

variable {handle : Handle} {s t : State ι κ μ} {a : Action ι μ κ} {w d : Nat} {m : μ}

/-- Outside a delivery the queue's consumer is at the `solved_nr_`-th counter. -/
theorem Follows.settled {x : Mpsc.State ι μ} (h : Follows handle s x)
    (hq : ∀ k,(s.workers k).delivering=false) :
    x.returned.length=s.box.solvedNr ∧ x.queue.readIndex=s.box.solvedNr := by
  obtain ⟨-,st,hi⟩ := Mpsc.reachable_inv h.reachable
  have hok := hi.consumer
  by_cases hx : ∃ k,(s.workers k).executes=true
  · obtain ⟨k,hk⟩ := hx
    have hat := h.running k hk
    have hd := hq k
    generalize s.workers k=pc at hk hat hd
    cases pc with
    | idle | resume => cases hk
    | markRunning =>
      rw [hat.1] at hok
      exact ⟨hat.2,hok.trans hat.2⟩
    | receive pc =>
      cases pc with
      | countSolved => cases hd
      | tryDequeue pc =>
        rw [hat.1] at hok
        cases pc with
        | loadIndex => exact ⟨hat.2,hok.trans hat.2⟩
        | loadSequence r => exact ⟨hat.2,hok.1.trans hat.2⟩
        | _ => cases hd
    | awaitReady pc =>
      cases pc with
      | loadIndex =>
        rw [hat.1] at hok
        exact ⟨hat.2,hok.trans hat.2⟩
      | loadSequence r =>
        rw [hat.1] at hok
        exact ⟨hat.2.1,hok.trans hat.2.1⟩
    | suspend pc =>
      have hidle : x.consumer=.idle ∧ x.returned.length=s.box.solvedNr := hat
      rw [hidle.1] at hok
      exact ⟨hidle.2,hok.trans hidle.2⟩
  · have hrest := h.resting fun k => by simpa using fun hk => hx ⟨k,hk⟩
    rw [hrest.1] at hok
    exact ⟨hrest.2,hok.trans hrest.2⟩

/-- The message that `try_receive` is about to return is the one of the counter that has its
turn. -/
theorem Follows.solving {x : Mpsc.State ι μ} (h : Follows handle s x) {k : κ} {m' : Option μ}
    (hk : s.workers k=.receive (.countSolved m')) : m'=x.claimed[s.box.solvedNr]? := by
  obtain ⟨-,st,hi⟩ := Mpsc.reachable_inv h.reachable
  have hat := h.running k (by rw [hk]; rfl)
  rw [hk] at hat
  obtain ⟨-,hlen,hget⟩ := hat
  have hfifo := hi.fifo
  rw [hlen] at hfifo
  rw [hfifo,List.getElem?_map,List.getElem?_take_of_lt (Nat.lt_succ_self _)] at hget
  cases hc : x.claimed[s.box.solvedNr]? with
  | none => simp [hc] at hget
  | some y => simpa [hc] using hget.symm

/-- The `d`-th message is published and nobody has begun to hand it over. -/
structure Calm (handle : Handle) (w : Nat) (m : μ) (d : Nat) (s : State ι κ μ) : Prop
    extends Awaiting handle w m d s where
  published : (s.box.mailbox.slot d).sequence=d+1
  calm : ∀ k,(s.workers k).delivering=false

/-- The `d`-th message is being handed over, or has been. -/
def Handed (handle : Handle) (w : Nat) (m : μ) (d : Nat) (s : State ι κ μ) : Prop :=
  Advanced handle w m d s ∨ Awaiting handle w m d s ∧ ∃ k,(s.workers k).delivering=true

theorem Awaiting.handed_or (h : Awaiting handle w m d s) :
    Handed handle w m d s ∨ ∀ k,(s.workers k).delivering=false := by
  by_cases hd : ∃ k,(s.workers k).delivering=true
  · exact Or.inl (Or.inr ⟨h,hd⟩)
  · exact Or.inr fun k => by simpa using fun hk => hd ⟨k,hk⟩

/-- The counter that has its turn fits into a word. -/
theorem Awaiting.wrap_eq (h : Awaiting handle w m d s) : wrap (d+1)=d+1 := by
  obtain ⟨x,hx,hclaim⟩ := h.claimed
  obtain ⟨hrange,st,hi⟩ := Mpsc.reachable_inv hx.reachable
  obtain ⟨hlt,-⟩ := List.getElem?_eq_some_iff.mp hclaim
  have hb := hi.bound hrange
  have hroom := hi.room
  have hahead := h.ahead
  have hsolved := h.solved
  exact wrap_of_lt (by omega)

theorem Calm.head (h : Calm handle w m d s) : s.box.mailbox.readIndex=d ∧
    s.box.mailbox.canDequeue (.loadSequence d)=.returned true := by
  obtain ⟨x,hx,-⟩ := h.claimed
  have hread := (hx.settled h.calm).2
  rw [hx.queue,h.solved] at hread
  simp [hread,canDequeue,h.published,h.wrap_eq,signedSub_self]

theorem Calm.awake (h : Calm handle w m d s) (hf : s.box.scheduled=false) : Awake s := by
  obtain ⟨x,hx,-⟩ := h.claimed
  obtain ⟨hread,hdeq⟩ := h.head
  apply hx.inv.wake _ hf
  unfold canDequeue at hdeq
  unfold headPublished
  rw [hread]
  exact Control.returned.inj hdeq

/-- While the flag is set somebody has the permit to run the coroutine. -/
theorem Calm.permit (h : Calm handle w m d s) (hs : s.box.scheduled=true) :
    (∃ k,(s.workers k).executes=true) ∨ (∃ k,s.workers k=.resume) ∨
      0 < s.scheduler.length ∨ ∃ i,owesEnqueue (s.senders i)=true := by
  obtain ⟨x,hx,-⟩ := h.claimed
  have hp := hx.inv.permit
  rw [hs] at hp
  by_contra hnone
  push Not at hnone
  obtain ⟨he,hf,hl,ho⟩ := hnone
  have h1 := (countThreads_eq_zero_iff WorkerPc.executes s.workers).mpr
    fun k => by simpa using he k
  have h2 := (countThreads_eq_zero_iff WorkerPc.returnsFalse s.workers).mpr fun k => by
    cases hpc : s.workers k with
    | resume => exact absurd hpc (hf k)
    | _ => rfl
  have h3 := (countThreads_eq_zero_iff owesEnqueue s.senders).mpr fun i => by simpa using ho i
  simp only [permits,h1,h2,h3,Bool.toNat_true] at hp
  omega

/-- A worker that runs the coroutine finds the published head. -/
theorem Calm.drains (h : Calm handle w m d s) {k : κ} {b : MailBox μ} {pc : WorkerPc μ}
    (hacc : Access handle s.box (s.workers k) b pc) (hk : (s.workers k).drains=true) :
    pc.delivering=true ∨ pc.drains=true ∧ pc.rank < (s.workers k).rank := by
  obtain ⟨x,hx,-⟩ := h.claimed
  obtain ⟨-,st,hi⟩ := Mpsc.reachable_inv hx.reachable
  obtain ⟨hret,hread⟩ := hx.settled h.calm
  have hsolved := h.solved
  have hdeq := h.head.2
  have hd := h.calm k
  have hat := hx.running k
  have hok := hi.consumer
  generalize s.workers k=pc₀ at hacc hk hd hat
  cases hacc with
  | markRunning | resume | ready => exact Or.inr ⟨rfl,by simp [WorkerPc.rank,ReceivePc.start]⟩
  | checkIndex => exact Or.inr ⟨rfl,by simp [WorkerPc.rank]⟩
  | countSolved => cases hd
  | @dequeue pc pc' q access =>
    cases pc with
    | loadIndex =>
      cases access
      exact Or.inr ⟨rfl,by simp [WorkerPc.rank]⟩
    | loadSequence r =>
      simp only [tryDequeue] at access
      split_ifs at access
      · cases access
      · cases access
        exact Or.inl rfl
    | _ => cases hd
  | @found pc q m' access =>
    cases pc with
    | loadSequence r =>
      simp only [tryDequeue] at access
      split_ifs at access <;> cases access
    | loadIndex => cases access
    | _ => cases hd
  | @empty pc q access =>
    cases pc with
    | loadSequence r =>
      rw [(hat rfl).1] at hok
      obtain rfl : r=d := hok.2.trans (hret.trans hsolved)
      simp only [canDequeue,Control.returned.injEq,decide_eq_true_eq] at hdeq
      simp only [tryDequeue] at access
      split_ifs at access with hneg
      · omega
      · cases access
    | loadIndex => cases access
    | _ => cases hd
  | @unready r access =>
    obtain rfl : r=d := (hat rfl).2.2.trans (hread.trans hsolved)
    rw [hdeq] at access
    cases access
  | _ => cases hk

theorem Follows.solved_le {s : State ι κ μ} {x : Mpsc.State ι μ} (h : Follows handle s x) :
    s.box.solvedNr ≤ x.returned.length := by
  by_cases hx : ∃ k,(s.workers k).executes=true
  · obtain ⟨k,hk⟩ := hx
    have hat := h.running k hk
    unfold At at hat
    split at hat <;> omega
  · exact (h.resting fun k => by simpa using fun hk => hx ⟨k,hk⟩).2.ge

variable [DecidableEq κ]

theorem Follows.next {x : Mpsc.State ι μ} (h : Follows handle s x)
    (hn : Wakeup.next handle s a=some t) (hr : InRange s a t) :
    ∃ y,Follows handle t y ∧ (y=x ∨ ∃ b,Mpsc.next x b=some y) := by
  have hstep := simulates handle s a t x h hn hr
  unfold Machine.Answers at hstep
  split at hstep
  · exact ⟨x,hstep,Or.inl rfl⟩
  · obtain ⟨y,hy,hf⟩ := hstep
    exact ⟨y,hf,Or.inr ⟨_,hy⟩⟩

theorem Awaiting.next (h : Awaiting handle w m d s) (hn : Wakeup.next handle s a=some t)
    (hr : InRange s a t) : Advanced handle w m d t ∨ Awaiting handle w m d t := by
  obtain ⟨x,hx,hclaim⟩ := h.claimed
  obtain ⟨y,hy,hstep⟩ := hx.next hn hr
  have hclaim' : y.claimed[w]?=some m := by
    rcases hstep with rfl | ⟨b,hb⟩
    · exact hclaim
    · obtain ⟨hlt,he⟩ := List.getElem?_eq_some_iff.mp hclaim
      have hget := List.prefix_iff_getElem?.mp (Mpsc.next_claimed hb).1 w hlt
      exact hget.trans (congrArg some he)
  have hsolved := h.solved
  have hahead := h.ahead
  by_cases hrec : Received w m t
  · exact Or.inl (Or.inl hrec)
  · rcases next_solved hn with he | ⟨he,k,m',hk⟩
    · exact Or.inr ⟨⟨by omega,y,hy,hclaim'⟩,by omega,hrec⟩
    · have hne : s.box.solvedNr≠w := by
        intro hw
        have hm := hx.solving hk
        rw [hw,hclaim] at hm
        exact h.missing ⟨hw,k,hm ▸ hk⟩
      exact Or.inl (Or.inr ⟨⟨by omega,y,hy,hclaim'⟩,by omega⟩)

theorem Calm.next (h : Calm handle w m d s) (hn : Wakeup.next handle s a=some t)
    (hr : InRange s a t) : Handed handle w m d t ∨ Calm handle w m d t := by
  rcases h.toAwaiting.next hn hr with hadv | hawait
  · exact Or.inl (Or.inl hadv)
  rcases hawait.handed_or with hhand | hcalm
  · exact Or.inl hhand
  refine Or.inr ⟨hawait,?_,hcalm⟩
  obtain ⟨x,hx,hclaim⟩ := h.claimed
  obtain ⟨y,hy,hstep⟩ := hx.next hn hr
  have hpub := h.published
  rw [← hx.queue] at hpub
  rw [← hy.queue]
  rcases hstep with rfl | ⟨b,hb⟩
  · exact hpub
  · obtain ⟨hrange,st,hi⟩ := Mpsc.reachable_inv hx.reachable
    obtain ⟨hlt,-⟩ := List.getElem?_eq_some_iff.mp hclaim
    have hlen := (Mpsc.next_claimed hb).1.length_le
    have hahead := h.ahead
    have hsolved := h.solved
    have hret := (hy.settled hcalm).1
    rw [hawait.solved] at hret
    rcases hi.next_sequence hrange hb hret.le (by omega) with he | he
    · exact he.trans hpub
    · exact he

end Stages

section Run

variable [DecidableEq ι] [DecidableEq κ] {handle : Handle}
  {r : (machine ι κ μ handle).Trace InRange} {w d n : Nat} {m : μ}

/-- A worker that goes on, in a stage `C` of the run that only `Q` ends. -/
theorem work_leadsTo {k : κ} {C P Q : State ι κ μ → Prop} (fair : r.Fair fun a => a=.work k)
    (stage : ∀ s a t,C s → next handle s a=some t → InRange s a t → Q t ∨ C t)
    (busy : ∀ s,P s → s.workers k≠.idle)
    (keep : ∀ s a t,C s → C t → P s → next handle s a=some t → t.workers k=s.workers k →
      Q t ∨ P t)
    (own : ∀ s b pc,C s → C (setWorker s k b pc) → P s →
      Access handle s.box (s.workers k) b pc →
      Q (setWorker s k b pc) ∨ P (setWorker s k b pc) ∧ pc.rank < (s.workers k).rank)
    (hc : C (r.state n)) (hp : P (r.state n)) : ∃ l ≥ n,Q (r.state l) := by
  apply r.leadsTo (P := fun s => C s ∧ P s) fair (fun s => (s.workers k).rank) _ _ ⟨hc,hp⟩
  · rintro s ⟨-,hp⟩ -
    exact work_enabled (busy s hp)
  · rintro s a t ⟨hc,hp⟩ hn hr
    rcases stage s a t hc hn hr with hq | hc'
    · exact Or.inl hq
    by_cases ha : a=.work k
    · subst a
      obtain ⟨b,pc,rfl,hacc⟩ := work_access hn
      rcases own s b pc hc hc' hp hacc with hq | ⟨hp',hlt⟩
      · exact Or.inl hq
      · rw [setWorker_self]
        exact Or.inr ⟨⟨hc',hp'⟩,hlt.le,fun _ => hlt⟩
    · have hsame := next_worker hn (busy s hp) ha
      rcases keep s a t hc hc' hp hn hsame with hq | hp'
      · exact Or.inl hq
      · rw [hsame]
        exact Or.inr ⟨⟨hc',hp'⟩,le_rfl,fun he => absurd he ha⟩

theorem send_leadsTo {i : ι} {C P Q : State ι κ μ → Prop}
    (fair : r.Fair fun a => ∃ spurious,a=.send i spurious)
    (stage : ∀ s a t,C s → next handle s a=some t → InRange s a t → Q t ∨ C t)
    (busy : ∀ s,P s → s.senders i≠none)
    (keep : ∀ s a t,C s → C t → P s → next handle s a=some t → t.senders i=s.senders i →
      Q t ∨ P t)
    (own : ∀ s spurious t,C s → C t → P s → next handle s (.send i spurious)=some t →
      Q t ∨ P t ∧ sendRank (t.senders i) < sendRank (s.senders i))
    (hc : C (r.state n)) (hp : P (r.state n)) : ∃ l ≥ n,Q (r.state l) := by
  apply r.leadsTo (P := fun s => C s ∧ P s) fair (fun s => sendRank (s.senders i)) _ _ ⟨hc,hp⟩
  · rintro s ⟨-,hp⟩ -
    obtain ⟨pc,hpc⟩ := Option.ne_none_iff_exists'.mp (busy s hp)
    exact send_enabled hpc
  · rintro s a t ⟨hc,hp⟩ hn hr
    rcases stage s a t hc hn hr with hq | hc'
    · exact Or.inl hq
    by_cases ha : ∃ spurious,a=.send i spurious
    · obtain ⟨spurious,rfl⟩ := ha
      rcases own s spurious t hc hc' hp hn with hq | ⟨hp',hlt⟩
      · exact Or.inl hq
      · exact Or.inr ⟨⟨hc',hp'⟩,hlt.le,fun _ => hlt⟩
    · obtain ⟨pc,hpc⟩ := Option.ne_none_iff_exists'.mp (busy s hp)
      have hsame := (next_sender hn hpc fun spurious he => ha ⟨spurious,he⟩).trans hpc.symm
      rcases keep s a t hc hc' hp hn hsame with hq | hp'
      · exact Or.inl hq
      · rw [hsame]
        exact Or.inr ⟨⟨hc',hp'⟩,le_rfl,fun he => absurd he ha⟩

variable [Fintype ι] [Fintype κ]

/-- A worker that has begun to hand the message over does so. -/
theorem Handed.advances (workers : ∀ k : κ,r.Fair fun a => a=.work k)
    (h : Handed handle w m d (r.state n)) : ∃ l ≥ n,Advanced handle w m d (r.state l) := by
  rcases h with hadv | ⟨hawait,k,hk⟩
  · exact ⟨n,le_rfl,hadv⟩
  apply work_leadsTo (P := fun s => (s.workers k).delivering=true) (workers k)
    (fun s a t ha => ha.next) _ _ _ hawait hk
  · intro s hd hidle
    rw [hidle] at hd
    cases hd
  · intro s a t _ _ hd _ hsame
    exact Or.inr (by rw [hsame]; exact hd)
  · intro s b pc ha ha' hd hacc
    rcases hacc.delivers hd with hone | ⟨hd',hlt⟩
    · have hs' : b.solvedNr=d := ha'.solved
      have hs := ha.solved
      omega
    · exact Or.inr ⟨by rw [setWorker_self]; exact hd',hlt⟩

/-- The producer of the counter that has its turn publishes it. -/
theorem Awaiting.publishes (senders : ∀ i : ι,r.Fair fun a => ∃ spurious,a=.send i spurious)
    (h : Awaiting handle w m d (r.state n)) {i : ι} {m' : μ} {pc : EnqueuePc}
    (hi : (r.state n).senders i=some (.tryEnqueue m' pc)) (hw : Mpsc.owned pc=some d) :
    ∃ l ≥ n,Advanced handle w m d (r.state l) ∨
      Awaiting handle w m d (r.state l) ∧ ((r.state l).box.mailbox.slot d).sequence=d+1 := by
  apply send_leadsTo (C := Awaiting handle w m d)
    (P := fun s => ∃ m' pc,s.senders i=some (.tryEnqueue m' pc) ∧ Mpsc.owned pc=some d)
    (Q := fun s => Advanced handle w m d s ∨
      Awaiting handle w m d s ∧ (s.box.mailbox.slot d).sequence=d+1)
    (senders i) (fun s a t ha hn hr => (ha.next hn hr).imp_left Or.inl) _ _ _ h ⟨m',pc,hi,hw⟩
  · rintro s ⟨m',pc,hi,-⟩
    simp [hi]
  · rintro s a t - - ⟨m',pc,hi,hw⟩ - hsame
    exact Or.inr ⟨m',pc,hsame.trans hi,hw⟩
  · rintro s spurious t ha ha' ⟨m',pc,hi,hw⟩ hn
    simp only [Wakeup.next,hi] at hn
    cases pc with
    | loadIndex | loadSequence | compareExchange => cases hw
    | writeMessage w' =>
      cases hw
      cases hn
      refine Or.inr ⟨⟨m',.storeSequence d,by simp [MailBox.send,tryEnqueue],rfl⟩,?_⟩
      simp [hi,MailBox.send,tryEnqueue,sendRank]
    | storeSequence w' =>
      cases hw
      cases hn
      refine Or.inl (Or.inr ⟨ha',?_⟩)
      simp [MailBox.send,tryEnqueue,slot_setSlot,ha.wrap_eq]

theorem Calm.drained (workers : ∀ k : κ,r.Fair fun a => a=.work k)
    (h : Calm handle w m d (r.state n)) {k : κ} (hk : ((r.state n).workers k).drains=true) :
    ∃ l ≥ n,Handed handle w m d (r.state l) := by
  apply work_leadsTo (P := fun s => (s.workers k).drains=true) (workers k)
    (fun s a t hc => hc.next) _ _ _ h hk
  · intro s hd hidle
    rw [hidle] at hd
    cases hd
  · intro s a t _ _ hd _ hsame
    exact Or.inr (by rw [hsame]; exact hd)
  · intro s b pc hc hc' hd hacc
    rcases hc.drains hacc hd with hdel | ⟨hd',hlt⟩
    · have hcalm := hc'.calm k
      rw [setWorker_self,hdel] at hcalm
      cases hcalm
    · exact Or.inr ⟨by rw [setWorker_self]; exact hd',hlt⟩

/-- `Calm.next` as a stage that also ends where the run gets on to `X`. -/
theorem Calm.stage {X : State ι κ μ → Prop} (s : State ι κ μ) (a : Action ι μ κ)
    (t : State ι κ μ) (h : Calm handle w m d s) (hn : Wakeup.next handle s a=some t)
    (hr : InRange s a t) : (Handed handle w m d t ∨ X t) ∨ Calm handle w m d t :=
  (h.next hn hr).imp_left Or.inl

/-- The permit is where nobody can lose it before the head is looked at. -/
def Bound (s : State ι κ μ) : Prop :=
  (∃ k,(s.workers k).drains=true) ∨ 0 < s.scheduler.length ∨ ∃ i,owesEnqueue (s.senders i)=true

/-- With the coroutine in the scheduler, a worker that is on its way out of `await_suspend`
becomes idle. -/
theorem Calm.leaves (workers : ∀ k : κ,r.Fair fun a => a=.work k)
    (h : Calm handle w m d (r.state n)) (hs : 0 < (r.state n).scheduler.length) (k : κ) :
    ∃ l ≥ n,(Handed handle w m d (r.state l) ∨
        Calm handle w m d (r.state l) ∧ ∃ k,((r.state l).workers k).drains=true) ∨
      Calm handle w m d (r.state l) ∧ 0 < (r.state l).scheduler.length ∧
        (r.state l).workers k=.idle := by
  by_cases hk : (r.state n).workers k=.idle
  · exact ⟨n,le_rfl,Or.inr ⟨h,hs,hk⟩⟩
  apply work_leadsTo (C := Calm handle w m d)
    (P := fun s => 0 < s.scheduler.length ∧ s.workers k≠.idle)
    (Q := fun s => (Handed handle w m d s ∨ Calm handle w m d s ∧ ∃ k,(s.workers k).drains=true) ∨
      Calm handle w m d s ∧ 0 < s.scheduler.length ∧ s.workers k=.idle)
    (workers k) (fun s a t hc hn hr => (hc.next hn hr).imp_left fun hh => Or.inl (Or.inl hh))
    _ _ _ h ⟨hs,hk⟩
  · intro s hp
    exact hp.2
  · rintro s a t - hc' ⟨hs,hk⟩ hn hsame
    rcases next_scheduler hn hs with hs' | hd
    · exact Or.inr ⟨hs',by rw [hsame]; exact hk⟩
    · exact Or.inl (Or.inl (Or.inr ⟨hc',hd⟩))
  · rintro s b pc hc hc' ⟨hs,hk⟩ hacc
    obtain ⟨x,hx,-⟩ := hc.claimed
    obtain ⟨hset,hrest⟩ := hx.inv.queued hs
    obtain ⟨hexec,hfalse⟩ := hrest k
    have hself := setWorker_self s k b pc
    generalize s.workers k=pc₀ at hacc hexec hfalse
    cases hacc with
    | recheckIndex | recheckReady =>
      exact Or.inr ⟨⟨hs,by rw [hself]; nofun⟩,by simp [WorkerPc.rank]⟩
    | recheckUnready | lost => exact Or.inl (Or.inr ⟨hc',hs,hself⟩)
    | won clear => exact absurd (clear.symm.trans hset) (by decide)
    | resume => cases hfalse
    | _ => cases hexec

/-- The scheduler hands the coroutine out. -/
theorem Calm.resumed (takes : r.Fair fun a => ∃ k position,a=.take k position)
    (h : Calm handle w m d (r.state n)) (hs : 0 < (r.state n).scheduler.length) {k : κ}
    (hk : (r.state n).workers k=.idle) : ∃ l ≥ n,Handed handle w m d (r.state l) ∨
      Calm handle w m d (r.state l) ∧ ∃ k,((r.state l).workers k).drains=true := by
  apply r.leadsTo
    (P := fun s => Calm handle w m d s ∧ 0 < s.scheduler.length ∧ s.workers k=.idle)
    (Q := fun s => Handed handle w m d s ∨ Calm handle w m d s ∧ ∃ k,(s.workers k).drains=true)
    takes (fun _ => 0) _ _ ⟨h,hs,hk⟩
  · intro s ⟨_,hs,hk⟩ _
    exact take_enabled hk hs
  · intro s a t ⟨hc,hs,hk⟩ hn hr
    rcases hc.next hn hr with hhand | hc'
    · exact Or.inl (Or.inl hhand)
    by_cases ha : ∃ k position,a=.take k position
    · obtain ⟨k',position,rfl⟩ := ha
      have htake : Wakeup.next handle s (.take k' position)=some t := hn
      exact Or.inl (Or.inr ⟨hc',k',take_drains htake⟩)
    · rcases next_scheduler hn hs with hs' | hd
      · exact Or.inr ⟨⟨hc',hs',next_idle hn hk ha⟩,le_rfl,fun hk => absurd hk ha⟩
      · exact Or.inl (Or.inr ⟨hc',hd⟩)

theorem Calm.taken [Nonempty κ] (workers : ∀ k : κ,r.Fair fun a => a=.work k)
    (takes : r.Fair fun a => ∃ k position,a=.take k position)
    (h : Calm handle w m d (r.state n)) (hs : 0 < (r.state n).scheduler.length) :
    ∃ l ≥ n,Handed handle w m d (r.state l) := by
  obtain ⟨k⟩ := ‹Nonempty κ›
  have hlead : ∃ l ≥ n,Handed handle w m d (r.state l) ∨
      Calm handle w m d (r.state l) ∧ ∃ k,((r.state l).workers k).drains=true := by
    apply Machine.Trace.cancel (h.leaves workers hs k)
    rintro l ⟨hc,hs,hk⟩
    exact hc.resumed takes hs hk
  apply Machine.Trace.cancel hlead
  rintro l ⟨hc,k,hk⟩
  exact hc.drained workers hk

/-- A sender that owes the coroutine its place in the scheduler puts it there. -/
theorem Calm.enqueued (senders : ∀ i : ι,r.Fair fun a => ∃ spurious,a=.send i spurious)
    (h : Calm handle w m d (r.state n)) {i : ι} (hi : owesEnqueue ((r.state n).senders i)=true) :
    ∃ l ≥ n,Handed handle w m d (r.state l) ∨
      Calm handle w m d (r.state l) ∧ 0 < (r.state l).scheduler.length := by
  apply send_leadsTo (C := Calm handle w m d) (P := fun s => owesEnqueue (s.senders i)=true)
    (Q := fun s => Handed handle w m d s ∨ Calm handle w m d s ∧ 0 < s.scheduler.length)
    (senders i) Calm.stage _ _ _ h hi
  · intro s ho hi
    rw [hi] at ho
    cases ho
  · intro s a t _ _ ho _ hsame
    exact Or.inr (by rw [hsame]; exact ho)
  · intro s spurious t hc hc' ho hn
    obtain ⟨x,hx,-⟩ := hc.claimed
    cases hpc : s.senders i with
    | none =>
      rw [hpc] at ho
      cases ho
    | some pc =>
      rw [hpc] at ho
      simp only [Wakeup.next,hpc] at hn
      cases pc with
      | loadConsumer =>
        simp only [MailBox.send,hx.inv.consumer] at hn
        cases hn
        exact Or.inr ⟨by simp [owesEnqueue],by simp [sendRank]⟩
      | enqueue handle' =>
        cases hn
        exact Or.inl (Or.inr ⟨hc',by simp [MailBox.send]⟩)
      | tryEnqueue | exchange | release | countDiscarded => cases ho

theorem Calm.bound [Nonempty κ] (senders : ∀ i : ι,r.Fair fun a => ∃ spurious,a=.send i spurious)
    (workers : ∀ k : κ,r.Fair fun a => a=.work k)
    (takes : r.Fair fun a => ∃ k position,a=.take k position)
    (h : Calm handle w m d (r.state n)) (hb : Bound (r.state n)) :
    ∃ l ≥ n,Handed handle w m d (r.state l) := by
  rcases hb with ⟨k,hk⟩ | hs | ⟨i,hi⟩
  · exact h.drained workers hk
  · exact h.taken workers takes hs
  · apply Machine.Trace.cancel (h.enqueued senders hi)
    rintro l ⟨hc,hs⟩
    exact hc.taken workers takes hs

theorem Calm.next_bound {s t : State ι κ μ} {a : Action ι μ κ} (h : Calm handle w m d s)
    (hf : s.box.scheduled=false) (hn : Wakeup.next handle s a=some t) :
    Bound t ∨ t.box.scheduled=false := by
  obtain ⟨x,hx,-⟩ := h.claimed
  rcases hx.inv.next_scheduled hf hn with hf' | hi | ⟨k,hk⟩
  · exact Or.inr hf'
  · exact Or.inl (Or.inr (Or.inr hi))
  · exact Or.inl (Or.inl ⟨k,by rw [hk]; rfl⟩)

/-- With the flag clear and the head published somebody sets the flag. -/
theorem Calm.woken (senders : ∀ i : ι,r.Fair fun a => ∃ spurious,a=.send i spurious)
    (workers : ∀ k : κ,r.Fair fun a => a=.work k) (h : Calm handle w m d (r.state n))
    (hf : (r.state n).box.scheduled=false) (ha : Awake (r.state n)) :
    ∃ l ≥ n,Handed handle w m d (r.state l) ∨
      Calm handle w m d (r.state l) ∧ Bound (r.state l) := by
  rcases ha with ⟨i,hi⟩ | ⟨k,hk⟩
  · apply send_leadsTo (C := Calm handle w m d)
      (P := fun s => s.box.scheduled=false ∧ s.senders i=some .exchange)
      (Q := fun s => Handed handle w m d s ∨ Calm handle w m d s ∧ Bound s)
      (senders i) Calm.stage _ _ _ h ⟨hf,hi⟩
    · intro s hp
      simp [hp.2]
    · intro s a t hc hc' hp hn hsame
      rcases hc.next_bound hp.1 hn with hb | hf'
      · exact Or.inl (Or.inr ⟨hc',hb⟩)
      · exact Or.inr ⟨hf',hsame.trans hp.2⟩
    · intro s spurious t _ hc' hp hn
      simp only [Wakeup.next,hp.1,hp.2,MailBox.send] at hn
      cases hn
      exact Or.inl (Or.inr ⟨hc',Or.inr (Or.inr ⟨i,by simp [owesEnqueue]⟩)⟩)
  · apply work_leadsTo (C := Calm handle w m d)
      (P := fun s => s.box.scheduled=false ∧ SeesHead s.box.mailbox (s.workers k))
      (Q := fun s => Handed handle w m d s ∨ Calm handle w m d s ∧ Bound s)
      (workers k) Calm.stage _ _ _ h ⟨hf,hk⟩
    · intro s hp hidle
      have hk := hp.2
      rw [hidle] at hk
      exact hk
    · intro s a t hc hc' hp hn hsame
      rcases hc.next_bound hp.1 hn with hb | hf'
      · exact Or.inl (Or.inr ⟨hc',hb⟩)
      · have hk := hp.2
        refine Or.inr ⟨hf',?_⟩
        rw [hsame]
        unfold SeesHead at hk ⊢
        rw [hc'.head.1]
        rw [hc.head.1] at hk
        exact hk
    · intro s b pc hc hc' hp hacc
      obtain ⟨hf,hk⟩ := hp
      have hself := setWorker_self s k b pc
      obtain ⟨hread,hdeq⟩ := hc.head
      generalize s.workers k=pc₀ at hacc hk
      cases hacc with
      | recheckIndex => exact Or.inr ⟨⟨hf,by rw [hself]; rfl⟩,by simp [WorkerPc.rank]⟩
      | recheckReady => exact Or.inr ⟨⟨hf,by rw [hself]; trivial⟩,by simp [WorkerPc.rank]⟩
      | @recheckUnready r access =>
        obtain rfl : r=d := Eq.trans hk hread
        rw [hdeq] at access
        cases access
      | won => exact Or.inl (Or.inr ⟨hc',Or.inl ⟨k,by rw [hself]; rfl⟩⟩)
      | lost set => exact absurd (hf.symm.trans set) (by decide)
      | _ => exact hk.elim

/-- A worker that has looked too early goes on to clear the flag. -/
theorem Calm.stops (workers : ∀ k : κ,r.Fair fun a => a=.work k)
    (h : Calm handle w m d (r.state n)) {k : κ} {pc : SuspendPc}
    (hk : (r.state n).workers k=.suspend pc) (hpc : pc=.storeConsumer ∨ pc=.clearScheduled) :
    ∃ l ≥ n,Handed handle w m d (r.state l) ∨
      Calm handle w m d (r.state l) ∧ (r.state l).box.scheduled=false := by
  apply work_leadsTo (C := Calm handle w m d)
    (P := fun s => ∃ pc,s.workers k=.suspend pc ∧ (pc=.storeConsumer ∨ pc=.clearScheduled))
    (Q := fun s => Handed handle w m d s ∨ Calm handle w m d s ∧ s.box.scheduled=false)
    (workers k) Calm.stage _ _ _ h ⟨pc,hk,hpc⟩
  · rintro s ⟨pc,hk,-⟩
    rw [hk]
    nofun
  · rintro s a t - - ⟨pc,hk,hpc⟩ - hsame
    exact Or.inr ⟨pc,hsame.trans hk,hpc⟩
  · rintro s b pc' hc hc' ⟨pc,hk,hpc⟩ hacc
    have hself := setWorker_self s k b pc'
    rw [hk] at hacc ⊢
    rcases hpc with rfl | rfl <;> cases hacc
    · exact Or.inr ⟨⟨_,hself,Or.inr rfl⟩,by simp [WorkerPc.rank]⟩
    · exact Or.inl (Or.inr ⟨hc',rfl⟩)

section Fair

variable [Nonempty κ] (senders : ∀ i : ι,r.Fair fun a => ∃ spurious,a=.send i spurious)
  (workers : ∀ k : κ,r.Fair fun a => a=.work k)
  (takes : r.Fair fun a => ∃ k position,a=.take k position)

include senders workers takes

theorem Calm.handed_of_clear (h : Calm handle w m d (r.state n))
    (hf : (r.state n).box.scheduled=false) : ∃ l ≥ n,Handed handle w m d (r.state l) := by
  apply Machine.Trace.cancel (h.woken senders workers hf (h.awake hf))
  rintro l ⟨hc,hb⟩
  exact hc.bound senders workers takes hb

/-- A published message is handed over once it has its turn. -/
theorem Calm.handed (h : Calm handle w m d (r.state n)) :
    ∃ l ≥ n,Handed handle w m d (r.state l) := by
  cases hs : (r.state n).box.scheduled with
  | false => exact h.handed_of_clear senders workers takes hs
  | true =>
    rcases h.permit hs with ⟨k,hk⟩ | ⟨k,hk⟩ | hq | hi
    · by_cases hd : ((r.state n).workers k).drains=true
      · exact h.drained workers hd
      · -- the only other points of the coroutine's body are the first two of `await_suspend`
        have hstop : ∃ pc,(r.state n).workers k=.suspend pc ∧
            (pc=.storeConsumer ∨ pc=.clearScheduled) := by
          cases hpc : (r.state n).workers k with
          | suspend pc =>
            rw [hpc] at hk
            cases pc with
            | storeConsumer => exact ⟨_,rfl,Or.inl rfl⟩
            | clearScheduled => exact ⟨_,rfl,Or.inr rfl⟩
            | recheck | exchange => cases hk
          | idle =>
            rw [hpc] at hk
            cases hk
          | markRunning | receive | awaitReady | resume => exact absurd (by rw [hpc]; rfl) hd
        obtain ⟨pc,hpc,hor⟩ := hstop
        apply Machine.Trace.cancel (h.stops workers hpc hor)
        rintro l ⟨hc,hf⟩
        exact hc.handed_of_clear senders workers takes hf
    · exact h.drained workers (k := k) (by rw [hk]; rfl)
    · exact h.bound senders workers takes (Or.inr (Or.inl hq))
    · exact h.bound senders workers takes (Or.inr (Or.inr hi))

theorem Awaiting.handed (h : Awaiting handle w m d (r.state n))
    (hp : ((r.state n).box.mailbox.slot d).sequence=d+1) :
    ∃ l ≥ n,Handed handle w m d (r.state l) := by
  rcases h.handed_or with hhand | hcalm
  · exact ⟨n,le_rfl,hhand⟩
  · exact Calm.handed senders workers takes ⟨h,hp,hcalm⟩

theorem Awaiting.advances (h : Awaiting handle w m d (r.state n)) :
    ∃ l ≥ n,Advanced handle w m d (r.state l) := by
  have hhanded : ∃ l ≥ n,Handed handle w m d (r.state l) := by
    rcases h.handed_or with hhand | hcalm
    · exact ⟨n,le_rfl,hhand⟩
    by_cases hp : ((r.state n).box.mailbox.slot d).sequence=d+1
    · exact h.handed senders workers takes hp
    -- the counter was claimed, so its producer is on the way
    obtain ⟨x,hx,hclaim⟩ := h.claimed
    obtain ⟨hlt,-⟩ := List.getElem?_eq_some_iff.mp hclaim
    have hret := (hx.settled hcalm).1
    have hsolved := h.solved
    have hahead := h.ahead
    obtain ⟨i,m',pc,hi,hw⟩ := Mpsc.reachable_attended hx.reachable d (by omega) (by omega)
      (by rwa [hx.queue])
    have hsend : (r.state n).senders i=some (.tryEnqueue m' pc) := by
      rw [hx.producers i] at hi
      unfold producer at hi
      split at hi
      · rename_i hs
        cases hi
        exact hs
      · cases hi
    obtain ⟨l,hl,hadv | ⟨ha,hp⟩⟩ := h.publishes senders hsend hw
    · exact ⟨l,hl,Or.inl hadv⟩
    · obtain ⟨l',hl',hhand⟩ := ha.handed senders workers takes hp
      exact ⟨l',hl.trans hl',hhand⟩
  obtain ⟨l,hl,hhand⟩ := hhanded
  obtain ⟨l',hl',hadv⟩ := hhand.advances workers
  exact ⟨l',hl.trans hl',hadv⟩

theorem Pending.received (h : Pending handle w m (r.state n)) :
    ∃ l ≥ n,Received w m (r.state l) := by
  -- on the number of messages before it
  induction hd : w-(r.state n).box.solvedNr using Nat.strong_induction_on generalizing n with
  | _ left ih =>
  by_cases hrec : Received w m (r.state n)
  · exact ⟨n,le_rfl,hrec⟩
  have hawait : Awaiting handle w m (r.state n).box.solvedNr (r.state n) := ⟨h,rfl,hrec⟩
  obtain ⟨l,hl,hrec | ⟨hp,hlt⟩⟩ := hawait.advances senders workers takes
  · exact ⟨l,hl,hrec⟩
  · have hahead := hp.ahead
    obtain ⟨l',hl',hrec⟩ := ih _ (by omega) hp rfl
    exact ⟨l',hl.trans hl',hrec⟩

end Fair

theorem follows_all {size : Nat} (h2 : 2 ≤ bitCeil size) (hle : size ≤ 2^63)
    (h0 : r.state 0=init size handle) : ∀ n ≥ 0,∃ x,Follows handle (r.state n) x := by
  apply r.invariant (P := fun s => ∃ x,Follows handle s x)
  · exact ⟨_,h0 ▸ init_follows handle h2 hle⟩
  · rintro s a t ⟨x,hx⟩ hn hr
    obtain ⟨y,hy,-⟩ := hx.next hn hr
    exact ⟨y,hy⟩

/-- No message is left behind: once a `Send` has won a counter of the queue for its message, the
consumer gets that message from `try_receive`, after as many other messages as the counter says.
The threads are assumed to go on, and the scheduler to hand out a coroutine that it holds while a
worker is idle. -/
theorem sent_message_received [Nonempty κ] {size : Nat} (h2 : 2 ≤ bitCeil size)
    (hle : size ≤ 2^63) (h0 : r.state 0=init size handle)
    (senders : ∀ i : ι,r.Fair fun a => ∃ spurious,a=.send i spurious)
    (workers : ∀ k : κ,r.Fair fun a => a=.work k)
    (takes : r.Fair fun a => ∃ k position,a=.take k position) {i : ι} {pc : EnqueuePc}
    (hi : (r.state n).senders i=some (.tryEnqueue m pc)) (hw : Mpsc.owned pc=some w) :
    ∃ l ≥ n,∃ k,(r.state l).workers k=.receive (.countSolved (some m)) ∧
      (r.state l).box.solvedNr=w := by
  obtain ⟨x,hx⟩ := follows_all h2 hle h0 n (Nat.zero_le n)
  obtain ⟨-,st,hinv⟩ := Mpsc.reachable_inv hx.reachable
  have hp : x.producers i=some (m,pc) := by
    rw [hx.producers i,hi]
    rfl
  have hclaim : x.claimed[w]?=some m := by
    have hok := hinv.producer i m pc hp
    cases pc with
    | writeMessage | storeSequence =>
      cases hw
      exact hok.2.2
    | loadIndex | loadSequence | compareExchange => cases hw
  have hpend : Pending handle w m (r.state n) :=
    ⟨hx.solved_le.trans (hinv.held hp hw).2.2,x,hx,hclaim⟩
  obtain ⟨l,hl,hs,k,hk⟩ := hpend.received senders workers takes
  exact ⟨l,hl,k,hk,hs⟩

end Run

section Runs

open Machine

/-- The consumer finds its mailbox empty and sleeps; a message wakes it, and it sleeps again. -/
def wakesForOne : List (Action Unit Nat Unit) :=
  List.flatten [[.take () 0],List.replicate 9 (.work ()),[.call () 7],
    List.replicate 8 (.send () false),[.take () 0],List.replicate 15 (.work ())]

theorem wakesForOne_runs :
    ((machine Unit Unit Nat 9).exec InRange (init 2 9) wakesForOne).isSome=true := by
  decide +kernel

theorem sent_message_received_asleep :
    ∃ r : (machine Unit Unit Nat 9).Trace InRange,
      ((r.state 10).workers ()=.idle ∧ (r.state 10).box.scheduled=false) ∧
      (r.state 14).senders ()=some (.tryEnqueue 7 (.writeMessage 0)) ∧
      ∃ l ≥ 14,∃ k,(r.state l).workers k=.receive (.countSolved (some 7)) ∧
        (r.state l).box.solvedNr=0 := by
  let r := Trace.ofList (machine Unit Unit Nat 9) InRange (init 2 9) wakesForOne
    wakesForOne_runs
  have at_time := Trace.ofList_any wakesForOne_runs
  have hend (m : Nat) (hm : m ≥ 35) : r.state m=r.state 35 := Trace.ofList_last wakesForOne_runs hm
  have hasleep : (r.state 10).workers ()=.idle ∧ (r.state 10).box.scheduled=false :=
    of_decide_eq_true (at_time 10 (fun s => s.workers ()=.idle ∧ s.box.scheduled=false)
      (by decide +kernel))
  have hsend : (r.state 14).senders ()=some (.tryEnqueue 7 (.writeMessage 0)) :=
    of_decide_eq_true (at_time 14
      (fun s => s.senders ()=some (.tryEnqueue 7 (.writeMessage 0))) (by decide +kernel))
  obtain ⟨hidle,hnone,hnil⟩ : (r.state 35).workers ()=.idle ∧ (r.state 35).senders ()=none ∧
      (r.state 35).scheduler=[] :=
    of_decide_eq_true (at_time 35
      (fun s => s.workers ()=.idle ∧ s.senders ()=none ∧ s.scheduler=[]) (by decide +kernel))
  refine ⟨r,hasleep,hsend,?_⟩
  have hcap : 2 ≤ bitCeil 2 := by decide
  apply sent_message_received hcap (by decide) rfl _ _ _ hsend rfl
  · intro i
    refine r.fair_of_disabled ⟨35,fun m hm => ?_⟩
    rintro ⟨_,t,⟨spurious,rfl⟩,hn⟩
    simp [hend m hm,machine,next,hnone] at hn
  · intro k
    refine r.fair_of_disabled ⟨35,fun m hm => ?_⟩
    rintro ⟨_,t,rfl,hn⟩
    simp [hend m hm,machine,next,hidle,work] at hn
  · refine r.fair_of_disabled ⟨35,fun m hm => ?_⟩
    rintro ⟨_,t,⟨k,position,rfl⟩,hn⟩
    simp [hend m hm,machine,next,hnil] at hn

end Runs

end Acnet.Wakeup
