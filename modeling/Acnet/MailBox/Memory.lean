import Acnet.MailBox.Wakeup
import Acnet.Queue.MailMemory

/-!
`MailBox` with the memory orders that its accesses name, armed before anybody can send. The
coroutine wanders between the workers: whoever clears or finds clear `scheduled_` hands on what
it knows, and the scheduler hands a handle over with what its sender knows. Threads may also
synchronise by other means, so that one that sends may be the one that works.
-/

namespace Acnet.BoxMemory

open MailBox MailQueue MailMemory History Wakeup Mpsc

variable {ι κ μ : Type}

/-- `frame` is the coroutine's frame; its value says whether it has left its initial suspension.
`awaiter` is the member `mail_` of the `WaitAwaiter` in it: who wrote it last, and who read it
after clearing `scheduled_`. The last five fields are histories: the counters claimed and the
messages returned, the counter that each sender published last, the time at which `MarkRunning`
stored the flag, for every counter the time at which its sender set the flag, and the worker that
has cleared the flag, until it is set again. -/
structure State (ι κ μ : Type) where
  queue : Queue (ι⊕κ) μ
  consumer : History Loc (ι⊕κ) (Option Handle)
  scheduled : History Loc (ι⊕κ) Bool
  discardedNr : History Loc (ι⊕κ) Nat
  solvedNr : History Loc (ι⊕κ) Nat
  frame : Plain (ι⊕κ) Bool
  awaiter : Plain (ι⊕κ) Unit
  senders : ι → Option (SendPc μ)
  senderView : ι → View Loc (ι⊕κ)
  workers : κ → WorkerPc μ
  workerView : κ → View Loc (ι⊕κ)
  scheduler : List (Handle×View Loc (ι⊕κ))
  claimed : List μ
  returned : List (Option μ)
  published : ι → Nat
  marked : Option Nat
  exchanged : List (Nat×Nat)
  cleared : Option κ

inductive Action (ι κ μ : Type) where
  | call (i : ι) (message : μ)
  | send (i : ι) (spurious : Bool) (n : Nat)
  | take (k : κ) (position : Nat)
  | work (k : κ) (n : Nat)
  | sync (a b : ι⊕κ)

/-- `ArmConsumer(handle)` has bound the consumer, and it was enqueued once. -/
def init (size : Nat) (handle : Handle) : State ι κ μ where
  queue := .new size
  consumer := .initial (some handle)
  scheduled := .initial true
  discardedNr := .initial 0
  solvedNr := .initial 0
  frame := .new false
  awaiter := .new ()
  senders _ := none
  senderView _ := ⊥
  workers _ := .idle
  workerView _ := ⊥
  scheduler := [(handle,⊥)]
  claimed := []
  returned := []
  published _ := 0
  marked := none
  exchanged := []
  cleared := none

/-- The time of the write that was issued last. -/
def issued (h : History Loc (ι⊕κ) Bool) : Nat := h.getLast?.elim 0 (·.time)

variable [DecidableEq ι] [DecidableEq κ]

def setSender (s : State ι κ μ) (i : ι) (x : Option (SendPc μ)) (v : View Loc (ι⊕κ)) :
    State ι κ μ :=
  {s with senders := Function.update s.senders i x,senderView := Function.update s.senderView i v}

def setWorker (s : State ι κ μ) (k : κ) (pc : WorkerPc μ) (v : View Loc (ι⊕κ)) : State ι κ μ :=
  {s with workers := Function.update s.workers k pc,workerView := Function.update s.workerView k v}

/-- One access of `Send` by sender `i`; `n` says which write a load reads, or the time of a
store. `handle.done()` reads the frame, and the body never returns. -/
def send (s : State ι κ μ) (i : ι) (spurious : Bool) (n : Nat) : SendPc μ → Option (State ι κ μ)
  | .tryEnqueue message pc =>
      (s.queue.tryEnqueue (.inl i) message spurious n (s.senderView i) pc).map fun
        | (q,v,.running pc') =>
            {setSender s i (some (.tryEnqueue message pc')) v with
              queue := q,claimed := s.claimed++claim message pc'}
        | (q,v,.returned true) =>
            {setSender s i (some .exchange) v with
              queue := q,published := Function.update s.published i ((owned pc).getD 0)}
        | (q,v,.returned false) => {setSender s i (some (.release message)) v with queue := q}
  | .exchange =>
      (update .scheduled .acqRel s.scheduled (s.senderView i) n fun _ => true).map
        fun (found,h,v) =>
          {setSender s i (if found then none else some .loadConsumer) v with
            scheduled := h
            exchanged := s.exchanged++[(s.published i,issued h)]
            cleared := if found then s.cleared else none}
  | .loadConsumer =>
      (load .consumer .relaxed s.consumer (s.senderView i) n).map fun
        | (none,v) => setSender s i none v
        | (some handle,v) =>
            let v := v.tick (.inl i)
            {setSender s i (some (.enqueue handle)) v with frame := s.frame.noteRead (.inl i) v}
  | .enqueue handle =>
      some {setSender s i none (s.senderView i) with
        scheduler := s.scheduler++[(handle,s.senderView i)]}
  | .release _ => some (setSender s i (some .countDiscarded) (s.senderView i))
  | .countDiscarded =>
      (update .discardedNr .relaxed s.discardedNr (s.senderView i) n (·+1)).map fun (_,h,v) =>
        {setSender s i none v with discardedNr := h}

/-- The worker runs the coroutine and uses its frame with its next access. -/
def touches (pc : WorkerPc μ) : Bool := pc.executes || pc.returnsFalse

/-- `Wait()` constructs the awaiter right before the first access of `await_ready`. -/
def constructs : WorkerPc μ → Bool
  | .awaitReady .loadIndex => true
  | _ => false

/-- `await_suspend` reads the awaiter's `mail_` once more, after it has cleared the flag. -/
def rereads : WorkerPc μ → Bool
  | .suspend (.recheck .loadIndex) | .suspend .exchange => true
  | _ => false

/-- The uses of the frame that come with the worker's next access. -/
def touch (s : State ι κ μ) (k : κ) : State ι κ μ :=
  let v := (s.workerView k).tick (.inr k)
  if touches (s.workers k) then
    {s with
      frame := s.frame.set (.inr k) v s.frame.value
      awaiter := if constructs (s.workers k) then s.awaiter.set (.inr k) v () else s.awaiter
      workerView := Function.update s.workerView k v}
  else if rereads (s.workers k) then
    {s with
      awaiter := s.awaiter.noteRead (.inr k) v
      workerView := Function.update s.workerView k v}
  else s

/-- One access of the coroutine `handle` on worker `k`, which is at `pc`. -/
def step (handle : Handle) (s : State ι κ μ) (k : κ) (n : Nat) :
    WorkerPc μ → Option (State ι κ μ)
  | .idle => none
  | .markRunning =>
      (store .scheduled .release s.scheduled (s.workerView k) n true).map fun (h,v) =>
        {setWorker s k (.receive .start) v with scheduled := h,marked := some n}
  | .receive (.tryDequeue pc) =>
      (s.queue.tryDequeue (.inr k) n (s.workerView k) pc).map fun
        | (q,v,.running pc') => {setWorker s k (.receive (.tryDequeue pc')) v with queue := q}
        | (q,v,.returned none) => {setWorker s k (.awaitReady .loadIndex) v with queue := q}
        | (q,v,.returned (some m)) =>
            {setWorker s k (.receive (.countSolved m)) v with
              queue := q,returned := s.returned++[m]}
  | .receive (.countSolved _) =>
      (update .solvedNr .relaxed s.solvedNr (s.workerView k) n (·+1)).map fun (_,h,v) =>
        {setWorker s k (.receive .start) v with solvedNr := h}
  | .awaitReady pc =>
      (s.queue.canDequeue n (s.workerView k) pc).map fun
        | (v,.running pc') => setWorker s k (.awaitReady pc') v
        | (v,.returned true) => setWorker s k (.receive .start) v
        | (v,.returned false) => setWorker s k (.suspend .storeConsumer) v
  | .suspend .storeConsumer =>
      (store .consumer .relaxed s.consumer (s.workerView k) n (some handle)).map fun (h,v) =>
        {setWorker s k (.suspend .clearScheduled) v with consumer := h}
  | .suspend .clearScheduled =>
      (update .scheduled .acqRel s.scheduled (s.workerView k) n fun _ => false).map
        fun (_,h,v) =>
          {setWorker s k (.suspend (.recheck .loadIndex)) v with
            scheduled := h,cleared := some k}
  | .suspend (.recheck pc) =>
      (s.queue.canDequeue n (s.workerView k) pc).map fun
        | (v,.running pc') => setWorker s k (.suspend (.recheck pc')) v
        | (v,.returned true) => setWorker s k (.suspend .exchange) v
        | (v,.returned false) => setWorker s k .idle v
  | .suspend .exchange =>
      (update .scheduled .acqRel s.scheduled (s.workerView k) n fun _ => true).map
        fun (found,h,v) =>
          {setWorker s k (if found then .idle else .resume) v with
            scheduled := h,cleared := if found then s.cleared else none}
  | .resume => some (setWorker s k (.receive .start) (s.workerView k))

def viewOf (s : State ι κ μ) : ι⊕κ → View Loc (ι⊕κ)
  | .inl i => s.senderView i
  | .inr k => s.workerView k

def next (handle : Handle) (s : State ι κ μ) : Action ι κ μ → Option (State ι κ μ)
  | .call i m =>
      match s.senders i with
      | none => some (setSender s i (some (.start m)) (s.senderView i))
      | some _ => none
  | .send i spurious n =>
      match s.senders i with
      | none => none
      | some pc => send s i spurious n pc
  | .take k position =>
      match s.workers k,s.scheduler[position]? with
      | .idle,some (_,v) =>
          let v := (s.workerView k ⊔ v).tick (.inr k)
          some {setWorker s k (if s.frame.value then .receive .start else .markRunning) v with
            scheduler := s.scheduler.eraseIdx position
            frame := s.frame.set (.inr k) v true}
      | _,_ => none
  | .work k n => step handle (touch s k) k n (s.workers k)
  | .sync (.inl i) b =>
      some {s with senderView := Function.update s.senderView i (s.senderView i ⊔ viewOf s b)}
  | .sync (.inr k) b =>
      some {s with workerView := Function.update s.workerView k (s.workerView k ⊔ viewOf s b)}

def machine (ι κ μ : Type) [DecidableEq ι] [DecidableEq κ] (handle : Handle) :
    Machine (State ι κ μ) (Action ι κ μ) where
  start s := ∃ size,2 ≤ bitCeil size ∧ size ≤ 2^63 ∧ s=init size handle
  next := next handle

omit [DecidableEq ι] [DecidableEq κ]

def InRange (_ : State ι κ μ) (_ : Action ι κ μ) (t : State ι κ μ) : Prop := t.queue.InRange

instance (s : State ι κ μ) (a : Action ι κ μ) (t : State ι κ μ) : Decidable (InRange s a t) :=
  inferInstanceAs (Decidable t.queue.InRange)

/-- A use of the coroutine's frame is a data race: by a worker that runs it or takes it from the
scheduler, or by a sender that asks for `done()`. The reads of `await_suspend` after it has cleared
the flag are not among them. -/
def FrameRaces (s : State ι κ μ) : Prop :=
  (∃ k,touches (s.workers k)=true ∧ ¬s.frame.Writable (s.workerView k)) ∨
  (∃ e∈s.scheduler,¬s.frame.Writable e.2) ∨
  ∃ i,s.senders i=some .loadConsumer ∧ ¬s.frame.Readable (s.senderView i)

/-- `await_suspend` has cleared the flag, and its next read of the awaiter's `mail_` is a data
race. -/
def RereadRaces (s : State ι κ μ) (k : κ) : Prop :=
  rereads (s.workers k)=true ∧ ¬s.awaiter.Readable (s.workerView k)

/-- The construction of the next awaiter is a data race. -/
def WaitRaces (s : State ι κ μ) (k : κ) : Prop :=
  constructs (s.workers k)=true ∧ ¬s.awaiter.Writable (s.workerView k)

/-- The next access of a sender to its slot's message is a data race. -/
def SenderRaces (s : State ι κ μ) (i : ι) : Prop :=
  ∃ m w,s.senders i=some (.tryEnqueue m (.writeMessage w)) ∧
    ¬(s.queue.message (w &&& s.queue.mask)).Writable (s.senderView i)

/-- The next access of a worker to its slot's message is a data race. -/
def WorkerRaces (s : State ι κ μ) (k : κ) : Prop :=
  (∃ r,s.workers k=.receive (.tryDequeue (.readMessage r)) ∧
    ¬(s.queue.message (r &&& s.queue.mask)).Readable (s.workerView k)) ∨
  ∃ r m,s.workers k=.receive (.tryDequeue (.clearMessage r m)) ∧
    ¬(s.queue.message (r &&& s.queue.mask)).Writable (s.workerView k)

/-- No `Send` is under way, the coroutine is not scheduled, and no worker has to do with it. -/
def Quiet (s : State ι κ μ) : Prop :=
  (∀ i,s.senders i=none) ∧ (∀ k,s.workers k=.idle) ∧ s.scheduler=[]

end Acnet.BoxMemory
