import Acnet.Queue.MailQueue

namespace Acnet

/-- A coroutine handle, by the address of its frame. -/
abbrev Handle := Nat

structure MailBox (μ : Type) where
  discardedNr : Nat
  solvedNr : Nat
  consumer : Option Handle
  scheduled : Bool
  mailbox : MailQueue μ

namespace MailBox

variable {μ : Type}

def new (size : Nat) : MailBox μ := ⟨0,0,none,false,.new size⟩

def armConsumer (b : MailBox μ) (handle : Handle) : MailBox μ :=
  {b with consumer := some handle, scheduled := true}

def markRunning (b : MailBox μ) : MailBox μ := {b with scheduled := true}

/-- Program points of `Send(message)`. `loadConsumer` and `enqueue` belong to a sender that
found `scheduled_` clear and now owes the consumer its place in the scheduler. -/
inductive SendPc (μ : Type) where
  | tryEnqueue (message : μ) (pc : MailQueue.EnqueuePc)
  | exchange
  | loadConsumer
  | enqueue (handle : Handle)
  | release (message : μ)
  | countDiscarded
  deriving DecidableEq

def SendPc.start (message : μ) : SendPc μ := .tryEnqueue message .loadIndex

/-- One shared access of `Send`. `done` answers `handle.done()`. The result is the handle
that the access puts into the scheduler, if any. -/
def send (done : Handle → Bool) (spurious : Bool) (b : MailBox μ) :
    SendPc μ → MailBox μ×Option Handle×Control (SendPc μ) Unit
  | .tryEnqueue message pc =>
      match b.mailbox.tryEnqueue message spurious pc with
      | (q,.running pc') => ({b with mailbox := q},none,.running (.tryEnqueue message pc'))
      | (q,.returned true) => ({b with mailbox := q},none,.running .exchange)
      | (q,.returned false) => ({b with mailbox := q},none,.running (.release message))
  | .exchange =>
      ({b with scheduled := true},none,
        if b.scheduled then .returned () else .running .loadConsumer)
  | .loadConsumer =>
      match b.consumer with
      | none => (b,none,.returned ())
      | some handle => (b,none,if done handle then .returned () else .running (.enqueue handle))
  | .enqueue handle => (b,some handle,.returned ())
  | .release _ => (b,none,.running .countDiscarded)
  | .countDiscarded => ({b with discardedNr := b.discardedNr+1},none,.returned ())

inductive ReceivePc (μ : Type) where
  | tryDequeue (pc : MailQueue.DequeuePc μ)
  | countSolved (message : Option μ)
  deriving DecidableEq

def ReceivePc.start : ReceivePc μ := .tryDequeue .loadIndex

/-- One shared access of `try_receive`. -/
def tryReceive (b : MailBox μ) :
    ReceivePc μ → MailBox μ×Control (ReceivePc μ) (Option (Option μ))
  | .tryDequeue pc =>
      match b.mailbox.tryDequeue pc with
      | (q,.running pc') => ({b with mailbox := q},.running (.tryDequeue pc'))
      | (q,.returned none) => ({b with mailbox := q},.returned none)
      | (q,.returned (some m)) => ({b with mailbox := q},.running (.countSolved m))
  | .countSolved message => ({b with solvedNr := b.solvedNr+1},.returned (some message))

/-- Program points of `WaitAwaiter::await_suspend`. From `recheck` on the coroutine counts
as suspended and may already run elsewhere. -/
inductive SuspendPc where
  | storeConsumer
  | clearScheduled
  | recheck (pc : MailQueue.CanDequeuePc)
  | exchange
  deriving DecidableEq

/-- One shared access of `await_suspend(handle)`; the result `false` resumes the coroutine
on the spot. -/
def awaitSuspend (handle : Handle) (b : MailBox μ) :
    SuspendPc → MailBox μ×Control SuspendPc Bool
  | .storeConsumer => ({b with consumer := some handle},.running .clearScheduled)
  | .clearScheduled => ({b with scheduled := false},.running (.recheck .loadIndex))
  | .recheck pc =>
      match b.mailbox.canDequeue pc with
      | .running pc' => (b,.running (.recheck pc'))
      | .returned true => (b,.running .exchange)
      | .returned false => (b,.returned true)
  | .exchange => ({b with scheduled := true},.returned b.scheduled)

end MailBox

end Acnet
