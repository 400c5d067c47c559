import Acnet.Framework.Machine
import Acnet.Framework.Word
import Mathlib.Logic.Function.Basic

namespace Acnet

/-- One ring cell. A null message pointer is `none`. -/
@[ext] structure Slot (μ : Type) where
  sequence : Nat
  message : Option μ
  deriving DecidableEq

structure MailQueue (μ : Type) where
  writeIndex : Nat
  readIndex : Nat
  queue : Nat → Slot μ
  size : Nat
  mask : Nat

namespace MailQueue

variable {μ : Type}

/-- The constructor: the capacity is rounded up and slot `i` is free for counter `i`. -/
def new (size : Nat) : MailQueue μ where
  writeIndex := 0
  readIndex := 0
  queue i := ⟨i,none⟩
  size := bitCeil size
  mask := bitCeil size-1

def slot (q : MailQueue μ) (i : Nat) : Slot μ := q.queue (i &&& q.mask)

def setSlot (q : MailQueue μ) (i : Nat) (x : Slot μ) : MailQueue μ :=
  {q with queue := Function.update q.queue (i &&& q.mask) x}

/-- Program points of `try_enqueue`, each at its next shared access. -/
inductive EnqueuePc where
  | loadIndex
  | loadSequence (writeIdx : Nat)
  | compareExchange (writeIdx : Nat)
  | writeMessage (writeIdx : Nat)
  | storeSequence (writeIdx : Nat)
  deriving DecidableEq

/-- One shared access of `try_enqueue(message)`. The exchange is the weak one: it may
fail although the index matches, and every failure reloads the index. -/
def tryEnqueue (message : μ) (spurious : Bool) (q : MailQueue μ) :
    EnqueuePc → MailQueue μ×Control EnqueuePc Bool
  | .loadIndex => (q,.running (.loadSequence q.writeIndex))
  | .loadSequence writeIdx =>
      let diff := signedSub (q.slot writeIdx).sequence writeIdx
      if diff<0 then (q,.returned false)
      else if diff=0 then (q,.running (.compareExchange writeIdx))
      else (q,.running .loadIndex)
  | .compareExchange writeIdx =>
      if q.writeIndex=writeIdx ∧ spurious=false then
        ({q with writeIndex := wrap (writeIdx+1)},.running (.writeMessage writeIdx))
      else (q,.running .loadIndex)
  | .writeMessage writeIdx =>
      (q.setSlot writeIdx {q.slot writeIdx with message := some message},
        .running (.storeSequence writeIdx))
  | .storeSequence writeIdx =>
      (q.setSlot writeIdx {q.slot writeIdx with sequence := wrap (writeIdx+1)},.returned true)

inductive DequeuePc (μ : Type) where
  | loadIndex
  | loadSequence (readIdx : Nat)
  | readMessage (readIdx : Nat)
  | clearMessage (readIdx : Nat) (message : Option μ)
  | storeIndex (readIdx : Nat) (message : Option μ)
  | storeSequence (readIdx : Nat) (message : Option μ)
  deriving DecidableEq

/-- One shared access of `try_dequeue`. The result `none` is the return value `false`;
`some m` is `true` with `*message = m`. -/
def tryDequeue (q : MailQueue μ) :
    DequeuePc μ → MailQueue μ×Control (DequeuePc μ) (Option (Option μ))
  | .loadIndex => (q,.running (.loadSequence q.readIndex))
  | .loadSequence readIdx =>
      if signedSub (q.slot readIdx).sequence (wrap (readIdx+1))<0 then (q,.returned none)
      else (q,.running (.readMessage readIdx))
  | .readMessage readIdx => (q,.running (.clearMessage readIdx (q.slot readIdx).message))
  | .clearMessage readIdx message =>
      (q.setSlot readIdx {q.slot readIdx with message := none},
        .running (.storeIndex readIdx message))
  | .storeIndex readIdx message =>
      ({q with readIndex := wrap (readIdx+1)},.running (.storeSequence readIdx message))
  | .storeSequence readIdx message =>
      (q.setSlot readIdx {q.slot readIdx with sequence := wrap (readIdx+q.size)},
        .returned (some message))

inductive CanDequeuePc where
  | loadIndex
  | loadSequence (readIdx : Nat)
  deriving DecidableEq

def canDequeue (q : MailQueue μ) : CanDequeuePc → Control CanDequeuePc Bool
  | .loadIndex => .running (.loadSequence q.readIndex)
  | .loadSequence readIdx =>
      .returned (0 ≤ signedSub (q.slot readIdx).sequence (wrap (readIdx+1)))

/-- The answer `can_dequeue` gives when nothing interferes: the head slot is published. -/
def headPublished (q : MailQueue μ) : Bool :=
  0 ≤ signedSub (q.slot q.readIndex).sequence (wrap (q.readIndex+1))

/-- Every index word the queue stores is below `2^63`. -/
def InRange (q : MailQueue μ) : Prop :=
  q.writeIndex<2^63 ∧ q.readIndex<2^63 ∧ ∀ i<q.size,(q.queue i).sequence<2^63

@[simp] theorem setSlot_writeIndex (q : MailQueue μ) (i : Nat) (x : Slot μ) :
    (q.setSlot i x).writeIndex=q.writeIndex := rfl

@[simp] theorem setSlot_readIndex (q : MailQueue μ) (i : Nat) (x : Slot μ) :
    (q.setSlot i x).readIndex=q.readIndex := rfl

@[simp] theorem setSlot_size (q : MailQueue μ) (i : Nat) (x : Slot μ) :
    (q.setSlot i x).size=q.size := rfl

@[simp] theorem setSlot_mask (q : MailQueue μ) (i : Nat) (x : Slot μ) :
    (q.setSlot i x).mask=q.mask := rfl

theorem slot_setSlot (q : MailQueue μ) (i j : Nat) (x : Slot μ) :
    (q.setSlot i x).slot j=if j &&& q.mask=i &&& q.mask then x else q.slot j := by
  unfold slot setSlot
  by_cases h : j &&& q.mask=i &&& q.mask <;> simp [h]

end MailQueue

end Acnet
