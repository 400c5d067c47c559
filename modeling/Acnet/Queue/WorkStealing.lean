import Acnet.Framework.Machine
import Acnet.Framework.Word
import Mathlib.Logic.Function.Basic

namespace Acnet

inductive StealState where
  | empty
  | success
  | abort
  deriving DecidableEq

/-- The deque over non-null handles `η`; `capacity` is the template argument `N`, a null
slot is `none`. -/
structure WorkStealingQueue (η : Type) where
  capacity : Nat
  top : Nat
  bottom : Nat
  queue : Nat → Option η

namespace WorkStealingQueue

variable {η : Type}

def new (capacity : Nat) : WorkStealingQueue η := ⟨capacity,0,0,fun _ => none⟩

def slot (q : WorkStealingQueue η) (i : Nat) : Option η := q.queue (i &&& (q.capacity-1))

def setSlot (q : WorkStealingQueue η) (i : Nat) (x : Option η) : WorkStealingQueue η :=
  {q with queue := Function.update q.queue (i &&& (q.capacity-1)) x}

inductive PushPc where
  | loadBottom
  | loadTop (bt : Nat)
  | storeSlot (bt : Nat)
  | storeBottom (bt : Nat)
  deriving DecidableEq

/-- One shared access of `push(handle)`. -/
def push (handle : η) (q : WorkStealingQueue η) :
    PushPc → WorkStealingQueue η×Control PushPc Bool
  | .loadBottom => (q,.running (.loadTop q.bottom))
  | .loadTop bt =>
      if q.capacity ≤ wrapSub bt q.top then (q,.returned false)
      else (q,.running (.storeSlot bt))
  | .storeSlot bt => (q.setSlot bt (some handle),.running (.storeBottom bt))
  | .storeBottom bt => ({q with bottom := wrap (bt+1)},.returned true)

inductive PopPc (η : Type) where
  | loadBottom
  | storeBottom (bt : Nat)
  | loadTop (bt : Nat)
  | loadSlot (bt tp : Nat)
  | compareExchange (bt tp : Nat) (ptr : Option η)
  | restoreLast (bt : Nat) (ptr : Option η)
  | restoreEmpty (bt : Nat)
  deriving DecidableEq

/-- A result and the pointer written to the caller's handle. -/
abbrev Taken (η : Type) := StealState×Option η

def taken (ptr : Option η) : Taken η := (if ptr.isSome then .success else .empty,ptr)

/-- One shared access of `pop`. -/
def pop (q : WorkStealingQueue η) :
    PopPc η → WorkStealingQueue η×Control (PopPc η) (Taken η)
  | .loadBottom => (q,.running (.storeBottom (wrapSub q.bottom 1)))
  | .storeBottom bt => ({q with bottom := bt},.running (.loadTop bt))
  | .loadTop bt =>
      if signed q.top ≤ signed bt then (q,.running (.loadSlot bt q.top))
      else (q,.running (.restoreEmpty bt))
  | .loadSlot bt tp =>
      if tp=bt then (q,.running (.compareExchange bt tp (q.slot bt)))
      else (q,.returned (taken (q.slot bt)))
  | .compareExchange bt tp ptr =>
      if q.top=tp then ({q with top := wrap (tp+1)},.running (.restoreLast bt ptr))
      else (q,.running (.restoreLast bt none))
  | .restoreLast bt ptr => ({q with bottom := wrap (bt+1)},.returned (taken ptr))
  | .restoreEmpty bt => ({q with bottom := wrap (bt+1)},.returned (.empty,none))

inductive StealPc (η : Type) where
  | loadTop
  | loadBottom (tp : Nat)
  | loadSlot (tp : Nat)
  | compareExchange (tp : Nat) (ptr : Option η)
  deriving DecidableEq

/-- One shared access of `steal`. -/
def steal (q : WorkStealingQueue η) :
    StealPc η → WorkStealingQueue η×Control (StealPc η) (Taken η)
  | .loadTop => (q,.running (.loadBottom q.top))
  | .loadBottom tp =>
      if signed tp<signed q.bottom then (q,.running (.loadSlot tp))
      else (q,.returned (.empty,none))
  | .loadSlot tp => (q,.running (.compareExchange tp (q.slot tp)))
  | .compareExchange tp ptr =>
      if q.top=tp then ({q with top := wrap (tp+1)},.returned (.success,ptr))
      else (q,.returned (.abort,none))

/-- `approx_size`, read without interference. A difference of the casts that is no 64-bit value
is undefined behaviour, here `none`. -/
def approxSize (q : WorkStealingQueue η) : Option Nat :=
  let diff := signed q.bottom-signed q.top
  if -2^63 ≤ diff ∧ diff<2^63 then some (if 0<diff then diff.toNat else 0) else none

/-- Both counters are below `2^63`, up to the transient `0-1` that `pop` stores into `bottom_`
while both are zero. -/
def InRange (q : WorkStealingQueue η) : Prop :=
  q.top<2^63 ∧ (q.bottom<2^63 ∨ q.top=0 ∧ q.bottom=2^64-1)

@[simp] theorem setSlot_top (q : WorkStealingQueue η) (i : Nat) (x : Option η) :
    (q.setSlot i x).top=q.top := rfl

theorem slot_setSlot (q : WorkStealingQueue η) (i j : Nat) (x : Option η) :
    (q.setSlot i x).slot j=
      if j &&& (q.capacity-1)=i &&& (q.capacity-1) then x else q.slot j := by
  unfold slot setSlot
  by_cases h : j &&& (q.capacity-1)=i &&& (q.capacity-1) <;> simp [h]

end WorkStealingQueue

end Acnet
