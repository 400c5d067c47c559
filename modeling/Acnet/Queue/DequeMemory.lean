import Acnet.Framework.Memory
import Acnet.Queue.WorkStealing

/-!
`WorkStealingQueue` with the memory orders and fences that its accesses name. The exchanges on
`top_` are taken as `acq_rel` only. A `seq_cst` fence makes its thread see, of every atomic
location, what the threads at earlier such fences had seen.
-/

namespace Acnet.DequeMemory

open History WorkStealingQueue

variable {ι θ η : Type}

inductive Loc where
  | top
  | bottom
  | slot (i : Nat)
  deriving DecidableEq

structure Deque (θ η : Type) where
  capacity : Nat
  top : History Loc θ Nat
  bottom : History Loc θ Nat
  slot : Nat → History Loc θ (Option η)
  sc : Loc → Nat

namespace Deque

def new (capacity : Nat) : Deque θ η where
  capacity := capacity
  top := .initial 0
  bottom := .initial 0
  slot _ := .initial none
  sc := ⊥

def index (q : Deque θ η) (i : Nat) : Nat := i &&& (q.capacity-1)

/-- Every value that was ever stored to `bottom_` is below `2^63`, up to the `0-1` of a `pop`. -/
def InRange (q : Deque θ η) : Prop := ∀ w∈q.bottom,w.value < 2^63 ∨ w.value=2^64-1

instance (q : Deque θ η) : Decidable q.InRange :=
  inferInstanceAs (Decidable (∀ w∈q.bottom,w.value < 2^63 ∨ w.value=2^64-1))

end Deque

inductive PushPc where
  | loadBottom
  | loadTop (bt : Nat)
  | storeSlot (bt : Nat)
  | fence (bt : Nat)
  | storeBottom (bt : Nat)
  deriving DecidableEq

inductive PopPc (η : Type) where
  | loadBottom
  | storeBottom (bt : Nat)
  | fence (bt : Nat)
  | loadTop (bt : Nat)
  | loadSlot (bt tp : Nat)
  | compareExchange (bt tp : Nat) (ptr : Option η)
  | restoreLast (bt : Nat) (ptr : Option η)
  | restoreEmpty (bt : Nat)
  deriving DecidableEq

inductive StealPc (η : Type) where
  | loadTop
  | fence (tp : Nat)
  | loadBottom (tp : Nat)
  | loadSlot (tp : Nat)
  | compareExchange (tp : Nat) (ptr : Option η)
  deriving DecidableEq

/-- What the owner knows, and what it knew at its last release fence. -/
structure OwnerView (θ : Type) where
  cur : View Loc θ
  rel : View Loc θ

/-- One access of `push(handle)`; `n` says which write a load reads, or the time of a store. -/
def push (handle : η) (n : Nat) (q : Deque θ η) (v : OwnerView θ) :
    PushPc → Option (Deque θ η×OwnerView θ×Control PushPc Bool)
  | .loadBottom =>
      (load .bottom .relaxed q.bottom v.cur n).map fun (bt,cur) =>
        (q,{v with cur := cur},.running (.loadTop bt))
  | .loadTop bt =>
      (load .top .acquire q.top v.cur n).map fun (tp,cur) =>
        (q,{v with cur := cur},
          if q.capacity ≤ wrapSub bt tp then .returned false else .running (.storeSlot bt))
  | .storeSlot bt =>
      (storeAfter (.slot (q.index bt)) (q.slot (q.index bt)) v.cur v.rel n (some handle)).map
        fun (h,cur) =>
          ({q with slot := Function.update q.slot (q.index bt) h},{v with cur := cur},
            .running (.fence bt))
  | .fence bt => some (q,⟨v.cur,v.cur⟩,.running (.storeBottom bt))
  | .storeBottom bt =>
      (storeAfter .bottom q.bottom v.cur v.rel n (wrap (bt+1))).map fun (h,cur) =>
        ({q with bottom := h},{v with cur := cur},.returned true)

/-- `top_.compare_exchange_strong(tp, tp + 1)`: it fails only on another value. -/
def compareExchange (tp n : Nat) (q : Deque θ η) (v : View Loc θ) :
    Option (Bool×Deque θ η×View Loc θ) :=
  match load .top .relaxed q.top v n with
  | none => none
  | some (found,v') =>
      if found=tp then
        (update .top .acqRel q.top v n fun _ => wrap (tp+1)).map fun (_,h,v) =>
          (true,{q with top := h},v)
      else some (false,q,v')

def pop (n : Nat) (q : Deque θ η) (v : OwnerView θ) :
    PopPc η → Option (Deque θ η×OwnerView θ×Control (PopPc η) (Taken η))
  | .loadBottom =>
      (load .bottom .relaxed q.bottom v.cur n).map fun (bt,cur) =>
        (q,{v with cur := cur},.running (.storeBottom (wrapSub bt 1)))
  | .storeBottom bt =>
      (storeAfter .bottom q.bottom v.cur v.rel n bt).map fun (h,cur) =>
        ({q with bottom := h},{v with cur := cur},.running (.fence bt))
  | .fence bt =>
      let cur := v.cur.fence q.sc
      some ({q with sc := cur.1},⟨cur,cur⟩,.running (.loadTop bt))
  | .loadTop bt =>
      (load .top .relaxed q.top v.cur n).map fun (tp,cur) =>
        (q,{v with cur := cur},
          if signed tp ≤ signed bt then .running (.loadSlot bt tp)
          else .running (.restoreEmpty bt))
  | .loadSlot bt tp =>
      (load (.slot (q.index bt)) .relaxed (q.slot (q.index bt)) v.cur n).map fun (ptr,cur) =>
        (q,{v with cur := cur},
          if tp=bt then .running (.compareExchange bt tp ptr) else .returned (taken ptr))
  | .compareExchange bt tp ptr =>
      (compareExchange tp n q v.cur).map fun (success,q,cur) =>
        (q,{v with cur := cur},.running (.restoreLast bt (if success then ptr else none)))
  | .restoreLast bt ptr =>
      (storeAfter .bottom q.bottom v.cur v.rel n (wrap (bt+1))).map fun (h,cur) =>
        ({q with bottom := h},{v with cur := cur},.returned (taken ptr))
  | .restoreEmpty bt =>
      (storeAfter .bottom q.bottom v.cur v.rel n (wrap (bt+1))).map fun (h,cur) =>
        ({q with bottom := h},{v with cur := cur},.returned (.empty,none))

def steal (n : Nat) (q : Deque θ η) (v : View Loc θ) :
    StealPc η → Option (Deque θ η×View Loc θ×Control (StealPc η) (Taken η))
  | .loadTop =>
      (load .top .acquire q.top v n).map fun (tp,v) => (q,v,.running (.fence tp))
  | .fence tp =>
      let v := v.fence q.sc
      some ({q with sc := v.1},v,.running (.loadBottom tp))
  | .loadBottom tp =>
      (load .bottom .acquire q.bottom v n).map fun (bt,v) =>
        (q,v,if signed tp < signed bt then .running (.loadSlot tp) else .returned (.empty,none))
  | .loadSlot tp =>
      (load (.slot (q.index tp)) .relaxed (q.slot (q.index tp)) v n).map fun (ptr,v) =>
        (q,v,.running (.compareExchange tp ptr))
  | .compareExchange tp ptr =>
      (compareExchange tp n q v).map fun (success,q,v) =>
        (q,v,.returned (if success then (.success,ptr) else (.abort,none)))

/-- An element of the deque: the number of its push, its handle, and what the owner knew when it
published the element. -/
structure Entry (θ η : Type) where
  ticket : Nat
  handle : η
  view : View Loc θ

/-- A `kSuccess`: who took the element, the element that was taken off the deque, the pointer that
is handed out, and what the taker knows. -/
structure Return (θ η : Type) where
  stolen : Bool
  entry : Option (Entry θ η)
  handle : Option η
  view : View Loc θ

inductive OwnerPc (η : Type) where
  | idle
  | push (handle : η) (pc : PushPc)
  | pop (pc : PopPc η)
  deriving DecidableEq

/-- The deque with its owner and its thieves. The last four fields are histories: the handles of
the successful pushes; the elements of the deque, of which a `pop` that need not race takes the
last when it has read `top_`, and every exchange on `top_` that succeeds takes the first; the
element that the owner has taken and not yet returned; and the successes. -/
structure State (ι η : Type) where
  deque : Deque (Option ι) η
  owner : OwnerPc η
  ownerView : OwnerView (Option ι)
  thieves : ι → Option (StealPc η)
  thiefView : ι → View Loc (Option ι)
  pushed : List η
  items : List (Entry (Option ι) η)
  held : Option (Entry (Option ι) η)
  returns : List (Return (Option ι) η)

/-- The owner is thread `none`. Threads do work of their own, and they may synchronise by other
means. -/
inductive Action (ι η : Type) where
  | push (handle : η)
  | pop
  | own (n : Nat)
  | steal (i : ι)
  | thieve (i : ι) (n : Nat)
  | work (a : Option ι)
  | sync (a b : Option ι)

def init (capacity : Nat) : State ι η :=
  ⟨.new capacity,.idle,⟨⊥,⊥⟩,fun _ => none,fun _ => ⊥,[],[],none,[]⟩

def pushed (s : State ι η) (h : η) :
    Deque (Option ι) η×OwnerView (Option ι)×Control PushPc Bool → State ι η
  | (q,v,.running pc) => {s with deque := q,ownerView := v,owner := .push h pc}
  | (q,v,.returned false) => {s with deque := q,ownerView := v,owner := .idle}
  | (q,v,.returned true) =>
      {s with
        deque := q
        ownerView := v
        owner := .idle
        pushed := s.pushed++[h]
        items := s.items++[⟨s.pushed.length,h,s.ownerView.rel⟩]}

/-- Without a race the element is the owner's once `top_` is read. -/
def popped (s : State ι η) :
    Deque (Option ι) η×OwnerView (Option ι)×Control (PopPc η) (Taken η) → State ι η
  | (q,v,.running (.loadSlot bt tp)) =>
      if tp=bt then {s with deque := q,ownerView := v,owner := .pop (.loadSlot bt tp)}
      else {s with
        deque := q
        ownerView := v
        owner := .pop (.loadSlot bt tp)
        items := s.items.dropLast
        held := s.items.getLast?}
  | (q,v,.running (.restoreLast bt ptr)) =>
      if s.deque.top.length < q.top.length then {s with
        deque := q
        ownerView := v
        owner := .pop (.restoreLast bt ptr)
        items := s.items.tail
        held := s.items.head?}
      else {s with deque := q,ownerView := v,owner := .pop (.restoreLast bt ptr)}
  | (q,v,.running pc) => {s with deque := q,ownerView := v,owner := .pop pc}
  | (q,v,.returned (.success,ptr)) =>
      {s with
        deque := q
        ownerView := v
        owner := .idle
        held := none
        returns := s.returns++[⟨false,s.held,ptr,v.cur⟩]}
  | (q,v,.returned _) => {s with deque := q,ownerView := v,owner := .idle}

def own (s : State ι η) (n : Nat) : OwnerPc η → Option (State ι η)
  | .idle => none
  | .push h pc => (push h n s.deque s.ownerView pc).map (pushed s h)
  | .pop pc => (pop n s.deque s.ownerView pc).map (popped s)

variable [DecidableEq ι]

def stole (s : State ι η) (i : ι) :
    Deque (Option ι) η×View Loc (Option ι)×Control (StealPc η) (Taken η) → State ι η
  | (q,v,.running pc) =>
      {s with
        deque := q
        thieves := Function.update s.thieves i (some pc)
        thiefView := Function.update s.thiefView i v}
  | (q,v,.returned (.success,ptr)) =>
      {s with
        deque := q
        thieves := Function.update s.thieves i none
        thiefView := Function.update s.thiefView i v
        items := s.items.tail
        returns := s.returns++[⟨true,s.items.head?,ptr,v⟩]}
  | (q,v,.returned _) =>
      {s with
        deque := q
        thieves := Function.update s.thieves i none
        thiefView := Function.update s.thiefView i v}

def viewOf (s : State ι η) : Option ι → View Loc (Option ι)
  | none => s.ownerView.cur
  | some i => s.thiefView i

def setView (s : State ι η) (v : View Loc (Option ι)) : Option ι → State ι η
  | none => {s with ownerView := {s.ownerView with cur := v}}
  | some i => {s with thiefView := Function.update s.thiefView i v}

def next (s : State ι η) : Action ι η → Option (State ι η)
  | .push h =>
      match s.owner with
      | .idle => some {s with owner := .push h .loadBottom}
      | _ => none
  | .pop =>
      match s.owner with
      | .idle => some {s with owner := .pop .loadBottom}
      | _ => none
  | .own n => own s n s.owner
  | .steal i =>
      match s.thieves i with
      | none => some {s with thieves := Function.update s.thieves i (some .loadTop)}
      | some _ => none
  | .thieve i n =>
      match s.thieves i with
      | none => none
      | some pc => (steal n s.deque (s.thiefView i) pc).map (stole s i)
  | .work a => some (setView s ((viewOf s a).tick a) a)
  | .sync a b => some (setView s (viewOf s a ⊔ viewOf s b) a)

/-- One owner and any number of thieves on a deque whose capacity is a power of two. -/
def machine (ι η : Type) [DecidableEq ι] : Machine (State ι η) (Action ι η) where
  start s := ∃ k < 64,s=init (2^k)
  next := next

omit [DecidableEq ι]

def InRange (_ : State ι η) (_ : Action ι η) (t : State ι η) : Prop := t.deque.InRange

instance (s : State ι η) (a : Action ι η) (t : State ι η) : Decidable (InRange s a t) :=
  inferInstanceAs (Decidable t.deque.InRange)

end Acnet.DequeMemory
