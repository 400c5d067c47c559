import Acnet.Framework.Fifo
import Acnet.Framework.Word

namespace Acnet

/-- `SPSCQueue`: both indices run free over 64-bit words and are masked at every use. -/
structure SPSCQueue (α : Type*) where
  writeIndex : Nat
  readIndex : Nat
  queue : Nat → α
  capacity : Nat

namespace SPSCQueue

variable {α : Type*}

def mask (q : SPSCQueue α) : Nat := q.capacity-1

def slot (q : SPSCQueue α) (i : Nat) : α := q.queue (i &&& q.mask)

def setSlot (q : SPSCQueue α) (i : Nat) (item : α) : SPSCQueue α :=
  {q with queue := fun j => if j=i &&& q.mask then item else q.queue j}

/-- Next access of `try_enqueue`. -/
inductive EnqueuePc where
  | loadWrite
  | loadRead (tail : Nat)
  | writeSlot (tail : Nat)
  | storeWrite (tail : Nat)
  deriving DecidableEq

def tryEnqueue (q : SPSCQueue α) (item : α) : EnqueuePc → SPSCQueue α × Control EnqueuePc Bool
  | .loadWrite => (q,.running (.loadRead q.writeIndex))
  | .loadRead tail =>
      if (wrap (tail+1) &&& q.mask)=(q.readIndex &&& q.mask)
      then (q,.returned false)
      else (q,.running (.writeSlot tail))
  | .writeSlot tail => (q.setSlot tail item,.running (.storeWrite tail))
  | .storeWrite tail => ({q with writeIndex := wrap (tail+1)},.returned true)

/-- Next access of `try_dequeue`. -/
inductive DequeuePc (α : Type*) where
  | loadRead
  | loadWrite (front : Nat)
  | readSlot (front : Nat)
  | storeRead (front : Nat) (item : α)
  deriving DecidableEq

def tryDequeue (q : SPSCQueue α) : DequeuePc α → SPSCQueue α × Control (DequeuePc α) (Option α)
  | .loadRead => (q,.running (.loadWrite q.readIndex))
  | .loadWrite front =>
      if front=q.writeIndex then (q,.returned none) else (q,.running (.readSlot front))
  | .readSlot front => (q,.running (.storeRead front (q.slot front)))
  | .storeRead front item => ({q with readIndex := wrap (front+1)},.returned (some item))

end SPSCQueue

namespace Spsc

open SPSCQueue

variable {α : Type*}

/-- One producer and one consumer at the queue. `enqueued` and `dequeued` are the histories
of the calls that returned true. -/
structure State (α : Type*) where
  queue : SPSCQueue α
  producer : Option (α × EnqueuePc)
  consumer : Option (DequeuePc α)
  enqueued : List α
  dequeued : List α

inductive Action (α : Type*) where
  | tryEnqueue (item : α)
  | produce
  | tryDequeue
  | consume

def produce (s : State α) (item : α) : SPSCQueue α × Control EnqueuePc Bool → State α
  | (q,.running pc) => {s with queue := q,producer := some (item,pc)}
  | (q,.returned true) => {s with queue := q,producer := none,enqueued := s.enqueued++[item]}
  | (q,.returned false) => {s with queue := q,producer := none}

def consume (s : State α) : SPSCQueue α × Control (DequeuePc α) (Option α) → State α
  | (q,.running pc) => {s with queue := q,consumer := some pc}
  | (q,.returned (some item)) =>
      {s with queue := q,consumer := none,dequeued := s.dequeued++[item]}
  | (q,.returned none) => {s with queue := q,consumer := none}

def next (s : State α) : Action α → Option (State α)
  | .tryEnqueue item =>
      match s.producer with
      | none => some {s with producer := some (item,.loadWrite)}
      | some _ => none
  | .produce =>
      match s.producer with
      | none => none
      | some (item,pc) => some (produce s item (s.queue.tryEnqueue item pc))
  | .tryDequeue =>
      match s.consumer with
      | none => some {s with consumer := some .loadRead}
      | some _ => none
  | .consume =>
      match s.consumer with
      | none => none
      | some pc => some (consume s (s.queue.tryDequeue pc))

/-- A new queue; the slots hold whatever the element type starts with. -/
def init (capacity : Nat) (cells : Nat → α) : State α :=
  ⟨⟨0,0,cells,capacity⟩,none,none,[],[]⟩

def machine (α : Type*) : Machine (State α) (Action α) where
  start := fun s => ∃ k cells,1 ≤ k ∧ k ≤ 64 ∧ s=init (2^k) cells
  next := next

/-- The values that were enqueued and not dequeued yet, oldest first. -/
def stored (s : State α) : List α := s.enqueued.drop s.dequeued.length

section Invariant

variable {s t : State α}

/-- What the producer's copies of the indices are worth: its own index is current, and the
room it saw can only have grown. -/
def Producing (s : State α) (item : α) : EnqueuePc → Prop
  | .loadWrite => True
  | .loadRead tail => tail=wrap s.enqueued.length
  | .writeSlot tail => tail=wrap s.enqueued.length ∧
      s.enqueued.length+1<s.dequeued.length+s.queue.capacity
  | .storeWrite tail => tail=wrap s.enqueued.length ∧
      s.enqueued.length+1<s.dequeued.length+s.queue.capacity ∧ s.queue.slot tail=item

def Consuming (s : State α) : DequeuePc α → Prop
  | .loadRead => True
  | .loadWrite front => front=wrap s.dequeued.length
  | .readSlot front => front=wrap s.dequeued.length ∧ s.dequeued.length<s.enqueued.length
  | .storeRead front item => front=wrap s.dequeued.length ∧
      s.enqueued[s.dequeued.length]?=some item

/-- The indices count the two histories modulo `2^64`, and the slots between them hold the
values that are stored. -/
structure Inv (s : State α) : Prop where
  pow : ∃ k,1 ≤ k ∧ k ≤ 64 ∧ s.queue.capacity=2^k
  write : s.queue.writeIndex=wrap s.enqueued.length
  read : s.queue.readIndex=wrap s.dequeued.length
  prefixed : s.dequeued <+: s.enqueued
  room : s.enqueued.length<s.dequeued.length+s.queue.capacity
  slots : ∀ i,s.dequeued.length ≤ i → i<s.enqueued.length →
    s.enqueued[i]?=some (s.queue.slot (wrap i))
  producer : ∀ item pc,s.producer=some (item,pc) → Producing s item pc
  consumer : ∀ pc,s.consumer=some pc → Consuming s pc

theorem slot_setSlot_self (q : SPSCQueue α) (i : Nat) (item : α) :
    (q.setSlot i item).slot i=item := by
  simp [setSlot,slot,mask]

theorem slot_setSlot_of_ne {q : SPSCQueue α} {i j : Nat} (item : α)
    (h : (j &&& q.mask) ≠ (i &&& q.mask)) : (q.setSlot i item).slot j=q.slot j := by
  exact if_neg h

/-- Counters less than one lap apart are in different slots. -/
theorem Inv.mask_ne (h : Inv s) {i j : Nat} (hlt : i<j) (hj : j < i+s.queue.capacity) :
    (wrap i &&& s.queue.mask) ≠ (wrap j &&& s.queue.mask) := by
  obtain ⟨k,_,hk,hc⟩ := h.pow
  rw [mask,wrap_land hk hc,wrap_land hk hc]
  intro he
  have := slot_lap hlt he
  omega

/-- The masked test of `try_enqueue` sees a full queue exactly when one slot is left. -/
theorem Inv.full_iff (h : Inv s) :
    (wrap (wrap s.enqueued.length+1) &&& s.queue.mask)=(s.queue.readIndex &&& s.queue.mask) ↔
      s.enqueued.length+1=s.dequeued.length+s.queue.capacity := by
  obtain ⟨k,_,hk,hc⟩ := h.pow
  have hroom := h.room
  have hle := h.prefixed.length_le
  rw [wrap_add,h.read,mask,wrap_land hk hc,wrap_land hk hc]
  constructor
  · intro he
    have := slot_lap (i := s.dequeued.length) (by omega) he.symm
    omega
  · intro he
    rw [he,Nat.add_mod_right]

/-- The raw test of `try_dequeue` sees an empty queue exactly when nothing is stored. -/
theorem Inv.empty_iff (h : Inv s) :
    wrap s.dequeued.length=s.queue.writeIndex ↔ s.dequeued.length=s.enqueued.length := by
  obtain ⟨k,_,hk,hc⟩ := h.pow
  have hroom := h.room
  have hle := h.prefixed.length_le
  have hcap : s.queue.capacity ≤ 2^64 := by
    rw [hc]
    exact Nat.pow_le_pow_right (by decide) hk
  rw [h.write]
  constructor
  · intro he
    by_contra hne
    have := slot_lap (n := 2^64) (Nat.lt_of_le_of_ne hle hne) he
    omega
  · intro he
    rw [he]

theorem Inv.oldest (h : Inv s) (hlt : s.dequeued.length<s.enqueued.length) :
    s.enqueued[s.dequeued.length]?=some (s.queue.slot (wrap s.dequeued.length)) :=
  h.slots _ (le_refl _) hlt

/-- The value at the front of what is stored extends the dequeued prefix. -/
theorem prefix_snoc {xs ys : List α} {x : α} (h : xs <+: ys) (hx : ys[xs.length]?=some x) :
    xs++[x] <+: ys := by
  obtain ⟨zs,rfl⟩ := h
  cases zs with
  | nil => simp at hx
  | cons z zs =>
    have hz : z=x := by simpa using hx
    subst hz
    exact ⟨zs,by simp⟩

theorem Inv.produce {item : α} {pc : EnqueuePc} (h : Inv s) (hp : s.producer=some (item,pc)) :
    Inv (Spsc.produce s item (s.queue.tryEnqueue item pc)) := by
  have hpc := h.producer item pc hp
  have hle := h.prefixed.length_le
  cases pc with
  | loadWrite =>
    refine {h with producer := ?_}
    rintro _ _ ⟨⟩
    exact h.write
  | loadRead tail =>
    have htail : tail=wrap s.enqueued.length := hpc
    subst htail
    simp only [tryEnqueue]
    split_ifs with hfull
    · exact {h with producer := by simp [Spsc.produce]}
    · refine {h with producer := ?_}
      rintro _ _ ⟨⟩
      have hne := mt h.full_iff.mpr hfull
      have hroom := h.room
      exact ⟨rfl,show s.enqueued.length+1<s.dequeued.length+s.queue.capacity by omega⟩
  | writeSlot tail =>
    obtain ⟨rfl,hroom⟩ := hpc
    refine {h with slots := ?_,producer := ?_}
    · intro i hi hlt
      replace hi : s.dequeued.length ≤ i := hi
      replace hlt : i<s.enqueued.length := hlt
      have hne := h.mask_ne hlt (by omega)
      exact (h.slots i hi hlt).trans (congrArg some (slot_setSlot_of_ne item hne).symm)
    · rintro _ _ ⟨⟩
      exact ⟨rfl,hroom,slot_setSlot_self s.queue _ item⟩
  | storeWrite tail =>
    obtain ⟨rfl,hroom,hslot⟩ := hpc
    refine ⟨h.pow,?_,h.read,?_,?_,?_,?_,?_⟩
    · simp [Spsc.produce,tryEnqueue,wrap_add]
    · exact h.prefixed.trans (List.prefix_append _ _)
    · simpa [Spsc.produce,tryEnqueue] using hroom
    · intro i hi hlt
      replace hlt : i<(s.enqueued++[item]).length := hlt
      simp only [List.length_append,List.length_singleton] at hlt
      change (s.enqueued++[item])[i]?=some (s.queue.slot (wrap i))
      rcases Nat.lt_succ_iff_lt_or_eq.mp hlt with hlt | rfl
      · rw [List.getElem?_append_left hlt]
        exact h.slots i hi hlt
      · simp [hslot]
    · simp [Spsc.produce,tryEnqueue]
    · intro pc hc
      have hold := h.consumer pc hc
      cases pc with
      | loadRead | loadWrite front => exact hold
      | readSlot front =>
        refine ⟨hold.1,?_⟩
        change s.dequeued.length<(s.enqueued++[item]).length
        rw [List.length_append]
        exact Nat.lt_add_right _ hold.2
      | storeRead front x =>
        refine ⟨hold.1,?_⟩
        change (s.enqueued++[item])[s.dequeued.length]?=some x
        rw [List.getElem?_append_left (List.getElem?_eq_some_iff.mp hold.2).1]
        exact hold.2

theorem Inv.consume {pc : DequeuePc α} (h : Inv s) (hc : s.consumer=some pc) :
    Inv (Spsc.consume s (s.queue.tryDequeue pc)) := by
  have hpc := h.consumer pc hc
  cases pc with
  | loadRead =>
    refine {h with consumer := ?_}
    rintro _ ⟨⟩
    exact h.read
  | loadWrite front =>
    have hfront : front=wrap s.dequeued.length := hpc
    subst hfront
    simp only [tryDequeue]
    split_ifs with hempty
    · exact {h with consumer := by simp [Spsc.consume]}
    · refine {h with consumer := ?_}
      rintro _ ⟨⟩
      have hne := mt h.empty_iff.mpr hempty
      exact ⟨rfl,Nat.lt_of_le_of_ne h.prefixed.length_le hne⟩
  | readSlot front =>
    obtain ⟨rfl,hlt⟩ := hpc
    refine {h with consumer := ?_}
    rintro _ ⟨⟩
    exact ⟨rfl,h.oldest hlt⟩
  | storeRead front item =>
    obtain ⟨rfl,hitem⟩ := hpc
    have hlen : (s.dequeued++[item]).length=s.dequeued.length+1 := by simp
    refine ⟨h.pow,h.write,?_,prefix_snoc h.prefixed hitem,?_,?_,?_,?_⟩
    · simp [Spsc.consume,tryDequeue,wrap_add]
    · change s.enqueued.length<(s.dequeued++[item]).length+s.queue.capacity
      have := h.room
      omega
    · intro i hi hlt
      replace hi : (s.dequeued++[item]).length ≤ i := hi
      exact h.slots i (by omega) hlt
    · -- the room that the producer saw has grown by the slot just given back
      intro x pc hp
      have hold := h.producer x pc hp
      have grown (hroom : s.enqueued.length+1<s.dequeued.length+s.queue.capacity) :
          s.enqueued.length+1<(s.dequeued++[item]).length+s.queue.capacity := by omega
      cases pc with
      | loadWrite | loadRead tail => exact hold
      | writeSlot tail => exact ⟨hold.1,grown hold.2⟩
      | storeWrite tail => exact ⟨hold.1,grown hold.2.1,hold.2.2⟩
    · simp [Spsc.consume,tryDequeue]

theorem next_inv {a : Action α} (h : Inv s) (hn : next s a=some t) : Inv t := by
  cases a with
  | tryEnqueue item =>
    simp only [next] at hn
    split at hn <;> cases hn
    refine {h with producer := ?_}
    rintro _ _ ⟨⟩
    trivial
  | produce =>
    simp only [next] at hn
    split at hn <;> cases hn
    rename_i item pc hp
    exact h.produce hp
  | tryDequeue =>
    simp only [next] at hn
    split at hn <;> cases hn
    refine {h with consumer := ?_}
    rintro _ ⟨⟩
    trivial
  | consume =>
    simp only [next] at hn
    split at hn <;> cases hn
    rename_i pc hc
    exact h.consume hc

theorem init_inv {k : Nat} (cells : Nat → α) (h1 : 1 ≤ k) (hk : k ≤ 64) :
    Inv (init (2^k) cells) where
  pow := ⟨k,h1,hk,rfl⟩
  write := rfl
  read := rfl
  prefixed := List.prefix_rfl
  room := by
    have hpos := Nat.two_pow_pos k
    simp only [init,List.length_nil]
    omega
  slots := by simp [init]
  producer := by simp [init]
  consumer := by simp [init]

theorem reachable_inv (h : (machine α).Reachable s) : Inv s := by
  apply h.invariant
  · rintro x ⟨k,cells,h1,hk,rfl⟩
    exact init_inv cells h1 hk
  · intro x a y hi hn _
    exact next_inv hi hn

end Invariant

section Simulation

variable {s t : State α} {f : Fifo α} {capacity : Nat}

/-- What a step means for a FIFO: `try_enqueue` sends when it stores its index or sees a full
queue, `try_dequeue` takes when it stores its index. -/
def event (s : State α) : Action α → Option (Fifo.Action α)
  | .produce =>
      match s.producer with
      | some (item,pc) =>
          match s.queue.tryEnqueue item pc with
          | (_,.returned _) => some (.send item)
          | (_,.running _) => none
      | none => none
  | .consume =>
      match s.consumer with
      | some pc =>
          match s.queue.tryDequeue pc with
          | (_,.returned (some item)) => some (.take item)
          | _ => none
      | none => none
  | _ => none

/-- The FIFO that a state of the queue stands for, with one slot always left free. -/
structure Implements (capacity : Nat) (s : State α) (f : Fifo α) : Prop where
  inv : Inv s
  size : s.queue.capacity=capacity+1
  messages : f.messages=stored s

theorem length_stored (s : State α) :
    (stored s).length=s.enqueued.length-s.dequeued.length := by
  simp [stored]

/-- `try_enqueue` gives up only at the load of `read_index_`, with all but one slot in use. -/
theorem Inv.refused {item : α} {pc : EnqueuePc} (h : Inv s) (hp : s.producer=some (item,pc))
    (hf : (s.queue.tryEnqueue item pc).2=.returned false) :
    (∃ tail,pc=.loadRead tail) ∧ (stored s).length+1=s.queue.capacity := by
  cases pc with
  | loadWrite | writeSlot tail => cases hf
  | storeWrite tail => simp [tryEnqueue] at hf
  | loadRead tail =>
    have htail : tail=wrap s.enqueued.length := h.producer item _ hp
    subst htail
    simp only [tryEnqueue] at hf
    split_ifs at hf with hfull
    have := h.full_iff.mp hfull
    have := h.prefixed.length_le
    rw [length_stored]
    exact ⟨⟨_,rfl⟩,by omega⟩

/-- `try_dequeue` gives up only at the load of `write_index_`, with nothing stored. -/
theorem Inv.missed {pc : DequeuePc α} (h : Inv s) (hc : s.consumer=some pc)
    (hf : (s.queue.tryDequeue pc).2=.returned none) :
    (∃ front,pc=.loadWrite front) ∧ stored s=[] := by
  cases pc with
  | loadRead | readSlot front => cases hf
  | storeRead front item => simp [tryDequeue] at hf
  | loadWrite front =>
    have hfront : front=wrap s.dequeued.length := h.consumer _ hc
    subst hfront
    simp only [tryDequeue] at hf
    split_ifs at hf with hempty
    refine ⟨⟨_,rfl⟩,?_⟩
    rw [stored,h.empty_iff.mp hempty,List.drop_length]

variable [DecidableEq α]

theorem Implements.produce {item : α} {pc : EnqueuePc} (h : Implements capacity s f)
    (hp : s.producer=some (item,pc)) :
    (Fifo.machine capacity).Answers f (event s .produce)
      (Implements capacity (Spsc.produce s item (s.queue.tryEnqueue item pc))) := by
  have hi := h.inv.produce hp
  have hlen := length_stored s
  simp only [event,hp]
  cases pc with
  | loadWrite | writeSlot tail => exact ⟨hi,h.size,h.messages⟩
  | loadRead tail =>
    have hrefused := h.inv.refused hp
    simp only [tryEnqueue] at hi hrefused ⊢
    split_ifs at hi hrefused ⊢ with hfull
    · have hfull : capacity ≤ f.messages.length := by
        have := (hrefused rfl).2
        have := h.size
        rw [h.messages]
        omega
      exact ⟨_,rfl,hi,h.size,(Fifo.send_of_full hfull).trans h.messages⟩
    · exact ⟨hi,h.size,h.messages⟩
  | storeWrite tail =>
    have hpc := h.inv.producer item _ hp
    have hle := h.inv.prefixed.length_le
    have hlt : f.messages.length<capacity := by
      have := hpc.2.1
      have := h.size
      rw [h.messages]
      omega
    refine ⟨_,rfl,hi,h.size,?_⟩
    rw [Fifo.send_of_lt hlt,h.messages]
    exact (List.drop_append_of_le_length hle).symm

theorem Implements.consume {pc : DequeuePc α} (h : Implements capacity s f)
    (hc : s.consumer=some pc) :
    (Fifo.machine capacity).Answers f (event s .consume)
      (Implements capacity (Spsc.consume s (s.queue.tryDequeue pc))) := by
  have hi := h.inv.consume hc
  simp only [event,hc]
  cases pc with
  | loadRead | readSlot front => exact ⟨hi,h.size,h.messages⟩
  | loadWrite front =>
    simp only [tryDequeue] at hi ⊢
    split_ifs at hi ⊢ <;> exact ⟨hi,h.size,h.messages⟩
  | storeRead front item =>
    have hpc : s.enqueued[s.dequeued.length]?=some item := (h.inv.consumer _ hc).2
    obtain ⟨hlt,hitem⟩ := List.getElem?_eq_some_iff.mp hpc
    have hstored : stored s=item::s.enqueued.drop (s.dequeued.length+1) := by
      rw [stored,List.drop_eq_getElem_cons hlt,hitem]
    refine ⟨_,Fifo.next_take capacity (h.messages.trans hstored),hi,h.size,?_⟩
    simp [stored,Spsc.consume,tryDequeue]

/-- Seen through its events, the queue is a mailbox with one slot less than it has. -/
theorem simulates_fifo (capacity : Nat) :
    (machine α).Simulates Machine.anyStep (Fifo.machine capacity) event
      (Implements capacity) := by
  intro s a t f h hn ho
  clear ho
  replace hn : next s a=some t := hn
  have hi := next_inv h.inv hn
  cases a with
  | tryEnqueue item | tryDequeue =>
    simp only [next] at hn
    split at hn <;> cases hn
    exact ⟨hi,h.size,h.messages⟩
  | produce =>
    simp only [next] at hn
    split at hn <;> cases hn
    rename_i item pc hp
    exact h.produce hp
  | consume =>
    simp only [next] at hn
    split at hn <;> cases hn
    rename_i pc hc
    exact h.consume hc

/-- Every run of the queue is a run of the FIFO of its stored values. -/
theorem queue_implements (h : (machine α).Reachable s) :
    ∃ f,(Fifo.machine (s.queue.capacity-1)).Reachable f ∧
      Implements (s.queue.capacity-1) s f := by
  obtain ⟨_,⟨k,cells,h1,hk,rfl⟩,hs⟩ := h
  have hpos := Nat.two_pow_pos k
  have hstart : Implements (2^k-1) (init (2^k) cells) .empty :=
    ⟨init_inv cells h1 hk,show 2^k=2^k-1+1 by omega,rfl⟩
  obtain ⟨f,hf,hi⟩ := (simulates_fifo (2^k-1)).steps hs hstart
  rw [show s.queue.capacity-1=2^k-1 by rw [hi.size]; rfl]
  exact ⟨f,⟨_,rfl,hf⟩,hi⟩

end Simulation

/-- A stored value lies in a slot that the producer does not write. -/
theorem Inv.spared {s : State α} {item x : α} {tail i : Nat} (h : Inv s)
    (hp : s.producer=some (item,.writeSlot tail)) (hx : (stored s)[i]?=some x) :
    s.queue.slot (wrap (s.queue.readIndex+i))=x ∧
      (wrap (s.queue.readIndex+i) &&& s.queue.mask) ≠ (tail &&& s.queue.mask) := by
  obtain ⟨rfl,hroom⟩ : tail=wrap s.enqueued.length ∧ _ := h.producer item _ hp
  rw [stored,List.getElem?_drop] at hx
  have hlt := (List.getElem?_eq_some_iff.mp hx).1
  rw [h.read,wrap_add]
  constructor
  · have hslot := h.slots (s.dequeued.length+i) (by omega) hlt
    exact Option.some.inj (hslot.symm.trans hx)
  · exact h.mask_ne hlt (by omega)

/-- One producer and one consumer see a FIFO of one slot less than the ring has, in every
interleaving and across every wrap of the indices: values come out in the order they went in,
no stored value's slot is written, and a call gives up only on what it saw when it loaded the
other side's index. Every access is answered by the FIFO: with a send when a value is stored or
refused, with a take of that value when one is handed over, and otherwise with nothing. -/
theorem spsc_fifo {s : State α} (h : (machine α).Reachable s) :
    s.dequeued <+: s.enqueued ∧
    (stored s).length ≤ s.queue.capacity-1 ∧
    (∀ item tail i x,s.producer=some (item,.writeSlot tail) → (stored s)[i]?=some x →
      s.queue.slot (wrap (s.queue.readIndex+i))=x ∧
        (wrap (s.queue.readIndex+i) &&& s.queue.mask) ≠ (tail &&& s.queue.mask)) ∧
    (∀ item pc,s.producer=some (item,pc) →
      (s.queue.tryEnqueue item pc).2=.returned false →
        (∃ tail,pc=.loadRead tail) ∧ (stored s).length=s.queue.capacity-1) ∧
    (∀ pc,s.consumer=some pc → (s.queue.tryDequeue pc).2=.returned none →
      (∃ front,pc=.loadWrite front) ∧ stored s=[]) ∧
    (∀ _ : DecidableEq α,
      (machine α).Simulates Machine.anyStep (Fifo.machine (s.queue.capacity-1)) event
        (Implements (s.queue.capacity-1)) ∧
      ∃ f,(Fifo.machine (s.queue.capacity-1)).Reachable f ∧
        Implements (s.queue.capacity-1) s f ∧ f.messages=stored s) := by
  have hi := reachable_inv h
  refine ⟨hi.prefixed,?_,?_,?_,?_,?_⟩
  · have hroom := hi.room
    rw [length_stored]
    omega
  · intro item tail i x hp hx
    exact hi.spared hp hx
  · intro item pc hp hf
    obtain ⟨htail,hfull⟩ := hi.refused hp hf
    exact ⟨htail,by omega⟩
  · intro pc hc hf
    exact hi.missed hc hf
  · intro _
    obtain ⟨f,hf,himpl⟩ := queue_implements h
    exact ⟨simulates_fifo _,f,hf,himpl,himpl.messages⟩

/-- A ring of two slots holds one value: with it stored, the second `try_enqueue` is about to
give up. -/
theorem spsc_fifo_full : ∃ s : State Nat,(machine Nat).Reachable s ∧
    s.enqueued=[7] ∧ s.producer=some (8,.loadRead 1) ∧
      (s.queue.tryEnqueue 8 (.loadRead 1)).2=.returned false ∧
      (stored s).length=s.queue.capacity-1 := by
  obtain ⟨s,hs,hp⟩ := Machine.exists_reachableBy (machine Nat) Machine.anyStep
    [.tryEnqueue 7,.produce,.tryDequeue,.produce,.consume,.produce,.produce,.tryEnqueue 8,
      .produce]
    (fun s => s.enqueued=[7] ∧ s.producer=some (8,.loadRead 1) ∧
      (s.queue.tryEnqueue 8 (.loadRead 1)).2=.returned false)
    ⟨1,fun _ => 0,by decide,by decide,rfl⟩ (by decide)
  have hv : s.enqueued=[7] ∧ s.producer=some (8,.loadRead 1) ∧
      (s.queue.tryEnqueue 8 (.loadRead 1)).2=.returned false := by simpa using hp
  exact ⟨s,hs,hv.1,hv.2.1,hv.2.2,((spsc_fifo hs).2.2.2.1 8 _ hv.2.1 hv.2.2).2⟩

end Spsc

end Acnet
