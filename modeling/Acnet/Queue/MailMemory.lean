import Acnet.Framework.Memory
import Acnet.Queue.Mpsc

/-!
`MailQueue` with the memory orders that its accesses name. The indices are only accessed
relaxed; all that orders the slots is the acquire and release of their sequences.
-/

namespace Acnet.MailMemory

open MailQueue History Mpsc

variable {ι θ μ : Type}

/-- The atomic objects of a mailbox. -/
inductive Loc where
  | writeIndex
  | readIndex
  | sequence (slot : Nat)
  | consumer
  | scheduled
  | discardedNr
  | solvedNr
  deriving DecidableEq

structure Queue (θ μ : Type) where
  writeIndex : History Loc θ Nat
  readIndex : History Loc θ Nat
  sequence : Nat → History Loc θ Nat
  message : Nat → Plain θ (Option μ)
  size : Nat
  mask : Nat

namespace Queue

def new (size : Nat) : Queue θ μ where
  writeIndex := .initial 0
  readIndex := .initial 0
  sequence i := .initial i
  message _ := .new none
  size := bitCeil size
  mask := bitCeil size-1

def setSequence (q : Queue θ μ) (i : Nat) (h : History Loc θ Nat) : Queue θ μ :=
  {q with sequence := Function.update q.sequence (i &&& q.mask) h}

def setMessage (q : Queue θ μ) (i : Nat) (c : Plain θ (Option μ)) : Queue θ μ :=
  {q with message := Function.update q.message (i &&& q.mask) c}

variable [DecidableEq θ]

/-- One access of `try_enqueue(message)` by thread `i` in view `v`; `k` says which write a load
reads, or the time of a store. An exchange that fails has only loaded the index. -/
def tryEnqueue (i : θ) (message : μ) (spurious : Bool) (k : Nat) (q : Queue θ μ)
    (v : View Loc θ) :
    EnqueuePc → Option (Queue θ μ×View Loc θ×Control EnqueuePc Bool)
  | .loadIndex =>
      (load .writeIndex .relaxed q.writeIndex v k).map fun (writeIdx,v) =>
        (q,v,.running (.loadSequence writeIdx))
  | .loadSequence writeIdx =>
      (load (.sequence (writeIdx &&& q.mask)) .acquire (q.sequence (writeIdx &&& q.mask)) v k).map
        fun (sequence,v) =>
          let diff := signedSub sequence writeIdx
          (q,v,if diff < 0 then .returned false
            else if diff=0 then .running (.compareExchange writeIdx)
            else .running .loadIndex)
  | .compareExchange writeIdx =>
      match load .writeIndex .relaxed q.writeIndex v k with
      | none => none
      | some (found,v') =>
          if found=writeIdx ∧ spurious=false then
            (update .writeIndex .relaxed q.writeIndex v k fun _ => wrap (writeIdx+1)).map
              fun (_,h,v) => ({q with writeIndex := h},v,.running (.writeMessage writeIdx))
          else some (q,v',.running .loadIndex)
  | .writeMessage writeIdx =>
      let v := v.tick i
      some (q.setMessage writeIdx ((q.message (writeIdx &&& q.mask)).set i v (some message)),v,
        .running (.storeSequence writeIdx))
  | .storeSequence writeIdx =>
      (store (.sequence (writeIdx &&& q.mask)) .release (q.sequence (writeIdx &&& q.mask)) v k
        (wrap (writeIdx+1))).map fun (h,v) => (q.setSequence writeIdx h,v,.returned true)

def tryDequeue (i : θ) (k : Nat) (q : Queue θ μ) (v : View Loc θ) :
    DequeuePc μ → Option (Queue θ μ×View Loc θ×Control (DequeuePc μ) (Option (Option μ)))
  | .loadIndex =>
      (load .readIndex .relaxed q.readIndex v k).map fun (readIdx,v) =>
        (q,v,.running (.loadSequence readIdx))
  | .loadSequence readIdx =>
      (load (.sequence (readIdx &&& q.mask)) .acquire (q.sequence (readIdx &&& q.mask)) v k).map
        fun (sequence,v) =>
          (q,v,if signedSub sequence (wrap (readIdx+1)) < 0 then .returned none
            else .running (.readMessage readIdx))
  | .readMessage readIdx =>
      let v := v.tick i
      let c := q.message (readIdx &&& q.mask)
      some (q.setMessage readIdx (c.noteRead i v),v,.running (.clearMessage readIdx c.value))
  | .clearMessage readIdx message =>
      let v := v.tick i
      some (q.setMessage readIdx ((q.message (readIdx &&& q.mask)).set i v none),v,
        .running (.storeIndex readIdx message))
  | .storeIndex readIdx message =>
      (store .readIndex .relaxed q.readIndex v k (wrap (readIdx+1))).map fun (h,v) =>
        ({q with readIndex := h},v,.running (.storeSequence readIdx message))
  | .storeSequence readIdx message =>
      (store (.sequence (readIdx &&& q.mask)) .release (q.sequence (readIdx &&& q.mask)) v k
        (wrap (readIdx+q.size))).map fun (h,v) =>
          (q.setSequence readIdx h,v,.returned (some message))

omit [DecidableEq θ] in
def canDequeue (k : Nat) (q : Queue θ μ) (v : View Loc θ) :
    CanDequeuePc → Option (View Loc θ×Control CanDequeuePc Bool)
  | .loadIndex =>
      (load .readIndex .relaxed q.readIndex v k).map fun (readIdx,v) =>
        (v,.running (.loadSequence readIdx))
  | .loadSequence readIdx =>
      (load (.sequence (readIdx &&& q.mask)) .acquire (q.sequence (readIdx &&& q.mask)) v k).map
        fun (sequence,v) => (v,.returned (0 ≤ signedSub sequence (wrap (readIdx+1))))

/-- Every index and sequence that was ever stored is below `2^63`. -/
def InRange (q : Queue θ μ) : Prop :=
  (∀ w∈q.writeIndex,w.value < 2^63) ∧ (∀ w∈q.readIndex,w.value < 2^63) ∧
    ∀ i < q.size,∀ w∈q.sequence i,w.value < 2^63

end Queue

/-- The queue with its producers and its consumer, each with what it knows of the memory.
`claimed` and `returned` are histories, as for the queue under sequential consistency. -/
structure State (ι θ μ : Type) where
  queue : Queue θ μ
  producers : ι → Option (μ×EnqueuePc)
  producerView : ι → View Loc θ
  consumer : ConsumerPc μ
  consumerView : View Loc θ
  claimed : List μ
  returned : List (Option μ)

def produce [DecidableEq ι] (s : State ι θ μ) (p : ι) (m : μ) :
    Queue θ μ×View Loc θ×Control EnqueuePc Bool → State ι θ μ
  | (q,v,.running pc) =>
      {s with
        queue := q
        producers := Function.update s.producers p (some (m,pc))
        producerView := Function.update s.producerView p v
        claimed := s.claimed++claim m pc}
  | (q,v,.returned _) =>
      {s with
        queue := q
        producers := Function.update s.producers p none
        producerView := Function.update s.producerView p v}

def consume (s : State ι θ μ) :
    Queue θ μ×View Loc θ×Control (DequeuePc μ) (Option (Option μ)) → State ι θ μ
  | (q,v,.running pc) => {s with queue := q,consumer := .dequeue pc,consumerView := v}
  | (q,v,.returned none) => {s with queue := q,consumer := .idle,consumerView := v}
  | (q,v,.returned (some m)) =>
      {s with queue := q,consumer := .idle,consumerView := v,returned := s.returned++[m]}

inductive Action (ι μ : Type) where
  | tryEnqueue (p : ι) (message : μ)
  | produce (p : ι) (spurious : Bool) (k : Nat)
  | tryDequeue
  | canDequeue
  | consume (k : Nat)

/-- The producers are threads, and so is the consumer, under the name `none`. -/
def next [DecidableEq ι] (s : State ι (Option ι) μ) : Action ι μ → Option (State ι (Option ι) μ)
  | .tryEnqueue p m =>
      match s.producers p with
      | none => some {s with producers := Function.update s.producers p (some (m,.loadIndex))}
      | some _ => none
  | .produce p spurious k =>
      match s.producers p with
      | none => none
      | some (m,pc) =>
          (s.queue.tryEnqueue (some p) m spurious k (s.producerView p) pc).map (produce s p m)
  | .tryDequeue =>
      match s.consumer with
      | .idle => some {s with consumer := .dequeue .loadIndex}
      | _ => none
  | .canDequeue =>
      match s.consumer with
      | .idle => some {s with consumer := .check .loadIndex}
      | _ => none
  | .consume k =>
      match s.consumer with
      | .idle => none
      | .dequeue pc => (s.queue.tryDequeue none k s.consumerView pc).map (consume s)
      | .check pc =>
          (s.queue.canDequeue k s.consumerView pc).map fun (v,control) =>
            {s with
              consumer := match control with
                | .running pc' => .check pc'
                | .returned _ => .idle
              consumerView := v}

def init (size : Nat) : State ι θ μ := ⟨.new size,fun _ => none,fun _ => ⊥,.idle,⊥,[],[]⟩

def machine (ι μ : Type) [DecidableEq ι] : Machine (State ι (Option ι) μ) (Action ι μ) where
  start s := ∃ size,2 ≤ bitCeil size ∧ size ≤ 2^63 ∧ s=init size
  next := next

/-- Runs on which every stored index stays below `2^63`. -/
def InRange (_ : State ι (Option ι) μ) (_ : Action ι μ) (t : State ι (Option ι) μ) : Prop :=
  t.queue.InRange

instance (q : Queue θ μ) : Decidable q.InRange := by
  unfold Queue.InRange
  infer_instance

instance (s : State ι (Option ι) μ) (a : Action ι μ) (t : State ι (Option ι) μ) :
    Decidable (InRange s a t) :=
  inferInstanceAs (Decidable t.queue.InRange)

/-- The next access of a producer to its slot's message is a data race. -/
def ProducerRaces (s : State ι θ μ) (p : ι) : Prop :=
  ∃ m w,s.producers p=some (m,.writeMessage w) ∧
    ¬(s.queue.message (w &&& s.queue.mask)).Writable (s.producerView p)

/-- The next access of the consumer to its slot's message is a data race. -/
def ConsumerRaces (s : State ι θ μ) : Prop :=
  (∃ r,s.consumer=.dequeue (.readMessage r) ∧
    ¬(s.queue.message (r &&& s.queue.mask)).Readable s.consumerView) ∨
  ∃ r m,s.consumer=.dequeue (.clearMessage r m) ∧
    ¬(s.queue.message (r &&& s.queue.mask)).Writable s.consumerView

/-- The counter `i` is handed out by its slot with the mark `i` and published with `i+1`. -/
def mark (size slot k : Nat) : Nat := slot+k/2*size+k%2

/-- How many marks the slot of counter `i` has seen while `i` lies in the current window. -/
def marks (size : Nat) (st : Nat → Stage) (i : Nat) : Nat :=
  2*(i/size)+1+(decide (st i=.published)).toNat

theorem mark_free (size i : Nat) : mark size (i%size) (2*(i/size))=i := by
  have := Nat.mod_add_div' i size
  simp only [mark]
  rw [Nat.mul_div_cancel_left _ (by decide)]
  omega

theorem mark_published (size i : Nat) : mark size (i%size) (2*(i/size)+1)=i+1 := by
  have := Nat.mod_add_div' i size
  simp only [mark]
  rw [show (2*(i/size)+1)/2=i/size by omega]
  omega

theorem mark_lt {size k m : Nat} (slot : Nat) (h2 : 2 ≤ size) (h : k < m) :
    mark size slot k < mark size slot m := by
  unfold mark
  rcases Nat.lt_or_ge (k/2) (m/2) with hlt | hge
  · have : (k/2+1)*size ≤ m/2*size := Nat.mul_le_mul_right _ hlt
    rw [Nat.add_mul] at this
    omega
  · have : k/2=m/2 := by omega
    rw [this]
    omega

theorem mark_inj {size slot k m : Nat} (h2 : 2 ≤ size)
    (h : mark size slot k=mark size slot m) : k=m := by
  rcases Nat.lt_trichotomy k m with hlt | he | hlt
  · have := mark_lt slot h2 hlt
    omega
  · exact he
  · have := mark_lt slot h2 hlt
    omega

/-- The counter whose slot the consumer is working on. -/
def busy : ConsumerPc μ → Option Nat
  | .dequeue (.readMessage r) | .dequeue (.clearMessage r _)
  | .dequeue (.storeIndex r _) | .dequeue (.storeSequence r _) => some r
  | _ => none

theorem busy_of_cleared {c : ConsumerPc μ} {i : Nat} (h : c.cleared i=true) :
    busy c=some i := by
  unfold ConsumerPc.cleared at h
  split at h
  · simpa [busy] using h
  · simpa [busy] using h
  · cases h

/-- A slot that is still to be published gets the mark of its message. -/
theorem mark_marks {size i : Nat} {st : Nat → Stage} (h : st i≠.published) :
    mark size (i%size) (marks size st i)=i+1 := by
  have hmarks : marks size st i=2*(i/size)+1 := by simp [marks,h]
  rw [hmarks,mark_published]

/-- A published slot gets the mark of the counter one lap later. -/
theorem mark_marks_published {size i : Nat} {st : Nat → Stage} (hpos : 0 < size)
    (h : st i=.published) : mark size (i%size) (marks size st i)=i+size := by
  have hmarks : marks size st i=2*((i+size)/size) := by
    rw [Nat.add_div_right _ hpos]
    simp only [marks,h,decide_true,Bool.toNat_true]
    omega
  rw [hmarks,← Nat.add_mod_right,mark_free]

theorem marks_lap {size i : Nat} {st : Nat → Stage} (hpos : 0 < size) (h : st i=.published)
    (hnext : st (i+size)=.free) : marks size st (i+size)=marks size st i+1 := by
  simp only [marks,h,hnext,Nat.add_div_right _ hpos,decide_true,Bool.toNat_true,reduceCtorEq,
    decide_false,Bool.toNat_false]
  omega

/-- Nobody works on the slot of counter `i`. -/
def Rests (st : Nat → Stage) (c : ConsumerPc μ) (i : Nat) : Prop :=
  st i=.free ∨ st i=.published ∧ busy c≠some i

/-- A thread in view `v` may work on the slot of counter `i`: it has acquired the newest mark,
and no access of the slot is a data race. -/
def Held (q : Queue θ μ) (i : Nat) (v : View Loc θ) : Prop :=
  ∃ w,(q.sequence (i%q.size)).getLast?=some w ∧ w.view ≤ v ∧
    w.time ≤ v.1 (.sequence (i%q.size)) ∧ (q.message (i%q.size)).Writable v

def ProducerOk (q : Queue θ μ) (claimed : List μ) (first : Nat) (st : Nat → Stage) (m : μ)
    (v : View Loc θ) : EnqueuePc → Prop
  | .loadIndex => True
  | .loadSequence w => w ≤ claimed.length
  | .compareExchange w => w ≤ claimed.length ∧
      ∃ u,(q.sequence (w%q.size))[2*(w/q.size)]?=some u ∧ u.view ≤ v ∧
        u.time ≤ v.1 (.sequence (w%q.size))
  | .writeMessage w => first ≤ w ∧ st w=.claimed ∧ claimed[w]?=some m ∧ Held q w v
  | .storeSequence w => first ≤ w ∧ st w=.written ∧ claimed[w]?=some m ∧ Held q w v

def ConsumerOk (q : Queue θ μ) (claimed : List μ) (first : Nat) (st : Nat → Stage)
    (v : View Loc θ) : ConsumerPc μ → Prop
  | .idle | .check _ | .dequeue .loadIndex => q.readIndex.length=first+1
  | .dequeue (.loadSequence r) => q.readIndex.length=first+1 ∧ r=first
  | .dequeue (.readMessage r) =>
      q.readIndex.length=first+1 ∧ r=first ∧ st r=.published ∧ Held q r v
  | .dequeue (.clearMessage r m) | .dequeue (.storeIndex r m) =>
      q.readIndex.length=first+1 ∧ r=first ∧ st r=.published ∧ Held q r v ∧ m=claimed[r]?
  | .dequeue (.storeSequence r m) =>
      q.readIndex.length=first+2 ∧ r=first ∧ st r=.published ∧ Held q r v ∧ m=claimed[r]?

/-- Every counter that is claimed but unpublished has a producer on the way. -/
def Owners (producers : ι → Option (μ×EnqueuePc)) (st : Nat → Stage) : Prop :=
  ∀ i,st i≠.free → st i≠.published → ∃ p m pc,producers p=some (m,pc) ∧ owned pc=some i

/-- The invariant of the queue with the marks of each slot as a chain of writes. The counters of
the window are those that own a slot; `st` says how far each has come. -/
structure Inv (s : State ι θ μ) (st : Nat → Stage) : Prop where
  pow : ∃ k,s.queue.size=2^k
  mask : s.queue.mask=s.queue.size-1
  two : 2 ≤ s.queue.size
  write : ∀ k w,s.queue.writeIndex[k]?=some w → w.time=k ∧ w.value=wrap k
  writes : s.queue.writeIndex.length=s.claimed.length+1
  read : Chain .readIndex s.queue.readIndex
  plain : ∀ w∈s.queue.readIndex,w.view ≤ View.observe ⊥ .readIndex w.time
  reads : ∀ k w,s.queue.readIndex[k]?=some w → w.value=wrap k
  seen : Seen .readIndex s.queue.readIndex s.consumerView
  room : s.claimed.length ≤ s.returned.length+s.queue.size
  behind : s.returned.length ≤ s.claimed.length
  fifo : s.returned=(s.claimed.take s.returned.length).map some
  free : ∀ i,st i=.free ↔ s.claimed.length ≤ i
  chain : ∀ j,Chain (.sequence j) (s.queue.sequence j)
  marked : ∀ i,s.returned.length ≤ i → i < s.returned.length+s.queue.size →
    (s.queue.sequence (i%s.queue.size)).map (·.value)=
      (List.range (marks s.queue.size st i)).map (mark s.queue.size (i%s.queue.size))
  message : ∀ i,s.returned.length ≤ i → i < s.returned.length+s.queue.size →
    (s.queue.message (i%s.queue.size)).value=(slotAt s.claimed s.consumer st i).message
  rest : ∀ i,s.returned.length ≤ i → i < s.returned.length+s.queue.size → Rests st s.consumer i →
    ∃ w,(s.queue.sequence (i%s.queue.size)).getLast?=some w ∧
      (s.queue.message (i%s.queue.size)).Writable w.view
  producer : ∀ p m pc,s.producers p=some (m,pc) →
    ProducerOk s.queue s.claimed s.returned.length st m (s.producerView p) pc
  exclusive : Exclusive s.producers
  owners : Owners s.producers st
  consumer : ConsumerOk s.queue s.claimed s.returned.length st s.consumerView s.consumer

namespace Inv

variable {s : State ι θ μ} {st : Nat → Stage} {i j k : Nat} {w : Write Loc θ Nat}

theorem land (h : Inv s st) (i : Nat) : i &&& s.queue.mask=i%s.queue.size := by
  obtain ⟨k,hk⟩ := h.pow
  rw [h.mask,land_mask hk]

/-- What a write of a slot's sequence says by its place in the history. -/
theorem mark_of_get (h : Inv s st) (hi : s.returned.length ≤ i)
    (hi' : i < s.returned.length+s.queue.size)
    (hw : (s.queue.sequence (i%s.queue.size))[k]?=some w) :
    k < marks s.queue.size st i ∧ w.value=mark s.queue.size (i%s.queue.size) k := by
  have hk : ((s.queue.sequence (i%s.queue.size)).map (·.value))[k]?=some w.value := by simp [hw]
  rw [h.marked i hi hi',List.getElem?_map] at hk
  by_cases hlt : k < marks s.queue.size st i
  · rw [List.getElem?_range hlt] at hk
    exact ⟨hlt,by simpa using hk.symm⟩
  · have hnone := List.getElem?_eq_none (l := List.range (marks s.queue.size st i))
      (by simpa using hlt)
    simp [hnone] at hk

theorem length_sequence (h : Inv s st) (hi : s.returned.length ≤ i)
    (hi' : i < s.returned.length+s.queue.size) :
    (s.queue.sequence (i%s.queue.size)).length=marks s.queue.size st i := by
  simpa using congrArg List.length (h.marked i hi hi')

/-- The newest mark of a slot in the window. -/
theorem last_iff (h : Inv s st) (hi : s.returned.length ≤ i)
    (hi' : i < s.returned.length+s.queue.size) :
    (s.queue.sequence (i%s.queue.size)).getLast?=some w ↔
      (s.queue.sequence (i%s.queue.size))[marks s.queue.size st i-1]?=some w := by
  rw [List.getLast?_eq_getElem?,h.length_sequence hi hi']

theorem sequence_lt (h : Inv s st) (hr : s.queue.InRange)
    (hw : (s.queue.sequence (i%s.queue.size))[k]?=some w) : w.value < 2^63 := by
  have h2 := h.two
  exact hr.2.2 _ (Nat.mod_lt _ (by omega)) w (List.mem_of_getElem? hw)

/-- In range, the whole window is below `2^63`. -/
theorem bound (h : Inv s st) (hr : s.queue.InRange) :
    s.returned.length+s.queue.size ≤ 2^63 := by
  have h2 := h.two
  let i := s.returned.length+s.queue.size-1
  have hi : s.returned.length ≤ i := by omega
  have hi' : i < s.returned.length+s.queue.size := by omega
  have hlen := h.length_sequence hi hi'
  have hlt : 2*(i/s.queue.size) < (s.queue.sequence (i%s.queue.size)).length := by
    rw [hlen,marks]
    omega
  obtain ⟨w,hw⟩ : ∃ w,(s.queue.sequence (i%s.queue.size))[2*(i/s.queue.size)]?=some w :=
    ⟨_,List.getElem?_eq_getElem hlt⟩
  have hv := (h.mark_of_get hi hi' hw).2
  rw [mark_free] at hv
  have := h.sequence_lt hr hw
  omega

theorem claimed_lt (h : Inv s st) (hr : s.queue.InRange) : s.claimed.length < 2^63 := by
  have hlen := h.writes
  obtain ⟨w,hw⟩ : ∃ w,s.queue.writeIndex[s.claimed.length]?=some w :=
    ⟨_,List.getElem?_eq_getElem (by omega)⟩
  have hlt := hr.1 w (List.mem_of_getElem? hw)
  have := h.room
  have := h.bound hr
  rw [(h.write _ w hw).2,wrap_of_lt (by omega)] at hlt
  exact hlt

theorem lt_of_stage (h : Inv s st) (hi : st i≠.free) : i < s.claimed.length := by
  by_contra hn
  exact hi ((h.free i).mpr (by omega))

theorem in_window (h : Inv s st) (hi : st i≠.free) : i < s.returned.length+s.queue.size :=
  (h.lt_of_stage hi).trans_le h.room

/-- A slot that a producer is filling is claimed, unpublished and not yet recycled. -/
theorem held (h : Inv s st) {p : ι} {m : μ} {pc : EnqueuePc} {w : Nat}
    (hp : s.producers p=some (m,pc)) (hw : owned pc=some w) :
    st w≠.free ∧ st w≠.published ∧ s.returned.length ≤ w := by
  have ho := h.producer p m pc hp
  cases pc <;> simp only [owned,reduceCtorEq,Option.some.injEq] at hw
  all_goals
    subst w
    obtain ⟨hle,hst,_⟩ := ho
    exact ⟨by simp [hst],by simp [hst],hle⟩

/-- The counter that the consumer works on is the published head. -/
theorem busy_head (h : Inv s st) (hb : busy s.consumer=some i) :
    i=s.returned.length ∧ st i=.published := by
  have hc := h.consumer
  unfold busy at hb
  split at hb
  all_goals
    rename_i heq
    simp only [heq,ConsumerOk] at hc
    cases hb
  all_goals exact ⟨hc.2.1,hc.2.2.1⟩

theorem not_cleared (h : Inv s st) (hi : st i≠.published) : s.consumer.cleared i=false := by
  by_contra hc
  exact hi (h.busy_head (busy_of_cleared (by simpa using hc))).2

/-- Counters of the window lie in different slots. -/
theorem slot_ne (_ : Inv s st) (hi : s.returned.length ≤ i)
    (hi' : i < s.returned.length+s.queue.size) (hj : s.returned.length ≤ j)
    (hj' : j < s.returned.length+s.queue.size) (hne : i≠j) :
    i%s.queue.size≠j%s.queue.size :=
  fun he => hne (slot_inj hi hi' hj hj' he)

/-- Two producers fill different slots. -/
theorem slot_of_other (h : Inv s st) {p p' : ι} {m m' : μ} {pc pc' : EnqueuePc}
    (hp : s.producers p=some (m,pc)) (hi : owned pc=some i) (hp' : s.producers p'=some (m',pc'))
    (hj : owned pc'=some j) (hne : p'≠p) : j≠i ∧ j%s.queue.size≠i%s.queue.size := by
  have hji : j≠i := fun e => hne (h.exclusive p' p m' m pc' pc i hp' hp (e ▸ hj) hi)
  obtain ⟨hf,-,hle⟩ := h.held hp hi
  obtain ⟨hf',-,hle'⟩ := h.held hp' hj
  exact ⟨hji,h.slot_ne hle' (h.in_window hf') hle (h.in_window hf) hji⟩

/-- The head, once published, is in another slot than what a producer fills. -/
theorem slot_of_head (h : Inv s st) {p : ι} {m : μ} {pc : EnqueuePc}
    (hp : s.producers p=some (m,pc)) (hi : owned pc=some i) (hj : st j=.published)
    (hfirst : j=s.returned.length) : j≠i ∧ j%s.queue.size≠i%s.queue.size := by
  obtain ⟨hf,hpub,hle⟩ := h.held hp hi
  have hji : j≠i := by
    rintro rfl
    exact hpub hj
  exact ⟨hji,h.slot_ne hfirst.ge (h.in_window (by simp [hj])) hle (h.in_window hf) hji⟩

/-- The next window trades the head for the counter one lap later, in the same slot. -/
theorem next_window (h : Inv s st) (hi : s.returned.length+1 ≤ i)
    (hi' : i < s.returned.length+1+s.queue.size) :
    i=s.returned.length+s.queue.size ∨ s.returned.length ≤ i ∧
      i < s.returned.length+s.queue.size ∧ i≠s.returned.length ∧
      i%s.queue.size≠s.returned.length%s.queue.size := by
  have h2 := h.two
  by_cases he : i=s.returned.length+s.queue.size
  · exact Or.inl he
  · have hin : s.returned.length ≤ i ∧ i < s.returned.length+s.queue.size := by omega
    have hne : i≠s.returned.length := by omega
    exact Or.inr ⟨hin.1,hin.2,hne,h.slot_ne hin.1 hin.2 le_rfl (by omega) hne⟩

theorem setSequence_self (h : Inv s st) (i : Nat) (x : History Loc θ Nat) :
    (s.queue.setSequence i x).sequence (i%s.queue.size)=x := by
  simp [Queue.setSequence,h.land]

theorem setSequence_of_ne (h : Inv s st) (hj : j≠i%s.queue.size) (x : History Loc θ Nat) :
    (s.queue.setSequence i x).sequence j=s.queue.sequence j := by
  simp [Queue.setSequence,h.land,hj]

theorem setMessage_self (h : Inv s st) (i : Nat) (x : Plain θ (Option μ)) :
    (s.queue.setMessage i x).message (i%s.queue.size)=x := by
  simp [Queue.setMessage,h.land]

theorem setMessage_of_ne (h : Inv s st) (hj : j≠i%s.queue.size) (x : Plain θ (Option μ)) :
    (s.queue.setMessage i x).message j=s.queue.message j := by
  simp [Queue.setMessage,h.land,hj]

theorem prefix_setSequence (h : Inv s st) (i : Nat) (w : Write Loc θ Nat) (j : Nat) :
    s.queue.sequence j <+:
      (s.queue.setSequence i (s.queue.sequence (i%s.queue.size)++[w])).sequence j := by
  by_cases hj : j=i%s.queue.size
  · subst hj
    rw [h.setSequence_self]
    exact List.prefix_append _ _
  · exact h.setSequence_of_ne hj _ ▸ List.prefix_rfl

/-- Whoever holds a slot may store its sequence. -/
theorem chain_setSequence (h : Inv s st) {v : View Loc θ} {time value : Nat}
    (hh : Held s.queue i v) (ht : v.1 (.sequence (i%s.queue.size)) < time) (j : Nat) :
    Chain (.sequence j) ((s.queue.setSequence i (s.queue.sequence (i%s.queue.size)++
      [⟨time,value,v.observe (.sequence (i%s.queue.size)) time⟩])).sequence j) := by
  obtain ⟨u,hu,huv,hut,-⟩ := hh
  by_cases hj : j=i%s.queue.size
  · subst hj
    rw [h.setSequence_self]
    refine (h.chain _).concat_last hu (hut.trans_lt ht) (huv.trans View.le_observe) ?_
    rw [View.observe_self]
    exact max_le ht.le le_rfl
  · rw [h.setSequence_of_ne hj]
    exact h.chain j

theorem marked_concat (h : Inv s st) (hi : s.returned.length ≤ i)
    (hi' : i < s.returned.length+s.queue.size)
    (hw : w.value=mark s.queue.size (i%s.queue.size) (marks s.queue.size st i)) :
    (s.queue.sequence (i%s.queue.size)++[w]).map (·.value)=
      (List.range (marks s.queue.size st i+1)).map (mark s.queue.size (i%s.queue.size)) := by
  rw [List.map_append,h.marked i hi hi',List.range_succ,List.map_append]
  simp [hw]

/-- A counter goes from one stage to another; what is claimed stays claimed. -/
theorem free_update (h : Inv s st) (hi : st i≠.free) {stage : Stage} (hs : stage≠.free)
    (j : Nat) : Function.update st i stage j=.free ↔ s.claimed.length ≤ j := by
  by_cases hj : j=i
  · subst j
    have := h.lt_of_stage hi
    simp [hs]
    omega
  · rw [Function.update_of_ne hj]
    exact h.free j

/-- What the head hands over is the next message in the order of the claims. -/
theorem fifo_concat (h : Inv s st) {m : Option μ} (hlt : s.returned.length < s.claimed.length)
    (hm : m=s.claimed[s.returned.length]?) :
    s.returned++[m]=(s.claimed.take (s.returned.length+1)).map some := by
  rw [List.take_succ_eq_append_getElem hlt,List.map_append,← h.fifo,hm,
    List.getElem?_eq_getElem hlt]
  rfl

/-- A mark by which counter `w` is free shows that the window has come to `w`. -/
theorem lt_window (h : Inv s st) {w : Nat} {u : Write Loc θ Nat}
    (hu : (s.queue.sequence (w%s.queue.size))[2*(w/s.queue.size)]?=some u) :
    w < s.returned.length+s.queue.size := by
  have h2 := h.two
  obtain ⟨i,hi,hi',hm⟩ := slot_window (n := s.queue.size) (by omega) s.returned.length w
  rw [← hm] at hu
  have hlt := (h.mark_of_get hi hi' hu).1
  have hdiv : w/s.queue.size ≤ i/s.queue.size := by
    unfold marks at hlt
    have := Bool.toNat_le (decide (st i=.published))
    omega
  have hw := Nat.mod_add_div' w s.queue.size
  have hiw := Nat.mod_add_div' i s.queue.size
  have hmul : w/s.queue.size*s.queue.size ≤ i/s.queue.size*s.queue.size :=
    Nat.mul_le_mul_right _ hdiv
  omega

end Inv

section Keep

variable {q q' : Queue θ μ} {claimed claimed' : List μ} {first first' i : Nat}
  {st st' : Nat → Stage} {m : μ} {v v' : View Loc θ}

theorem Held.mono (h : Held q i v) (hv : v ≤ v') : Held q i v' := by
  obtain ⟨w,hw,hle,ht,hc⟩ := h
  exact ⟨w,hw,hle.trans hv,ht.trans (hv.1 _),hc.1.trans hv.2,hc.2.trans hv.2⟩

theorem Held.congr (h : Held q i v) (hz : q'.size=q.size)
    (hs : q'.sequence (i%q.size)=q.sequence (i%q.size))
    (hm : q'.message (i%q.size)=q.message (i%q.size)) : Held q' i v := by
  unfold Held at h ⊢
  rw [hz,hs,hm]
  exact h

/-- A producer keeps its ground while its own slot stays as it is and sequences only grow. -/
theorem ProducerOk.keep {pc : EnqueuePc} (h : ProducerOk q claimed first st m v pc)
    (hv : v ≤ v') (hz : q'.size=q.size) (hq : ∀ j,q.sequence j <+: q'.sequence j)
    (hl : claimed.length ≤ claimed'.length)
    (hw : ∀ w,owned pc=some w → st' w=st w ∧ claimed'[w]?=claimed[w]? ∧ first' ≤ w ∧
      q'.sequence (w%q.size)=q.sequence (w%q.size) ∧
      q'.message (w%q.size)=q.message (w%q.size)) :
    ProducerOk q' claimed' first' st' m v' pc := by
  cases pc with
  | loadIndex => trivial
  | loadSequence w => exact le_trans h hl
  | compareExchange w =>
    obtain ⟨hle,u,hu,hw,ht⟩ := h
    refine ⟨hle.trans hl,?_⟩
    rw [hz]
    obtain ⟨tail,htail⟩ := hq (w%q.size)
    refine ⟨u,?_,hw.trans hv,ht.trans (hv.1 _)⟩
    rw [← htail,List.getElem?_append_left (List.getElem?_eq_some_iff.mp hu).1]
    exact hu
  | writeMessage w | storeSequence w =>
    obtain ⟨hs,hc,hf,hseq,hmsg⟩ := hw w rfl
    exact ⟨hf,hs.trans h.2.1,hc.trans h.2.2.1,(h.2.2.2.congr hz hseq hmsg).mono hv⟩

theorem ConsumerOk.keep {c : ConsumerPc μ} (h : ConsumerOk q claimed first st v c)
    (hv : v ≤ v') (hz : q'.size=q.size) (hi : q'.readIndex=q.readIndex)
    (hp : ∀ r,st r=.published → r=first → st' r=.published ∧ claimed'[r]?=claimed[r]? ∧
      q'.sequence (r%q.size)=q.sequence (r%q.size) ∧
      q'.message (r%q.size)=q.message (r%q.size)) :
    ConsumerOk q' claimed' first st' v' c := by
  cases c with
  | idle => exact (congrArg List.length hi).trans h
  | check pc => exact (congrArg List.length hi).trans h
  | dequeue pc =>
    cases pc with
    | loadIndex => exact (congrArg List.length hi).trans h
    | loadSequence r => exact ⟨(congrArg List.length hi).trans h.1,h.2⟩
    | readMessage r =>
      obtain ⟨hl,hr,hs,hh⟩ := h
      obtain ⟨hs',-,hseq,hmsg⟩ := hp r hs hr
      exact ⟨(congrArg List.length hi).trans hl,hr,hs',(hh.congr hz hseq hmsg).mono hv⟩
    | clearMessage r x | storeIndex r x | storeSequence r x =>
      obtain ⟨hl,hr,hs,hh,hx⟩ := h
      obtain ⟨hs',hc,hseq,hmsg⟩ := hp r hs hr
      exact ⟨(congrArg List.length hi).trans hl,hr,hs',(hh.congr hz hseq hmsg).mono hv,
        hx.trans hc.symm⟩

end Keep

theorem canDequeue_le {q : Queue θ μ} {k : Nat} {v v' : View Loc θ} {pc : CanDequeuePc}
    {control : Control CanDequeuePc Bool} (h : q.canDequeue k v pc=some (v',control)) :
    v ≤ v' := by
  cases pc with
  | loadIndex =>
    obtain ⟨x,hl,he⟩ := Option.map_eq_some_iff.mp h
    obtain ⟨w,-,-,rfl⟩ := load_cases hl
    cases he
    exact le_read w
  | loadSequence readIdx =>
    obtain ⟨x,hl,he⟩ := Option.map_eq_some_iff.mp h
    obtain ⟨w,-,-,rfl⟩ := load_cases hl
    cases he
    exact le_read w

/-- `q'` is a later state of the queue's memory. -/
structure Grows (q q' : Queue θ μ) : Prop where
  size : q'.size=q.size
  mask : q'.mask=q.mask
  sequence : ∀ j,q.sequence j <+: q'.sequence j

/-- A thread in view `v` has learnt that counter `i` was published. -/
def Covered (q : Queue θ μ) (i : Nat) (v : View Loc θ) : Prop :=
  ∃ w∈q.sequence (i &&& q.mask),w.value=wrap (i+1) ∧ w.time ≤ v.1 (.sequence (i &&& q.mask))

section Grows

variable {q q' : Queue θ μ} {v v' : View Loc θ} {i : Nat}

theorem Grows.refl (q : Queue θ μ) : Grows q q := ⟨rfl,rfl,fun _ => List.prefix_rfl⟩

theorem Covered.mono (h : Covered q i v) (hq : Grows q q') (hv : v ≤ v') : Covered q' i v' := by
  obtain ⟨w,hw,hval,ht⟩ := h
  unfold Covered
  rw [hq.mask]
  exact ⟨w,(hq.sequence _).subset hw,hval,ht.trans (hv.1 _)⟩

theorem grows_setSequence (q : Queue θ μ) (i : Nat) (w : Write Loc θ Nat) :
    Grows q (q.setSequence i (q.sequence (i &&& q.mask)++[w])) := by
  refine ⟨rfl,rfl,fun j => ?_⟩
  simp only [Queue.setSequence]
  by_cases hj : j=i &&& q.mask
  · rw [hj,Function.update_self]
    exact List.prefix_append _ _
  · exact Function.update_of_ne hj _ q.sequence ▸ List.prefix_rfl

theorem grows_setMessage (q : Queue θ μ) (i : Nat) (c : Plain θ (Option μ)) :
    Grows q (q.setMessage i c) := ⟨rfl,rfl,fun _ => List.prefix_rfl⟩

variable [DecidableEq θ]

/-- What one access of `try_enqueue` leaves behind; it returns `true` with the publication. -/
theorem tryEnqueue_grows {t : θ} {m : μ} {spurious : Bool} {k : Nat} {pc : EnqueuePc}
    {control : Control EnqueuePc Bool}
    (hn : q.tryEnqueue t m spurious k v pc=some (q',v',control)) :
    Grows q q' ∧ v ≤ v' ∧
      (control=.returned true → ∃ w,pc=.storeSequence w ∧ Covered q' w v') := by
  cases pc with
  | loadIndex =>
    obtain ⟨x,hl,he⟩ := Option.map_eq_some_iff.mp hn
    obtain ⟨w,-,-,rfl⟩ := load_cases hl
    cases he
    exact ⟨.refl q,le_read w,nofun⟩
  | loadSequence writeIdx =>
    obtain ⟨x,hl,he⟩ := Option.map_eq_some_iff.mp hn
    obtain ⟨w,-,-,rfl⟩ := load_cases hl
    cases he
    refine ⟨.refl q,le_read w,?_⟩
    split_ifs <;> simp
  | compareExchange writeIdx =>
    simp only [Queue.tryEnqueue] at hn
    split at hn
    · cases hn
    · rename_i found u hl
      obtain ⟨w,-,-,he⟩ := load_cases hl
      cases he
      split_ifs at hn
      · obtain ⟨x,hup,he⟩ := Option.map_eq_some_iff.mp hn
        obtain ⟨w',-,-,-,rfl⟩ := update_cases hup
        cases he
        exact ⟨⟨rfl,rfl,fun _ => List.prefix_rfl⟩,(le_read w').trans View.le_observe,nofun⟩
      · cases hn
        exact ⟨.refl q,le_read w,nofun⟩
  | writeMessage writeIdx =>
    cases hn
    exact ⟨grows_setMessage ..,View.le_tick,nofun⟩
  | storeSequence writeIdx =>
    obtain ⟨x,hs,he⟩ := Option.map_eq_some_iff.mp hn
    obtain ⟨ht,-,rfl⟩ := store_cases hs
    cases he
    refine ⟨grows_setSequence ..,View.le_observe,fun _ => ⟨writeIdx,rfl,?_⟩⟩
    refine ⟨⟨k,wrap (writeIdx+1),v.observe (.sequence (writeIdx &&& q.mask)) k⟩,?_,rfl,?_⟩
    · simp only [Queue.setSequence,Function.update_self,List.mem_append,List.mem_singleton]
      exact Or.inr rfl
    · exact (le_max_right _ k).trans_eq View.observe_self.symm

theorem tryDequeue_grows {t : θ} {k : Nat} {pc : DequeuePc μ}
    {control : Control (DequeuePc μ) (Option (Option μ))}
    (hn : q.tryDequeue t k v pc=some (q',v',control)) : Grows q q' ∧ v ≤ v' := by
  cases pc with
  | loadIndex =>
    obtain ⟨x,hl,he⟩ := Option.map_eq_some_iff.mp hn
    obtain ⟨w,-,-,rfl⟩ := load_cases hl
    cases he
    exact ⟨.refl q,le_read w⟩
  | loadSequence readIdx =>
    obtain ⟨x,hl,he⟩ := Option.map_eq_some_iff.mp hn
    obtain ⟨w,-,-,rfl⟩ := load_cases hl
    cases he
    exact ⟨.refl q,le_read w⟩
  | readMessage readIdx =>
    cases hn
    exact ⟨grows_setMessage ..,View.le_tick⟩
  | clearMessage readIdx m =>
    cases hn
    exact ⟨grows_setMessage ..,View.le_tick⟩
  | storeIndex readIdx m =>
    obtain ⟨x,hs,he⟩ := Option.map_eq_some_iff.mp hn
    obtain ⟨-,-,rfl⟩ := store_cases hs
    cases he
    exact ⟨⟨rfl,rfl,fun _ => List.prefix_rfl⟩,View.le_observe⟩
  | storeSequence readIdx m =>
    obtain ⟨x,hs,he⟩ := Option.map_eq_some_iff.mp hn
    obtain ⟨-,-,rfl⟩ := store_cases hs
    cases he
    exact ⟨grows_setSequence ..,View.le_observe⟩

end Grows

theorem Owners.update [DecidableEq ι] {producers : ι → Option (μ×EnqueuePc)}
    {st st' : Nat → Stage} (h : Owners producers st) (p : ι) {x : Option (μ×EnqueuePc)}
    (hx : ∀ i,st' i≠.free → st' i≠.published → (∃ m pc,x=some (m,pc) ∧ owned pc=some i) ∨
      st i≠.free ∧ st i≠.published ∧ ∀ m pc,producers p=some (m,pc) → owned pc≠some i) :
    Owners (Function.update producers p x) st' := by
  intro i hf hp
  rcases hx i hf hp with ⟨m,pc,rfl,ho⟩ | ⟨hf',hp',hn⟩
  · exact ⟨p,m,pc,Function.update_self ..,ho⟩
  · obtain ⟨p',m,pc,he,ho⟩ := h i hf' hp'
    have hne : p'≠p := by
      rintro rfl
      exact hn m pc he ho
    exact ⟨p',m,pc,(Function.update_of_ne hne ..).trans he,ho⟩

section Claim

variable {s : State ι θ μ} {st : Nat → Stage}

/-- The producer's load of `write_index_` finds an index that was claimed or is the next. -/
theorem Inv.load_write (h : Inv s st) (hr : s.queue.InRange) {k : Nat} {w : Write Loc θ Nat}
    (hw : s.queue.writeIndex[k]?=some w) : w.value=k ∧ k ≤ s.claimed.length := by
  have hlen := (List.getElem?_eq_some_iff.mp hw).1
  have hk := h.writes
  have hclaimed := h.claimed_lt hr
  rw [(h.write k w hw).2,wrap_of_lt (by omega)]
  exact ⟨rfl,by omega⟩

/-- A mark that equals the index is the one that hands the index out. -/
theorem Inv.load_free (h : Inv s st) (hr : s.queue.InRange) {w k : Nat} {u : Write Loc θ Nat}
    (hle : w ≤ s.claimed.length) (hu : (s.queue.sequence (w%s.queue.size))[k]?=some u)
    (hzero : signedSub u.value w=0) : k=2*(w/s.queue.size) := by
  have h2 := h.two
  have hclaimed := h.claimed_lt hr
  obtain ⟨j,hj,hj',hm⟩ := slot_window (n := s.queue.size) (by omega) s.returned.length w
  rw [← hm] at hu
  have hval := (h.mark_of_get hj hj' hu).2
  rw [signedSub_of_lt (h.sequence_lt hr hu) (by omega)] at hzero
  have hmark : mark s.queue.size (w%s.queue.size) k=
      mark s.queue.size (w%s.queue.size) (2*(w/s.queue.size)) := by
    rw [mark_free,← hm]
    omega
  exact mark_inj h2 hmark

/-- The exchange on `write_index_` succeeds only on its last write. -/
theorem Inv.exchange_write (h : Inv s st) (hr : s.queue.InRange) {w k : Nat}
    {u : Write Loc θ Nat} (hu : s.queue.writeIndex[k]?=some u) (hvalue : u.value=w)
    (hfresh : ∀ x∈s.queue.writeIndex,x.time≠u.time+1) : w=s.claimed.length ∧
      u.time=s.claimed.length := by
  obtain ⟨hk,hle⟩ := h.load_write hr hu
  have hlen := h.writes
  have htime := (h.write k u hu).1
  obtain rfl | hlt := Nat.eq_or_lt_of_le hle
  · exact ⟨hvalue.symm.trans hk,htime⟩
  · obtain ⟨x,hx⟩ : ∃ x,s.queue.writeIndex[k+1]?=some x :=
      ⟨_,List.getElem?_eq_getElem (by omega)⟩
    refine absurd ?_ (hfresh x (List.mem_of_getElem? hx))
    rw [(h.write _ x hx).1,htime]

/-- The producer that wins the exchange holds the slot: nobody works on it, and the mark that the
producer has read is its newest. -/
theorem Inv.claim_held (h : Inv s st) {m : μ} {v : View Loc θ}
    (hp : ProducerOk s.queue s.claimed s.returned.length st m v
      (.compareExchange s.claimed.length)) : Held s.queue s.claimed.length v := by
  obtain ⟨-,u,hu,huv,hut⟩ := hp
  have hroom := h.lt_window hu
  have hfree : st s.claimed.length=.free := (h.free _).mpr le_rfl
  obtain ⟨w,hw,hc⟩ := h.rest _ h.behind hroom (Or.inl hfree)
  have hlast := (h.last_iff h.behind hroom).mp hw
  have hm : marks s.queue.size st s.claimed.length-1=2*(s.claimed.length/s.queue.size) := by
    simp [marks,hfree]
  rw [hm,hu] at hlast
  obtain rfl := Option.some.inj hlast
  exact ⟨u,hw,huv,hut,hc.1.trans huv.2,hc.2.trans huv.2⟩

/-- A claim changes nothing for the counters claimed before. -/
theorem Inv.claimed_before (h : Inv s st) (m : μ) {i : Nat} (hi : st i≠.free) :
    Function.update st s.claimed.length .claimed i=st i ∧
      (s.claimed++[m])[i]?=s.claimed[i]? := by
  have hlt := h.lt_of_stage hi
  exact ⟨Function.update_of_ne hlt.ne _ _,List.getElem?_append_left hlt⟩

theorem Inv.free_claim (h : Inv s st) (m : μ) (i : Nat) :
    Function.update st s.claimed.length .claimed i=.free ↔ (s.claimed++[m]).length ≤ i := by
  rw [List.length_append,List.length_singleton]
  by_cases hi : i=s.claimed.length
  · subst i
    simp
  · rw [Function.update_of_ne hi,h.free i]
    omega

theorem Inv.marks_claim (h : Inv s st) (i : Nat) :
    marks s.queue.size (Function.update st s.claimed.length .claimed) i=
      marks s.queue.size st i := by
  have hfree : st s.claimed.length=.free := (h.free _).mpr le_rfl
  unfold marks
  by_cases hi : i=s.claimed.length
  · subst i
    simp [hfree]
  · simp [hi]

theorem Inv.slotAt_claim (h : Inv s st) (m : μ) (i : Nat) :
    slotAt (s.claimed++[m]) s.consumer (Function.update st s.claimed.length .claimed) i=
      slotAt s.claimed s.consumer st i := by
  by_cases hf : st i=.free
  · by_cases he : i=s.claimed.length
    · subst i
      simp [slotAt,hf]
    · simp [slotAt,he,hf]
  · obtain ⟨hst,hc⟩ := h.claimed_before m hf
    simp only [slotAt,hst,hc]

end Claim

section Producers

variable [DecidableEq ι] {s : State ι θ μ} {st : Nat → Stage} {p : ι}

/-- A producer that owns no slot moves without touching the queue; it may learn something. -/
theorem Inv.set_producer (h : Inv s st) (p : ι) {x : Option (μ×EnqueuePc)} {v : View Loc θ}
    (hnone : ∀ m pc,s.producers p=some (m,pc) → owned pc=none)
    (hx : ∀ m pc,x=some (m,pc) →
      ProducerOk s.queue s.claimed s.returned.length st m v pc ∧ owned pc=none) :
    Inv {s with
      producers := Function.update s.producers p x
      producerView := Function.update s.producerView p v} st := by
  refine {h with producer := ?_,exclusive := ?_,owners := ?_}
  · intro p' m pc hp
    by_cases he : p'=p
    · subst p'
      simpa using (hx m pc (by simpa using hp)).1
    · simpa [he] using h.producer p' m pc (by simpa [he] using hp)
  · apply h.exclusive.update
    intro m pc w he hw
    simp [(hx m pc he).2] at hw
  · refine h.owners.update p fun i hf hp => Or.inr ⟨hf,hp,fun m pc he => ?_⟩
    simp [hnone m pc he]

/-- Winning the exchange on `write_index_` claims the next counter and its slot. -/
theorem Inv.claim_step (h : Inv s st) (p : ι) (m : μ) {hist : History Loc θ Nat}
    {v v' : View Loc θ} (hnone : ∀ m pc,s.producers p=some (m,pc) → owned pc=none)
    (hp : ProducerOk s.queue s.claimed s.returned.length st m v
      (.compareExchange s.claimed.length)) (hv : v ≤ v')
    (hwrite : ∀ k w,hist[k]?=some w → w.time=k ∧ w.value=wrap k)
    (hlen : hist.length=s.claimed.length+2) :
    Inv {s with
      queue := {s.queue with writeIndex := hist}
      producers := Function.update s.producers p (some (m,.writeMessage s.claimed.length))
      producerView := Function.update s.producerView p v'
      claimed := s.claimed++[m]} (Function.update st s.claimed.length .claimed) := by
  have hheld := h.claim_held hp
  have hb := h.behind
  have hfree : st s.claimed.length=.free := (h.free _).mpr le_rfl
  have grow : (s.claimed++[m]).length=s.claimed.length+1 := by simp
  refine ⟨h.pow,h.mask,h.two,hwrite,hlen.trans (by simp),h.read,h.plain,h.reads,h.seen,?_,?_,?_,
    h.free_claim m,h.chain,?_,?_,?_,?_,?_,?_,?_⟩
  · obtain ⟨-,u,hu,-⟩ := hp
    change (s.claimed++[m]).length ≤ _
    rw [grow]
    exact h.lt_window hu
  · change s.returned.length ≤ (s.claimed++[m]).length
    omega
  · change s.returned=((s.claimed++[m]).take s.returned.length).map some
    rw [List.take_append_of_le_length hb]
    exact h.fifo
  · intro i hi hi'
    exact (h.marked i hi hi').trans (by rw [h.marks_claim])
  · intro i hi hi'
    exact (h.message i hi hi').trans (by rw [h.slotAt_claim])
  · intro i hi hi' hrest
    refine h.rest i hi hi' ?_
    by_cases he : i=s.claimed.length
    · subst i
      exact Or.inl hfree
    · simpa [Rests,he] using hrest
  · intro p' m' pc hp'
    by_cases he : p'=p
    · subst p'
      simp only [Function.update_self,Option.some.injEq,Prod.mk.injEq] at hp'
      obtain ⟨rfl,rfl⟩ := hp'
      simp only [Function.update_self]
      exact ⟨hb,by simp,by simp,hheld.mono hv⟩
    · have hp'' : s.producers p'=some (m',pc) := by simpa [he] using hp'
      simp only [Function.update_of_ne he]
      apply (h.producer p' m' pc hp'').keep le_rfl rfl (fun _ => List.prefix_rfl)
        (by rw [grow]; omega)
      intro w hw
      obtain ⟨hf,_,hle⟩ := h.held hp'' hw
      obtain ⟨hst,hc⟩ := h.claimed_before m hf
      exact ⟨hst,hc,hle,rfl,rfl⟩
  · apply h.exclusive.update
    intro m' pc w he hw p' m'' pc' _ hp hw'
    simp only [Option.some.injEq,Prod.mk.injEq] at he
    obtain ⟨_,rfl⟩ := he
    obtain rfl : s.claimed.length=w := by simpa [owned] using hw
    exact (h.held hp hw').1 hfree
  · refine h.owners.update p fun i hf hpub => ?_
    by_cases he : i=s.claimed.length
    · exact Or.inl ⟨m,_,rfl,congrArg some he.symm⟩
    · rw [Function.update_of_ne he] at hf hpub
      exact Or.inr ⟨hf,hpub,fun m pc hpc => by simp [hnone m pc hpc]⟩
  · apply h.consumer.keep le_rfl rfl rfl
    intro r hr _
    obtain ⟨hst,hc⟩ := h.claimed_before m (i := r) (by simp [hr])
    exact ⟨hst.trans hr,hc,rfl,rfl⟩

/-- The owner of a counter brings it to its next stage. -/
theorem Inv.owners_update (h : Inv s st) {m : μ} {pc : EnqueuePc} {w : Nat}
    (hp : s.producers p=some (m,pc)) (hw : owned pc=some w) {x : Option (μ×EnqueuePc)}
    {stage : Stage} (hx : stage=.published ∨ ∃ m' pc',x=some (m',pc') ∧ owned pc'=some w) :
    Owners (Function.update s.producers p x) (Function.update st w stage) := by
  refine h.owners.update p fun i hf hpub => ?_
  by_cases he : i=w
  · subst i
    rw [Function.update_self] at hpub
    exact Or.inl (hx.resolve_left hpub)
  · rw [Function.update_of_ne he] at hf hpub
    refine Or.inr ⟨hf,hpub,fun m' pc' hpc hi => he ?_⟩
    cases hp.symm.trans hpc
    exact Option.some.inj (hi.symm.trans hw)

/-- The owner of counter `w` writes its message into the slot. -/
theorem Inv.write_step (h : Inv s st) {m : μ} {w : Nat} {c : Plain θ (Option μ)}
    {v : View Loc θ} (hp : s.producers p=some (m,.writeMessage w)) (hv : s.producerView p ≤ v)
    (hc : c.value=some m) (hwritable : c.Writable v) :
    Inv {s with
      queue := s.queue.setMessage w c
      producers := Function.update s.producers p (some (m,.storeSequence w))
      producerView := Function.update s.producerView p v} (Function.update st w .written) := by
  obtain ⟨hle,hst,hm,hh⟩ := h.producer p m _ hp
  have hf : st w≠.free := by simp [hst]
  have hother {i : Nat} (hi : s.returned.length ≤ i) (hi' : i < s.returned.length+s.queue.size)
      (hne : i≠w) : (s.queue.setMessage w c).message (i%s.queue.size)=
        s.queue.message (i%s.queue.size) :=
    h.setMessage_of_ne (h.slot_ne hi hi' hle (h.in_window hf) hne) c
  have hown := h.setMessage_self w c
  refine ⟨h.pow,h.mask,h.two,h.write,h.writes,h.read,h.plain,h.reads,h.seen,h.room,h.behind,
    h.fifo,h.free_update hf (by simp),h.chain,?_,?_,?_,?_,?_,
    h.owners_update hp rfl (Or.inr ⟨m,_,rfl,rfl⟩),?_⟩
  · intro i hi hi'
    refine (h.marked i hi hi').trans ?_
    by_cases he : i=w
    · subst i
      simp [marks,hst,Queue.setMessage]
    · simp [marks,he,Queue.setMessage]
  · intro i hi hi'
    change ((s.queue.setMessage w c).message (i%s.queue.size)).value=_
    by_cases he : i=w
    · subst i
      simp [hown,hc,slotAt,hm]
    · rw [hother hi hi' he,h.message i hi hi']
      simp [slotAt,he]
  · intro i hi hi' hrest
    have he : i≠w := by
      rintro rfl
      simp [Rests] at hrest
    obtain ⟨u,hu,hcu⟩ := h.rest i hi hi' (by simpa [Rests,he] using hrest)
    refine ⟨u,hu,?_⟩
    change ((s.queue.setMessage w c).message (i%s.queue.size)).Writable u.view
    rw [hother hi hi' he]
    exact hcu
  · intro p' m' pc hp'
    by_cases he : p'=p
    · subst p'
      simp only [Function.update_self,Option.some.injEq,Prod.mk.injEq] at hp'
      obtain ⟨rfl,rfl⟩ := hp'
      simp only [Function.update_self]
      obtain ⟨u,hu,huv,hut,-⟩ := hh
      refine ⟨hle,by simp,hm,u,hu,huv.trans hv,hut.trans (hv.1 _),?_⟩
      change ((s.queue.setMessage w c).message (w%s.queue.size)).Writable v
      rw [hown]
      exact hwritable
    · have hp'' : s.producers p'=some (m',pc) := by simpa [he] using hp'
      simp only [Function.update_of_ne he]
      refine (h.producer p' m' pc hp'').keep le_rfl ?_ (fun _ => List.prefix_rfl) le_rfl ?_
      · rfl
      intro x hx
      obtain ⟨hne,hslot⟩ := h.slot_of_other hp rfl hp'' hx he
      exact ⟨Function.update_of_ne hne _ _,rfl,(h.held hp'' hx).2.2,rfl,
        h.setMessage_of_ne hslot c⟩
  · apply h.exclusive.update
    intro m' pc' x he hx p' m'' pc'' hne hp' hx'
    simp only [Option.some.injEq,Prod.mk.injEq] at he
    obtain ⟨_,rfl⟩ := he
    obtain rfl : w=x := by simpa [owned] using hx
    exact (h.slot_of_other hp rfl hp' hx' hne).1 rfl
  · refine h.consumer.keep le_rfl ?_ ?_ ?_
    · rfl
    · rfl
    intro r hr hfirst
    obtain ⟨hne,hslot⟩ := h.slot_of_head hp rfl hr hfirst
    exact ⟨(Function.update_of_ne hne _ _).trans hr,rfl,rfl,h.setMessage_of_ne hslot c⟩

/-- The owner of counter `w` publishes its slot with a release store. -/
theorem Inv.publish_step (h : Inv s st) {m : μ} {w time : Nat} (hr : s.queue.InRange)
    (hp : s.producers p=some (m,.storeSequence w))
    (ht : (s.producerView p).1 (.sequence (w%s.queue.size)) < time) :
    Inv {s with
      queue := s.queue.setSequence w (s.queue.sequence (w%s.queue.size)++
        [⟨time,wrap (w+1),carried (.sequence (w%s.queue.size)) .release time
          ((s.producerView p).observe (.sequence (w%s.queue.size)) time)⟩])
      producers := Function.update s.producers p none
      producerView := Function.update s.producerView p
        ((s.producerView p).observe (.sequence (w%s.queue.size)) time)}
      (Function.update st w .published) := by
  obtain ⟨hle,hst,hm,hh⟩ := h.producer p m _ hp
  have hf : st w≠.free := by simp [hst]
  have hw' := h.in_window hf
  have hbound := h.bound hr
  have hwrap : wrap (w+1)=w+1 := wrap_of_lt (by omega)
  have hcarried (v : View Loc θ) : carried (.sequence (w%s.queue.size)) .release time v=v := rfl
  have hmarks : marks s.queue.size (Function.update st w .published) w=
      marks s.queue.size st w+1 := by
    simp [marks,hst]
  rw [hwrap,hcarried]
  refine ⟨h.pow,h.mask,h.two,h.write,h.writes,h.read,h.plain,h.reads,h.seen,h.room,h.behind,
    h.fifo,h.free_update hf (by simp),h.chain_setSequence hh ht,?_,?_,?_,?_,?_,
    h.owners_update hp rfl (Or.inl rfl),?_⟩
  · intro i hi hi'
    change ((s.queue.setSequence w _).sequence (i%s.queue.size)).map (·.value)=
      (List.range (marks s.queue.size _ i)).map (mark s.queue.size (i%s.queue.size))
    by_cases he : i=w
    · subst i
      rw [h.setSequence_self,hmarks]
      exact h.marked_concat hi hi' (mark_marks (by simp [hst])).symm
    · rw [h.setSequence_of_ne (h.slot_ne hi hi' hle hw' he),h.marked i hi hi']
      simp [marks,he]
  · intro i hi hi'
    refine (h.message i hi hi').trans ?_
    by_cases he : i=w
    · subst i
      have hopen := h.not_cleared (i := w) (by simp [hst])
      simp [slotAt,hst,hopen]
    · simp [slotAt,he]
  · intro i hi hi' hrest
    change ∃ w',((s.queue.setSequence w _).sequence (i%s.queue.size)).getLast?=some w' ∧ _
    by_cases he : i=w
    · subst i
      obtain ⟨-,-,-,-,hc⟩ := hh
      rw [h.setSequence_self]
      exact ⟨_,List.getLast?_concat,hc⟩
    · rw [h.setSequence_of_ne (h.slot_ne hi hi' hle hw' he)]
      exact h.rest i hi hi' (by simpa [Rests,he] using hrest)
  · intro p' m' pc hp'
    by_cases he : p'=p
    · subst p'
      simp at hp'
    · have hp'' : s.producers p'=some (m',pc) := by simpa [he] using hp'
      simp only [Function.update_of_ne he]
      refine (h.producer p' m' pc hp'').keep le_rfl ?_ (h.prefix_setSequence w _) le_rfl ?_
      · rfl
      intro x hx
      obtain ⟨hne,hslot⟩ := h.slot_of_other hp rfl hp'' hx he
      exact ⟨Function.update_of_ne hne _ _,rfl,(h.held hp'' hx).2.2,
        h.setSequence_of_ne hslot _,rfl⟩
  · apply h.exclusive.update
    simp
  · refine h.consumer.keep le_rfl ?_ ?_ ?_
    · rfl
    · rfl
    intro r hr hfirst
    obtain ⟨hne,hslot⟩ := h.slot_of_head hp rfl hr hfirst
    exact ⟨(Function.update_of_ne hne _ _).trans hr,rfl,h.setSequence_of_ne hslot _,rfl⟩

/-- The producer's weak exchange claims the next counter, or sends the producer back. -/
theorem Inv.exchange_step [DecidableEq θ] (h : Inv s st) (hr : s.queue.InRange) {i : θ} {m : μ}
    {w k : Nat} {spurious : Bool} {r : Queue θ μ×View Loc θ×Control EnqueuePc Bool}
    (hp : s.producers p=some (m,.compareExchange w))
    (hn : s.queue.tryEnqueue i m spurious k (s.producerView p) (.compareExchange w)=some r) :
    ∃ st',Inv (produce s p m r) st' ∧ ∀ i,st' i=.published → st i=.published := by
  have hnone : ∀ m pc,s.producers p=some (m,pc) → owned pc=none := by
    intro m' pc' hp'
    cases hp.symm.trans hp'
    rfl
  simp only [Queue.tryEnqueue] at hn
  split at hn
  · cases hn
  · rename_i found v' hl
    obtain ⟨u,hu,-,he⟩ := load_cases hl
    cases he
    split_ifs at hn with hcas
    · obtain ⟨x,hup,rfl⟩ := Option.map_eq_some_iff.mp hn
      obtain ⟨u',hu',-,hfresh,rfl⟩ := update_cases hup
      obtain rfl := Option.some.inj (hu.symm.trans hu')
      obtain ⟨rfl,htime⟩ := h.exchange_write hr hu hcas.1 hfresh
      have hlen := h.writes
      refine ⟨_,h.claim_step p m hnone (h.producer p m _ hp) ?_ ?_ ?_,?_⟩
      · exact (le_read u).trans View.le_observe
      · intro j x hx
        rcases getElem?_concat_cases hx with hx | ⟨rfl,rfl⟩
        · exact h.write j x hx
        · rw [hlen,htime]
          exact ⟨rfl,rfl⟩
      · rw [List.length_append,hlen]
        rfl
      · intro i hi
        by_cases he : i=s.claimed.length
        · subst i
          simp at hi
        · simpa [he] using hi
    · cases hn
      refine ⟨st,?_,fun i => id⟩
      simp only [produce,claim,List.append_nil]
      refine h.set_producer p hnone ?_
      intro m' pc' he
      cases he
      exact ⟨trivial,rfl⟩

/-- One access of `try_enqueue` keeps the invariant. -/
theorem Inv.produce_step [DecidableEq θ] (h : Inv s st) (hr : s.queue.InRange) {i : θ} {m : μ}
    {pc : EnqueuePc} {spurious : Bool} {k : Nat}
    {r : Queue θ μ×View Loc θ×Control EnqueuePc Bool} (hp : s.producers p=some (m,pc))
    (hn : s.queue.tryEnqueue i m spurious k (s.producerView p) pc=some r) :
    ∃ st',Inv (produce s p m r) st' ∧
      ∀ i,st' i=.published → st i=.published ∨ pc=.storeSequence i := by
  have ho := h.producer p m pc hp
  have hnone (he : owned pc=none) : ∀ m pc,s.producers p=some (m,pc) → owned pc=none := by
    intro m' pc' hp'
    cases hp.symm.trans hp'
    exact he
  cases pc with
  | loadIndex =>
    obtain ⟨x,hl,rfl⟩ := Option.map_eq_some_iff.mp hn
    obtain ⟨w,hw,-,rfl⟩ := load_cases hl
    obtain ⟨hvalue,hle⟩ := h.load_write hr hw
    refine ⟨st,?_,fun i => Or.inl⟩
    simp only [produce,claim,List.append_nil]
    refine h.set_producer p (hnone rfl) ?_
    intro m' pc' he
    cases he
    exact ⟨hvalue.trans_le hle,rfl⟩
  | loadSequence w =>
    obtain ⟨x,hl,rfl⟩ := Option.map_eq_some_iff.mp hn
    obtain ⟨u,hu,-,rfl⟩ := load_cases hl
    rw [h.land] at hu
    refine ⟨st,?_,fun i => Or.inl⟩
    simp only [h.land]
    split_ifs with hneg hzero
    · exact h.set_producer p (hnone rfl) (by simp)
    · simp only [produce,claim,List.append_nil]
      refine h.set_producer p (hnone rfl) ?_
      intro m' pc' he
      cases he
      obtain rfl := h.load_free hr ho hu hzero
      exact ⟨⟨ho,u,hu,view_le_read rfl u,time_le_read u⟩,rfl⟩
    · simp only [produce,claim,List.append_nil]
      refine h.set_producer p (hnone rfl) ?_
      intro m' pc' he
      cases he
      exact ⟨trivial,rfl⟩
  | compareExchange w =>
    obtain ⟨st',hinv,hst⟩ := h.exchange_step hr hp hn
    exact ⟨st',hinv,fun i hi => Or.inl (hst i hi)⟩
  | writeMessage w =>
    cases hn
    obtain ⟨-,-,-,-,-,-,-,hc⟩ := ho
    rw [h.land]
    have hle : s.producerView p ≤ (s.producerView p).tick i := View.le_tick
    refine ⟨Function.update st w .written,?_,?_⟩
    · simp only [produce,claim,List.append_nil]
      exact h.write_step hp hle rfl ⟨Plain.set_le (hc.1.trans hle.2) _,hc.2.trans hle.2⟩
    · intro i hi
      by_cases he : i=w
      · subst i
        simp at hi
      · exact Or.inl (by simpa [he] using hi)
  | storeSequence w =>
    obtain ⟨x,hs,rfl⟩ := Option.map_eq_some_iff.mp hn
    obtain ⟨ht,-,rfl⟩ := store_cases hs
    rw [h.land] at ht ⊢
    refine ⟨Function.update st w .published,h.publish_step hr hp ht,fun i hi => ?_⟩
    by_cases he : i=w
    · exact Or.inr (he ▸ rfl)
    · exact Or.inl (by simpa [he] using hi)

end Producers

section Consumer

variable {s : State ι θ μ} {st : Nat → Stage}

/-- The consumer moves without touching the queue; it may learn something. -/
theorem Inv.set_consumer (h : Inv s st) {c : ConsumerPc μ} {v : View Loc θ}
    (hv : s.consumerView ≤ v)
    (hc : ConsumerOk s.queue s.claimed s.returned.length st v c)
    (hcl : ∀ i,c.cleared i=s.consumer.cleared i) (hb : busy s.consumer=none) :
    Inv {s with consumer := c,consumerView := v} st := by
  refine {h with seen := ?_,message := ?_,rest := ?_,consumer := hc}
  · exact fun w hw => (h.seen w hw).trans (hv.1 _)
  · intro i hi hi'
    refine (h.message i hi hi').trans ?_
    simp only [slotAt,hcl]
  · intro i hi hi' hrest
    refine h.rest i hi hi' ?_
    rcases hrest with hf | ⟨hp,-⟩
    · exact Or.inl hf
    · exact Or.inr ⟨hp,by simp [hb]⟩

/-- The consumer is between two calls, or has not yet accessed a slot. -/
def ready : ConsumerPc μ → Bool
  | .idle | .check _ | .dequeue .loadIndex => true
  | _ => false

/-- The consumer goes on to another call. -/
theorem Inv.restart (h : Inv s st) {c : ConsumerPc μ} {v : View Loc θ}
    (hv : s.consumerView ≤ v) (hs : ready s.consumer=true) (hc : ready c=true) :
    Inv {s with consumer := c,consumerView := v} st := by
  have hlen : s.queue.readIndex.length=s.returned.length+1 := by
    have hok := h.consumer
    unfold ready at hs
    split at hs
    · rename_i heq
      rw [heq] at hok
      exact hok
    · rename_i heq
      rw [heq] at hok
      exact hok
    · rename_i heq
      rw [heq] at hok
      exact hok
    · cases hs
  have hcl {c : ConsumerPc μ} (hr : ready c=true) (i : Nat) :
      c.cleared i=false ∧ busy c=none := by
    unfold ready at hr
    split at hr <;> first | exact ⟨rfl,rfl⟩ | cases hr
  refine h.set_consumer hv ?_ ?_ (hcl hs 0).2
  · unfold ready at hc
    split at hc <;> first | exact hlen | cases hc
  · intro i
    rw [(hcl hc i).1,(hcl hs i).1]

/-- The threads learn something between two accesses. -/
theorem Inv.learn (h : Inv s st) {pv : ι → View Loc θ} {v : View Loc θ}
    (hp : s.producerView ≤ pv) (hv : s.consumerView ≤ v) :
    Inv {s with producerView := pv,consumerView := v} st := by
  refine {h with seen := ?_,producer := ?_,consumer := ?_}
  · exact fun w hw => (h.seen w hw).trans (hv.1 _)
  · intro p m pc hpc
    refine (h.producer p m pc hpc).keep (hp p) ?_ (fun _ => List.prefix_rfl) le_rfl ?_
    · rfl
    · exact fun w hw => ⟨rfl,rfl,(h.held hpc hw).2.2,rfl,rfl⟩
  · refine h.consumer.keep hv ?_ ?_ ?_
    · rfl
    · rfl
    · exact fun r hr _ => ⟨hr,rfl,rfl,rfl⟩

theorem Inv.grow (h : Inv s st) {v : View Loc θ} (hv : s.consumerView ≤ v) :
    Inv {s with consumerView := v} st := h.learn le_rfl hv

/-- Reading the head sequence tells a published head, and hands its slot over. -/
theorem Inv.head_published (h : Inv s st) (hr : s.queue.InRange) {k : Nat}
    {w : Write Loc θ Nat} (hb : busy s.consumer=none)
    (hw : (s.queue.sequence (s.returned.length%s.queue.size))[k]?=some w)
    (hn : ¬signedSub w.value (wrap (s.returned.length+1)) < 0) :
    st s.returned.length=.published ∧
      (s.queue.sequence (s.returned.length%s.queue.size)).getLast?=some w ∧
      (s.queue.message (s.returned.length%s.queue.size)).Writable w.view := by
  have h2 := h.two
  have hbound := h.bound hr
  have hlo : s.returned.length ≤ s.returned.length := le_rfl
  have hhi : s.returned.length < s.returned.length+s.queue.size := by omega
  obtain ⟨hk,hval⟩ := h.mark_of_get hlo hhi hw
  have hlt := h.sequence_lt hr hw
  rw [wrap_of_lt (by omega),signedSub_of_lt hlt (by omega)] at hn
  have hgt : 2*(s.returned.length/s.queue.size) < k := by
    by_contra hge
    have hfree := mark_free s.queue.size s.returned.length
    rcases Nat.lt_or_eq_of_le (Nat.not_lt.mp hge) with hlt' | rfl
    · have := mark_lt (s.returned.length%s.queue.size) h2 hlt'
      omega
    · omega
  have hst : st s.returned.length=.published := by
    by_contra hne
    simp [marks,hne] at hk
    omega
  have hmarks : marks s.queue.size st s.returned.length-1=k := by
    simp only [marks,hst,decide_true,Bool.toNat_true] at hk ⊢
    omega
  obtain ⟨u,hu,hc⟩ := h.rest _ hlo hhi (Or.inr ⟨hst,by simp [hb]⟩)
  have hlast := (h.last_iff hlo hhi).mp hu
  rw [hmarks,hw] at hlast
  obtain rfl := Option.some.inj hlast
  exact ⟨hst,hu,hc⟩

/-- The consumer accesses the message of the slot that it works on. -/
theorem Inv.touch_step (h : Inv s st) {r : Nat} {c : ConsumerPc μ} {x : Plain θ (Option μ)}
    {v : View Loc θ} (hb : busy s.consumer=some r) (hv : s.consumerView ≤ v)
    (hbusy : busy c=some r) (hvalue : x.value=(slotAt s.claimed c st r).message)
    (hcl : ∀ i≠r,c.cleared i=s.consumer.cleared i)
    (hc : ConsumerOk (s.queue.setMessage r x) s.claimed s.returned.length st v c) :
    Inv {s with queue := s.queue.setMessage r x,consumer := c,consumerView := v} st := by
  obtain ⟨rfl,hst⟩ := h.busy_head hb
  have h2 := h.two
  have hhi : s.returned.length < s.returned.length+s.queue.size := by omega
  have hother {i : Nat} (hi : s.returned.length ≤ i) (hi' : i < s.returned.length+s.queue.size)
      (hne : i≠s.returned.length) :
      (s.queue.setMessage s.returned.length x).message (i%s.queue.size)=
        s.queue.message (i%s.queue.size) :=
    h.setMessage_of_ne (h.slot_ne hi hi' le_rfl hhi hne) x
  refine {h with
    seen := fun w hw => (h.seen w hw).trans (hv.1 _)
    message := ?_
    rest := ?_
    producer := ?_
    consumer := hc}
  · intro i hi hi'
    change ((s.queue.setMessage s.returned.length x).message (i%s.queue.size)).value=_
    by_cases he : i=s.returned.length
    · subst he
      rw [h.setMessage_self,hvalue]
    · rw [hother hi hi' he,h.message i hi hi']
      simp only [slotAt,hcl i he]
  · intro i hi hi' hrest
    have he : i≠s.returned.length := by
      rintro rfl
      rcases hrest with hf | ⟨-,hne⟩
      · simp [hst] at hf
      · exact hne hbusy
    change ∃ w,(s.queue.sequence (i%s.queue.size)).getLast?=some w ∧
      ((s.queue.setMessage s.returned.length x).message (i%s.queue.size)).Writable w.view
    rw [hother hi hi' he]
    refine h.rest i hi hi' ?_
    rcases hrest with hf | ⟨hp,-⟩
    · exact Or.inl hf
    · refine Or.inr ⟨hp,?_⟩
      rw [hb]
      exact fun e => he (Option.some.inj e).symm
  · intro p m pc hp
    refine (h.producer p m pc hp).keep le_rfl ?_ (fun _ => List.prefix_rfl) le_rfl ?_
    · rfl
    intro w hw
    obtain ⟨hf,hpub,hle⟩ := h.held hp hw
    have hroom := h.room
    have hlt := h.lt_of_stage hf
    have hne : w≠s.returned.length := fun e => hpub (e ▸ hst)
    exact ⟨rfl,rfl,hle,rfl,hother hle (by omega) hne⟩

/-- The consumer stores its own index. -/
theorem Inv.index_step (h : Inv s st) {r time : Nat} {m : Option μ}
    (hc : s.consumer=.dequeue (.storeIndex r m)) (ht : s.consumerView.1 .readIndex < time) :
    Inv {s with
      queue := {s.queue with readIndex := s.queue.readIndex++[⟨time,wrap (r+1),
        carried .readIndex .relaxed time (s.consumerView.observe .readIndex time)⟩]}
      consumer := .dequeue (.storeSequence r m)
      consumerView := s.consumerView.observe .readIndex time} st := by
  have hok := h.consumer
  rw [hc] at hok
  obtain ⟨hlen,rfl,hst,hh,hm⟩ := hok
  have hx : (s.consumerView.observe .readIndex time).1 .readIndex=time := by
    rw [View.observe_self]
    exact max_eq_right ht.le
  have hcarried : carried .readIndex .relaxed time (s.consumerView.observe .readIndex time)=
      View.observe ⊥ .readIndex time := rfl
  have hbot {a b : Nat} (hab : a ≤ b) :
      View.observe (⊥ : View Loc θ) .readIndex a ≤ View.observe ⊥ .readIndex b :=
    View.observe_le bot_le (by rw [View.observe_self]; exact hab.trans (le_max_right _ _))
  have hobs : s.consumerView ≤ s.consumerView.observe .readIndex time := View.le_observe
  rw [hcarried]
  refine ⟨h.pow,h.mask,h.two,h.write,h.writes,?_,?_,?_,?_,h.room,h.behind,h.fifo,h.free,h.chain,
    h.marked,?_,?_,?_,h.exclusive,h.owners,?_⟩
  · refine h.read.concat ?_ (by rw [View.observe_self]; exact max_le bot_le le_rfl)
    intro w hw
    have hlt := (h.seen w hw).trans_lt ht
    exact ⟨hlt,(h.plain w hw).trans (hbot hlt.le)⟩
  · intro w hw
    rcases List.mem_append.mp hw with hw | hw
    · exact h.plain w hw
    · rw [List.mem_singleton.mp hw]
  · intro k w hw
    rcases getElem?_concat_cases hw with hw | ⟨rfl,rfl⟩
    · exact h.reads k w hw
    · rw [hlen]
  · intro w hw
    change w.time ≤ (s.consumerView.observe .readIndex time).1 .readIndex
    rw [hx]
    rcases List.mem_append.mp hw with hw | hw
    · exact ((h.seen w hw).trans_lt ht).le
    · rw [List.mem_singleton.mp hw]
  · intro i hi hi'
    refine (h.message i hi hi').trans ?_
    rw [hc]
    rfl
  · intro i hi hi' hrest
    refine h.rest i hi hi' ?_
    rw [hc]
    exact hrest
  · intro p x pc hp
    refine (h.producer p x pc hp).keep le_rfl ?_ (fun _ => List.prefix_rfl) le_rfl ?_
    · rfl
    · exact fun w hw => ⟨rfl,rfl,(h.held hp hw).2.2,rfl,rfl⟩
  · refine ⟨?_,rfl,hst,hh.mono hobs,hm⟩
    change (s.queue.readIndex++[_]).length=_
    rw [List.length_append,hlen]
    rfl

/-- Recycling the head slot hands its message over and opens the slot for the next lap. -/
theorem Inv.recycle_step (h : Inv s st) {r time : Nat} {m : Option μ} (hr : s.queue.InRange)
    (hc : s.consumer=.dequeue (.storeSequence r m))
    (ht : s.consumerView.1 (.sequence (r%s.queue.size)) < time) :
    Inv {s with
      queue := s.queue.setSequence r (s.queue.sequence (r%s.queue.size)++
        [⟨time,wrap (r+s.queue.size),carried (.sequence (r%s.queue.size)) .release time
          (s.consumerView.observe (.sequence (r%s.queue.size)) time)⟩])
      consumer := .idle
      consumerView := s.consumerView.observe (.sequence (r%s.queue.size)) time
      returned := s.returned++[m]} st := by
  have hok := h.consumer
  rw [hc] at hok
  obtain ⟨hlen,rfl,hst,hh,hm⟩ := hok
  have h2 := h.two
  have hbound := h.bound hr
  have hroom := h.room
  have hhi : s.returned.length < s.returned.length+s.queue.size := by omega
  have hlt : s.returned.length < s.claimed.length := h.lt_of_stage (by simp [hst])
  have hwrap : wrap (s.returned.length+s.queue.size)=s.returned.length+s.queue.size :=
    wrap_of_lt (by omega)
  have hnext : st (s.returned.length+s.queue.size)=.free := (h.free _).mpr hroom
  have grow : (s.returned++[m]).length=s.returned.length+1 := by simp
  have hobs : s.consumerView ≤ s.consumerView.observe
      (.sequence (s.returned.length%s.queue.size)) time := View.le_observe
  have hcarried (v : View Loc θ) :
      carried (.sequence (s.returned.length%s.queue.size)) .release time v=v := rfl
  rw [hwrap,hcarried]
  refine ⟨h.pow,h.mask,h.two,h.write,h.writes,h.read,h.plain,h.reads,?_,?_,?_,?_,h.free,
    h.chain_setSequence hh ht,?_,?_,?_,?_,h.exclusive,h.owners,?_⟩
  · exact fun w hw => (h.seen w hw).trans (hobs.1 _)
  · change s.claimed.length ≤ (s.returned++[m]).length+s.queue.size
    omega
  · change (s.returned++[m]).length ≤ s.claimed.length
    omega
  · change s.returned++[m]=(s.claimed.take (s.returned++[m]).length).map some
    rw [grow]
    exact h.fifo_concat hlt hm
  · intro i hi hi'
    change ((s.queue.setSequence s.returned.length _).sequence (i%s.queue.size)).map (·.value)=
      (List.range (marks s.queue.size st i)).map (mark s.queue.size (i%s.queue.size))
    rcases h.next_window (grow ▸ hi) (grow ▸ hi') with rfl | ⟨hi,hi',hne,hslot⟩
    · rw [Nat.add_mod_right,h.setSequence_self,marks_lap (by omega) hst hnext]
      exact h.marked_concat le_rfl hhi (mark_marks_published (by omega) hst).symm
    · rw [h.setSequence_of_ne hslot]
      exact h.marked i hi hi'
  · intro i hi hi'
    change (s.queue.message (i%s.queue.size)).value=(slotAt s.claimed .idle st i).message
    rcases h.next_window (grow ▸ hi) (grow ▸ hi') with rfl | ⟨hi,hi',hne,-⟩
    · rw [Nat.add_mod_right,h.message _ le_rfl hhi,hc]
      simp [slotAt,hnext,hst,ConsumerPc.cleared]
    · rw [h.message i hi hi',hc]
      have hne' : s.returned.length≠i := fun e => hne e.symm
      simp [slotAt,ConsumerPc.cleared,hne']
  · intro i hi hi' hrest
    change ∃ w,((s.queue.setSequence s.returned.length _).sequence
      (i%s.queue.size)).getLast?=some w ∧ (s.queue.message (i%s.queue.size)).Writable w.view
    rcases h.next_window (grow ▸ hi) (grow ▸ hi') with rfl | ⟨hi,hi',hne,hslot⟩
    · obtain ⟨-,-,-,-,hcell⟩ := hh
      rw [Nat.add_mod_right,h.setSequence_self]
      exact ⟨_,List.getLast?_concat,hcell⟩
    · rw [h.setSequence_of_ne hslot]
      refine h.rest i hi hi' ?_
      rcases hrest with hf | ⟨hp,-⟩
      · exact Or.inl hf
      · refine Or.inr ⟨hp,?_⟩
        rw [hc]
        exact fun e => hne (Option.some.inj e).symm
  · intro p x pc hp
    refine (h.producer p x pc hp).keep le_rfl ?_ (h.prefix_setSequence _ _) le_rfl ?_
    · rfl
    intro w hw
    obtain ⟨-,-,hle⟩ := h.held hp hw
    obtain ⟨hne,hslot⟩ := h.slot_of_head hp hw hst rfl
    refine ⟨rfl,rfl,?_,h.setSequence_of_ne hslot.symm _,rfl⟩
    change (s.returned++[m]).length ≤ w
    omega
  · change s.queue.readIndex.length=(s.returned++[m]).length+1
    omega

/-- One access of `try_dequeue` keeps the invariant. -/
theorem Inv.consume_step [DecidableEq θ] (h : Inv s st) (hr : s.queue.InRange) {i : θ}
    {pc : DequeuePc μ} {k : Nat}
    {r : Queue θ μ×View Loc θ×Control (DequeuePc μ) (Option (Option μ))}
    (hc : s.consumer=.dequeue pc) (hn : s.queue.tryDequeue i k s.consumerView pc=some r) :
    Inv (consume s r) st := by
  have hok := h.consumer
  have h2 := h.two
  have hbound := h.bound hr
  rw [hc] at hok
  cases pc with
  | loadIndex =>
    obtain ⟨x,hl,rfl⟩ := Option.map_eq_some_iff.mp hn
    obtain ⟨w,hw,ht,rfl⟩ := load_cases hl
    have hlen : s.queue.readIndex.length=s.returned.length+1 := hok
    have hk := h.read.last_of_load h.seen hw ht
    refine h.set_consumer (le_read w) ⟨hlen,?_⟩ (by simp [hc,ConsumerPc.cleared])
      (by simp [hc,busy])
    rw [h.reads k w hw,wrap_of_lt (by omega)]
    omega
  | loadSequence readIdx =>
    obtain ⟨hlen,rfl⟩ := hok
    obtain ⟨x,hl,rfl⟩ := Option.map_eq_some_iff.mp hn
    obtain ⟨w,hw,ht,rfl⟩ := load_cases hl
    rw [h.land] at hw
    simp only [h.land]
    split_ifs with hneg
    · exact h.set_consumer (le_read w) hlen (by simp [hc,ConsumerPc.cleared])
        (by simp [hc,busy])
    · obtain ⟨hst,hlast,hcell⟩ := h.head_published hr (by simp [hc,busy]) hw hneg
      have hv : w.view ≤ History.read (.sequence (s.returned.length%s.queue.size)) .acquire w
          s.consumerView := view_le_read rfl w
      exact h.set_consumer (le_read w) ⟨hlen,rfl,hst,w,hlast,hv,time_le_read w,
        hcell.1.trans hv.2,hcell.2.trans hv.2⟩ (by simp [hc,ConsumerPc.cleared])
        (by simp [hc,busy])
  | readMessage readIdx =>
    obtain ⟨hlen,rfl,hst,hh⟩ := hok
    cases hn
    have hle : s.consumerView ≤ s.consumerView.tick i := View.le_tick
    have hlo : s.returned.length ≤ s.returned.length := le_rfl
    have hmsg := h.message _ hlo (by omega)
    simp only [hc,slotAt,hst,ConsumerPc.cleared,Bool.false_eq_true,if_false] at hmsg
    obtain ⟨w,hw,hv,ht,hcell⟩ := hh
    rw [h.land]
    refine h.touch_step (by simp [hc,busy]) hle (by simp [busy]) ?_
      (by simp [hc,ConsumerPc.cleared]) ⟨hlen,rfl,hst,?_,hmsg⟩
    · simp [Plain.noteRead,hmsg,slotAt,hst,ConsumerPc.cleared]
    · refine ⟨w,hw,hv.trans hle,ht,?_⟩
      change ((s.queue.setMessage _ _).message (s.returned.length%s.queue.size)).Writable _
      rw [h.setMessage_self]
      exact ⟨hcell.1.trans hle.2,Plain.noteRead_le (hcell.2.trans hle.2)⟩
  | clearMessage readIdx m =>
    obtain ⟨hlen,rfl,hst,hh,hm⟩ := hok
    cases hn
    have hle : s.consumerView ≤ s.consumerView.tick i := View.le_tick
    obtain ⟨w,hw,hv,ht,hcell⟩ := hh
    rw [h.land]
    refine h.touch_step (by simp [hc,busy]) hle (by simp [busy]) ?_ ?_ ⟨hlen,rfl,hst,?_,hm⟩
    · simp [Plain.set,slotAt,hst,ConsumerPc.cleared]
    · intro j hj
      simp [hc,ConsumerPc.cleared,Ne.symm hj]
    · refine ⟨w,hw,hv.trans hle,ht,?_⟩
      change ((s.queue.setMessage _ _).message (s.returned.length%s.queue.size)).Writable _
      rw [h.setMessage_self]
      exact ⟨Plain.set_le (hcell.1.trans hle.2) _,hcell.2.trans hle.2⟩
  | storeIndex readIdx m =>
    obtain ⟨x,hs,rfl⟩ := Option.map_eq_some_iff.mp hn
    obtain ⟨ht,-,rfl⟩ := store_cases hs
    exact h.index_step hc ht
  | storeSequence readIdx m =>
    obtain ⟨x,hs,rfl⟩ := Option.map_eq_some_iff.mp hn
    obtain ⟨ht,-,rfl⟩ := store_cases hs
    rw [h.land] at ht
    simp only [consume,h.land]
    exact h.recycle_step hr hc ht

end Consumer

section Run

variable {s t : State ι (Option ι) μ} {st : Nat → Stage}

theorem init_inv (size : Nat) (h2 : 2 ≤ bitCeil size) :
    Inv (init size : State ι θ μ) fun _ => .free where
  pow := bitCeil_isPow size
  mask := rfl
  two := h2
  write k w hw := by
    rcases k with - | k
    · cases hw
      exact ⟨rfl,rfl⟩
    · cases hw
  writes := rfl
  read := chain_initial 0
  plain := by simp [init,Queue.new,initial]
  reads k w hw := by
    rcases k with - | k
    · cases hw
      rfl
    · cases hw
  seen := seen_initial 0 _
  room := Nat.zero_le _
  behind := le_rfl
  fifo := rfl
  free i := by simp [init]
  chain j := chain_initial j
  marked i _ hi := by
    replace hi : i < bitCeil size := by simpa [init,Queue.new] using hi
    simp [init,Queue.new,initial,marks,Nat.div_eq_of_lt hi,Nat.mod_eq_of_lt hi,mark]
  message i _ _ := rfl
  rest i _ _ _ := ⟨⟨0,i%bitCeil size,⊥⟩,rfl,bot_le,bot_le⟩
  producer p m pc hp := by simp [init] at hp
  exclusive p p' m m' pc pc' w hp := by simp [init] at hp
  owners i hi := by simp at hi
  consumer := rfl

theorem init_inRange (size : Nat) (h : size ≤ 2^63) :
    (init size : State ι θ μ).queue.InRange := by
  refine ⟨by simp [init,Queue.new,initial],by simp [init,Queue.new,initial],fun i hi w hw => ?_⟩
  have hb := bitCeil_le h
  replace hi : i < bitCeil size := hi
  obtain rfl : w=⟨0,i,⊥⟩ := by simpa [init,Queue.new,initial] using hw
  exact hi.trans_le hb

theorem next_inv [DecidableEq ι] {a : Action ι μ} (hr : s.queue.InRange) (h : ∃ st,Inv s st)
    (hn : next s a=some t) : ∃ st,Inv t st := by
  obtain ⟨st,h⟩ := h
  cases a with
  | tryEnqueue p m =>
    simp only [next] at hn
    split at hn <;> cases hn
    refine ⟨st,?_⟩
    have hset := h.set_producer p (x := some (m,.loadIndex)) (v := s.producerView p)
      (by simp [*]) (by
      intro m' pc he
      cases he
      exact ⟨trivial,rfl⟩)
    rwa [Function.update_eq_self] at hset
  | produce p spurious k =>
    simp only [next] at hn
    split at hn
    · cases hn
    · rename_i m pc hp
      obtain ⟨r,hr',rfl⟩ := Option.map_eq_some_iff.mp hn
      obtain ⟨st',h',-⟩ := h.produce_step hr hp hr'
      exact ⟨st',h'⟩
  | tryDequeue =>
    simp only [next] at hn
    split at hn <;> cases hn
    rename_i hc
    have hok := h.consumer
    rw [hc] at hok
    exact ⟨st,h.set_consumer le_rfl hok (by simp [hc,ConsumerPc.cleared]) (by simp [hc,busy])⟩
  | canDequeue =>
    simp only [next] at hn
    split at hn <;> cases hn
    rename_i hc
    have hok := h.consumer
    rw [hc] at hok
    exact ⟨st,h.set_consumer le_rfl hok (by simp [hc,ConsumerPc.cleared]) (by simp [hc,busy])⟩
  | consume k =>
    simp only [next] at hn
    split at hn
    · cases hn
    · rename_i pc hc
      obtain ⟨r,hr',rfl⟩ := Option.map_eq_some_iff.mp hn
      exact ⟨st,h.consume_step hr hc hr'⟩
    · rename_i pc hc
      have hok := h.consumer
      rw [hc] at hok
      obtain ⟨⟨v,control⟩,hl,rfl⟩ := Option.map_eq_some_iff.mp hn
      have hv : s.consumerView ≤ v := canDequeue_le hl
      refine ⟨st,h.set_consumer hv ?_ ?_ (by simp [hc,busy])⟩
      · cases control <;> exact hok
      · intro i
        cases control <;> simp [hc,ConsumerPc.cleared]

theorem reachable_inv [DecidableEq ι] (h : (machine ι μ).ReachableBy InRange s) :
    s.queue.InRange ∧ ∃ st,Inv s st := by
  apply h.invariant
  · rintro x ⟨size,h2,hle,rfl⟩
    exact ⟨init_inRange size hle,_,init_inv size h2⟩
  · rintro x a y ⟨hr,hi⟩ hn ho
    exact ⟨ho,next_inv hr hi hn⟩

end Run

section Results

variable {s : State ι θ μ} {st : Nat → Stage}

theorem Inv.producer_ordered (h : Inv s st) (p : ι) : ¬ProducerRaces s p := by
  rintro ⟨m,w,hp,hr⟩
  obtain ⟨-,-,-,-,-,-,-,hc⟩ := h.producer p m _ hp
  rw [h.land] at hr
  exact hr hc

theorem Inv.consumer_ordered (h : Inv s st) : ¬ConsumerRaces s := by
  have hok := h.consumer
  rintro (⟨r,hc,hr⟩ | ⟨r,m,hc,hr⟩)
  · rw [hc] at hok
    obtain ⟨-,-,-,-,-,-,-,hcell⟩ := hok
    rw [h.land] at hr
    exact hr hcell.1
  · rw [hc] at hok
    obtain ⟨-,-,-,⟨-,-,-,-,hcell⟩,-⟩ := hok
    rw [h.land] at hr
    exact hr hcell

/-- What a producer knew when it published a message, the consumer knows with the message. -/
theorem Inv.handed (h : Inv s st) {r : Nat} (hb : busy s.consumer=some r) :
    ∃ w∈s.queue.sequence (r%s.queue.size),w.value=r+1 ∧ w.view ≤ s.consumerView := by
  obtain ⟨rfl,hst⟩ := h.busy_head hb
  have h2 := h.two
  have hlo : s.returned.length ≤ s.returned.length := le_rfl
  have hhi : s.returned.length < s.returned.length+s.queue.size := by omega
  obtain ⟨w,hw,hv,-⟩ : Held s.queue s.returned.length s.consumerView := by
    have hok := h.consumer
    unfold busy at hb
    split at hb
    all_goals
      rename_i heq
      simp only [heq,ConsumerOk] at hok
      cases hb
    all_goals first | exact hok.2.2.2 | exact hok.2.2.2.1
  have hlast := (h.last_iff hlo hhi).mp hw
  have hval := (h.mark_of_get hlo hhi hlast).2
  have hmarks : marks s.queue.size st s.returned.length-1=
      2*(s.returned.length/s.queue.size)+1 := by
    simp [marks,hst]
  rw [hmarks,mark_published] at hval
  exact ⟨w,List.mem_of_getElem? hlast,hval,hv⟩

/-- A mark below that of a counter was written before the counter's. -/
theorem Inv.time_lt_of_value_lt (h : Inv s st) {i k : Nat} {u w : Write Loc θ Nat}
    (hu : (s.queue.sequence (i%s.queue.size))[k]?=some u)
    (hw : w∈s.queue.sequence (i%s.queue.size)) (hlt : u.value < w.value) : u.time < w.time := by
  have h2 := h.two
  obtain ⟨n,hn,hn',hm⟩ := slot_window (n := s.queue.size) (by omega) s.returned.length i
  obtain ⟨j,hj⟩ := List.getElem?_of_mem hw
  rw [← hm] at hu hj
  rw [(h.mark_of_get hn hn' hu).2,(h.mark_of_get hn hn' hj).2] at hlt
  refine ((h.chain _).time_lt hu hj ?_).1
  by_contra hge
  rcases Nat.lt_or_eq_of_le (Nat.not_lt.mp hge) with hjk | rfl
  · have := mark_lt (n%s.queue.size) h2 hjk
    omega
  · exact lt_irrefl _ hlt

/-- A consumer that finds the head unpublished has read a mark older than the publication. -/
theorem Inv.missed (h : Inv s st) (hr : s.queue.InRange) {k : Nat} {u w : Write Loc θ Nat}
    (hu : (s.queue.sequence (s.returned.length%s.queue.size))[k]?=some u)
    (hn : signedSub u.value (wrap (s.returned.length+1)) < 0)
    (hw : w∈s.queue.sequence (s.returned.length%s.queue.size))
    (hv : w.value=s.returned.length+1) : u.time < w.time := by
  have h2 := h.two
  have hbound := h.bound hr
  rw [wrap_of_lt (by omega),signedSub_of_lt (h.sequence_lt hr hu) (by omega)] at hn
  exact h.time_lt_of_value_lt hu hw (by omega)

/-- A producer that finds the ring full has read a mark older than the one that frees its slot. -/
theorem Inv.refused (h : Inv s st) (hr : s.queue.InRange) {i k : Nat} {u w : Write Loc θ Nat}
    (hi : i ≤ s.claimed.length) (hu : (s.queue.sequence (i%s.queue.size))[k]?=some u)
    (hn : signedSub u.value i < 0) (hw : w∈s.queue.sequence (i%s.queue.size))
    (hv : w.value=i) : u.time < w.time := by
  have hlt := h.claimed_lt hr
  rw [signedSub_of_lt (h.sequence_lt hr hu) (by omega)] at hn
  exact h.time_lt_of_value_lt hu hw (by omega)

end Results

/-- The memory orders of `MailQueue` suffice. Whatever stale indices and sequences the threads
read, messages come out in claim order, no access of a slot's message is a data race, a claimed
slot is written only after its earlier messages were handed over, and what a producer did before
it published a message happens before the consumer has it. A call gives up only on a mark older
than the one that it waits for and no older than what its caller knew. -/
theorem mailQueue_release_acquire [DecidableEq ι] {s : State ι (Option ι) μ}
    (h : (machine ι μ).ReachableBy InRange s) :
    s.returned <+: s.claimed.map some ∧
    (∀ p,¬ProducerRaces s p) ∧ ¬ConsumerRaces s ∧
    (∀ p m pc w,s.producers p=some (m,pc) → owned pc=some w →
      ∀ i < w,i%s.queue.size=w%s.queue.size → i < s.returned.length) ∧
    (∀ r,busy s.consumer=some r → r=s.returned.length ∧
      ∃ w∈s.queue.sequence (r%s.queue.size),w.value=r+1 ∧ w.view ≤ s.consumerView) ∧
    (∀ p spurious k t m i,next s (.produce p spurious k)=some t →
      s.producers p=some (m,.loadSequence i) → t.producers p=none →
      ∃ u∈s.queue.sequence (i%s.queue.size),
        (s.producerView p).1 (.sequence (i%s.queue.size)) ≤ u.time ∧
        ∀ w∈s.queue.sequence (i%s.queue.size),w.value=i → u.time < w.time) ∧
    (∀ k t r,next s (.consume k)=some t →
      s.consumer=.dequeue (.loadSequence r) → t.consumer=.idle → r=s.returned.length ∧
      ∃ u∈s.queue.sequence (r%s.queue.size),
        s.consumerView.1 (.sequence (r%s.queue.size)) ≤ u.time ∧
        ∀ w∈s.queue.sequence (r%s.queue.size),w.value=r+1 → u.time < w.time) := by
  obtain ⟨hr,st,hi⟩ := reachable_inv h
  refine ⟨?_,hi.producer_ordered,hi.consumer_ordered,?_,?_,?_,?_⟩
  · rw [hi.fifo]
    exact (List.take_prefix _ _).map some
  · intro p m pc w hp hw i hiw hm
    obtain ⟨hf,_,hle⟩ := hi.held hp hw
    have hlt := hi.lt_of_stage hf
    have hroom := hi.room
    have := slot_lap hiw hm
    omega
  · intro r hb
    exact ⟨(hi.busy_head hb).1,hi.handed hb⟩
  · intro p spurious k t m i hn hp ht
    have hle : i ≤ s.claimed.length := hi.producer p m _ hp
    simp only [next,hp] at hn
    obtain ⟨x,hx,rfl⟩ := Option.map_eq_some_iff.mp hn
    obtain ⟨y,hl,rfl⟩ := Option.map_eq_some_iff.mp hx
    obtain ⟨u,hu,hv,rfl⟩ := load_cases hl
    rw [hi.land] at hu hv
    refine ⟨u,List.mem_of_getElem? hu,hv,fun w hw hval => ?_⟩
    simp only at ht
    split_ifs at ht with hneg hzero
    · exact hi.refused hr hle hu hneg hw hval
    · simp [produce] at ht
    · simp [produce] at ht
  · intro k t r hn hc ht
    have hok := hi.consumer
    rw [hc] at hok
    obtain ⟨-,rfl⟩ := hok
    simp only [next,hc] at hn
    obtain ⟨x,hx,rfl⟩ := Option.map_eq_some_iff.mp hn
    obtain ⟨y,hl,rfl⟩ := Option.map_eq_some_iff.mp hx
    obtain ⟨u,hu,hv,rfl⟩ := load_cases hl
    rw [hi.land] at hu hv
    refine ⟨rfl,u,List.mem_of_getElem? hu,hv,fun w hw hval => ?_⟩
    simp only at ht
    split_ifs at ht with hneg
    · exact hi.missed hr hu hneg hw hval
    · simp [consume] at ht

/-- Two messages are published; the consumer misses the first one by its stale sequence, takes it
in a second call, and a third producer claims the slot that was freed. -/
theorem mailQueue_release_acquire_stale : ∃ s : State Nat (Option Nat) Nat,
    (machine Nat Nat).ReachableBy InRange s ∧
    s.claimed=[7,8,9] ∧ s.returned=[some 7] ∧ s.producers 2=some (9,.writeMessage 2) ∧
      ¬ProducerRaces s 2 := by
  obtain ⟨s,hs,hp⟩ := Machine.exists_reachableBy (machine Nat Nat) InRange
    [.tryEnqueue 0 7,.produce 0 false 0,.produce 0 false 0,.produce 0 false 0,
      .produce 0 false 0,.produce 0 false 1,
      .tryEnqueue 1 8,.produce 1 false 1,.produce 1 false 0,.produce 1 false 1,
      .produce 1 false 0,.produce 1 false 1,
      .tryDequeue,.consume 0,.consume 0,
      .tryDequeue,.consume 0,.consume 1,.consume 0,.consume 0,.consume 1,.consume 2,
      .tryEnqueue 2 9,.produce 2 false 2,.produce 2 false 2,.produce 2 false 2]
    (fun s => s.claimed=[7,8,9] ∧ s.returned=[some 7] ∧ s.producers 2=some (9,.writeMessage 2))
    ⟨2,by decide,by decide,rfl⟩ (by decide +kernel)
  have hv : s.claimed=[7,8,9] ∧ s.returned=[some 7] ∧
      s.producers 2=some (9,.writeMessage 2) := by
    simpa using hp
  exact ⟨s,hs,hv.1,hv.2.1,hv.2.2,(mailQueue_release_acquire hs).2.1 2⟩

end Acnet.MailMemory
