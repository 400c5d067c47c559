import Acnet.Framework.Memory
import Acnet.Queue.Spsc

/-!
`SPSCQueue` with the memory orders that its accesses name: each side may read an index that the
other one has moved on long ago.
-/

namespace Acnet.SpscMemory

open SPSCQueue History

variable {α : Type*}

inductive Index where
  | write
  | read
  deriving DecidableEq

inductive Side where
  | producer
  | consumer
  deriving DecidableEq

/-- One producer and one consumer at the queue, each with what it knows of the memory.
`enqueued` and `dequeued` are the histories of the calls that returned true. -/
structure State (α : Type*) where
  writeIndex : History Index Side Nat
  readIndex : History Index Side Nat
  queue : Nat → Plain Side α
  capacity : Nat
  producerView : View Index Side
  consumerView : View Index Side
  producer : Option (α×EnqueuePc)
  consumer : Option (DequeuePc α)
  enqueued : List α
  dequeued : List α

def State.mask (s : State α) : Nat := s.capacity-1

/-- The number that comes with an access says which write a load reads, or the time of a
store. -/
inductive Action (α : Type*) where
  | tryEnqueue (item : α)
  | produce (k : Nat)
  | tryDequeue
  | consume (k : Nat)

def produce (s : State α) (k : Nat) (item : α) : EnqueuePc → Option (State α)
  | .loadWrite =>
      (load .write .relaxed s.writeIndex s.producerView k).map fun (tail,v) =>
        {s with producerView := v,producer := some (item,.loadRead tail)}
  | .loadRead tail =>
      (load .read .acquire s.readIndex s.producerView k).map fun (front,v) =>
        {s with
          producerView := v
          producer := if (wrap (tail+1) &&& s.mask)=(front &&& s.mask) then none
            else some (item,.writeSlot tail)}
  | .writeSlot tail =>
      let v := s.producerView.tick .producer
      some {s with
        producerView := v
        queue := Function.update s.queue (tail &&& s.mask)
          ((s.queue (tail &&& s.mask)).set .producer v item)
        producer := some (item,.storeWrite tail)}
  | .storeWrite tail =>
      (store .write .release s.writeIndex s.producerView k (wrap (tail+1))).map fun (h,v) =>
        {s with
          writeIndex := h
          producerView := v
          producer := none
          enqueued := s.enqueued++[item]}

def consume (s : State α) (k : Nat) : DequeuePc α → Option (State α)
  | .loadRead =>
      (load .read .relaxed s.readIndex s.consumerView k).map fun (front,v) =>
        {s with consumerView := v,consumer := some (.loadWrite front)}
  | .loadWrite front =>
      (load .write .acquire s.writeIndex s.consumerView k).map fun (tail,v) =>
        {s with
          consumerView := v
          consumer := if front=tail then none else some (.readSlot front)}
  | .readSlot front =>
      let v := s.consumerView.tick .consumer
      some {s with
        consumerView := v
        queue := Function.update s.queue (front &&& s.mask)
          ((s.queue (front &&& s.mask)).noteRead .consumer v)
        consumer := some (.storeRead front (s.queue (front &&& s.mask)).value)}
  | .storeRead front item =>
      (store .read .release s.readIndex s.consumerView k (wrap (front+1))).map fun (h,v) =>
        {s with
          readIndex := h
          consumerView := v
          consumer := none
          dequeued := s.dequeued++[item]}

def next (s : State α) : Action α → Option (State α)
  | .tryEnqueue item =>
      match s.producer with
      | none => some {s with producer := some (item,.loadWrite)}
      | some _ => none
  | .produce k =>
      match s.producer with
      | none => none
      | some (item,pc) => produce s k item pc
  | .tryDequeue =>
      match s.consumer with
      | none => some {s with consumer := some .loadRead}
      | some _ => none
  | .consume k =>
      match s.consumer with
      | none => none
      | some pc => consume s k pc

def init (capacity : Nat) (cells : Nat → α) : State α where
  writeIndex := .initial 0
  readIndex := .initial 0
  queue i := .new (cells i)
  capacity := capacity
  producerView := ⊥
  consumerView := ⊥
  producer := none
  consumer := none
  enqueued := []
  dequeued := []

def machine (α : Type*) : Machine (State α) (Action α) where
  start := fun s => ∃ k cells,1 ≤ k ∧ k ≤ 64 ∧ s=init (2^k) cells
  next := next

/-- The next access of the side is a data race: it is a plain access of a slot that is not
ordered after a conflicting one. -/
def Races (s : State α) : Side → Prop
  | .producer => ∃ item tail,s.producer=some (item,.writeSlot tail) ∧
      ¬(s.queue (tail &&& s.mask)).Writable s.producerView
  | .consumer => ∃ front,s.consumer=some (.readSlot front) ∧
      ¬(s.queue (front &&& s.mask)).Readable s.consumerView

section Invariant

variable {s t : State α}

/-- The writes of an index are its values up to `n`, in order. -/
def Counts (h : History Index Side Nat) (n : Nat) : Prop :=
  h.map (·.value)=(List.range (n+1)).map wrap

theorem Counts.get {h : History Index Side Nat} {n k : Nat} {w : Write Index Side Nat}
    (hc : Counts h n) (hw : h[k]?=some w) : k ≤ n ∧ w.value=wrap k := by
  have hk : (h.map (·.value))[k]?=some w.value := by simp [hw]
  rw [hc,List.getElem?_map] at hk
  by_cases hlt : k < n+1
  · rw [List.getElem?_range hlt] at hk
    exact ⟨by omega,by simpa using hk.symm⟩
  · simp [List.getElem?_eq_none (l := List.range (n+1)) (by simpa using hlt)] at hk

theorem Counts.length {h : History Index Side Nat} {n : Nat} (hc : Counts h n) :
    h.length=n+1 := by
  simpa using congrArg List.length hc

theorem Counts.concat {h : History Index Side Nat} {n : Nat} (hc : Counts h n) (time : Nat)
    (v : View Index Side) : Counts (h++[⟨time,wrap (wrap n+1),v⟩]) (n+1) := by
  unfold Counts at hc ⊢
  rw [List.map_append,hc,List.range_succ (n := n+1),List.map_append]
  simp [wrap_add]

/-- How many slots the producer has written, whether or not its index says so. -/
def written (s : State α) : Nat :=
  match s.producer with
  | some (_,.storeWrite _) => s.enqueued.length+1
  | _ => s.enqueued.length

def taken (s : State α) : Nat :=
  match s.consumer with
  | some (.storeRead _ _) => s.dequeued.length+1
  | _ => s.dequeued.length

/-- The producer knows a write of the other index after which its next slot is free. -/
def Free (s : State α) : Prop :=
  ∃ j r,s.readIndex[j]?=some r ∧ r.view ≤ s.producerView ∧ r.time ≤ s.producerView.1 .read ∧
    s.enqueued.length+1 < j+s.capacity

def Producing (s : State α) (item : α) : EnqueuePc → Prop
  | .loadWrite => True
  | .loadRead tail => tail=wrap s.enqueued.length
  | .writeSlot tail => tail=wrap s.enqueued.length ∧ Free s
  | .storeWrite tail => tail=wrap s.enqueued.length ∧ Free s ∧
      (s.queue (s.enqueued.length%s.capacity)).value=item

/-- The consumer knows a write of the other index after which the oldest slot is filled. -/
def Filled (s : State α) : Prop :=
  ∃ k w,s.writeIndex[k]?=some w ∧ w.view ≤ s.consumerView ∧
    w.time ≤ s.consumerView.1 .write ∧ s.dequeued.length < k

def Consuming (s : State α) : DequeuePc α → Prop
  | .loadRead => True
  | .loadWrite front => front=wrap s.dequeued.length
  | .readSlot front => front=wrap s.dequeued.length ∧ Filled s
  | .storeRead front item => front=wrap s.dequeued.length ∧ Filled s ∧
      s.enqueued[s.dequeued.length]?=some item

structure Inv (s : State α) : Prop where
  pow : ∃ k,1 ≤ k ∧ k ≤ 64 ∧ s.capacity=2^k
  write : Published .write s.writeIndex s.producerView s.consumerView
  read : Published .read s.readIndex s.consumerView s.producerView
  writes : Counts s.writeIndex s.enqueued.length
  reads : Counts s.readIndex s.dequeued.length
  prefixed : s.dequeued <+: s.enqueued
  room : ∃ j r,s.readIndex[j]?=some r ∧ r.time ≤ s.producerView.1 .read ∧
    s.enqueued.length < j+s.capacity
  filled : ∃ k w,s.writeIndex[k]?=some w ∧ w.time ≤ s.consumerView.1 .write ∧
    s.dequeued.length ≤ k
  slots : ∀ i,s.dequeued.length ≤ i → i < s.enqueued.length →
    s.enqueued[i]?=some (s.queue (i%s.capacity)).value
  wrote : ∀ c,(s.queue c).write ≤ s.producerView.2
  took : ∀ c,(s.queue c).read ≤ s.consumerView.2
  releasedWrites : ∀ k w,s.writeIndex[k]?=some w → ∀ c,
    (∀ i,k ≤ i → i < written s → i%s.capacity≠c) → (s.queue c).write ≤ w.view.2
  releasedReads : ∀ k r,s.readIndex[k]?=some r → ∀ c,
    (∀ i,k ≤ i → i < taken s → i%s.capacity≠c) → (s.queue c).read ≤ r.view.2
  producer : ∀ item pc,s.producer=some (item,pc) → Producing s item pc
  consumer : ∀ pc,s.consumer=some pc → Consuming s pc

theorem Inv.slot (h : Inv s) (i : Nat) : (wrap i &&& s.mask)=i%s.capacity := by
  obtain ⟨k,_,hk,hc⟩ := h.pow
  exact wrap_land hk hc i

theorem Inv.lt_capacity (h : Inv s) : s.enqueued.length < s.dequeued.length+s.capacity := by
  obtain ⟨j,r,hr,-,hlt⟩ := h.room
  have := (h.reads.get hr).1
  omega

theorem Filled.lt (h : Inv s) (hf : Filled s) : s.dequeued.length < s.enqueued.length := by
  obtain ⟨k,w,hw,-,-,hlt⟩ := hf
  have := (h.writes.get hw).1
  omega

theorem Inv.taken_le (h : Inv s) : taken s ≤ s.enqueued.length := by
  unfold taken
  split
  · rename_i front item hc
    exact (h.consumer _ hc).2.1.lt h
  · exact h.prefixed.length_le

theorem Inv.written_le (h : Inv s) : written s ≤ s.dequeued.length+s.capacity := by
  have := h.lt_capacity
  unfold written
  split <;> omega

/-- The producer's next slot was given back before: writing it is no race. -/
theorem Inv.writable (h : Inv s) (hf : Free s) :
    (s.queue (s.enqueued.length%s.capacity)).Writable s.producerView := by
  obtain ⟨j,r,hr,hv,-,hlt⟩ := hf
  refine ⟨h.wrote _,le_trans (h.releasedReads j r hr _ ?_) hv.2⟩
  intro i hji hi he
  have htaken := h.taken_le
  have := slot_lap (n := s.capacity) (show i < s.enqueued.length by omega) he
  omega

/-- The consumer's next slot was filled before: reading it is no race. -/
theorem Inv.readable (h : Inv s) (hf : Filled s) :
    (s.queue (s.dequeued.length%s.capacity)).Readable s.consumerView := by
  obtain ⟨k,w,hw,hv,-,hlt⟩ := hf
  refine le_trans (h.releasedWrites k w hw _ ?_) hv.2
  intro i hki hi he
  have hwritten := h.written_le
  have := slot_lap (n := s.capacity) (show s.dequeued.length < i by omega) he.symm
  omega

theorem Inv.set_producer (h : Inv s) {v : View Index Side} {p : Option (α×EnqueuePc)}
    (hle : s.producerView ≤ v) (hread : Published .read s.readIndex s.consumerView v)
    (hw : written {s with producer := p}=written s)
    (hp : ∀ item pc,p=some (item,pc) →
      Producing {s with producerView := v,producer := p} item pc) :
    Inv {s with producerView := v,producer := p} := by
  refine {h with
    write := h.write.mono hle
    read := hread
    room := ?_
    wrote := fun c => (h.wrote c).trans hle.2
    releasedWrites := ?_
    producer := hp}
  · obtain ⟨j,r,hr,ht,hlt⟩ := h.room
    exact ⟨j,r,hr,ht.trans (hle.1 .read),hlt⟩
  · intro k w hk c hc
    exact h.releasedWrites k w hk c fun i hi hlt => hc i hi (hw ▸ hlt)

theorem Inv.set_consumer (h : Inv s) {v : View Index Side} {p : Option (DequeuePc α)}
    (hle : s.consumerView ≤ v) (hwrite : Published .write s.writeIndex s.producerView v)
    (hw : taken {s with consumer := p}=taken s)
    (hp : ∀ pc,p=some pc → Consuming {s with consumerView := v,consumer := p} pc) :
    Inv {s with consumerView := v,consumer := p} := by
  refine {h with
    write := hwrite
    read := h.read.mono hle
    filled := ?_
    took := fun c => (h.took c).trans hle.2
    releasedReads := ?_
    consumer := hp}
  · obtain ⟨k,w,hk,ht,hlt⟩ := h.filled
    exact ⟨k,w,hk,ht.trans (hle.1 .write),hlt⟩
  · intro k r hk c hc
    exact h.releasedReads k r hk c fun i hi hlt => hc i hi (hw ▸ hlt)

/-- Observing one index leaves what was acquired of the other as it is. -/
theorem congr_observe {x y : Index} {h : History Index Side Nat} {own v : View Index Side}
    (hp : Published x h own v) (hne : x≠y) (time : Nat) :
    Published x h own (v.observe y time) :=
  hp.congr View.le_observe (View.observe_of_ne hne)

theorem Inv.loadWrite {item : α} {k : Nat} (h : Inv s) (hp : s.producer=some (item,.loadWrite))
    (hn : produce s k item .loadWrite=some t) : Inv t := by
  obtain ⟨r,hl,rfl⟩ := Option.map_eq_some_iff.mp hn
  obtain ⟨w,hw,ht,rfl⟩ := load_cases hl
  refine h.set_producer (le_read w) (congr_observe h.read (by decide) _) ?_ ?_
  · simp [written,hp]
  · rintro _ _ ⟨⟩
    have hlast := h.write.chain.last_of_load h.write.seen hw ht
    have hlen := h.writes.length
    have hk : k=s.enqueued.length := by omega
    exact (h.writes.get hw).2.trans (congrArg wrap hk)

theorem Inv.loadRead {item : α} {k tail : Nat} (h : Inv s)
    (hp : s.producer=some (item,.loadRead tail))
    (hn : produce s k item (.loadRead tail)=some t) : Inv t := by
  obtain ⟨r,hl,rfl⟩ := Option.map_eq_some_iff.mp hn
  obtain ⟨w,hw,ht,rfl⟩ := load_cases hl
  have htail : tail=wrap s.enqueued.length := h.producer _ _ hp
  subst htail
  refine h.set_producer (le_read w) (h.read.load rfl hw) ?_ ?_
  · simp only [written,hp]
    split_ifs <;> rfl
  · intro x pc hx
    split_ifs at hx with hfull
    cases hx
    have hseen : w.time ≤ (History.read .read .acquire w s.producerView).1 .read :=
      time_le_read w
    refine ⟨rfl,k,w,hw,view_le_read rfl w,hseen,?_⟩
    -- the index read is no older than the one that gave the last slot
    obtain ⟨j,r,hr,hj,hlt⟩ := h.room
    have hjk := h.read.chain.index_le hr hw (hj.trans ht)
    rw [(h.reads.get hw).2,wrap_add,h.slot,h.slot] at hfull
    have hne : s.enqueued.length+1≠k+s.capacity := by
      rintro he
      exact hfull (by rw [he,Nat.add_mod_right])
    change s.enqueued.length+1 < k+s.capacity
    omega

theorem Inv.writeSlot {item : α} {k tail : Nat} (h : Inv s)
    (hp : s.producer=some (item,.writeSlot tail))
    (hn : produce s k item (.writeSlot tail)=some t) : Inv t := by
  obtain ⟨rfl,hf⟩ := h.producer _ _ hp
  cases hn
  rw [h.slot]
  have hle : s.producerView ≤ s.producerView.tick .producer := View.le_tick
  have hother {c : Nat} (hc : c≠s.enqueued.length%s.capacity) (x : Plain Side α) :
      Function.update s.queue (s.enqueued.length%s.capacity) x c=s.queue c :=
    Function.update_of_ne hc x s.queue
  refine ⟨h.pow,h.write.mono hle,h.read.congr hle rfl,h.writes,h.reads,h.prefixed,h.room,
    h.filled,?_,?_,?_,?_,?_,?_,h.consumer⟩
  · intro i hi hlt
    have hroom := h.lt_capacity
    replace hi : s.dequeued.length ≤ i := hi
    replace hlt : i < s.enqueued.length := hlt
    have hne : i%s.capacity≠s.enqueued.length%s.capacity := by
      intro he
      have := slot_lap hlt he
      omega
    change s.enqueued[i]?=some (Function.update s.queue _ _ (i%s.capacity)).value
    rw [hother hne]
    exact h.slots i hi hlt
  · intro c
    by_cases hc : c=s.enqueued.length%s.capacity
    · subst hc
      simp only [Function.update_self]
      exact Plain.set_le ((h.wrote _).trans hle.2) item
    · simp only [hother hc]
      exact (h.wrote c).trans hle.2
  · intro c
    by_cases hc : c=s.enqueued.length%s.capacity
    · subst hc
      simp only [Function.update_self]
      exact h.took _
    · simp only [hother hc]
      exact h.took c
  · -- the slot just written belongs to no write of the index yet
    intro k w hk c hc
    have hkn := (h.writes.get hk).1
    have hcn : c≠s.enqueued.length%s.capacity :=
      fun he => hc s.enqueued.length hkn (Nat.lt_succ_self _) he.symm
    simp only [hother hcn]
    refine h.releasedWrites k w hk c fun i hi hlt => hc i hi ?_
    simp only [written,hp] at hlt ⊢
    omega
  · intro k r hk c hc
    have hold := h.releasedReads k r hk c hc
    by_cases he : c=s.enqueued.length%s.capacity
    · subst he
      simp only [Function.update_self]
      exact hold
    · simp only [hother he]
      exact hold
  · rintro _ _ ⟨⟩
    obtain ⟨j,r,hr,hv,ht,hlt⟩ := hf
    exact ⟨rfl,⟨j,r,hr,hv.trans hle,ht,hlt⟩,by simp [Plain.set]⟩

theorem Inv.storeWrite {item : α} {k tail : Nat} (h : Inv s)
    (hp : s.producer=some (item,.storeWrite tail))
    (hn : produce s k item (.storeWrite tail)=some t) : Inv t := by
  obtain ⟨rfl,hf,hvalue⟩ := h.producer _ _ hp
  obtain ⟨r,hs,rfl⟩ := Option.map_eq_some_iff.mp hn
  obtain ⟨hlt,-,rfl⟩ := store_cases hs
  have hle : s.producerView ≤ s.producerView.observe .write k := View.le_observe
  have hlen : (s.enqueued++[item]).length=s.enqueued.length+1 := by simp
  refine ⟨h.pow,h.write.store rfl hlt _,congr_observe h.read (by decide) _,?_,h.reads,
    h.prefixed.trans (List.prefix_append _ _),?_,?_,?_,fun c => (h.wrote c).trans hle.2,h.took,
    ?_,h.releasedReads,by simp,?_⟩
  · exact hlen ▸ h.writes.concat k _
  · obtain ⟨j,r,hr,-,ht,hroom⟩ := hf
    exact ⟨j,r,hr,ht.trans (hle.1 .read),hlen ▸ hroom⟩
  · obtain ⟨i,w,hw,ht,hi⟩ := h.filled
    exact ⟨i,w,getElem?_concat_of_some hw _,ht,hi⟩
  · intro i hi hi'
    replace hi' : i < (s.enqueued++[item]).length := hi'
    rw [hlen] at hi'
    change (s.enqueued++[item])[i]?=some (s.queue (i%s.capacity)).value
    rcases Nat.lt_succ_iff_lt_or_eq.mp hi' with hi' | rfl
    · rw [List.getElem?_append_left hi']
      exact h.slots i hi hi'
    · simp [hvalue]
  · intro i w hw c hc
    rcases getElem?_concat_cases hw with hw | ⟨-,rfl⟩
    · refine h.releasedWrites i w hw c fun j hj hlt => hc j hj ?_
      simpa [written,hp] using hlt
    · -- a release store carries everything that the producer wrote
      exact (h.wrote c).trans hle.2
  · intro pc hc
    have hold := h.consumer pc hc
    have hfilled : Filled s → Filled {s with
        writeIndex := s.writeIndex++[⟨k,wrap (wrap s.enqueued.length+1),
          carried .write .release k (s.producerView.observe .write k)⟩]
        producerView := s.producerView.observe .write k
        producer := none
        enqueued := s.enqueued++[item]} := by
      rintro ⟨i,w,hw,hv,ht,hi⟩
      exact ⟨i,w,getElem?_concat_of_some hw _,hv,ht,hi⟩
    cases pc with
    | loadRead | loadWrite front => exact hold
    | readSlot front => exact ⟨hold.1,hfilled hold.2⟩
    | storeRead front x =>
      exact ⟨hold.1,hfilled hold.2.1,getElem?_concat_of_some hold.2.2 _⟩

/-- A consumer that has seen the writes so far finds the index that it stored last. -/
theorem Inv.loadIndex {k : Nat} (h : Inv s) (hp : s.consumer=some .loadRead)
    (hn : consume s k .loadRead=some t) : Inv t := by
  obtain ⟨r,hl,rfl⟩ := Option.map_eq_some_iff.mp hn
  obtain ⟨w,hw,ht,rfl⟩ := load_cases hl
  refine h.set_consumer (le_read w) (congr_observe h.write (by decide) _) ?_ ?_
  · simp [taken,hp]
  · rintro _ ⟨⟩
    have hlast := h.read.chain.last_of_load h.read.seen hw ht
    have hlen := h.reads.length
    have hk : k=s.dequeued.length := by omega
    exact (h.reads.get hw).2.trans (congrArg wrap hk)

theorem Inv.loadTail {k front : Nat} (h : Inv s) (hp : s.consumer=some (.loadWrite front))
    (hn : consume s k (.loadWrite front)=some t) : Inv t := by
  obtain ⟨r,hl,rfl⟩ := Option.map_eq_some_iff.mp hn
  obtain ⟨w,hw,ht,rfl⟩ := load_cases hl
  have hfront : front=wrap s.dequeued.length := h.consumer _ hp
  subst hfront
  refine h.set_consumer (le_read w) (h.write.load rfl hw) ?_ ?_
  · simp only [taken,hp]
    split_ifs <;> rfl
  · intro pc hx
    split_ifs at hx with hempty
    cases hx
    have hseen : w.time ≤ (History.read .write .acquire w s.consumerView).1 .write :=
      time_le_read w
    refine ⟨rfl,k,w,hw,view_le_read rfl w,hseen,?_⟩
    obtain ⟨j,u,hu,hj,hle⟩ := h.filled
    have hjk := h.write.chain.index_le hu hw (hj.trans ht)
    have hne : s.dequeued.length≠k := by
      rintro rfl
      exact hempty (h.writes.get hw).2.symm
    change s.dequeued.length < k
    omega

theorem Inv.readSlot {k front : Nat} (h : Inv s) (hp : s.consumer=some (.readSlot front))
    (hn : consume s k (.readSlot front)=some t) : Inv t := by
  obtain ⟨rfl,hf⟩ := h.consumer _ hp
  cases hn
  rw [h.slot]
  have hle : s.consumerView ≤ s.consumerView.tick .consumer := View.le_tick
  have hother {c : Nat} (hc : c≠s.dequeued.length%s.capacity) (x : Plain Side α) :
      Function.update s.queue (s.dequeued.length%s.capacity) x c=s.queue c :=
    Function.update_of_ne hc x s.queue
  -- reading changes neither the contents nor who wrote a slot
  have hsame (c : Nat) (v : View Index Side) :
      (Function.update s.queue (s.dequeued.length%s.capacity)
        ((s.queue (s.dequeued.length%s.capacity)).noteRead .consumer v) c).value=
          (s.queue c).value ∧
      (Function.update s.queue (s.dequeued.length%s.capacity)
        ((s.queue (s.dequeued.length%s.capacity)).noteRead .consumer v) c).write=
          (s.queue c).write := by
    by_cases hc : c=s.dequeued.length%s.capacity
    · subst hc
      simp [Plain.noteRead]
    · simp [hother hc]
  have hitem := h.slots _ le_rfl (hf.lt h)
  refine ⟨h.pow,h.write.congr hle rfl,h.read.mono hle,h.writes,h.reads,h.prefixed,h.room,
    h.filled,?_,?_,?_,?_,?_,?_,?_⟩
  · intro i hi hlt
    exact (h.slots i hi hlt).trans (congrArg some (hsame _ _).1.symm)
  · intro c
    exact (hsame c _).2.le.trans (h.wrote c)
  · intro c
    by_cases hc : c=s.dequeued.length%s.capacity
    · subst hc
      simp only [Function.update_self]
      exact Plain.noteRead_le ((h.took _).trans hle.2)
    · simp only [hother hc]
      exact (h.took c).trans hle.2
  · intro k w hk c hc
    exact (hsame c _).2.le.trans (h.releasedWrites k w hk c hc)
  · intro k r hk c hc
    have hkm := (h.reads.get hk).1
    have hcm : c≠s.dequeued.length%s.capacity :=
      fun he => hc s.dequeued.length hkm (Nat.lt_succ_self _) he.symm
    simp only [hother hcm]
    refine h.releasedReads k r hk c fun i hi hlt => hc i hi ?_
    simp only [taken,hp] at hlt ⊢
    omega
  · intro item pc hpc
    have hold := h.producer item pc hpc
    cases pc with
    | loadWrite | loadRead tail | writeSlot tail => exact hold
    | storeWrite tail => exact ⟨hold.1,hold.2.1,(hsame _ _).1.trans hold.2.2⟩
  · rintro _ ⟨⟩
    obtain ⟨j,w,hw,hv,ht,hlt⟩ := hf
    exact ⟨rfl,⟨j,w,hw,hv.trans hle,ht,hlt⟩,hitem⟩

theorem Inv.storeRead {item : α} {k front : Nat} (h : Inv s)
    (hp : s.consumer=some (.storeRead front item))
    (hn : consume s k (.storeRead front item)=some t) : Inv t := by
  obtain ⟨rfl,hf,hitem⟩ := h.consumer _ hp
  obtain ⟨r,hs,rfl⟩ := Option.map_eq_some_iff.mp hn
  obtain ⟨hlt,-,rfl⟩ := store_cases hs
  have hle : s.consumerView ≤ s.consumerView.observe .read k := View.le_observe
  have hlen : (s.dequeued++[item]).length=s.dequeued.length+1 := by simp
  refine ⟨h.pow,congr_observe h.write (by decide) _,h.read.store rfl hlt _,h.writes,?_,
    Spsc.prefix_snoc h.prefixed hitem,?_,?_,?_,h.wrote,fun c => (h.took c).trans hle.2,
    h.releasedWrites,?_,?_,by simp⟩
  · exact hlen ▸ h.reads.concat k _
  · obtain ⟨j,r,hr,ht,hroom⟩ := h.room
    exact ⟨j,r,getElem?_concat_of_some hr _,ht,hroom⟩
  · obtain ⟨j,w,hw,-,ht,hj⟩ := hf
    exact ⟨j,w,hw,ht.trans (hle.1 .write),hlen.le.trans hj⟩
  · intro i hi hi'
    replace hi : (s.dequeued++[item]).length ≤ i := hi
    exact h.slots i (by omega) hi'
  · intro i r hr c hc
    rcases getElem?_concat_cases hr with hr | ⟨-,rfl⟩
    · refine h.releasedReads i r hr c fun j hj hlt => hc j hj ?_
      simpa [taken,hp] using hlt
    · exact (h.took c).trans hle.2
  · intro x pc hpc
    have hold := h.producer x pc hpc
    have hfree : Free s → Free {s with
        readIndex := s.readIndex++[⟨k,wrap (wrap s.dequeued.length+1),
          carried .read .release k (s.consumerView.observe .read k)⟩]
        consumerView := s.consumerView.observe .read k
        consumer := none
        dequeued := s.dequeued++[item]} := by
      rintro ⟨j,r,hr,hv,ht,hlt⟩
      exact ⟨j,r,getElem?_concat_of_some hr _,hv,ht,hlt⟩
    cases pc with
    | loadWrite | loadRead tail => exact hold
    | writeSlot tail => exact ⟨hold.1,hfree hold.2⟩
    | storeWrite tail => exact ⟨hold.1,hfree hold.2.1,hold.2.2⟩

theorem next_inv {a : Action α} (h : Inv s) (hn : next s a=some t) : Inv t := by
  cases a with
  | tryEnqueue item =>
    simp only [next] at hn
    split at hn <;> cases hn
    rename_i hp
    refine h.set_producer le_rfl h.read (by simp [written,hp]) ?_
    rintro _ _ ⟨⟩
    trivial
  | produce k =>
    simp only [next] at hn
    split at hn
    · cases hn
    · rename_i item pc hp
      cases pc with
      | loadWrite => exact h.loadWrite hp hn
      | loadRead tail => exact h.loadRead hp hn
      | writeSlot tail => exact h.writeSlot hp hn
      | storeWrite tail => exact h.storeWrite hp hn
  | tryDequeue =>
    simp only [next] at hn
    split at hn <;> cases hn
    rename_i hp
    refine h.set_consumer le_rfl h.write (by simp [taken,hp]) ?_
    rintro _ ⟨⟩
    trivial
  | consume k =>
    simp only [next] at hn
    split at hn
    · cases hn
    · rename_i pc hp
      cases pc with
      | loadRead => exact h.loadIndex hp hn
      | loadWrite front => exact h.loadTail hp hn
      | readSlot front => exact h.readSlot hp hn
      | storeRead front item => exact h.storeRead hp hn

theorem init_inv {k : Nat} (cells : Nat → α) (h1 : 1 ≤ k) (hk : k ≤ 64) :
    Inv (init (2^k) cells) where
  pow := ⟨k,h1,hk,rfl⟩
  write := .initial 0
  read := .initial 0
  writes := rfl
  reads := rfl
  prefixed := List.prefix_rfl
  room := by
    have hpos := Nat.two_pow_pos k
    refine ⟨0,_,rfl,le_rfl,?_⟩
    simp only [init,List.length_nil]
    omega
  filled := ⟨0,_,rfl,le_rfl,le_rfl⟩
  slots := by simp [init]
  wrote _ := le_rfl
  took _ := le_rfl
  releasedWrites k w _ c _ := bot_le
  releasedReads k r _ c _ := bot_le
  producer := by simp [init]
  consumer := by simp [init]

theorem reachable_inv (h : (machine α).Reachable s) : Inv s := by
  apply h.invariant
  · rintro _ ⟨k,cells,h1,hk,rfl⟩
    exact init_inv cells h1 hk
  · intro s a t hs hn _
    exact next_inv hs hn

theorem Inv.not_races (h : Inv s) (side : Side) : ¬Races s side := by
  cases side with
  | producer =>
    rintro ⟨item,tail,hp,hr⟩
    obtain ⟨rfl,hf⟩ := h.producer _ _ hp
    rw [h.slot] at hr
    exact hr (h.writable hf)
  | consumer =>
    rintro ⟨front,hc,hr⟩
    obtain ⟨rfl,hf⟩ := h.consumer _ hc
    rw [h.slot] at hr
    exact hr (h.readable hf)

/-- What the producer knew when it stored its index, the consumer knows with the value. -/
theorem Inv.handed {front : Nat} {item : α} (h : Inv s)
    (hc : s.consumer=some (.storeRead front item)) :
    ∃ w,s.writeIndex[s.dequeued.length+1]?=some w ∧ w.view ≤ s.consumerView := by
  obtain ⟨-,⟨k,w,hw,hv,-,hlt⟩,-⟩ := h.consumer _ hc
  have hlen := h.writes.length
  have hk := (h.writes.get hw).1
  obtain ⟨u,hu⟩ : ∃ u,s.writeIndex[s.dequeued.length+1]?=some u :=
    ⟨_,List.getElem?_eq_getElem (by omega)⟩
  exact ⟨u,hu,(h.write.chain.view_le hu hw hlt).trans hv⟩

/-- A call of `try_enqueue` that gives up has read an index by which the ring was full. -/
theorem Inv.refused {k : Nat} (h : Inv s) (hn : next s (.produce k)=some t)
    (hp : t.producer=none) (he : t.enqueued=s.enqueued) :
    (∃ r,s.readIndex[k]?=some r ∧ s.producerView.1 .read ≤ r.time) ∧
      s.enqueued.length+1=k+s.capacity := by
  simp only [next] at hn
  split at hn
  · cases hn
  · rename_i item pc hpc
    cases pc with
    | loadWrite =>
      obtain ⟨r,-,rfl⟩ := Option.map_eq_some_iff.mp hn
      cases hp
    | writeSlot tail =>
      cases hn
      cases hp
    | storeWrite tail =>
      obtain ⟨r,-,rfl⟩ := Option.map_eq_some_iff.mp hn
      simp at he
    | loadRead tail =>
      obtain ⟨r,hl,rfl⟩ := Option.map_eq_some_iff.mp hn
      obtain ⟨w,hw,ht,rfl⟩ := load_cases hl
      have htail : tail=wrap s.enqueued.length := h.producer _ _ hpc
      subst htail
      simp only at hp
      split_ifs at hp with hfull
      refine ⟨⟨w,hw,ht⟩,?_⟩
      obtain ⟨j,r,hr,hj,hlt⟩ := h.room
      have hjk := h.read.chain.index_le hr hw (hj.trans ht)
      have hkm := (h.reads.get hw).1
      have hle := h.prefixed.length_le
      rw [(h.reads.get hw).2,wrap_add,h.slot,h.slot] at hfull
      have := slot_lap (i := k) (by omega) hfull.symm
      omega

/-- A call of `try_dequeue` that gives up has read the index of the value it would take. -/
theorem Inv.missed {k : Nat} (h : Inv s) (hn : next s (.consume k)=some t)
    (hp : t.consumer=none) (he : t.dequeued=s.dequeued) :
    (∃ w,s.writeIndex[k]?=some w ∧ s.consumerView.1 .write ≤ w.time) ∧ k=s.dequeued.length := by
  simp only [next] at hn
  split at hn
  · cases hn
  · rename_i pc hpc
    cases pc with
    | loadRead =>
      obtain ⟨r,-,rfl⟩ := Option.map_eq_some_iff.mp hn
      cases hp
    | readSlot front =>
      cases hn
      cases hp
    | storeRead front item =>
      obtain ⟨r,-,rfl⟩ := Option.map_eq_some_iff.mp hn
      simp at he
    | loadWrite front =>
      obtain ⟨r,hl,rfl⟩ := Option.map_eq_some_iff.mp hn
      obtain ⟨w,hw,ht,rfl⟩ := load_cases hl
      have hfront : front=wrap s.dequeued.length := h.consumer _ hpc
      subst hfront
      simp only at hp
      split_ifs at hp with hempty
      refine ⟨⟨w,hw,ht⟩,?_⟩
      obtain ⟨j,u,hu,hj,hle⟩ := h.filled
      have hjk := h.write.chain.index_le hu hw (hj.trans ht)
      have hkn := (h.writes.get hw).1
      have hlt := h.lt_capacity
      obtain ⟨e,_,he,hcap⟩ := h.pow
      have hbound : s.capacity ≤ 2^64 := hcap ▸ Nat.pow_le_pow_right (by decide) he
      rw [(h.writes.get hw).2] at hempty
      by_contra hne
      have := slot_lap (n := 2^64) (show s.dequeued.length < k by omega) hempty
      omega

end Invariant

/-- The memory orders of `SPSCQueue` suffice. Whatever stale index a side reads, values come out
in the order they went in, no access of a slot is a data race, what the producer did before it
enqueued a value happens before the consumer has it, and a call gives up only on an index by
which the ring was full, or empty, and that is no older than what its caller knew. -/
theorem spsc_release_acquire {s : State α} (h : (machine α).Reachable s) :
    s.dequeued <+: s.enqueued ∧
    s.enqueued.length < s.dequeued.length+s.capacity ∧
    (∀ side,¬Races s side) ∧
    (∀ front item,s.consumer=some (.storeRead front item) →
      ∃ w,s.writeIndex[s.dequeued.length+1]?=some w ∧ w.view ≤ s.consumerView) ∧
    (∀ k t,next s (.produce k)=some t → t.producer=none → t.enqueued=s.enqueued →
      (∃ r,s.readIndex[k]?=some r ∧ s.producerView.1 .read ≤ r.time) ∧
        s.enqueued.length+1=k+s.capacity) ∧
    (∀ k t,next s (.consume k)=some t → t.consumer=none → t.dequeued=s.dequeued →
      (∃ w,s.writeIndex[k]?=some w ∧ s.consumerView.1 .write ≤ w.time) ∧
        k=s.dequeued.length) := by
  have hi := reachable_inv h
  exact ⟨hi.prefixed,hi.lt_capacity,hi.not_races,fun _ _ hc => hi.handed hc,
    fun _ _ hn hp he => hi.refused hn hp he,fun _ _ hn hc he => hi.missed hn hc he⟩

/-- Two values are enqueued while the consumer still reads the first index; then it takes one
value and is about to read the second slot. -/
theorem spsc_release_acquire_stale : ∃ s : State Nat,(machine Nat).Reachable s ∧
    s.enqueued=[7,8] ∧ s.dequeued=[7] ∧ s.consumer=some (.readSlot 1) ∧
      ¬Races s .consumer := by
  obtain ⟨s,hs,hp⟩ := Machine.exists_reachableBy (machine Nat) Machine.anyStep
    [.tryEnqueue 7,.produce 0,.produce 0,.produce 0,.produce 1,
      .tryEnqueue 8,.produce 1,.produce 0,.produce 0,.produce 2,
      .tryDequeue,.consume 0,.consume 0,
      .tryDequeue,.consume 0,.consume 1,.consume 0,.consume 1,
      .tryDequeue,.consume 1,.consume 2]
    (fun s => s.enqueued=[7,8] ∧ s.dequeued=[7] ∧ s.consumer=some (.readSlot 1))
    ⟨2,fun _ => 0,by decide,by decide,rfl⟩ (by decide +kernel)
  have hv : s.enqueued=[7,8] ∧ s.dequeued=[7] ∧ s.consumer=some (.readSlot 1) := by
    simpa using hp
  exact ⟨s,hs,hv.1,hv.2.1,hv.2.2,(spsc_release_acquire hs).2.2.1 .consumer⟩

end Acnet.SpscMemory
