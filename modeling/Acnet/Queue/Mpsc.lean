import Acnet.Queue.MailQueue
import Mathlib.Data.List.Basic

namespace Acnet.Mpsc

open MailQueue

variable {ι μ : Type}

inductive ConsumerPc (μ : Type) where
  | idle
  | dequeue (pc : DequeuePc μ)
  | check (pc : CanDequeuePc)
  deriving DecidableEq

/-- The queue with its producers and its consumer. `claimed` lists the messages in the
order of the successful exchanges on `write_index_`, `returned` the results of the
successful `try_dequeue` calls. -/
structure State (ι μ : Type) where
  queue : MailQueue μ
  producers : ι → Option (μ×EnqueuePc)
  consumer : ConsumerPc μ
  claimed : List μ
  returned : List (Option μ)

inductive Action (ι μ : Type) where
  | tryEnqueue (p : ι) (message : μ)
  | produce (p : ι) (spurious : Bool)
  | tryDequeue
  | canDequeue
  | consume

def init (size : Nat) : State ι μ := ⟨.new size,fun _ => none,.idle,[],[]⟩

/-- The exchange is won exactly when a producer arrives at its message write. -/
def claim (message : μ) : EnqueuePc → List μ
  | .writeMessage _ => [message]
  | _ => []

def produce [DecidableEq ι] (s : State ι μ) (p : ι) (m : μ) :
    MailQueue μ×Control EnqueuePc Bool → State ι μ
  | (q,.running pc) =>
      {s with
        queue := q
        producers := Function.update s.producers p (some (m,pc))
        claimed := s.claimed++claim m pc}
  | (q,.returned _) =>
      {s with queue := q, producers := Function.update s.producers p none}

def consume (s : State ι μ) :
    MailQueue μ×Control (DequeuePc μ) (Option (Option μ)) → State ι μ
  | (q,.running pc) => {s with queue := q, consumer := .dequeue pc}
  | (q,.returned none) => {s with queue := q, consumer := .idle}
  | (q,.returned (some m)) =>
      {s with queue := q, consumer := .idle, returned := s.returned++[m]}

def next [DecidableEq ι] (s : State ι μ) : Action ι μ → Option (State ι μ)
  | .tryEnqueue p m =>
      match s.producers p with
      | none => some {s with producers := Function.update s.producers p (some (m,.loadIndex))}
      | some _ => none
  | .produce p spurious =>
      match s.producers p with
      | none => none
      | some (m,pc) => some (produce s p m (s.queue.tryEnqueue m spurious pc))
  | .tryDequeue =>
      match s.consumer with
      | .idle => some {s with consumer := .dequeue .loadIndex}
      | _ => none
  | .canDequeue =>
      match s.consumer with
      | .idle => some {s with consumer := .check .loadIndex}
      | _ => none
  | .consume =>
      match s.consumer with
      | .idle => none
      | .dequeue pc => some (consume s (s.queue.tryDequeue pc))
      | .check pc =>
          match s.queue.canDequeue pc with
          | .running pc' => some {s with consumer := .check pc'}
          | .returned _ => some {s with consumer := .idle}

/-- Any number of producers and one consumer on a queue of at least two slots. The bound
on the argument keeps `std::bit_ceil` representable. -/
def machine (ι μ : Type) [DecidableEq ι] : Machine (State ι μ) (Action ι μ) where
  start s := ∃ size,2 ≤ bitCeil size ∧ size ≤ 2^63 ∧ s=init size
  next := next

/-- Runs on which every stored index stays below `2^63`. -/
def InRange (_ : State ι μ) (_ : Action ι μ) (t : State ι μ) : Prop := t.queue.InRange

/-- Slot `j` holds a claimed counter that the consumer has not recycled. -/
def Occupied (s : State ι μ) (j : Nat) : Prop :=
  ∃ i,s.returned.length ≤ i ∧ i<s.claimed.length ∧ i%s.queue.size=j

inductive Stage where
  | free
  | claimed
  | written
  | published
  deriving DecidableEq

def ConsumerPc.cleared : ConsumerPc μ → Nat → Bool
  | .dequeue (.storeIndex r _),i | .dequeue (.storeSequence r _),i => r=i
  | _,_ => false

/-- What the slot of counter `i` holds while `i` lies in the current window. -/
def slotAt (claimed : List μ) (c : ConsumerPc μ) (st : Nat → Stage) (i : Nat) : Slot μ :=
  match st i with
  | .free => ⟨i,none⟩
  | .claimed => ⟨i,none⟩
  | .written => ⟨i,claimed[i]?⟩
  | .published => ⟨i+1,if c.cleared i then none else claimed[i]?⟩

def owned : EnqueuePc → Option Nat
  | .writeMessage w | .storeSequence w => some w
  | _ => none

/-- What a producer of `m` may rely on at each point; `first` is the oldest counter that is
not recycled. -/
def ProducerOk (claimed : List μ) (first size : Nat) (st : Nat → Stage) (m : μ) :
    EnqueuePc → Prop
  | .loadIndex => True
  | .loadSequence w => w ≤ claimed.length
  | .compareExchange w => w ≤ claimed.length ∧ (w=claimed.length → w<first+size)
  | .writeMessage w => first ≤ w ∧ st w=.claimed ∧ claimed[w]?=some m
  | .storeSequence w => first ≤ w ∧ st w=.written ∧ claimed[w]?=some m

def ConsumerOk (claimed : List μ) (first readIndex : Nat) (st : Nat → Stage) :
    ConsumerPc μ → Prop
  | .idle | .check _ | .dequeue .loadIndex => readIndex=first
  | .dequeue (.loadSequence r) => readIndex=first ∧ r=first
  | .dequeue (.readMessage r) => readIndex=first ∧ r=first ∧ st r=.published
  | .dequeue (.clearMessage r m) | .dequeue (.storeIndex r m) =>
      readIndex=first ∧ r=first ∧ st r=.published ∧ m=claimed[r]?
  | .dequeue (.storeSequence r m) =>
      readIndex=first+1 ∧ r=first ∧ st r=.published ∧ m=claimed[r]?

theorem slotAt_sequence (claimed : List μ) (c : ConsumerPc μ) (st : Nat → Stage) (i : Nat) :
    (slotAt claimed c st i).sequence=if st i=.published then i+1 else i := by
  unfold slotAt
  cases st i <;> simp

/-- A producer keeps its ground while its own counter stays as it is. -/
theorem ProducerOk.keep {claimed claimed' : List μ} {first first' size : Nat}
    {st st' : Nat → Stage} {m : μ} {pc : EnqueuePc}
    (h : ProducerOk claimed first size st m pc) (hf : first ≤ first')
    (hl : claimed.length ≤ claimed'.length)
    (hw : ∀ w,owned pc=some w → st' w=st w ∧ claimed'[w]?=claimed[w]? ∧ first' ≤ w) :
    ProducerOk claimed' first' size st' m pc := by
  cases pc with
  | loadIndex => trivial
  | loadSequence w => exact le_trans h hl
  | compareExchange w =>
    obtain ⟨hle,hlt⟩ := h
    refine ⟨hle.trans hl,fun he => ?_⟩
    have := hlt (by omega)
    omega
  | writeMessage w =>
    obtain ⟨hs,hc,hg⟩ := hw w rfl
    exact ⟨hg,hs.trans h.2.1,hc.trans h.2.2⟩
  | storeSequence w =>
    obtain ⟨hs,hc,hg⟩ := hw w rfl
    exact ⟨hg,hs.trans h.2.1,hc.trans h.2.2⟩

theorem ConsumerOk.keep {claimed claimed' : List μ} {first readIndex : Nat}
    {st st' : Nat → Stage} {c : ConsumerPc μ} (h : ConsumerOk claimed first readIndex st c)
    (hp : ∀ r,st r=.published → st' r=.published ∧ claimed'[r]?=claimed[r]?) :
    ConsumerOk claimed' first readIndex st' c := by
  cases c with
  | idle => exact h
  | check pc => exact h
  | dequeue pc =>
    cases pc with
    | loadIndex => exact h
    | loadSequence r => exact h
    | readMessage r =>
      obtain ⟨hi,hr,hs⟩ := h
      exact ⟨hi,hr,(hp r hs).1⟩
    | clearMessage r m | storeIndex r m | storeSequence r m =>
      obtain ⟨hi,hr,hs,hm⟩ := h
      exact ⟨hi,hr,(hp r hs).1,hm.trans (hp r hs).2.symm⟩

/-- No two producers write one claimed slot. -/
def Exclusive (producers : ι → Option (μ×EnqueuePc)) : Prop :=
  ∀ p p' m m' pc pc' w,producers p=some (m,pc) → producers p'=some (m',pc') →
    owned pc=some w → owned pc'=some w → p=p'

/-- The per-slot sequence invariant. `st` says how far each counter has come; the counters
from the last recycled one on, one lap of them, are those that own a slot. -/
structure Inv (s : State ι μ) (st : Nat → Stage) : Prop where
  pow : ∃ k,s.queue.size=2^k
  mask : s.queue.mask=s.queue.size-1
  two : 2 ≤ s.queue.size
  write : s.queue.writeIndex=s.claimed.length
  room : s.claimed.length ≤ s.returned.length+s.queue.size
  behind : s.returned.length ≤ s.claimed.length
  fifo : s.returned=(s.claimed.take s.returned.length).map some
  free : ∀ i,st i=.free ↔ s.claimed.length ≤ i
  slot : ∀ i,s.returned.length ≤ i → i<s.returned.length+s.queue.size →
    s.queue.slot i=slotAt s.claimed s.consumer st i
  producer : ∀ p m pc,s.producers p=some (m,pc) →
    ProducerOk s.claimed s.returned.length s.queue.size st m pc
  exclusive : Exclusive s.producers
  consumer : ConsumerOk s.claimed s.returned.length s.queue.readIndex st s.consumer

namespace Inv

variable {s : State ι μ} {st : Nat → Stage}

theorem land (h : Inv s st) (i : Nat) : i &&& s.queue.mask=i%s.queue.size := by
  obtain ⟨k,hk⟩ := h.pow
  rw [h.mask,land_mask hk]

/-- Within the window a slot write touches its own counter only. -/
theorem slot_set (h : Inv s st) {i w : Nat} (hi : s.returned.length ≤ i)
    (hi' : i<s.returned.length+s.queue.size) (hw : s.returned.length ≤ w)
    (hw' : w<s.returned.length+s.queue.size) (x : Slot μ) :
    (s.queue.setSlot w x).slot i=if i=w then x else s.queue.slot i := by
  rw [slot_setSlot,h.land,h.land]
  by_cases he : i=w
  · simp [he]
  · have hne : i%s.queue.size≠w%s.queue.size := fun hm => he (slot_inj hi hi' hw hw' hm)
    simp [he,hne]

theorem sequence_lt (h : Inv s st) (hr : s.queue.InRange) (i : Nat) :
    (s.queue.slot i).sequence<2^63 := by
  have h2 := h.two
  apply hr.2.2
  rw [h.land]
  exact Nat.mod_lt _ (by omega)

/-- In range, the whole window is below `2^63`. -/
theorem bound (h : Inv s st) (hr : s.queue.InRange) :
    s.returned.length+s.queue.size ≤ 2^63 := by
  have h2 := h.two
  let i := s.returned.length+s.queue.size-1
  have hlt := h.sequence_lt hr i
  rw [h.slot i (by omega) (by omega),slotAt_sequence] at hlt
  split_ifs at hlt <;> omega

/-- A stalled counter names a slot that still serves an earlier lap. -/
theorem full (h : Inv s st) {w : Nat} (hw : w ≤ s.claimed.length)
    (hlt : (s.queue.slot w).sequence<w) :
    s.claimed.length=s.returned.length+s.queue.size := by
  have h2 := h.two
  obtain ⟨j,hj,hj',hm⟩ := slot_window (n := s.queue.size) (by omega) s.returned.length w
  have same : s.queue.slot w=s.queue.slot j := by
    unfold MailQueue.slot
    rw [h.land,h.land,hm]
  have hs := congrArg Slot.sequence (same.trans (h.slot j hj hj'))
  rw [slotAt_sequence] at hs
  have hjw : j<w := by split_ifs at hs <;> omega
  have := slot_lap hjw hm
  have := h.room
  omega

/-- A slot whose sequence is the next counter to claim lies in the window: with at least
two slots the published mark of the previous lap differs from it. -/
theorem vacant (h : Inv s st) {w : Nat} (hs : (s.queue.slot w).sequence=w)
    (hw : w=s.claimed.length) : w<s.returned.length+s.queue.size := by
  have h2 := h.two
  have hroom := h.room
  by_contra hn
  have same : s.queue.slot w=s.queue.slot s.returned.length := by
    unfold MailQueue.slot
    rw [h.land,h.land,show w=s.returned.length+s.queue.size by omega,Nat.add_mod_right]
  rw [same,h.slot _ (le_refl _) (by omega),slotAt_sequence] at hs
  split_ifs at hs <;> omega

theorem not_cleared (h : Inv s st) {i : Nat} (hi : st i≠.published) :
    s.consumer.cleared i=false := by
  have hc := h.consumer
  cases hs : s.consumer with
  | idle => rfl
  | check pc => rfl
  | dequeue pc =>
    rw [hs] at hc
    cases pc with
    | storeIndex r m | storeSequence r m =>
      have hne : r≠i := fun e => hi (e ▸ hc.2.2.1)
      simpa [ConsumerPc.cleared] using hne
    | _ => rfl

theorem lt_of_stage (h : Inv s st) {i : Nat} (hi : st i≠.free) : i<s.claimed.length := by
  by_contra hn
  exact hi ((h.free i).mpr (by omega))

/-- A slot that a producer is filling is claimed, unpublished and not yet recycled. -/
theorem held (h : Inv s st) {p : ι} {m : μ} {pc : EnqueuePc} {w : Nat}
    (hp : s.producers p=some (m,pc)) (hw : owned pc=some w) :
    st w≠.free ∧ st w≠.published ∧ s.returned.length ≤ w := by
  have ho := h.producer p m pc hp
  cases pc <;> simp only [owned,reduceCtorEq,Option.some.injEq] at hw
  all_goals
    subst w
    obtain ⟨hle,hst,_⟩ := ho
    exact ⟨by simp [hst],by simp [hst],hle⟩

end Inv

section Producers

variable [DecidableEq ι] {s : State ι μ} {st : Nat → Stage}

theorem Exclusive.update {producers : ι → Option (μ×EnqueuePc)} (h : Exclusive producers)
    (p : ι) (x : Option (μ×EnqueuePc))
    (hx : ∀ m pc w,x=some (m,pc) → owned pc=some w →
      ∀ p' m' pc',p'≠p → producers p'=some (m',pc') → owned pc'≠some w) :
    Exclusive (Function.update producers p x) := by
  intro a b m m' pc pc' w ha hb hpc hpc'
  by_cases hap : a=p <;> by_cases hbp : b=p
  · rw [hap,hbp]
  · subst a
    rw [Function.update_self] at ha
    rw [Function.update_of_ne hbp] at hb
    exact absurd hpc' (hx m pc w ha hpc b m' pc' hbp hb)
  · subst b
    rw [Function.update_self] at hb
    rw [Function.update_of_ne hap] at ha
    exact absurd hpc (hx m' pc' w hb hpc' a m pc hap ha)
  · rw [Function.update_of_ne hap] at ha
    rw [Function.update_of_ne hbp] at hb
    exact h a b m m' pc pc' w ha hb hpc hpc'

/-- A producer that owns no slot moves without touching the queue. -/
theorem Inv.set_producer (h : Inv s st) (p : ι) (x : Option (μ×EnqueuePc))
    (hx : ∀ m pc,x=some (m,pc) →
      ProducerOk s.claimed s.returned.length s.queue.size st m pc ∧ owned pc=none) :
    Inv {s with producers := Function.update s.producers p x} st := by
  refine {h with producer := ?_, exclusive := ?_}
  · intro p' m pc hp
    by_cases he : p'=p
    · subst p'
      exact (hx m pc (by simpa using hp)).1
    · exact h.producer p' m pc (by simpa [he] using hp)
  · apply h.exclusive.update
    intro m pc w he hw
    simp [(hx m pc he).2] at hw

/-- Winning the exchange on `write_index_` claims the next counter and its slot. -/
theorem Inv.claim_step (h : Inv s st) (p : ι) (m : μ)
    (hroom : s.claimed.length<s.returned.length+s.queue.size) :
    Inv {s with
      queue := {s.queue with writeIndex := s.claimed.length+1}
      producers := Function.update s.producers p (some (m,.writeMessage s.claimed.length))
      claimed := s.claimed++[m]} (Function.update st s.claimed.length .claimed) := by
  have old (i : Nat) (hi : st i≠.free) : i≠s.claimed.length ∧
      Function.update st s.claimed.length .claimed i=st i ∧
      (s.claimed++[m])[i]?=s.claimed[i]? := by
    have hlt := h.lt_of_stage hi
    exact ⟨hlt.ne,Function.update_of_ne hlt.ne _ _,List.getElem?_append_left hlt⟩
  have grow : (s.claimed++[m]).length=s.claimed.length+1 := by simp
  have longer : s.claimed.length ≤ (s.claimed++[m]).length := by omega
  have hb := h.behind
  have hfree : st s.claimed.length=.free := (h.free _).mpr (le_refl _)
  constructor
  case pow => exact h.pow
  case mask => exact h.mask
  case two => exact h.two
  case write => exact grow.symm
  case room =>
    change (s.claimed++[m]).length ≤ _
    rw [grow]
    exact hroom
  case behind => exact hb.trans longer
  case fifo =>
    change s.returned=((s.claimed++[m]).take s.returned.length).map some
    rw [List.take_append_of_le_length hb]
    exact h.fifo
  case free =>
    intro i
    change _ ↔ (s.claimed++[m]).length ≤ i
    rw [grow]
    by_cases hi : i=s.claimed.length
    · subst i
      simp
    · rw [Function.update_of_ne hi,h.free i]
      omega
  case slot =>
    intro i hi hi'
    refine (h.slot i hi hi').trans ?_
    by_cases hf : st i=.free
    · by_cases he : i=s.claimed.length
      · subst i
        simp [slotAt,hfree]
      · simp [slotAt,he,hf]
    · obtain ⟨_,hst,hc⟩ := old i hf
      simp only [slotAt,hst,hc]
  case producer =>
    intro p' m' pc hp
    by_cases he : p'=p
    · subst p'
      simp only [Function.update_self,Option.some.injEq,Prod.mk.injEq] at hp
      obtain ⟨rfl,rfl⟩ := hp
      exact ⟨hb,by simp,by simp⟩
    · have hp' : s.producers p'=some (m',pc) := by simpa [he] using hp
      apply (h.producer p' m' pc hp').keep (le_refl _) longer
      intro w hw
      obtain ⟨hf,_,hle⟩ := h.held hp' hw
      exact ⟨(old w hf).2.1,(old w hf).2.2,hle⟩
  case exclusive =>
    apply h.exclusive.update
    intro m' pc w he hw p' m'' pc' _ hp hw'
    simp only [Option.some.injEq,Prod.mk.injEq] at he
    obtain ⟨_,rfl⟩ := he
    obtain rfl : s.claimed.length=w := by simpa [owned] using hw
    exact (h.held hp hw').1 hfree
  case consumer =>
    apply h.consumer.keep
    intro r hr
    obtain ⟨_,hst,hc⟩ := old r (by simp [hr])
    exact ⟨hst.trans hr,hc⟩

/-- The owner of counter `w` writes its slot and moves on. -/
theorem Inv.owner_step (h : Inv s st) {p : ι} {m : μ} {pc : EnqueuePc} {w : Nat}
    (hp : s.producers p=some (m,pc)) (hw : owned pc=some w) (b : Stage) (hb : b≠.free)
    (y : Option (μ×EnqueuePc))
    (hy : ∀ m' pc',y=some (m',pc') →
      ProducerOk s.claimed s.returned.length s.queue.size (Function.update st w b) m' pc' ∧
        owned pc'=some w) :
    Inv {s with
      queue := s.queue.setSlot w (slotAt s.claimed s.consumer (Function.update st w b) w)
      producers := Function.update s.producers p y} (Function.update st w b) := by
  obtain ⟨hf,hpub,hle⟩ := h.held hp hw
  have hlt := h.lt_of_stage hf
  have hroom := h.room
  refine {h with free := ?_, slot := ?_, producer := ?_, exclusive := ?_, consumer := ?_}
  · intro i
    by_cases hi : i=w
    · subst i
      simp only [Function.update_self,hb,false_iff]
      exact Nat.not_le.mpr hlt
    · rw [Function.update_of_ne hi]
      exact h.free i
  · intro i hi hi'
    change (s.queue.setSlot w _).slot i=_
    rw [h.slot_set hi hi' hle (lt_of_lt_of_le hlt hroom)]
    by_cases he : i=w
    · simp [he]
    · rw [if_neg he,h.slot i hi hi']
      simp only [slotAt,Function.update_of_ne he]
  · intro p' m' pc' hp'
    by_cases he : p'=p
    · subst p'
      exact (hy m' pc' (by simpa using hp')).1
    · have hp'' : s.producers p'=some (m',pc') := by simpa [he] using hp'
      apply (h.producer p' m' pc' hp'').keep (le_refl _) (le_refl _)
      intro w' hw'
      have hne : w'≠w := fun e => he (h.exclusive p' p m' m pc' pc w hp'' hp (e ▸ hw') hw)
      exact ⟨Function.update_of_ne hne _ _,rfl,(h.held hp'' hw').2.2⟩
  · apply h.exclusive.update
    intro m' pc' w' he hw' p' m'' pc'' hne hp' hw''
    have e : w'=w := by simpa [(hy m' pc' he).2] using hw'.symm
    exact hne (h.exclusive p' p m'' m pc'' pc w hp' hp (e ▸ hw'') hw)
  · apply h.consumer.keep
    intro r hr
    have hne : r≠w := fun e => hpub (e ▸ hr)
    exact ⟨(Function.update_of_ne hne _ _).trans hr,rfl⟩

/-- One access of `try_enqueue` keeps the invariant. -/
theorem Inv.produce_step (h : Inv s st) (hr : s.queue.InRange) {p : ι} {m : μ}
    {pc : EnqueuePc} (hp : s.producers p=some (m,pc)) (spurious : Bool) :
    ∃ st',Inv (produce s p m (s.queue.tryEnqueue m spurious pc)) st' := by
  have ho := h.producer p m pc hp
  have hbound := h.bound hr
  have hroom := h.room
  cases pc with
  | loadIndex =>
    refine ⟨st,?_⟩
    simp only [tryEnqueue,produce,claim,List.append_nil]
    apply h.set_producer
    intro m' pc' he
    simp only [Option.some.injEq,Prod.mk.injEq] at he
    obtain ⟨rfl,rfl⟩ := he
    exact ⟨h.write.le,rfl⟩
  | loadSequence w =>
    change w ≤ s.claimed.length at ho
    refine ⟨st,?_⟩
    simp only [tryEnqueue]
    split_ifs with hneg hzero
    · apply h.set_producer
      simp
    · simp only [produce,claim,List.append_nil]
      apply h.set_producer
      intro m' pc' he
      simp only [Option.some.injEq,Prod.mk.injEq] at he
      obtain ⟨rfl,rfl⟩ := he
      have hw63 : w<2^63 := lt_of_le_of_lt (ho.trans h.write.ge) hr.1
      rw [signedSub_of_lt (h.sequence_lt hr w) hw63] at hzero
      exact ⟨⟨ho,h.vacant (by omega)⟩,rfl⟩
    · simp only [produce,claim,List.append_nil]
      apply h.set_producer
      intro m' pc' he
      simp only [Option.some.injEq,Prod.mk.injEq] at he
      obtain ⟨rfl,rfl⟩ := he
      exact ⟨trivial,rfl⟩
  | compareExchange w =>
    obtain ⟨hw,hlt⟩ := ho
    simp only [tryEnqueue]
    split_ifs with hcas
    · obtain rfl : s.claimed.length=w := h.write.symm.trans hcas.1
      have hwrap : wrap (s.claimed.length+1)=s.claimed.length+1 := wrap_of_lt (by omega)
      rw [hwrap]
      exact ⟨_,h.claim_step p m (hlt rfl)⟩
    · refine ⟨st,?_⟩
      simp only [produce,claim,List.append_nil]
      apply h.set_producer
      intro m' pc' he
      simp only [Option.some.injEq,Prod.mk.injEq] at he
      obtain ⟨rfl,rfl⟩ := he
      exact ⟨trivial,rfl⟩
  | writeMessage w =>
    obtain ⟨hle,hst,hm⟩ := ho
    have hlt := h.lt_of_stage (i := w) (by simp [hst])
    have hslot := h.slot w hle (by omega)
    have hnew : {s.queue.slot w with message := some m}=
        slotAt s.claimed s.consumer (Function.update st w .written) w := by
      simp [hslot,slotAt,hst,hm]
    refine ⟨Function.update st w .written,?_⟩
    simp only [tryEnqueue,produce,claim,List.append_nil,hnew]
    apply h.owner_step hp rfl .written (by decide)
    intro m' pc' he
    simp only [Option.some.injEq,Prod.mk.injEq] at he
    obtain ⟨rfl,rfl⟩ := he
    exact ⟨⟨hle,by simp,hm⟩,rfl⟩
  | storeSequence w =>
    obtain ⟨hle,hst,hm⟩ := ho
    have hlt := h.lt_of_stage (i := w) (by simp [hst])
    have hslot := h.slot w hle (by omega)
    have hopen := h.not_cleared (i := w) (by simp [hst])
    have hwrap : wrap (w+1)=w+1 := wrap_of_lt (by omega)
    have hnew : {s.queue.slot w with sequence := wrap (w+1)}=
        slotAt s.claimed s.consumer (Function.update st w .published) w := by
      simp [hslot,slotAt,hst,hopen,hwrap]
    refine ⟨Function.update st w .published,?_⟩
    simp only [tryEnqueue,produce,hnew]
    apply h.owner_step hp rfl .published (by decide)
    simp

end Producers

section Consumer

variable {s : State ι μ} {st : Nat → Stage}

/-- The consumer moves without touching the queue and without clearing a slot. -/
theorem Inv.set_consumer (h : Inv s st) (c : ConsumerPc μ)
    (hc : ConsumerOk s.claimed s.returned.length s.queue.readIndex st c)
    (hs : ∀ i,c.cleared i=s.consumer.cleared i) : Inv {s with consumer := c} st := by
  refine {h with slot := ?_, consumer := hc}
  intro i hi hi'
  refine (h.slot i hi hi').trans ?_
  simp only [slotAt,hs]

/-- Reading the head sequence tells a published head from one that is free or in flight. -/
theorem Inv.head_published (h : Inv s st) (hr : s.queue.InRange)
    (hn : ¬signedSub (s.queue.slot s.returned.length).sequence
      (wrap (s.returned.length+1))<0) : st s.returned.length=.published := by
  have h2 := h.two
  have hb := h.bound hr
  have hseq := h.slot s.returned.length (le_refl _) (by omega)
  by_contra hp
  rw [wrap_of_lt (by omega),signedSub_of_lt (h.sequence_lt hr _) (by omega),hseq,
    slotAt_sequence,if_neg hp] at hn
  omega

theorem Inv.clear_step (h : Inv s st) {r : Nat} {m : Option μ}
    (hc : s.consumer=.dequeue (.clearMessage r m)) :
    Inv {s with
      queue := s.queue.setSlot r {s.queue.slot r with message := none}
      consumer := .dequeue (.storeIndex r m)} st := by
  have hok := h.consumer
  rw [hc] at hok
  obtain ⟨hri,rfl,hst,hm⟩ := hok
  have h2 := h.two
  refine {h with slot := ?_, consumer := ⟨hri,rfl,hst,hm⟩}
  intro i hi hi'
  change (s.queue.setSlot s.returned.length _).slot i=_
  rw [h.slot_set hi hi' (le_refl _) (by omega)]
  have hslot := h.slot i hi hi'
  by_cases he : i=s.returned.length
  · subst i
    simp [hslot,slotAt,hst,ConsumerPc.cleared]
  · rw [if_neg he,hslot]
    have hne : s.returned.length≠i := fun e => he e.symm
    simp [slotAt,hc,ConsumerPc.cleared,hne]

/-- Recycling the head slot hands its message over and opens the slot for the next lap. -/
theorem Inv.recycle_step (h : Inv s st) (hr : s.queue.InRange) {r : Nat} {m : Option μ}
    (hc : s.consumer=.dequeue (.storeSequence r m)) :
    Inv {s with
      queue := s.queue.setSlot r {s.queue.slot r with sequence := wrap (r+s.queue.size)}
      consumer := .idle
      returned := s.returned++[m]} st := by
  have hok := h.consumer
  rw [hc] at hok
  obtain ⟨hri,rfl,hst,hm⟩ := hok
  have h2 := h.two
  have hb := h.bound hr
  have hroom := h.room
  have hlt : s.returned.length<s.claimed.length := h.lt_of_stage (by simp [hst])
  have hwrap : wrap (s.returned.length+s.queue.size)=s.returned.length+s.queue.size :=
    wrap_of_lt (by omega)
  have hhead := h.slot s.returned.length (le_refl _) (by omega)
  have hnext : st (s.returned.length+s.queue.size)=.free := (h.free _).mpr hroom
  have grow : (s.returned++[m]).length=s.returned.length+1 := by simp
  refine ⟨h.pow,h.mask,h.two,h.write,?_,?_,?_,h.free,?_,?_,h.exclusive,?_⟩
  · change s.claimed.length ≤ (s.returned++[m]).length+s.queue.size
    omega
  · change (s.returned++[m]).length ≤ s.claimed.length
    omega
  · change s.returned++[m]=(s.claimed.take (s.returned++[m]).length).map some
    have hget : s.claimed[s.returned.length]?=some s.claimed[s.returned.length] :=
      List.getElem?_eq_getElem hlt
    rw [grow,List.take_succ_eq_append_getElem hlt,List.map_append,← h.fifo,hm,hget]
    rfl
  · intro i hi hi'
    replace hi : s.returned.length+1 ≤ i := grow ▸ hi
    replace hi' : i<s.returned.length+1+s.queue.size := grow ▸ hi'
    change (s.queue.setSlot s.returned.length _).slot i=_
    by_cases he : i=s.returned.length+s.queue.size
    · subst i
      rw [slot_setSlot,h.land,h.land,Nat.add_mod_right,if_pos rfl]
      simp [slotAt,hnext,hwrap,hhead,hst,hc,ConsumerPc.cleared]
    · have hin : s.returned.length ≤ i ∧ i<s.returned.length+s.queue.size := by omega
      rw [h.slot_set hin.1 hin.2 (le_refl _) (by omega),if_neg (by omega),
        h.slot i hin.1 hin.2]
      have hne : s.returned.length≠i := by omega
      simp [slotAt,hc,ConsumerPc.cleared,hne]
  · intro p m' pc hp
    apply (h.producer p m' pc hp).keep (by simp) (le_refl _)
    intro w hw
    obtain ⟨_,hpub,hle⟩ := h.held hp hw
    have hne : w≠s.returned.length := fun e => hpub (e ▸ hst)
    exact ⟨rfl,rfl,by rw [grow]; omega⟩
  · exact hri.trans grow.symm

/-- One access of `try_dequeue` keeps the invariant. -/
theorem Inv.consume_step (h : Inv s st) (hr : s.queue.InRange) {pc : DequeuePc μ}
    (hc : s.consumer=.dequeue pc) : Inv (consume s (s.queue.tryDequeue pc)) st := by
  have hok := h.consumer
  have h2 := h.two
  have hb := h.bound hr
  rw [hc] at hok
  cases pc with
  | loadIndex => exact h.set_consumer _ ⟨hok,hok⟩ (by simp [hc,ConsumerPc.cleared])
  | loadSequence r =>
    obtain ⟨hri,rfl⟩ := hok
    simp only [tryDequeue]
    split_ifs with hneg
    · exact h.set_consumer _ hri (by simp [hc,ConsumerPc.cleared])
    · exact h.set_consumer _ ⟨hri,rfl,h.head_published hr hneg⟩
        (by simp [hc,ConsumerPc.cleared])
  | readMessage r =>
    obtain ⟨hri,rfl,hst⟩ := hok
    have hslot := h.slot s.returned.length (le_refl _) (by omega)
    refine h.set_consumer _ ⟨hri,rfl,hst,?_⟩ (by simp [hc,ConsumerPc.cleared])
    simp [hslot,slotAt,hst,hc,ConsumerPc.cleared]
  | clearMessage r m => exact h.clear_step hc
  | storeIndex r m =>
    obtain ⟨hri,rfl,hst,hm⟩ := hok
    have hwrap : wrap (s.returned.length+1)=s.returned.length+1 := wrap_of_lt (by omega)
    simp only [tryDequeue,consume,hwrap]
    refine {h with slot := ?_, consumer := ⟨rfl,rfl,hst,hm⟩}
    intro i hi hi'
    refine (h.slot i hi hi').trans ?_
    rw [hc]
    rfl
  | storeSequence r m => exact h.recycle_step hr hc

end Consumer

/-- `try_enqueue` reports a full queue only when a whole lap of counters is in use. -/
theorem Inv.refused {s : State ι μ} {st : Nat → Stage} (h : Inv s st) (hr : s.queue.InRange)
    {p : ι} {m : μ} {pc : EnqueuePc} {spurious : Bool} (hp : s.producers p=some (m,pc))
    (hf : (s.queue.tryEnqueue m spurious pc).2=.returned false) :
    s.claimed.length=s.returned.length+s.queue.size := by
  cases pc with
  | loadSequence w =>
    have hw : w ≤ s.claimed.length := h.producer p m _ hp
    have hw63 : w<2^63 := lt_of_le_of_lt (hw.trans h.write.ge) hr.1
    simp only [tryEnqueue,signedSub_of_lt (h.sequence_lt hr w) hw63] at hf
    split_ifs at hf with hneg
    exact h.full hw (by omega)
  | compareExchange w =>
    simp only [tryEnqueue] at hf
    split_ifs at hf
  | loadIndex | writeMessage w | storeSequence w => simp [tryEnqueue] at hf

theorem init_inv (size : Nat) (h2 : 2 ≤ bitCeil size) :
    Inv (init size : State ι μ) fun _ => .free where
  pow := bitCeil_isPow size
  mask := rfl
  two := h2
  write := rfl
  room := Nat.zero_le _
  behind := le_refl _
  fifo := rfl
  free i := by simp [init]
  slot i hi hi' := by
    obtain ⟨k,hk⟩ := bitCeil_isPow size
    replace hi' : i<bitCeil size := by simpa [init,new] using hi'
    change (⟨i &&& (bitCeil size-1),none⟩ : Slot μ)=_
    rw [land_mask hk,Nat.mod_eq_of_lt hi']
    rfl
  producer p m pc hp := by simp [init] at hp
  exclusive p p' m m' pc pc' w hp := by simp [init] at hp
  consumer := rfl

theorem next_inv [DecidableEq ι] {s t : State ι μ} {a : Action ι μ} (hr : s.queue.InRange)
    (h : ∃ st,Inv s st) (hn : next s a=some t) : ∃ st,Inv t st := by
  obtain ⟨st,h⟩ := h
  cases a with
  | tryEnqueue p m =>
    simp only [next] at hn
    split at hn <;> cases hn
    refine ⟨st,h.set_producer p _ ?_⟩
    intro m' pc he
    simp only [Option.some.injEq,Prod.mk.injEq] at he
    obtain ⟨rfl,rfl⟩ := he
    exact ⟨trivial,rfl⟩
  | produce p spurious =>
    simp only [next] at hn
    split at hn
    · cases hn
    · rename_i m pc hp
      cases hn
      exact h.produce_step hr hp spurious
  | tryDequeue =>
    simp only [next] at hn
    split at hn <;> cases hn
    rename_i hc
    have hok := h.consumer
    rw [hc] at hok
    exact ⟨st,h.set_consumer _ hok (by simp [hc,ConsumerPc.cleared])⟩
  | canDequeue =>
    simp only [next] at hn
    split at hn <;> cases hn
    rename_i hc
    have hok := h.consumer
    rw [hc] at hok
    exact ⟨st,h.set_consumer _ hok (by simp [hc,ConsumerPc.cleared])⟩
  | consume =>
    simp only [next] at hn
    split at hn
    · cases hn
    · rename_i pc hc
      cases hn
      exact ⟨st,h.consume_step hr hc⟩
    · rename_i pc hc
      have hok := h.consumer
      rw [hc] at hok
      split at hn <;> cases hn
      all_goals exact ⟨st,h.set_consumer _ hok (by simp [hc,ConsumerPc.cleared])⟩

theorem init_inRange (size : Nat) (h : size ≤ 2^63) :
    (init size : State ι μ).queue.InRange := by
  have zero : 0<2^63 := by decide
  refine ⟨zero,zero,fun i hi => ?_⟩
  have hb := bitCeil_le h
  replace hi : i<bitCeil size := hi
  exact lt_of_lt_of_le hi hb

theorem reachable_inv [DecidableEq ι] {s : State ι μ}
    (h : (machine ι μ).ReachableBy InRange s) : s.queue.InRange ∧ ∃ st,Inv s st := by
  apply h.invariant
  · rintro x ⟨size,h2,hle,rfl⟩
    exact ⟨init_inRange size hle,_,init_inv size h2⟩
  · rintro x a y ⟨hr,hi⟩ hn ho
    exact ⟨ho,next_inv hr hi hn⟩

/-- The queue is a FIFO of the claimed messages over every interleaving: results come out
in claim order, a claimed slot is written only after its previous messages were handed over,
and `try_enqueue` reports a full queue only when every slot is occupied. -/
theorem mpsc_fifo [DecidableEq ι] {s : State ι μ}
    (h : (machine ι μ).ReachableBy InRange s) :
    s.returned <+: s.claimed.map some ∧
    (∀ p m pc w,s.producers p=some (m,pc) → owned pc=some w →
      (∀ i<w,i%s.queue.size=w%s.queue.size → i<s.returned.length) ∧
        (pc=.writeMessage w → (s.queue.slot w).message=none)) ∧
    (∀ p m w spurious,s.producers p=some (m,.loadSequence w) →
      (s.queue.tryEnqueue m spurious (.loadSequence w)).2=.returned false →
        ∀ j<s.queue.size,Occupied s j) := by
  obtain ⟨hr,st,hi⟩ := reachable_inv h
  have hb := hi.bound hr
  have hroom := hi.room
  refine ⟨?_,?_,?_⟩
  · rw [hi.fifo]
    exact (List.take_prefix _ _).map some
  · intro p m pc w hp hw
    obtain ⟨hf,_,hle⟩ := hi.held hp hw
    have hlt := hi.lt_of_stage hf
    constructor
    · intro i hiw hm
      have := slot_lap hiw hm
      omega
    · rintro rfl
      have hst : st w=.claimed := (hi.producer p m _ hp).2.1
      simp [hi.slot w hle (by omega),slotAt,hst]
  · intro p m w spurious hp hf j hj
    have hfull := hi.refused hr hp hf
    obtain ⟨i,hle,hlt',hm⟩ := slot_window (n := s.queue.size) (by omega) s.returned.length j
    exact ⟨i,hle,by omega,hm.trans (Nat.mod_eq_of_lt hj)⟩

instance (q : MailQueue μ) : Decidable q.InRange :=
  inferInstanceAs (Decidable (_ ∧ _ ∧ _))

instance (s : State ι μ) (a : Action ι μ) (t : State ι μ) : Decidable (InRange s a t) :=
  inferInstanceAs (Decidable t.queue.InRange)

/-- Two producers race for the first slot of a queue asked to hold three messages; both
messages arrive in claim order. -/
theorem mpsc_fifo_race : ∃ s : State (Fin 2) Nat,
    (machine (Fin 2) Nat).ReachableBy InRange s ∧
    s.returned=[some 8] ∧ s.claimed=[8,7] ∧ s.returned <+: s.claimed.map some := by
  obtain ⟨s,hs,hp⟩ := Machine.exists_reachableBy (machine (Fin 2) Nat) InRange
    [.tryEnqueue 0 7,.tryEnqueue 1 8,.produce 0 false,.produce 1 false,.produce 0 false,
      .produce 1 false,.produce 1 false,.produce 0 false,.produce 0 false,.produce 0 false,
      .produce 0 false,.produce 1 false,.produce 1 false,.tryDequeue,.consume,.consume,
      .consume,.consume,.consume,.consume]
    (fun s => s.returned=[some 8] ∧ s.claimed=[8,7]) ⟨3,by decide,by decide,rfl⟩ (by decide)
  have hv : s.returned=[some 8] ∧ s.claimed=[8,7] := by simpa using hp
  exact ⟨s,hs,hv.1,hv.2,(mpsc_fifo hs).1⟩

end Acnet.Mpsc
