import Acnet.Framework.Fifo
import Acnet.Queue.Mpsc

namespace Acnet.Mpsc

open MailQueue

variable {ι μ : Type}

/-- The messages that were claimed and not handed over yet. -/
def pending (s : State ι μ) : List μ := s.claimed.drop s.returned.length

/-- What a step does to the mailbox that the queue implements: a message is sent when its slot is
claimed or the queue is found full, and taken when its slot is recycled. -/
def event (s : State ι μ) : Action ι μ → Option (Fifo.Action μ)
  | .produce p spurious =>
      match s.producers p with
      | none => none
      | some (m,pc) =>
          match (s.queue.tryEnqueue m spurious pc).2 with
          | .running (.writeMessage _) | .returned false => some (.send m)
          | _ => none
  | .consume =>
      match s.consumer with
      | .dequeue pc =>
          match (s.queue.tryDequeue pc).2 with
          | .returned (some (some m)) => some (.take m)
          | _ => none
      | _ => none
  | _ => none

structure Implements (capacity : Nat) (s : State ι μ) (f : Fifo μ) : Prop where
  range : s.queue.InRange
  inv : ∃ st,Inv s st
  size : s.queue.size=capacity
  messages : f.messages=pending s

theorem tryEnqueue_size (q : MailQueue μ) (m : μ) (spurious : Bool) (pc : EnqueuePc) :
    (q.tryEnqueue m spurious pc).1.size=q.size := by
  cases pc with
  | loadSequence w =>
    simp only [tryEnqueue]
    split_ifs <;> rfl
  | compareExchange w =>
    simp only [tryEnqueue]
    split_ifs <;> rfl
  | loadIndex | writeMessage w | storeSequence w => rfl

theorem tryDequeue_size (q : MailQueue μ) (pc : DequeuePc μ) :
    (q.tryDequeue pc).1.size=q.size := by
  cases pc with
  | loadSequence r =>
    simp only [tryDequeue]
    split_ifs <;> rfl
  | loadIndex | readMessage r | clearMessage r m | storeIndex r m | storeSequence r m => rfl

/-- A successful `try_dequeue` hands over the oldest pending message. -/
theorem Inv.handed {s : State ι μ} {st : Nat → Stage} (h : Inv s st) {pc : DequeuePc μ}
    {m : Option μ} (hc : s.consumer=.dequeue pc)
    (hm : (s.queue.tryDequeue pc).2=.returned (some m)) :
    ∃ x,m=some x ∧ pending s=x::s.claimed.drop (s.returned.length+1) := by
  cases pc with
  | storeSequence r m' =>
    have hok := h.consumer
    rw [hc] at hok
    obtain ⟨_,rfl,hst,hval⟩ := hok
    cases hm
    have hlt := h.lt_of_stage (i := s.returned.length) (by simp [hst])
    rw [List.getElem?_eq_getElem hlt] at hval
    exact ⟨_,hval,List.drop_eq_getElem_cons hlt⟩
  | loadSequence r =>
    simp only [tryDequeue] at hm
    split_ifs at hm
    cases hm
  | loadIndex | readMessage r | clearMessage r m | storeIndex r m => simp [tryDequeue] at hm

section Simulation

variable [DecidableEq ι] {capacity : Nat} {s t : State ι μ} {f : Fifo μ}

theorem produce_queue (s : State ι μ) (p : ι) (m : μ) (x : MailQueue μ×Control EnqueuePc Bool) :
    (produce s p m x).queue=x.1 := by
  obtain ⟨q,control⟩ := x
  cases control <;> rfl

omit [DecidableEq ι] in
theorem consume_queue (s : State ι μ)
    (x : MailQueue μ×Control (DequeuePc μ) (Option (Option μ))) : (consume s x).queue=x.1 := by
  obtain ⟨q,control⟩ := x
  cases control with
  | running pc => rfl
  | returned result => cases result <;> rfl

theorem next_size {a : Action ι μ} (hn : next s a=some t) : t.queue.size=s.queue.size := by
  cases a with
  | tryEnqueue p m =>
    simp only [next] at hn
    split at hn <;> cases hn
    rfl
  | produce p spurious =>
    simp only [next] at hn
    split at hn
    · cases hn
    · cases hn
      rw [produce_queue,tryEnqueue_size]
  | tryDequeue | canDequeue =>
    simp only [next] at hn
    split at hn <;> cases hn
    rfl
  | consume =>
    simp only [next] at hn
    split at hn
    · cases hn
    · cases hn
      rw [consume_queue,tryDequeue_size]
    · split at hn <;> cases hn <;> rfl

variable [DecidableEq μ]

/-- A producer's access sends its message, or changes nothing that is pending. -/
theorem Implements.produce {p : ι} {m : μ} {pc : EnqueuePc} {spurious : Bool}
    (h : Implements capacity s f) (hp : s.producers p=some (m,pc))
    (ht : ∃ st,Inv t st) (hr : t.queue.InRange) (hs : t.queue.size=s.queue.size)
    (hn : t=Mpsc.produce s p m (s.queue.tryEnqueue m spurious pc)) :
    (Fifo.machine capacity).Answers f (event s (.produce p spurious))
      (Implements capacity t) := by
  obtain ⟨st,hi⟩ := h.inv
  have hpend : (pending s).length=s.claimed.length-s.returned.length := by simp [pending]
  have same (hc : t.claimed=s.claimed) (hd : t.returned=s.returned) : pending t=pending s := by
    rw [pending,pending,hc,hd]
  simp only [event,hp]
  cases hq : s.queue.tryEnqueue m spurious pc with
  | mk q control =>
    rw [hq] at hn
    cases control with
    | running pc' =>
      cases pc' with
      | writeMessage w =>
        subst hn
        obtain ⟨_,hit⟩ := ht
        have hroom := hit.room
        have hlt : f.messages.length<capacity := by
          rw [h.messages,hpend,← h.size,← hs]
          have hbehind := hi.behind
          simp only [Mpsc.produce,claim,List.length_append,List.length_singleton] at hroom ⊢
          omega
        refine ⟨_,rfl,hr,⟨_,hit⟩,hs.trans h.size,?_⟩
        rw [Fifo.send_of_lt hlt,h.messages]
        exact (List.drop_append_of_le_length hi.behind).symm
      | loadIndex | loadSequence w | compareExchange w | storeSequence w =>
        subst hn
        refine ⟨hr,ht,hs.trans h.size,h.messages.trans ?_⟩
        exact (same (List.append_nil _) rfl).symm
    | returned b =>
      cases b with
      | true =>
        subst hn
        exact ⟨hr,ht,hs.trans h.size,h.messages.trans (same rfl rfl).symm⟩
      | false =>
        subst hn
        have hfull := hi.refused h.range hp (congrArg Prod.snd hq)
        have hle : capacity ≤ f.messages.length := by
          rw [h.messages,hpend,← h.size]
          omega
        refine ⟨_,rfl,hr,ht,hs.trans h.size,?_⟩
        rw [Fifo.send_of_full hle,h.messages]
        exact (same rfl rfl).symm

omit [DecidableEq ι] in
/-- An access of `try_dequeue` takes the oldest message, or changes nothing that is pending. -/
theorem Implements.consume {pc : DequeuePc μ} (h : Implements capacity s f)
    (hc : s.consumer=.dequeue pc) (ht : ∃ st,Inv t st) (hr : t.queue.InRange)
    (hs : t.queue.size=s.queue.size) (hn : t=Mpsc.consume s (s.queue.tryDequeue pc)) :
    (Fifo.machine capacity).Answers f (event s .consume) (Implements capacity t) := by
  obtain ⟨st,hi⟩ := h.inv
  simp only [event,hc]
  cases hq : s.queue.tryDequeue pc with
  | mk q control =>
    rw [hq] at hn
    cases control with
    | running pc' =>
      subst hn
      exact ⟨hr,ht,hs.trans h.size,h.messages⟩
    | returned result =>
      cases result with
      | none =>
        subst hn
        exact ⟨hr,ht,hs.trans h.size,h.messages⟩
      | some m =>
        obtain ⟨x,rfl,hpend⟩ := hi.handed hc (congrArg Prod.snd hq)
        subst hn
        refine ⟨_,Fifo.next_take capacity (h.messages.trans hpend),hr,ht,hs.trans h.size,?_⟩
        simp [pending,Mpsc.consume]

/-- Seen through its events, the queue is a mailbox of its own size. -/
theorem simulates_fifo (capacity : Nat) :
    (machine ι μ).Simulates InRange (Fifo.machine capacity) event (Implements capacity) := by
  intro s a t f h hn ho
  have hnext : next s a=some t := hn
  have hi := next_inv h.range h.inv hnext
  have hs := next_size hnext
  cases a with
  | tryEnqueue p m =>
    simp only [next] at hnext
    split at hnext <;> cases hnext
    exact ⟨ho,hi,hs.trans h.size,h.messages⟩
  | produce p spurious =>
    simp only [next] at hnext
    split at hnext
    · cases hnext
    · rename_i m pc hp
      exact h.produce hp hi ho hs (Option.some.inj hnext).symm
  | tryDequeue | canDequeue =>
    simp only [next] at hnext
    split at hnext <;> cases hnext
    exact ⟨ho,hi,hs.trans h.size,h.messages⟩
  | consume =>
    simp only [next] at hnext
    split at hnext
    · cases hnext
    · rename_i pc hc
      exact h.consume hc hi ho hs (Option.some.inj hnext).symm
    · rename_i pc hc
      simp only [event,hc]
      split at hnext <;> cases hnext <;> exact ⟨ho,hi,hs.trans h.size,h.messages⟩

omit [DecidableEq ι] [DecidableEq μ] in
/-- A new queue is an empty mailbox. -/
theorem queue_implements (size : Nat) (h2 : 2 ≤ bitCeil size) (hle : size ≤ 2^63) :
    Implements (bitCeil size) (init size : State ι μ) .empty :=
  ⟨init_inRange size hle,⟨_,init_inv size h2⟩,rfl,rfl⟩

end Simulation

end Acnet.Mpsc
