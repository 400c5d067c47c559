import Acnet.Framework.Alone
import Acnet.Queue.MailQueue

namespace Acnet.MailQueue

open Alone

variable {μ : Type} {q : MailQueue μ}

inductive Call (μ : Type) where
  | tryEnqueue (message : μ)
  | tryDequeue
  | canDequeue

inductive Answer (μ : Type) where
  | enqueued (ok : Bool)
  | dequeued (message : Option (Option μ))
  | canDequeue (ok : Bool)
  deriving DecidableEq

/-- A call made alone returns, and `p` holds of the queue and the answer whenever it does,
whatever spurious failures the weak exchange has. -/
def Serves (q : MailQueue μ) (p : MailQueue μ → Answer μ → Prop) : Call μ → Prop
  | .tryEnqueue message => Ensures (tryEnqueue message) q .loadIndex fun t ok => p t (.enqueued ok)
  | .tryDequeue =>
      Ensures (fun _ : Unit => tryDequeue) q .loadIndex fun t r => p t (.dequeued r)
  | .canDequeue =>
      Ensures (fun (_ : Unit) q pc => (q,canDequeue q pc)) q .loadIndex fun t ok =>
        p t (.canDequeue ok)

/-- The FIFO that the queue is meant to be: the messages it stores, and how many it has handed
out before them. -/
structure Stored (μ : Type) where
  taken : Nat
  messages : List μ

def Stored.call (capacity : Nat) (f : Stored μ) : Call μ → Stored μ×Answer μ
  | .tryEnqueue message =>
      if f.messages.length<capacity then ({f with messages := f.messages++[message]},.enqueued true)
      else (f,.enqueued false)
  | .tryDequeue =>
      match f.messages with
      | [] => (f,.dequeued none)
      | m::rest => (⟨f.taken+1,rest⟩,.dequeued (some (some m)))
  | .canDequeue => (f,.canDequeue !f.messages.isEmpty)

/-- Along a history of calls every call returns the answer of the FIFO. -/
def Behaves (capacity : Nat) : MailQueue μ → Stored μ → List (Call μ) → Prop
  | _,_,[] => True
  | q,f,c::cs => q.Serves (fun t a => a=(f.call capacity c).2 ∧
      Behaves capacity t (f.call capacity c).1 cs) c

/-- A full queue is told from one with a free slot only if it has two slots or more. -/
def Told (capacity : Nat) (f : Stored μ) : Call μ → Prop
  | .tryEnqueue _ => f.messages.length=capacity → 2 ≤ capacity
  | .tryDequeue | .canDequeue => True

def ToldAll (capacity : Nat) : Stored μ → List (Call μ) → Prop
  | _,[] => True
  | f,c::cs => Told capacity f c ∧ ToldAll capacity (f.call capacity c).1 cs

/-- The ring of a FIFO: the messages from the read index on are published, the rest of the lap
is free. -/
structure Holds (capacity : Nat) (q : MailQueue μ) (f : Stored μ) : Prop where
  pow : ∃ k ≤ 62,capacity=2^k
  size : q.size=capacity
  mask : q.mask=capacity-1
  room : f.messages.length ≤ capacity
  read : q.readIndex=wrap f.taken
  write : q.writeIndex=wrap (f.taken+f.messages.length)
  published : ∀ i m,f.messages[i]?=some m →
    q.slot (wrap (f.taken+i))=⟨wrap (f.taken+i+1),some m⟩
  free : ∀ i,f.messages.length ≤ i → i<capacity →
    q.slot (wrap (f.taken+i))=⟨wrap (f.taken+i),none⟩

section Effects

variable {p : MailQueue μ → Bool → Prop}

/-- The queue after a message was put into a free slot. -/
def append (q : MailQueue μ) (message : μ) : MailQueue μ :=
  {q with writeIndex := wrap (q.writeIndex+1)}.setSlot q.writeIndex
    ⟨wrap (q.writeIndex+1),some message⟩

theorem setSlot_setSlot (q : MailQueue μ) (i : Nat) (x y : Slot μ) :
    (q.setSlot i x).setSlot i y=q.setSlot i y := by
  simp [setSlot]

theorem slot_setSlot_self (q : MailQueue μ) (i : Nat) (x : Slot μ) :
    (q.setSlot i x).slot i=x := by
  simp [slot_setSlot]

/-- A slot that looks free is claimed, whatever exchanges fail before. -/
theorem ensures_tryEnqueue_free {m : μ} (h : (q.slot q.writeIndex).sequence=q.writeIndex) :
    Ensures (tryEnqueue m) q .loadIndex p ↔ p (q.append m) true := by
  have hzero : signedSub (q.slot q.writeIndex).sequence q.writeIndex=0 := by
    rw [h]
    exact signedSub_self _
  have hload (e : Bool) : tryEnqueue m e q (.loadSequence q.writeIndex)=
      (q,.running (.compareExchange q.writeIndex)) := by
    simp [tryEnqueue,hzero]
  have hexchange : tryEnqueue m false q (.compareExchange q.writeIndex)=
      ({q with writeIndex := wrap (q.writeIndex+1)},.running (.writeMessage q.writeIndex)) := by
    simp [tryEnqueue]
  have hretry : Ensures (tryEnqueue m) q .loadIndex p ↔ Ensures (tryEnqueue m)
      {q with writeIndex := wrap (q.writeIndex+1)} (.writeMessage q.writeIndex) p := by
    apply ensures_retry (P := fun x => x=.loadIndex ∨ x=.loadSequence q.writeIndex ∨
      x=.compareExchange q.writeIndex)
    · rintro x (rfl | rfl | rfl) e
      · exact Or.inl ⟨_,rfl,Or.inr (Or.inl rfl)⟩
      · exact Or.inl ⟨_,hload e,Or.inr (Or.inr rfl)⟩
      · cases e with
        | false => exact Or.inr hexchange
        | true => exact Or.inl ⟨_,by simp [tryEnqueue],Or.inl rfl⟩
    · intro u r k
      exact .more (e := false) rfl (.more (hload false) (.more hexchange k))
    · exact Or.inl rfl
  rw [hretry,ensures_running (fun _ => rfl),ensures_returned (fun _ => rfl),setSlot_setSlot,
    slot_setSlot_self]
  rfl

/-- A slot of the last lap that is still published stops the call. -/
theorem ensures_tryEnqueue_full {m : μ}
    (h : signedSub (q.slot q.writeIndex).sequence q.writeIndex<0) :
    Ensures (tryEnqueue m) q .loadIndex p ↔ p q false := by
  rw [ensures_running (fun _ => rfl),ensures_returned (fun _ => if_pos h)]

variable {p' : MailQueue μ → Option (Option μ) → Prop}

/-- The queue after its oldest message was taken. -/
def advance (q : MailQueue μ) : MailQueue μ :=
  {q with readIndex := wrap (q.readIndex+1)}.setSlot q.readIndex
    ⟨wrap (q.readIndex+q.size),none⟩

/-- `try_dequeue` and `can_dequeue` go by the same comparison. -/
theorem ensures_tryDequeue :
    Ensures (fun _ : Unit => tryDequeue) q .loadIndex p' ↔
      if q.headPublished then p' q.advance (some (q.slot q.readIndex).message)
      else p' q none := by
  rw [ensures_running (fun _ => rfl)]
  split_ifs with h
  · have hpublished : ¬signedSub (q.slot q.readIndex).sequence (wrap (q.readIndex+1))<0 :=
      Int.not_lt.mpr (of_decide_eq_true h)
    rw [ensures_running (fun _ => if_neg hpublished),ensures_running (fun _ => rfl),
      ensures_running (fun _ => rfl),ensures_running (fun _ => rfl),
      ensures_returned (fun _ => rfl)]
    simp [advance,setSlot,slot]
  · have hempty : signedSub (q.slot q.readIndex).sequence (wrap (q.readIndex+1))<0 :=
      Int.not_le.mp (of_decide_eq_false (Bool.not_eq_true _ ▸ h))
    rw [ensures_returned (fun _ => if_pos hempty)]

theorem ensures_canDequeue :
    Ensures (fun (_ : Unit) q pc => (q,canDequeue q pc)) q .loadIndex p ↔
      p q q.headPublished := by
  rw [ensures_running (fun _ => rfl),ensures_returned (fun _ => rfl)]
  rfl

end Effects

section Ring

variable {capacity : Nat} {f : Stored μ}

theorem new_holds (size : Nat) (h : size ≤ 2^62) :
    Holds (bitCeil size) (new size : MailQueue μ) ⟨0,[]⟩ where
  pow := by
    obtain ⟨k,hk⟩ := bitCeil_isPow size
    have hle := bitCeil_le h
    rw [hk] at hle
    exact ⟨k,(Nat.pow_le_pow_iff_right (by decide)).mp hle,hk⟩
  size := rfl
  mask := rfl
  room := Nat.zero_le _
  read := rfl
  write := rfl
  published := by simp
  free := by
    intro i _ hi
    have hle := bitCeil_le h
    obtain ⟨k,hk⟩ := bitCeil_isPow size
    have hwrap : wrap (0+i)=i := by
      rw [Nat.zero_add]
      exact wrap_of_lt (by omega)
    have hslot : i &&& (bitCeil size-1)=i := by
      rw [land_mask hk]
      exact Nat.mod_eq_of_lt hi
    rw [hwrap]
    simp only [slot,new,hslot]

theorem Holds.le (h : Holds capacity q f) : capacity ≤ 2^62 := by
  obtain ⟨k,hk,rfl⟩ := h.pow
  exact Nat.pow_le_pow_right (by decide) hk

theorem Holds.land (h : Holds capacity q f) (i : Nat) : wrap i &&& q.mask=i%capacity := by
  obtain ⟨k,hk,hc⟩ := h.pow
  rw [h.mask]
  exact wrap_land (by omega) hc i

/-- A write to the slot of one counter leaves the other counters of the lap alone. -/
theorem Holds.slot_setSlot_of_ne (h : Holds capacity q f) (x : Slot μ) {i j : Nat}
    (hi : i<capacity) (hj : j<capacity) (hne : i ≠ j) :
    (q.setSlot (wrap (f.taken+j)) x).slot (wrap (f.taken+i))=q.slot (wrap (f.taken+i)) := by
  rw [slot_setSlot,if_neg]
  rw [h.land,h.land]
  intro he
  have := slot_inj (a := f.taken) (by omega) (by omega) (by omega) (by omega) he
  omega

/-- The slot at the write index of a queue with room is free for it. -/
theorem Holds.writable (h : Holds capacity q f) (hlt : f.messages.length<capacity) :
    (q.slot q.writeIndex).sequence=q.writeIndex := by
  rw [h.write,h.free _ (le_refl _) hlt]

theorem Holds.pos (h : Holds capacity q f) : 0<capacity := by
  obtain ⟨k,_,rfl⟩ := h.pow
  exact Nat.two_pow_pos k

theorem Holds.slot_lap (h : Holds capacity q f) (i : Nat) :
    q.slot (wrap (i+capacity))=q.slot (wrap i) := by
  unfold slot
  rw [h.land,h.land,Nat.add_mod_right]

theorem Holds.head {m : μ} {rest : List μ} (h : Holds capacity q f) (hm : f.messages=m::rest) :
    q.slot (wrap f.taken)=⟨wrap (f.taken+1),some m⟩ :=
  h.published 0 m (by simp [hm])

/-- The slot at the write index of a full queue is the one of the oldest message. -/
theorem Holds.full (h : Holds capacity q f) (hfull : f.messages.length=capacity) :
    (q.slot q.writeIndex).sequence=wrap (f.taken+1) := by
  have hpos := h.pos
  cases hm : f.messages with
  | nil =>
    rw [hm,List.length_nil] at hfull
    omega
  | cons m rest => rw [h.write,hfull,h.slot_lap,h.head hm]

theorem Holds.write_full (h : Holds capacity q f) (hfull : f.messages.length=capacity) :
    q.writeIndex=wrap (wrap (f.taken+1)+(capacity-1)) := by
  have hpos := h.pos
  rw [h.write,hfull,wrap_add]
  congr 1
  omega

theorem Holds.pred_le (h : Holds capacity q f) : capacity-1 ≤ 2^62 :=
  (Nat.sub_le capacity 1).trans h.le

theorem Holds.append (h : Holds capacity q f) (hlt : f.messages.length<capacity) (m : μ) :
    Holds capacity (q.append m) {f with messages := f.messages++[m]} where
  pow := h.pow
  size := h.size
  mask := h.mask
  room := by
    rw [List.length_append]
    exact hlt
  read := h.read
  write := by simp [MailQueue.append,h.write,wrap_add,Nat.add_assoc]
  published := by
    intro i x hx
    change (q.setSlot q.writeIndex ⟨wrap (q.writeIndex+1),some m⟩).slot _=_
    rw [h.write]
    rcases Nat.lt_or_ge i f.messages.length with hi | hi
    · rw [List.getElem?_append_left hi] at hx
      rw [h.slot_setSlot_of_ne _ (by omega) hlt (by omega)]
      exact h.published i x hx
    · have hlast : i<(f.messages++[m]).length := (List.getElem?_eq_some_iff.mp hx).1
      rw [List.length_append,List.length_singleton] at hlast
      obtain rfl : i=f.messages.length := by omega
      obtain rfl : m=x := by simpa using hx
      rw [slot_setSlot_self,wrap_add]
  free := by
    intro i hi hc
    rw [List.length_append,List.length_singleton] at hi
    change (q.setSlot q.writeIndex ⟨wrap (q.writeIndex+1),some m⟩).slot _=_
    rw [h.write,h.slot_setSlot_of_ne _ hc hlt (by omega)]
    exact h.free i (by omega) hc

theorem Holds.advance {m : μ} {rest : List μ} (h : Holds capacity q f)
    (hm : f.messages=m::rest) : Holds capacity q.advance ⟨f.taken+1,rest⟩ := by
  have hlen : f.messages.length=rest.length+1 := by rw [hm,List.length_cons]
  have hroom := h.room
  have hread : q.readIndex=wrap (f.taken+0) := h.read
  have hslot (i : Nat) : q.advance.slot i=
      (q.setSlot (wrap (f.taken+0)) ⟨wrap (f.taken+capacity),none⟩).slot i := by
    rw [← h.size,← hread,← wrap_add,← h.read]
    rfl
  refine ⟨h.pow,h.size,h.mask,?_,?_,?_,?_,?_⟩
  · change rest.length ≤ capacity
    omega
  · simp [MailQueue.advance,h.read,wrap_add]
  · change q.writeIndex=wrap (f.taken+1+rest.length)
    rw [h.write,hlen]
    congr 1
    omega
  · intro i x hx
    have hi : f.messages[i+1]?=some x := by rw [hm,List.getElem?_cons_succ,hx]
    have hlt := (List.getElem?_eq_some_iff.mp hi).1
    have hcounter : f.taken+1+i=f.taken+(i+1) := by omega
    change q.advance.slot (wrap (f.taken+1+i))=⟨wrap (f.taken+1+i+1),some x⟩
    rw [hslot,hcounter,h.slot_setSlot_of_ne _ (by omega) h.pos (by omega)]
    exact h.published (i+1) x hi
  · intro i hi hc
    have hcounter : f.taken+1+i=f.taken+(i+1) := by omega
    change rest.length ≤ i at hi
    change q.advance.slot (wrap (f.taken+1+i))=⟨wrap (f.taken+1+i),none⟩
    rw [hslot,hcounter]
    rcases Nat.lt_or_ge (i+1) capacity with hlt | hge
    · rw [h.slot_setSlot_of_ne _ hlt h.pos (by omega)]
      exact h.free (i+1) (by omega) hlt
    · -- the slot just emptied is the free one at the end of the next lap
      obtain rfl : capacity=i+1 := by omega
      rw [slot_setSlot,if_pos]
      rw [h.land,h.land]
      exact Nat.add_mod_right f.taken _

/-- The comparison at the read index tells a published head from an empty queue. -/
theorem Holds.headPublished_eq (h : Holds capacity q f) :
    q.headPublished=!f.messages.isEmpty := by
  have hnext : wrap (q.readIndex+1)=wrap (f.taken+1) := by rw [h.read,wrap_add]
  unfold headPublished
  rw [hnext,h.read]
  cases hm : f.messages with
  | cons m rest =>
    rw [h.head hm,signedSub_self]
    rfl
  | nil =>
    have hfree : q.slot (wrap f.taken)=⟨wrap f.taken,none⟩ :=
      h.free 0 (by simp [hm]) h.pos
    have htest := signedSub_wrap (wrap f.taken) (n := 1) (by decide)
    rw [wrap_add] at htest
    rw [hfree,htest]
    rfl

end Ring

section History

variable {capacity : Nat} {f : Stored μ} {p : MailQueue μ → Answer μ → Prop}

/-- A call whose comparison tells the cases apart leaves the ring of the FIFO after it. -/
theorem Holds.serves {c : Call μ} (h : Holds capacity q f) (hc : Told capacity f c) :
    ∃ t,Holds capacity t (f.call capacity c).1 ∧
      (q.Serves p c ↔ p t (f.call capacity c).2) := by
  cases c with
  | tryEnqueue m =>
    simp only [Stored.call]
    split_ifs with hlt
    · exact ⟨_,h.append hlt m,ensures_tryEnqueue_free (h.writable hlt)⟩
    · have hfull : f.messages.length=capacity := Nat.le_antisymm h.room (Nat.not_lt.mp hlt)
      have h2 : 2 ≤ capacity := hc hfull
      refine ⟨q,h,ensures_tryEnqueue_full ?_⟩
      rw [h.full hfull,h.write_full hfull,signedSub_wrap _ h.pred_le]
      omega
  | tryDequeue =>
    have hp := h.headPublished_eq
    simp only [Serves,ensures_tryDequeue,hp,Stored.call]
    cases hm : f.messages with
    | nil => exact ⟨q,h,by simp⟩
    | cons m rest => exact ⟨_,h.advance hm,by simp [h.read,h.head hm]⟩
  | canDequeue =>
    have hp := h.headPublished_eq
    refine ⟨q,h,?_⟩
    simp only [Serves,ensures_canDequeue,hp,Stored.call]

/-- A call whose comparison goes wrong does not give the answer of the FIFO. -/
theorem Holds.not_serves {c : Call μ} (h : Holds capacity q f) (hc : ¬Told capacity f c)
    (hp : ∀ t a,p t a → a=(f.call capacity c).2) : ¬q.Serves p c := by
  cases c with
  | tryEnqueue m =>
    obtain ⟨hfull,hc⟩ := Classical.not_imp.mp hc
    have hanswer : (f.call capacity (.tryEnqueue m)).2=.enqueued false := by
      simp [Stored.call,hfull]
    -- in the one slot the message of this lap and the free slot of the next look alike
    have hone : capacity-1=0 := by omega
    have hfree : (q.slot q.writeIndex).sequence=q.writeIndex := by
      rw [h.full hfull,h.write_full hfull,hone,wrap_add]
    intro hs
    have := hp _ _ ((ensures_tryEnqueue_free hfree).mp hs)
    rw [hanswer] at this
    cases this
  | tryDequeue | canDequeue => exact absurd trivial hc

theorem Holds.behaves_iff (cs : List (Call μ)) (h : Holds capacity q f) :
    Behaves capacity q f cs ↔ ToldAll capacity f cs := by
  induction cs generalizing q f with
  | nil => exact Iff.rfl
  | cons c cs ih =>
    by_cases hc : Told capacity f c
    · obtain ⟨t,ht,hserves⟩ := h.serves (p := fun t a => a=(f.call capacity c).2 ∧
        Behaves capacity t (f.call capacity c).1 cs) hc
      rw [ih ht] at hserves
      refine hserves.trans ?_
      simp [ToldAll,hc]
    · constructor
      · intro hb
        exact absurd hb (h.not_serves hc fun t a ha => ha.1)
      · intro hb
        exact absurd hb.1 hc

/-- Made one after another, the calls of a queue of any size are those of a FIFO with the size
rounded up, as long as no message is put into a full queue of one slot, and no longer. -/
theorem mailQueue_fifo_iff (size : Nat) (h : size ≤ 2^62) (cs : List (Call μ)) :
    Behaves (bitCeil size) (new size) ⟨0,[]⟩ cs ↔ ToldAll (bitCeil size) ⟨0,[]⟩ cs :=
  (new_holds size h).behaves_iff cs

/-- Two slots are enough. -/
theorem toldAll_of_two (h2 : 2 ≤ capacity) (cs : List (Call μ)) : ToldAll capacity f cs := by
  induction cs generalizing f with
  | nil => trivial
  | cons c cs ih =>
    refine ⟨?_,ih⟩
    cases c with
    | tryEnqueue m => exact fun _ => h2
    | tryDequeue | canDequeue => trivial

/-- Both slots of a queue of two are used, and the third message is refused. -/
theorem mailQueue_fifo_two : Behaves (bitCeil 2) (new 2 : MailQueue Nat) ⟨0,[]⟩
    [.tryEnqueue 7,.tryEnqueue 8,.tryEnqueue 9,.tryDequeue,.canDequeue,.tryDequeue,
      .tryDequeue] := by
  apply (mailQueue_fifo_iff 2 (by decide) _).mpr
  exact toldAll_of_two (by decide) _

/-- A queue of one slot takes a second message over the first. -/
theorem mailQueue_one_slot :
    ¬Behaves (bitCeil 1) (new 1 : MailQueue Nat) ⟨0,[]⟩ [.tryEnqueue 7,.tryEnqueue 8] ∧
    (∀ p,(new 1 : MailQueue Nat).Serves p (.tryEnqueue 7) ↔
      p ((new 1).append 7) (.enqueued true)) ∧
    (∀ p,((new 1 : MailQueue Nat).append 7).Serves p (.tryEnqueue 8) ↔
      p (((new 1).append 7).append 8) (.enqueued true)) ∧
    ∀ p,(((new 1 : MailQueue Nat).append 7).append 8).Serves p .tryDequeue ↔
      p (((new 1).append 7).append 8).advance (.dequeued (some (some 8))) := by
  refine ⟨?_,?_,?_,?_⟩
  · rw [(new_holds 1 (by decide)).behaves_iff]
    intro h
    exact absurd (h.2.1 rfl) (by decide)
  · intro p
    exact ensures_tryEnqueue_free rfl
  · intro p
    exact ensures_tryEnqueue_free rfl
  · intro p
    rw [Serves,ensures_tryDequeue,if_pos (by decide)]
    rfl

end History

end Acnet.MailQueue
