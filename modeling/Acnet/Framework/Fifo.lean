import Acnet.Framework.Machine
import Mathlib.Data.List.Basic

namespace Acnet

/-- A bounded first-in first-out mailbox that drops what does not fit; `discarded` lists what
was dropped. -/
structure Fifo (μ : Type*) where
  messages : List μ
  discarded : List μ

namespace Fifo

variable {μ : Type*}

def empty : Fifo μ := ⟨[],[]⟩

def send (capacity : Nat) (m : μ) (f : Fifo μ) : Fifo μ :=
  if f.messages.length<capacity then {f with messages := f.messages++[m]}
  else {f with discarded := f.discarded++[m]}

inductive Action (μ : Type*) where
  | send (m : μ)
  | take (m : μ)

/-- A message is sent, or the oldest one is taken. -/
def next [DecidableEq μ] (capacity : Nat) (f : Fifo μ) : Action μ → Option (Fifo μ)
  | .send m => some (f.send capacity m)
  | .take m =>
      match f.messages with
      | [] => none
      | x::rest => if x=m then some {f with messages := rest} else none

def machine [DecidableEq μ] (capacity : Nat) : Machine (Fifo μ) (Action μ) where
  start f := f=.empty
  next := next capacity

variable {capacity : Nat} {m x : μ} {f : Fifo μ}

theorem next_take [DecidableEq μ] (capacity : Nat) {rest : List μ} (h : f.messages=m::rest) :
    (machine capacity).next f (.take m)=some {f with messages := rest} := by
  simp [machine,next,h]

theorem send_of_lt (h : f.messages.length<capacity) :
    (f.send capacity m).messages=f.messages++[m] := by
  simp [send,h]

theorem send_of_full (h : capacity ≤ f.messages.length) :
    (f.send capacity m).messages=f.messages := by
  simp [send,Nat.not_lt.mpr h]

/-- A message that was sent is queued or was discarded. -/
theorem send_recorded (capacity : Nat) (m : μ) (f : Fifo μ) :
    m∈(f.send capacity m).messages ∨ m∈(f.send capacity m).discarded := by
  unfold send
  split_ifs <;> simp

theorem mem_send (h : x∈f.messages) : x∈(f.send capacity m).messages := by
  unfold send
  split_ifs <;> simp [h]

theorem mem_discarded_send (h : x∈f.discarded) : x∈(f.send capacity m).discarded := by
  unfold send
  split_ifs <;> simp [h]

theorem of_mem_send (h : x∈(f.send capacity m).messages) : x∈f.messages ∨ x=m := by
  unfold send at h
  split_ifs at h
  · simpa using h
  · exact Or.inl h

/-- Queued messages leave from the front and come in at the back. -/
theorem send_messages (capacity : Nat) (m : μ) (f : Fifo μ) :
    (f.send capacity m).messages=f.messages++[m] ∨
      (f.send capacity m).messages=f.messages := by
  unfold send
  split_ifs
  · exact Or.inl rfl
  · exact Or.inr rfl

theorem countP_send_le (capacity : Nat) (m : μ) (f : Fifo μ) (p : μ → Bool) :
    (f.send capacity m).messages.countP p ≤ f.messages.countP p+(p m).toNat := by
  rcases send_messages capacity m f with h | h
  · rw [h,List.countP_append]
    cases hm : p m <;> simp [hm]
  · rw [h]
    omega

end Fifo

end Acnet
