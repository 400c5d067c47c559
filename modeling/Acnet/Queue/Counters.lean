import Acnet.Framework.Alone
import Acnet.Queue.WorkStealing

namespace Acnet.WorkStealingQueue

open Alone

variable {η : Type} {q : WorkStealingQueue η}

/-- The number of elements, counted modulo `2^64`. -/
def count (q : WorkStealingQueue η) : Nat := wrapSub q.bottom q.top

/-- The counters are any two words at most one lap apart, and the slots between them hold
handles. -/
structure Live (q : WorkStealingQueue η) : Prop where
  pow : ∃ k<62,q.capacity=2^k
  top : q.top<2^64
  bottom : q.bottom<2^64
  room : q.count ≤ q.capacity
  filled : ∀ i<q.count,(q.slot (wrap (q.top+i))).isSome

/-- Every operation, made alone, sees the modular count: `push` as the unsigned difference,
the others as comparisons of signed casts. -/
structure Agrees (q : WorkStealingQueue η) : Prop where
  push : ∀ handle,Ensures (fun _ : Unit => push handle) q .loadBottom fun t ok =>
    (ok=true ↔ q.count<q.capacity) ∧ t.count ≤ q.capacity
  pop : Ensures (fun _ : Unit => pop) q .loadBottom fun t r =>
    r=(if q.count=0 then (.empty,none) else (.success,q.slot (wrapSub q.bottom 1))) ∧
      t.count ≤ q.capacity
  steal : Ensures (fun _ : Unit => steal) q .loadTop fun t r =>
    r=(if q.count=0 then (.empty,none) else (.success,q.slot q.top)) ∧ t.count ≤ q.capacity
  size : q.approxSize=some q.count

/-- The elements lie on both sides of `2^63`, where the casts change sign, or the queue is
empty exactly there, so that the decrement of `pop` crosses it. -/
def Straddles (q : WorkStealingQueue η) : Prop :=
  0<q.count ∧ q.top<2^63 ∧ 2^63 ≤ q.top+q.count ∨ q.count=0 ∧ q.top=2^63

section Effects

variable {p : WorkStealingQueue η → Bool → Prop} {p' : WorkStealingQueue η → Taken η → Prop}

/-- What `push` does when nobody interferes. -/
theorem ensures_push (handle : η) :
    Ensures (fun _ : Unit => push handle) q .loadBottom p ↔
      if q.capacity ≤ q.count then p q false
      else p {q.setSlot q.bottom (some handle) with bottom := wrap (q.bottom+1)} true := by
  rw [ensures_running (fun _ => rfl)]
  split_ifs with h
  · rw [ensures_returned (fun _ => if_pos h)]
  · rw [ensures_running (fun _ => if_neg h),ensures_running (fun _ => rfl),
      ensures_returned (fun _ => rfl)]

/-- What `pop` does from its store of the decremented `bottom_`. -/
theorem ensures_pop_store (bt : Nat) :
    Ensures (fun _ : Unit => pop) q (.storeBottom bt) p' ↔
      if signed q.top ≤ signed bt then
        if q.top=bt then p' {q with top := wrap (bt+1),bottom := wrap (bt+1)} (taken (q.slot bt))
        else p' {q with bottom := bt} (taken (q.slot bt))
      else p' {q with bottom := wrap (bt+1)} (.empty,none) := by
  rw [ensures_running (fun _ => rfl)]
  split_ifs with h hlast
  · subst hlast
    rw [ensures_running (fun _ => if_pos h),ensures_running (fun _ => if_pos rfl),
      ensures_running (fun _ => if_pos rfl),ensures_returned (fun _ => rfl)]
    rfl
  · rw [ensures_running (fun _ => if_pos h),ensures_returned (fun _ => if_neg hlast)]
    rfl
  · rw [ensures_running (fun _ => if_neg h),ensures_returned (fun _ => rfl)]

theorem ensures_pop :
    Ensures (fun _ : Unit => pop) q .loadBottom p' ↔
      Ensures (fun _ : Unit => pop) q (.storeBottom (wrapSub q.bottom 1)) p' :=
  ensures_running (fun _ => rfl)

/-- What `steal` does when nobody interferes. -/
theorem ensures_steal :
    Ensures (fun _ : Unit => steal) q .loadTop p' ↔
      if signed q.top<signed q.bottom then p' {q with top := wrap (q.top+1)} (.success,q.slot q.top)
      else p' q (.empty,none) := by
  rw [ensures_running (fun _ => rfl)]
  split_ifs with h
  · rw [ensures_running (fun _ => if_pos h),ensures_running (fun _ => rfl),
      ensures_returned (fun _ => if_pos rfl)]
  · rw [ensures_returned (fun _ => if_neg h)]

end Effects

section Words

theorem Live.capacity_le (h : q.Live) : q.capacity ≤ 2^61 := by
  obtain ⟨k,hk,hc⟩ := h.pow
  rw [hc]
  exact Nat.pow_le_pow_right (by decide) (by omega)

theorem Live.count_le (h : q.Live) : q.count ≤ 2^61 := h.room.trans h.capacity_le

theorem Live.bottom_eq (h : q.Live) : q.bottom=wrap (q.top+q.count) := by
  have ht := h.top
  have hb := h.bottom
  unfold count wrapSub wrap
  omega

/-- `bottom-1`, the index that `pop` takes, is the last of the elements. -/
theorem Live.last_eq (h : q.Live) (hc : 0<q.count) :
    wrapSub q.bottom 1=wrap (q.top+(q.count-1)) := by
  have ht := h.top
  have hle := h.count_le
  rw [h.bottom_eq]
  unfold wrapSub wrap
  omega

theorem Live.pred_eq (h : q.Live) (hc : q.count=0) : wrapSub q.bottom 1=wrapSub q.top 1 := by
  rw [h.bottom_eq,hc,Nat.add_zero,wrap_of_lt h.top]

end Words

/-- The test of `steal` fails on elements that lie on both sides of `2^63`. -/
theorem Live.steal_test (h : q.Live) :
    signed q.top<signed q.bottom ↔ 0<q.count ∧ ¬(q.top<2^63 ∧ 2^63 ≤ q.top+q.count) := by
  have hle := h.count_le
  rw [h.bottom_eq]
  exact signed_lt_wrap_iff h.top (by omega)

/-- The test of `pop` fails on elements that lie on both sides of `2^63`, up to the last. -/
theorem Live.pop_test (h : q.Live) (hc : 0<q.count) :
    signed q.top ≤ signed (wrapSub q.bottom 1) ↔
      ¬(q.top<2^63 ∧ 2^63 ≤ q.top+(q.count-1)) := by
  have hle := h.count_le
  rw [h.last_eq hc]
  exact signed_le_wrap_iff h.top (by omega)

/-- On an empty queue the test of `pop` passes only if its decrement crosses `2^63`. -/
theorem Live.pop_test_empty (h : q.Live) (hc : q.count=0) :
    signed q.top ≤ signed (wrapSub q.bottom 1) ↔ q.top=2^63 := by
  rw [h.pred_eq hc]
  exact signed_pred_le_iff h.top

theorem Live.push_agrees (h : q.Live) (handle : η) :
    Ensures (fun _ : Unit => push handle) q .loadBottom fun t ok =>
      (ok=true ↔ q.count<q.capacity) ∧ t.count ≤ q.capacity := by
  rw [ensures_push]
  split_ifs with hfull
  · exact ⟨by simp [hfull],h.room⟩
  · refine ⟨by simp [Nat.lt_of_not_le hfull],?_⟩
    have ht := h.top
    have hle := h.capacity_le
    change wrapSub (wrap (q.bottom+1)) q.top ≤ q.capacity
    rw [h.bottom_eq,wrap_add]
    unfold wrapSub wrap
    omega

theorem Live.steal_agrees (h : q.Live) (hs : ¬q.Straddles) :
    Ensures (fun _ : Unit => steal) q .loadTop fun t r =>
      r=(if q.count=0 then (.empty,none) else (.success,q.slot q.top)) ∧
        t.count ≤ q.capacity := by
  unfold Straddles at hs
  have htest := h.steal_test
  rw [ensures_steal]
  rcases Nat.eq_zero_or_pos q.count with hc | hc
  · rw [if_neg (by omega)]
    exact ⟨(if_pos hc).symm,h.room⟩
  · rw [if_pos (by omega)]
    refine ⟨(if_neg (by omega)).symm,?_⟩
    have ht := h.top
    have hle := h.capacity_le
    have hroom := h.room
    change wrapSub q.bottom (wrap (q.top+1)) ≤ q.capacity
    rw [h.bottom_eq]
    unfold wrapSub wrap
    omega

theorem Live.pop_agrees (h : q.Live) (hs : ¬q.Straddles) :
    Ensures (fun _ : Unit => pop) q .loadBottom fun t r =>
      r=(if q.count=0 then (.empty,none) else (.success,q.slot (wrapSub q.bottom 1))) ∧
        t.count ≤ q.capacity := by
  unfold Straddles at hs
  have ht := h.top
  have hle := h.capacity_le
  have hroom := h.room
  rcases Nat.eq_zero_or_pos q.count with hc | hc
  · have htest : ¬signed q.top ≤ signed (wrapSub q.bottom 1) := by
      rw [h.pop_test_empty hc]
      omega
    have hback : wrap (wrapSub q.bottom 1+1)=q.bottom := by
      have hb := h.bottom
      unfold wrapSub wrap
      omega
    rw [ensures_pop,ensures_pop_store,if_neg htest,hback]
    exact ⟨(if_pos hc).symm,h.room⟩
  · have htest : signed q.top ≤ signed (wrapSub q.bottom 1) := by
      rw [h.pop_test hc]
      omega
    have hsome : (q.slot (wrapSub q.bottom 1)).isSome := by
      rw [h.last_eq hc]
      exact h.filled _ (by omega)
    have htaken : taken (q.slot (wrapSub q.bottom 1))=(.success,q.slot (wrapSub q.bottom 1)) := by
      rw [taken,if_pos hsome]
    have hlast : wrapSub (wrapSub q.bottom 1) q.top=q.count-1 := by
      rw [h.last_eq hc]
      unfold wrapSub wrap
      omega
    rw [ensures_pop,ensures_pop_store,if_pos htest]
    simp only [if_neg (Nat.ne_of_gt hc),htaken,true_and]
    split_ifs
    · exact (wrapSub_self _).le.trans (Nat.zero_le _)
    · exact hlast.le.trans (by omega)

theorem Live.approxSize_eq (h : q.Live) (hs : ¬q.Straddles) : q.approxSize=some q.count := by
  have hle := h.count_le
  unfold Straddles at hs
  have hdiff : signed q.bottom-signed q.top=q.count := by
    rw [h.bottom_eq]
    exact signed_wrap_sub h.top (by omega) (by omega)
  have hclamp : (if (0 : Int)<q.count then (q.count : Int).toNat else 0)=q.count := by
    split_ifs <;> omega
  unfold approxSize
  rw [hdiff]
  exact (if_pos (by omega)).trans (congrArg some hclamp)

/-- Elements on both sides of `2^63`: `steal` takes the queue for empty. -/
theorem Live.not_agrees (h : q.Live) (hs : q.Straddles) : ¬q.Agrees := by
  intro ha
  rcases hs with ⟨hc,hlow,hhigh⟩ | ⟨hc,htop⟩
  · have hsteal := ha.steal
    rw [ensures_steal,if_neg (by rw [h.steal_test]; omega),if_neg (by omega)] at hsteal
    simp at hsteal
  · -- `pop` leaves the decremented `bottom_` behind
    have hpop := ha.pop
    have hbt : wrapSub q.bottom 1=2^63-1 := by
      rw [h.pred_eq hc,htop]
      decide
    rw [ensures_pop,ensures_pop_store,if_pos ((h.pop_test_empty hc).mpr htop),hbt,
      if_neg (by omega)] at hpop
    have hle := h.capacity_le
    have hroom := hpop.2
    simp only [count,htop] at hroom
    have hlap : wrapSub (2^63-1) (2^63)=2^64-1 := by decide
    omega

/-- The unsigned test of `push` and the signed ones of `pop`, `steal` and `approx_size` agree
on the modular count at all counters, the wrap at `2^64` and the decrement below zero included,
except across `2^63`. -/
theorem counters_agree_iff (h : q.Live) : q.Agrees ↔ ¬q.Straddles := by
  constructor
  · intro ha hs
    exact h.not_agrees hs ha
  · intro hs
    exact ⟨h.push_agrees,h.pop_agrees hs,h.steal_agrees hs,h.approxSize_eq hs⟩

theorem live_filled {k top bottom : Nat} (hk : k<62) (ht : top<2^64) (hb : bottom<2^64)
    (hc : wrapSub bottom top ≤ 2^k) :
    (⟨2^k,top,bottom,fun i => some i⟩ : WorkStealingQueue Nat).Live :=
  ⟨⟨k,hk,rfl⟩,ht,hb,hc,fun _ _ => rfl⟩

/-- Two elements on either side of `2^63`: `pop` and `steal` both report an empty queue. -/
theorem counters_straddle : ∃ q : WorkStealingQueue Nat,q.Live ∧ q.count=2 ∧
    Ensures (fun _ : Unit => pop) q .loadBottom (fun _ r => r=(.empty,none)) ∧
    Ensures (fun _ : Unit => steal) q .loadTop (fun _ r => r=(.empty,none)) ∧ ¬q.Agrees := by
  have hl : (⟨2^1,2^63-1,2^63+1,fun i => some i⟩ : WorkStealingQueue Nat).Live :=
    live_filled (by decide) (by decide) (by decide) (by decide)
  refine ⟨_,hl,by decide,?_,?_,?_⟩
  · rw [ensures_pop,ensures_pop_store,if_neg (by decide)]
  · rw [ensures_steal,if_neg (by decide)]
  · exact hl.not_agrees (Or.inl (by decide))

/-- Two elements on either side of the wrap: `bottom_` is back at one. -/
theorem counters_agree_wrapped : ∃ q : WorkStealingQueue Nat,q.Live ∧ q.count=2 ∧
    q.bottom<q.top ∧ q.Agrees := by
  have hl : (⟨2^1,2^64-1,1,fun i => some i⟩ : WorkStealingQueue Nat).Live :=
    live_filled (by decide) (by decide) (by decide) (by decide)
  have hs : ¬(⟨2^1,2^64-1,1,fun i => some i⟩ : WorkStealingQueue Nat).Straddles := by
    intro h
    rcases h with h | h
    · exact absurd h.2.1 (by decide)
    · exact absurd h.1 (by decide)
  exact ⟨_,hl,by decide,by decide,(counters_agree_iff hl).mpr hs⟩

end Acnet.WorkStealingQueue
