import Acnet.Queue.Mpsc

/-!
How far the claimed counters of the queue have come. A claimed counter is published by the
producer that claimed it and by nobody else, and it stays published until it is handed over.
-/

namespace Acnet.Mpsc

open MailQueue

variable {ι μ : Type} [DecidableEq ι] {s t : State ι μ} {a : Action ι μ} {st : Nat → Stage}
  {i : Nat}

/-- What a step does, with what it needs. -/
inductive Step (s : State ι μ) : Action ι μ → State ι μ → Prop
  | tryEnqueue {p : ι} {m : μ} (idle : s.producers p=none) : Step s (.tryEnqueue p m)
      {s with producers := Function.update s.producers p (some (m,.loadIndex))}
  | produce {p : ι} {spurious : Bool} {m : μ} {pc : EnqueuePc}
      (calling : s.producers p=some (m,pc)) : Step s (.produce p spurious)
      (produce s p m (s.queue.tryEnqueue m spurious pc))
  | tryDequeue (idle : s.consumer=.idle) :
      Step s .tryDequeue {s with consumer := .dequeue .loadIndex}
  | canDequeue (idle : s.consumer=.idle) :
      Step s .canDequeue {s with consumer := .check .loadIndex}
  | dequeue {pc : DequeuePc μ} (calling : s.consumer=.dequeue pc) :
      Step s .consume (consume s (s.queue.tryDequeue pc))
  | check {pc pc' : CanDequeuePc} (calling : s.consumer=.check pc)
      (access : s.queue.canDequeue pc=.running pc') :
      Step s .consume {s with consumer := .check pc'}
  | checked {pc : CanDequeuePc} {found : Bool} (calling : s.consumer=.check pc)
      (access : s.queue.canDequeue pc=.returned found) :
      Step s .consume {s with consumer := .idle}

theorem next_step (hn : next s a=some t) : Step s a t := by
  cases a with
  | tryEnqueue p m =>
    simp only [next] at hn
    split at hn <;> cases hn
    rename_i hp
    exact .tryEnqueue hp
  | produce p spurious =>
    simp only [next] at hn
    split at hn <;> cases hn
    rename_i m pc hp
    exact .produce hp
  | tryDequeue =>
    simp only [next] at hn
    split at hn <;> cases hn
    rename_i hc
    exact .tryDequeue hc
  | canDequeue =>
    simp only [next] at hn
    split at hn <;> cases hn
    rename_i hc
    exact .canDequeue hc
  | consume =>
    simp only [next] at hn
    split at hn
    · cases hn
    · rename_i hc
      cases hn
      exact .dequeue hc
    · rename_i hc
      split at hn <;> cases hn
      · exact .check hc ‹_›
      · exact .checked hc ‹_›

theorem next_claimed (hn : next s a=some t) :
    s.claimed <+: t.claimed ∧ s.returned.length ≤ t.returned.length := by
  cases next_step hn with
  | tryEnqueue | tryDequeue | canDequeue | check | checked => exact ⟨List.prefix_rfl,le_rfl⟩
  | produce =>
    unfold Mpsc.produce
    split
    · exact ⟨List.prefix_append _ _,le_rfl⟩
    · exact ⟨List.prefix_rfl,le_rfl⟩
  | dequeue =>
    unfold consume
    split
    · exact ⟨List.prefix_rfl,le_rfl⟩
    · exact ⟨List.prefix_rfl,le_rfl⟩
    · exact ⟨List.prefix_rfl,by simp⟩

theorem setSlot_sequence (q : MailQueue μ) (w j : Nat) (m : Option μ) :
    ((q.setSlot w {q.slot w with message := m}).slot j).sequence=(q.slot j).sequence := by
  rw [slot_setSlot]
  split_ifs with h
  · simp [slot,h]
  · rfl

/-- Among the claimed counters, only the last store of its own producer changes what a slot's
sequence says. -/
theorem Inv.next_sequence (h : Inv s st) (hr : s.queue.InRange) (hn : next s a=some t)
    (hi : t.returned.length ≤ i) (hc : i<t.claimed.length) :
    (t.queue.slot i).sequence=(s.queue.slot i).sequence ∨
      (t.queue.slot i).sequence=i+1 := by
  have hb := h.bound hr
  have hroom := h.room
  cases next_step hn with
  | tryEnqueue | tryDequeue | canDequeue | check | checked => exact Or.inl rfl
  | @produce p spurious m pc hp =>
    have ho := h.producer p m pc hp
    cases pc with
    | loadIndex => exact Or.inl rfl
    | loadSequence w | compareExchange w =>
      left
      simp only [MailQueue.tryEnqueue]
      split_ifs <;> rfl
    | writeMessage w => exact Or.inl (setSlot_sequence _ _ _ _)
    | storeSequence w =>
      obtain ⟨hle,hst,-⟩ := ho
      have hlt := h.lt_of_stage (i := w) (by simp [hst])
      have hi' : s.returned.length ≤ i := hi
      have hc' : i<s.claimed.length := hc
      simp only [MailQueue.tryEnqueue,Mpsc.produce]
      rw [h.slot_set hi' (by omega) hle (by omega)]
      split_ifs with he
      · right
        rw [he]
        exact wrap_of_lt (by omega)
      · exact Or.inl rfl
  | @dequeue pc hpc =>
    have ho := h.consumer
    rw [hpc] at ho
    left
    cases pc with
    | loadIndex | readMessage r => rfl
    | loadSequence r =>
      simp only [MailQueue.tryDequeue]
      split_ifs <;> rfl
    | clearMessage r m => exact setSlot_sequence _ _ _ _
    | storeIndex r m => rfl
    | storeSequence r m =>
      obtain ⟨-,rfl,-⟩ := ho
      have h2 := h.two
      have hi' : s.returned.length+1 ≤ i := by simpa [MailQueue.tryDequeue,consume] using hi
      have hc' : i<s.claimed.length := hc
      simp only [MailQueue.tryDequeue,consume]
      rw [h.slot_set (by omega) (by omega) le_rfl (by omega),if_neg (by omega)]

/-- The producer of a claimed counter is there until it publishes the counter. -/
theorem next_owner {p : ι} {m : μ} {pc : EnqueuePc} (hp : s.producers p=some (m,pc))
    (hw : owned pc=some i) (hn : next s a=some t) :
    (∃ pc',t.producers p=some (m,pc') ∧ owned pc'=some i) ∨
      (wrap (i+1)=i+1 → (t.queue.slot i).sequence=i+1) := by
  cases next_step hn with
  | @tryEnqueue p' m' idle =>
    have hne : p≠p' := by
      rintro rfl
      simp [hp] at idle
    exact Or.inl ⟨pc,by simpa [hne] using hp,hw⟩
  | @produce p' spurious m' pc' hp' =>
    by_cases he : p'=p
    · subst p'
      cases hp.symm.trans hp'
      cases pc with
      | loadIndex | loadSequence | compareExchange => simp [owned] at hw
      | writeMessage w =>
        obtain rfl : w=i := by simpa [owned] using hw
        exact Or.inl ⟨.storeSequence w,by simp [MailQueue.tryEnqueue,Mpsc.produce],rfl⟩
      | storeSequence w =>
        obtain rfl : w=i := by simpa [owned] using hw
        right
        intro hwrap
        simp [MailQueue.tryEnqueue,Mpsc.produce,slot_setSlot,hwrap]
    · left
      refine ⟨pc,?_,hw⟩
      unfold Mpsc.produce
      split <;> simpa [Ne.symm he] using hp
  | dequeue =>
    left
    unfold consume
    split <;> exact ⟨pc,hp,hw⟩
  | tryDequeue | canDequeue | check | checked => exact Or.inl ⟨pc,hp,hw⟩

/-- A counter is claimed by a producer that goes on to write its message. -/
theorem Inv.next_claims (h : Inv s st) (hn : next s a=some t) (hc : i<t.claimed.length)
    (hs : s.claimed.length ≤ i) : ∃ p m,t.producers p=some (m,.writeMessage i) := by
  cases next_step hn with
  | tryEnqueue | tryDequeue | canDequeue | check | checked => exact absurd hc (by simpa using hs)
  | @produce p spurious m pc =>
    cases pc with
    | loadIndex | writeMessage w | storeSequence w =>
      simp [MailQueue.tryEnqueue,Mpsc.produce,claim] at hc
      omega
    | loadSequence w =>
      simp only [MailQueue.tryEnqueue] at hc
      split_ifs at hc <;> simp [Mpsc.produce,claim] at hc <;> omega
    | compareExchange w =>
      simp only [MailQueue.tryEnqueue] at hc ⊢
      split_ifs at hc ⊢ with hcas
      · have hw : s.claimed.length=w := h.write.symm.trans hcas.1
        obtain rfl : i=w := by
          simp [Mpsc.produce,claim] at hc
          omega
        exact ⟨p,m,by simp [Mpsc.produce]⟩
      · simp [Mpsc.produce,claim] at hc
        omega
  | dequeue =>
    unfold consume at hc
    split at hc <;> exact absurd hc (by simpa using hs)

/-- Every counter that is claimed and not published has a producer on its way to publish it. -/
def Attended (s : State ι μ) : Prop :=
  ∀ i,s.returned.length ≤ i → i<s.claimed.length → (s.queue.slot i).sequence≠i+1 →
    ∃ p m pc,s.producers p=some (m,pc) ∧ owned pc=some i

theorem Attended.next (h : Attended s) (hi : Inv s st) (hr : s.queue.InRange)
    (hn : next s a=some t) : Attended t := by
  intro i hle hlt hne
  obtain ⟨-,hret⟩ := next_claimed hn
  rcases Nat.lt_or_ge i s.claimed.length with hc | hc
  · have hsame := (hi.next_sequence hr hn hle hlt).resolve_right hne
    obtain ⟨p,m,pc,hp,hw⟩ := h i (hret.trans hle) hc (hsame ▸ hne)
    rcases next_owner hp hw hn with ⟨pc',hp',hw'⟩ | hpub
    · exact ⟨p,m,pc',hp',hw'⟩
    · have hb := hi.bound hr
      have hroom := hi.room
      exact absurd (hpub (wrap_of_lt (by omega))) hne
  · obtain ⟨p,m,hp⟩ := hi.next_claims hn hlt hc
    exact ⟨p,m,.writeMessage i,hp,rfl⟩

theorem reachable_attended (h : (machine ι μ).ReachableBy InRange s) : Attended s := by
  have hall : Attended s ∧ s.queue.InRange ∧ ∃ st,Inv s st := by
    apply h.invariant
    · rintro x ⟨size,h2,hle,rfl⟩
      exact ⟨fun i _ hlt => absurd hlt (Nat.not_lt_zero i),init_inRange size hle,
        _,init_inv size h2⟩
    · rintro x a y ⟨ha,hr,st,hi⟩ hn ho
      exact ⟨ha.next hi hr hn,ho,next_inv hr ⟨st,hi⟩ hn⟩
  exact hall.1

end Acnet.Mpsc
