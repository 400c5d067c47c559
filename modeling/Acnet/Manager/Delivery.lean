import Acnet.Manager.Frame
import Acnet.Queue.Refinement

namespace Acnet.Manager

/-- The mailboxes of the manager and its children are what the queue of a `MailBox` implements:
the queue starts as such a mailbox, and from then on the mailbox makes a send for every message
that is claimed or refused and a take of every message that is handed over. -/
theorem mailbox_implemented (ι : Type) [DecidableEq ι] :
    Mpsc.Implements kMailBoxSize (Mpsc.init kMailBoxSize : Mpsc.State ι EventMessage) .empty ∧
    (Mpsc.machine ι EventMessage).Simulates Mpsc.InRange (Fifo.machine kMailBoxSize) Mpsc.event
      (Mpsc.Implements kMailBoxSize) := by
  have hsize : bitCeil kMailBoxSize=kMailBoxSize := by decide
  have hstart := Mpsc.queue_implements (ι := ι) (μ := EventMessage) kMailBoxSize (by decide)
    (by decide)
  rw [hsize] at hstart
  exact ⟨hstart,Mpsc.simulates_fifo kMailBoxSize⟩

section Requests

variable (s : State) (id : Nat)

/-- A stop request is in the mailbox of the child. -/
def StopQueued : Prop := ∃ m∈(s.mailboxes id).messages,m.type=.cmdModuleStop

/-- A live coroutine of the child has dequeued a stop request. -/
def StopReceived : Prop := ∃ c∈s.coroutines,c.actorId=id ∧ c.live=true ∧ c.stopped=true

def Requested : Prop := StopQueued s id ∨ StopReceived s id ∨ id∈s.dropped

end Requests

/-- The manager has noted a stop request for the child. -/
def Pending (s : State) (id : Nat) : Prop := id∈s.pendingStop ∨ id∈s.pendingReload

/-- Where the exit command can be once it was sent. -/
def ExitRecorded (s : State) : Prop :=
  (∃ m∈s.mailbox.messages,m.type=.cmdExit) ∨ s.exitHandled=true ∨ s.loop=false ∨
    ∃ m∈s.mailbox.discarded,m.type=.cmdExit

/-- Every request that the manager has noted was sent. -/
structure Recorded (s : State) : Prop where
  stop : ∀ id,Pending s id → Requested s id
  exit : s.exitSent=true → ExitRecorded s
  sent : s.isRunning=false → 0<s.sending ∨ s.exitSent=true

section Monotone

variable {s t : State} {id : Nat}

theorem Requested.mono (h : Requested s id)
    (hm : (s.mailboxes id).messages⊆(t.mailboxes id).messages)
    (hd : id∈s.dropped → id∈t.dropped) (hr : StopReceived s id → StopReceived t id) :
    Requested t id := by
  rcases h with ⟨m,hmem,ht⟩ | h | h
  · exact Or.inl ⟨m,hm hmem,ht⟩
  · exact Or.inr (Or.inl (hr h))
  · exact Or.inr (Or.inr (hd h))

theorem Requested.congr (h : Requested s id) (hm : t.mailboxes id=s.mailboxes id)
    (hd : id∈s.dropped → id∈t.dropped) (hr : StopReceived s id → StopReceived t id) :
    Requested t id :=
  h.mono (by rw [hm]; exact List.Subset.refl _) hd hr

theorem StopReceived.append {l : List Coroutine} (h : StopReceived s id)
    (hc : t.coroutines=s.coroutines++l) : StopReceived t id := by
  obtain ⟨c,hmem,hrest⟩ := h
  exact ⟨c,hc ▸ List.mem_append_left _ hmem,hrest⟩

/-- A mailbox that a message is sent to loses nothing. -/
theorem Requested.send (h : Requested s id) (x : Nat) (m : EventMessage) :
    Requested (s.send x m) id := by
  by_cases hx : id=x
  · subst hx
    have hsent : (s.send id m).mailboxes id=(s.mailboxes id).send kMailBoxSize m :=
      Function.update_self _ _ _
    apply h.mono
    · rw [hsent]
      exact fun _ => Fifo.mem_send
    · exact fun hd => hd
    · exact fun hr => hr
  · exact h.congr (Function.update_of_ne hx _ _) (fun hd => hd) fun hr => hr

theorem mem_missed_of_not_mem {ids : List Nat} (h : id∉ids) (boxes : Nat → Fifo EventMessage)
    (dropped : Finset Nat) : id∈missed ids boxes dropped ↔ id∈dropped := by
  induction ids generalizing boxes dropped with
  | nil => rfl
  | cons a ids ih =>
    simp only [List.mem_cons,not_or] at h
    rw [missed,ih h.2]
    split_ifs <;> simp [h.1]

/-- A child is among the dropped ones after its stop request if its mailbox was full. -/
theorem mem_missed {ids : List Nat} (h : id∈ids) (hnd : ids.Nodup)
    (boxes : Nat → Fifo EventMessage) (dropped : Finset Nat) :
    id∈missed ids boxes dropped ↔ ¬(boxes id).messages.length<kMailBoxSize := by
  induction ids generalizing boxes dropped with
  | nil => cases h
  | cons a ids ih =>
    obtain ⟨hna,hnd⟩ := List.nodup_cons.mp hnd
    rw [missed]
    rcases List.mem_cons.mp h with rfl | h
    · rw [mem_missed_of_not_mem hna]
      split_ifs with hroom <;> simp [hroom]
    · have hne : id≠a := fun he => hna (he ▸ h)
      rw [ih h hnd,Function.update_of_ne hne]

/-- Stop requests to several children: each is queued, or the child is noted as missed. -/
theorem requested_of_stopped {ids : List Nat} (hnd : ids.Nodup) (hid : id∈ids)
    (hm : t.mailboxes=stopped ids s.mailboxes)
    (hd : t.dropped=missed ids s.mailboxes s.dropped) : Requested t id := by
  by_cases hroom : (s.mailboxes id).messages.length<kMailBoxSize
  · refine Or.inl ⟨stopMessage,?_,rfl⟩
    rw [hm,stopped_of_mem hid hnd,Fifo.send_of_lt hroom]
    simp
  · refine Or.inr (Or.inr ?_)
    rw [hd]
    exact (mem_missed hid hnd _ _).mpr hroom

/-- The requests noted before are kept, and the new ones are sent. -/
theorem Requested.stopped (s : State) {ids : List Nat} (hnd : ids.Nodup)
    (hm : t.mailboxes=stopped ids s.mailboxes)
    (hd : t.dropped=missed ids s.mailboxes s.dropped) (hc : t.coroutines=s.coroutines)
    (h : id∈ids ∨ Requested s id) : Requested t id := by
  by_cases hid : id∈ids
  · exact requested_of_stopped hnd hid hm hd
  · apply (h.resolve_left hid).congr
    · rw [hm,stopped_of_not_mem hid]
    · rw [hd,mem_missed_of_not_mem hid]
      exact fun h => h
    · intro hr
      rwa [StopReceived,hc]

end Monotone

section Handle

variable {o : Outcome} {s t : State} {m : EventMessage} {rest : List EventMessage}

theorem LaunchFrame.requested {p : Nat → Prop} (hf : LaunchFrame p s t) (hs : Ledger s)
    (h : ∀ id,Pending s id → Requested s id) (id : Nat) (hid : Pending t id) :
    Requested t id := by
  rw [Pending,hf.pendingStop,hf.pendingReload] at hid
  obtain ⟨l,hl,_⟩ := hf.coroutines
  have hk : id∈s.keys := hid.elim (hs.stop_keys id) (hs.reload_keys id)
  exact (h id hid).congr (hf.mailboxes id (hs.keys_lt id hk).2) (fun hd => hf.dropped ▸ hd)
    fun hr => hr.append hl

/-- Whatever is noted while a message is handled is sent; what was noted before is kept, but
for the sender of an exit event, which is forgotten. -/
theorem Dispatch.requested (hd : Dispatch o s m t) (hs : Ledger s)
    (h : ∀ id,Pending s id → (m.type=.moduleExited → id≠m.senderId) → Requested s id) (id : Nat)
    (hid : Pending t id) : Requested t id := by
  have hforget (type : m.type=.moduleExited) (id : Nat)
      (hid : Pending (s.forget m.senderId) id) : Requested (s.forget m.senderId) id := by
    have hne : id≠m.senderId := hid.elim Finset.ne_of_mem_erase Finset.ne_of_mem_erase
    have hp : Pending s id := hid.imp Finset.mem_of_mem_erase Finset.mem_of_mem_erase
    exact (h id hp fun _ => hne).congr rfl (Finset.mem_erase_of_ne_of_mem hne) fun hr => hr
  have hfl : Ledger (s.forget m.senderId) := hs.op (.forget _)
  have hcommand {type : EventType} (ht : m.type=type) (hne : type≠.moduleExited) (id : Nat)
      (hid : Pending s id) : Requested s id :=
    h id hid fun he => absurd (ht.symm.trans he) hne
  have hstopAll (type : m.type=.cmdModuleReload) (config : AcConfig) (id : Nat)
      (hid : Pending (stopAll s config) id) : Requested (stopAll s config) id := by
    rw [stopAll_eq] at hid ⊢
    refine .stopped s hs.keys_nodup rfl rfl rfl ?_
    rcases hid with hid | hid
    · exact Or.inr (hcommand type (by decide) id (Or.inl hid))
    · rcases Finset.mem_union.mp hid with hid | hid
      · exact Or.inr (hcommand type (by decide) id (Or.inr hid))
      · exact Or.inl (List.mem_toFinset.mp hid)
  cases hd with
  | ignore reload exit exited => exact h id hid fun he => absurd he exited
  | exit type =>
    rw [foldl_requestStop] at hid ⊢
    refine .stopped s hs.keys_nodup rfl rfl rfl ?_
    rcases hid with hid | hid
    · rcases Finset.mem_union.mp hid with hid | hid
      · exact Or.inr (hcommand type (by decide) id (Or.inl hid))
      · exact Or.inl (List.mem_toFinset.mp hid)
    · exact Or.inr (hcommand type (by decide) id (Or.inr hid))
  | reloadAll type update all some => exact hstopAll type _ id hid
  | @loadAll config type update all none =>
    exact (LaunchFrame.loadModules o (stopAll s config)).requested (hs.stopAll config)
      (hstopAll type config) id hid
  | @reloadOne config c type update one found =>
    refine .stopped s (List.nodup_singleton c.actorId) rfl rfl rfl ?_
    rcases hid with hid | hid
    · exact Or.inr (hcommand type (by decide) id (Or.inl hid))
    · rcases Finset.mem_insert.mp hid with hid | hid
      · exact Or.inl (List.mem_singleton.mpr hid)
      · exact Or.inr (hcommand type (by decide) id (Or.inr hid))
  | @reloadNew config type update one missing =>
    apply (LaunchFrame.reloadModule o _ 0 m.payload).requested (hs.op (.configure config false))
      _ id hid
    exact fun id hid => (hcommand type (by decide) id hid).congr rfl (fun hd => hd) fun hr => hr
  | @remove c type found =>
    refine .stopped s (List.nodup_singleton c.actorId) rfl rfl rfl ?_
    rcases hid with hid | hid
    · rcases Finset.mem_insert.mp hid with hid | hid
      · exact Or.inl (List.mem_singleton.mpr hid)
      · exact Or.inr (hcommand type (by decide) id (Or.inl hid))
    · exact Or.inr (hcommand type (by decide) id (Or.inr hid))
  | crash type => exact (hcommand type (by decide) id hid).congr rfl (fun hd => hd) fun hr => hr
  | unknown type | barrier type => exact hforget type id hid
  | complete type =>
    exact (LaunchFrame.reloadAllModules o _).requested hfl (hforget type) id hid
  | single type =>
    exact (LaunchFrame.reloadModule o _ m.senderId _).requested hfl (hforget type) id hid
  | restart type =>
    exact (hforget type id hid).congr rfl (fun hd => hd) fun hr => hr.append rfl
  | erase type => exact (hforget type id hid).congr rfl (fun hd => hd) fun hr => hr

/-- Retiring the sender of an exit event takes no other child's coroutine. -/
theorem StopReceived.taken (hs : Ledger s) (hm : s.mailbox.messages=m::rest) {id : Nat}
    (h : StopReceived s id) (hne : m.type=.moduleExited → id≠m.senderId) :
    StopReceived (taken s m rest) id := by
  by_cases ht : m.type=.moduleExited
  · obtain ⟨c,hc,hid,hrest⟩ := h
    obtain ⟨i,hi⟩ := List.mem_iff_getElem?.mp hc
    obtain ⟨d,hd,hdid,_⟩ := hs.exits m (by simp [hm]) ht
    have hser : m.serial≠i := by
      intro he
      rw [he,hi] at hd
      cases hd
      exact hne ht (hid.symm.trans hdid)
    refine ⟨c,List.mem_of_getElem? (i := i) ?_,hid,hrest⟩
    simpa [Manager.taken,ht,List.getElem?_modify,hser] using hi
  · rwa [StopReceived,taken_coroutines ht]

end Handle

section Steps

variable {s t : State} {serial id : Nat} {c d : Coroutine}

theorem StopReceived.setPhase {u : State} {phase : Phase} (h : StopReceived s id)
    (hu : u.coroutines=s.coroutines) (hc : s.coroutines[serial]?=some c)
    (hd : d.actorId=c.actorId) (hs : c.stopped=true → d.stopped=true) (hp : phase≠.retired) :
    StopReceived (u.setPhase serial d phase) id := by
  obtain ⟨x,hx,hid,hl,hst⟩ := h
  obtain ⟨i,hi⟩ := List.mem_iff_getElem?.mp hx
  simp only [StopReceived,State.setPhase,hu]
  by_cases he : serial=i
  · subst he
    obtain rfl : c=x := Option.some.inj (hc.symm.trans hi)
    obtain ⟨hlt,_⟩ := List.getElem?_eq_some_iff.mp hi
    refine ⟨{d with phase := phase},List.mem_set hlt _,hd.trans hid,?_,hs hst⟩
    simp [Coroutine.live,hp]
  · exact ⟨x,List.mem_of_getElem? (i := i) (by rw [List.getElem?_set_ne he,hi]),hid,hl,hst⟩

/-- A coroutine that dequeues a stop request has received it; others only move on. -/
theorem Requested.actor {a : ActorStep} (h : Requested s id) (hc : s.coroutines[serial]?=some c)
    (hm : ActorMove s serial c a t) : Requested t id := by
  obtain ⟨hlt,_⟩ := List.getElem?_eq_some_iff.mp hc
  cases hm with
  | start | startNull | throw =>
    exact h.congr rfl (fun hd => hd) fun hr =>
      hr.setPhase rfl hc rfl (fun hst => hst) (by decide)
  | report | exit =>
    exact h.congr rfl (fun hd => hd) fun hr =>
      hr.setPhase rfl hc rfl (fun hst => hst) (by decide)
  | @stop m rest throws hp head type =>
    by_cases hid : id=c.actorId
    · refine Or.inr (Or.inl ⟨⟨c.actorId,c.module,.leaving,true⟩,?_,hid.symm,rfl,rfl⟩)
      exact List.mem_set hlt _
    · exact h.congr (Function.update_of_ne hid _ _) (fun hd => hd) fun hr =>
        hr.setPhase rfl hc rfl (fun _ => rfl) (by decide)
  | @receive m rest throws hp head type =>
    have hphase : (if throws then Phase.crashed else .running)≠.retired := by split_ifs <;> decide
    have hr (hr : StopReceived s id) :=
      hr.setPhase (u := s.setMailbox c.actorId {s.mailboxes c.actorId with messages := rest})
        rfl hc rfl (fun hst => hst) hphase
    by_cases hid : id=c.actorId
    · subst hid
      have hbox : (s.setMailbox c.actorId {s.mailboxes c.actorId with messages := rest}).mailboxes
          c.actorId={s.mailboxes c.actorId with messages := rest} := Function.update_self _ _ _
      rcases h with ⟨x,hx,hxt⟩ | h | h
      · rw [head] at hx
        rcases List.mem_cons.mp hx with rfl | hx
        · exact absurd hxt type
        · refine Or.inl ⟨x,?_,hxt⟩
          change x∈((s.setMailbox c.actorId _).mailboxes c.actorId).messages
          rwa [hbox]
      · exact Or.inr (Or.inl (hr h))
      · exact Or.inr (Or.inr h)
    · exact h.congr (Function.update_of_ne hid _ _) (fun hd => hd) hr

theorem ExitRecorded.mono (h : ExitRecorded s) (hm : s.mailbox.messages⊆t.mailbox.messages)
    (hd : s.mailbox.discarded⊆t.mailbox.discarded)
    (he : s.exitHandled=true → t.exitHandled=true) (hl : t.loop=s.loop) : ExitRecorded t := by
  rcases h with ⟨m,hmem,ht⟩ | h | h | ⟨m,hmem,ht⟩
  · exact Or.inl ⟨m,hm hmem,ht⟩
  · exact Or.inr (Or.inl (he h))
  · exact Or.inr (Or.inr (Or.inl (hl.trans h)))
  · exact Or.inr (Or.inr (Or.inr ⟨m,hd hmem,ht⟩))

/-- A step that handles no message takes nothing from the manager's mailbox. -/
theorem ExitRecorded.quiet (h : ExitRecorded s) (hq : Quiet s t)
    (hm : t.mailbox=s.mailbox ∨ ∃ m,t.mailbox=s.mailbox.send kMailBoxSize m) :
    ExitRecorded t := by
  rcases hm with hm | ⟨m,hm⟩
  · apply h.mono
    · rw [hm]
      exact List.Subset.refl _
    · rw [hm]
      exact List.Subset.refl _
    · exact fun he => hq.exitHandled.trans he
    · exact hq.loop
  · apply h.mono
    · rw [hm]
      exact fun _ => Fifo.mem_send
    · rw [hm]
      exact fun _ => Fifo.mem_discarded_send
    · exact fun he => hq.exitHandled.trans he
    · exact hq.loop

theorem ActorMove.mailbox {a : ActorStep} (h : ActorMove s serial c a t) :
    t.mailbox=s.mailbox ∨ ∃ m,t.mailbox=s.mailbox.send kMailBoxSize m := by
  cases h with
  | start | startNull | stop | receive | throw => exact Or.inl rfl
  | report => exact Or.inr ⟨_,rfl⟩
  | exit => exact Or.inr ⟨_,rfl⟩

end Steps

theorem Recorded.handle {o : Outcome} {s t : State} {m : EventMessage}
    {rest : List EventMessage} {done : Bool} (h : Recorded s) (hs : Ledger s)
    (head : s.mailbox.messages=m::rest) (hd : Dispatch o (taken s m rest) m t) :
    Recorded (finish t done) := by
  have htaken (id : Nat) (hid : Pending s id) (hne : m.type=.moduleExited → id≠m.senderId) :
      Requested (taken s m rest) id :=
    (h.stop id hid).congr rfl (fun hd => hd) fun hr => hr.taken hs head hne
  have hstop := hd.requested (hs.take head) htaken
  have hu := hd.untouched
  have hexit (hr : t.exitSent=true) : ExitRecorded t := by
    rcases h.exit (hu.exitSent.symm.trans hr) with ⟨x,hx,ht⟩ | hh | hl | ⟨x,hx,ht⟩
    · rw [head] at hx
      rcases List.mem_cons.mp hx with rfl | hx
      · exact Or.inr (Or.inl (hd.exitHandled.mpr (Or.inr ht)))
      · exact Or.inl ⟨x,hu.mailbox ▸ hx,ht⟩
    · exact Or.inr (Or.inl (hd.exitHandled.mpr (Or.inl hh)))
    · exact Or.inr (Or.inr (Or.inl (hu.loop.trans hl)))
    · exact Or.inr (Or.inr (Or.inr ⟨x,hu.mailbox ▸ hx,ht⟩))
  have hsent (hr : t.isRunning=false) : 0<t.sending ∨ t.exitSent=true := by
    rw [hu.sending,hu.exitSent]
    exact h.sent (hu.isRunning.symm.trans hr)
  cases done with
  | false => exact ⟨hstop,hexit,hsent⟩
  | true => exact ⟨hstop,fun _ => Or.inr (Or.inr (Or.inl rfl)),hsent⟩

theorem Recorded.step {s t : State} {a : Action} (h : Recorded s) (hs : Ledger s)
    (hn : next s a=some t) : Recorded t := by
  cases next_cases hn with
  | load effect =>
    have moved (startup : Startup) : Recorded {s with startup := startup} :=
      ⟨h.stop,h.exit,h.sent⟩
    rcases effect.shape with ⟨startup,rfl⟩ | ⟨startup,name,module,rfl⟩
    · exact moved startup
    · have hl : Ledger {s with startup := startup} := hs.op (.startup startup)
      have hf : LaunchFrame (fun _ => False) {s with startup := startup} _ := .emplace _ name module
      exact ⟨hf.requested hl (moved startup).stop,h.exit,h.sent⟩
  | command m caller loader =>
    have hq := (next_cases hn).quiet caller loader
    exact ⟨h.stop,fun hr => (h.exit hr).quiet hq (Or.inr ⟨m,rfl⟩),h.sent⟩
  | shutdown running => exact ⟨h.stop,h.exit,h.sent⟩
  | shutdownAgain running => exact h
  | clearRunning caller => exact ⟨h.stop,h.exit,fun _ => Or.inl (Nat.succ_pos _)⟩
  | sendExit caller =>
    refine ⟨h.stop,fun _ => ?_,fun _ => Or.inr rfl⟩
    rcases Fifo.send_recorded kMailBoxSize ⟨.cmdExit,0,"",0⟩ s.mailbox with hm | hm
    · exact Or.inl ⟨_,hm,rfl⟩
    · exact Or.inr (Or.inr (Or.inr ⟨_,hm,rfl⟩))
  | handle done loop head result effect => exact h.handle hs head effect
  | actor self enqueued move =>
    have hq := move.quiet self
    refine ⟨fun id hid => ?_,fun hr => ?_,fun hr => ?_⟩
    · rw [Pending,hq.pendingStop,hq.pendingReload] at hid
      exact (h.stop id hid).actor self move
    · refine ExitRecorded.quiet (h.exit ?_) hq move.mailbox
      cases move <;> exact hr
    · cases move <;> exact h.sent hr
  | post id m => exact ⟨fun x hx => (h.stop x hx).send id m,h.exit,h.sent⟩

theorem start_recorded {s : State} (h : machine.start s) : Recorded s := by
  obtain ⟨config,rfl⟩ := h
  refine ⟨fun id hid => ?_,by simp [init],by simp [init]⟩
  simp [Pending,init] at hid

/-- Every stop request and the exit command that the manager has noted were sent, in every state
that any run reaches. -/
theorem reachable_recorded {ok : State → Action → State → Prop} {s : State}
    (h : machine.ReachableBy ok s) : Ledger s ∧ Recorded s :=
  h.invariant (I := fun s => Ledger s ∧ Recorded s)
    (fun _ hs => ⟨start_ledger hs,start_recorded hs⟩)
    fun _ _ _ hi hn _ => ⟨hi.1.next hn,hi.2.step hi.1 hn⟩

/-- The stop request for a child is in its mailbox, or a live coroutine of the child has dequeued
it, or the exit event is in the manager's mailbox. -/
def StopDelivered (s : State) (id : Nat) : Prop :=
  StopQueued s id ∨ StopReceived s id ∨
    ∃ m∈s.mailbox.messages,m.type=.moduleExited ∧ m.senderId=id

/-- The exit command is in the manager's mailbox, was handled, or the loop has ended. -/
def ExitDelivered (s : State) : Prop :=
  (∃ m∈s.mailbox.messages,m.type=.cmdExit) ∨ s.exitHandled=true ∨ s.loop=false

section Runs

instance (s : State) (id : Nat) : Decidable (StopDelivered s id) :=
  inferInstanceAs (Decidable ((∃ m∈(s.mailboxes id).messages,_) ∨ (∃ c∈s.coroutines,_) ∨
    ∃ m∈s.mailbox.messages,_))

end Runs

end Acnet.Manager
