import Acnet.Framework.Fair
import Acnet.Manager.Shutdown

/-!
Shutdown comes to an end. A child that has its stop request gets to it, leaves, and reports; the
manager gets to the report and drops the child; the loop returns with the last one.
-/

namespace Acnet.Manager

/-- An exit event does not meet a full mailbox. -/
def HasRoom (s : State) : Action → Prop
  | .actor _ .exit => s.mailbox.messages.length < kMailBoxSize
  | _ => True

def Orderly (s : State) (a : Action) (t : State) : Prop := NoNewModule s a t ∧ HasRoom s a

instance (s : State) (a : Action) : Decidable (HasRoom s a) := by
  unfold HasRoom
  split <;> infer_instance

instance (s : State) (a : Action) (t : State) : Decidable (Orderly s a t) :=
  inferInstanceAs (Decidable (_ ∧ _))

/-- The coroutine has yet to leave its loop. -/
def Looping (s : State) (serial id : Nat) : Prop :=
  ∃ c,s.coroutines[serial]?=some c ∧ c.actorId=id ∧ c.inLoop=true

/-- The coroutine has left its loop and has yet to send its exit event. -/
def Leaving (s : State) (serial id : Nat) : Prop :=
  ∃ c,s.coroutines[serial]?=some c ∧ c.actorId=id ∧ (c.phase=.crashed ∨ c.phase=.leaving)

/-- An exit event of the child is in the manager's mailbox. -/
def Reported (s : State) (id : Nat) : Prop :=
  ∃ m∈s.mailbox.messages,m.type=.moduleExited ∧ m.senderId=id

/-- An exit event of the child is yet to be handled: a coroutine of it has still to send one, or
one is in the manager's mailbox. -/
def Answering (s : State) (id : Nat) : Prop :=
  (∃ c∈s.coroutines,c.actorId=id ∧ c.phase≠.exited ∧ c.phase≠.retired) ∨ Reported s id

/-- The child is on its way out. -/
def Departing (s : State) (id : Nat) : Prop :=
  ((∃ serial,Looping s serial id) ∧ StopQueued s id) ∨ (∃ serial,Leaving s serial id) ∨
    Reported s id

structure Sound (s : State) : Prop where
  ledger : Ledger s
  draining : Draining s
  ended : s.loop=false → s.childrens=[]

/-- Where the first message of a kind stands does not depend on what comes later. -/
theorem findIdx_of_grows {α : Type} {p : α → Bool} {l l' : List α} (h : l <+: l')
    (hm : ∃ x∈l,p x=true) : l'.findIdx p=l.findIdx p := by
  obtain ⟨r,rfl⟩ := h
  rw [List.findIdx_append,if_pos (List.findIdx_lt_length.mpr hm)]

theorem findIdx_tail {α : Type} {p : α → Bool} {a : α} {l : List α} (h : p a=false) :
    l.findIdx p < (a::l).findIdx p := by
  simp [List.findIdx_cons,h]

theorem send_grows {μ : Type} (capacity : Nat) (m : μ) (f : Fifo μ) :
    f.messages <+: (f.send capacity m).messages := by
  rcases Fifo.send_messages capacity m f with he | he
  · exact he ▸ List.prefix_append _ _
  · exact he ▸ List.prefix_rfl

theorem update_grows {boxes : Nat → Fifo EventMessage} {id : Nat} (x : Nat) (m : EventMessage) :
    (boxes id).messages <+:
      (Function.update boxes x ((boxes x).send kMailBoxSize m) id).messages := by
  by_cases hx : id=x
  · subst hx
    rw [Function.update_self]
    exact send_grows _ _ _
  · exact Function.update_of_ne hx _ boxes ▸ List.prefix_rfl

theorem stopped_grows (ids : List Nat) (boxes : Nat → Fifo EventMessage) (id : Nat) :
    (boxes id).messages <+: (stopped ids boxes id).messages := by
  induction ids generalizing boxes with
  | nil => exact List.prefix_rfl
  | cons x ids ih => exact (update_grows x stopMessage).trans (ih _)

section Steps

variable {s t : State} {id serial : Nat}

/-- While the manager stops, it only adds to the mailboxes of its children. -/
theorem Draining.mailboxes {o : Outcome} {m : EventMessage} (h : Draining s) (hloop : s.loop=true)
    (hnew : ¬LoadsModule o s m) (hd : Dispatch o s m t) :
    (s.mailboxes id).messages <+: (t.mailboxes id).messages := by
  have hrun {p : Prop} (hr : s.isRunning=true) : p := absurd (h.stopping.symm.trans hr) (by decide)
  cases hd with
  | ignore | crash | unknown | barrier | erase => exact List.prefix_rfl
  | exit type =>
    rw [foldl_requestStop]
    exact stopped_grows _ _ _
  | reloadAll type update all some =>
    rw [stopAll_eq]
    exact stopped_grows _ _ _
  | loadAll type update all none =>
    rw [stopAll_eq] at none
    have hkeys := (List.toFinset_eq_empty_iff _).mp (Finset.union_eq_empty.mp none).2
    exact absurd (List.map_eq_nil_iff.mp hkeys) (h.loop hloop)
  | reloadOne => exact update_grows _ _
  | @reloadNew config type update one missing =>
    have hno : ¬Openable o config m.payload := fun ho =>
      hnew ⟨type,one,firstNamed_none missing,config,update,ho⟩
    have he := reloadModule_of_not (s := {s with config := config, reloadAllFlag := false}) 0 hno
    exact he.symm ▸ List.prefix_rfl
  | remove => exact update_grows _ _
  | complete type child reload => exact hrun reload.1
  | single type child reload => exact hrun reload.1
  | restart type child restart => exact hrun restart.1

/-- What a step that is not made by a coroutine leaves of a child and its coroutines. -/
structure Later (s t : State) (id : Nat) : Prop where
  messages : (s.mailboxes id).messages <+: (t.mailboxes id).messages
  coroutines : ∀ (serial : Nat) (c : Coroutine),s.coroutines[serial]?=some c → c.phase≠.exited →
    t.coroutines[serial]?=some c

theorem Ledger.taken_others (h : Ledger s) {m : EventMessage} {rest : List EventMessage}
    {c : Coroutine} (head : s.mailbox.messages=m::rest) (hc : s.coroutines[serial]?=some c)
    (hp : c.phase≠.exited) : (taken s m rest).coroutines[serial]?=some c := by
  unfold taken
  split_ifs with ht
  · obtain ⟨d,hd,-,hdp⟩ := h.exits m (by simp [head]) ht
    have hne : m.serial≠serial := by
      rintro rfl
      exact hp (Option.some.inj (hc.symm.trans hd) ▸ hdp)
    simpa [hne] using hc
  · exact hc

theorem Sound.later {a : Action} (h : Sound s) (hn : next s a=some t) (ok : Orderly s a t)
    (hother : ∀ serial st,a≠.actor serial st) : Later s t id := by
  cases next_cases hn with
  | load => exact absurd rfl ((startup_returned h.draining.loaded hn).2 _)
  | command | shutdown | shutdownAgain | clearRunning | sendExit =>
    exact ⟨List.prefix_rfl,fun _ _ hc _ => hc⟩
  | post x m => exact ⟨update_grows x m,fun _ _ hc _ => hc⟩
  | actor => exact absurd rfl (hother _ _)
  | @handle o m rest u done loop head result effect =>
    have htaken : Draining (taken s m rest) :=
      ⟨h.draining.stopping,h.draining.loaded,h.draining.pending,h.draining.loop⟩
    have hnew := ok.1 m (by simp [head])
    obtain ⟨-,hc,-⟩ := htaken.dispatch loop hnew effect
    have hbox : (s.mailboxes id).messages <+: (u.mailboxes id).messages :=
      htaken.mailboxes loop hnew effect
    refine ⟨by cases done <;> exact hbox,fun serial c hc' hp => ?_⟩
    rw [finish_coroutines,hc]
    exact h.ledger.taken_others head hc' hp

theorem Sound.next {a : Action} (h : Sound s) (hn : next s a=some t) (ok : Orderly s a t) :
    Sound t where
  ledger := h.ledger.next hn
  draining := (h.draining.step hn ok.1).1
  ended hl := by
    cases next_turn hn with
    | quiet _ hq =>
      rw [hq.childrens]
      exact h.ended (hq.loop ▸ hl)
    | emplace _ _ _ loading => exact absurd h.draining.loaded loading
    | @handle o m rest u done loop head result effect =>
      cases done with
      | false => exact absurd (hl.symm.trans (effect.untouched.loop.trans loop)) (by decide)
      | true => exact dispatch_ended (t := u) result effect

/-- The coroutine after a step of its own, and after a step of another one. -/
theorem setPhase_self {c d : Coroutine} (hc : s.coroutines[serial]?=some c) (phase : Phase) :
    (s.setPhase serial d phase).coroutines[serial]?=some {d with phase := phase} := by
  have hlt := (List.getElem?_eq_some_iff.mp hc).1
  simp [State.setPhase,hlt]

theorem setPhase_other {k : Nat} (hne : k≠serial) (d : Coroutine) (phase : Phase) :
    (s.setPhase k d phase).coroutines[serial]?=s.coroutines[serial]? := by
  simp [State.setPhase,hne]

theorem ActorMove.other {k : Nat} {c : Coroutine} {a : ActorStep} (h : ActorMove s k c a t)
    (hne : k≠serial) : t.coroutines[serial]?=s.coroutines[serial]? := by
  cases h <;> exact setPhase_other hne _ _

theorem next_actor {k : Nat} {a : ActorStep} (h : next s (.actor k a)=some t) :
    ∃ c,s.coroutines[k]?=some c ∧ ActorMove s k c a t := by
  simp only [Manager.next] at h
  split at h
  · cases h
  · rename_i c hc
    split_ifs at h
    exact ⟨c,hc,actorStep_cases h⟩

/-- The manager only takes the front of its mailbox. -/
theorem ActorMove.mailbox_grows {k : Nat} {c : Coroutine} {a : ActorStep}
    (h : ActorMove s k c a t) : s.mailbox.messages <+: t.mailbox.messages := by
  rcases h.mailbox with he | ⟨m,he⟩
  · exact he ▸ List.prefix_rfl
  · exact he ▸ send_grows _ _ _

end Steps

section Loop

variable {s t : State} {id serial k : Nat} {c : Coroutine} {a : ActorStep}

def isStop (m : EventMessage) : Bool := m.type=.cmdModuleStop

/-- How many messages are before the stop request. -/
def stopAt (s : State) (id : Nat) : Nat := (s.mailboxes id).messages.findIdx isStop

/-- How many steps a coroutine is from its stop request. -/
def loopRank (serial id : Nat) (s : State) : Nat :=
  (s.coroutines[serial]?.any (·.phase=.launched)).toNat+stopAt s id

theorem StopQueued.any (h : StopQueued s id) :
    ∃ m∈(s.mailboxes id).messages,isStop m=true := by
  obtain ⟨m,hm,ht⟩ := h
  exact ⟨m,hm,by simpa [isStop] using ht⟩

theorem StopQueued.later (h : StopQueued s id)
    (hbox : (s.mailboxes id).messages <+: (t.mailboxes id).messages) :
    StopQueued t id ∧ stopAt t id=stopAt s id := by
  have hany := h.any
  obtain ⟨m,hm,ht⟩ := h
  exact ⟨⟨m,hbox.subset hm,ht⟩,findIdx_of_grows hbox hany⟩

theorem StopQueued.same (h : StopQueued s id) (hbox : t.mailboxes id=s.mailboxes id) :
    StopQueued t id ∧ stopAt t id ≤ stopAt s id := by
  obtain ⟨hq,he⟩ := h.later (t := t) (hbox ▸ List.prefix_rfl)
  exact ⟨hq,he.le⟩

/-- Another message is taken from the mailbox. -/
theorem StopQueued.tail {m : EventMessage} {rest : List EventMessage} (h : StopQueued s id)
    (head : (s.mailboxes id).messages=m::rest) (type : m.type≠.cmdModuleStop)
    (hbox : (t.mailboxes id).messages=rest) :
    StopQueued t id ∧ stopAt t id < stopAt s id := by
  obtain ⟨m',hm',ht⟩ := h
  rw [head] at hm'
  rcases List.mem_cons.mp hm' with rfl | hm'
  · exact absurd ht type
  · refine ⟨⟨m',hbox ▸ hm',ht⟩,?_⟩
    unfold stopAt
    rw [hbox,head]
    exact findIdx_tail (by simpa [isStop] using type)

section Take

variable {x : Nat} (rest : List EventMessage) (d : Coroutine) (phase : Phase)

theorem take_self : (((s.setMailbox x {s.mailboxes x with messages := rest}).setPhase k d
    phase).mailboxes x).messages=rest := by
  simp [State.setPhase,State.setMailbox]

theorem take_other (hne : x≠id) : ((s.setMailbox x {s.mailboxes x with messages := rest}).setPhase
    k d phase).mailboxes id=s.mailboxes id :=
  Function.update_of_ne (Ne.symm hne) _ _

end Take

/-- The stop request stays in the mailbox until a coroutine of the child takes it and leaves. -/
theorem ActorMove.stopQueued (move : ActorMove s k c a t) (hc : s.coroutines[k]?=some c)
    (h : StopQueued s id) : Leaving t k id ∨ StopQueued t id ∧ stopAt t id ≤ stopAt s id := by
  cases move with
  | start | startNull | throw | report | exit => exact Or.inr ⟨h,le_rfl⟩
  | @stop m rest throws phase head type =>
    by_cases hid : c.actorId=id
    · exact Or.inl ⟨_,setPhase_self hc _,hid,Or.inr rfl⟩
    · exact Or.inr (h.same (take_other _ _ _ hid))
  | @receive m rest throws phase head type =>
    right
    by_cases hid : c.actorId=id
    · subst hid
      obtain ⟨hq,hlt⟩ := h.tail head type (take_self _ _ _)
      exact ⟨hq,hlt.le⟩
    · exact h.same (take_other _ _ _ hid)

/-- The coroutine that serves the mailbox gets closer to its stop request with each step. -/
theorem ActorMove.approaches (move : ActorMove s serial c a t)
    (hc : s.coroutines[serial]?=some c) (hin : c.inLoop=true) (h : StopQueued s c.actorId) :
    Leaving t serial c.actorId ∨
      Looping t serial c.actorId ∧ loopRank serial c.actorId t < loopRank serial c.actorId s := by
  cases move with
  | start phase =>
    refine Or.inr ⟨⟨_,setPhase_self hc _,rfl,rfl⟩,?_⟩
    have hself := setPhase_self (d := c) hc .running
    simp only [loopRank,hself,hc,Option.any_some,phase]
    exact Nat.add_lt_add_right (by simp) _
  | startNull | stop => exact Or.inl ⟨_,setPhase_self hc _,rfl,Or.inr rfl⟩
  | throw => exact Or.inl ⟨_,setPhase_self hc _,rfl,Or.inl rfl⟩
  | @receive m rest throws phase head type =>
    cases throws with
    | true => exact Or.inl ⟨_,setPhase_self hc _,rfl,Or.inl rfl⟩
    | false =>
      obtain ⟨-,hlt⟩ := h.tail head type (take_self (k := serial) _ c .running)
      refine Or.inr ⟨⟨_,setPhase_self hc _,rfl,rfl⟩,?_⟩
      have hself : ((s.setMailbox c.actorId {s.mailboxes c.actorId with messages := rest}).setPhase
          serial c .running).coroutines[serial]?=some {c with phase := .running} :=
        setPhase_self hc _
      simp only [loopRank,Bool.false_eq_true,if_false,hself,hc,Option.any_some,phase]
      exact Nat.add_lt_add_left hlt _
  | report phase | exit phase => simp [Coroutine.inLoop,phase] at hin

/-- A coroutine with a stop request in its mailbox gets closer to it or leaves its loop. -/
theorem Sound.loop_step {a : Action} (h : Sound s) (hl : Looping s serial id)
    (hq : StopQueued s id) (hn : Manager.next s a=some t) (ok : Orderly s a t) :
    (∃ k,Leaving t k id) ∨
      (Looping t serial id ∧ StopQueued t id) ∧ loopRank serial id t ≤ loopRank serial id s ∧
        ((∃ st,a=.actor serial st) → loopRank serial id t < loopRank serial id s) := by
  obtain ⟨c,hc,rfl,hin⟩ := hl
  by_cases hactor : ∃ k st,a=.actor k st
  · obtain ⟨k,st,rfl⟩ := hactor
    obtain ⟨d,hd,move⟩ := next_actor hn
    rcases move.stopQueued hd hq with hleave | ⟨hq',hle⟩
    · exact Or.inl ⟨k,hleave⟩
    by_cases hk : k=serial
    · subst hk
      obtain rfl := Option.some.inj (hd.symm.trans hc)
      rcases move.approaches hd hin hq with hleave | ⟨hl',hlt⟩
      · exact Or.inl ⟨k,hleave⟩
      · exact Or.inr ⟨⟨hl',hq'⟩,hlt.le,fun _ => hlt⟩
    · have hsame := move.other hk
      refine Or.inr ⟨⟨⟨c,hsame.trans hc,rfl,hin⟩,hq'⟩,?_,?_⟩
      · rw [loopRank,loopRank,hsame]
        exact Nat.add_le_add_left hle _
      · rintro ⟨st',he⟩
        cases he
        exact absurd rfl hk
  · have hlater : Later s t c.actorId := h.later hn ok fun k st he => hactor ⟨k,st,he⟩
    have hc' := hlater.coroutines serial c hc (by
      intro hp
      simp [Coroutine.inLoop,hp] at hin)
    obtain ⟨hq',he⟩ := hq.later hlater.messages
    refine Or.inr ⟨⟨⟨c,hc',rfl,hin⟩,hq'⟩,?_,?_⟩
    · rw [loopRank,loopRank,hc,hc',he]
    · rintro ⟨st,rfl⟩
      exact absurd ⟨serial,st,rfl⟩ hactor

/-- The coroutine goes on; an exception of its own is nothing that it has to do. -/
def Proceeds (serial : Nat) (a : Action) : Prop := ∃ st,a=.actor serial st ∧ st≠.throw

theorem Proceeds.actor {a : Action} (h : Proceeds serial a) : ∃ st,a=.actor serial st := by
  obtain ⟨st,ha,-⟩ := h
  exact ⟨st,ha⟩

theorem Sound.enqueued (h : Sound s) (serial : Nat) : s.startup.holds serial=false := by
  rw [h.draining.loaded]
  rfl

theorem Looping.enabled (hs : Sound s) (hl : Looping s serial id) (hq : StopQueued s id) :
    machine.Enabled (Proceeds serial) s := by
  obtain ⟨c,hc,rfl,hin⟩ := hl
  obtain ⟨m,hm,-⟩ := hq
  have hphase : c.phase=.launched ∨ c.phase=.running := by simpa [Coroutine.inLoop] using hin
  rcases hphase with hp | hp
  · apply Machine.Enabled.of_isSome (a := .actor serial .start) _ ⟨_,rfl,by decide⟩
    simp [machine,Manager.next,hc,hs.enqueued,actorStep,hp]
  · obtain ⟨m',rest,hbox⟩ := List.exists_cons_of_ne_nil (List.ne_nil_of_mem hm)
    apply Machine.Enabled.of_isSome (a := .actor serial (.receive false)) _ ⟨_,rfl,by decide⟩
    simp only [machine,Manager.next,hc,hs.enqueued,Bool.false_eq_true,if_false,actorStep,hp,hbox]
    split_ifs <;> rfl

end Loop

section Leave

variable {s t : State} {id serial : Nat} {a : Action}

/-- How many steps a coroutine is from being ready to send its exit event. -/
def leaveRank (serial : Nat) (s : State) : Nat :=
  (s.coroutines[serial]?.any (·.phase=.crashed)).toNat

/-- A coroutine that has left its loop sends its exit event. -/
theorem Sound.leave_step (h : Sound s) (hl : Leaving s serial id)
    (hn : Manager.next s a=some t) (ok : Orderly s a t) :
    Reported t id ∨ Leaving t serial id ∧ leaveRank serial t ≤ leaveRank serial s ∧
      ((∃ st,a=.actor serial st) → leaveRank serial t < leaveRank serial s) := by
  obtain ⟨c,hc,rfl,hphase⟩ := hl
  have same (hc' : t.coroutines[serial]?=some c) (hother : ∀ st,a≠.actor serial st) :
      Leaving t serial c.actorId ∧ leaveRank serial t ≤ leaveRank serial s ∧
        ((∃ st,a=.actor serial st) → leaveRank serial t < leaveRank serial s) := by
    refine ⟨⟨c,hc',rfl,hphase⟩,?_,fun ⟨st,he⟩ => absurd he (hother st)⟩
    rw [leaveRank,leaveRank,hc,hc']
  by_cases hactor : ∃ k st,a=.actor k st
  · obtain ⟨k,st,rfl⟩ := hactor
    obtain ⟨d,hd,move⟩ := next_actor hn
    by_cases hk : k=serial
    · subst hk
      obtain rfl := Option.some.inj (hd.symm.trans hc)
      cases move with
      | start hp | startNull hp | stop _ hp | receive _ hp | throw hp => simp [hp] at hphase
      | report hp =>
        have hself : ((s.sendManager ⟨.crashReport,d.actorId,"",k⟩).setPhase k d
            .leaving).coroutines[k]?=some {d with phase := .leaving} := setPhase_self hd _
        have hlt : leaveRank k ((s.sendManager ⟨.crashReport,d.actorId,"",k⟩).setPhase k d
            .leaving) < leaveRank k s := by
          simp [leaveRank,hself,hd,hp]
        exact Or.inr ⟨⟨_,hself,rfl,Or.inr rfl⟩,hlt.le,fun _ => hlt⟩
      | exit hp =>
        have hroom : s.mailbox.messages.length < kMailBoxSize := ok.2
        refine Or.inl ⟨⟨.moduleExited,d.actorId,"",k⟩,?_,rfl,rfl⟩
        change _∈(s.mailbox.send kMailBoxSize _).messages
        rw [Fifo.send_of_lt hroom]
        simp
    · exact Or.inr (same ((move.other hk).trans hc) fun st' he => hk (Action.actor.inj he).1)
  · have hother : ∀ k st,a≠.actor k st := fun k st he => hactor ⟨k,st,he⟩
    have hlater : Later s t c.actorId := h.later hn ok hother
    have hc' := hlater.coroutines serial c hc (by
      intro hp
      simp [hp] at hphase)
    exact Or.inr (same hc' (hother serial))

theorem Leaving.enabled (hs : Sound s) (hl : Leaving s serial id) :
    machine.Enabled (Proceeds serial) s := by
  obtain ⟨c,hc,rfl,hp | hp⟩ := hl
  · apply Machine.Enabled.of_isSome (a := .actor serial .report) _ ⟨_,rfl,by decide⟩
    simp [machine,Manager.next,hc,hs.enqueued,actorStep,hp]
  · apply Machine.Enabled.of_isSome (a := .actor serial .exit) _ ⟨_,rfl,by decide⟩
    simp [machine,Manager.next,hc,hs.enqueued,actorStep,hp]

end Leave

section Report

variable {s t : State} {id : Nat} {a : Action}

def isExit (id : Nat) (m : EventMessage) : Bool := m.type=.moduleExited ∧ m.senderId=id

/-- How many messages the manager has before the exit event of the child. -/
def exitAt (id : Nat) (s : State) : Nat := s.mailbox.messages.findIdx (isExit id)

theorem Reported.any (h : Reported s id) : ∃ m∈s.mailbox.messages,isExit id m=true := by
  obtain ⟨m,hm,ht⟩ := h
  exact ⟨m,hm,by simpa [isExit] using ht⟩

theorem Reported.later (h : Reported s id)
    (hbox : s.mailbox.messages <+: t.mailbox.messages) :
    Reported t id ∧ exitAt id t=exitAt id s := by
  have hany := h.any
  obtain ⟨m,hm,ht⟩ := h
  exact ⟨⟨m,hbox.subset hm,ht⟩,findIdx_of_grows hbox hany⟩

/-- The manager gets to the exit event of the child and drops the child. -/
theorem Sound.report_step (h : Sound s) (hr : Reported s id) (hn : Manager.next s a=some t) :
    id∉t.keys ∨ Reported t id ∧ exitAt id t ≤ exitAt id s ∧
      ((∃ o,a=.handle o) → exitAt id t < exitAt id s) := by
  have same (hbox : s.mailbox.messages <+: t.mailbox.messages) (hother : ∀ o,a≠.handle o) :
      Reported t id ∧ exitAt id t ≤ exitAt id s ∧
        ((∃ o,a=.handle o) → exitAt id t < exitAt id s) := by
    obtain ⟨hr',he⟩ := hr.later hbox
    exact ⟨hr',he.le,fun ⟨o,ho⟩ => absurd ho (hother o)⟩
  cases next_cases hn with
  | load => exact absurd rfl ((startup_returned h.draining.loaded hn).2 _)
  | command m caller => exact Or.inr (same (send_grows _ _ _) caller)
  | sendExit => exact Or.inr (same (send_grows _ _ _) (by simp))
  | shutdown | shutdownAgain | clearRunning | post => exact Or.inr (same List.prefix_rfl (by simp))
  | actor self enqueued move => exact Or.inr (same move.mailbox_grows (by simp))
  | @handle o m rest u done loop head result effect =>
    have hrest : (finish u done).mailbox.messages=rest := by
      cases done <;> exact congrArg Fifo.messages effect.untouched.mailbox
    obtain ⟨m',hm',ht,hid⟩ := hr
    by_cases hself : m.type=.moduleExited ∧ m.senderId=id
    · left
      obtain ⟨type,rfl⟩ := hself
      have hkeys : (finish u done).keys=u.keys := by cases done <;> rfl
      have hrun {p : Prop} (hr : s.isRunning=true) : p :=
        absurd (h.draining.stopping.symm.trans hr) (by decide)
      rw [hkeys]
      cases effect with
      | ignore _ _ exited => exact absurd type exited
      | exit ht | reloadAll ht | loadAll ht | reloadOne ht | reloadNew ht | remove ht
      | crash ht => exact absurd (type.symm.trans ht) (by decide)
      | unknown _ missing => exact missing
      | barrier _ _ reload => exact hrun reload.1
      | complete _ _ reload => exact hrun reload.1
      | single _ _ reload => exact hrun reload.1
      | restart _ _ restart => exact hrun restart.1
      | erase => exact fun hk => (mem_keys_erase.mp hk).2 rfl
    · have hlt : exitAt id (finish u done) < exitAt id s := by
        unfold exitAt
        rw [hrest,head]
        exact findIdx_tail (by simpa [isExit] using hself)
      rw [head] at hm'
      rcases List.mem_cons.mp hm' with rfl | hm'
      · exact absurd ⟨ht,hid⟩ hself
      · exact Or.inr ⟨⟨m',hrest ▸ hm',ht,hid⟩,hlt.le,fun _ => hlt⟩

theorem Sound.handle_enabled (h : Sound s) (hk : id∈s.keys) (hr : Reported s id) :
    machine.Enabled (fun a => ∃ o,a=.handle o) s := by
  obtain ⟨m,hm,-⟩ := hr
  obtain ⟨m',rest,hbox⟩ := List.exists_cons_of_ne_nil (List.ne_nil_of_mem hm)
  have hloop : s.loop=true := by
    by_contra hl
    have hnil := h.ended (by simpa using hl)
    simp [State.keys,hnil] at hk
  apply Machine.Enabled.of_isSome (a := .handle ⟨none,fun _ => none,fun _ => 0⟩) _ ⟨_,rfl⟩
  simp [machine,Manager.next,handle,hloop,hbox]

end Report

section Answer

variable {s t : State} {id : Nat} {a : Action}

theorem ActorMove.active {serial : Nat} {c : Coroutine} {a : ActorStep}
    (h : ActorMove s serial c a t) : c.phase≠.exited ∧ c.phase≠.retired := by
  cases h with
  | start hp | startNull hp | stop _ hp | receive _ hp | throw hp | report hp | exit hp =>
    simp [hp]

/-- Who moves keeps its id. -/
theorem ActorMove.of_mem {serial : Nat} {c d : Coroutine} {a : ActorStep}
    (h : ActorMove s serial c a t) (hd : d∈t.coroutines) :
    d∈s.coroutines ∨ d.actorId=c.actorId := by
  have set {e : Coroutine} (hd : d∈s.coroutines.set serial e) (he : e.actorId=c.actorId) :
      d∈s.coroutines ∨ d.actorId=c.actorId := by
    rcases List.mem_or_eq_of_mem_set hd with hd | rfl
    · exact Or.inl hd
    · exact Or.inr he
  cases h <;> exact set hd rfl

theorem ActorMove.of_reported {serial : Nat} {c : Coroutine} {a : ActorStep}
    (h : ActorMove s serial c a t) (hr : Reported t id) : Reported s id ∨ c.actorId=id := by
  obtain ⟨m,hm,ht,hid⟩ := hr
  cases h with
  | start | startNull | stop | receive | throw => exact Or.inl ⟨m,hm,ht,hid⟩
  | report =>
    rcases Fifo.of_mem_send hm with hm | rfl
    · exact Or.inl ⟨m,hm,ht,hid⟩
    · cases ht
  | exit =>
    rcases Fifo.of_mem_send hm with hm | rfl
    · exact Or.inl ⟨m,hm,ht,hid⟩
    · exact Or.inr hid

theorem of_mem_taken {m : EventMessage} {rest : List EventMessage} {c : Coroutine}
    (hc : c∈(taken s m rest).coroutines) (hp : c.phase≠.retired) : c∈s.coroutines := by
  unfold taken at hc
  simp only at hc
  split_ifs at hc
  · obtain ⟨i,hi⟩ := List.mem_iff_getElem?.mp hc
    simp only [List.getElem?_modify,Option.map_eq_map,Option.map_eq_some_iff] at hi
    obtain ⟨d,hd,he⟩ := hi
    split_ifs at he
    · exact absurd (he ▸ rfl) hp
    · exact he ▸ List.mem_of_getElem? hd
  · exact hc

/-- While the manager stops, a child from which no exit event is to come stays without one. -/
theorem Sound.answering (h : Sound s) (hn : Manager.next s a=some t) (ok : Orderly s a t)
    (ha : Answering t id) : Answering s id := by
  have sent {m : EventMessage} (hc : t.coroutines=s.coroutines)
      (hm : t.mailbox.messages ⊆ m::s.mailbox.messages) (ht : m.type≠.moduleExited) :
      Answering s id := by
    rcases ha with ⟨c,hmem,hrest⟩ | ⟨m',hm',ht',hid⟩
    · exact Or.inl ⟨c,hc ▸ hmem,hrest⟩
    · rcases List.mem_cons.mp (hm hm') with rfl | hm'
      · exact absurd ht' ht
      · exact Or.inr ⟨m',hm',ht',hid⟩
  have send (m : EventMessage) :
      (s.mailbox.send kMailBoxSize m).messages ⊆ m::s.mailbox.messages := fun x hx =>
    List.mem_cons.mpr (Fifo.of_mem_send hx).symm
  cases next_cases hn with
  | load => exact absurd rfl ((startup_returned h.draining.loaded hn).2 _)
  | command m caller loader exit exited => exact sent rfl (send m) exited
  | sendExit => exact sent rfl (send _) (by simp)
  | shutdown | shutdownAgain | clearRunning | post => exact ha
  | @actor serial c st _ self enqueued move =>
    have hactive : c.actorId=id → Answering s id := fun hid =>
      Or.inl ⟨c,List.mem_of_getElem? self,hid,move.active⟩
    rcases ha with ⟨d,hd,hid,hp⟩ | hr
    · rcases move.of_mem hd with hd | he
      · exact Or.inl ⟨d,hd,hid,hp⟩
      · exact hactive (he.symm.trans hid)
    · exact (move.of_reported hr).elim Or.inr hactive
  | @handle o m rest u done loop head result effect =>
    have htaken : Draining (taken s m rest) :=
      ⟨h.draining.stopping,h.draining.loaded,h.draining.pending,h.draining.loop⟩
    obtain ⟨-,hc,-⟩ := htaken.dispatch loop (ok.1 m (by simp [head])) effect
    rcases ha with ⟨c,hmem,hid,hp⟩ | ⟨m',hm',hrest⟩
    · rw [finish_coroutines,hc] at hmem
      exact Or.inl ⟨c,of_mem_taken hmem hp.2,hid,hp⟩
    · have hu : (finish u done).mailbox.messages=rest := by
        cases done <;> exact congrArg Fifo.messages effect.untouched.mailbox
      exact Or.inr ⟨m',head ▸ List.mem_cons_of_mem _ (hu ▸ hm'),hrest⟩

/-- Such a child is never dropped. -/
theorem Sound.silent_step (h : Sound s) (hk : id∈s.keys) (hno : ¬Answering s id)
    (hn : Manager.next s a=some t) (ok : Orderly s a t) : id∈t.keys ∧ ¬Answering t id := by
  refine ⟨?_,fun ha => hno (h.answering hn ok ha)⟩
  cases next_turn hn with
  | quiet _ hq => exact hq.keys ▸ hk
  | emplace _ _ _ loading => exact absurd h.draining.loaded loading
  | @handle o m rest u done loop head result effect =>
    obtain ⟨c,hc,rfl⟩ := List.mem_map.mp hk
    have hne : m.type=.moduleExited → c.actorId≠m.senderId := fun ht he =>
      hno (Or.inr ⟨m,by simp [head],ht,he.symm⟩)
    obtain ⟨d,hd,hid,-⟩ := effect.childrens hc hne
    have hu : (finish u done).keys=u.keys := by cases done <;> rfl
    rw [hu]
    exact hid ▸ mem_keys hd

end Answer

section Run

open Machine

variable {s t : State} {id : Nat} {a : Action}

/-- Every child is on its way out. -/
structure AllDeparting (s : State) : Prop extends Sound s where
  departing : ∀ id∈s.keys,Departing s id

theorem Sound.departing (h : Sound s) (hd : Departing s id) (hn : Manager.next s a=some t)
    (ok : Orderly s a t) (hk : id∈t.keys) : Departing t id := by
  rcases hd with ⟨⟨serial,hl⟩,hq⟩ | ⟨serial,hl⟩ | hr
  · rcases h.loop_step hl hq hn ok with hleave | ⟨⟨hl',hq'⟩,-⟩
    · exact Or.inr (Or.inl hleave)
    · exact Or.inl ⟨⟨serial,hl'⟩,hq'⟩
  · rcases h.leave_step hl hn ok with hr | ⟨hl',-⟩
    · exact Or.inr (Or.inr hr)
    · exact Or.inr (Or.inl ⟨serial,hl'⟩)
  · rcases h.report_step hr hn with hgone | ⟨hr',-⟩
    · exact absurd hk hgone
    · exact Or.inr (Or.inr hr')

theorem AllDeparting.step (h : AllDeparting s) (hn : Manager.next s a=some t) (ok : Orderly s a t) :
    AllDeparting t ∧ t.keys.Sublist s.keys := by
  have hkeys := (h.draining.step hn ok.1).2.keys
  refine ⟨⟨h.toSound.next hn ok,fun id hid => ?_⟩,hkeys⟩
  exact h.toSound.departing (h.departing id (hkeys.subset hid)) hn ok hid

variable (r : machine.Trace Orderly) {n : Nat}

theorem leaves (fair : ∀ serial,r.Fair (Proceeds serial)) (h : Sound (r.state n))
    {serial : Nat} (hl : Looping (r.state n) serial id) (hq : StopQueued (r.state n) id) :
    ∃ m ≥ n,Sound (r.state m) ∧ ∃ k,Leaving (r.state m) k id := by
  apply r.leadsTo (P := fun x => Sound x ∧ Looping x serial id ∧ StopQueued x id)
    (Q := fun x => Sound x ∧ ∃ k,Leaving x k id) (fair serial) (loopRank serial id)
    (fun x hx _ => hx.2.1.enabled hx.1 hx.2.2) _ ⟨h,hl,hq⟩
  intro x a y ⟨hx,hl,hq⟩ hn ok
  rcases hx.loop_step hl hq hn ok with hleave | ⟨hP,hle,hlt⟩
  · exact Or.inl ⟨hx.next hn ok,hleave⟩
  · exact Or.inr ⟨⟨hx.next hn ok,hP⟩,hle,fun ha => hlt ha.actor⟩

theorem reports (fair : ∀ serial,r.Fair (Proceeds serial)) (h : Sound (r.state n))
    {serial : Nat} (hl : Leaving (r.state n) serial id) :
    ∃ m ≥ n,Sound (r.state m) ∧ Reported (r.state m) id := by
  apply r.leadsTo (P := fun x => Sound x ∧ Leaving x serial id)
    (Q := fun x => Sound x ∧ Reported x id) (fair serial) (leaveRank serial)
    (fun x hx _ => hx.2.enabled hx.1) _ ⟨h,hl⟩
  intro x a y ⟨hx,hl⟩ hn ok
  rcases hx.leave_step hl hn ok with hr | ⟨hP,hle,hlt⟩
  · exact Or.inl ⟨hx.next hn ok,hr⟩
  · exact Or.inr ⟨⟨hx.next hn ok,hP⟩,hle,fun ha => hlt ha.actor⟩

theorem drops (fair : r.Fair fun a => ∃ o,a=.handle o) (h : Sound (r.state n))
    (hr : Reported (r.state n) id) : ∃ m ≥ n,id∉(r.state m).keys := by
  apply r.leadsTo (P := fun x => Sound x ∧ Reported x id) fair (exitAt id)
    (fun x hx hk => hx.1.handle_enabled (not_not.mp hk) hx.2) _ ⟨h,hr⟩
  intro x a y ⟨hx,hr⟩ hn ok
  rcases hx.report_step hr hn with hgone | ⟨hP,hrank⟩
  · exact Or.inl hgone
  · exact Or.inr ⟨⟨hx.next hn ok,hP⟩,hrank⟩

/-- A child that is on its way out is gone at some time. -/
theorem departs (fairLoop : r.Fair fun a => ∃ o,a=.handle o)
    (fairActors : ∀ serial,r.Fair (Proceeds serial)) (h : Sound (r.state n))
    (hd : Departing (r.state n) id) : ∃ m ≥ n,id∉(r.state m).keys := by
  have left {n serial : Nat} (h : Sound (r.state n)) (hl : Leaving (r.state n) serial id) :
      ∃ m ≥ n,id∉(r.state m).keys := by
    obtain ⟨m,hm,hs,hr⟩ := reports r fairActors h hl
    obtain ⟨m',hm',hgone⟩ := drops r fairLoop hs hr
    exact ⟨m',hm.trans hm',hgone⟩
  rcases hd with ⟨⟨serial,hl⟩,hq⟩ | ⟨serial,hl⟩ | hr
  · obtain ⟨m,hm,hs,k,hleave⟩ := leaves r fairActors h hl hq
    obtain ⟨m',hm',hgone⟩ := left hs hleave
    exact ⟨m',hm.trans hm',hgone⟩
  · exact left h hl
  · exact drops r fairLoop h hr

/-- Children leave one after another, and the loop returns with the last one. -/
theorem AllDeparting.ends (fairLoop : r.Fair fun a => ∃ o,a=.handle o)
    (fairActors : ∀ serial,r.Fair (Proceeds serial)) (h : AllDeparting (r.state n)) :
    ∃ m,(r.state m).loop=false := by
  -- on the number of children that are left
  induction hlen : (r.state n).keys.length using Nat.strong_induction_on generalizing n with
  | _ len ih =>
  by_cases hloop : (r.state n).loop=true
  · obtain ⟨c,hc⟩ := List.exists_mem_of_ne_nil _ (h.draining.loop hloop)
    have hk := mem_keys hc
    obtain ⟨m,hm,hgone⟩ := departs r fairLoop fairActors h.toSound (h.departing _ hk)
    have hlater : AllDeparting (r.state m) ∧ (r.state m).keys.Sublist (r.state n).keys := by
      apply r.invariant (P := fun x => AllDeparting x ∧ x.keys.Sublist (r.state n).keys)
        ⟨h,List.Sublist.refl _⟩ _ m hm
      intro x a y ⟨hx,hsub⟩ hn ok
      obtain ⟨hy,hxy⟩ := hx.step hn ok
      exact ⟨hy,hxy.trans hsub⟩
    have hshort : (r.state m).keys.length < (r.state n).keys.length := by
      apply lt_of_le_of_ne hlater.2.length_le
      intro he
      exact hgone (hlater.2.eq_of_length he ▸ hk)
    exact ih _ (hlen ▸ hshort) hlater.1 rfl
  · exact ⟨n,by simpa using hloop⟩

/-- What handling the exit command does. -/
structure StopsAll (b s : State) (m : EventMessage) : Prop where
  keys : s.keys=b.keys
  coroutines : s.coroutines=b.coroutines
  mailboxes : s.mailboxes=stopped b.keys b.mailboxes
  mailbox : b.mailbox.messages=m::s.mailbox.messages
  ended : s.loop=false → s.childrens=[]

theorem stopsAll_of_exit {o : Outcome} {b : State} {m : EventMessage}
    (hn : Manager.next b (.handle o)=some s) (hm : m∈b.mailbox.messages.head?)
    (type : m.type=.cmdExit) : StopsAll b s m := by
  cases next_turn hn with
  | quiet caller => exact absurd rfl (caller o)
  | @handle _ m' rest u done loop head result effect =>
    obtain rfl : m'=m := by simpa [head] using hm
    have hended (hd : done=true) : u.childrens=[] := by
      subst hd
      exact dispatch_ended result effect
    cases effect with
    | ignore _ exit => exact absurd type exit
    | exit =>
      rw [foldl_requestStop] at hended ⊢
      have hc : (taken b m' rest).coroutines=b.coroutines := taken_coroutines (by simp [type])
      cases done with
      | true => exact ⟨rfl,hc,rfl,head,fun _ => hended rfl⟩
      | false => exact ⟨rfl,hc,rfl,head,fun hl => absurd (hl.symm.trans loop) (by decide)⟩
    | reloadAll ht | loadAll ht | reloadOne ht | reloadNew ht | remove ht | crash ht | unknown ht
    | barrier ht | complete ht | single ht | restart ht | erase ht =>
      exact absurd (type.symm.trans ht) (by decide)

namespace StopsAll

variable {b : State} {m : EventMessage}

theorem reported (h : StopsAll b s m) (type : m.type=.cmdExit) :
    Reported s id ↔ Reported b id := by
  constructor
  · rintro ⟨m',hm',hrest⟩
    exact ⟨m',h.mailbox ▸ List.mem_cons_of_mem _ hm',hrest⟩
  · rintro ⟨m',hm',ht,hid⟩
    rw [h.mailbox] at hm'
    rcases List.mem_cons.mp hm' with rfl | hm'
    · exact absurd (type.symm.trans ht) (by decide)
    · exact ⟨m',hm',ht,hid⟩

theorem answering (h : StopsAll b s m) (type : m.type=.cmdExit) :
    Answering s id ↔ Answering b id := by
  rw [Answering,Answering,h.reported type,h.coroutines]

theorem departing (h : StopsAll b s m) (hb : Ledger b) (type : m.type=.cmdExit) (hk : id∈b.keys)
    (room : (b.mailboxes id).messages.length < kMailBoxSize) (ha : Answering b id) :
    Departing s id := by
  have hq : StopQueued s id := by
    refine ⟨stopMessage,?_,rfl⟩
    rw [h.mailboxes,stopped_of_mem hk hb.keys_nodup,Fifo.send_of_lt room]
    simp
  rcases ha with ⟨c,hc,hid,hexited,hretired⟩ | hr
  · rw [← h.coroutines] at hc
    obtain ⟨serial,hserial⟩ := List.mem_iff_getElem?.mp hc
    cases hp : c.phase with
    | launched | running =>
      exact Or.inl ⟨⟨serial,c,hserial,hid,by simp [Coroutine.inLoop,hp]⟩,hq⟩
    | crashed => exact Or.inr (Or.inl ⟨serial,c,hserial,hid,Or.inl hp⟩)
    | leaving => exact Or.inr (Or.inl ⟨serial,c,hserial,hid,Or.inr hp⟩)
    | exited => exact absurd hp hexited
    | retired => exact absurd hp hretired
  · exact Or.inr (Or.inr ((h.reported type).mpr hr))

end StopsAll

/-- After the event loop has handled the exit command it returns, with no child left, in every
fair run exactly if an exit event was still to come from every child at that time, provided that
the first load had returned and every stop request found room. -/
theorem shutdown_terminates {o : Outcome} {b : State} {m : EventMessage}
    (hb : machine.Reachable b) (hload : b.startup=.returned)
    (hm : m∈b.mailbox.messages.head?) (type : m.type=.cmdExit)
    (room : ∀ id∈b.keys,(b.mailboxes id).messages.length < kMailBoxSize)
    (r : machine.Trace Orderly) (hs : machine.next b (.handle o)=some (r.state 0))
    (fairLoop : r.Fair fun a => ∃ o,a=.handle o)
    (fairActors : ∀ serial,r.Fair (Proceeds serial)) :
    (∃ n,(r.state n).loop=false ∧ (r.state n).childrens=[]) ↔ ∀ id∈b.keys,Answering b id := by
  have hledger := reachable_ledger hb
  have hstop := stopsAll_of_exit hs hm type
  have hsound : Sound (r.state 0) :=
    ⟨hledger.next (a := .handle o) hs,draining_of_exit hledger hload hs hm type,hstop.ended⟩
  constructor
  · rintro ⟨n,-,hnil⟩ id hk
    by_contra hno
    have hkeep : ∀ n ≥ 0,Sound (r.state n) ∧ id∈(r.state n).keys ∧ ¬Answering (r.state n) id := by
      apply r.invariant (P := fun x => Sound x ∧ id∈x.keys ∧ ¬Answering x id)
        ⟨hsound,hstop.keys ▸ hk,fun ha => hno ((hstop.answering type).mp ha)⟩
      intro x a y ⟨hx,hk,hno⟩ hn ok
      exact ⟨hx.next hn ok,hx.silent_step hk hno hn ok⟩
    have hstay := (hkeep n (Nat.zero_le n)).2.1
    simp [State.keys,hnil] at hstay
  · intro answers
    have hending : AllDeparting (r.state 0) := ⟨hsound,fun id hid => by
      have hk : id∈b.keys := hstop.keys ▸ hid
      exact hstop.departing hledger type hk (room id hk) (answers id hk)⟩
    obtain ⟨n,hn⟩ := hending.ends r fairLoop fairActors
    have hn' : Sound (r.state n) := by
      apply r.invariant (P := Sound) hsound _ n (Nat.zero_le n)
      exact fun _ _ _ hx hn ok => hx.next hn ok
    exact ⟨n,hn,hn'.ended hn⟩

end Run

section Runs

open Machine

instance (s : State) (id : Nat) : Decidable (Answering s id) :=
  inferInstanceAs (Decidable ((∃ c∈s.coroutines,_) ∨ ∃ m∈s.mailbox.messages,_))

/-- Neither the manager nor a coroutine has anything left to do. -/
def Stuck (s : State) : Prop :=
  (s.loop=false ∨ s.mailbox.messages=[]) ∧
    ∀ c∈s.coroutines,c.phase=.exited ∨ c.phase=.retired

instance (s : State) : Decidable (Stuck s) := inferInstanceAs (Decidable (_ ∧ _))

theorem Stuck.not_handle {s : State} (h : Stuck s) :
    ¬machine.Enabled (fun a => ∃ o,a=.handle o) s := by
  rintro ⟨_,t,⟨o,rfl⟩,hn⟩
  obtain ⟨m,rest,hloop,hm,-⟩ := handle_cases hn
  rcases h.1 with hl | hnil
  · exact absurd (hl.symm.trans hloop) (by decide)
  · simp [hnil] at hm

theorem Stuck.not_actor {s : State} (h : Stuck s) (serial : Nat) :
    ¬machine.Enabled (Proceeds serial) s := by
  rintro ⟨_,t,⟨st,rfl,-⟩,hn⟩
  obtain ⟨c,hc,move⟩ := next_actor hn
  rcases h.2 c (List.mem_of_getElem? hc) with hp | hp
  · exact move.active.1 hp
  · exact move.active.2 hp

/-- The state in which the exit command is handled, as `shutdown_terminates` needs it. -/
structure ExitNext (o : Outcome) (b : State) (r : machine.Trace Orderly) : Prop where
  reachable : machine.Reachable b
  loaded : b.startup=.returned
  head : exitMessage∈b.mailbox.messages.head?
  room : ∀ id∈b.keys,(b.mailboxes id).messages.length < kMailBoxSize
  handled : machine.next b (.handle o)=some (r.state 0)
  fairLoop : r.Fair fun a => ∃ o,a=.handle o
  fairActors : ∀ serial,r.Fair (Proceeds serial)

/-- A run that loads the modules and executes to the exit command, and from there until there is
nothing left to do. -/
theorem exists_exitNext (names : List String) (as l : List Action) (o : Outcome)
    (p : State → Bool)
    (h : (machine.exec anyStep (init (listing names)) (loading names++as)).any (fun b =>
      decide (b.startup=.returned ∧ exitMessage∈b.mailbox.messages.head?) &&
      decide (∀ id∈b.keys,(b.mailboxes id).messages.length < kMailBoxSize) &&
      ((machine.next b (.handle o)).any fun s => (machine.exec Orderly s l).any (Stuck ·)) &&
      p b)=true) :
    ∃ b r,ExitNext o b r ∧ p b=true := by
  obtain ⟨b,hb,hp⟩ := machine.exists_reachableBy _ _ _ (init_start (listing names)) h
  simp only [Bool.and_eq_true,decide_eq_true_eq,Option.any_eq_true] at hp
  obtain ⟨⟨⟨⟨hload,hhead⟩,hroom⟩,s,hs,t,ht,hstuck⟩,hpb⟩ := hp
  let r := Trace.ofList machine Orderly s l (Option.isSome_iff_exists.mpr ⟨t,ht⟩)
  have hend {n : Nat} (hn : n ≥ l.length) : r.state n=t := Trace.ofList_stops ht hn
  refine ⟨b,r,⟨hb,hload,hhead,hroom,hs,?_,fun serial => ?_⟩,hpb⟩
  · exact r.fair_of_disabled ⟨l.length,fun k hk => hend hk ▸ hstuck.not_handle⟩
  · exact r.fair_of_disabled ⟨l.length,fun k hk => hend hk ▸ hstuck.not_actor serial⟩

/-- A child that runs lets the loop return. A child that waits for the others at the barrier of a
reload of all modules does not: its exit event was handled and it will not send another one. -/
theorem shutdown_terminates_or_waits :
    (∃ o b r,ExitNext o b r ∧ b.keys=[1] ∧
      ∃ n,(r.state n).loop=false ∧ (r.state n).childrens=[]) ∧
    ∃ o b r,ExitNext o b r ∧ b.keys=[1,2] ∧
      ¬∃ n,(r.state n).loop=false ∧ (r.state n).childrens=[] := by
  constructor
  · obtain ⟨b,r,h,hp⟩ := exists_exitNext ["m"] [.shutdown,.clearRunning,.sendExit]
      [.actor 0 .start,.actor 0 (.receive false),.actor 0 .exit,.handle (opening ["m"])]
      (opening ["m"]) (fun b => b.keys=[1] ∧ ∀ id∈b.keys,Answering b id) (by decide +kernel)
    simp only [decide_eq_true_eq] at hp
    exact ⟨_,b,r,h,hp.1,(shutdown_terminates h.reachable h.loaded h.head rfl h.room r h.handled
      h.fairLoop h.fairActors).mpr hp.2⟩
  · obtain ⟨b,r,h,hp⟩ := exists_exitNext ["m","n"]
      [.reloadModule "all",.handle (opening ["m","n"]),.actor 0 .start,
        .actor 0 (.receive false),.actor 0 .exit,.handle (opening ["m","n"]),.shutdown,
        .clearRunning,.sendExit]
      [.actor 1 .start,.actor 1 (.receive false),.actor 1 .exit,.handle (opening ["m","n"])]
      (opening ["m","n"]) (fun b => b.keys=[1,2] ∧ ¬Answering b 1) (by decide +kernel)
    simp only [decide_eq_true_eq] at hp
    refine ⟨_,b,r,h,hp.1,fun hends => hp.2 ?_⟩
    exact (shutdown_terminates h.reachable h.loaded h.head rfl h.room r h.handled h.fairLoop
      h.fairActors).mp hends 1 (by simp [hp.1])

end Runs

end Acnet.Manager
