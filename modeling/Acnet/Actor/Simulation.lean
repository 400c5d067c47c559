import Acnet.Actor.Containment
import Acnet.Framework.Machine

namespace Acnet.Launch

open Manager (State Coroutine Phase ActorStep kMailBoxSize)

/-- The step of the manager's model that an event stands for; it does not see the others. -/
def Event.actorStep : Event → Option ActorStep
  | .notReady | .create none => some .startNull
  | .create (some _) => some .start
  | .threw _ => some .throw
  | .processEvent _ thrown => some (.receive thrown.isSome)
  | .stop _ => some (.receive false)
  | .crashReport _ => some .report
  | .exited _ => some .exit
  | _ => none

/-- What an event sends to the manager. Its model does not keep the text of a crash report. -/
def Event.sent : Event → Option EventMessage
  | .crashReport m => some {m with payload := ""}
  | .exited m => some m
  | _ => none

/-- The manager's model goes along with a trace of its coroutine `serial`. -/
inductive Follows (serial : Nat) : State → List Event → State → Prop
  | nil {s : State} : Follows serial s [] s
  | silent {s t : State} {e : Event} {es : List Event} (he : e.actorStep=none)
      (h : Follows serial s es t) : Follows serial s (e::es) t
  | step {s u t : State} {e : Event} {es : List Event} {a : ActorStep} (he : e.actorStep=some a)
      (hn : Manager.next s (.actor serial a)=some u) (h : Follows serial u es t) :
      Follows serial s (e::es) t

namespace Follows

variable {serial : Nat} {s t u : State} {es fs : List Event}

theorem append (h : Follows serial s es t) (h' : Follows serial t fs u) :
    Follows serial s (es++fs) u := by
  induction h with
  | nil => exact h'
  | silent he _ ih => exact .silent he (ih h')
  | step he hn _ ih => exact .step he hn (ih h')

theorem steps (h : Follows serial s es t) : Manager.machine.Steps Machine.anyStep s t := by
  induction h with
  | nil => exact .refl
  | silent _ _ ih => exact ih
  | @step s u _ _ _ a _ hn _ ih =>
    have hs : Manager.machine.next s (.actor serial a)=some u := hn
    exact (Machine.Steps.tail .refl hs trivial).trans ih

end Follows

/-- The part of the manager's model that a coroutine works on once the scheduler has it: its
entry, the messages in its mailbox and the mailbox of the manager. -/
structure View (s : State) (serial : Nat) (c : Coroutine) (inbox : List EventMessage)
    (box : Fifo EventMessage) : Prop where
  coroutine : s.coroutines[serial]?=some c
  inbox : (s.mailboxes c.actorId).messages=inbox
  mailbox : s.mailbox=box
  enqueued : s.startup.holds serial=false

namespace View

variable {s : State} {serial : Nat} {c : Coroutine} {inbox : List EventMessage}
  {box : Fifo EventMessage}

theorem setPhase (h : View s serial c inbox box) (c' : Coroutine) (hc : c'.actorId=c.actorId)
    (phase : Phase) :
    View (s.setPhase serial c' phase) serial {c' with phase := phase} inbox box where
  coroutine := by
    obtain ⟨hl,-⟩ := List.getElem?_eq_some_iff.mp h.coroutine
    simp [State.setPhase,hl]
  inbox := by
    change (s.mailboxes c'.actorId).messages=inbox
    rw [hc,h.inbox]
  mailbox := h.mailbox
  enqueued := h.enqueued

theorem take (h : View s serial c inbox box) (rest : List EventMessage) :
    View (s.setMailbox c.actorId {s.mailboxes c.actorId with messages := rest})
      serial c rest box where
  coroutine := h.coroutine
  inbox := by simp [State.setMailbox]
  mailbox := h.mailbox
  enqueued := h.enqueued

theorem sendManager (h : View s serial c inbox box) (m : EventMessage) :
    View (s.sendManager m) serial c inbox (box.send kMailBoxSize m) where
  coroutine := h.coroutine
  inbox := h.inbox
  mailbox := by rw [← h.mailbox]; rfl
  enqueued := h.enqueued

theorem next_actor (h : View s serial c inbox box) (a : ActorStep) :
    Manager.next s (.actor serial a)=Manager.actorStep s serial c a := by
  simp [Manager.next,h.coroutine,h.enqueued]

end View

/-- The phase in which the manager's model has a coroutine whose `try` block ended so. -/
def phaseOf : Ending Raised ActorExitState → Phase
  | .value _ => .leaving
  | .thrown _ => .crashed
  | .waiting => .running

section Inner

variable {serial : Nat} {s : State} {c : Coroutine} {box : Fifo EventMessage}

theorem loop_follows (p : Plugin) (k : Nat) {inbox : List EventMessage}
    (h : View s serial c inbox box) (hp : c.phase=.running) :
    ∃ t c' rest,Follows serial s (loop p k inbox).trace t ∧ View t serial c' rest box ∧
      c'.actorId=c.actorId ∧ c'.phase=phaseOf (loop p k inbox).ending := by
  induction inbox generalizing k s c with
  | nil => exact ⟨s,c,[],.nil,h,rfl,hp⟩
  | cons m rest ih =>
    by_cases hm : m.type=.cmdModuleStop
    · have hn := h.next_actor (.receive false)
      simp only [Manager.actorStep,hp,h.inbox,hm,if_true] at hn
      have hl : loop p k (m::rest)=⟨[.stop m,.release m],.value .success⟩ := by
        simp [loop,hm]
      rw [hl]
      have hv := (h.take rest).setPhase {c with stopped := true} rfl .leaving
      exact ⟨_,_,rest,.step rfl hn (.silent rfl .nil),hv,rfl,rfl⟩
    · have hn := h.next_actor (.receive (p.processEvent k m).isSome)
      simp only [Manager.actorStep,hp,h.inbox,hm,if_false] at hn
      cases ht : p.processEvent k m with
      | some e =>
        have hl : loop p k (m::rest)=⟨[.processEvent m (some e)],.thrown (e,some m)⟩ := by
          simp [loop,hm,ht]
        rw [hl]
        rw [ht] at hn
        exact ⟨_,_,rest,.step rfl hn .nil,(h.take rest).setPhase c rfl _,rfl,rfl⟩
      | none =>
        have hl : loop p k (m::rest)=
            ⟨.processEvent m none::.release m::(loop p (k+1) rest).trace,
              (loop p (k+1) rest).ending⟩ := by
          simp [loop,hm,ht]
        rw [ht] at hn
        obtain ⟨t,c',rest',hf,hv,hid,hph⟩ := ih (k+1) ((h.take rest).setPhase c rfl .running) rfl
        rw [hl]
        exact ⟨t,c',rest',.step rfl hn (.silent rfl hf),hv,hid,hph⟩

theorem tryBlock_follows (before : Option Thrown) (p : Plugin) {inbox : List EventMessage}
    (h : View s serial c inbox box) (hp : c.phase=.running) :
    ∃ t c' rest,Follows serial s (tryBlock before p inbox).trace t ∧ View t serial c' rest box ∧
      c'.actorId=c.actorId ∧ c'.phase=phaseOf (tryBlock before p inbox).ending := by
  cases before with
  | none => exact loop_follows p 0 h hp
  | some e =>
    have hn := h.next_actor .throw
    simp only [Manager.actorStep,hp,if_true] at hn
    exact ⟨_,_,inbox,.step rfl hn .nil,h.setPhase c rfl _,rfl,rfl⟩

end Inner

section Life

variable {serial : Nat} {s : State} {c : Coroutine} {inbox : List EventMessage}
  {box : Fifo EventMessage}

/-- The manager's mailbox after a trace. -/
def sends (box : Fifo EventMessage) (es : List Event) : Fifo EventMessage :=
  (es.filterMap Event.sent).foldl (fun b m => b.send kMailBoxSize m) box

theorem sent_inner {q : List Event} (hq : ∀ e∈q,e.isInner=true) :
    q.filterMap Event.sent=[] := by
  rw [List.filterMap_eq_nil_iff]
  intro e he
  have hi := hq e he
  cases e <;> simp_all [Event.isInner,Event.sent]

/-- The releases in the handler. -/
theorem Follows.releases (msg : Option EventMessage) :
    Follows serial s (msg.toList.map .release) s := by
  cases msg with
  | none => exact .nil
  | some m => exact .silent rfl .nil

theorem View.reports (h : View s serial c inbox box) (hp : c.phase=.crashed)
    (msg : Option EventMessage) (what : String) :
    ∃ t,Follows serial s [.crashReport (crashMessage c.actorId serial msg what)] t ∧
      View t serial {c with phase := .leaving} inbox
        (box.send kMailBoxSize ⟨.crashReport,c.actorId,"",serial⟩) := by
  have hn := h.next_actor .report
  simp only [Manager.actorStep,hp,if_true] at hn
  exact ⟨_,.step rfl hn .nil,(h.sendManager _).setPhase c rfl _⟩

theorem View.exits (h : View s serial c inbox box) (hp : c.phase=.leaving) :
    ∃ t c',Follows serial s [.exited (exitMessage c.actorId serial)] t ∧
      View t serial c' inbox (box.send kMailBoxSize (exitMessage c.actorId serial)) ∧
      c'.phase=.exited := by
  have hn := h.next_actor .exit
  simp only [Manager.actorStep,hp,if_true] at hn
  exact ⟨_,_,.step rfl hn .nil,(h.sendManager _).setPhase c rfl _,rfl⟩

def Status.phase : Status → Phase
  | .finished => .exited
  | .suspended => .running
  | .terminated => .crashed

theorem Course.follows {before : Option Thrown} {module : Option Plugin} {l : Life}
    (h : Course before module c.actorId serial inbox l)
    (hid : ∀ p actor,module=some p → p.createFunc c.actorId=some actor → actor=c.actorId)
    (hv : View s serial c inbox box) (hp : c.phase=.launched) :
    ∃ t c' rest,Follows serial s l.trace t ∧ View t serial c' rest (sends box l.trace) ∧
      c'.phase=l.status.phase := by
  have start : Manager.next s (.actor serial .start)=some (s.setPhase serial c .running) := by
    simp [hv.next_actor,Manager.actorStep,hp]
  have hr := hv.setPhase c rfl .running
  cases h with
  | absent he =>
    have null : Manager.next s (.actor serial .startNull)=some (s.setPhase serial c .leaving) := by
      simp [hv.next_actor,Manager.actorStep,hp]
    obtain ⟨t,c',hf,ht,hph⟩ := (hv.setPhase c rfl .leaving).exits rfl
    rcases he with rfl | rfl
    · exact ⟨t,c',inbox,.step rfl null hf,ht,hph⟩
    · exact ⟨t,c',inbox,.step rfl null hf,ht,hph⟩
  | @working p actor hm ha hx =>
    obtain ⟨t,c',rest,hf,ht,-,hph⟩ := tryBlock_follows before p hr rfl
    refine ⟨t,c',rest,.step rfl start (.silent rfl hf),?_,?_⟩
    · simpa [sends,List.filterMap_cons,Event.sent,
        sent_inner (tryBlock_inner before p inbox)] using ht
    · rw [hph,hx]
      rfl
  | @stopped p actor hm ha hx =>
    obtain ⟨t,c',rest,hf,ht,hc,hph⟩ := tryBlock_follows before p hr rfl
    rw [hx] at hph
    obtain ⟨u,d,hg,hu,hd⟩ := ht.exits hph
    rw [hc] at hg hu
    refine ⟨u,d,rest,.step rfl start (.silent rfl (hf.append (.silent rfl (.silent rfl hg)))),
      ?_,hd⟩
    simpa [sends,List.filterMap_cons,Event.sent,
      sent_inner (tryBlock_inner before p inbox)] using hu
  | @crashed p actor msg what hm ha hx =>
    obtain rfl := hid p actor hm ha
    obtain ⟨t,c',rest,hf,ht,hc,hph⟩ := tryBlock_follows before p hr rfl
    rw [hx] at hph
    obtain ⟨u,hg,hu⟩ := ht.reports hph msg what
    obtain ⟨w,d,hk,hw,hd⟩ := hu.exits rfl
    rw [hc] at hg hk hw
    have hmsg : (msg.toList.map Event.release).filterMap Event.sent=[] := by
      cases msg <;> rfl
    refine ⟨w,d,rest,.step rfl start (.silent rfl (hf.append ((Follows.releases msg).append
      (hg.append (.silent rfl (.silent rfl (.silent rfl hk))))))),?_,hd⟩
    simpa [sends,List.filterMap_cons,Event.sent,hmsg,
      sent_inner (tryBlock_inner before p inbox),crashMessage] using hw

/-- A launch that the manager makes in a reachable state lives as its model says: the state after
it is reachable, and the manager has been sent what the life sends. -/
theorem Tame.reachable {before : Option Thrown} {module : Option Plugin}
    (h : Tame before module c.actorId inbox)
    (hid : ∀ p actor,module=some p → p.createFunc c.actorId=some actor → actor=c.actorId)
    (hs : Manager.machine.Reachable s) (hv : View s serial c inbox box) (hp : c.phase=.launched) :
    ∃ t c',Manager.machine.Reachable t ∧ t.coroutines[serial]?=some c' ∧
      c'.phase=(life before module c.actorId serial inbox).status.phase ∧
      t.mailbox=sends s.mailbox (life before module c.actorId serial inbox).trace := by
  obtain ⟨t,c',rest,hf,ht,hph⟩ := h.course.follows hid hv hp
  refine ⟨t,c',hs.steps hf.steps,ht.coroutine,hph,?_⟩
  rw [ht.mailbox,hv.mailbox]

end Life

end Acnet.Launch
