import Acnet.Actor.Containment
import Acnet.Framework.Machine

/-!
`RunCoroutine` statement by statement, with its `msg` pointer and its suspensions, while messages
arrive. The computation `runCoroutine` of a finished inbox is what its runs amount to.
-/

namespace Acnet.RunCoroutine

open Launch Traced

/-- Where the coroutine is: before its loop, in the loop, in its handler, or through. -/
inductive Pc where
  | entry
  | receive
  | dispatch
  | releaseStop
  | release
  | wait
  | handler (e : Thrown)
  | report (what : String) (type : EventType)
  | errorHandle (what : String)
  | returned (state : ActorExitState)
  | escaped (e : Thrown)
  deriving DecidableEq

/-- The coroutine and its mailbox. `calls` is what the module remembers of its `ProcessEvent`;
`arrived`, `received` and `trace` are not in the source. -/
structure State where
  inbox : List EventMessage
  msg : Option EventMessage
  calls : Nat
  pc : Pc
  arrived : List EventMessage
  received : List EventMessage
  trace : List Event

namespace State

def emit (s : State) (e : Event) (pc : Pc) : State := {s with pc := pc,trace := s.trace++[e]}

/-- `event_message_release(&msg)`: nothing happens to a null pointer, and it is null after it. -/
def release (s : State) (pc : Pc) : State :=
  {s with msg := none,pc := pc,trace := s.trace++s.msg.toList.map Event.release}

end State

/-- The crash report names the type that was read before the message was released. -/
def crashReportMessage (actor serial : Nat) (type : EventType) (what : String) : EventMessage :=
  ⟨.crashReport,actor,
    "[NetActor id: "++toString actor++"] event_type: "
      ++eventTypeToString type++", error: "++what,
    serial⟩

theorem crashReportMessage_eq (actor serial : Nat) (msg : Option EventMessage) (what : String) :
    crashReportMessage actor serial ((msg.map (·.type)).getD .none) what=
      crashMessage actor serial msg what := rfl

section Machine

variable (before : Option Thrown) (actor serial : Nat) (p : Plugin)

def step (s : State) : Option State :=
  match s.pc with
  | .entry =>
      match before with
      | some e => some (s.emit (.threw e) (.handler e))
      | none => some {s with pc := .receive}
  | .receive =>
      match s.inbox with
      | [] => some {s with pc := .wait}
      | m::rest =>
          some {s with inbox := rest,msg := some m,pc := .dispatch,received := s.received++[m]}
  | .dispatch =>
      match s.msg with
      | none => none
      | some m =>
          if m.type=.cmdModuleStop then some (s.emit (.stop m) .releaseStop)
          else match p.processEvent s.calls m with
            | none => some ({s with calls := s.calls+1}.emit (.processEvent m none) .release)
            | some e =>
                some ({s with calls := s.calls+1}.emit (.processEvent m (some e)) (.handler e))
  | .releaseStop => some (s.release (.returned .success))
  | .release => some (s.release .receive)
  | .wait => some {s with pc := .receive}
  | .handler .other => some {s with pc := .escaped .other}
  | .handler (.std what) => some (s.release (.report what ((s.msg.map (·.type)).getD .none)))
  | .report what type =>
      some (s.emit (.crashReport (crashReportMessage actor serial type what)) (.errorHandle what))
  | .errorHandle what =>
      match p.errorHandle what with
      | none => some (s.emit (.errorHandle what) (.returned .failure))
      | some e => some (s.emit (.errorHandle what) (.escaped e))
  | .returned _ | .escaped _ => none

/-- A message arrives, or the coroutine takes its next step; from `Wait` it comes back at once,
or resumed at any time. -/
inductive Action where
  | arrive (m : EventMessage)
  | step

def next (s : State) : Action → Option State
  | .arrive m => some {s with inbox := s.inbox++[m],arrived := s.arrived++[m]}
  | .step => step before actor serial p s

def init : State := ⟨[],none,0,.entry,[],[],[]⟩

def machine : Machine State Action where
  start s := s=init
  next := next before actor serial p

/-- The steps that do not wait for a message to arrive. -/
def stepOnly : State → Action → State → Prop
  | _,.arrive _,_ => False
  | _,.step,_ => True

end Machine

def processedMessage : Event → Option EventMessage
  | .processEvent m _ => some m
  | _ => none

def releasedMessage : Event → Option EventMessage
  | .release m => some m
  | _ => none

namespace State

def processed (s : State) : List EventMessage := s.trace.filterMap processedMessage

def released (s : State) : List EventMessage := s.trace.filterMap releasedMessage

/-- The message on which `ProcessEvent` threw, with what it threw. -/
def Threw (s : State) (m : EventMessage) (e : Thrown) : Prop :=
  .processEvent m (some e)∈s.trace

def Done (s : State) : Prop := (∃ r,s.pc=.returned r) ∨ ∃ e,s.pc=.escaped e

/-- Nothing is left to do for the messages that have arrived. -/
def Settled (s : State) : Prop := s.Done ∨ s.pc=.wait ∧ s.inbox=[]

end State

/-- The messages that precede the first stop request, up to the first on which `ProcessEvent`
throws; its calls are counted from `k`. -/
def handled (p : Plugin) : Nat → List EventMessage → List EventMessage
  | _,[] => []
  | k,m::rest =>
      if m.type=.cmdModuleStop then []
      else match p.processEvent k m with
        | some _ => [m]
        | none => m::handled p (k+1) rest

/-- The semantics of an actor's loop, in every state of every run. -/
structure Obeys (before : Option Thrown) (actor serial : Nat) (p : Plugin) (s : State) : Prop where
  settles : ∃ t,(machine before actor serial p).Steps stepOnly s t ∧ t.Settled
  order : s.processed <+: handled p 0 s.arrived
  complete : s.Settled → s.processed=handled p 0 s.arrived
  released : s.released++s.msg.toList=s.received
  releasedAll : s.Done → s.released=s.received
  success : s.Done → (s.pc=.returned .success ↔ ∃ m∈s.received,m.type=.cmdModuleStop)
  failure : s.Done → (s.pc=.returned .failure ↔ ∃ m e,s.Threw m e)
  report : s.pc=.returned .failure → ∃ m what,s.Threw m (.std what) ∧
    s.trace.filter Event.isCrashReport=[.crashReport (crashReportMessage actor serial m.type what)]
  silent : s.pc=.returned .success → s.trace.filter Event.isCrashReport=[]

section Loop

variable {p : Plugin} {k : Nat} {ms : List EventMessage}

/-- More messages for a loop that has come to wait. -/
theorem loop_append (h : (loop p k ms).ending=.waiting) (rest : List EventMessage) :
    loop p k (ms++rest)=⟨(loop p k ms).trace++(loop p (k+ms.length) rest).trace,
      (loop p (k+ms.length) rest).ending⟩ := by
  induction ms generalizing k with
  | nil => rfl
  | cons x ms ih =>
    by_cases hx : x.type=.cmdModuleStop
    · simp [loop,hx] at h
    · cases hp : p.processEvent k x with
      | some e => simp [loop,hx,hp] at h
      | none =>
        have hrest : (loop p (k+1) ms).ending=.waiting := by simpa [loop,hx,hp] using h
        have hlen : k+(ms.length+1)=k+1+ms.length := by omega
        rw [List.cons_append,List.length_cons,hlen]
        simp [loop,hx,hp,ih hrest]

/-- A message that the loop is through with. -/
def served (m : EventMessage) : List Event := [.processEvent m none,.release m]

/-- A loop that has come to wait is through with all its messages. -/
theorem loop_waiting (h : (loop p k ms).ending=.waiting) :
    (loop p k ms).trace=ms.flatMap served ∧ ∀ m∈ms,m.type≠.cmdModuleStop := by
  induction ms generalizing k with
  | nil => simp [loop,wait]
  | cons x ms ih =>
    by_cases hx : x.type=.cmdModuleStop
    · simp [loop,hx] at h
    · cases hp : p.processEvent k x with
      | some e => simp [loop,hx,hp] at h
      | none =>
        obtain ⟨ht,hm⟩ := ih (k := k+1) (by simpa [loop,hx,hp] using h)
        constructor
        · simp [loop,hx,hp,ht,served]
        · simpa [hx] using hm

theorem handled_append (h : (loop p k ms).ending=.waiting) (rest : List EventMessage) :
    handled p k (ms++rest)=ms++handled p (k+ms.length) rest := by
  induction ms generalizing k with
  | nil => rfl
  | cons x ms ih =>
    by_cases hx : x.type=.cmdModuleStop
    · simp [loop,hx] at h
    · cases hp : p.processEvent k x with
      | some e => simp [loop,hx,hp] at h
      | none =>
        have hrest : (loop p (k+1) ms).ending=.waiting := by simpa [loop,hx,hp] using h
        have hlen : k+(ms.length+1)=k+1+ms.length := by omega
        rw [List.length_cons,hlen]
        simp [handled,hx,hp,ih hrest]

end Loop

section Invariant

variable {before : Option Thrown} {actor serial : Nat} {p : Plugin} {s t : State}

/-- The loop has handled the messages `ms` and none of them made it stop or throw. -/
structure Served (before : Option Thrown) (p : Plugin) (ms : List EventMessage)
    (trace : List Event) : Prop where
  unthrown : before=none
  waiting : loop p 0 ms=⟨trace,.waiting⟩

/-- An exception has left the `try` block: the one thrown before the loop, or one out of
`ProcessEvent` on the last message received. -/
inductive Raises (before : Option Thrown) (p : Plugin) :
    List EventMessage → List Event → Thrown → Option EventMessage → Prop
  | entry {e : Thrown} (h : before=some e) : Raises before p [] [.threw e] e none
  | process {ms : List EventMessage} {trace : List Event} {m : EventMessage} {e : Thrown}
      (h : Served before p ms trace) (hm : m.type≠.cmdModuleStop)
      (he : p.processEvent ms.length m=some e) :
      Raises before p (ms++[m]) (trace++[.processEvent m (some e)]) e (some m)

/-- What the handler does before it calls `error_handle`. -/
def reported (actor serial : Nat) (msg : Option EventMessage) (what : String) : List Event :=
  msg.toList.map Event.release++[.crashReport (crashMessage actor serial msg what)]

/-- What has happened by the time the coroutine is at its program point: its pointer, the calls
of `ProcessEvent`, the messages received and the trace. -/
inductive Here (before : Option Thrown) (actor serial : Nat) (p : Plugin) :
    Pc → Option EventMessage → Nat → List EventMessage → List Event → Prop
  | entry : Here before actor serial p .entry none 0 [] []
  | receive {ms : List EventMessage} {t : List Event} (h : Served before p ms t) :
      Here before actor serial p .receive none ms.length ms t
  | wait {ms : List EventMessage} {t : List Event} (h : Served before p ms t) :
      Here before actor serial p .wait none ms.length ms t
  | dispatch {ms : List EventMessage} {t : List Event} {m : EventMessage}
      (h : Served before p ms t) :
      Here before actor serial p .dispatch (some m) ms.length (ms++[m]) t
  | releaseStop {ms : List EventMessage} {t : List Event} {m : EventMessage} {calls : Nat}
      (h : Served before p ms t) (hm : m.type=.cmdModuleStop) :
      Here before actor serial p .releaseStop (some m) calls (ms++[m]) (t++[.stop m])
  | release {ms : List EventMessage} {t : List Event} {m : EventMessage}
      (h : Served before p ms t) (hm : m.type≠.cmdModuleStop)
      (he : p.processEvent ms.length m=none) :
      Here before actor serial p .release (some m) (ms.length+1) (ms++[m])
        (t++[.processEvent m none])
  | handler {ms : List EventMessage} {t : List Event} {msg : Option EventMessage} {e : Thrown}
      {calls : Nat} (h : Raises before p ms t e msg) :
      Here before actor serial p (.handler e) msg calls ms t
  | report {ms : List EventMessage} {t : List Event} {msg : Option EventMessage} {what : String}
      {calls : Nat} (h : Raises before p ms t (.std what) msg) :
      Here before actor serial p (.report what ((msg.map (·.type)).getD .none)) none calls ms
        (t++msg.toList.map Event.release)
  | errorHandle {ms : List EventMessage} {t : List Event} {msg : Option EventMessage}
      {what : String} {calls : Nat} (h : Raises before p ms t (.std what) msg) :
      Here before actor serial p (.errorHandle what) none calls ms
        (t++reported actor serial msg what)
  | success {ms : List EventMessage} {t : List Event} {m : EventMessage} {calls : Nat}
      (h : Served before p ms t) (hm : m.type=.cmdModuleStop) :
      Here before actor serial p (.returned .success) none calls (ms++[m])
        (t++[.stop m,.release m])
  | failure {ms : List EventMessage} {t : List Event} {msg : Option EventMessage} {what : String}
      {calls : Nat} (h : Raises before p ms t (.std what) msg) (hw : p.errorHandle what=none) :
      Here before actor serial p (.returned .failure) none calls ms
        (t++(reported actor serial msg what++[.errorHandle what]))
  | uncaught {ms : List EventMessage} {t : List Event} {msg : Option EventMessage} {calls : Nat}
      (h : Raises before p ms t .other msg) :
      Here before actor serial p (.escaped .other) msg calls ms t
  | rethrown {ms : List EventMessage} {t : List Event} {msg : Option EventMessage}
      {what : String} {e : Thrown} {calls : Nat} (h : Raises before p ms t (.std what) msg)
      (hw : p.errorHandle what=some e) :
      Here before actor serial p (.escaped e) none calls ms
        (t++(reported actor serial msg what++[.errorHandle what]))

structure Inv (before : Option Thrown) (actor serial : Nat) (p : Plugin) (s : State) : Prop where
  arrived : s.arrived=s.received++s.inbox
  here : Here before actor serial p s.pc s.msg s.calls s.received s.trace

theorem init_inv : Inv before actor serial p init := ⟨rfl,.entry⟩

/-- The loop is through with one more message. -/
theorem Served.snoc {ms : List EventMessage} {m : EventMessage} {trace : List Event}
    (h : Served before p ms trace) (hm : m.type≠.cmdModuleStop)
    (he : p.processEvent ms.length m=none) :
    Served before p (ms++[m]) (trace++served m) := by
  refine ⟨h.unthrown,?_⟩
  have hs := loop_append (congrArg Traced.ending h.waiting) [m]
  rw [h.waiting] at hs
  simpa [loop,hm,he,served,wait] using hs

theorem step_inv (h : Inv before actor serial p s) (hn : step before actor serial p s=some t) :
    Inv before actor serial p t := by
  obtain ⟨inbox,msg,calls,pc,arrived,received,trace⟩ := s
  have harr : arrived=received++inbox := h.arrived
  have hhere : Here before actor serial p pc msg calls received trace := h.here
  cases hhere with
  | entry =>
    cases hb : before with
    | none =>
      simp only [step,hb] at hn
      cases hn
      have hs : Served none p [] [] := ⟨rfl,rfl⟩
      exact ⟨harr,.receive hs⟩
    | some e =>
      simp only [step,hb] at hn
      cases hn
      exact ⟨harr,.handler (.entry rfl)⟩
  | receive hs =>
    cases inbox with
    | nil =>
      cases hn
      exact ⟨harr,.wait hs⟩
    | cons m rest =>
      cases hn
      exact ⟨by simpa using harr,.dispatch hs⟩
  | @dispatch ms _ m hs =>
    by_cases hm : m.type=.cmdModuleStop
    · simp only [step,if_pos hm] at hn
      cases hn
      exact ⟨harr,.releaseStop hs hm⟩
    · cases he : p.processEvent ms.length m with
      | none =>
        simp only [step,if_neg hm,he] at hn
        cases hn
        exact ⟨harr,.release hs hm he⟩
      | some e =>
        simp only [step,if_neg hm,he] at hn
        cases hn
        exact ⟨harr,.handler (.process hs hm he)⟩
  | releaseStop hs hm =>
    cases hn
    refine ⟨harr,?_⟩
    simpa [State.release] using Here.success hs hm
  | @release ms t m hs hm he =>
    cases hn
    refine ⟨harr,?_⟩
    simpa [State.release,served] using Here.receive (hs.snoc hm he)
  | wait hs =>
    cases hn
    exact ⟨harr,.receive hs⟩
  | @handler _ _ _ e _ hr =>
    cases e with
    | other =>
      cases hn
      exact ⟨harr,.uncaught hr⟩
    | std what =>
      cases hn
      exact ⟨harr,.report hr⟩
  | @report _ t msg what _ hr =>
    cases hn
    refine ⟨harr,?_⟩
    have he : Here before actor serial p (.errorHandle what) none calls received _ :=
      .errorHandle hr
    simpa [State.emit,reported,crashReportMessage_eq] using he
  | @errorHandle _ _ _ what _ hr =>
    cases hw : p.errorHandle what with
    | none =>
      simp only [step,hw] at hn
      cases hn
      refine ⟨harr,?_⟩
      simpa [State.emit] using Here.failure hr hw
    | some e =>
      simp only [step,hw] at hn
      cases hn
      refine ⟨harr,?_⟩
      simpa [State.emit] using Here.rethrown hr hw
  | success | failure | uncaught | rethrown => cases hn

theorem next_inv {a : Action} (h : Inv before actor serial p s)
    (hn : next before actor serial p s a=some t) : Inv before actor serial p t := by
  cases a with
  | arrive m =>
    cases hn
    exact ⟨by simp [h.arrived],h.here⟩
  | step => exact step_inv h hn

theorem reachable_inv (h : (machine before actor serial p).Reachable s) :
    Inv before actor serial p s := by
  apply h.invariant
  · rintro x rfl
    exact init_inv
  · intro x a y hi hn _
    exact next_inv hi hn

end Invariant

section Observations

variable {before : Option Thrown} {actor serial : Nat} {p : Plugin} {ms rest : List EventMessage}
  {trace : List Event} {e : Thrown} {msg : Option EventMessage}

namespace Served

variable (h : Served before p ms trace)
include h

theorem trace_eq : trace=ms.flatMap served := by
  have ht := (loop_waiting (congrArg Traced.ending h.waiting)).1
  rwa [h.waiting] at ht

theorem not_stop : ∀ m∈ms,m.type≠.cmdModuleStop :=
  (loop_waiting (congrArg Traced.ending h.waiting)).2

theorem handled_append (rest : List EventMessage) :
    handled p 0 (ms++rest)=ms++handled p ms.length rest := by
  have ha := RunCoroutine.handled_append (congrArg Traced.ending h.waiting) rest
  rwa [Nat.zero_add] at ha

theorem processed : trace.filterMap processedMessage=ms := by
  rw [h.trace_eq]
  clear h
  induction ms with
  | nil => rfl
  | cons m ms ih => simpa [served,processedMessage,List.filterMap_cons] using ih

theorem released : trace.filterMap releasedMessage=ms := by
  rw [h.trace_eq]
  clear h
  induction ms with
  | nil => rfl
  | cons m ms ih => simpa [served,releasedMessage,List.filterMap_cons] using ih

theorem silent : trace.filter Event.isCrashReport=[] := by
  rw [h.trace_eq,List.filter_eq_nil_iff]
  intro e he
  obtain ⟨m,_,he⟩ := List.mem_flatMap.mp he
  simp only [served,List.mem_cons,List.not_mem_nil,or_false] at he
  rcases he with rfl | rfl <;> simp [Event.isCrashReport]

theorem not_threw (m : EventMessage) (e : Thrown) : Event.processEvent m (some e)∉trace := by
  rw [h.trace_eq]
  intro hm
  obtain ⟨x,_,hx⟩ := List.mem_flatMap.mp hm
  simp [served] at hx

end Served

namespace Raises

variable (h : Raises before p ms trace e msg)
include h

theorem processed (hb : before=none) (rest : List EventMessage) :
    trace.filterMap processedMessage=handled p 0 (ms++rest) := by
  cases h with
  | entry he => simp [hb] at he
  | process hs hm he =>
    rw [List.append_assoc,hs.handled_append]
    simp [hs.processed,handled,hm,he,processedMessage]

theorem released : trace.filterMap releasedMessage++msg.toList=ms := by
  cases h with
  | entry => rfl
  | process hs => simp [hs.released,releasedMessage]

theorem silent : trace.filter Event.isCrashReport=[] := by
  cases h with
  | entry => rfl
  | process hs => simp [hs.silent,Event.isCrashReport]

theorem threw (hb : before=none) : ∃ m,msg=some m ∧ Event.processEvent m (some e)∈trace := by
  cases h with
  | entry he => simp [hb] at he
  | process => exact ⟨_,rfl,by simp⟩

theorem not_stop : ∀ m∈ms,m.type≠.cmdModuleStop := by
  cases h with
  | entry => simp
  | process hs hm =>
    intro m hmem
    rcases List.mem_append.mp hmem with hmem | hmem
    · exact hs.not_stop m hmem
    · obtain rfl := List.mem_singleton.mp hmem
      exact hm

/-- The exception is the first that the inbox provokes. -/
theorem firstThrow_eq (hb : before=none) (rest : List EventMessage) :
    firstThrow p 0 (ms++rest)=some (e,msg) := by
  cases h with
  | entry he => simp [hb] at he
  | @process ms trace m e hs hm he =>
    have hl := loop_append (congrArg Traced.ending hs.waiting) (m::rest)
    have hend := loop_ending p 0 (ms++[m]++rest)
    rw [List.append_assoc,List.singleton_append] at hend ⊢
    rw [hl,Nat.zero_add] at hend
    simp only [loop,hm,he,if_false] at hend
    split at hend
    · rename_i x hx
      rw [hx]
      simpa using hend.symm
    · split_ifs at hend <;> simp at hend

end Raises

section Reported

variable (actor serial : Nat) (msg : Option EventMessage) (what : String)

@[simp]
theorem reported_processed :
    (reported actor serial msg what).filterMap processedMessage=[] := by
  cases msg <;> rfl

@[simp]
theorem reported_released :
    (reported actor serial msg what).filterMap releasedMessage=msg.toList := by
  cases msg <;> rfl

@[simp]
theorem reported_reports : (reported actor serial msg what).filter Event.isCrashReport=
    [.crashReport (crashMessage actor serial msg what)] := by
  cases msg <;> rfl

end Reported

end Observations

section Progress

variable {before : Option Thrown} {actor serial : Nat} {p : Plugin} {s : State}

/-- The steps to the next point at which the coroutine waits or is through. -/
def State.work (s : State) : Nat :=
  10*s.inbox.length+match s.pc with
    | .entry | .dispatch => 9
    | .release | .handler _ => 8
    | .report _ _ => 7
    | .errorHandle _ => 6
    | .wait => if s.inbox.isEmpty then 0 else 3
    | .receive => 2
    | .releaseStop => 1
    | .returned _ | .escaped _ => 0

theorem step_progress (h : Inv before actor serial p s) (hs : ¬s.Settled) :
    ∃ t,step before actor serial p s=some t ∧ t.work<s.work := by
  obtain ⟨inbox,msg,calls,pc,arrived,received,trace⟩ := s
  have hhere : Here before actor serial p pc msg calls received trace := h.here
  cases hhere with
  | entry =>
    cases hb : before with
    | none => exact ⟨_,rfl,by simp [State.work]⟩
    | some e => exact ⟨_,rfl,by simp [State.work,State.emit]⟩
  | receive =>
    cases inbox with
    | nil => exact ⟨_,rfl,by simp [State.work]⟩
    | cons m rest =>
      refine ⟨_,rfl,?_⟩
      simp only [State.work,List.length_cons]
      omega
  | dispatch =>
    simp only [step]
    split_ifs
    · exact ⟨_,rfl,by simp [State.work,State.emit]⟩
    · split
      · exact ⟨_,rfl,by simp [State.work,State.emit]⟩
      · exact ⟨_,rfl,by simp [State.work,State.emit]⟩
  | wait =>
    cases inbox with
    | nil => exact absurd (Or.inr ⟨rfl,rfl⟩) hs
    | cons m rest => exact ⟨_,rfl,by simp [State.work]⟩
  | @handler _ _ _ e =>
    cases e with
    | other => exact ⟨_,rfl,by simp [State.work]⟩
    | std what => exact ⟨_,rfl,by simp [State.work,State.release]⟩
  | errorHandle =>
    simp only [step]
    split
    · exact ⟨_,rfl,by simp [State.work,State.emit]⟩
    · exact ⟨_,rfl,by simp [State.work,State.emit]⟩
  | releaseStop | release => exact ⟨_,rfl,by simp [State.work,State.release]⟩
  | report => exact ⟨_,rfl,by simp [State.work,State.emit]⟩
  | success | failure => exact absurd (Or.inl (Or.inl ⟨_,rfl⟩)) hs
  | uncaught | rethrown => exact absurd (Or.inl (Or.inr ⟨_,rfl⟩)) hs

theorem Inv.settles (h : Inv before actor serial p s) :
    ∃ t,(machine before actor serial p).Steps stepOnly s t ∧ t.Settled := by
  refine Machine.exists_steps_done (I := Inv before actor serial p) State.work ?_ ?_ s h
  · intro x a y hx hn _
    exact next_inv hx hn
  · intro x hx hs
    obtain ⟨t,hn,hlt⟩ := step_progress hx hs
    exact ⟨.step,t,hn,trivial,hlt⟩

end Progress

section Refinement

variable {before : Option Thrown} {actor serial : Nat} {p : Plugin} {s : State}
  {ms : List EventMessage} {t : List Event} {m : EventMessage}

theorem Served.tryBlock_eq (h : Served before p ms t) : tryBlock before p ms=⟨t,.waiting⟩ := by
  rw [h.unthrown]
  exact h.waiting

theorem Served.tryBlock_stop (h : Served before p ms t) (hm : m.type=.cmdModuleStop) :
    tryBlock before p (ms++[m])=⟨t++[.stop m,.release m],.value .success⟩ := by
  have hl := loop_append (congrArg Traced.ending h.waiting) [m]
  rw [h.waiting] at hl
  rw [h.unthrown]
  simpa [tryBlock,loop,hm] using hl

theorem Raises.tryBlock_eq {e : Thrown} {msg : Option EventMessage}
    (h : Raises before p ms t e msg) : tryBlock before p ms=⟨t,.thrown (e,msg)⟩ := by
  cases h with
  | entry hb =>
    rw [hb]
    rfl
  | @process ms t m e hs hm he =>
    have hl := loop_append (congrArg Traced.ending hs.waiting) [m]
    rw [hs.waiting] at hl
    rw [hs.unthrown]
    simpa [tryBlock,loop,hm,he] using hl

/-- A run of the coroutine is the computation `runCoroutine` over the messages it has received. -/
theorem Inv.runCoroutine_eq (h : Inv before actor serial p s) :
    (s.pc=.wait → runCoroutine before actor serial p s.received=⟨s.trace,.waiting⟩) ∧
    (∀ r,s.pc=.returned r → runCoroutine before actor serial p s.received=⟨s.trace,.value r⟩) ∧
    ∀ e,s.pc=.escaped e → runCoroutine before actor serial p s.received=⟨s.trace,.thrown e⟩ := by
  obtain ⟨inbox,msg,calls,pc,arrived,received,trace⟩ := s
  have hhere : Here before actor serial p pc msg calls received trace := h.here
  cases hhere with
  | wait hs => simp [runCoroutine,hs.tryBlock_eq]
  | success hs hm => simp [runCoroutine,hs.tryBlock_stop hm]
  | failure hr hw =>
    simp [runCoroutine,hr.tryBlock_eq,catchBlock,hw,reported]
  | uncaught hr => simp [runCoroutine,hr.tryBlock_eq,catchBlock,raise]
  | rethrown hr hw =>
    simp [runCoroutine,hr.tryBlock_eq,catchBlock,hw,reported]
  | _ => simp

end Refinement

section Semantics

variable {actor serial : Nat} {p : Plugin} {s : State}

/-- Every exception out of `ProcessEvent` is a `std::exception` that `error_handle` takes. -/
def Caught (p : Plugin) : Prop :=
  ∀ inbox e msg,firstThrow p 0 inbox=some (e,msg) → ∃ what,e=.std what ∧ p.errorHandle what=none

theorem Inv.not_escaped (h : Inv none actor serial p s) (hc : Caught p) (e : Thrown) :
    s.pc≠.escaped e := by
  obtain ⟨inbox,msg,calls,pc,arrived,received,trace⟩ := s
  have hhere : Here none actor serial p pc msg calls received trace := h.here
  intro hpc
  replace hpc : pc=.escaped e := hpc
  cases hhere with
  | uncaught hr =>
    obtain ⟨what,hwhat,-⟩ := hc _ _ _ (hr.firstThrow_eq rfl [])
    cases hwhat
  | rethrown hr hw =>
    obtain ⟨what,hwhat,hnone⟩ := hc _ _ _ (hr.firstThrow_eq rfl [])
    cases hwhat
    simp [hnone] at hw
  | _ => cases hpc

/-- A prefix of the calls while the coroutine is at work, all of them when it has settled. -/
theorem Inv.calls (h : Inv none actor serial p s) :
    s.processed <+: handled p 0 s.arrived ∧
      (s.Settled → s.processed=handled p 0 s.arrived) := by
  obtain ⟨inbox,msg,calls,pc,arrived,received,trace⟩ := s
  obtain rfl : arrived=received++inbox := h.arrived
  have hhere : Here none actor serial p pc msg calls received trace := h.here
  simp only [State.processed,State.Settled,State.Done]
  cases hhere with
  | entry => simp
  | receive hs =>
    rw [hs.processed,hs.handled_append]
    exact ⟨List.prefix_append _ _,by simp⟩
  | wait hs =>
    rw [hs.processed,hs.handled_append]
    refine ⟨List.prefix_append _ _,?_⟩
    rintro ((⟨r,hr⟩ | ⟨e,he⟩) | ⟨-,rfl⟩)
    · cases hr
    · cases he
    · exact (List.append_nil _).symm
  | dispatch hs =>
    rw [hs.processed,List.append_assoc,hs.handled_append]
    exact ⟨List.prefix_append _ _,by simp⟩
  | releaseStop hs hm =>
    rw [List.append_assoc,hs.handled_append]
    simp [hs.processed,List.filterMap_cons,processedMessage]
  | release hs hm he =>
    rw [List.append_assoc,hs.handled_append]
    simp [hs.processed,processedMessage,handled,hm,he]
  | success hs hm =>
    rw [List.append_assoc,hs.handled_append]
    simp [hs.processed,List.filterMap_cons,processedMessage,handled,hm]
  | handler hr | uncaught hr => simp [hr.processed rfl inbox]
  | @report _ _ msg _ _ hr =>
    cases msg <;> simp [hr.processed rfl inbox,List.filterMap_cons,processedMessage]
  | errorHandle hr | failure hr | rethrown hr =>
    simp [hr.processed rfl inbox,List.filterMap_cons,processedMessage]

/-- What was received has been released, up to the message that `msg` points to. -/
theorem Inv.released (h : Inv none actor serial p s) (hc : Caught p) :
    s.released++s.msg.toList=s.received ∧ (s.Done → s.msg=none) := by
  have hescaped := h.not_escaped hc
  obtain ⟨inbox,msg,calls,pc,arrived,received,trace⟩ := s
  have hhere : Here none actor serial p pc msg calls received trace := h.here
  simp only [State.released,State.Done]
  cases hhere with
  | entry => simp
  | receive hs | wait hs | dispatch hs => simp [hs.released]
  | releaseStop hs | release hs => simp [hs.released,List.filterMap_cons,releasedMessage]
  | success hs => simp [hs.released,List.filterMap_cons,releasedMessage]
  | handler hr => simp [hr.released]
  | @report _ _ msg _ _ hr =>
    have hreleased := hr.released
    cases msg <;> simpa [List.filterMap_cons,releasedMessage] using hreleased
  | errorHandle hr | failure hr => simpa [List.filterMap_cons,releasedMessage] using hr.released
  | uncaught | rethrown => exact absurd rfl (hescaped _)

/-- How the coroutine has ended. -/
theorem Inv.outcome (h : Inv none actor serial p s) (hc : Caught p) (hd : s.Done) :
    (s.pc=.returned .success ∧ (∃ m∈s.received,m.type=.cmdModuleStop) ∧
      (∀ m e,¬s.Threw m e) ∧ s.trace.filter Event.isCrashReport=[]) ∨
    (s.pc=.returned .failure ∧ (∀ m∈s.received,m.type≠.cmdModuleStop) ∧
      ∃ m what,s.Threw m (.std what) ∧ s.trace.filter Event.isCrashReport=
        [.crashReport (crashReportMessage actor serial m.type what)]) := by
  have hescaped := h.not_escaped hc
  obtain ⟨inbox,msg,calls,pc,arrived,received,trace⟩ := s
  have hhere : Here none actor serial p pc msg calls received trace := h.here
  replace hd : (∃ r,pc=.returned r) ∨ ∃ e,pc=.escaped e := hd
  simp only [State.Threw]
  cases hhere with
  | @success ms t m _ hs hm =>
    refine Or.inl ⟨rfl,⟨m,by simp,hm⟩,?_,?_⟩
    · simpa using hs.not_threw
    · simp [hs.silent,Event.isCrashReport]
  | @failure ms t msg what _ hr =>
    obtain ⟨m,rfl,hm⟩ := hr.threw rfl
    refine Or.inr ⟨rfl,hr.not_stop,m,what,by simp [hm],?_⟩
    simp [hr.silent,Event.isCrashReport]
    rfl
  | uncaught | rethrown => exact absurd rfl (hescaped _)
  | _ => simp at hd

theorem Inv.obeys (h : Inv none actor serial p s) (hc : Caught p) :
    Obeys none actor serial p s := by
  obtain ⟨horder,hcomplete⟩ := h.calls
  obtain ⟨hreleased,hnull⟩ := h.released hc
  refine ⟨h.settles,horder,hcomplete,hreleased,?_,?_,?_,?_,?_⟩
  · intro hd
    rwa [hnull hd,Option.toList_none,List.append_nil] at hreleased
  · intro hd
    rcases h.outcome hc hd with ⟨hpc,hstop,-⟩ | ⟨hpc,hstop,-⟩
    · exact ⟨fun _ => hstop,fun _ => hpc⟩
    · constructor
      · intro hs
        cases hpc.symm.trans hs
      · rintro ⟨m,hm,htype⟩
        exact absurd htype (hstop m hm)
  · intro hd
    rcases h.outcome hc hd with ⟨hpc,-,hthrew,-⟩ | ⟨hpc,-,m,what,hthrew,-⟩
    · constructor
      · intro hf
        cases hpc.symm.trans hf
      · rintro ⟨m,e,hm⟩
        exact absurd hm (hthrew m e)
    · exact ⟨fun _ => ⟨m,.std what,hthrew⟩,fun _ => hpc⟩
  · intro hf
    rcases h.outcome hc (Or.inl ⟨_,hf⟩) with ⟨hpc,-⟩ | ⟨-,-,hreport⟩
    · cases hpc.symm.trans hf
    · exact hreport
  · intro hs
    rcases h.outcome hc (Or.inl ⟨_,hs⟩) with ⟨-,-,-,hsilent⟩ | ⟨hpc,-⟩
    · exact hsilent
    · cases hpc.symm.trans hs

end Semantics

section Converse

variable {before : Option Thrown} {actor serial : Nat} {p : Plugin} {s t : State}

theorem step_arrived (hn : step before actor serial p s=some t) : t.arrived=s.arrived := by
  unfold step at hn
  repeat' split at hn
  all_goals
    cases hn
    try rfl

theorem steps_arrived (h : (machine before actor serial p).Steps stepOnly s t) :
    t.arrived=s.arrived := by
  apply h.invariant (I := fun x => x.arrived=s.arrived) rfl
  intro x a y hx hn ho
  cases a with
  | arrive m => exact ho.elim
  | step =>
    rw [← hx]
    exact step_arrived hn

/-- Any messages can have arrived before the coroutine takes its first step. -/
theorem reachable_arrived (before : Option Thrown) (actor serial : Nat) (p : Plugin)
    (ms : List EventMessage) :
    (machine before actor serial p).Reachable ⟨ms,none,0,.entry,ms,[],[]⟩ := by
  induction ms using List.reverseRecOn with
  | nil => exact ⟨_,rfl,.refl⟩
  | append_singleton ms m ih => exact ih.next (a := .arrive m) rfl trivial

/-- Once messages have arrived, the coroutine settles. -/
theorem reachable_settled (before : Option Thrown) (actor serial : Nat) (p : Plugin)
    (ms : List EventMessage) :
    ∃ s,(machine before actor serial p).Reachable s ∧ s.arrived=ms ∧ s.Settled := by
  have hstart := reachable_arrived before actor serial p ms
  obtain ⟨s,hs,hsettled⟩ := (reachable_inv hstart).settles
  exact ⟨s,hstart.steps (hs.mono fun _ _ _ _ => trivial),steps_arrived hs,hsettled⟩

/-- The exception before the loop keeps every message from being processed. -/
theorem Inv.processed_nil {e : Thrown} (h : Inv (some e) actor serial p s) : s.processed=[] := by
  obtain ⟨inbox,msg,calls,pc,arrived,received,trace⟩ := s
  have hhere : Here (some e) actor serial p pc msg calls received trace := h.here
  have hraises {ms : List EventMessage} {u : List Event} {x : Thrown}
      {m : Option EventMessage} (hr : Raises (some e) p ms u x m) :
      u.filterMap processedMessage=[] := by
    cases hr with
    | entry => rfl
    | process hs => cases hs.unthrown
  simp only [State.processed]
  cases hhere with
  | entry => rfl
  | receive hs | wait hs | dispatch hs | releaseStop hs | release hs | success hs =>
    cases hs.unthrown
  | handler hr | uncaught hr => exact hraises hr
  | @report _ _ msg _ _ hr =>
    cases msg <;> simp [hraises hr,List.filterMap_cons,processedMessage]
  | errorHandle hr | failure hr | rethrown hr =>
    simp [hraises hr,List.filterMap_cons,processedMessage]

/-- What `ProcessEvent` throws in a settled run was caught, or has escaped. -/
theorem Inv.caught_or_escaped {e : Thrown} {msg : Option EventMessage}
    (h : Inv none actor serial p s) (hs : s.Settled)
    (ht : firstThrow p 0 s.arrived=some (e,msg)) :
    (∃ what,e=.std what ∧ p.errorHandle what=none) ∨
      s.Done ∧ s.pc≠.returned .failure ∧ ∃ m e,s.Threw m e := by
  obtain ⟨inbox,pointer,calls,pc,arrived,received,trace⟩ := s
  obtain rfl : arrived=received++inbox := h.arrived
  have hhere : Here none actor serial p pc pointer calls received trace := h.here
  replace ht : firstThrow p 0 (received++inbox)=some (e,msg) := ht
  have hloop := loop_ending p 0 (received++inbox)
  rw [ht] at hloop
  simp only [State.Settled,State.Done] at hs
  simp only [State.Done,State.Threw]
  cases hhere with
  | wait hserved =>
    obtain rfl : inbox=[] := by simpa using hs
    rw [List.append_nil,hserved.waiting] at hloop
    cases hloop
  | success hserved hm =>
    rw [List.append_assoc,loop_append (congrArg Traced.ending hserved.waiting)] at hloop
    simp [loop,hm] at hloop
  | failure hr hw =>
    obtain ⟨rfl,-⟩ : .std _=e ∧ _=msg := by simpa using (hr.firstThrow_eq rfl inbox).symm.trans ht
    exact Or.inl ⟨_,rfl,hw⟩
  | uncaught hr =>
    obtain ⟨m,-,hm⟩ := hr.threw rfl
    exact Or.inr ⟨Or.inr ⟨_,rfl⟩,by simp,m,_,hm⟩
  | rethrown hr =>
    obtain ⟨m,-,hm⟩ := hr.threw rfl
    exact Or.inr ⟨Or.inr ⟨_,rfl⟩,by simp,m,_,List.mem_append_left _ hm⟩
  | _ => simp at hs

end Converse

/-- The loop of `RunCoroutine` has the semantics of an actor, over all messages, arrivals and
suspensions, exactly if no exception is thrown before it and every one out of `ProcessEvent` is a
`std::exception` that `error_handle` takes. -/
theorem runCoroutine_obeys_iff (before : Option Thrown) (actor serial : Nat) (p : Plugin) :
    (∀ s,(machine before actor serial p).Reachable s → Obeys before actor serial p s) ↔
      before=none ∧ Caught p := by
  constructor
  · intro h
    cases before with
    | some e =>
      obtain ⟨s,hs,harr,hsettled⟩ := reachable_settled (some e) actor serial p [⟨.none,0,"",0⟩]
      have hcalls := (h s hs).complete hsettled
      rw [(reachable_inv hs).processed_nil,harr] at hcalls
      rw [handled,if_neg (by decide)] at hcalls
      split at hcalls <;> simp at hcalls
    | none =>
      refine ⟨rfl,?_⟩
      intro inbox e msg ht
      obtain ⟨s,hs,harr,hsettled⟩ := reachable_settled none actor serial p inbox
      rcases (reachable_inv hs).caught_or_escaped hsettled (harr ▸ ht) with hc | ⟨hd,hne,hthrew⟩
      · exact hc
      · exact absurd (((h s hs).failure hd).mpr hthrew) hne
  · rintro ⟨rfl,hc⟩ s hs
    exact (reachable_inv hs).obeys hc

theorem gateWayActor_caught : Caught gateWayActor := by
  intro inbox e msg h
  obtain ⟨x,-,hx⟩ := List.exists_of_findSome?_eq_some h
  simp [gateWayActor] at hx

theorem runCoroutine_obeys_gateWayActor :
    ∀ s,(machine none 1 0 gateWayActor).Reachable s → Obeys none 1 0 gateWayActor s :=
  (runCoroutine_obeys_iff none 1 0 gateWayActor).mpr ⟨rfl,gateWayActor_caught⟩

/-- The gateway of the repository: a message and a stop request have arrived, the coroutine has
received neither and returns a failure, with a report about no event. -/
theorem runCoroutine_boom : ∃ s,(machine boom 1 0 gateWayActor).Reachable s ∧
    s.arrived=[⟨.none,2,"",0⟩,Manager.stopMessage] ∧ s.received=[] ∧
    s.pc=.returned .failure ∧ s.trace=[.threw (.std "boom!boom!boom!"),
      .crashReport (crashReportMessage 1 0 .none "boom!boom!boom!"),
      .errorHandle "boom!boom!boom!"] ∧
    ¬Obeys boom 1 0 gateWayActor s := by
  obtain ⟨s,hs,hp⟩ := Machine.exists_reachableBy (machine boom 1 0 gateWayActor)
    Machine.anyStep [.arrive ⟨.none,2,"",0⟩,.arrive Manager.stopMessage,.step,.step,.step,.step]
    (fun s => s.arrived=[⟨.none,2,"",0⟩,Manager.stopMessage] ∧ s.received=[] ∧
      s.pc=.returned .failure ∧ s.trace=[.threw (.std "boom!boom!boom!"),
        .crashReport (crashReportMessage 1 0 .none "boom!boom!boom!"),
        .errorHandle "boom!boom!boom!"]) rfl (by decide +kernel)
  simp only [Bool.decide_and,Bool.and_eq_true,decide_eq_true_eq] at hp
  obtain ⟨harr,hrec,hpc,htrace⟩ := hp
  refine ⟨s,hs,harr,hrec,hpc,htrace,?_⟩
  intro ho
  obtain ⟨m,what,hm,-⟩ := ho.report hpc
  simp [State.Threw,htrace] at hm

end Acnet.RunCoroutine
