import Acnet.Actor.Launch

namespace Acnet.Launch

open Traced

namespace Event

def isExited : Event → Bool
  | .exited _ => true
  | _ => false

def isCrashReport : Event → Bool
  | .crashReport _ => true
  | _ => false

/-- The calls that pair up around an instance. -/
def isLifecycle : Event → Bool
  | .create (some _) | .init | .uninit | .destroy => true
  | _ => false

/-- What happens inside the `try` block. -/
def isInner : Event → Bool
  | .threw _ | .processEvent _ _ | .stop _ | .release _ => true
  | _ => false

end Event

/-- A failure of the module stays in its coroutine: the process lives on, the coroutine reports
its exit once, under its own id and after any crash report, and what is created and initialised
is uninitialised and destroyed once. -/
structure Contained (actorId serial : Nat) (l : Life) : Prop where
  survives : l.status≠.terminated
  exitedOnce : l.status=.finished →
    l.trace.filter Event.isExited=[.exited (exitMessage actorId serial)]
  crashedOnce : (l.trace.filter Event.isCrashReport).length≤1
  crashFirst : l.trace.Pairwise fun a b => a.isExited=true → b.isCrashReport=false
  paired : l.status=.finished → l.trace.filter Event.isLifecycle=[] ∨
    ∃ actor,l.trace.filter Event.isLifecycle=[.create (some actor),.init,.uninit,.destroy]
  begun : l.status=.suspended →
    ∃ actor,l.trace.filter Event.isLifecycle=[.create (some actor),.init]

theorem not_contained {actorId serial : Nat} {l : Life} (h : l.status=.terminated) :
    ¬Contained actorId serial l :=
  fun hc => hc.survives h

/-- The first exception out of `ProcessEvent` on the messages before a stop request, the calls
counted from `k`. -/
def firstThrow (p : Plugin) (k : Nat) (inbox : List EventMessage) : Option Raised :=
  ((inbox.takeWhile (·.type≠.cmdModuleStop)).zipIdx k).findSome? fun (m,i) =>
    (p.processEvent i m).map (·,some m)

/-- The exception that leaves the `try` block. -/
def raised (before : Option Thrown) (p : Plugin) (inbox : List EventMessage) : Option Raised :=
  (before.map (·,none)).or (firstThrow p 0 inbox)

def stopped (inbox : List EventMessage) : Bool := inbox.any (·.type=.cmdModuleStop)

/-- The calls that no handler encloses do not throw: `Init`; `error_handle`, on a
`std::exception` out of the `try` block, which no other exception may leave; and `Uninit`, if
the coroutine comes to it. -/
structure Harmless (before : Option Thrown) (p : Plugin) (inbox : List EventMessage) : Prop where
  init : p.init=none
  caught : ∀ e m,raised before p inbox=some (e,m) → ∃ what,e=.std what ∧ p.errorHandle what=none
  uninit : (raised before p inbox).isSome=true ∨ stopped inbox=true → p.uninit=none

/-- The instance that `__launch_actor` gets, if it gets one, is harmless. -/
def Tame (before : Option Thrown) (module : Option Plugin) (actorId : Nat)
    (inbox : List EventMessage) : Prop :=
  ∀ p actor,module=some p → p.hasCreate=true → p.hasDestroy=true →
    p.createFunc actorId=some actor → Harmless before p inbox

section Inner

theorem loop_ending (p : Plugin) (k : Nat) (inbox : List EventMessage) :
    (loop p k inbox).ending=
      match firstThrow p k inbox with
      | some x => .thrown x
      | none => if stopped inbox then .value .success else .waiting := by
  induction inbox generalizing k with
  | nil => rfl
  | cons m rest ih =>
    by_cases hm : m.type=.cmdModuleStop
    · simp [loop,firstThrow,stopped,hm]
    · have hs : stopped (m::rest)=stopped rest := by simp [stopped,hm]
      cases hp : p.processEvent k m with
      | some e => simp [loop,firstThrow,hm,hp]
      | none =>
        have hf : firstThrow p k (m::rest)=firstThrow p (k+1) rest := by
          simp [firstThrow,hm,hp]
        rw [hf,hs,← ih (k+1)]
        simp [loop,hm,hp]

theorem loop_inner (p : Plugin) (k : Nat) (inbox : List EventMessage) :
    Only Event.isInner (loop p k inbox) := by
  induction inbox generalizing k with
  | nil => exact Only.wait
  | cons m rest ih =>
    unfold loop
    split_ifs
    · exact Only.bind (Only.emit rfl) fun _ => Only.bind (Only.emit rfl) fun _ => Only.pure _
    · exact Only.bind (Only.call _ rfl) fun _ => Only.bind (Only.emit rfl) fun _ => ih (k+1)

variable (before : Option Thrown) (p : Plugin) (inbox : List EventMessage)

theorem tryBlock_ending :
    (tryBlock before p inbox).ending=
      match raised before p inbox with
      | some x => .thrown x
      | none => if stopped inbox then .value .success else .waiting := by
  cases before with
  | some e => rfl
  | none => exact loop_ending p 0 inbox

theorem tryBlock_inner : Only Event.isInner (tryBlock before p inbox) := by
  cases before with
  | some e => exact Only.bind (Only.call _ rfl) fun _ => loop_inner p 0 inbox
  | none => exact loop_inner p 0 inbox

end Inner

/-- An exception passes through `unhandled_exception` and `await_resume` unchanged. -/
@[simp]
theorem coAwait_eq {α : Type} (body : Traced Event Thrown α) : coAwait body=body := by
  obtain ⟨t,a | e | _⟩ := body <;> simp [coAwait,task,awaitResume,raise]

@[simp]
theorem eventMessageRelease_bind {χ α : Type} (msg : Option EventMessage)
    (g : Unit → Traced Event χ α) :
    (eventMessageRelease msg>>=g)=
      ⟨msg.toList.map Event.release++(g ()).trace,(g ()).ending⟩ := by
  cases msg <;> rfl

section RunCoroutine

variable {before : Option Thrown} {actor serial : Nat} {p : Plugin} {inbox : List EventMessage}

theorem runCoroutine_waiting (h : (tryBlock before p inbox).ending=.waiting) :
    runCoroutine before actor serial p inbox=⟨(tryBlock before p inbox).trace,.waiting⟩ := by
  rw [runCoroutine,eq_mk h]
  rfl

theorem runCoroutine_success (h : (tryBlock before p inbox).ending=.value .success) :
    runCoroutine before actor serial p inbox=
      ⟨(tryBlock before p inbox).trace,.value .success⟩ := by
  rw [runCoroutine,eq_mk h]
  rfl

theorem runCoroutine_failure {what : String} {msg : Option EventMessage}
    (h : (tryBlock before p inbox).ending=.thrown (.std what,msg))
    (hw : p.errorHandle what=none) :
    runCoroutine before actor serial p inbox=
      ⟨(tryBlock before p inbox).trace++(msg.toList.map Event.release++
        [Event.crashReport (crashMessage actor serial msg what),.errorHandle what]),
        .value .failure⟩ := by
  rw [runCoroutine,eq_mk h]
  simp [catchBlock,hw]

end RunCoroutine

/-- The lives that do not end in `std::terminate`. -/
inductive Course (before : Option Thrown) (module : Option Plugin) (actorId serial : Nat)
    (inbox : List EventMessage) : Life → Prop
  | absent {e : Event} (he : e=.notReady ∨ e=.create none) :
      Course before module actorId serial inbox
        ⟨[e,.exited (exitMessage actorId serial)],.finished⟩
  | working {p : Plugin} {actor : Nat} (hm : module=some p) (ha : p.createFunc actorId=some actor)
      (hx : (tryBlock before p inbox).ending=.waiting) :
      Course before module actorId serial inbox
        ⟨.create (some actor)::.init::(tryBlock before p inbox).trace,.suspended⟩
  | stopped {p : Plugin} {actor : Nat} (hm : module=some p) (ha : p.createFunc actorId=some actor)
      (hx : (tryBlock before p inbox).ending=.value .success) :
      Course before module actorId serial inbox
        ⟨.create (some actor)::.init::((tryBlock before p inbox).trace++
          [Event.uninit,.destroy,.exited (exitMessage actorId serial)]),.finished⟩
  | crashed {p : Plugin} {actor : Nat} {msg : Option EventMessage} {what : String}
      (hm : module=some p) (ha : p.createFunc actorId=some actor)
      (hx : (tryBlock before p inbox).ending=.thrown (.std what,msg)) :
      Course before module actorId serial inbox
        ⟨.create (some actor)::.init::((tryBlock before p inbox).trace++
          (msg.toList.map Event.release++
            [Event.crashReport (crashMessage actor serial msg what),.errorHandle what,
              .uninit,.destroy,.exited (exitMessage actorId serial)])),.finished⟩

section Filter

variable {q : List Event} (hq : ∀ e∈q,e.isInner=true)
include hq

theorem filter_inner {f : Event → Bool} (hf : ∀ e,e.isInner=true → f e=false) :
    q.filter f=[] := by
  rw [List.filter_eq_nil_iff]
  intro e he
  simp [hf e (hq e he)]

theorem filter_exited : q.filter Event.isExited=[] :=
  filter_inner hq fun e he => by cases e <;> first | rfl | cases he

theorem filter_crashReport : q.filter Event.isCrashReport=[] :=
  filter_inner hq fun e he => by cases e <;> first | rfl | cases he

theorem filter_lifecycle : q.filter Event.isLifecycle=[] :=
  filter_inner hq fun e he => by cases e <;> first | rfl | cases he

end Filter

/-- A trace whose exit event, if it has one, comes last has no crash report after it. -/
theorem crashFirst_append {t : List Event} (ht : t.filter Event.isExited=[]) {u : List Event}
    (hu : u.length≤1) :
    (t++u).Pairwise fun a b => a.isExited=true → b.isCrashReport=false := by
  rw [List.filter_eq_nil_iff] at ht
  rw [List.pairwise_append]
  refine ⟨?_,?_,?_⟩
  · exact List.pairwise_of_forall_mem_list fun a ha _ _ h => absurd h (ht a ha)
  · cases u with
    | nil => exact List.Pairwise.nil
    | cons e u =>
      obtain rfl : u=[] := List.eq_nil_of_length_eq_zero (by simpa using hu)
      exact List.pairwise_singleton _ e
  · intro a ha _ _ h
    exact absurd h (ht a ha)

section Courses

variable {before : Option Thrown} {module : Option Plugin} {actorId serial : Nat}
  {inbox : List EventMessage}

theorem contained_absent {e : Event} (he : e=.notReady ∨ e=.create none) :
    Contained actorId serial ⟨[e,.exited (exitMessage actorId serial)],.finished⟩ where
  survives := by simp
  exitedOnce _ := by rcases he with rfl | rfl <;> rfl
  crashedOnce := by rcases he with rfl | rfl <;> simp [Event.isCrashReport]
  crashFirst :=
    crashFirst_append (t := [e]) (by rcases he with rfl | rfl <;> rfl) (by simp)
  paired _ := by rcases he with rfl | rfl <;> exact Or.inl rfl
  begun h := by simp at h

theorem contained_working {actor : Nat} {q : List Event} (hq : ∀ e∈q,e.isInner=true) :
    Contained actorId serial ⟨.create (some actor)::.init::q,.suspended⟩ where
  survives := by simp
  exitedOnce h := by simp at h
  crashedOnce := by simp [filter_crashReport hq,Event.isCrashReport]
  crashFirst := by
    have ht : (.create (some actor)::.init::q : List Event).filter Event.isExited=[] := by
      simp [filter_exited hq,Event.isExited]
    simpa using crashFirst_append ht (u := []) (by simp)
  paired h := by simp at h
  begun _ := ⟨actor,by simp [List.filter_cons,filter_lifecycle hq,Event.isLifecycle]⟩

/-- An instance that is taken down after the reports `r`. -/
theorem contained_finished (actor : Nat) {q r : List Event} (hq : ∀ e∈q,e.isInner=true)
    (hr : r=[] ∨ ∃ m what,r=[.crashReport m,.errorHandle what]) :
    Contained actorId serial
      ⟨.create (some actor)::.init::
        (q++(r++[Event.uninit,.destroy,.exited (exitMessage actorId serial)])),.finished⟩ where
  survives := by simp
  exitedOnce _ := by
    rcases hr with rfl | ⟨m,what,rfl⟩ <;> simp [filter_exited hq,Event.isExited]
  crashedOnce := by
    rcases hr with rfl | ⟨m,what,rfl⟩ <;>
      simp [List.filter_cons,filter_crashReport hq,Event.isCrashReport]
  crashFirst := by
    have ht : (.create (some actor)::.init::(q++(r++[Event.uninit,.destroy]))).filter
        Event.isExited=[] := by
      rcases hr with rfl | ⟨m,what,rfl⟩ <;> simp [filter_exited hq,Event.isExited]
    simpa using crashFirst_append ht (u := [.exited (exitMessage actorId serial)]) (by simp)
  paired _ := by
    refine Or.inr ⟨actor,?_⟩
    rcases hr with rfl | ⟨m,what,rfl⟩ <;>
      simp [List.filter_cons,filter_lifecycle hq,Event.isLifecycle]
  begun h := by simp at h

theorem Course.contained {l : Life} (h : Course before module actorId serial inbox l) :
    Contained actorId serial l := by
  cases h with
  | absent he => exact contained_absent he
  | @working p => exact contained_working (tryBlock_inner before p inbox)
  | @stopped p => exact contained_finished _ (r := []) (tryBlock_inner before p inbox) (Or.inl rfl)
  | @crashed p actor msg what =>
    have hq : ∀ e∈(tryBlock before p inbox).trace++msg.toList.map Event.release,e.isInner=true := by
      intro e he
      rcases List.mem_append.mp he with he | he
      · exact tryBlock_inner before p inbox e he
      · obtain ⟨m,-,rfl⟩ := List.mem_map.mp he
        rfl
    have hc : Contained actorId serial _ := contained_finished actor hq
      (Or.inr ⟨crashMessage actor serial msg what,what,rfl⟩)
    simpa using hc

end Courses

section Instance

variable {before : Option Thrown} {p : Plugin} {inbox : List EventMessage}

/-- Any other instance throws into `__launch_actor`. -/
theorem harmless_of_runInstance (actor serial : Nat)
    (h : ∀ e,(runInstance before actor serial p inbox).ending≠.thrown e) :
    Harmless before p inbox := by
  have he := tryBlock_ending before p inbox
  unfold Launch.runInstance runCoroutine at h
  rw [coAwait_eq] at h
  generalize tryBlock before p inbox=x at he h
  obtain ⟨t,ending⟩ := x
  change ending=_ at he
  subst he
  cases hi : p.init with
  | some e => simp [hi] at h
  | none =>
    cases hx : raised before p inbox with
    | none =>
      refine ⟨hi,by simp [hx],fun hs => ?_⟩
      have hs : stopped inbox=true := by simpa [hx] using hs
      cases hu : p.uninit with
      | none => rfl
      | some e => simp [hi,hx,hs,hu] at h
    | some x =>
      obtain ⟨e,msg⟩ := x
      cases e with
      | other => simp [hi,hx,catchBlock,raise] at h
      | std what =>
        cases hw : p.errorHandle what with
        | some e => simp [hi,hx,hw,catchBlock] at h
        | none =>
          cases hu : p.uninit with
          | some e => simp [hi,hx,hw,hu,catchBlock] at h
          | none =>
            refine ⟨hi,?_,fun _ => hu⟩
            intro e m hm
            obtain ⟨rfl,rfl⟩ : .std what=e ∧ msg=m := by simpa [hx] using hm
            exact ⟨what,rfl,hw⟩

end Instance

section Life

variable {before : Option Thrown} {module : Option Plugin} {actorId serial : Nat}
  {inbox : List EventMessage}

section Ready

variable {p : Plugin} {actor : Nat} (hc : p.hasCreate=true) (hd : p.hasDestroy=true)
  (ha : p.createFunc actorId=some actor)
include hc hd ha

theorem life_of_value {t : List Event}
    (h : runInstance before actor serial p inbox=⟨t,.value ()⟩) :
    life before (some p) actorId serial inbox=
      ⟨.create (some actor)::(t++[Event.exited (exitMessage actorId serial)]),.finished⟩ := by
  simp [life,launchActor,launchModule,launchTask,emit,hc,hd,ha,h]

theorem life_of_waiting {t : List Event}
    (h : runInstance before actor serial p inbox=⟨t,.waiting⟩) :
    life before (some p) actorId serial inbox=⟨.create (some actor)::t,.suspended⟩ := by
  simp [life,launchActor,launchModule,launchTask,hc,hd,ha,h]

theorem life_of_thrown {t : List Event} {e : Thrown}
    (h : runInstance before actor serial p inbox=⟨t,.thrown e⟩) :
    life before (some p) actorId serial inbox=⟨.create (some actor)::t,.terminated⟩ := by
  simp [life,launchActor,launchModule,launchTask,hc,hd,ha,h]

theorem Harmless.course (h : Harmless before p inbox) :
    Course before (some p) actorId serial inbox (life before (some p) actorId serial inbox) := by
  have he := tryBlock_ending before p inbox
  cases hx : raised before p inbox with
  | none =>
    cases hs : stopped inbox with
    | false =>
      have he : (tryBlock before p inbox).ending=.waiting := by simpa [hx,hs] using he
      have hr : runInstance before actor serial p inbox=
          ⟨.init::(tryBlock before p inbox).trace,.waiting⟩ := by
        simp [runInstance,h.init,runCoroutine_waiting he]
      rw [life_of_waiting hc hd ha hr]
      exact .working rfl ha he
    | true =>
      have he : (tryBlock before p inbox).ending=.value .success := by simpa [hx,hs] using he
      have hr : runInstance before actor serial p inbox=
          ⟨.init::((tryBlock before p inbox).trace++[Event.uninit,.destroy]),.value ()⟩ := by
        simp [runInstance,emit,h.init,runCoroutine_success he,h.uninit (Or.inr hs)]
      rw [life_of_value hc hd ha hr]
      simpa using Course.stopped rfl ha he
  | some x =>
    obtain ⟨e,msg⟩ := x
    obtain ⟨what,rfl,hw⟩ := h.caught e msg hx
    have he : (tryBlock before p inbox).ending=.thrown (.std what,msg) := by simpa [hx] using he
    have hr : runInstance before actor serial p inbox=
        ⟨.init::((tryBlock before p inbox).trace++(msg.toList.map Event.release++
          [Event.crashReport (crashMessage actor serial msg what),.errorHandle what,
            .uninit,.destroy])),.value ()⟩ := by
      simp [runInstance,emit,h.init,runCoroutine_failure he hw,h.uninit (by simp [hx])]
    rw [life_of_value hc hd ha hr]
    simpa using Course.crashed rfl ha he

end Ready

theorem Tame.course (h : Tame before module actorId inbox) :
    Course before module actorId serial inbox (life before module actorId serial inbox) := by
  cases module with
  | none => exact .absent (Or.inl rfl)
  | some p =>
    by_cases hr : p.hasCreate=true ∧ p.hasDestroy=true
    · obtain ⟨hc,hd⟩ := hr
      cases ha : p.createFunc actorId with
      | none =>
        simpa [life,launchActor,launchModule,hc,hd,ha,launchTask] using .absent (Or.inr rfl)
      | some actor => exact Harmless.course hc hd ha (h p actor rfl hc hd ha)
    · simpa [life,launchActor,launchModule,hr,launchTask] using .absent (Or.inl rfl)

theorem tame_of_survives (h : (life before module actorId serial inbox).status≠.terminated) :
    Tame before module actorId inbox := by
  intro p actor hm hc hd ha
  subst hm
  refine harmless_of_runInstance actor serial ?_
  intro e he
  apply h
  rw [life_of_thrown hc hd ha (eq_mk he)]

end Life

/-- Exactly the failures of harmless instances are contained. -/
theorem contained_iff_tame (before : Option Thrown) (module : Option Plugin)
    (actorId serial : Nat) (inbox : List EventMessage) :
    Contained actorId serial (life before module actorId serial inbox) ↔
      Tame before module actorId inbox := by
  constructor
  · intro h
    exact tame_of_survives h.survives
  · intro h
    exact h.course.contained

theorem gateWayActor_harmless (inbox : List EventMessage) :
    Harmless boom gateWayActor inbox where
  init := rfl
  caught e m h := by
    obtain ⟨rfl,-⟩ : .std "boom!boom!boom!"=e ∧ none=m := by simpa [raised,boom] using h
    exact ⟨_,rfl,rfl⟩
  uninit _ := rfl

theorem contained_iff_tame_gateWayActor :
    Contained 1 0 (life boom (some gateWayActor) 1 0 [Manager.stopMessage]) := by
  refine (contained_iff_tame boom (some gateWayActor) 1 0 [Manager.stopMessage]).mpr ?_
  intro p actor hp _ _ _
  cases hp
  exact gateWayActor_harmless _

/-- The gateway fails in every incarnation, whatever it is sent, and each failure is
contained. -/
theorem gateWayActor_life (actorId serial : Nat) (inbox : List EventMessage) :
    life boom (some gateWayActor) actorId serial inbox=
      ⟨[.create (some actorId),.init,.threw (.std "boom!boom!boom!"),
        .crashReport (crashMessage actorId serial none "boom!boom!boom!"),
        .errorHandle "boom!boom!boom!",.uninit,.destroy,
        .exited (exitMessage actorId serial)],.finished⟩ := rfl

/-- An exception out of `Init`, `error_handle` or `Uninit`, or one out of `ProcessEvent` that is
not a `std::exception`, reaches `LaunchTask` and ends the process; no exit event is sent. -/
theorem escaped_exception_terminates :
    (∀ p∈[{gateWayActor with init := some (.std "init")},
        {gateWayActor with errorHandle := fun _ => some (.std "handler")},
        {gateWayActor with uninit := some (.std "uninit")}],
      (life boom (some p) 1 0 []).status=.terminated ∧
      (life boom (some p) 1 0 []).trace.filter Event.isExited=[] ∧
      ¬Contained 1 0 (life boom (some p) 1 0 [])) ∧
    ¬Contained 1 0 (life none
      (some {gateWayActor with processEvent := fun _ _ => some .other}) 1 0
      [⟨.none,2,"",0⟩]) := by
  refine ⟨?_,not_contained (by decide +kernel)⟩
  intro p hp
  simp only [List.mem_cons,List.not_mem_nil,or_false] at hp
  rcases hp with rfl | rfl | rfl
  · exact ⟨by decide +kernel,by decide +kernel,not_contained (by decide +kernel)⟩
  · exact ⟨by decide +kernel,by decide +kernel,not_contained (by decide +kernel)⟩
  · exact ⟨by decide +kernel,by decide +kernel,not_contained (by decide +kernel)⟩

end Acnet.Launch
