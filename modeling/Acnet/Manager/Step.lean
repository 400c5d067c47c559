import Acnet.Manager.Manager
import Mathlib.Data.Finset.Basic
import Mathlib.Data.Finset.Lattice.Lemmas
import Mathlib.Data.List.Nodup

namespace Acnet.Manager

section Members

@[simp] theorem moduleName_eq (c : ActorMetaData) : Child.moduleName c=c.moduleName := rfl

@[simp] theorem config_eq (s : State) : Members.config s=s.config := rfl

@[simp] theorem childrens_eq (s : State) : Members.childrens s=s.childrens := rfl

@[simp] theorem emplace_eq (s : State) (name : String) (module : LoadedModule) :
    Members.emplace s name module=s.emplace name module := rfl

@[simp] theorem relaunch_eq (s : State) (c : ActorMetaData) (module : LoadedModule) :
    Members.relaunch s c module=s.relaunch c.actorId module := rfl

@[simp] theorem find_eq (s : State) (id : Nat) : find s id=s.find id := rfl

end Members

theorem find_mem {s : State} {id : Nat} {c : ActorMetaData} (h : s.find id=some c) :
    c∈s.childrens ∧ c.actorId=id :=
  Members.find_mem (s := s) h

theorem mem_keys {s : State} {c : ActorMetaData} (h : c∈s.childrens) : c.actorId∈s.keys :=
  Members.mem_keys (s := s) h

theorem find_isSome {s : State} {id : Nat} : (s.find id).isSome=true ↔ id∈s.keys :=
  Members.find_isSome (s := s)

theorem firstNamed_mem {o : Outcome} {k : Nat} {l : List ActorMetaData} {name : String}
    {c : ActorMetaData} (h : firstNamed o k l name=some c) : c∈l ∧ c.moduleName=name :=
  Child.firstNamed_mem h

theorem firstNamed_none {o : Outcome} {k : Nat} {l : List ActorMetaData} {name : String}
    (h : firstNamed o k l name=none) : ∀ c∈l,c.moduleName≠name :=
  Child.firstNamed_none h

theorem keys_emplace (s : State) (name : String) (module : LoadedModule) :
    (s.emplace name module).keys=s.keys++[s.nextId] := by
  simp [State.emplace,State.launch,State.keys]

theorem map_keys (l : List ActorMetaData) (id : Nat) (module : LoadedModule) :
    (l.map fun c => if c.actorId=id then {c with creator := module} else c).map (·.actorId)=
      l.map (·.actorId) := by
  rw [List.map_map]
  apply List.map_congr_left
  intro c _
  simp only [Function.comp]
  split_ifs <;> rfl

theorem keys_relaunch (s : State) (id : Nat) (module : LoadedModule) :
    (s.relaunch id module).keys=s.keys :=
  map_keys s.childrens id module

theorem mem_keys_erase {s : State} {id x : Nat} : x∈(s.erase id).keys ↔ x∈s.keys ∧ x≠id := by
  simp only [State.keys,State.erase,List.mem_map,List.mem_filter,decide_eq_true_eq]
  constructor
  · rintro ⟨c,⟨hc,hne⟩,rfl⟩
    exact ⟨⟨c,hc,rfl⟩,hne⟩
  · rintro ⟨⟨c,hc,rfl⟩,hne⟩
    exact ⟨c,⟨hc,hne⟩,rfl⟩

/-- The children that a broadcast stop request for a reload leaves behind. -/
def stopAll (s : State) (config : AcConfig) : State :=
  s.childrens.foldl State.requestReload {s with config := config, reloadAllFlag := true}

/-- The handled exit is the last one that a reload-all waits for. -/
def CompletesReloadAll (s : State) (m : EventMessage) : Prop :=
  m.type=.moduleExited ∧ m.senderId∈s.keys ∧ Reloading s m.senderId ∧
    s.reloadAllFlag=true ∧ s.pendingReload.erase m.senderId=∅

instance (s : State) (m : EventMessage) : Decidable (CompletesReloadAll s m) :=
  inferInstanceAs (Decidable (_ ∧ _ ∧ _ ∧ _ ∧ _))

/-- Everything that handling a message can do. -/
inductive Dispatch (o : Outcome) (s : State) (m : EventMessage) : State → Prop
  | ignore (reload : m.type=.cmdModuleReload → o.config=none) (exit : m.type≠.cmdExit)
      (exited : m.type≠.moduleExited) : Dispatch o s m s
  | exit (type : m.type=.cmdExit) :
      Dispatch o s m {s.childrens.foldl State.requestStop s with exitHandled := true}
  | reloadAll {config : AcConfig} (type : m.type=.cmdModuleReload)
      (update : o.config=some config) (all : m.payload="all")
      (some : (stopAll s config).pendingReload≠∅) : Dispatch o s m (stopAll s config)
  | loadAll {config : AcConfig} (type : m.type=.cmdModuleReload)
      (update : o.config=some config) (all : m.payload="all")
      (none : (stopAll s config).pendingReload=∅) :
      Dispatch o s m (loadModules o (stopAll s config))
  | reloadOne {config : AcConfig} {c : ActorMetaData} (type : m.type=.cmdModuleReload)
      (update : o.config=some config) (one : m.payload≠"all")
      (found : firstNamed o 0 s.childrens m.payload=some c) :
      Dispatch o s m (State.requestReload {s with config := config, reloadAllFlag := false} c)
  | reloadNew {config : AcConfig} (type : m.type=.cmdModuleReload)
      (update : o.config=some config) (one : m.payload≠"all")
      (missing : firstNamed o 0 s.childrens m.payload=none) :
      Dispatch o s m
        (reloadModule o {s with config := config, reloadAllFlag := false} 0 m.payload)
  | remove {c : ActorMetaData} (type : m.type=.cmdModuleRemove)
      (found : firstNamed o 0 s.childrens m.payload=some c) : Dispatch o s m (s.requestStop c)
  | crash (type : m.type=.crashReport) (child : m.senderId∈s.keys)
      (running : s.isRunning=true) (reload : m.senderId∉s.pendingReload)
      (stop : m.senderId∉s.pendingStop) :
      Dispatch o s m {s with pendingRestart := insert m.senderId s.pendingRestart}
  | unknown (type : m.type=.moduleExited) (missing : m.senderId∉s.keys) :
      Dispatch o s m (s.forget m.senderId)
  | barrier (type : m.type=.moduleExited) (child : m.senderId∈s.keys)
      (reload : Reloading s m.senderId) (all : s.reloadAllFlag=true)
      (wait : s.pendingReload.erase m.senderId≠∅) : Dispatch o s m (s.forget m.senderId)
  | complete (type : m.type=.moduleExited) (child : m.senderId∈s.keys)
      (reload : Reloading s m.senderId) (all : s.reloadAllFlag=true)
      (last : s.pendingReload.erase m.senderId=∅) :
      Dispatch o s m (reloadAllModules o (s.forget m.senderId))
  | single {c : ActorMetaData} (type : m.type=.moduleExited) (child : s.find m.senderId=some c)
      (reload : Reloading s m.senderId) (one : s.reloadAllFlag=false) :
      Dispatch o s m (reloadModule o (s.forget m.senderId) m.senderId c.moduleName)
  | restart {c : ActorMetaData} (type : m.type=.moduleExited)
      (child : s.find m.senderId=some c) (restart : Restarting s m.senderId) :
      Dispatch o s m ((s.forget m.senderId).restartModule c)
  | erase (type : m.type=.moduleExited) (child : m.senderId∈s.keys)
      (reload : ¬Reloading s m.senderId) (restart : ¬Restarting s m.senderId) :
      Dispatch o s m ((s.forget m.senderId).erase m.senderId)

theorem dispatch_cases (o : Outcome) (s : State) (m : EventMessage) :
    Dispatch o s m (dispatch o s m).1 := by
  have he := supervise_effect o s m
  unfold dispatch
  generalize supervise o s m=r at he
  obtain ⟨t,stop,done⟩ := r
  simp only at he ⊢
  have plain {type : EventType} (ht : m.type=type) (hne : type≠.cmdExit)
      (h : Dispatch o s m t) :
      Dispatch o s m (if m.type=.cmdExit then {t with exitHandled := true} else t) := by
    rwa [if_neg (ht ▸ hne)]
  cases he with
  | other exit reload remove exited crash =>
    exact plain rfl exit (.ignore (fun type => absurd type reload) exit exited)
  | exitEmpty type empty =>
    have hd := Dispatch.exit (o := o) (s := s) type
    rw [show s.childrens=[] from empty] at hd
    rwa [if_pos type]
  | exit type some =>
    rw [if_pos type]
    exact .exit type
  | reloadFailed type update =>
    exact plain type (by decide) (.ignore (fun _ => update) (by simp [type]) (by simp [type]))
  | reloadAll type update all some =>
    exact plain type (by decide) (.reloadAll type update all some)
  | loadAll type update all none =>
    exact plain type (by decide) (.loadAll type update all none)
  | reloadOne type update one found =>
    exact plain type (by decide) (.reloadOne type update one found)
  | reloadNew type update one missing =>
    exact plain type (by decide) (.reloadNew type update one missing)
  | remove type found => exact plain type (by decide) (.remove type found)
  | removeMissing type | crashIgnored type =>
    exact plain type (by decide) (.ignore (by simp [type]) (by simp [type]) (by simp [type]))
  | crash type noted =>
    exact plain type (by decide) (.crash type noted.1 noted.2.1 noted.2.2.1 noted.2.2.2)
  | unknown type missing => exact plain type (by decide) (.unknown type missing)
  | reload type child reload =>
    refine plain type (by decide) ?_
    have hk : m.senderId∈s.keys := (find_mem child).2 ▸ mem_keys (find_mem child).1
    unfold reloadExited
    split_ifs with hall he
    · exact .complete type hk reload hall he
    · exact .barrier type hk reload hall he
    · exact .single type child reload (Bool.eq_false_iff.mpr hall)
  | restart type child restart => exact plain type (by decide) (.restart type child restart)
  | erase type child reload restart =>
    have hk : m.senderId∈s.keys := (find_mem child).2 ▸ mem_keys (find_mem child).1
    exact plain type (by decide) (.erase type hk reload restart)

/-- The loop returns when an exit command finds no child, or the last child has exited while the
manager is to stop. -/
theorem dispatch_done {o : Outcome} {s : State} {m : EventMessage} :
    (dispatch o s m).2=true ↔ (m.type=.cmdExit ∧ s.childrens=[]) ∨
      (m.type=.moduleExited ∧ m.senderId∈s.keys ∧ s.isRunning=false ∧
        (dispatch o s m).1.childrens=[]) := by
  have he := supervise_effect o s m
  unfold dispatch
  generalize supervise o s m=r at he
  obtain ⟨t,stop,done⟩ := r
  simp only at he ⊢
  have hrun {p : Prop} (hr : Members.isRunning s=true) (hf : s.isRunning=false) : p :=
    absurd (hf.symm.trans hr) (by decide)
  cases he with
  | other exit reload remove exited crash => simp [exit,exited]
  | exitEmpty type empty => exact ⟨fun _ => Or.inl ⟨type,empty⟩,fun _ => rfl⟩
  | exit type some =>
    refine ⟨by simp,fun h => ?_⟩
    rcases h with ⟨-,hempty⟩ | ⟨hexited,-⟩
    · exact absurd hempty some
    · exact absurd (type.symm.trans hexited) (by decide)
  | reloadFailed type | reloadAll type | loadAll type | reloadOne type | reloadNew type
  | remove type | removeMissing type | crash type | crashIgnored type => simp [type]
  | unknown type missing =>
    refine ⟨by simp,fun h => ?_⟩
    rcases h with ⟨hexit,-⟩ | ⟨-,hk,-⟩
    · exact absurd (type.symm.trans hexit) (by decide)
    · exact absurd hk missing
  | reload type child reload =>
    refine ⟨by simp,fun h => ?_⟩
    rcases h with ⟨hexit,-⟩ | ⟨-,-,hf,-⟩
    · exact absurd (type.symm.trans hexit) (by decide)
    · exact hrun reload.1 hf
  | restart type child restart =>
    refine ⟨by simp,fun h => ?_⟩
    rcases h with ⟨hexit,-⟩ | ⟨-,-,hf,-⟩
    · exact absurd (type.symm.trans hexit) (by decide)
    · exact hrun restart.1 hf
  | erase type child reload restart =>
    have hk : m.senderId∈s.keys := (find_mem child).2 ▸ mem_keys (find_mem child).1
    rw [if_neg (by simp [type]),Bool.and_eq_true,Bool.not_eq_true',List.isEmpty_iff]
    constructor
    · rintro ⟨hf,hempty⟩
      exact Or.inr ⟨type,hk,hf,hempty⟩
    · rintro (⟨hexit,-⟩ | ⟨-,-,hf,hempty⟩)
      · exact absurd (type.symm.trans hexit) (by decide)
      · exact ⟨hf,hempty⟩

theorem handle_cases {o : Outcome} {s t : State} (h : handle o s=some t) :
    ∃ m rest,s.loop=true ∧ s.mailbox.messages=m::rest ∧
      t=finish (dispatch o (taken s m rest) m).1 (dispatch o (taken s m rest) m).2 := by
  unfold handle at h
  split at h
  · rename_i m rest hl hm
    cases h
    exact ⟨m,rest,hl,hm,rfl⟩
  · cases h

/-- Everything that a coroutine can do in one step. -/
inductive ActorMove (s : State) (serial : Nat) (c : Coroutine) : ActorStep → State → Prop
  | start (phase : c.phase=.launched) :
      ActorMove s serial c .start (s.setPhase serial c .running)
  | startNull (phase : c.phase=.launched) :
      ActorMove s serial c .startNull (s.setPhase serial c .leaving)
  | stop {m : EventMessage} {rest : List EventMessage} (throws : Bool) (phase : c.phase=.running)
      (head : (s.mailboxes c.actorId).messages=m::rest) (type : m.type=.cmdModuleStop) :
      ActorMove s serial c (.receive throws)
        ((s.setMailbox c.actorId {s.mailboxes c.actorId with messages := rest}).setPhase serial
          {c with stopped := true} .leaving)
  | receive {m : EventMessage} {rest : List EventMessage} (throws : Bool)
      (phase : c.phase=.running) (head : (s.mailboxes c.actorId).messages=m::rest)
      (type : m.type≠.cmdModuleStop) :
      ActorMove s serial c (.receive throws)
        ((s.setMailbox c.actorId {s.mailboxes c.actorId with messages := rest}).setPhase serial c
          (if throws then .crashed else .running))
  | throw (phase : c.phase=.running) :
      ActorMove s serial c .throw (s.setPhase serial c .crashed)
  | report (phase : c.phase=.crashed) :
      ActorMove s serial c .report
        ((s.sendManager ⟨.crashReport,c.actorId,"",serial⟩).setPhase serial c .leaving)
  | exit (phase : c.phase=.leaving) :
      ActorMove s serial c .exit
        ((s.sendManager ⟨.moduleExited,c.actorId,"",serial⟩).setPhase serial c .exited)

theorem actorStep_cases {s t : State} {serial : Nat} {c : Coroutine} {a : ActorStep}
    (h : actorStep s serial c a=some t) : ActorMove s serial c a t := by
  cases a with
  | start =>
    simp only [actorStep] at h
    split_ifs at h with hp
    cases h
    exact .start hp
  | startNull =>
    simp only [actorStep] at h
    split_ifs at h with hp
    cases h
    exact .startNull hp
  | receive throws =>
    simp only [actorStep] at h
    split at h
    · rename_i hp hm
      split_ifs at h with ht hth
      · cases h
        exact .stop throws hp hm ht
      · cases h
        subst hth
        exact .receive true hp hm ht
      · cases h
        have hf : throws=false := by simpa using hth
        subst hf
        exact .receive false hp hm ht
    · cases h
  | throw =>
    simp only [actorStep] at h
    split_ifs at h with hp
    cases h
    exact .throw hp
  | report =>
    simp only [actorStep] at h
    split_ifs at h with hp
    cases h
    exact .report hp
  | exit =>
    simp only [actorStep] at h
    split_ifs at h with hp
    cases h
    exact .exit hp

/-- Everything that a step can do. -/
inductive Step (s : State) : Action → State → Prop
  | load {o : Outcome} {t : State} (effect : Loading o s t) : Step s (.load o) t
  | command {a : Action} (m : EventMessage) (caller : ∀ o,a≠.handle o)
      (loader : ∀ o,a≠.load o) (exit : m.type≠.cmdExit) (exited : m.type≠.moduleExited) :
      Step s a (s.sendManager m)
  | shutdown (running : s.isRunning=true) : Step s .shutdown {s with stopping := s.stopping+1}
  | shutdownAgain (running : s.isRunning=false) : Step s .shutdown s
  | clearRunning (caller : 0<s.stopping) :
      Step s .clearRunning
        {s with isRunning := false, stopping := s.stopping-1, sending := s.sending+1}
  | sendExit (caller : 0<s.sending) :
      Step s .sendExit (State.sendManager {s with sending := s.sending-1, exitSent := true}
        ⟨.cmdExit,0,"",0⟩)
  | handle {o : Outcome} {m : EventMessage} {rest : List EventMessage} {t : State} (done : Bool)
      (loop : s.loop=true) (head : s.mailbox.messages=m::rest)
      (result : dispatch o (taken s m rest) m=(t,done)) (effect : Dispatch o (taken s m rest) m t) :
      Step s (.handle o) (finish t done)
  | actor {serial : Nat} {c : Coroutine} {a : ActorStep} {t : State}
      (self : s.coroutines[serial]?=some c) (enqueued : s.startup.holds serial=false)
      (move : ActorMove s serial c a t) : Step s (.actor serial a) t
  | post (id : Nat) (m : EventMessage) : Step s (.post id m) (s.send id m)

theorem next_cases {s t : State} {a : Action} (h : next s a=some t) : Step s a t := by
  cases a with
  | load o => exact .load (load_cases h)
  | reloadModule name =>
    cases h
    exact .command _ (by simp) (by simp) (by simp) (by simp)
  | removeModule name =>
    cases h
    exact .command _ (by simp) (by simp) (by simp) (by simp)
  | shutdown =>
    cases h
    split_ifs with hr
    · exact .shutdown hr
    · exact .shutdownAgain (by simpa using hr)
  | clearRunning =>
    simp only [next] at h
    split_ifs at h with hc
    cases h
    exact .clearRunning hc
  | sendExit =>
    simp only [next] at h
    split_ifs at h with hc
    cases h
    exact .sendExit hc
  | handle o =>
    obtain ⟨m,rest,hl,hm,rfl⟩ := handle_cases h
    exact .handle _ hl hm rfl (dispatch_cases o _ m)
  | actor serial step =>
    simp only [next] at h
    split at h
    · cases h
    · rename_i c hc
      split_ifs at h with hh
      exact .actor hc (by simpa using hh) (actorStep_cases h)
  | post id m =>
    cases h
    exact .post id m
  | postManager m =>
    simp only [next] at h
    split_ifs at h with hd
    cases h
    apply Step.command
    · simp
    · simp
    · intro ht
      simp [isData,ht] at hd
    · intro ht
      simp [isData,ht] at hd

/-- The mailboxes after one stop request to each of the given children. -/
def stopped (ids : List Nat) (boxes : Nat → Fifo EventMessage) : Nat → Fifo EventMessage :=
  ids.foldl (fun b id => Function.update b id ((b id).send kMailBoxSize stopMessage)) boxes

theorem stopped_of_not_mem {ids : List Nat} {id : Nat} (h : id∉ids)
    (boxes : Nat → Fifo EventMessage) : stopped ids boxes id=boxes id := by
  induction ids generalizing boxes with
  | nil => rfl
  | cons a ids ih =>
    simp only [List.mem_cons,not_or] at h
    exact (ih h.2 _).trans (Function.update_of_ne h.1 _ _)

theorem stopped_of_mem {ids : List Nat} {id : Nat} (h : id∈ids) (hnd : ids.Nodup)
    (boxes : Nat → Fifo EventMessage) :
    stopped ids boxes id=(boxes id).send kMailBoxSize stopMessage := by
  induction ids generalizing boxes with
  | nil => cases h
  | cons a ids ih =>
    obtain ⟨hna,hnd⟩ := List.nodup_cons.mp hnd
    rcases List.mem_cons.mp h with rfl | h
    · exact (stopped_of_not_mem hna _).trans (Function.update_self _ _ _)
    · have hne : id≠a := fun he => hna (he ▸ h)
      rw [stopped,List.foldl_cons]
      exact (ih h hnd _).trans (by rw [Function.update_of_ne hne])

/-- The children that `State.dropped` names after those stop requests. -/
def missed : List Nat → (Nat → Fifo EventMessage) → Finset Nat → Finset Nat
  | [],_,dropped => dropped
  | id::ids,boxes,dropped =>
      missed ids (Function.update boxes id ((boxes id).send kMailBoxSize stopMessage))
        (if (boxes id).messages.length<kMailBoxSize then dropped.erase id else insert id dropped)

theorem foldl_requestReload (l : List ActorMetaData) (s : State) :
    l.foldl State.requestReload s={s with
      pendingReload := s.pendingReload∪(l.map (·.actorId)).toFinset
      pendingRestart := s.pendingRestart\(l.map (·.actorId)).toFinset
      mailboxes := stopped (l.map (·.actorId)) s.mailboxes
      dropped := missed (l.map (·.actorId)) s.mailboxes s.dropped} := by
  induction l generalizing s with
  | nil => simp [stopped,missed,Finset.union_empty]
  | cons c l ih =>
    rw [List.foldl_cons,ih]
    simp [State.requestReload,State.sendStop,State.send,State.setMailbox,stopped,missed,
      Finset.sdiff_insert,Finset.erase_sdiff_comm]

theorem foldl_requestStop (l : List ActorMetaData) (s : State) :
    l.foldl State.requestStop s={s with
      pendingStop := s.pendingStop∪(l.map (·.actorId)).toFinset
      pendingRestart := s.pendingRestart\(l.map (·.actorId)).toFinset
      mailboxes := stopped (l.map (·.actorId)) s.mailboxes
      dropped := missed (l.map (·.actorId)) s.mailboxes s.dropped} := by
  induction l generalizing s with
  | nil => simp [stopped,missed,Finset.union_empty]
  | cons c l ih =>
    rw [List.foldl_cons,ih]
    simp [State.requestStop,State.sendStop,State.send,State.setMailbox,stopped,missed,
      Finset.sdiff_insert,Finset.erase_sdiff_comm]

/-- The loop returns without children. -/
theorem dispatch_ended {o : Outcome} {s t : State} {m : EventMessage}
    (result : dispatch o s m=(t,true))
    (effect : Dispatch o s m t) : t.childrens=[] := by
  have hd : (dispatch o s m).2=true := by rw [result]
  rcases dispatch_done.mp hd with ⟨type,hempty⟩ | ⟨-,-,-,hempty⟩
  · cases effect with
    | ignore _ exit => exact absurd type exit
    | exit =>
      rw [foldl_requestStop]
      exact hempty
    | reloadAll ht | loadAll ht | reloadOne ht | reloadNew ht | remove ht | crash ht | unknown ht
    | barrier ht | complete ht | single ht | restart ht | erase ht =>
      exact absurd (type.symm.trans ht) (by decide)
  · rwa [result] at hempty

theorem stopAll_eq (s : State) (config : AcConfig) :
    stopAll s config={s with
      config := config
      reloadAllFlag := true
      pendingReload := s.pendingReload∪s.keys.toFinset
      pendingRestart := s.pendingRestart\s.keys.toFinset
      mailboxes := stopped s.keys s.mailboxes
      dropped := missed s.keys s.mailboxes s.dropped} :=
  foldl_requestReload s.childrens _

end Acnet.Manager
