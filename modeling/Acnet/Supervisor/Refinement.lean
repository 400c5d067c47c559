import Acnet.Manager.Frame
import Acnet.Manager.Morphism
import Acnet.Supervisor.Books

/-!
The manager with its coroutines and mailboxes keeps the books of the supervisor: every run of
the one projects to a run of the other. A child's mailbox has the child's number.
-/

namespace Acnet.Supervisor

open Manager (LoadedModule Outcome Coroutine Ledger Morphism supervise)

def entry (c : Manager.ActorMetaData) : Nat×ActorMetaData :=
  (c.actorId,⟨c.actorId,c.actorId,c.moduleName,c.creator⟩)

def launched (c : Coroutine) : Launch := ⟨c.actorId,c.actorId,c.module⟩

/-- The books of the manager. -/
def project (s : Manager.State) : State where
  isRunning := s.isRunning
  reloadAllFlag := s.reloadAllFlag
  childrens := s.childrens.map entry
  pendingReload := s.pendingReload
  pendingStop := s.pendingStop
  pendingRestart := s.pendingRestart
  config := s.config
  startup := s.startup
  nextId := s.nextId
  nextMailbox := s.nextId
  launches := s.coroutines.map launched

/-- The next id is new. -/
def Fresh (s : Manager.State) : Prop := ∀ id∈s.keys,id < s.nextId

variable {s : Manager.State}

theorem project_keys (s : Manager.State) : (project s).keys=s.keys := by
  simp [State.keys,Manager.State.keys,project,entry]

theorem project_emplace (h : Fresh s) (name : String) (module : LoadedModule) :
    (project s).emplace name module=project (s.emplace name module) := by
  have hnew : (project s).nextId∉(project s).keys := by
    rw [project_keys]
    exact fun hk => Nat.lt_irrefl _ (h _ hk)
  rw [emplace_new hnew]
  simp [project,Manager.State.emplace,Manager.State.launch,entry,launched]

theorem project_relaunch (s : Manager.State) (c : Manager.ActorMetaData) (module : LoadedModule) :
    (project s).relaunch (entry c) module=project (s.relaunch c.actorId module) := by
  have hmap : (s.childrens.map entry).map (fun x =>
        if x.1=c.actorId then (x.1,{x.2 with creator := module}) else x)=
      (s.childrens.map fun d =>
        if d.actorId=c.actorId then {d with creator := module} else d).map entry := by
    rw [List.map_map,List.map_map]
    apply List.map_congr_left
    intro d _
    by_cases hd : d.actorId=c.actorId <;> simp [entry,hd]
  simp only [State.relaunch,State.launch,Manager.State.relaunch,Manager.State.launch,project,
    List.map_append]
  change State.mk _ _ ((s.childrens.map entry).map fun x =>
    if x.1=c.actorId then (x.1,{x.2 with creator := module}) else x) _ _ _ _ _ _ _ _=_
  rw [hmap]
  rfl

theorem project_restartModule (s : Manager.State) (c : Manager.ActorMetaData) :
    (project s).launch (entry c).2=project (s.restartModule c) := by
  simp [State.launch,project,Manager.State.restartModule,Manager.State.launch,entry,launched]

theorem project_erase (s : Manager.State) (id : Nat) :
    (project s).erase id=project (s.erase id) := by
  simp only [State.erase,Manager.State.erase,project,List.filter_map]
  rfl

theorem fresh_emplace (h : Fresh s) (name : String) (module : LoadedModule) :
    Fresh (s.emplace name module) := by
  intro id hid
  rw [Manager.keys_emplace] at hid
  change id < s.nextId+1
  rcases List.mem_append.mp hid with hid | hid
  · exact Nat.lt_succ_of_lt (h id hid)
  · rw [List.mem_singleton.mp hid]
    exact Nat.lt_succ_self _

/-- Each member of the manager, and what is done to it, is the supervisor's. -/
theorem project_morphism : Morphism Fresh project entry where
  key _ := rfl
  mailbox _ := rfl
  moduleName _ := rfl
  isRunning _ := rfl
  reloadAllFlag _ := rfl
  childrens _ := rfl
  pendingReload _ := rfl
  pendingStop _ := rfl
  pendingRestart _ := rfl
  config _ := rfl
  startup _ := rfl
  launches _ := List.length_map ..
  setReloadAllFlag _ _ := rfl
  setConfig _ _ := rfl
  setStartup _ _ := rfl
  emplace _ name module hs := project_emplace hs name module
  relaunch s c module := project_relaunch s c module
  restartModule s c := project_restartModule s c
  erase s id := project_erase s id
  requestReload _ _ := rfl
  requestStop _ _ := rfl
  requestRestart _ _ := rfl
  forget _ _ := rfl
  kept := by
    refine ⟨fun _ name module hs => fresh_emplace hs name module,fun s c module _ hs => ?_⟩
    intro id hid
    rw [Manager.relaunch_eq,Manager.keys_relaunch] at hid
    exact hs id hid
  kept_setReloadAllFlag _ _ hs := hs
  kept_setConfig _ _ hs := hs
  kept_setStartup _ _ hs := hs
  kept_requestReload _ _ hs := hs
  kept_forget _ _ hs := hs

/-- The launches only depend on what is settled by a launch. -/
theorem launched_origins {t : Manager.State} (h : t.origins=s.origins) :
    t.coroutines.map launched=s.coroutines.map launched := by
  have hl := congrArg (List.map fun x : Nat×LoadedModule => (⟨x.1,x.1,x.2⟩ : Launch)) h
  simp only [Manager.State.origins,List.map_map] at hl
  exact hl

theorem project_taken (s : Manager.State) (m : EventMessage) (rest : List EventMessage) :
    project (Manager.taken s m rest)=project s := by
  unfold project
  rw [launched_origins (Manager.taken_origins s m rest)]
  rfl

theorem project_finish (s : Manager.State) (done : Bool) :
    project (Manager.finish s done)=project s := by
  cases done <;> rfl

/-- Handling a message keeps the books of the supervisor. -/
theorem project_dispatch (h : Fresh s) (o : Outcome) (m : EventMessage) :
    (supervise o (project s) m).1=project (Manager.dispatch o s m).1 ∧
    (supervise o (project s) m).2.2=(Manager.dispatch o s m).2 := by
  rw [project_morphism.supervise h o m]
  unfold Manager.dispatch
  split_ifs <;> exact ⟨rfl,rfl⟩

/-- The step of the supervisor that a step of the manager is. -/
def label (s : Manager.State) : Manager.Action → Option Action
  | .load o => some (.load o)
  | .handle o => s.mailbox.messages.head?.map (.handle o)
  | .clearRunning => some .shutdown
  | _ => none

/-- A step that neither handles a message nor loads leaves the books alone but for
`is_running_`. -/
theorem project_quiet {t : Manager.State} {a : Manager.Action} (h : Manager.Step s a t)
    (ha : ∀ o,a≠.handle o) (hl : ∀ o,a≠.load o) :
    project t={project s with isRunning := t.isRunning} := by
  have hq := h.quiet ha hl
  unfold project
  rw [launched_origins (h.origins ha hl),hq.reloadAllFlag,hq.childrens,hq.pendingReload,
    hq.pendingStop,hq.pendingRestart,hq.config,hq.nextId,h.startup hl]

theorem step_isRunning {t : Manager.State} {a : Manager.Action} (h : Manager.Step s a t)
    (ha : ∀ o,a≠.handle o) (hl : ∀ o,a≠.load o) (hs : a≠.clearRunning) :
    t.isRunning=s.isRunning := by
  cases h with
  | load => exact absurd rfl (hl _)
  | command | shutdown | shutdownAgain | sendExit | post => rfl
  | clearRunning => exact absurd rfl hs
  | handle => exact absurd rfl (ha _)
  | actor self enqueued move => cases move <;> rfl

theorem fresh_of_ledger (h : Ledger s) : Fresh s := fun id hid => (h.keys_lt id hid).2

/-- The manager refines the supervisor. -/
theorem manager_simulates :
    Manager.machine.Simulates Machine.anyStep machine label
      (fun s x => Ledger s ∧ x=project s) := by
  intro s a t x hx hn _
  obtain ⟨hs,rfl⟩ := hx
  have hnext : Manager.next s a=some t := hn
  have ht := hs.next hnext
  have same (ha : ∀ o,a≠.handle o) (hl : ∀ o,a≠.load o) (hclear : a≠.clearRunning) :
      Ledger t ∧ project s=project t := by
    have hstep := Manager.next_cases hnext
    refine ⟨ht,?_⟩
    rw [project_quiet hstep ha hl,step_isRunning hstep ha hl hclear]
    rfl
  cases a with
  | load o =>
    have hload : Manager.load o (project s)=some (project t) := by
      rw [project_morphism.load (fresh_of_ledger hs),show Manager.load o s=some t from hnext]
      rfl
    exact ⟨_,hload,ht,rfl⟩
  | handle o =>
    obtain ⟨m,rest,hl,hm,rfl⟩ := Manager.handle_cases hnext
    simp only [label,hm,List.head?_cons,Option.map_some]
    refine ⟨_,rfl,ht,?_⟩
    rw [project_finish,← (project_dispatch (fresh_of_ledger (hs.take hm)) o m).1,project_taken]
  | clearRunning =>
    refine ⟨_,rfl,ht,?_⟩
    simp only [Manager.next] at hnext
    split_ifs at hnext
    cases hnext
    rfl
  | reloadModule | removeModule | shutdown | sendExit | actor | post | postManager =>
    exact same (by simp) (by simp) (by simp)

/-- What holds of the books in every run of the supervisor holds in every run of the manager. -/
theorem manager_supervised (h : Manager.machine.Reachable s) : machine.Reachable (project s) := by
  obtain ⟨s₀,hstart,hsteps⟩ := h
  have hledger := Manager.start_ledger hstart
  obtain ⟨x,hx,-,rfl⟩ := manager_simulates.steps hsteps ⟨hledger,rfl⟩
  obtain ⟨config,rfl⟩ := hstart
  exact ⟨_,init_start config,hx⟩

end Acnet.Supervisor
