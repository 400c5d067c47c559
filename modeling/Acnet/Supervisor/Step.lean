import Acnet.Supervisor.Supervisor
import Mathlib.Data.Finset.Basic
import Mathlib.Data.Finset.Lattice.Lemmas

namespace Acnet.Supervisor

open Manager (AcConfig LoadedModule Child Members requestAll)

section Members

variable (s : State) (e : Nat×ActorMetaData) (id : Nat) (config : AcConfig) (flag : Bool)
  (name : String) (module : LoadedModule)

@[simp] theorem childrens_eq : Members.childrens s=s.childrens := rfl

@[simp] theorem isRunning_eq : Members.isRunning s=s.isRunning := rfl

@[simp] theorem pendingReload_eq : Members.pendingReload s=s.pendingReload := rfl

@[simp] theorem pendingStop_eq : Members.pendingStop s=s.pendingStop := rfl

@[simp] theorem pendingRestart_eq : Members.pendingRestart s=s.pendingRestart := rfl

@[simp] theorem keys_eq : Manager.keys s=s.keys := rfl

@[simp] theorem setConfig_eq : Members.setConfig s config={s with config := config} := rfl

@[simp] theorem setReloadAllFlag_eq :
    Members.setReloadAllFlag s flag={s with reloadAllFlag := flag} := rfl

@[simp] theorem emplace_eq : Members.emplace s name module=s.emplace name module := rfl

@[simp] theorem requestReload_eq : Members.requestReload s e=s.noteReload e := rfl

@[simp] theorem requestStop_eq : Members.requestStop s e=s.noteStop e := rfl

@[simp] theorem requestRestart_eq :
    Members.requestRestart s id={s with pendingRestart := insert id s.pendingRestart} := rfl

end Members

theorem emplace_new {s : State} (h : s.nextId∉s.keys) (name : String) (module : LoadedModule) :
    s.emplace name module={s with
      childrens := s.childrens++[(s.nextId,⟨s.nextId,s.nextMailbox,name,module⟩)]
      nextId := s.nextId+1
      nextMailbox := s.nextMailbox+1
      launches := s.launches++[⟨s.nextId,s.nextMailbox,module⟩]} :=
  if_neg h

theorem keys_emplace {s : State} (h : s.nextId∉s.keys) (name : String) (module : LoadedModule) :
    (s.emplace name module).keys=s.keys++[s.nextId] := by
  simp [emplace_new h,State.keys]

/-- The entry of a child. -/
theorem find_eq {s : State} {id : Nat} {c : ActorMetaData} (h : s.find id=some c) :
    Manager.find s id=some (id,c) := by
  obtain ⟨e,he,rfl⟩ := Option.map_eq_some_iff.mp h
  obtain rfl : e.1=id := by simpa using List.find?_some he
  exact he

theorem find_mem {s : State} {id : Nat} {c : ActorMetaData} (h : s.find id=some c) :
    (id,c)∈s.childrens :=
  (Members.find_mem (find_eq h)).1

theorem mem_keys {s : State} {e : Nat×ActorMetaData} (h : e∈s.childrens) : e.1∈s.keys :=
  Members.mem_keys (s := s) h

theorem foldl_noteReload (l : List (Nat×ActorMetaData)) (s : State) :
    l.foldl State.noteReload s={s with
      pendingReload := s.pendingReload∪(l.map (·.1)).toFinset
      pendingRestart := s.pendingRestart\(l.map (·.1)).toFinset} := by
  induction l generalizing s with
  | nil => simp [Finset.union_empty]
  | cons e l ih =>
    rw [List.foldl_cons,ih]
    simp [State.noteReload,Finset.sdiff_insert,Finset.erase_sdiff_comm]

theorem foldl_noteStop (l : List (Nat×ActorMetaData)) (s : State) :
    l.foldl State.noteStop s={s with
      pendingStop := s.pendingStop∪(l.map (·.1)).toFinset
      pendingRestart := s.pendingRestart\(l.map (·.1)).toFinset} := by
  induction l generalizing s with
  | nil => simp [Finset.union_empty]
  | cons e l ih =>
    rw [List.foldl_cons,ih]
    simp [State.noteStop,Finset.sdiff_insert,Finset.erase_sdiff_comm]

theorem requestAll_eq (s : State) :
    requestAll s={s with
      reloadAllFlag := true
      pendingReload := s.pendingReload∪s.keys.toFinset
      pendingRestart := s.pendingRestart\s.keys.toFinset} :=
  foldl_noteReload s.childrens {s with reloadAllFlag := true}

end Acnet.Supervisor
