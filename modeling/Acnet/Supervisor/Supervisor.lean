import Acnet.Framework.Machine
import Acnet.Manager.Effect

/-!
The bookkeeping of the manager on its own, for any sequence of messages whatever their type and
sender. Here `childrens_` is a map whose keys are apart from the metadata, and mailboxes are
objects of their own; whom a stop request is sent to is what the handlers say.
-/

namespace Acnet.Supervisor

open Manager (AcConfig LoadedModule Outcome Startup Child Members supervise load)

/-- The metadata of a child; mailboxes are numbered as they are made, the manager's own is 0. -/
structure ActorMetaData where
  actorId : Nat
  mailbox : Nat
  moduleName : String
  creator : LoadedModule
  deriving DecidableEq

/-- A call of a creator. -/
structure Launch where
  actorId : Nat
  mailbox : Nat
  module : LoadedModule
  deriving DecidableEq

structure State where
  isRunning : Bool
  reloadAllFlag : Bool
  childrens : List (Nat×ActorMetaData)
  pendingReload : Finset Nat
  pendingStop : Finset Nat
  pendingRestart : Finset Nat
  config : AcConfig
  startup : Startup
  nextId : Nat
  nextMailbox : Nat
  launches : List Launch

namespace State

def keys (s : State) : List Nat := s.childrens.map (·.1)

def find (s : State) (id : Nat) : Option ActorMetaData :=
  (s.childrens.find? (·.1=id)).map (·.2)

def launch (s : State) (c : ActorMetaData) : State :=
  {s with launches := s.launches++[⟨c.actorId,c.mailbox,c.creator⟩]}

/-- A new child, launched and put into the map unless its id is a key already. -/
def emplace (s : State) (name : String) (module : LoadedModule) : State :=
  let metadata : ActorMetaData := ⟨s.nextId,s.nextMailbox,name,module⟩
  let s' := State.launch {s with nextId := s.nextId+1, nextMailbox := s.nextMailbox+1} metadata
  if metadata.actorId∈s.keys then s'
  else {s' with childrens := s.childrens++[(metadata.actorId,metadata)]}

/-- The entry of a key gets a new creator and is launched again. -/
def relaunch (s : State) (e : Nat×ActorMetaData) (module : LoadedModule) : State :=
  State.launch {s with childrens := s.childrens.map fun x =>
    if x.1=e.1 then (x.1,{x.2 with creator := module}) else x} {e.2 with creator := module}

def erase (s : State) (id : Nat) : State :=
  {s with childrens := s.childrens.filter (·.1≠id)}

/-- An entry is noted for reloading. -/
def noteReload (s : State) (e : Nat×ActorMetaData) : State :=
  {s with
    pendingReload := insert e.1 s.pendingReload
    pendingRestart := s.pendingRestart.erase e.1}

/-- An entry is noted for removal. -/
def noteStop (s : State) (e : Nat×ActorMetaData) : State :=
  {s with
    pendingStop := insert e.1 s.pendingStop
    pendingRestart := s.pendingRestart.erase e.1}

/-- The pending sets forget a child whose exit is handled. -/
def forget (s : State) (id : Nat) : State :=
  {s with
    pendingReload := s.pendingReload.erase id
    pendingStop := s.pendingStop.erase id
    pendingRestart := s.pendingRestart.erase id}

end State

instance : Child (Nat×ActorMetaData) where
  key e := e.1
  mailbox e := e.2.mailbox
  moduleName e := e.2.moduleName

instance : Members State (Nat×ActorMetaData) where
  isRunning s := s.isRunning
  reloadAllFlag s := s.reloadAllFlag
  childrens s := s.childrens
  pendingReload s := s.pendingReload
  pendingStop s := s.pendingStop
  pendingRestart s := s.pendingRestart
  config s := s.config
  startup s := s.startup
  launches s := s.launches.length
  setReloadAllFlag s flag := {s with reloadAllFlag := flag}
  setConfig s config := {s with config := config}
  setStartup s startup := {s with startup := startup}
  emplace s name module := s.emplace name module
  relaunch s e module := s.relaunch e module
  restartModule s e := s.launch e.2
  erase s id := s.erase id
  requestReload s e := s.noteReload e
  requestStop s e := s.noteStop e
  requestRestart s id := {s with pendingRestart := insert id s.pendingRestart}
  forget s id := s.forget id

/-- The books as `EventLoop` opens them, before `__load_modules`. -/
def init (config : AcConfig) : State where
  isRunning := true
  reloadAllFlag := false
  childrens := []
  pendingReload := ∅
  pendingStop := ∅
  pendingRestart := ∅
  config := config
  startup := .begin
  nextId := 1
  nextMailbox := 1
  launches := []

/-- The first load goes on, a message is handled, or `Shutdown` clears `is_running_`. -/
inductive Action where
  | load (o : Outcome)
  | handle (o : Outcome) (m : EventMessage)
  | shutdown

def next (s : State) : Action → Option State
  | .load o => load o s
  | .handle o m => some (supervise o s m).1
  | .shutdown => some {s with isRunning := false}

def machine : Machine State Action where
  start s := ∃ config,s=init config
  next := next

end Acnet.Supervisor
