import Acnet.Framework.Fifo
import Acnet.Framework.Machine
import Acnet.Manager.Effect
import Mathlib.Logic.Function.Basic

/-!
`ActorManager` with the mailboxes and coroutines of its children. `EventLoop` hands the event
loop to the scheduler and loads the modules beside it, so that both run from the start.
-/

namespace Acnet

namespace Manager

def kMailBoxSize : Nat := 256

/-- A child. Its mailbox is `State.mailboxes` at `actorId`; its creator is known by the library
that the closure holds. -/
structure ActorMetaData where
  actorId : Nat
  moduleName : String
  creator : LoadedModule
  deriving DecidableEq

instance : Child ActorMetaData where
  key c := c.actorId
  mailbox c := c.actorId
  moduleName c := c.moduleName

/-- Where a `__launch_actor` coroutine is. It is launched until it first runs, `running` in the
loop of `RunCoroutine`, `crashed` in the exception handler, `leaving` when it has yet to send
its exit event and `exited` when it has; the manager retires it by handling that event. -/
inductive Phase where
  | launched
  | running
  | crashed
  | leaving
  | exited
  | retired
  deriving DecidableEq

/-- `stopped` says that the coroutine has dequeued a stop request. -/
structure Coroutine where
  actorId : Nat
  module : LoadedModule
  phase : Phase
  stopped : Bool
  deriving DecidableEq

/-- The manager, its children's mailboxes and all coroutines it ever launched, in launch order.
`startup` is the first `__load_modules`. `stopping` counts the callers of `Shutdown` that have
found `is_running_` set and `sending` those that have cleared it and not sent `kEventCmdExit`
yet. `loop` says that the event loop has not returned. Three fields only record: `exitSent` that
a `kEventCmdExit` was sent, `exitHandled` that one was handled, and `dropped` the children whose
mailbox was full when they were last to be sent a stop request. -/
structure State where
  isRunning : Bool
  reloadAllFlag : Bool
  mainLatch : Nat
  childrens : List ActorMetaData
  pendingReload : Finset Nat
  pendingStop : Finset Nat
  pendingRestart : Finset Nat
  config : AcConfig
  nextId : Nat
  mailbox : Fifo EventMessage
  mailboxes : Nat → Fifo EventMessage
  coroutines : List Coroutine
  startup : Startup
  stopping : Nat
  sending : Nat
  loop : Bool
  exitSent : Bool
  exitHandled : Bool
  dropped : Finset Nat

def stopMessage : EventMessage := ⟨.cmdModuleStop,0,"",0⟩

namespace State

def keys (s : State) : List Nat := s.childrens.map (·.actorId)

def find (s : State) (id : Nat) : Option ActorMetaData := s.childrens.find? (·.actorId=id)

def setMailbox (s : State) (id : Nat) (box : Fifo EventMessage) : State :=
  {s with mailboxes := Function.update s.mailboxes id box}

def send (s : State) (id : Nat) (m : EventMessage) : State :=
  s.setMailbox id ((s.mailboxes id).send kMailBoxSize m)

def sendManager (s : State) (m : EventMessage) : State :=
  {s with mailbox := s.mailbox.send kMailBoxSize m}

/-- The coroutine that a creator returns, handed to the scheduler. -/
def launch (s : State) (id : Nat) (module : LoadedModule) : State :=
  {s with coroutines := s.coroutines++[⟨id,module,.launched,false⟩]}

/-- A new child under the next unique id, with a mailbox of its own. -/
def emplace (s : State) (name : String) (module : LoadedModule) : State :=
  State.launch {s with
    childrens := s.childrens++[⟨s.nextId,name,module⟩]
    nextId := s.nextId+1
    mailboxes := Function.update s.mailboxes s.nextId .empty} s.nextId module

/-- A child gets a new creator and is launched again on its mailbox. -/
def relaunch (s : State) (id : Nat) (module : LoadedModule) : State :=
  State.launch {s with childrens := s.childrens.map fun c =>
    if c.actorId=id then {c with creator := module} else c} id module

def restartModule (s : State) (c : ActorMetaData) : State := s.launch c.actorId c.creator

def erase (s : State) (id : Nat) : State :=
  {s with childrens := s.childrens.filter (·.actorId≠id)}

/-- A child is sent a stop request. -/
def sendStop (s : State) (id : Nat) : State :=
  {s.send id stopMessage with
    dropped :=
      if (s.mailboxes id).messages.length<kMailBoxSize then s.dropped.erase id
      else insert id s.dropped}

def requestReload (s : State) (c : ActorMetaData) : State :=
  {s.sendStop c.actorId with
    pendingReload := insert c.actorId s.pendingReload
    pendingRestart := s.pendingRestart.erase c.actorId}

def requestStop (s : State) (c : ActorMetaData) : State :=
  {s.sendStop c.actorId with
    pendingStop := insert c.actorId s.pendingStop
    pendingRestart := s.pendingRestart.erase c.actorId}

/-- The pending sets forget a child whose exit is handled. -/
def forget (s : State) (id : Nat) : State :=
  {s with
    pendingReload := s.pendingReload.erase id
    pendingStop := s.pendingStop.erase id
    pendingRestart := s.pendingRestart.erase id
    dropped := s.dropped.erase id}

end State

instance : Members State ActorMetaData where
  isRunning s := s.isRunning
  reloadAllFlag s := s.reloadAllFlag
  childrens s := s.childrens
  pendingReload s := s.pendingReload
  pendingStop s := s.pendingStop
  pendingRestart s := s.pendingRestart
  config s := s.config
  startup s := s.startup
  launches s := s.coroutines.length
  setReloadAllFlag s flag := {s with reloadAllFlag := flag}
  setConfig s config := {s with config := config}
  setStartup s startup := {s with startup := startup}
  emplace s name module := s.emplace name module
  relaunch s c module := s.relaunch c.actorId module
  restartModule s c := s.restartModule c
  erase s id := s.erase id
  requestReload s c := s.requestReload c
  requestStop s c := s.requestStop c
  requestRestart s id := {s with pendingRestart := insert id s.pendingRestart}
  forget s id := s.forget id

/-- One message of the event loop, and whether the loop then returns. -/
def dispatch (o : Outcome) (s : State) (m : EventMessage) : State×Bool :=
  let (s',_,done) := supervise o s m
  (if m.type=.cmdExit then {s' with exitHandled := true} else s',done)

/-- The state in which a received message is dispatched: an exit event retires the coroutine
that it is from. -/
def taken (s : State) (m : EventMessage) (rest : List EventMessage) : State :=
  {s with
    mailbox := {s.mailbox with messages := rest}
    coroutines :=
      if m.type=.moduleExited then
        s.coroutines.modify m.serial fun c => {c with phase := .retired}
      else s.coroutines}

/-- The event loop returns, or goes on. -/
def finish (s : State) : Bool → State
  | true => {s with loop := false, mainLatch := s.mainLatch-1}
  | false => s

/-- The event loop handles its next message. -/
def handle (o : Outcome) (s : State) : Option State :=
  match s.loop,s.mailbox.messages with
  | true,m::rest =>
      let (s',done) := dispatch o (taken s m rest) m
      some (finish s' done)
  | _,_ => none

/-- What a coroutine does next: start, with `create_func` returning an actor or not; receive a
message, which `ProcessEvent` may answer with an exception; throw by itself; send its crash
report; send its exit event. -/
inductive ActorStep where
  | start
  | startNull
  | receive (throws : Bool)
  | throw
  | report
  | exit
  deriving DecidableEq

def State.setPhase (s : State) (serial : Nat) (c : Coroutine) (phase : Phase) : State :=
  {s with coroutines := s.coroutines.set serial {c with phase := phase}}

def actorStep (s : State) (serial : Nat) (c : Coroutine) : ActorStep → Option State
  | .start => if c.phase=.launched then some (s.setPhase serial c .running) else none
  | .startNull => if c.phase=.launched then some (s.setPhase serial c .leaving) else none
  | .receive throws =>
      match c.phase,(s.mailboxes c.actorId).messages with
      | .running,m::rest =>
          let s' := s.setMailbox c.actorId {s.mailboxes c.actorId with messages := rest}
          if m.type=.cmdModuleStop then
            some (s'.setPhase serial {c with stopped := true} .leaving)
          else some (s'.setPhase serial c (if throws then .crashed else .running))
      | _,_ => none
  | .throw => if c.phase=.running then some (s.setPhase serial c .crashed) else none
  | .report =>
      if c.phase=.crashed then
        some ((s.sendManager ⟨.crashReport,c.actorId,"",serial⟩).setPhase serial c .leaving)
      else none
  | .exit =>
      if c.phase=.leaving then
        some ((s.sendManager ⟨.moduleExited,c.actorId,"",serial⟩).setPhase serial c .exited)
      else none

/-- A step: of the first load; of a caller of `ReloadModule`, `RemoveModule` or `Shutdown`, the
last of which checks `is_running_`, clears it and sends `kEventCmdExit`; of the event loop; of a
coroutine; or of somebody who has a child's mailbox or the manager's and sends to it. -/
inductive Action where
  | load (o : Outcome)
  | reloadModule (name : String)
  | removeModule (name : String)
  | shutdown
  | clearRunning
  | sendExit
  | handle (o : Outcome)
  | actor (serial : Nat) (step : ActorStep)
  | post (id : Nat) (m : EventMessage)
  | postManager (m : EventMessage)

/-- Traffic that is neither a command nor an event of the manager. -/
def isData (m : EventMessage) : Bool :=
  match m.type with
  | .none | .other _ => true
  | _ => false

/-- A launch that the first load has not handed to the scheduler yet. -/
def Startup.holds (serial : Nat) : Startup → Bool
  | .entries _ _ batch => serial∈batch
  | _ => false

def next (s : State) : Action → Option State
  | .load o => load o s
  | .reloadModule name => some (s.sendManager ⟨.cmdModuleReload,0,name,0⟩)
  | .removeModule name => some (s.sendManager ⟨.cmdModuleRemove,0,name,0⟩)
  | .shutdown => some (if s.isRunning then {s with stopping := s.stopping+1} else s)
  | .clearRunning =>
      if 0<s.stopping then
        some {s with isRunning := false, stopping := s.stopping-1, sending := s.sending+1}
      else none
  | .sendExit =>
      if 0<s.sending then
        some (State.sendManager {s with sending := s.sending-1, exitSent := true}
          ⟨.cmdExit,0,"",0⟩)
      else none
  | .handle o => handle o s
  | .actor serial step =>
      match s.coroutines[serial]? with
      | none => none
      | some c => if s.startup.holds serial then none else actorStep s serial c step
  | .post id m => some (s.send id m)
  | .postManager m => if isData m then some (s.sendManager m) else none

/-- The manager when `EventLoop` has enqueued the event loop, before `__load_modules`. -/
def init (config : AcConfig) : State where
  isRunning := true
  reloadAllFlag := false
  mainLatch := 1
  childrens := []
  pendingReload := ∅
  pendingStop := ∅
  pendingRestart := ∅
  config := config
  nextId := 1
  mailbox := .empty
  mailboxes _ := .empty
  coroutines := []
  startup := .begin
  stopping := 0
  sending := 0
  loop := true
  exitSent := false
  exitHandled := false
  dropped := ∅

def machine : Machine State Action where
  start s := ∃ config,s=init config
  next := next

end Manager

end Acnet
