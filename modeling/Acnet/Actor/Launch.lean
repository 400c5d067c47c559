import Acnet.Framework.Traced
import Acnet.Manager.Manager

/-!
One incarnation of a module: the coroutine `__launch_actor`, the coroutine `RunCoroutine` that
it awaits, and the ways in which an exception leaves each of them.
-/

namespace Acnet

/-- The texts of `EVENT_TYPE_MAP`. -/
def eventTypeToString : EventType → String
  | .none => "NOP Event"
  | .cmdExit => "Exit Command Event"
  | .cmdModuleStop => "Module Stop Command Event"
  | .cmdModuleReload => "Module Reload Command Event"
  | .cmdModuleRemove => "Module Remove Command Event"
  | .moduleExited => "Module Exited Event"
  | .crashReport => "Crash Report Event"
  | .other _ => "Unknown Event Type"

namespace Launch

/-- An exception: a `std::exception` with its `what()`, or a value of any other type. -/
inductive Thrown where
  | std (what : String)
  | other
  deriving DecidableEq

/-- What a plugin does during one incarnation. Either function may be missing from the library;
`createFunc` returns NULL or an instance, known by the `actor_id_` it gave its base class. The
other fields are the exceptions that the calls throw, `processEvent` by the number of the
call. -/
structure Plugin where
  hasCreate : Bool
  hasDestroy : Bool
  createFunc : Nat → Option Nat
  init : Option Thrown
  processEvent : Nat → EventMessage → Option Thrown
  errorHandle : String → Option Thrown
  uninit : Option Thrown

/-- `GateWayActor`, the one module of the repository: none of its calls throws. -/
def gateWayActor : Plugin where
  hasCreate := true
  hasDestroy := true
  createFunc actorId := some actorId
  init := none
  processEvent _ _ := none
  errorHandle _ := none
  uninit := none

/-- What an incarnation does that others can see. -/
inductive Event where
  | notReady
  | create (actor : Option Nat)
  | init
  | threw (e : Thrown)
  | processEvent (m : EventMessage) (thrown : Option Thrown)
  | stop (m : EventMessage)
  | release (m : EventMessage)
  | crashReport (m : EventMessage)
  | errorHandle (what : String)
  | uninit
  | destroy
  | exited (m : EventMessage)
  deriving DecidableEq

inductive ActorExitState where
  | success
  | failure
  deriving DecidableEq

open Traced

/-- An exception on its way out of the `try` block, with the message that `msg` then points
to. -/
abbrev Raised := Thrown×Option EventMessage

/-- The loop of `RunCoroutine` over the messages that the mailbox hands out; with none left it
is suspended in `Wait`. `k` counts the calls of `ProcessEvent`. -/
def loop (p : Plugin) : Nat → List EventMessage → Traced Event Raised ActorExitState
  | _,[] => wait
  | k,m::rest =>
      if m.type=.cmdModuleStop then do
        emit (.stop m)
        emit (.release m)
        pure .success
      else do
        call (.processEvent m (p.processEvent k m)) ((p.processEvent k m).map (·,some m))
        emit (.release m)
        loop p (k+1) rest

/-- The exception that `RunCoroutine` throws by itself before its loop. -/
def boom : Option Thrown := some (.std "boom!boom!boom!")

/-- The `try` block of `RunCoroutine`. `before` is the exception thrown before the loop: `boom`
in the source, which leaves its loop unreached, and `none` once that statement is gone. -/
def tryBlock (before : Option Thrown) (p : Plugin) (inbox : List EventMessage) :
    Traced Event Raised ActorExitState :=
  match before with
  | some e => call (.threw e) (some (e,none)) >>= fun _ => loop p 0 inbox
  | none => loop p 0 inbox

def eventMessageRelease {χ : Type} : Option EventMessage → Traced Event χ Unit
  | none => pure ()
  | some m => emit (.release m)

def crashMessage (actor serial : Nat) (msg : Option EventMessage) (what : String) :
    EventMessage :=
  ⟨.crashReport,actor,
    "[NetActor id: "++toString actor++"] event_type: "
      ++eventTypeToString ((msg.map (·.type)).getD .none)++", error: "++what,
    serial⟩

/-- The handler of `RunCoroutine`; it catches `const std::exception &` only. -/
def catchBlock (actor serial : Nat) (p : Plugin) : Raised → Traced Event Thrown ActorExitState
  | (.other,_) => raise .other
  | (.std what,msg) => do
      eventMessageRelease msg
      emit (.crashReport (crashMessage actor serial msg what))
      call (.errorHandle what) (p.errorHandle what)
      pure .failure

def runCoroutine (before : Option Thrown) (actor serial : Nat) (p : Plugin)
    (inbox : List EventMessage) : Traced Event Thrown ActorExitState :=
  (tryBlock before p inbox).handle (catchBlock actor serial p)

/-- The variant `result_` of a `TaskPromise`. -/
inductive TaskResult (α : Type) where
  | monostate
  | value (a : α)
  | exception (e : Thrown)

/-- The body of a `Task` up to its final suspend point: `return_value` or
`unhandled_exception` fills `result_`. -/
def task {α : Type} (body : Traced Event Thrown α) : Traced Event Thrown (TaskResult α) :=
  (body>>=fun a => pure (.value a)).handle fun e => pure (.exception e)

/-- `Task::await_resume`; `std::get` throws by itself when no value is there. -/
def awaitResume {α : Type} : TaskResult α → Traced Event Thrown α
  | .monostate => raise (.std "std::get: wrong index for variant")
  | .value a => pure a
  | .exception e => raise e

def coAwait {α : Type} (body : Traced Event Thrown α) : Traced Event Thrown α :=
  task body>>=awaitResume

def exitMessage (actorId serial : Nat) : EventMessage := ⟨.moduleExited,actorId,"",serial⟩

/-- The instance on which `__launch_actor` works. -/
def runInstance (before : Option Thrown) (actor serial : Nat) (p : Plugin)
    (inbox : List EventMessage) : Traced Event Thrown Unit := do
  call .init p.init
  let _ ← coAwait (runCoroutine before actor serial p inbox)
  call .uninit p.uninit
  emit .destroy

/-- `__launch_actor` up to its exit event. -/
def launchModule (before : Option Thrown) (module : Option Plugin) (actorId serial : Nat)
    (inbox : List EventMessage) : Traced Event Thrown Unit :=
  match module with
  | none => emit .notReady
  | some p =>
      if p.hasCreate && p.hasDestroy then do
        emit (.create (p.createFunc actorId))
        match p.createFunc actorId with
        | some actor => runInstance before actor serial p inbox
        | none => pure ()
      else emit .notReady

def launchActor (before : Option Thrown) (module : Option Plugin) (actorId serial : Nat)
    (inbox : List EventMessage) : Traced Event Thrown Unit := do
  launchModule before module actorId serial inbox
  emit (.exited (exitMessage actorId serial))

inductive Status where
  | finished
  | suspended
  | terminated
  deriving DecidableEq

structure Life where
  trace : List Event
  status : Status
  deriving DecidableEq

/-- A `LaunchTask`: its `unhandled_exception` calls `std::terminate`. -/
def launchTask (body : Traced Event Thrown Unit) : Life :=
  ⟨body.trace,
    match body.ending with
    | .value _ => .finished
    | .thrown _ => .terminated
    | .waiting => .suspended⟩

/-- The coroutine of a launch that has been handed the messages `inbox` so far. -/
def life (before : Option Thrown) (module : Option Plugin) (actorId serial : Nat)
    (inbox : List EventMessage) : Life :=
  launchTask (launchActor before module actorId serial inbox)

end Launch

end Acnet
