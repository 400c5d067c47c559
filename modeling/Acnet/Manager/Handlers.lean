import Mathlib.Data.Finset.Erase
import Mathlib.Data.Finset.Insert

/-!
The handlers of `ActorManager`, written once for every model of it. A model keeps the members of
the class beside whatever else it is about: mailboxes, coroutines, a list of launches. `Members`
says what the handlers read there and what they do to it.
-/

namespace Acnet

inductive EventType where
  | none
  | cmdExit
  | cmdModuleStop
  | cmdModuleReload
  | cmdModuleRemove
  | moduleExited
  | crashReport
  | other (code : Nat)
  deriving DecidableEq

/-- A message. `serial` is not in the source: it says which launch an exit event reports. -/
structure EventMessage where
  type : EventType
  senderId : Nat
  payload : String
  serial : Nat
  deriving DecidableEq

namespace Manager

structure AcModule where
  moduleName : String
  libraryName : String
  deriving DecidableEq

structure AcConfig where
  libraryPath : String
  modules : List AcModule
  deriving DecidableEq

/-- An opened library: its path and the handle that `dlopen` returned. -/
structure LoadedModule where
  path : String
  handle : Nat
  deriving DecidableEq

/-- What the environment answers while one message is handled: the configuration that
`UpdateConfig` reads, if it succeeds; whether the library of the `k`-th entry opens, and as
which handle; and which of several children with one name the `k`-th loop over the unordered
map `childrens_` meets first. -/
structure Outcome where
  config : Option AcConfig
  opened : Nat → Option Nat
  pick : Nat → Nat

/-- How far the `__load_modules` of `EventLoop` is, which runs beside the event loop: it has yet
to take the configuration; it has entries left, and launches that it has yet to hand to the
scheduler, all at once; or it has returned. -/
inductive Startup where
  | begin
  | entries (config : AcConfig) (rest : List (AcModule×Nat)) (batch : List Nat)
  | returned
  deriving DecidableEq

/-- One stop request: the count it is allocated with, the mailboxes it is sent to and whether
the handler releases it itself. -/
structure Broadcast where
  ref : Nat
  recipients : List Nat
  release : Bool
  deriving DecidableEq

def AcConfig.path (config : AcConfig) (mod : AcModule) : String :=
  config.libraryPath++"/lib"++mod.libraryName++".so"

/-- An entry of `childrens_`. -/
class Child (κ : Type) where
  key : κ → Nat
  mailbox : κ → Nat
  moduleName : κ → String

/-- The members of `ActorManager` in a model with states `σ`, whose `childrens_` has entries `κ`.
`launches` counts the coroutines that creators have returned. -/
class Members (σ : Type) (κ : outParam Type) where
  isRunning : σ → Bool
  reloadAllFlag : σ → Bool
  childrens : σ → List κ
  pendingReload : σ → Finset Nat
  pendingStop : σ → Finset Nat
  pendingRestart : σ → Finset Nat
  config : σ → AcConfig
  startup : σ → Startup
  launches : σ → Nat
  setReloadAllFlag : σ → Bool → σ
  setConfig : σ → AcConfig → σ
  setStartup : σ → Startup → σ
  /-- A new child under the next unique id, with a mailbox of its own, and its first coroutine. -/
  emplace : σ → String → LoadedModule → σ
  /-- A child gets a new creator, which is called. -/
  relaunch : σ → κ → LoadedModule → σ
  /-- The creator of a child is called again. -/
  restartModule : σ → κ → σ
  erase : σ → Nat → σ
  /-- A child is sent a stop request and noted for reloading. -/
  requestReload : σ → κ → σ
  /-- A child is sent a stop request and noted for removal. -/
  requestStop : σ → κ → σ
  /-- A child is noted for a restart. -/
  requestRestart : σ → Nat → σ
  /-- The pending sets forget a child whose exit is handled. -/
  forget : σ → Nat → σ

section Handlers

open Child Members

variable {σ κ : Type} [Child κ] [Members σ κ]

def find (s : σ) (id : Nat) : Option κ := (childrens s).find? (key ·=id)

/-- The mailboxes that a loop over all children sends to. -/
def mailboxes (s : σ) : List Nat := (childrens s).map mailbox

/-- The child with the given name that a loop over `childrens_` meets first. -/
def firstNamed (o : Outcome) (k : Nat) (childrens : List κ) (name : String) : Option κ :=
  let matching := childrens.filter (moduleName ·=name)
  matching[o.pick k%matching.length]?

/-- `__generate_creator` for the `k`-th entry of the configuration. -/
def generateCreator (o : Outcome) (config : AcConfig) (k : Nat) (mod : AcModule) :
    Option LoadedModule :=
  (o.opened k).map fun handle => ⟨config.path mod,handle⟩

def loadEntry (o : Outcome) (config : AcConfig) (s : σ) : AcModule×Nat → σ
  | (mod,k) =>
      match generateCreator o config k mod with
      | none => s
      | some module => emplace s mod.moduleName module

def loadModules (o : Outcome) (s : σ) : σ :=
  (config s).modules.zipIdx.foldl (loadEntry o (config s)) s

/-- What `__reload_module` does with the first entry of that name. -/
def reloadNamed (o : Outcome) (config : AcConfig) (moduleId : Nat) (s : σ) : AcModule×Nat → σ
  | (mod,k) =>
      match generateCreator o config k mod with
      | none => s
      | some module =>
          if moduleId=0 then emplace s mod.moduleName module
          else
            match find s moduleId with
            | none => s
            | some c => relaunch s c module

def reloadModule (o : Outcome) (s : σ) (moduleId : Nat) (moduleName : String) : σ :=
  match (config s).modules.zipIdx.find? (·.1.moduleName=moduleName) with
  | none => s
  | some e => reloadNamed o (config s) moduleId s e

def reloadEntry (o : Outcome) (config : AcConfig) (s : σ) : AcModule×Nat → σ
  | (mod,k) =>
      match generateCreator o config k mod with
      | none => s
      | some module =>
          match firstNamed o k (childrens s) mod.moduleName with
          | some c => relaunch s c module
          | none => emplace s mod.moduleName module

def reloadAllModules (o : Outcome) (s : σ) : σ :=
  (config s).modules.zipIdx.foldl (reloadEntry o (config s)) s

/-- The loop of `__search_module_and_remove` over all children. -/
def requestAll (s : σ) : σ := (childrens s).foldl requestReload (setReloadAllFlag s true)

def searchModuleAndRemove (o : Outcome) (s : σ) (name : String) : σ×Broadcast×Bool :=
  if name="all" then
    let ref := max (childrens s).length 1
    if pendingReload (requestAll s)=∅ then
      (loadModules o (requestAll s),⟨ref,mailboxes s,true⟩,true)
    else (requestAll s,⟨ref,mailboxes s,false⟩,true)
  else
    match firstNamed o 0 (childrens s) name with
    | some c => (requestReload (setReloadAllFlag s false) c,⟨1,[mailbox c],false⟩,true)
    | none => (setReloadAllFlag s false,⟨1,[],true⟩,false)

def handleCmdExit (s : σ) : σ×Option Broadcast×Bool :=
  if (childrens s).isEmpty then (s,none,true)
  else ((childrens s).foldl requestStop s,some ⟨(childrens s).length,mailboxes s,false⟩,false)

def handleCmdReload (o : Outcome) (s : σ) (name : String) : σ×Option Broadcast :=
  match o.config with
  | none => (s,none)
  | some config =>
      let (s',stop,found) := searchModuleAndRemove o (setConfig s config) name
      (if found then s' else reloadModule o s' 0 name,some stop)

def handleCmdRemove (o : Outcome) (s : σ) (name : String) : σ×Option Broadcast :=
  match firstNamed o 0 (childrens s) name with
  | some c => (requestStop s c,some ⟨1,[mailbox c],false⟩)
  | none => (s,none)

/-- The exit of a child that is to be reloaded. -/
def reloadExited (o : Outcome) (s : σ) (id : Nat) (c : κ) : σ :=
  if reloadAllFlag s then if pendingReload s=∅ then reloadAllModules o s else s
  else reloadModule o s id (moduleName c)

def handleEventExit (o : Outcome) (s : σ) (id : Nat) : σ×Bool :=
  match find s id with
  | none => (forget s id,false)
  | some c =>
      if isRunning s=true ∧ id∈pendingReload s then (reloadExited o (forget s id) id c,false)
      else if isRunning s=true ∧ id∈pendingRestart s ∧ id∉pendingStop s then
        (restartModule (forget s id) c,false)
      else
        let s' := erase (forget s id) id
        (s',!isRunning s && (childrens s').isEmpty)

def handleEventCrash (s : σ) (id : Nat) : σ :=
  if (find s id).isSome ∧ isRunning s=true ∧ id∉pendingReload s ∧ id∉pendingStop s then
    requestRestart s id
  else s

/-- One message of the event loop: the new state, the stop request that its handler allocates,
and whether the loop returns. -/
def supervise (o : Outcome) (s : σ) (m : EventMessage) : σ×Option Broadcast×Bool :=
  match m.type with
  | .cmdExit => handleCmdExit s
  | .cmdModuleReload => let (s',stop) := handleCmdReload o s m.payload; (s',stop,false)
  | .cmdModuleRemove => let (s',stop) := handleCmdRemove o s m.payload; (s',stop,false)
  | .moduleExited => let (s',done) := handleEventExit o s m.senderId; (s',none,done)
  | .crashReport => (handleEventCrash s m.senderId,none,false)
  | _ => (s,none,false)

/-- The next step of the `__load_modules` that `EventLoop` calls when it has enqueued the event
loop. -/
def load (o : Outcome) (s : σ) : Option σ :=
  match startup s with
  | .begin => some (setStartup s (.entries (config s) (config s).modules.zipIdx []))
  | .entries config ((mod,k)::rest) batch =>
      match generateCreator o config k mod with
      | none => some (setStartup s (.entries config rest batch))
      | some module =>
          some (emplace (setStartup s (.entries config rest (batch++[launches s])))
            mod.moduleName module)
  | .entries _ [] _ => some (setStartup s .returned)
  | .returned => none

end Handlers

end Manager

end Acnet
