import Acnet.Framework.Counted
import Acnet.Manager.HotReload

/-!
Who shares a `LoadedModule`: the creators of the children, the creator that the manager is about
to store and the frames of the coroutines. The manager's handlers and the first load run here
library by library, each on its own thread, with the coroutines on other threads between any two
of their steps. A creator or a frame names its `LoadedModule` by the number of the object, in the
place of a handle.
-/

namespace Acnet.Manager.Library

open HotReload

/-- The source's `LoadedModule`. `opened` and `closed` are not in the source: they count the
handles that it got from `dlopen` and gave to `dlclose`. -/
structure LoadedModule where
  path : String
  handle : Option Nat
  createFunc : Option Nat
  destroyFunc : Option Nat
  opened : Nat
  closed : Nat
  deriving DecidableEq

/-- What `dlsym` finds; the address of a symbol may be null. -/
inductive Dlsym where
  | error
  | address (f : Option Nat)
  deriving DecidableEq

/-- The answers of the dynamic loader during one `Open`. -/
structure Loader where
  dlopen : Option Nat
  createModule : Dlsym
  destroyModule : Dlsym
  deriving DecidableEq

namespace LoadedModule

def construct (path : String) : LoadedModule := ⟨path,none,none,none,0,0⟩

def close (m : LoadedModule) : LoadedModule :=
  {m with
    createFunc := none
    destroyFunc := none
    handle := none
    closed := if m.handle.isSome then m.closed+1 else m.closed}

/-- `Open`, with whether it succeeds. -/
def tryOpen (m : LoadedModule) (l : Loader) : LoadedModule×Bool :=
  let m := m.close
  match l.dlopen with
  | none => (m,false)
  | some handle =>
      let m := {m with handle := some handle, opened := m.opened+1}
      match l.createModule with
      | .error => ({m with createFunc := none}.close,false)
      | .address f =>
          let m := {m with createFunc := f}
          match l.destroyModule with
          | .error => ({m with destroyFunc := none}.close,false)
          | .address f => ({m with destroyFunc := f},true)

/-- The one handle it got is open. -/
def IsOpen (m : LoadedModule) : Prop := m.handle.isSome=true ∧ m.opened=1 ∧ m.closed=0

/-- The handle that it got, if it got one, is closed. -/
def IsClosed (m : LoadedModule) : Prop := m.handle=none ∧ m.opened=m.closed ∧ m.closed ≤ 1

instance (m : LoadedModule) : Decidable m.IsOpen := inferInstanceAs (Decidable (_ ∧ _))
instance (m : LoadedModule) : Decidable m.IsClosed := inferInstanceAs (Decidable (_ ∧ _))

/-- A module is open exactly if its `Open` succeeds. -/
theorem tryOpen_construct (path : String) (l : Loader) :
    if ((construct path).tryOpen l).2=true then ((construct path).tryOpen l).1.IsOpen
    else ((construct path).tryOpen l).1.IsClosed := by
  unfold tryOpen
  cases l.dlopen with
  | none => simp [construct,close,IsClosed]
  | some handle =>
    cases l.createModule with
    | error => simp [construct,close,IsClosed]
    | address f =>
      cases l.destroyModule with
      | error => simp [construct,close,IsClosed]
      | address g => simp [construct,close,IsOpen]

theorem IsOpen.close {m : LoadedModule} (h : m.IsOpen) : m.close.IsClosed := by
  obtain ⟨hh,ho,hc⟩ := h
  simp [IsClosed,LoadedModule.close,hh,ho,hc]

theorem IsClosed.close {m : LoadedModule} (h : m.IsClosed) : m.close.IsClosed := by
  obtain ⟨hh,ho,hc⟩ := h
  simp [IsClosed,LoadedModule.close,hh,ho]
  omega

end LoadedModule

/-- The objects that `make_shared<LoadedModule>` has allocated, in order. -/
abbrev Heap := List (Cell LoadedModule)

/-- A `shared_ptr<LoadedModule>` is copied. -/
def Heap.share (heap : Heap) (n : Nat) : Heap := Cell.retain heap n

/-- A `shared_ptr<LoadedModule>` is destroyed, the last one with `~LoadedModule`. -/
def Heap.drop (heap : Heap) (n : Nat) : Heap := Cell.drop LoadedModule.close heap n

/-- `__generate_creator`: the creator holds the new object, which is gone when it cannot be
opened. -/
def generateCreator (heap : Heap) (path : String) (l : Loader) : Heap×Option Nat :=
  let (m,opened) := (LoadedModule.construct path).tryOpen l
  let heap' : Heap := Cell.alloc heap m 1
  if opened then (heap',some heap.length) else (Heap.drop heap' heap.length,none)

/-- The loop that opens libraries: of `__load_modules`, of `__reload_all_modules`, or of
`__reload_module`. -/
inductive Loop where
  | load
  | all
  | single (moduleId : Nat)
  deriving DecidableEq

/-- What such a loop does with a creator. -/
inductive Store where
  | emplace (name : String)
  | relaunch (id : Nat)
  | discard
  deriving DecidableEq

def Loop.store (o : Outcome) (s : Manager.State) (mod : AcModule) (k : Nat) : Loop → Store
  | .load => .emplace mod.moduleName
  | .all =>
      match firstNamed o k s.childrens mod.moduleName with
      | some c => .relaunch c.actorId
      | none => .emplace mod.moduleName
  | .single moduleId =>
      if moduleId=0 then .emplace mod.moduleName
      else if (s.find moduleId).isSome then .relaunch moduleId
      else .discard

/-- The child gets the creator, which is then called. -/
def Store.manager (s : Manager.State) (module : Manager.LoadedModule) : Store → Manager.State
  | .emplace name => s.emplace name module
  | .relaunch id => s.relaunch id module
  | .discard => s

/-- The reference of the creator goes into the metadata, from which it drives out the one that
was there, and is copied into the frame; or it is dropped. -/
def Store.heap (s : Manager.State) (heap : Heap) (n : Nat) : Store → Heap
  | .emplace _ => heap.share n
  | .relaunch id =>
      match s.find id with
      | none => heap
      | some c => (heap.drop c.creator.handle).share n
  | .discard => heap.drop n

/-- The references that change when a message is handled, before any library is opened: an exit
erases the child or calls its creator once more. -/
def exitHeap (s : Manager.State) (heap : Heap) (m : EventMessage) : Heap :=
  if m.type=.moduleExited then
    match s.find m.senderId with
    | none => heap
    | some c =>
        if Reloading s m.senderId then heap
        else if Restarting s m.senderId then heap.share c.creator.handle
        else heap.drop c.creator.handle
  else heap

/-- Which loop the handler of a message runs, if it runs one. -/
def loopOf (s : Manager.State) (m : EventMessage) : Loop :=
  if m.type=.moduleExited then if s.reloadAllFlag then .all else .single m.senderId
  else if m.payload="all" then .load else .single 0

/-- The rest of a handler: the entries that its loop has yet to open, and whether the event loop
returns after it. -/
structure Job where
  o : Outcome
  loop : Loop
  entries : List (AcModule×Nat)
  done : Bool

/-- Where the frame of `__launch_actor` is with its instance: not created, created, destroyed or
never there. -/
inductive FramePc where
  | suspended
  | running (actor : Nat)
  | finishing
  deriving DecidableEq

/-- An actor that a `create_func` has returned: the launch, the object whose function it was,
and the objects whose `destroy_func` has been called on it. -/
structure Instance where
  serial : Nat
  module : Nat
  destroys : List Nat
  deriving DecidableEq

/-- `transit` and `loading` are the creators that a handler and the first load have opened and not
yet stored, `ended` are the launches whose frames are gone. -/
structure State where
  manager : Manager.State
  heap : Heap
  job : Option Job
  transit : Option Nat
  loading : Option Nat
  frames : Nat → FramePc
  ended : Finset Nat
  instances : List Instance

/-- The first load opens the library of its next entry, or goes on. The manager takes its next
message, opens the library of the next entry, stores the creator, or is done with the message. A
coroutine takes a step, destroys its instance, or its frame ends. `~ActorManager` destroys the
children. -/
inductive Action where
  | loadOpen (l : Loader)
  | loadNext
  | take (o : Outcome)
  | openNext (l : Loader)
  | store
  | done
  | other (a : Manager.Action)
  | destroy (serial : Nat)
  | frameEnd (serial : Nat)
  | destruct

section Steps

variable (s : State)

/-- The first load when the library of its entry has become the given object, if any. -/
def loaded (n : Option Nat) : Option Manager.State :=
  Manager.load ⟨none,fun _ => n,fun _ => 0⟩ s.manager

def loadOpen (l : Loader) : Option State :=
  match s.manager.startup,s.loading with
  | .entries config ((mod,_)::_) _,none =>
      match generateCreator s.heap (config.path mod) l with
      | (heap,some n) => some {s with heap := heap, loading := some n}
      | (heap,none) => (loaded s none).map fun t => {s with manager := t, heap := heap}
  | _,_ => none

/-- The first load takes the configuration, stores its creator or returns. -/
def loadNext : Option State :=
  match s.manager.startup,s.loading with
  | .begin,none | .entries _ [] _,none =>
      (loaded s none).map fun t => {s with manager := t}
  | .entries _ (_::_) _,some n =>
      (loaded s (some n)).map fun t =>
        {s with manager := t, heap := s.heap.share n, loading := none}
  | _,_ => none

def take (o : Outcome) : Option State :=
  match s.job,s.manager.loop,s.manager.mailbox.messages with
  | none,true,m::rest =>
      let x := taken s.manager m rest
      some {s with
        manager := (plan o x m).state
        heap := exitHeap x s.heap m
        job := some ⟨o,loopOf x m,(plan o x m).entries,(dispatch o x m).2⟩}
  | _,_,_ => none

def openNext (l : Loader) : Option State :=
  match s.job,s.transit with
  | some ⟨o,loop,(mod,_)::rest,done⟩,none =>
      match generateCreator s.heap (s.manager.config.path mod) l with
      | (heap,some n) => some {s with heap := heap, transit := some n}
      | (heap,none) => some {s with heap := heap, job := some ⟨o,loop,rest,done⟩}
  | _,_ => none

def store : Option State :=
  match s.job,s.transit with
  | some ⟨o,loop,(mod,k)::rest,done⟩,some n =>
      let x := loop.store o s.manager mod k
      some {s with
        manager := x.manager s.manager ⟨s.manager.config.path mod,n⟩
        heap := x.heap s.manager s.heap n
        transit := none
        job := some ⟨o,loop,rest,done⟩}
  | _,_ => none

def done : Option State :=
  match s.job with
  | some ⟨_,_,[],done⟩ => some {s with manager := finish s.manager done, job := none}
  | _ => none

/-- The object that the frame of a launch holds. -/
def State.module (serial : Nat) : Option Nat := s.manager.modules[serial]?.map (·.handle)

/-- `__launch_actor` has both functions. -/
def Heap.ready (heap : Heap) (n : Nat) : Bool :=
  heap[n]?.any fun c => c.content.createFunc.isSome && c.content.destroyFunc.isSome

/-- A step of a coroutine that the manager's model has. An instance comes with the start, and
the exit event is sent after it has been destroyed. -/
def actor (serial : Nat) (step : ActorStep) : Option State :=
  match Manager.next s.manager (.actor serial step),s.module serial with
  | some t,some n =>
      match step,s.frames serial with
      | .start,.suspended =>
          if s.heap.ready n then
            some {s with
              manager := t
              frames := Function.update s.frames serial (.running s.instances.length)
              instances := s.instances++[⟨serial,n,[]⟩]}
          else none
      | .startNull,.suspended =>
          some {s with manager := t, frames := Function.update s.frames serial .finishing}
      | .exit,.finishing | .receive _,.running _ | .throw,.running _ | .report,.running _ =>
          some {s with manager := t}
      | _,_ => none
  | _,_ => none

/-- `module->destroy_func(actor)`. -/
def destroy (serial : Nat) : Option State :=
  match s.manager.coroutines[serial]?,s.frames serial with
  | some c,.running a =>
      if c.phase=.leaving then
        some {s with
          frames := Function.update s.frames serial .finishing
          instances := s.instances.modify a fun x =>
            {x with destroys := x.destroys++[c.module.handle]}}
      else none
  | _,_ => none

/-- The frame of a coroutine that has sent its exit event is destroyed, with its `module`. -/
def frameEnd (serial : Nat) : Option State :=
  match s.manager.coroutines[serial]? with
  | some c =>
      if (c.phase=.exited ∨ c.phase=.retired) ∧ s.frames serial=.finishing ∧ serial∉s.ended then
        some {s with
          heap := s.heap.drop c.module.handle
          ended := insert serial s.ended}
      else none
  | none => none

/-- `~ActorManager`, when the event loop and `EventLoop` have returned. -/
def destruct : Option State :=
  if s.job.isNone ∧ s.manager.loop=false ∧ s.manager.startup=.returned then
    some {s with
      manager := {s.manager with childrens := []}
      heap := (s.manager.creators.map (·.handle)).foldl Heap.drop s.heap}
  else none

def next : Action → Option State
  | .loadOpen l => loadOpen s l
  | .loadNext => loadNext s
  | .take o => take s o
  | .openNext l => openNext s l
  | .store => store s
  | .done => done s
  | .other (.load _) | .other (.handle _) => none
  | .other (.actor serial step) => actor s serial step
  | .other a => (Manager.next s.manager a).map fun t => {s with manager := t}
  | .destroy serial => destroy s serial
  | .frameEnd serial => frameEnd s serial
  | .destruct => destruct s

end Steps

/-- No library has been opened yet. -/
def start (config : AcConfig) : State where
  manager := init config
  heap := []
  job := none
  transit := none
  loading := none
  frames _ := .suspended
  ended := ∅
  instances := []

def machine : Machine State Action where
  start s := ∃ config,s=start config
  next := next

section Handlers

/-- One entry of a loop in the manager's own model. -/
def Loop.step (o : Outcome) (config : AcConfig) :
    Loop → Manager.State → AcModule×Nat → Manager.State
  | .load => loadEntry o config
  | .all => reloadEntry o config
  | .single moduleId => reloadNamed o config moduleId

theorem Loop.step_closed {o : Outcome} {k : Nat} (ho : o.opened k=none) (config : AcConfig)
    (m : Manager.State) (mod : AcModule) (loop : Loop) : loop.step o config m (mod,k)=m := by
  cases loop <;>
    simp [Loop.step,loadEntry,reloadEntry,reloadNamed,Manager.generateCreator,ho]

theorem Loop.step_opened {o : Outcome} {k n : Nat} (ho : o.opened k=some n) (config : AcConfig)
    (m : Manager.State) (mod : AcModule) (loop : Loop) :
    loop.step o config m (mod,k)=(loop.store o m mod k).manager m ⟨config.path mod,n⟩ := by
  cases loop with
  | load => simp [Loop.step,Loop.store,Store.manager,loadEntry,Manager.generateCreator,ho]
  | all =>
    simp only [Loop.step,Loop.store,reloadEntry,Manager.generateCreator,ho,Option.map_some,
      childrens_eq]
    cases firstNamed o k m.childrens mod.moduleName <;> rfl
  | single moduleId =>
    simp only [Loop.step,Loop.store,reloadNamed,Manager.generateCreator,ho,Option.map_some,
      find_eq]
    split_ifs with h0 hf
    · rfl
    · obtain ⟨c,hc⟩ := Option.isSome_iff_exists.mp hf
      simp [hc,Store.manager,(find_mem hc).2]
    · have hnone : m.find moduleId=none := by simpa using hf
      simp [hnone,Store.manager]

theorem Store.manager_config (m : Manager.State) (module : Manager.LoadedModule) (x : Store) :
    (x.manager m module).config=m.config := by
  cases x <;> rfl

/-- The loop of a plan is the handler's, over the configuration that the manager has then. -/
theorem plan_loop (o : Outcome) (m : Manager.State) (e : EventMessage) :
    (plan o m e).entries=[] ∨
      (plan o m e).step=(loopOf m e).step o (plan o m e).state.config := by
  unfold plan
  split
  · rename_i ht
    split
    · exact Or.inl rfl
    · split_ifs with hall
      · exact Or.inr (by simp [loopOf,ht,hall,Plan.load,Loop.step])
      · exact Or.inl rfl
      · split
        · exact Or.inl rfl
        · exact Or.inr (by simp [loopOf,ht,hall,Plan.single,Loop.step])
  · rename_i ht
    split
    · exact Or.inl rfl
    · split_ifs with hr hall
      · exact Or.inr (by simp [loopOf,ht,hall,Plan.all,Loop.step])
      · exact Or.inl rfl
      · exact Or.inr (by simp [loopOf,ht,hall,Plan.single,Loop.step])
      · exact Or.inl rfl
  · exact Or.inl rfl

/-- The outcome names every library that opens by the object it becomes: each entry allocates
one, beginning with `n`. -/
def Numbered (o : Outcome) : Nat → List (AcModule×Nat) → Prop
  | _,[] => True
  | n,(_,k)::rest => (∀ x∈o.opened k,x=n) ∧ Numbered o (n+1) rest

theorem generateCreator_length (heap : Heap) (path : String) (l : Loader) :
    (generateCreator heap path l).1.length=heap.length+1 := by
  unfold generateCreator
  simp only
  split_ifs <;> simp [Heap.drop,Cell.drop,Cell.release,Cell.alloc]

theorem store_length (m : Manager.State) (heap : Heap) (n : Nat) (x : Store) :
    (x.heap m heap n).length=heap.length := by
  cases x with
  | emplace name => simp [Store.heap,Heap.share,Cell.retain]
  | relaunch id =>
    simp only [Store.heap]
    split <;> simp [Heap.share,Heap.drop,Cell.retain,Cell.drop,Cell.release]
  | discard => simp [Store.heap,Heap.drop,Cell.drop,Cell.release]

/-- A loader that finds the library and both symbols. -/
def finding : Loader := ⟨some 1,.address (some 1),.address (some 1)⟩

/-- A loader that does not find the library. -/
def failing : Loader := ⟨none,.error,.error⟩

/-- The loop runs to its end. -/
theorem loop_runs {o : Outcome} {loop : Loop} {done : Bool} (entries : List (AcModule×Nat))
    {s : State} (hjob : s.job=some ⟨o,loop,entries,done⟩) (htransit : s.transit=none)
    (hnum : Numbered o s.heap.length entries) :
    ∃ t,machine.Steps Machine.anyStep s t ∧
      t.manager=entries.foldl (loop.step o s.manager.config) s.manager ∧
      t.job=some ⟨o,loop,[],done⟩ := by
  induction entries generalizing s with
  | nil => exact ⟨s,.refl,rfl,hjob⟩
  | cons e rest ih =>
    obtain ⟨mod,k⟩ := e
    obtain ⟨hhead,hrest⟩ := hnum
    let path := s.manager.config.path mod
    cases ho : o.opened k with
    | none =>
      let u : State := {s with
        heap := (generateCreator s.heap path failing).1
        transit := none
        job := some ⟨o,loop,rest,done⟩}
      have hopen : machine.next s (.openNext failing)=some u := by
        simp only [machine,next,openNext,hjob,htransit]
        rfl
      have hu : Numbered o u.heap.length rest := by
        change Numbered o (generateCreator s.heap path failing).1.length rest
        rwa [generateCreator_length]
      obtain ⟨t,hsteps,hm,hj⟩ := ih (s := u) rfl rfl hu
      refine ⟨t,(Machine.Steps.tail .refl hopen trivial).trans hsteps,?_,hj⟩
      rw [hm,List.foldl_cons,Loop.step_closed ho]
    | some n =>
      obtain rfl := hhead n ho
      let v : State := {s with
        heap := (generateCreator s.heap path finding).1
        transit := some s.heap.length
        job := some ⟨o,loop,(mod,k)::rest,done⟩}
      have hopen : machine.next s (.openNext finding)=some v := by
        simp only [machine,next,openNext,hjob,htransit]
        rfl
      let x := loop.store o s.manager mod k
      let u : State := {v with
        manager := x.manager s.manager ⟨path,s.heap.length⟩
        heap := x.heap s.manager v.heap s.heap.length
        transit := none
        job := some ⟨o,loop,rest,done⟩}
      have hstore : machine.next v .store=some u := rfl
      have hu : Numbered o u.heap.length rest := by
        change Numbered o (x.heap s.manager v.heap s.heap.length).length rest
        rw [store_length]
        change Numbered o (generateCreator s.heap path finding).1.length rest
        rwa [generateCreator_length]
      obtain ⟨t,hsteps,hm,hj⟩ := ih (s := u) rfl rfl hu
      have hfirst : machine.Steps Machine.anyStep s u :=
        .tail (.tail .refl hopen trivial) hstore trivial
      refine ⟨t,hfirst.trans hsteps,?_,hj⟩
      have hconfig : u.manager.config=s.manager.config := Store.manager_config ..
      rw [hm,List.foldl_cons,Loop.step_opened ho,hconfig]

theorem exitHeap_length (m : Manager.State) (heap : Heap) (e : EventMessage) :
    (exitHeap m heap e).length=heap.length := by
  unfold exitHeap
  by_cases ht : e.type=.moduleExited
  · rw [if_pos ht]
    cases m.find e.senderId with
    | none => rfl
    | some c =>
      simp only
      split_ifs <;> simp [Heap.share,Heap.drop,Cell.retain,Cell.drop,Cell.release]
  · rw [if_neg ht]

/-- A handler that nobody interrupts does what the manager's model does in one step. -/
theorem handle_runs {s : State} {o : Outcome} {m : Manager.State} (hjob : s.job=none)
    (htransit : s.transit=none)
    (hnum : Numbered o s.heap.length (nextPlan o s.manager).entries)
    (hn : handle o s.manager=some m) :
    ∃ t,machine.Steps Machine.anyStep s t ∧ t.manager=m ∧ t.job=none := by
  obtain ⟨e,rest,hloop,hhead,rfl⟩ := handle_cases hn
  let x := taken s.manager e rest
  let u : State := {s with
    manager := (plan o x e).state
    heap := exitHeap x s.heap e
    job := some ⟨o,loopOf x e,(plan o x e).entries,(dispatch o x e).2⟩}
  have htake : machine.next s (.take o)=some u := by
    simp only [machine,next,take,hjob,hloop,hhead]
    rfl
  have hu : Numbered o u.heap.length (plan o x e).entries := by
    have hplan : nextPlan o s.manager=plan o x e := by simp [nextPlan,hhead,x]
    change Numbered o (exitHeap x s.heap e).length _
    rwa [exitHeap_length,← hplan]
  obtain ⟨t,hsteps,hm,hj⟩ := loop_runs (s := u) (plan o x e).entries rfl htransit hu
  have hrun : t.manager=(dispatch o x e).1 := by
    rw [hm,(plan_spec o x e).1]
    rcases plan_loop o x e with hempty | hstep
    · simp [Plan.run,hempty,u]
    · rw [Plan.run,hstep]
  have hdone : machine.next t .done=
      some {t with manager := finish t.manager (dispatch o x e).2, job := none} := by
    simp only [machine,next,done,hj]
  have hall := ((Machine.Steps.tail .refl htake trivial).trans hsteps).tail hdone trivial
  exact ⟨_,hall,by rw [hrun],rfl⟩

/-- The first load asks for nothing but the library of its next entry. -/
theorem loaded_eq {s : State} {o : Outcome} {n : Option Nat}
    (h : ∀ config mod k rest batch,
      s.manager.startup=.entries config ((mod,k)::rest) batch → o.opened k=n) :
    loaded s n=Manager.load o s.manager := by
  unfold loaded Manager.load
  split
  · rfl
  · rename_i config mod k rest batch hs
    simp only [Manager.generateCreator,h config mod k rest batch hs]
  · rfl
  · rfl

/-- So does a step of the first load. -/
theorem load_runs {s : State} {o : Outcome} {m : Manager.State} (hloading : s.loading=none)
    (hnum : Numbered o s.heap.length (startupPlan o s.manager).entries)
    (hn : Manager.load o s.manager=some m) :
    ∃ t,machine.Steps Machine.anyStep s t ∧ t.manager=m ∧ t.job=s.job ∧ t.loading=none := by
  have step {a : Action} {t : State} (h : machine.next s a=some t) (hm : t.manager=m)
      (hj : t.job=s.job) (hl : t.loading=none) :
      ∃ t,machine.Steps Machine.anyStep s t ∧ t.manager=m ∧ t.job=s.job ∧ t.loading=none :=
    ⟨t,.tail .refl h trivial,hm,hj,hl⟩
  cases hs : s.manager.startup with
  | begin =>
    have hm : loaded s none=some m := (loaded_eq (by simp [hs])).trans hn
    exact step (a := .loadNext) (t := {s with manager := m})
      (by simp [machine,next,loadNext,hs,hloading,hm]) rfl rfl hloading
  | returned => simp [Manager.load,Members.startup,hs] at hn
  | entries config rest batch =>
    cases rest with
    | nil =>
      have hm : loaded s none=some m := (loaded_eq (by simp [hs])).trans hn
      exact step (a := .loadNext) (t := {s with manager := m})
        (by simp [machine,next,loadNext,hs,hloading,hm]) rfl rfl hloading
    | cons e rest =>
      obtain ⟨mod,k⟩ := e
      simp only [startupPlan,hs,Numbered,and_true] at hnum
      have hm {n : Option Nat} (ho : o.opened k=n) : loaded s n=some m := by
        refine (loaded_eq ?_).trans hn
        intro config' mod' k' rest' batch' hs'
        cases hs.symm.trans hs'
        exact ho
      cases ho : o.opened k with
      | none =>
        refine step (a := .loadOpen failing) (t := {s with
          manager := m
          heap := (generateCreator s.heap (config.path mod) failing).1}) ?_ rfl rfl hloading
        simp only [machine,next,loadOpen,hs,hloading]
        exact congrArg (Option.map _) (hm ho)
      | some n =>
        obtain rfl := hnum n ho
        let u : State := {s with
          heap := (generateCreator s.heap (config.path mod) finding).1
          loading := some s.heap.length}
        have hopen : machine.next s (.loadOpen finding)=some u := by
          simp only [machine,next,loadOpen,hs,hloading]
          rfl
        have hstore : machine.next u .loadNext=some {u with
            manager := m
            heap := u.heap.share s.heap.length
            loading := none} := by
          simp only [machine,next,loadNext,u,hs]
          exact congrArg (Option.map _) (hm ho)
        exact ⟨_,.tail (.tail .refl hopen trivial) hstore trivial,rfl,rfl,rfl⟩

end Handlers

end Acnet.Manager.Library
