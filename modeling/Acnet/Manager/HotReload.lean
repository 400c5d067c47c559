import Acnet.Manager.Frame

/-!
The manager together with the dynamic loader and the library files. A `LoadedModule` is closed
with the last closure or coroutine frame that shares it, so a path is open as long as a child's
creator or the frame of a launch holds a library of that path. The handle of a library is the
version of the file that it was mapped from.
-/

namespace Acnet.Manager

/-- The libraries that the creators of the children share. -/
def State.creators (s : State) : List LoadedModule := s.childrens.map (·.creator)

/-- The library of each launch. -/
def State.modules (s : State) : List LoadedModule := s.coroutines.map (·.module)

namespace HotReload

/-- What happens outside the manager: a library file is replaced, the frame of a coroutine that
has sent its exit event is destroyed. -/
inductive Event where
  | replace (path : String) (version : Nat)
  | destroy (serial : Nat)
  deriving DecidableEq

/-- The files and the loader. `mapped` is the version that the path was last mapped from,
`replaced` says that its file has been replaced since; `destroyed` are the launches whose
frames are gone. -/
structure World where
  disk : String → Nat
  mapped : String → Nat
  replaced : String → Bool
  destroyed : Finset Nat

/-- The libraries that are held open. -/
def holders (destroyed : Finset Nat) (s : Manager.State) : List LoadedModule :=
  s.creators++(s.modules.zipIdx.filter (·.2∉destroyed)).map (·.1)

namespace World

def isOpen (w : World) (s : Manager.State) (path : String) : Bool :=
  (holders w.destroyed s).any (·.path=path)

def dlopen (w : World) (s : Manager.State) (path : String) : World×Nat :=
  if w.isOpen s path then (w,w.mapped path)
  else
    ({w with
      mapped := Function.update w.mapped path (w.disk path)
      replaced := Function.update w.replaced path false},w.disk path)

def event (s : Manager.State) (w : World) : Event → World
  | .replace path version =>
      {w with
        disk := Function.update w.disk path version
        replaced := Function.update w.replaced path true}
  | .destroy serial =>
      match s.coroutines[serial]? with
      | none => w
      | some c =>
          if c.phase=.exited ∨ c.phase=.retired then
            {w with destroyed := insert serial w.destroyed}
          else w

end World

/-- How the manager opens libraries: from `state` it goes through `entries` of `config`, one
library each. `reload` tells `__reload_module` and `__reload_all_modules` from
`__load_modules`. -/
structure Plan where
  state : Manager.State
  config : AcConfig
  entries : List (AcModule×Nat)
  step : Manager.State → AcModule×Nat → Manager.State
  reload : Bool

def Plan.load (o : Outcome) (s : Manager.State) : Plan :=
  ⟨s,s.config,s.config.modules.zipIdx,loadEntry o s.config,false⟩

def Plan.all (o : Outcome) (s : Manager.State) : Plan :=
  ⟨s,s.config,s.config.modules.zipIdx,reloadEntry o s.config,true⟩

def Plan.single (o : Outcome) (s : Manager.State) (moduleId : Nat) (moduleName : String) : Plan :=
  ⟨s,s.config,(s.config.modules.zipIdx.find? (·.1.moduleName=moduleName)).toList,
    reloadNamed o s.config moduleId,true⟩

def Plan.none (o : Outcome) (s : Manager.State) : Plan := ⟨s,s.config,[],loadEntry o s.config,false⟩

def Plan.run (p : Plan) : Manager.State := p.entries.foldl p.step p.state

/-- What handling a message opens. -/
def plan (o : Outcome) (s : Manager.State) (m : EventMessage) : Plan :=
  let nothing := Plan.none o (dispatch o s m).1
  match m.type with
  | .cmdModuleReload =>
      match o.config with
      | .none => nothing
      | some config =>
          if m.payload="all" then
            if (stopAll s config).pendingReload=∅ then .load o (stopAll s config) else nothing
          else
            match firstNamed o 0 s.childrens m.payload with
            | some _ => nothing
            | .none => .single o {s with config := config, reloadAllFlag := false} 0 m.payload
  | .moduleExited =>
      match s.find m.senderId with
      | .none => nothing
      | some c =>
          if Reloading s m.senderId then
            if s.reloadAllFlag then
              if s.pendingReload.erase m.senderId=∅ then .all o (s.forget m.senderId)
              else nothing
            else .single o (s.forget m.senderId) m.senderId c.moduleName
          else nothing
  | _ => nothing

/-- What the next step of the first load opens: the library of one entry, if it has one left. -/
def startupPlan (o : Outcome) (s : Manager.State) : Plan :=
  let t := (load o s).getD s
  match s.startup with
  | .entries config (e::_) _ =>
      ⟨{s with startup := t.startup},config,[e],loadEntry o config,false⟩
  | _ => .none o t

/-- One library about to be opened, with the manager's state at that moment. -/
structure Opening where
  state : Manager.State
  config : AcConfig
  mod : AcModule
  index : Nat
  reload : Bool

def Opening.path (x : Opening) : String := x.config.path x.mod

/-- The files and the loader after an attempt to open. A library that does not open, or lacks a
symbol and is closed again, leaves no trace. -/
def World.after (o : Outcome) (w : World) (x : Opening) : World :=
  match o.opened x.index with
  | none => w
  | some _ => (w.dlopen x.state x.path).1

section Attempts

variable (o : Outcome) (env : Nat → List Event) (config : AcConfig) (reload : Bool)
  (step : Manager.State → AcModule×Nat → Manager.State)

/-- The openings of a plan, each with the files and the loader as they are then: anything may
happen to them, `env k`, before the entry `k` is opened. -/
def attempts : World → Manager.State → List (AcModule×Nat) → List (World×Opening)
  | _,_,[] => []
  | w,s,(mod,k)::rest =>
      let w' := (env k).foldl (World.event s) w
      let x : Opening := ⟨s,config,mod,k,reload⟩
      (w',x)::attempts (w'.after o x) (step s (mod,k)) rest

/-- The files and the loader when all entries are done. -/
def worldAfter : World → Manager.State → List (AcModule×Nat) → World
  | w,_,[] => w
  | w,s,(mod,k)::rest =>
      let w' := (env k).foldl (World.event s) w
      worldAfter (w'.after o ⟨s,config,mod,k,reload⟩) (step s (mod,k)) rest

end Attempts

def Plan.attempts (p : Plan) (o : Outcome) (env : Nat → List Event) (w : World) :
    List (World×Opening) :=
  HotReload.attempts o env p.config p.reload p.step w p.state p.entries

def Plan.world (p : Plan) (o : Outcome) (env : Nat → List Event) (w : World) : World :=
  worldAfter o env p.config p.reload p.step w p.state p.entries

/-- Every library that opens is the one that `dlopen` returns. -/
def Agrees (o : Outcome) (as : List (World×Opening)) : Prop :=
  ∀ a∈as,∀ v∈o.opened a.2.index,v=(a.1.dlopen a.2.state a.2.path).2

/-- Whenever a reload opens a library, the path is not open, or its file has not been replaced
since it was mapped. -/
def FreshOpenings (o : Outcome) (as : List (World×Opening)) : Prop :=
  ∀ a∈as,a.2.reload=true → (o.opened a.2.index).isSome=true →
    a.1.isOpen a.2.state a.2.path=false ∨ a.1.replaced a.2.path=false

instance (o : Outcome) (as : List (World×Opening)) : Decidable (Agrees o as) :=
  inferInstanceAs (Decidable (∀ a∈as,_))

instance (o : Outcome) (as : List (World×Opening)) : Decidable (FreshOpenings o as) :=
  inferInstanceAs (Decidable (∀ a∈as,_))

/-- A launch by a reload: its number, its library's path and the version of the file that was
on disk when the library was opened. -/
structure Launch where
  serial : Nat
  path : String
  onDisk : Nat
  deriving DecidableEq

def launches (o : Outcome) (as : List (World×Opening)) : List Launch :=
  as.filterMap fun a =>
    if a.2.reload=true ∧ (o.opened a.2.index).isSome=true then
      some ⟨a.2.state.coroutines.length,a.2.path,a.1.disk a.2.path⟩
    else none

structure State where
  manager : Manager.State
  world : World
  reloads : List Launch

/-- What the next message makes the manager open. -/
def nextPlan (o : Outcome) (s : Manager.State) : Plan :=
  match s.mailbox.messages with
  | [] => .none o s
  | m::rest => plan o (taken s m rest) m

/-- `env` is what happens outside while the manager opens libraries. -/
inductive Action where
  | load (o : Outcome) (env : Nat → List Event)
  | handle (o : Outcome) (env : Nat → List Event)
  | other (a : Manager.Action)
  | event (e : Event)

/-- The manager gets to `t` by opening what it plans to. -/
def advance (s : State) (o : Outcome) (env : Nat → List Event) (p : Plan) (t : Manager.State) :
    Option State :=
  let as := p.attempts o env s.world
  if Agrees o as then some ⟨t,p.world o env s.world,s.reloads++launches o as⟩ else none

def next (s : State) : Action → Option State
  | .load o env => (load o s.manager).bind (advance s o env (startupPlan o s.manager))
  | .handle o env => (handle o s.manager).bind (advance s o env (nextPlan o s.manager))
  | .other (.load _) | .other (.handle _) => none
  | .other a => (Manager.next s.manager a).map fun t => {s with manager := t}
  | .event e => some {s with world := s.world.event s.manager e}

/-- Nothing has been opened yet. -/
def start (config : AcConfig) (disk : String → Nat) : State :=
  ⟨init config,⟨disk,fun _ => 0,fun _ => false,∅⟩,[]⟩

def machine : Machine State Action where
  start s := ∃ config disk,s=start config disk
  next := next

def Fresh (s : State) (a : Action) (_ : State) : Prop :=
  match a with
  | .handle o env => FreshOpenings o ((nextPlan o s.manager).attempts o env s.world)
  | _ => True

instance (s : State) (a : Action) (t : State) : Decidable (Fresh s a t) :=
  match a with
  | .handle o env =>
      inferInstanceAs (Decidable (FreshOpenings o ((nextPlan o s.manager).attempts o env s.world)))
  | .load .. | .other _ | .event _ => isTrue trivial

theorem attempts_reload {p : Plan} {o : Outcome} {env : Nat → List Event} {w : World}
    {a : World×Opening} (h : a∈p.attempts o env w) : a.2.reload=p.reload := by
  obtain ⟨s,config,entries,step,reload⟩ := p
  simp only [Plan.attempts] at h
  induction entries generalizing w s with
  | nil => cases h
  | cons e rest ih =>
    rcases List.mem_cons.mp h with rfl | h
    · rfl
    · exact ih _ h

theorem reloadModule_single (o : Outcome) (s : Manager.State) (id : Nat) (name : String) :
    reloadModule o s id name=(Plan.single o s id name).run := by
  unfold reloadModule Plan.single Plan.run
  simp only [config_eq]
  cases s.config.modules.zipIdx.find? (·.1.moduleName=name) with
  | none => rfl
  | some e => rfl

theorem mem_holders {destroyed : Finset Nat} {s : Manager.State} {m : LoadedModule} :
    m∈holders destroyed s ↔ m∈s.creators ∨ ∃ i,s.modules[i]?=some m ∧ i∉destroyed := by
  simp only [holders,List.mem_append,List.mem_map,List.mem_filter,decide_eq_true_eq]
  constructor
  · intro h
    rcases h with h | ⟨⟨x,i⟩,⟨hx,hi⟩,rfl⟩
    · exact Or.inl h
    · exact Or.inr ⟨i,List.mem_zipIdx_iff_getElem?.mp hx,hi⟩
  · intro h
    rcases h with h | ⟨i,hm,hi⟩
    · exact Or.inl h
    · exact Or.inr ⟨(m,i),⟨List.mem_zipIdx_iff_getElem?.mpr hm,hi⟩,rfl⟩

/-- Nothing new is held: launches, if any, share the library of a child. -/
structure Sheds (s t : Manager.State) : Prop where
  creators : ∀ m∈t.creators,m∈s.creators
  modules : ∃ l,t.modules=s.modules++l ∧ ∀ m∈l,m∈s.creators

/-- One library was opened and launched. -/
structure Opened (s t : Manager.State) (module : LoadedModule) : Prop where
  creators : ∀ m∈t.creators,m=module ∨ m∈s.creators
  modules : t.modules=s.modules++[module]

namespace Sheds

theorem of_eq {s t : Manager.State} (hc : t.creators=s.creators) (hm : t.modules=s.modules) :
    Sheds s t :=
  ⟨fun m h => hc ▸ h,[],by simp [hm],by simp⟩

theorem trans {s t u : Manager.State} (h : Sheds s t) (k : Sheds t u) : Sheds s u := by
  obtain ⟨l,hl,hlc⟩ := h.modules
  obtain ⟨r,hr,hrc⟩ := k.modules
  refine ⟨fun m hm => h.creators m (k.creators m hm),l++r,by rw [hr,hl,List.append_assoc],?_⟩
  intro m hm
  rcases List.mem_append.mp hm with hm | hm
  · exact hlc m hm
  · exact h.creators m (hrc m hm)

theorem holders {s t : Manager.State} (h : Sheds s t) {destroyed : Finset Nat}
    {m : LoadedModule} (hm : m∈holders destroyed t) : m∈holders destroyed s := by
  obtain ⟨l,hl,hlc⟩ := h.modules
  rcases mem_holders.mp hm with hm | ⟨i,hi,hd⟩
  · exact mem_holders.mpr (Or.inl (h.creators m hm))
  · rw [hl] at hi
    by_cases hlt : i<s.modules.length
    · rw [List.getElem?_append_left hlt] at hi
      exact mem_holders.mpr (Or.inr ⟨i,hi,hd⟩)
    · rw [List.getElem?_append_right (Nat.not_lt.mp hlt)] at hi
      exact mem_holders.mpr (Or.inl (hlc m (List.mem_of_getElem? hi)))

theorem of_origins {s t : Manager.State} (hc : t.creators=s.creators)
    (ho : t.origins=s.origins) : Sheds s t := by
  apply of_eq hc
  have hm := congrArg (List.map Prod.snd) ho
  simp only [State.origins,List.map_map] at hm
  exact hm

theorem finish (s : Manager.State) (done : Bool) : Sheds s (finish s done) := by
  cases done <;> exact of_eq rfl rfl

theorem step {s t : Manager.State} {a : Manager.Action} (h : Step s a t)
    (ha : ∀ o,a≠.handle o) (hl : ∀ o,a≠.load o) : Sheds s t := by
  refine of_origins ?_ (h.origins ha hl)
  rw [State.creators,State.creators,(h.quiet ha hl).childrens]

end Sheds

/-- What a handler does before it opens anything: an exit event that no reload waits for erases
the child or calls its creator again, and nothing else changes who holds a library. -/
inductive Prepared (s : Manager.State) (m : EventMessage) : Manager.State → Prop
  | quiet {t : Manager.State} (childrens : t.childrens=s.childrens)
      (coroutines : t.coroutines=s.coroutines) (nextId : t.nextId=s.nextId)
      (stays : m.type=.moduleExited → s.find m.senderId=none ∨ Reloading s m.senderId) :
      Prepared s m t
  | restart {c : ActorMetaData} (type : m.type=.moduleExited) (child : s.find m.senderId=some c)
      (restart : Restarting s m.senderId) :
      Prepared s m ((s.forget m.senderId).restartModule c)
  | erase {c : ActorMetaData} (type : m.type=.moduleExited) (child : s.find m.senderId=some c)
      (reload : ¬Reloading s m.senderId) (restart : ¬Restarting s m.senderId) :
      Prepared s m ((s.forget m.senderId).erase m.senderId)

/-- The plan is what the handler does, once the message is prepared. -/
theorem plan_spec (o : Outcome) (s : Manager.State) (m : EventMessage) :
    (dispatch o s m).1=(plan o s m).run ∧ Prepared s m (plan o s m).state := by
  have hd := dispatch_cases o s m
  generalize ht : (dispatch o s m).1=t at hd
  have nothing (hp : plan o s m=.none o t) (h : Prepared s m t) :
      t=(plan o s m).run ∧ Prepared s m (plan o s m).state := by
    rw [hp]
    exact ⟨rfl,h⟩
  have found (hk : m.senderId∈s.keys) : ∃ c,s.find m.senderId=some c :=
    Option.isSome_iff_exists.mp (find_isSome.mpr hk)
  cases hd with
  | ignore reload exit exited =>
    apply nothing
    · unfold plan
      rw [ht]
      split
      · rename_i type
        rw [reload type]
      · rename_i type
        exact absurd type exited
      · rfl
    · exact .quiet rfl rfl rfl fun type => absurd type exited
  | exit type =>
    apply nothing
    · simp only [plan,type,ht]
    · rw [foldl_requestStop]
      exact .quiet rfl rfl rfl (by simp [type])
  | reloadAll type update all some =>
    apply nothing
    · simp only [plan,type,update,if_pos all,if_neg some,ht]
    · rw [stopAll_eq]
      exact .quiet rfl rfl rfl (by simp [type])
  | @loadAll config type update all none =>
    have hp : plan o s m=.load o (stopAll s config) := by
      simp only [plan,type,update,if_pos all,if_pos none]
    rw [hp]
    refine ⟨rfl,?_⟩
    simp only [Plan.load,stopAll_eq]
    exact .quiet rfl rfl rfl (by simp [type])
  | reloadOne type update one found =>
    apply nothing
    · simp only [plan,type,update,if_neg one,found,ht]
    · exact .quiet rfl rfl rfl (by simp [type])
  | @reloadNew config type update one missing =>
    have hp : plan o s m=
        .single o {s with config := config, reloadAllFlag := false} 0 m.payload := by
      simp only [plan,type,update,if_neg one,missing]
    rw [hp]
    exact ⟨reloadModule_single ..,.quiet rfl rfl rfl (by simp [type])⟩
  | remove type found =>
    apply nothing
    · simp only [plan,type,ht]
    · exact .quiet rfl rfl rfl (by simp [type])
  | crash type =>
    apply nothing
    · simp only [plan,type,ht]
    · exact .quiet rfl rfl rfl (by simp [type])
  | unknown type missing =>
    have hf : s.find m.senderId=none := Members.find_eq_none (s := s) |>.mpr missing
    apply nothing
    · simp only [plan,type,hf,ht]
    · exact .quiet rfl rfl rfl fun _ => Or.inl hf
  | barrier type child reload all wait =>
    obtain ⟨c,hc⟩ := found child
    apply nothing
    · simp only [plan,type,hc,if_pos reload,if_pos all,if_neg wait,ht]
    · exact .quiet rfl rfl rfl fun _ => Or.inr reload
  | complete type child reload all last =>
    obtain ⟨c,hc⟩ := found child
    have hp : plan o s m=.all o (s.forget m.senderId) := by
      simp only [plan,type,hc,if_pos reload,if_pos all,if_pos last]
    rw [hp]
    exact ⟨rfl,.quiet rfl rfl rfl fun _ => Or.inr reload⟩
  | @single c type child reload one =>
    have hp : plan o s m=.single o (s.forget m.senderId) m.senderId c.moduleName := by
      simp only [plan,type,child,if_pos reload,one,Bool.false_eq_true,if_false]
    rw [hp]
    exact ⟨reloadModule_single ..,.quiet rfl rfl rfl fun _ => Or.inr reload⟩
  | restart type child restart =>
    have hr : ¬Reloading s m.senderId := fun hr => restart.2.1 hr.2
    apply nothing
    · simp only [plan,type,child,if_neg hr,ht]
    · exact .restart type child restart
  | erase type child reload restart =>
    obtain ⟨c,hc⟩ := found child
    apply nothing
    · simp only [plan,type,hc,if_neg reload,ht]
    · exact .erase type hc reload restart

theorem Prepared.sheds {s t : Manager.State} {m : EventMessage} (h : Prepared s m t) :
    Sheds s t := by
  cases h with
  | quiet childrens coroutines =>
    exact .of_eq (congrArg (List.map _) childrens) (congrArg (List.map _) coroutines)
  | @restart c type child restart =>
    have hc : c.creator∈s.creators := List.mem_map_of_mem (find_mem child).1
    refine ⟨fun _ h => h,[c.creator],?_,?_⟩
    · simp [State.modules,State.restartModule,State.launch,State.forget]
    · intro x hx
      rw [List.mem_singleton.mp hx]
      exact hc
  | erase =>
    refine ⟨fun x hx => ?_,[],by simp [State.modules,State.erase,State.forget],by simp⟩
    exact List.map_subset _ (List.filter_subset_self _) hx

theorem Prepared.keys {s t : Manager.State} {m : EventMessage} (h : Prepared s m t) :
    t.keys.Sublist s.keys ∧ t.nextId=s.nextId := by
  cases h with
  | quiet childrens coroutines nextId =>
    have hkeys : t.keys=s.keys := congrArg (List.map _) childrens
    exact ⟨hkeys ▸ List.Sublist.refl _,nextId⟩
  | restart => exact ⟨List.Sublist.refl _,rfl⟩
  | erase => exact ⟨List.filter_sublist.map _,rfl⟩

section Loader

variable {w : World} {s t : Manager.State}

/-- Every open library is the version that its path was last mapped from, and that version is
on disk unless the file has been replaced. -/
def Good (w : World) (s : Manager.State) : Prop :=
  ∀ m∈holders w.destroyed s,m.handle=w.mapped m.path ∧
    (w.replaced m.path=false → w.mapped m.path=w.disk m.path)

theorem Good.sheds (h : Good w s) (k : Sheds s t) : Good w t := fun m hm => h m (k.holders hm)

theorem Good.event (h : Good w s) (e : Event) : Good (w.event s e) s := by
  cases e with
  | replace path version =>
    intro m hm
    obtain ⟨hv,hd⟩ := h m hm
    refine ⟨hv,?_⟩
    by_cases hp : m.path=path
    · simp [World.event,hp]
    · simpa [World.event,hp] using hd
  | destroy serial =>
    simp only [World.event]
    split
    · exact h
    · split_ifs
      · intro m hm
        apply h m
        rcases mem_holders.mp hm with hm | ⟨i,hi,hd⟩
        · exact mem_holders.mpr (Or.inl hm)
        · exact mem_holders.mpr (Or.inr ⟨i,hi,fun hx => hd (Finset.mem_insert_of_mem hx)⟩)
      · exact h

theorem Good.events (h : Good w s) (es : List Event) : Good (es.foldl (World.event s) w) s := by
  induction es generalizing w with
  | nil => exact h
  | cons e es ih => exact ih (h.event e)

theorem dlopen_destroyed (w : World) (s : Manager.State) (path : String) :
    (w.dlopen s path).1.destroyed=w.destroyed := by
  unfold World.dlopen
  split_ifs <;> rfl

/-- A version that `dlopen` returns is the mapped one; with the path closed or the file
untouched it is the one on disk. -/
theorem dlopen_version (h : Good w s) (path : String)
    (hfresh : w.isOpen s path=false ∨ w.replaced path=false) :
    (w.dlopen s path).2=w.disk path := by
  unfold World.dlopen
  split_ifs with ho
  · obtain ⟨m,hm,hp⟩ := List.any_eq_true.mp ho
    have hpath : m.path=path := by simpa using hp
    have hr : w.replaced m.path=false := by
      rw [hpath]
      exact hfresh.resolve_left (by simp [ho])
    rw [← hpath]
    exact (h m hm).2 hr
  · rfl

/-- Opening a library keeps what the others are mapped from. -/
theorem Good.opened (h : Good w s) {path : String}
    (k : Opened s t ⟨path,(w.dlopen s path).2⟩) : Good (w.dlopen s path).1 t := by
  have hold {m : LoadedModule} (hm : m∈holders w.destroyed t) :
      m=⟨path,(w.dlopen s path).2⟩ ∨ m∈holders w.destroyed s := by
    rcases mem_holders.mp hm with hm | ⟨i,hi,hd⟩
    · exact (k.creators m hm).imp_right fun hc => mem_holders.mpr (Or.inl hc)
    · rw [k.modules] at hi
      by_cases hlt : i<s.modules.length
      · rw [List.getElem?_append_left hlt] at hi
        exact Or.inr (mem_holders.mpr (Or.inr ⟨i,hi,hd⟩))
      · rw [List.getElem?_append_right (Nat.not_lt.mp hlt)] at hi
        exact Or.inl (List.mem_singleton.mp (List.mem_of_getElem? hi))
  intro m hm
  rw [dlopen_destroyed] at hm
  have hm := hold hm
  cases ho : w.isOpen s path with
  | true =>
    simp only [World.dlopen,ho,if_true] at hm ⊢
    rcases hm with rfl | hm
    · obtain ⟨m,hm,hp⟩ := List.any_eq_true.mp ho
      have hpath : m.path=path := by simpa using hp
      exact ⟨rfl,hpath ▸ (h m hm).2⟩
    · exact h m hm
  | false =>
    simp only [World.dlopen,ho,Bool.false_eq_true,if_false] at hm ⊢
    rcases hm with rfl | hm
    · simp
    · have hpath : m.path≠path := by
        intro hp
        have hany := List.any_eq_false.mp ho m hm
        simp [hp] at hany
      simpa [hpath] using h m hm

variable {o : Outcome} {env : Nat → List Event} {config : AcConfig} {reload : Bool}
  {step : Manager.State → AcModule×Nat → Manager.State} {p : Manager.State → Prop}

variable (o config step p) in
/-- A loop body that opens the library of its entry and launches it, as long as `p` holds. -/
structure Opener : Prop where
  closed : ∀ s e,o.opened e.2=none → step s e=s
  opened : ∀ s e v,p s → o.opened e.2=some v → Opened s (step s e) ⟨config.path e.1,v⟩
  keeps : ∀ s e,p s → p (step s e)

/-- One entry. -/
theorem Opener.after (k : Opener o config step p) (h : Good w s) (hs : p s) (mod : AcModule)
    (i : Nat) (ha : ∀ v∈o.opened i,v=(w.dlopen s (config.path mod)).2) :
    Good (w.after o ⟨s,config,mod,i,reload⟩) (step s (mod,i)) := by
  unfold World.after
  cases hi : o.opened i with
  | none =>
    rw [k.closed s (mod,i) hi]
    exact h
  | some v =>
    have hv := ha v hi
    subst hv
    exact h.opened (k.opened s (mod,i) _ hs hi)

theorem Opener.modules (k : Opener o config step p) (hs : p s) (e : AcModule×Nat) :
    ∃ l,(step s e).modules=s.modules++l := by
  cases hi : o.opened e.2 with
  | none => exact ⟨[],by rw [k.closed s e hi,List.append_nil]⟩
  | some v => exact ⟨_,(k.opened s e v hs hi).modules⟩

theorem mem_launches_cons {a : World×Opening} {as : List (World×Opening)} {r : Launch}
    (h : r∈launches o (a::as)) :
    (a.2.reload=true ∧ (o.opened a.2.index).isSome=true ∧
      r=⟨a.2.state.coroutines.length,a.2.path,a.1.disk a.2.path⟩) ∨ r∈launches o as := by
  simp only [launches,List.mem_filterMap,List.mem_cons] at h
  obtain ⟨b,hb,hr⟩ := h
  split_ifs at hr with hc
  cases hr
  rcases hb with rfl | hb
  · exact Or.inl ⟨hc.1,hc.2,rfl⟩
  · exact Or.inr (List.mem_filterMap.mpr ⟨b,hb,by rw [if_pos hc]⟩)

/-- A loop over entries keeps the books of the loader, and the libraries that it launches afresh
are those on disk. -/
theorem Opener.run (k : Opener o config step p) (entries : List (AcModule×Nat)) (h : Good w s)
    (hs : p s) (ha : Agrees o (attempts o env config reload step w s entries)) :
    Good (worldAfter o env config reload step w s entries) (entries.foldl step s) ∧
    (∃ l,(entries.foldl step s).modules=s.modules++l) ∧
    (FreshOpenings o (attempts o env config reload step w s entries) →
      ∀ r∈launches o (attempts o env config reload step w s entries),
        (entries.foldl step s).modules[r.serial]?=some ⟨r.path,r.onDisk⟩) := by
  induction entries generalizing w s with
  | nil => exact ⟨h,⟨[],by simp⟩,by simp [attempts,launches]⟩
  | cons e rest ih =>
    obtain ⟨mod,i⟩ := e
    have hw := h.events (env i)
    have hnow : ∀ v∈o.opened i,
        v=(((env i).foldl (World.event s) w).dlopen s (config.path mod)).2 :=
      ha _ (List.mem_cons_self ..)
    have hlater : Agrees o (attempts o env config reload step _ _ rest) :=
      fun a hm => ha a (List.mem_cons_of_mem _ hm)
    obtain ⟨hgood,⟨l,hl⟩,hfresh⟩ := ih (k.after hw hs mod i hnow) (k.keeps s _ hs) hlater
    obtain ⟨l₀,hl₀⟩ := k.modules hs (mod,i)
    refine ⟨hgood,⟨l₀++l,by rw [List.foldl_cons,hl,hl₀,List.append_assoc]⟩,?_⟩
    intro hf r hr
    have hnext := hfresh fun a hm => hf a (List.mem_cons_of_mem _ hm)
    rcases mem_launches_cons hr with ⟨hreload,hsome,rfl⟩ | hr
    · obtain ⟨v,hv⟩ := Option.isSome_iff_exists.mp hsome
      have hversion := dlopen_version hw (config.path mod)
        (hf _ (List.mem_cons_self ..) hreload hsome)
      have hdisk := (hnow v hv).trans hversion
      have hlen : s.modules.length=s.coroutines.length := List.length_map ..
      change ((rest.foldl step _).modules)[s.coroutines.length]?=
        some ⟨config.path mod,((env i).foldl (World.event s) w).disk (config.path mod)⟩
      rw [hl,(k.opened s (mod,i) v hs hv).modules,← hlen,← hdisk]
      simp
    · exact hnext r hr

theorem opened_emplace (s : Manager.State) (name : String) (module : LoadedModule) :
    Opened s (s.emplace name module) module := by
  constructor
  · intro m hm
    simp only [State.creators,State.emplace,State.launch,List.map_append,List.map_cons,
      List.map_nil,List.mem_append,List.mem_singleton] at hm
    exact hm.symm
  · simp [State.modules,State.emplace,State.launch]

theorem opened_relaunch (s : Manager.State) (id : Nat) (module : LoadedModule) :
    Opened s (s.relaunch id module) module := by
  constructor
  · intro m hm
    obtain ⟨d,hd,rfl⟩ := List.mem_map.mp hm
    obtain ⟨c,hc,rfl⟩ := List.mem_map.mp hd
    split_ifs
    · exact Or.inl rfl
    · exact Or.inr (List.mem_map_of_mem hc)
  · simp [State.modules,State.relaunch,State.launch]

theorem load_opener (o : Outcome) (config : AcConfig) :
    Opener o config (loadEntry o config) fun _ => True where
  closed s e he := by simp [loadEntry,generateCreator,he]
  opened s e v _ he := by
    simp only [loadEntry,generateCreator,he,Option.map_some]
    exact opened_emplace ..
  keeps _ _ h := h

theorem reload_opener (o : Outcome) (config : AcConfig) :
    Opener o config (reloadEntry o config) fun _ => True where
  closed s e he := by simp [reloadEntry,generateCreator,he]
  opened s e v _ he := by
    simp only [reloadEntry,generateCreator,he,Option.map_some]
    split
    · exact opened_relaunch ..
    · exact opened_emplace ..
  keeps _ _ h := h

/-- `__reload_module` launches what it opens, since the child is there. -/
theorem single_opener (o : Outcome) (config : AcConfig) (id : Nat) :
    Opener o config (reloadNamed o config id) fun s => id=0 ∨ id∈s.keys where
  closed s e he := by simp [reloadNamed,generateCreator,he]
  opened s e v hid he := by
    simp only [reloadNamed,generateCreator,he,Option.map_some]
    split_ifs with h0
    · exact opened_emplace ..
    · have hf := find_isSome.mpr (hid.resolve_left h0)
      split
      · rename_i hn
        rw [find_eq] at hn
        simp [hn] at hf
      · exact opened_relaunch ..
  keeps s e hid := by
    rcases hid with h0 | hid
    · exact Or.inl h0
    · exact Or.inr ((LaunchFrame.reloadNamed o config id s e).kept hid)

theorem plan_opener (o : Outcome) (s : Manager.State) (m : EventMessage) :
    ∃ p,Opener o (plan o s m).config (plan o s m).step p ∧ p (plan o s m).state := by
  have nothing (t : Manager.State) :
      ∃ p,Opener o (Plan.none o t).config (Plan.none o t).step p ∧ p (Plan.none o t).state :=
    ⟨_,load_opener o _,trivial⟩
  unfold plan
  split
  · split
    · exact nothing _
    · split_ifs
      · exact ⟨_,load_opener o _,trivial⟩
      · exact nothing _
      · split
        · exact nothing _
        · exact ⟨_,single_opener o _ 0,Or.inl rfl⟩
  · split
    · exact nothing _
    · rename_i c hf
      have hk : m.senderId∈s.keys := find_isSome.mp (by simp [hf])
      split_ifs
      · exact ⟨_,reload_opener o _,trivial⟩
      · exact nothing _
      · exact ⟨_,single_opener o _ m.senderId,Or.inr hk⟩
      · exact nothing _
  · exact nothing _

/-- The first load opens one library at a time, and reloads none. -/
theorem startupPlan_opener (o : Outcome) (s : Manager.State) :
    (∃ p,Opener o (startupPlan o s).config (startupPlan o s).step p ∧ p (startupPlan o s).state) ∧
      (startupPlan o s).reload=false := by
  unfold startupPlan
  split <;> exact ⟨⟨_,load_opener o _,trivial⟩,rfl⟩

theorem load_plan (h : load o s=some t) :
    t=(startupPlan o s).run ∧ Sheds s (startupPlan o s).state := by
  have hstart {startup : Startup} : Sheds s {s with startup := startup} := .of_eq rfl rfl
  have hs : startupPlan o s=match s.startup with
      | .entries config (e::_) _ =>
          ⟨{s with startup := t.startup},config,[e],loadEntry o config,false⟩
      | _ => .none o t := by
    rw [startupPlan,h]
    rfl
  cases load_cases h with
  | begin startup | enqueue startup =>
    rw [show s.startup=_ from startup] at hs
    rw [hs]
    exact ⟨rfl,hstart⟩
  | skip startup closed | emplace startup closed =>
    rw [show s.startup=_ from startup] at hs
    rw [hs]
    refine ⟨?_,hstart⟩
    simp only [Plan.run,List.foldl_cons,List.foldl_nil,loadEntry,generateCreator,closed]
    rfl

end Loader

/-- The books of the loader are in order, and what reloads have launched was on disk. -/
structure Inv (s : State) : Prop where
  good : Good s.world s.manager
  reloads : ∀ r∈s.reloads,s.manager.modules[r.serial]?=some ⟨r.path,r.onDisk⟩

variable {s t : State}

/-- Launches keep their library. -/
theorem reloads_append {s t : Manager.State} {reloads : List Launch}
    (h : ∀ r∈reloads,s.modules[r.serial]?=some ⟨r.path,r.onDisk⟩)
    (hm : ∃ l,t.modules=s.modules++l) :
    ∀ r∈reloads,t.modules[r.serial]?=some ⟨r.path,r.onDisk⟩ := by
  intro r hr
  obtain ⟨l,hl⟩ := hm
  have hs := h r hr
  obtain ⟨hlt,_⟩ := List.getElem?_eq_some_iff.mp hs
  rw [hl,List.getElem?_append_left hlt]
  exact hs

theorem Inv.sheds (h : Inv s) {u : Manager.State} (k : Sheds s.manager u) :
    Inv {s with manager := u} := by
  obtain ⟨l,hl,-⟩ := k.modules
  exact ⟨h.good.sheds k,reloads_append h.reloads ⟨l,hl⟩⟩

/-- The manager opens what it plans to. -/
theorem Inv.advance (h : Inv s) {o : Outcome} {env : Nat → List Event} {p : Plan}
    {u : Manager.State} (hn : advance s o env p u=some t) (hsheds : Sheds s.manager p.state)
    (hopener : ∃ q,Opener o p.config p.step q ∧ q p.state) (hrun : Sheds p.run u)
    (hf : FreshOpenings o (p.attempts o env s.world)) : Inv t := by
  simp only [HotReload.advance] at hn
  split_ifs at hn with ha
  cases hn
  obtain ⟨q,hopener,hstate⟩ := hopener
  obtain ⟨hgood,⟨l,hl⟩,hfresh⟩ := hopener.run _ (h.good.sheds hsheds) hstate ha
  obtain ⟨l₁,hl₁,-⟩ := hsheds.modules
  obtain ⟨l₂,hl₂,-⟩ := hrun.modules
  refine ⟨hgood.sheds hrun,?_⟩
  apply reloads_append (s := p.run) ?_ ⟨l₂,hl₂⟩
  intro r hr
  rcases List.mem_append.mp hr with hr | hr
  · exact reloads_append h.reloads ⟨l₁++l,by rw [Plan.run,hl,hl₁,List.append_assoc]⟩ r hr
  · exact hfresh hf r hr

theorem Inv.handle (h : Inv s) (o : Outcome) (env : Nat → List Event)
    (hn : next s (.handle o env)=some t) (hf : Fresh s (.handle o env) t) : Inv t := by
  obtain ⟨u,hu,hn⟩ := Option.bind_eq_some_iff.mp hn
  obtain ⟨m,rest,hloop,hm,rfl⟩ := handle_cases hu
  have hp : nextPlan o s.manager=plan o (taken s.manager m rest) m := by simp [nextPlan,hm]
  simp only [Fresh] at hf
  rw [hp] at hn hf
  obtain ⟨hdispatch,hprepared⟩ := plan_spec o (taken s.manager m rest) m
  have htaken : Sheds s.manager (taken s.manager m rest) :=
    .of_origins rfl (taken_origins s.manager m rest)
  refine h.advance hn (htaken.trans hprepared.sheds) (plan_opener ..) ?_ hf
  rw [← hdispatch]
  exact .finish _ _

theorem Inv.load (h : Inv s) (o : Outcome) (env : Nat → List Event)
    (hn : next s (.load o env)=some t) : Inv t := by
  obtain ⟨u,hu,hn⟩ := Option.bind_eq_some_iff.mp hn
  obtain ⟨hrun,hsheds⟩ := load_plan hu
  obtain ⟨hopener,hreload⟩ := startupPlan_opener o s.manager
  refine h.advance hn hsheds hopener (hrun ▸ .of_eq rfl rfl) ?_
  intro a ha hr
  rw [attempts_reload ha,hreload] at hr
  cases hr

theorem Inv.next (h : Inv s) (a : Action) (hn : next s a=some t) (hf : Fresh s a t) :
    Inv t := by
  cases a with
  | load o env => exact h.load o env hn
  | handle o env => exact h.handle o env hn hf
  | event e =>
    cases hn
    exact ⟨h.good.event e,h.reloads⟩
  | other a =>
    have other (ha : ∀ o,a≠.handle o) (hl : ∀ o,a≠.load o)
        (hm : (Manager.next s.manager a).map (fun u => {s with manager := u})=some t) :
        Inv t := by
      obtain ⟨u,hu,rfl⟩ := Option.map_eq_some_iff.mp hm
      exact h.sheds (.step (next_cases hu) ha hl)
    cases a with
    | load o | handle o => cases hn
    | reloadModule | removeModule | shutdown | clearRunning | sendExit | actor | post
    | postManager => exact other (by simp) (by simp) hn

theorem start_inv (h : machine.start s) : Inv s := by
  obtain ⟨config,disk,rfl⟩ := h
  refine ⟨?_,by simp [start]⟩
  intro m hm
  simp [start,holders,State.creators,State.modules,init] at hm

/-- Every launch by a reload runs the version of the library that was on disk when the library
was opened. -/
theorem reload_runs_disk_version (h : machine.ReachableBy Fresh s) :
    ∀ r∈s.reloads,∃ c,s.manager.coroutines[r.serial]?=some c ∧ c.module=⟨r.path,r.onDisk⟩ := by
  have hi : Inv s := by
    apply h.invariant
    · intro x hx
      exact start_inv hx
    · intro x a y hx hn ho
      exact hx.next a hn ho
  intro r hr
  have hm := hi.reloads r hr
  simp only [State.modules,List.getElem?_map,Option.map_eq_some_iff] at hm
  exact hm

/-- The module `a` in the library of the given name; every library opens as `version`. -/
def offering (library : String) (version : Nat) : Outcome :=
  ⟨some ⟨"lib",[⟨"a",library⟩]⟩,fun _ => some version,fun _ => 0⟩

/-- With version 0 of every library on disk `a` is launched. Then the file of a library is
replaced by version 1 and `a` is reloaded from that library; its old coroutine is gone, frame and
all, before its exit is handled. -/
def reloading (library : String) (version : Nat) : List Action :=
  [[.load (offering "a" 0) (fun _ => []),.load (offering "a" 0) (fun _ => [])],
    [.load (offering "a" 0) (fun _ => []),.event (.replace ("lib/lib"++library++".so") 1)],
    [.other (.reloadModule "a"),.handle (offering library version) (fun _ => [])],
    [.other (.actor 0 .start),.other (.actor 0 (.receive false)),.other (.actor 0 .exit)],
    [.event (.destroy 0),.handle (offering library version) (fun _ => [])]].flatten

theorem start_listing : machine.start (start (listing ["a"]) fun _ => 0) := ⟨_,_,rfl⟩

/-- From a library that is not open yet the new version is launched. -/
theorem reload_runs_disk_version_renamed :
    ∃ s,machine.ReachableBy Fresh s ∧ s.reloads=[⟨1,"lib/libb.so",1⟩] ∧
      ∀ r∈s.reloads,∃ c,s.manager.coroutines[r.serial]?=some c ∧ c.module=⟨r.path,r.onDisk⟩ := by
  obtain ⟨s,hs,hp⟩ := machine.exists_reachableBy Fresh (reloading "b" 1)
    (fun s => s.reloads=[⟨1,"lib/libb.so",1⟩]) start_listing (by decide +kernel)
  exact ⟨s,hs,by simpa using hp,reload_runs_disk_version hs⟩

/-- From the library that the child already runs the old version is launched once more: when it
is opened, the creator that it is to replace still holds it. -/
theorem reload_runs_old_version :
    ∃ s,machine.Reachable s ∧ ∃ r∈s.reloads,∃ c,s.manager.coroutines[r.serial]?=some c ∧
      c.module.path=r.path ∧ r.onDisk=1 ∧ c.module.handle=0 := by
  obtain ⟨s,hs,hp⟩ := machine.exists_reachableBy Machine.anyStep (reloading "a" 0)
    (fun s => s.reloads=[⟨1,"lib/liba.so",1⟩] ∧ (s.manager.coroutines[1]?).map (·.module)=
      some ⟨"lib/liba.so",0⟩) start_listing (by decide +kernel)
  simp only [decide_eq_true_eq,Option.map_eq_some_iff] at hp
  obtain ⟨hr,c,hc,hm⟩ := hp
  exact ⟨s,hs,⟨1,"lib/liba.so",1⟩,by simp [hr],c,hc,by rw [hm],rfl,by rw [hm]⟩

end HotReload

end Acnet.Manager
