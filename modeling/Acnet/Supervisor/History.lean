import Acnet.Supervisor.Books

/-!
What the manager decides when a child exits, told from the messages it has handled since the
child's last exit.
-/

namespace Acnet.Supervisor

open Manager (AcConfig Outcome Broadcast Effect Loading Kept Noted firstNamed requestAll
  handleEventExit reloadExited supervise load)

/-- A handled message, with what the environment answered and the books before it. -/
structure Record where
  outcome : Outcome
  message : EventMessage
  before : State

namespace Record

variable (r : Record) (id : Nat)

/-- The message found the child, under its name, first. -/
def finds : Bool :=
  decide ((firstNamed r.outcome 0 r.before.childrens r.message.payload).map (·.1)=some id)

/-- A reload command, with a configuration that could be read, for all or for this child. -/
@[simp]
def selectsReload : Bool :=
  decide (r.message.type=.cmdModuleReload) && r.outcome.config.isSome &&
    (if r.message.payload="all" then decide (id∈r.before.keys) else r.finds id)

/-- A remove command for this child, or the exit command while it was there. -/
@[simp]
def selectsStop : Bool :=
  (decide (r.message.type=.cmdModuleRemove) && r.finds id) ||
    (decide (r.message.type=.cmdExit) && decide (id∈r.before.keys))

/-- A crash report of this child, handled while the manager was running. -/
@[simp]
def crashes : Bool :=
  decide (r.message.type=.crashReport) && decide (r.message.senderId=id) && r.before.isRunning

@[simp]
def exits : Bool :=
  decide (r.message.type=.moduleExited) && decide (r.message.senderId=id)

end Record

/-- What one message means to a child. -/
structure Marks where
  reload : Bool
  stop : Bool
  crash : Bool

def marks (id : Nat) (r : Record) : Marks := ⟨r.selectsReload id,r.selectsStop id,r.crashes id⟩

/-- The messages handled since the last exit of the child, or since it was made; newest first. -/
def window (id : Nat) (log : List Record) : List Marks :=
  (log.takeWhile fun r => decide (id∈r.before.keys) && !r.exits id).map (marks id)

inductive ExitCase where
  | reload
  | restart
  | erase
  deriving DecidableEq

/-- The decision as the history tells it. -/
def exitCase (running : Bool) (w : List Marks) : ExitCase :=
  if running=false then .erase
  else if w.any (·.reload) then .reload
  else if w.any (·.crash) && !w.any (·.stop) then .restart
  else .erase

/-- The branch that `__handle_event_exit` takes for a child. -/
def branch (s : State) (id : Nat) : ExitCase :=
  if s.isRunning=true ∧ id∈s.pendingReload then .reload
  else if s.isRunning=true ∧ id∈s.pendingRestart ∧ id∉s.pendingStop then .restart
  else .erase

/-- The books after the branch. -/
def branchResult (o : Outcome) (s : State) (id : Nat) (c : ActorMetaData) : ExitCase → State
  | .reload => reloadExited o (s.forget id) id (id,c)
  | .restart => (s.forget id).launch c
  | .erase => (s.forget id).erase id

theorem handleEventExit_branch (o : Outcome) {s : State} {id : Nat} {c : ActorMetaData}
    (h : s.find id=some c) :
    (handleEventExit o s id).1=branchResult o s id c (branch s id) := by
  simp only [handleEventExit,find_eq h,branch,isRunning_eq,pendingReload_eq,pendingRestart_eq,
    pendingStop_eq]
  split_ifs <;> rfl

/-- The books with the record of all messages handled, newest first. -/
structure Run where
  state : State
  log : List Record

def Run.next (r : Run) : Action → Option Run
  | .load o => (load o r.state).map fun s => {r with state := s}
  | .handle o m => some ⟨(supervise o r.state m).1,⟨o,m,r.state⟩::r.log⟩
  | .shutdown => some {r with state := {r.state with isRunning := false}}

def runs : Machine Run Action where
  start r := machine.start r.state ∧ r.log=[]
  next := Run.next

/-- The pending sets are left alone. -/
structure SamePending (s t : State) : Prop where
  reload : t.pendingReload=s.pendingReload
  stop : t.pendingStop=s.pendingStop
  restart : t.pendingRestart=s.pendingRestart

namespace SamePending

theorem refl (s : State) : SamePending s s := ⟨rfl,rfl,rfl⟩

theorem trans {s t u : State} (h : SamePending s t) (k : SamePending t u) : SamePending s u :=
  ⟨k.reload.trans h.reload,k.stop.trans h.stop,k.restart.trans h.restart⟩

theorem kept (s : State) : Kept (SamePending s) where
  emplace t name module h := by
    refine h.trans ?_
    simp only [emplace_eq,State.emplace]
    split_ifs <;> exact ⟨rfl,rfl,rfl⟩
  relaunch t e module _ h := h.trans ⟨rfl,rfl,rfl⟩

end SamePending

/-- What a message does to the pending sets, as far as one child goes. -/
structure Pends (r : Record) (id : Nat) (t : State) : Prop where
  reload : id∈t.pendingReload ↔
    r.exits id=false ∧ (id∈r.before.pendingReload ∨ r.selectsReload id=true)
  stop : id∈t.pendingStop ↔
    r.exits id=false ∧ (id∈r.before.pendingStop ∨ r.selectsStop id=true)
  restart : id∈t.pendingRestart ↔ r.exits id=false ∧ r.selectsReload id=false ∧
    r.selectsStop id=false ∧
      (id∈r.before.pendingRestart ∨ (r.crashes id=true ∧ Noted r.before id))

theorem Pends.same {r : Record} {id : Nat} {t u : State} (h : Pends r id t)
    (hs : SamePending t u) : Pends r id u :=
  ⟨hs.reload ▸ h.reload,hs.stop ▸ h.stop,hs.restart ▸ h.restart⟩

/-- A message that is no exit of the child keeps it pending and adds what it selects. -/
theorem effect_pends {o : Outcome} {s t : State} {m : EventMessage} {stop : Option Broadcast}
    {done : Bool} (he : Effect o s m t stop done) (id : Nat) : Pends ⟨o,m,s⟩ id t := by
  have forgets (type : m.type=.moduleExited) : Pends ⟨o,m,s⟩ id (s.forget m.senderId) := by
    by_cases hid : m.senderId=id
    · constructor <;> simp [type,hid,State.forget]
    · constructor <;> simp [type,hid,State.forget,Ne.symm hid]
  have notes (config : AcConfig) (type : m.type=.cmdModuleReload) (update : o.config=some config)
      (all : m.payload="all") :
      Pends ⟨o,m,s⟩ id (requestAll {s with config := config}) := by
    have hkeys : ({s with config := config} : State).keys=s.keys := rfl
    rw [requestAll_eq,hkeys]
    by_cases hk : id∈s.keys
    all_goals constructor <;> simp [type,update,all,hk]
  have found_iff {e : Nat×ActorMetaData}
      (found : firstNamed o 0 s.childrens m.payload=some e) :
      Record.finds ⟨o,m,s⟩ id=decide (e.1=id) := by
    simp [Record.finds,found]
  have missing_iff (missing : firstNamed o 0 s.childrens m.payload=none) :
      Record.finds ⟨o,m,s⟩ id=false := by
    simp [Record.finds,missing]
  cases he with
  | other exit reload remove exited crash =>
    constructor <;> simp [exit,reload,remove,exited,crash]
  | exitEmpty type empty =>
    rw [childrens_eq] at empty
    constructor <;> simp [type,State.keys,empty]
  | exit type some =>
    have hkeys : s.childrens.map (·.1)=s.keys := rfl
    change Pends _ id (s.childrens.foldl State.noteStop s)
    rw [foldl_noteStop,hkeys]
    by_cases hk : id∈s.keys
    all_goals constructor <;> simp [type,hk]
  | reloadFailed type update =>
    constructor <;> simp [type,update]
  | reloadAll type update all => exact notes _ type update all
  | loadAll type update all none =>
    exact (notes _ type update all).same
      (Manager.loadModules_rec (SamePending.kept _).emplace (.refl _) o)
  | @reloadOne config e type update one found =>
    by_cases hid : e.1=id
    · constructor <;> simp [type,update,one,found_iff found,State.noteReload,hid]
    · constructor <;> simp [type,update,one,found_iff found,State.noteReload,hid,Ne.symm hid]
  | @reloadNew config type update one missing =>
    refine Pends.same (t := {s with config := config, reloadAllFlag := false}) ?_
      ((SamePending.kept _).reloadModule (.refl _) o 0 _)
    constructor <;> simp [type,one,missing_iff missing]
  | @remove e type found =>
    by_cases hid : e.1=id
    · constructor <;> simp [type,found_iff found,State.noteStop,hid]
    · constructor <;> simp [type,found_iff found,State.noteStop,hid,Ne.symm hid]
  | removeMissing type missing =>
    constructor <;> simp [type,missing_iff missing]
  | crash type noted =>
    have hr : s.isRunning=true := noted.2.1
    by_cases hid : m.senderId=id
    · subst hid
      constructor <;> simp [type,hr,noted]
    · constructor <;> simp [type,hid,Ne.symm hid]
  | crashIgnored type ignored =>
    by_cases hid : m.senderId=id
    · subst hid
      constructor <;> simp [type,ignored]
    · constructor <;> simp [type,hid]
  | unknown type missing => exact forgets type
  | reload type child reload =>
    exact (forgets type).same ((SamePending.kept _).reloadExited (.refl _) o _ _)
  | restart type child restart => exact (forgets type).same ⟨rfl,rfl,rfl⟩
  | erase type child reload restart => exact (forgets type).same ⟨rfl,rfl,rfl⟩

/-- What the window says about one child is what the pending sets say. -/
def Summarises (s : State) (id : Nat) (w : List Marks) : Prop :=
  (id∈s.pendingReload ↔ w.any (·.reload)=true) ∧
  (id∈s.pendingStop ↔ w.any (·.stop)=true) ∧
  (id∈s.pendingRestart ↔
    w.any (·.crash)=true ∧ w.any (·.reload)=false ∧ w.any (·.stop)=false)

/-- The window of a child after one more message. -/
theorem window_cons (id : Nat) (r : Record) (log : List Record) :
    window id (r::log)=
      if id∈r.before.keys ∧ r.exits id=false then marks id r::window id log else [] := by
  simp only [window,List.takeWhile_cons]
  by_cases hk : id∈r.before.keys <;> cases he : r.exits id <;> simp [hk]

/-- One more message keeps the summary. -/
theorem Summarises.cons {r : Record} {id : Nat} {w : List Marks} {t : State}
    (h : Summarises r.before id w) (hk : id∈r.before.keys) (he : r.exits id=false)
    (hp : Pends r id t) : Summarises t id (marks id r::w) := by
  obtain ⟨hr,hs,ht⟩ := h
  have hnoted : Noted r.before id ↔
      r.before.isRunning=true ∧ w.any (·.reload)=false ∧ w.any (·.stop)=false := by
    simp [Noted,hk,hr,hs]
  have hcrash (hc : r.crashes id=true) : r.before.isRunning=true := by
    simp only [Record.crashes,Bool.and_eq_true] at hc
    exact hc.2
  refine ⟨?_,?_,?_⟩
  · rw [hp.reload,hr,List.any_cons]
    simp only [he,true_and,marks,Bool.or_eq_true]
    exact or_comm
  · rw [hp.stop,hs,List.any_cons]
    simp only [he,true_and,marks,Bool.or_eq_true]
    exact or_comm
  · rw [hp.restart,ht,hnoted]
    simp only [List.any_cons,marks,he,true_and,Bool.or_eq_true,Bool.or_eq_false_iff]
    constructor
    · intro hx
      obtain ⟨hsr,hss,hx⟩ := hx
      rcases hx with ⟨hc,hnr,hns⟩ | ⟨hc,-,hnr,hns⟩
      · exact ⟨Or.inr hc,⟨hsr,hnr⟩,hss,hns⟩
      · exact ⟨Or.inl hc,⟨hsr,hnr⟩,hss,hns⟩
    · intro hx
      obtain ⟨hc,⟨hsr,hnr⟩,hss,hns⟩ := hx
      refine ⟨hsr,hss,?_⟩
      rcases hc with hc | hc
      · exact Or.inr ⟨hc,hcrash hc,hnr,hns⟩
      · exact Or.inl ⟨hc,hnr,hns⟩

/-- The pending sets tell the history of every child, and no message was handled under an id that
is yet to be given. -/
structure Told (r : Run) : Prop where
  books : Books r.state
  told : ∀ id∈r.state.keys,Summarises r.state id (window id r.log)
  past : ∀ x∈r.log,∀ id∈x.before.keys,id < r.state.nextId

theorem summarises_nil {s : State} {id : Nat} (hr : id∉s.pendingReload) (hs : id∉s.pendingStop)
    (ht : id∉s.pendingRestart) : Summarises s id [] := by
  simp [Summarises,hr,hs,ht]

theorem Record.finds_keys {r : Record} {id : Nat} (h : r.finds id=true) :
    id∈r.before.keys := by
  simp only [Record.finds,decide_eq_true_eq,Option.map_eq_some_iff] at h
  obtain ⟨e,he,rfl⟩ := h
  exact mem_keys (Manager.Child.firstNamed_mem he).1

/-- Only children are selected. -/
theorem Record.selects_keys {r : Record} {id : Nat}
    (h : r.selectsReload id=true ∨ r.selectsStop id=true) : id∈r.before.keys := by
  simp only [Record.selectsReload,Record.selectsStop,Bool.and_eq_true,Bool.or_eq_true,
    decide_eq_true_eq] at h
  rcases h with ⟨-,h⟩ | ⟨-,h⟩ | ⟨-,h⟩
  · split_ifs at h
    · exact of_decide_eq_true h
    · exact finds_keys h
  · exact finds_keys h
  · exact h

/-- Nothing is pending for a child that has just exited or is new. -/
theorem Pends.none {r : Record} {id : Nat} {t : State} (h : Pends r id t) (hb : Books r.before)
    (hn : r.exits id=true ∨ id∉r.before.keys) : Summarises t id [] := by
  rcases hn with he | hk
  · exact summarises_nil (by simp only [h.reload,he]; simp) (by simp only [h.stop,he]; simp)
      (by simp only [h.restart,he]; simp)
  · have hsel (hs : r.selectsReload id=true ∨ r.selectsStop id=true) : False :=
      hk (Record.selects_keys hs)
    refine summarises_nil ?_ ?_ ?_
    · intro hr
      obtain ⟨-,hr | hr⟩ := h.reload.mp hr
      · exact hk (hb.reload_keys id hr)
      · exact hsel (Or.inl hr)
    · intro hr
      obtain ⟨-,hr | hr⟩ := h.stop.mp hr
      · exact hk (hb.stop_keys id hr)
      · exact hsel (Or.inr hr)
    · intro hr
      obtain ⟨-,-,-,hr | ⟨-,hr⟩⟩ := h.restart.mp hr
      · exact hk (hb.restart_keys id hr)
      · exact hk hr.1

/-- Ids are given in increasing order. -/
theorem effect_nextId {o : Outcome} {s t : State} {m : EventMessage} {stop : Option Broadcast}
    {done : Bool} (he : Effect o s m t stop done) : s.nextId ≤ t.nextId := by
  have hkept : Kept fun t : State => s.nextId ≤ t.nextId := by
    refine ⟨fun t name module h => h.trans ?_,fun t e module _ h => h⟩
    simp only [emplace_eq,State.emplace]
    split_ifs <;> exact Nat.le_succ _
  cases he with
  | other | exitEmpty | reloadFailed | removeMissing | crashIgnored | reloadOne | remove | crash
  | unknown | restart | erase => exact Nat.le_refl _
  | exit =>
    change s.nextId ≤ (s.childrens.foldl State.noteStop s).nextId
    rw [foldl_noteStop]
  | reloadAll => rw [setConfig_eq,requestAll_eq]
  | loadAll =>
    refine Manager.loadModules_rec hkept.emplace ?_ o
    rw [setConfig_eq,requestAll_eq]
  | @reloadNew config =>
    exact hkept.reloadModule (s := {s with config := config, reloadAllFlag := false})
      (Nat.le_refl _) o 0 _
  | reload => exact hkept.reloadExited (s := s.forget m.senderId) (Nat.le_refl _) o _ _

theorem Told.handle {r : Run} (h : Told r) (o : Outcome) (m : EventMessage) :
    Told ⟨(supervise o r.state m).1,⟨o,m,r.state⟩::r.log⟩ := by
  have heffect := Manager.supervise_effect o r.state m
  have hnext := effect_nextId heffect
  refine ⟨h.books.effect heffect,?_,?_⟩
  · intro id hid
    have hp := effect_pends heffect id
    rw [window_cons]
    split_ifs with hc
    · exact (h.told id hc.1).cons hc.1 hc.2 hp
    · refine hp.none h.books ?_
      by_cases hk : id∈r.state.keys
      · exact Or.inl (by simpa only [hk,true_and,Bool.not_eq_false] using hc)
      · exact Or.inr hk
  · intro x hx id hid
    rcases List.mem_cons.mp hx with rfl | hx
    · obtain ⟨e,he,rfl⟩ := List.mem_map.mp hid
      exact (h.books.keys_lt e he).2.trans_le hnext
    · exact (h.past x hx id hid).trans_le hnext

/-- No message has been handled since a new child was made. -/
theorem Told.window_new {r : Run} (h : Told r) : window r.state.nextId r.log=[] := by
  unfold window
  cases hl : r.log with
  | nil => rfl
  | cons x log =>
    have hx : r.state.nextId∉x.before.keys := by
      intro hk
      have hlt := h.past x (by simp [hl]) _ hk
      omega
    simp [hx]

theorem Told.load {r : Run} (h : Told r) {o : Outcome} {t : State} (hl : Loading o r.state t) :
    Told {r with state := t} := by
  have hbooks := h.books.loading hl
  cases hl with
  | begin | skip | enqueue => exact ⟨hbooks,h.told,h.past⟩
  | @emplace config mod k handle rest batch =>
    let u : State := {r.state with
      startup := .entries config rest (batch++[r.state.launches.length])}
    have hnew : u.nextId∉u.keys := h.books.nextId_new
    have hsame : SamePending u (u.emplace mod.moduleName ⟨config.path mod,handle⟩) :=
      (SamePending.kept u).emplace u _ _ (.refl u)
    refine ⟨hbooks,?_,?_⟩
    · intro id hid
      change id∈(u.emplace mod.moduleName ⟨config.path mod,handle⟩).keys at hid
      rw [keys_emplace hnew] at hid
      change Summarises (u.emplace mod.moduleName ⟨config.path mod,handle⟩) id _
      unfold Summarises
      rw [hsame.reload,hsame.stop,hsame.restart]
      rcases List.mem_append.mp hid with hid | hid
      · exact h.told id hid
      · rw [List.mem_singleton.mp hid]
        change Summarises u r.state.nextId (window r.state.nextId r.log)
        rw [h.window_new]
        exact summarises_nil (fun hx => hnew (h.books.reload_keys _ hx))
          (fun hx => hnew (h.books.stop_keys _ hx)) fun hx => hnew (h.books.restart_keys _ hx)
    · intro x hx id hid
      change id < (u.emplace mod.moduleName ⟨config.path mod,handle⟩).nextId
      rw [emplace_new hnew]
      exact Nat.lt_succ_of_lt (h.past x hx id hid)

theorem reachable_told {r : Run} (h : runs.Reachable r) : Told r := by
  apply h.invariant
  · intro x hx
    obtain ⟨hs,hlog⟩ := hx
    refine ⟨start_books hs,?_,by simp [hlog]⟩
    obtain ⟨config,hs⟩ := hs
    intro id hid
    simp [hs,init,State.keys] at hid
  · intro x a y hx hn _
    cases a with
    | load o =>
      obtain ⟨t,ht,rfl⟩ := Option.map_eq_some_iff.mp hn
      exact hx.load (Manager.load_cases ht)
    | handle o m =>
      cases hn
      exact hx.handle o m
    | shutdown =>
      cases hn
      exact ⟨next_books (a := .shutdown) hx.books rfl,hx.told,hx.past⟩

/-- The branch is the one that the history tells. -/
theorem Summarises.branch {s : State} {id : Nat} {w : List Marks} (h : Summarises s id w) :
    branch s id=exitCase s.isRunning w := by
  obtain ⟨hr,hs,ht⟩ := h
  simp only [Supervisor.branch,exitCase,hr,hs,ht]
  cases s.isRunning <;> cases w.any (·.reload) <;> cases w.any (·.stop) <;>
    cases w.any (·.crash) <;> simp

theorem exitCase_perm (running : Bool) {w w' : List Marks} (h : w'.Perm w) :
    exitCase running w'=exitCase running w := by
  have hany (p : Marks → Bool) : w'.any p=w.any p := by
    rw [Bool.eq_iff_iff,List.any_eq_true,List.any_eq_true]
    simp only [h.mem_iff]
  simp only [exitCase,hany]

/-- What is done with a child that exits depends only on the messages handled since its last
exit, whatever their order. -/
theorem exit_told_by_history {r : Run} (h : runs.Reachable r) (o : Outcome) {m : EventMessage}
    {c : ActorMetaData} (type : m.type=.moduleExited)
    (child : r.state.find m.senderId=some c) :
    let w := window m.senderId r.log
    let case := exitCase r.state.isRunning w
    branch r.state m.senderId=case ∧
    (supervise o r.state m).1=branchResult o r.state m.senderId c case ∧
    (case=.restart → (supervise o r.state m).1.childrens=r.state.childrens ∧
      (supervise o r.state m).1.launches=
        r.state.launches++[⟨m.senderId,c.mailbox,c.creator⟩]) ∧
    (case=.erase → m.senderId∉(supervise o r.state m).1.keys ∧
      (supervise o r.state m).1.launches=r.state.launches) ∧
    ∀ w',w'.Perm w → exitCase r.state.isRunning w'=case := by
  have ht := reachable_told h
  have hk : m.senderId∈r.state.keys := mem_keys (find_mem child)
  have hb := (ht.told _ hk).branch
  have hs : (supervise o r.state m).1=
      branchResult o r.state m.senderId c (branch r.state m.senderId) := by
    rw [← handleEventExit_branch o child]
    simp [supervise,type]
  refine ⟨hb,hb ▸ hs,?_,?_,fun w' hp => exitCase_perm _ hp⟩
  · intro hcase
    rw [hs,hb,hcase]
    have hid : c.actorId=m.senderId := ht.books.actor_id _ (find_mem child)
    exact ⟨rfl,by rw [← hid]; rfl⟩
  · intro hcase
    rw [hs,hb,hcase]
    refine ⟨?_,rfl⟩
    simp [branchResult,State.keys,State.erase]

/-- A child that has crashed, and that nobody wants reloaded or stopped, is launched again. -/
theorem exit_told_by_history_crashed :
    ∃ r c,runs.Reachable r ∧ r.state.find 1=some c ∧
      exitCase r.state.isRunning (window 1 r.log)=.restart ∧
      (supervise (Manager.opening []) r.state ⟨.moduleExited,1,"",0⟩).1.launches=
        r.state.launches++[⟨1,c.mailbox,c.creator⟩] := by
  obtain ⟨r,hr,hp⟩ := runs.exists_reachableBy Machine.anyStep
    (loadingTwo++[.handle (Manager.opening []) ⟨.crashReport,1,"",0⟩,
      .handle (Manager.opening ["a","b"]) ⟨.cmdModuleReload,0,"b",0⟩])
    (fun r => decide (exitCase r.state.isRunning (window 1 r.log)=.restart) &&
      (r.state.find 1).isSome) (s := ⟨init (Manager.listing ["a","b"]),[]⟩)
    ⟨init_start _,rfl⟩ (by decide +kernel)
  simp only [Bool.and_eq_true,decide_eq_true_eq] at hp
  obtain ⟨hcase,hsome⟩ := hp
  obtain ⟨c,hc⟩ := Option.isSome_iff_exists.mp hsome
  obtain ⟨-,-,hrestart,-⟩ := exit_told_by_history hr (Manager.opening [])
    (m := ⟨.moduleExited,1,"",0⟩) rfl hc
  exact ⟨r,c,hr,hc,hcase,(hrestart hcase).2⟩

end Acnet.Supervisor
