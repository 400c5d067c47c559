import Acnet.Manager.Step
import Mathlib.Logic.Relation

namespace Acnet.Manager

namespace Coroutine

/-- The exit event of the coroutine has not been handled. -/
def live (c : Coroutine) : Bool := c.phase≠.retired

/-- The coroutine has not left the loop of `RunCoroutine`. -/
def inLoop (c : Coroutine) : Bool := c.phase=.launched ∨ c.phase=.running

end Coroutine

/-- The elementary changes that handling a message, or loading, is made of. -/
inductive Op (s : State) : State → Prop
  | configure (config : AcConfig) (flag : Bool) :
      Op s {s with config := config, reloadAllFlag := flag}
  | requestReload (c : ActorMetaData) (h : c∈s.childrens) : Op s (s.requestReload c)
  | requestStop (c : ActorMetaData) (h : c∈s.childrens) : Op s (s.requestStop c)
  | emplace (name : String) (module : LoadedModule) : Op s (s.emplace name module)
  | relaunch (id : Nat) (module : LoadedModule) (h : id∈s.keys) : Op s (s.relaunch id module)
  | restart (c : ActorMetaData) (h : c∈s.childrens) : Op s (s.restartModule c)
  | forget (id : Nat) : Op s (s.forget id)
  | erase (id : Nat) : Op s ((s.forget id).erase id)
  | crash (id : Nat) (h : id∈s.keys) :
      Op s {s with pendingRestart := insert id s.pendingRestart}
  | startup (startup : Startup) : Op s {s with startup := startup}
  | exitHandled (h : s.isRunning=false) : Op s {s with exitHandled := true}

abbrev Ops : State → State → Prop := Relation.ReflTransGen Op

theorem Op.ops {s t : State} (h : Op s t) : Ops s t := .single h

section Decomposition

theorem kept_ops (s : State) : Kept (Ops s) where
  emplace _ name module h := h.tail (.emplace name module)
  relaunch _ c module hc h := h.tail (.relaunch c.actorId module (mem_keys hc))

theorem loadModules_ops (o : Outcome) (s : State) : Ops s (loadModules o s) :=
  loadModules_rec (kept_ops s).emplace .refl o

theorem reloadAllModules_ops (o : Outcome) (s : State) : Ops s (reloadAllModules o s) :=
  (kept_ops s).reloadAllModules .refl o

theorem reloadModule_ops (o : Outcome) (s : State) (id : Nat) (name : String) :
    Ops s (reloadModule o s id name) :=
  (kept_ops s).reloadModule .refl o id name

theorem Loading.ops {o : Outcome} {s t : State} (h : Loading o s t) : Ops s t := by
  cases h with
  | begin | skip | enqueue => exact (Op.startup _).ops
  | emplace => exact (Op.startup _).ops.tail (.emplace _ _)

/-- A loop over `childrens_` that only sends and notes. -/
theorem request_ops (f : State → ActorMetaData → State)
    (hf : ∀ s c,c∈s.childrens → Op s (f s c))
    (hc : ∀ s c,(f s c).childrens=s.childrens) (l : List ActorMetaData) (s : State)
    (hl : ∀ c∈l,c∈s.childrens) : Ops s (l.foldl f s) := by
  induction l generalizing s with
  | nil => exact .refl
  | cons c l ih =>
    have hs := hf s c (hl c (by simp))
    apply hs.ops.trans
    apply ih
    intro d hd
    rw [hc]
    exact hl d (by simp [hd])

theorem stopAll_ops (s : State) (config : AcConfig) : Ops s (stopAll s config) := by
  have hloop := request_ops State.requestReload (fun _ => .requestReload) (fun _ _ => rfl)
    s.childrens {s with config := config, reloadAllFlag := true} fun _ h => h
  exact (Op.configure config true).ops.trans hloop

/-- Handling a message only makes elementary changes. -/
theorem Dispatch.ops {o : Outcome} {s t : State} {m : EventMessage} (h : Dispatch o s m t)
    (hexit : m.type=.cmdExit → s.isRunning=false) : Ops s t := by
  have hforget : Ops s (s.forget m.senderId) := (Op.forget _).ops
  cases h with
  | ignore => exact .refl
  | exit type =>
    have hloop := request_ops State.requestStop (fun _ => .requestStop) (fun _ _ => rfl)
      s.childrens s fun _ h => h
    have hrun : (s.childrens.foldl State.requestStop s).isRunning=false := by
      rw [foldl_requestStop]
      exact hexit type
    exact hloop.trans (Op.exitHandled hrun).ops
  | reloadAll => exact stopAll_ops s _
  | loadAll => exact (stopAll_ops s _).trans (loadModules_ops o _)
  | @reloadOne config c type update one found =>
    have hflag : Ops s {s with config := config, reloadAllFlag := false} :=
      (Op.configure config false).ops
    have hc : c∈({s with config := config, reloadAllFlag := false} : State).childrens :=
      (firstNamed_mem found).1
    exact hflag.trans (Op.requestReload c hc).ops
  | @reloadNew config =>
    have hflag : Ops s {s with config := config, reloadAllFlag := false} :=
      (Op.configure config false).ops
    exact hflag.trans (reloadModule_ops o _ 0 _)
  | remove type found => exact (Op.requestStop _ (firstNamed_mem found).1).ops
  | crash type child => exact (Op.crash _ child).ops
  | unknown | barrier => exact hforget
  | complete => exact hforget.trans (reloadAllModules_ops o _)
  | single => exact hforget.trans (reloadModule_ops o _ _ _)
  | @restart c type child =>
    have hc : c∈(s.forget m.senderId).childrens := (find_mem child).1
    exact hforget.trans (Op.restart c hc).ops
  | erase => exact (Op.erase _).ops

end Decomposition

/-- The books are in order: ids are unique and below the counter, the pending sets speak of
children only, an exit event in the mailbox comes from one coroutine that has exited under that
id and is not retired, and `kEventCmdExit` is only ever sent when `is_running_` is cleared. -/
structure Ledger (s : State) : Prop where
  next_pos : 0<s.nextId
  keys_lt : ∀ id∈s.keys,0 < id ∧ id < s.nextId
  keys_nodup : s.keys.Nodup
  actor_lt : ∀ c∈s.coroutines,c.actorId<s.nextId
  reload_keys : ∀ id∈s.pendingReload,id∈s.keys
  stop_keys : ∀ id∈s.pendingStop,id∈s.keys
  restart_keys : ∀ id∈s.pendingRestart,id∈s.keys
  exits : ∀ m∈s.mailbox.messages,m.type=.moduleExited →
    ∃ c,s.coroutines[m.serial]?=some c ∧ c.actorId=m.senderId ∧ c.phase=.exited
  exits_nodup : ((s.mailbox.messages.filter (·.type=.moduleExited)).map (·.serial)).Nodup
  exit_queued : ∀ m∈s.mailbox.messages,m.type=.cmdExit → s.isRunning=false
  exit_handled : s.exitHandled=true → s.isRunning=false
  exit_sending : 0<s.sending → s.isRunning=false

namespace Ledger

variable {s t : State}

theorem launched (h : Ledger s) {id : Nat} (hid : id∈s.keys) (module : LoadedModule) :
    Ledger (s.launch id module) :=
  {h with
    actor_lt := by
      intro c hc
      rcases List.mem_append.mp hc with hc | hc
      · exact h.actor_lt c hc
      · obtain rfl := List.mem_singleton.mp hc
        exact (h.keys_lt id hid).2
    exits := by
      intro m hm ht
      obtain ⟨c,hc,hrest⟩ := h.exits m hm ht
      obtain ⟨hlt,_⟩ := List.getElem?_eq_some_iff.mp hc
      exact ⟨c,(List.getElem?_append_left hlt).trans hc,hrest⟩}

theorem rekey (h : Ledger s) {l : List ActorMetaData} (hl : l.map (·.actorId)=s.keys) :
    Ledger {s with childrens := l} := by
  have hk (x : Nat) : x∈({s with childrens := l} : State).keys ↔ x∈s.keys := by
    change x∈l.map (·.actorId) ↔ x∈s.keys
    rw [hl]
  exact {h with
    keys_lt := fun id hid => h.keys_lt id ((hk id).mp hid)
    keys_nodup := by
      change (l.map (·.actorId)).Nodup
      rw [hl]
      exact h.keys_nodup
    reload_keys := fun id hid => (hk id).mpr (h.reload_keys id hid)
    stop_keys := fun id hid => (hk id).mpr (h.stop_keys id hid)
    restart_keys := fun id hid => (hk id).mpr (h.restart_keys id hid)}

theorem op (h : Ledger s) (hop : Op s t) : Ledger t := by
  cases hop with
  | configure config flag => exact {h with}
  | requestReload c hc =>
    have hk := mem_keys hc
    exact {h with
      reload_keys := fun id hid => (Finset.mem_insert.mp hid).elim (· ▸ hk) (h.reload_keys id)
      restart_keys := fun id hid => h.restart_keys id (Finset.mem_of_mem_erase hid)}
  | requestStop c hc =>
    have hk := mem_keys hc
    exact {h with
      stop_keys := fun id hid => (Finset.mem_insert.mp hid).elim (· ▸ hk) (h.stop_keys id)
      restart_keys := fun id hid => h.restart_keys id (Finset.mem_of_mem_erase hid)}
  | emplace name module =>
    have hnew : s.nextId∉s.keys := fun hid => Nat.lt_irrefl _ (h.keys_lt _ hid).2
    apply Ledger.launched
    · have hkeys := keys_emplace s name module
      exact {h with
        next_pos := Nat.succ_pos _
        keys_lt := fun id hid => by
          change id∈(s.emplace name module).keys at hid
          rw [hkeys,List.mem_append,List.mem_singleton] at hid
          change 0 < id ∧ id < s.nextId+1
          rcases hid with hid | rfl
          · have := h.keys_lt id hid
            omega
          · exact ⟨h.next_pos,Nat.lt_succ_self _⟩
        keys_nodup := by
          change (s.emplace name module).keys.Nodup
          rw [hkeys]
          exact List.nodup_append.mpr ⟨h.keys_nodup,List.nodup_singleton _,
            fun x hx y hy he => hnew (by simpa [← List.mem_singleton.mp hy,he] using hx)⟩
        actor_lt := fun c hc => Nat.lt_succ_of_lt (h.actor_lt c hc)
        reload_keys := fun id hid => by
          change id∈(s.emplace name module).keys
          simp [hkeys,h.reload_keys id hid]
        stop_keys := fun id hid => by
          change id∈(s.emplace name module).keys
          simp [hkeys,h.stop_keys id hid]
        restart_keys := fun id hid => by
          change id∈(s.emplace name module).keys
          simp [hkeys,h.restart_keys id hid]}
    · change s.nextId∈(s.emplace name module).keys
      simp [keys_emplace]
  | relaunch id module hid =>
    have hkeys := map_keys s.childrens id module
    apply Ledger.launched
    · exact h.rekey hkeys
    · change id∈(s.relaunch id module).keys
      rw [keys_relaunch]
      exact hid
  | restart c hc => exact h.launched (mem_keys hc) c.creator
  | forget id =>
    exact {h with
      reload_keys := fun x hx => h.reload_keys x (Finset.mem_of_mem_erase hx)
      stop_keys := fun x hx => h.stop_keys x (Finset.mem_of_mem_erase hx)
      restart_keys := fun x hx => h.restart_keys x (Finset.mem_of_mem_erase hx)}
  | erase id =>
    have hkeys {x : Nat} : x∈((s.forget id).erase id).keys ↔ x∈s.keys ∧ x≠id :=
      mem_keys_erase
    exact {h with
      keys_lt := fun x hx => h.keys_lt x (hkeys.mp hx).1
      keys_nodup := (List.filter_sublist.map _).nodup h.keys_nodup
      reload_keys := fun x hx => hkeys.mpr
        ⟨h.reload_keys x (Finset.mem_of_mem_erase hx),Finset.ne_of_mem_erase hx⟩
      stop_keys := fun x hx => hkeys.mpr
        ⟨h.stop_keys x (Finset.mem_of_mem_erase hx),Finset.ne_of_mem_erase hx⟩
      restart_keys := fun x hx => hkeys.mpr
        ⟨h.restart_keys x (Finset.mem_of_mem_erase hx),Finset.ne_of_mem_erase hx⟩}
  | crash id hid =>
    exact {h with
      restart_keys := fun x hx => (Finset.mem_insert.mp hx).elim (· ▸ hid) (h.restart_keys x)}
  | startup => exact {h with}
  | exitHandled hr => exact {h with exit_handled := fun _ => hr}

theorem ops (h : Ledger s) (hops : Ops s t) : Ledger t := by
  induction hops with
  | refl => exact h
  | tail _ hop ih => exact ih.op hop

theorem stopAll (h : Ledger s) (config : AcConfig) : Ledger (Manager.stopAll s config) :=
  h.ops (stopAll_ops s config)

/-- Taking the next message and retiring the coroutine whose exit it reports. -/
theorem take (h : Ledger s) {m : EventMessage} {rest : List EventMessage}
    (hm : s.mailbox.messages=m::rest) :
    Ledger (taken s m rest) := by
  have hsub (x : EventMessage) (hx : x∈rest) : x∈s.mailbox.messages := by simp [hm,hx]
  have hnd := h.exits_nodup
  rw [hm] at hnd
  unfold taken
  by_cases ht : m.type=.moduleExited
  · rw [if_pos ht]
    simp only [List.filter_cons,ht,decide_true,if_true,List.map_cons,List.nodup_cons] at hnd
    exact {h with
      actor_lt := by
        intro c hc
        obtain ⟨i,hi⟩ := List.mem_iff_getElem?.mp hc
        simp only [List.getElem?_modify,Option.map_eq_map,Option.map_eq_some_iff] at hi
        obtain ⟨d,hd,rfl⟩ := hi
        have := h.actor_lt d (List.mem_of_getElem? hd)
        split_ifs <;> exact this
      exits := by
        intro x hx hxt
        obtain ⟨c,hc,hrest⟩ := h.exits x (hsub x hx) hxt
        have hne : m.serial≠x.serial := by
          intro he
          apply hnd.1
          rw [he]
          exact List.mem_map_of_mem (by simp [hx,hxt])
        exact ⟨c,by simpa [hne] using hc,hrest⟩
      exits_nodup := hnd.2
      exit_queued := fun x hx => h.exit_queued x (hsub x hx)}
  · rw [if_neg ht]
    simp only [List.filter_cons,ht,decide_false,Bool.false_eq_true,if_false] at hnd
    exact {h with
      exits := fun x hx => h.exits x (hsub x hx)
      exits_nodup := hnd
      exit_queued := fun x hx => h.exit_queued x (hsub x hx)}

/-- Handling the next message. -/
theorem handled (h : Ledger s) {o : Outcome} {m : EventMessage} {rest : List EventMessage}
    (hm : s.mailbox.messages=m::rest) (hd : Dispatch o (taken s m rest) m t) : Ledger t :=
  (h.take hm).ops (hd.ops (h.exit_queued m (by simp [hm])))

theorem finish (h : Ledger s) (done : Bool) : Ledger (Manager.finish s done) := by
  cases done with
  | true => exact {h with}
  | false => exact h

/-- A message that is no exit event of either kind, sent to the manager. -/
theorem sendManager (h : Ledger s) {m : EventMessage} (ht : m.type≠.moduleExited)
    (he : m.type=.cmdExit → s.isRunning=false) : Ledger (s.sendManager m) := by
  have hmem (x : EventMessage) (hx : x∈(s.sendManager m).mailbox.messages) :
      x∈s.mailbox.messages ∨ x=m := Fifo.of_mem_send hx
  exact {h with
    exits := fun x hx hxt => (hmem x hx).elim (fun hx => h.exits x hx hxt)
      fun hx => absurd (hx ▸ hxt) ht
    exits_nodup := by
      have hs := Fifo.send_messages kMailBoxSize m s.mailbox
      simp only [State.sendManager]
      rcases hs with hs | hs
      · simpa [hs,ht] using h.exits_nodup
      · simpa [hs] using h.exits_nodup
    exit_queued := fun x hx hxt => (hmem x hx).elim (fun hx => h.exit_queued x hx hxt)
      fun hx => he (hx ▸ hxt)}

/-- A coroutine that has not exited moves on. -/
theorem setPhase (h : Ledger s) {serial : Nat} {c d : Coroutine}
    (hc : s.coroutines[serial]?=some c) (hp : c.phase≠.exited) (hd : d.actorId=c.actorId)
    (phase : Phase) : Ledger (s.setPhase serial d phase) :=
  {h with
    actor_lt := by
      intro x hx
      rcases List.mem_or_eq_of_mem_set hx with hx | rfl
      · exact h.actor_lt x hx
      · exact lt_of_eq_of_lt hd (h.actor_lt c (List.mem_of_getElem? hc))
    exits := by
      intro m hm ht
      obtain ⟨x,hx,hrest⟩ := h.exits m hm ht
      have hne : serial≠m.serial := by
        intro he
        rw [← he,hc] at hx
        cases hx
        exact hp hrest.2
      refine ⟨x,?_,hrest⟩
      change (s.coroutines.set serial _)[m.serial]?=some x
      rw [List.getElem?_set_ne hne]
      exact hx}

theorem exit (h : Ledger s) {serial : Nat} {c : Coroutine}
    (hc : s.coroutines[serial]?=some c) (hp : c.phase=.leaving) :
    Ledger ((s.sendManager ⟨.moduleExited,c.actorId,"",serial⟩).setPhase serial c .exited) := by
  obtain ⟨hlt,_⟩ := List.getElem?_eq_some_iff.mp hc
  have hfresh (m : EventMessage) (hm : m∈s.mailbox.messages) (ht : m.type=.moduleExited) :
      m.serial≠serial := by
    intro he
    obtain ⟨x,hx,_,hph⟩ := h.exits m hm ht
    rw [he,hc] at hx
    cases hx
    simp [hp] at hph
  have hset := h.setPhase hc (by simp [hp]) rfl .exited
  exact {hset with
    exits := by
      intro m hm ht
      rcases Fifo.of_mem_send hm with hm | rfl
      · exact hset.exits m hm ht
      · exact ⟨{c with phase := .exited},by simp [State.setPhase,State.sendManager,hlt],rfl,rfl⟩
    exits_nodup := by
      simp only [State.setPhase,State.sendManager]
      rcases Fifo.send_messages kMailBoxSize _ s.mailbox with hs | hs
      · rw [hs]
        simp only [List.filter_append,List.map_append]
        refine List.nodup_append.mpr ⟨h.exits_nodup,by simp,?_⟩
        intro x hx y hy he
        obtain ⟨m,hm,rfl⟩ := List.mem_map.mp hx
        simp only [List.mem_filter,decide_eq_true_eq] at hm
        have hy : y=serial := by simpa using hy
        exact hfresh m hm.1 hm.2 (he.trans hy)
      · rw [hs]
        exact h.exits_nodup
    exit_queued := by
      intro m hm ht
      rcases Fifo.of_mem_send hm with hm | rfl
      · exact h.exit_queued m hm ht
      · cases ht}

theorem move (h : Ledger s) {serial : Nat} {c : Coroutine} {a : ActorStep}
    (hc : s.coroutines[serial]?=some c) (hm : ActorMove s serial c a t) : Ledger t := by
  have hbox (box : Fifo EventMessage) : Ledger (s.setMailbox c.actorId box) := {h with}
  cases hm with
  | start hp | startNull hp | throw hp => exact h.setPhase hc (by simp [hp]) rfl _
  | stop throws hp =>
    exact (hbox _).setPhase (d := {c with stopped := true}) hc (by simp [hp]) rfl _
  | receive throws hp => exact (hbox _).setPhase hc (by simp [hp]) rfl _
  | report hp =>
    have hsent := h.sendManager (m := ⟨.crashReport,c.actorId,"",serial⟩) (by simp) (by simp)
    exact hsent.setPhase hc (by simp [hp]) rfl _
  | exit hp => exact h.exit hc hp

theorem next (h : Ledger s) {a : Action} (hn : Manager.next s a=some t) : Ledger t := by
  cases next_cases hn with
  | load effect => exact h.ops effect.ops
  | command m caller loader exit exited => exact h.sendManager exited fun he => absurd he exit
  | shutdown | shutdownAgain => exact {h with}
  | clearRunning =>
    exact {h with
      exit_queued := fun _ _ _ => rfl
      exit_handled := fun _ => rfl
      exit_sending := fun _ => rfl}
  | sendExit caller =>
    have hsent : Ledger {s with sending := s.sending-1, exitSent := true} :=
      {h with exit_sending := fun _ => h.exit_sending caller}
    exact hsent.sendManager (by simp) fun _ => h.exit_sending caller
  | handle done loop head result effect => exact (h.handled head effect).finish done
  | actor self enqueued move => exact h.move self move
  | post id m => exact {h with}

end Ledger

theorem init_ledger (config : AcConfig) : Ledger (init config) where
  next_pos := Nat.one_pos
  keys_lt id hid := by simp [init,State.keys] at hid
  keys_nodup := by simp [init,State.keys]
  actor_lt c hc := by simp [init] at hc
  reload_keys id hid := by simp [init] at hid
  stop_keys id hid := by simp [init] at hid
  restart_keys id hid := by simp [init] at hid
  exits m hm := by simp [init,Fifo.empty] at hm
  exits_nodup := by simp [init,Fifo.empty]
  exit_queued m hm := by simp [init,Fifo.empty] at hm
  exit_handled h := by simp [init] at h
  exit_sending h := by simp [init] at h

theorem start_ledger {s : State} (h : machine.start s) : Ledger s := by
  obtain ⟨config,rfl⟩ := h
  exact init_ledger config

/-- The books are in order in every state that any run reaches. -/
theorem reachable_ledger {ok : State → Action → State → Prop} {s : State}
    (h : machine.ReachableBy ok s) : Ledger s :=
  h.invariant (fun _ => start_ledger) fun _ _ _ hi hn _ => hi.next hn

end Acnet.Manager
