import Acnet.Manager.Delivery
import Acnet.Manager.Relaunch

namespace Acnet.Manager

/-- A reload command for a module that is not loaded but is listed and can be opened. -/
def LoadsModule (o : Outcome) (s : State) (m : EventMessage) : Prop :=
  m.type=.cmdModuleReload ∧ m.payload≠"all" ∧ (∀ c∈s.childrens,c.moduleName≠m.payload) ∧
    ∃ config∈o.config,Openable o config m.payload

def NoNewModule (s : State) (a : Action) (_ : State) : Prop :=
  OnHandle (fun o m => ¬LoadsModule o s m) s a

/-- The manager is to stop, the first load has returned, a stop request is noted for every child,
and the loop goes on only while there are children. -/
structure Draining (s : State) : Prop where
  stopping : s.isRunning=false
  loaded : s.startup=.returned
  pending : ∀ id∈s.keys,id∈s.pendingStop
  loop : s.loop=true → s.childrens≠[]

/-- Nothing is launched and no child is added. -/
structure Shrinks (s t : State) : Prop where
  coroutines : t.coroutines.length=s.coroutines.length
  keys : t.keys.Sublist s.keys

namespace Shrinks

theorem refl (s : State) : Shrinks s s := ⟨rfl,List.Sublist.refl _⟩

theorem trans {s t u : State} (h : Shrinks s t) (k : Shrinks t u) : Shrinks s u :=
  ⟨k.coroutines.trans h.coroutines,k.keys.trans h.keys⟩

end Shrinks

section Handle

variable {o : Outcome} {s t : State} {m : EventMessage}

/-- While the manager stops, no message launches anything but a reload command that finds a new
module. -/
theorem Draining.dispatch (h : Draining s) (hloop : s.loop=true) (hnew : ¬LoadsModule o s m)
    (hd : Dispatch o s m t) :
    (∀ id∈t.keys,id∈t.pendingStop) ∧ t.coroutines=s.coroutines ∧ t.keys.Sublist s.keys ∧
      (t.keys=s.keys ∨ m.type=.moduleExited ∧ m.senderId∈s.keys) := by
  have hrun {p : Prop} (hr : s.isRunning=true) : p := absurd (h.stopping.symm.trans hr) (by decide)
  have same (hk : t.keys=s.keys) (hc : t.coroutines=s.coroutines)
      (hp : ∀ id∈s.keys,id∈t.pendingStop) :
      (∀ id∈t.keys,id∈t.pendingStop) ∧ t.coroutines=s.coroutines ∧ t.keys.Sublist s.keys ∧
        (t.keys=s.keys ∨ m.type=.moduleExited ∧ m.senderId∈s.keys) :=
    ⟨fun id hid => hp id (hk ▸ hid),hc,hk ▸ List.Sublist.refl _,Or.inl hk⟩
  cases hd with
  | ignore => exact same rfl rfl h.pending
  | exit type =>
    rw [foldl_requestStop] at same ⊢
    exact same rfl rfl fun id hid => Finset.mem_union_left _ (h.pending id hid)
  | reloadAll type update all some =>
    rw [stopAll_eq] at same ⊢
    exact same rfl rfl h.pending
  | loadAll type update all none =>
    rw [stopAll_eq] at none
    have hkeys := (List.toFinset_eq_empty_iff _).mp (Finset.union_eq_empty.mp none).2
    exact absurd (List.map_eq_nil_iff.mp hkeys) (h.loop hloop)
  | reloadOne => exact same rfl rfl h.pending
  | @reloadNew config type update one missing =>
    have hno : ¬Openable o config m.payload := fun ho =>
      hnew ⟨type,one,firstNamed_none missing,config,update,ho⟩
    have he := reloadModule_of_not (s := {s with config := config, reloadAllFlag := false}) 0 hno
    rw [he] at same ⊢
    exact same rfl rfl h.pending
  | remove => exact same rfl rfl fun id hid => Finset.mem_insert_of_mem (h.pending id hid)
  | crash type child running => exact hrun running
  | unknown type missing =>
    refine same rfl rfl fun id hid => Finset.mem_erase_of_ne_of_mem ?_ (h.pending id hid)
    exact fun he => missing (he ▸ hid)
  | barrier type child reload => exact hrun reload.1
  | complete type child reload => exact hrun reload.1
  | single type child reload => exact hrun reload.1
  | restart type child restart => exact hrun restart.1
  | erase type child reload restart =>
    refine ⟨fun id hid => ?_,rfl,List.filter_sublist.map _,Or.inr ⟨type,child⟩⟩
    obtain ⟨hk,hne⟩ := mem_keys_erase.mp hid
    exact Finset.mem_erase_of_ne_of_mem hne (h.pending id hk)

end Handle

theorem Draining.quiet {s t : State} (h : Draining s) (hl : t.startup=.returned)
    (hq : Quiet s t) : Draining t ∧ Shrinks s t := by
  refine ⟨⟨?_,hl,fun id hid => ?_,fun hl => ?_⟩,?_,?_⟩
  · by_contra hr
    exact absurd (h.stopping.symm.trans (hq.isRunning (by simpa using hr))) (by decide)
  · rw [hq.keys] at hid
    rw [hq.pendingStop]
    exact h.pending id hid
  · rw [hq.childrens]
    exact h.loop (hq.loop ▸ hl)
  · exact hq.length
  · rw [hq.keys]

theorem Draining.step {s t : State} {a : Action} (h : Draining s) (hn : next s a=some t)
    (ok : NoNewModule s a t) : Draining t ∧ Shrinks s t := by
  have hl := (startup_returned h.loaded hn).1
  cases next_turn hn with
  | quiet _ hq => exact h.quiet hl hq
  | emplace _ _ _ loading => exact absurd h.loaded loading
  | @handle o m rest u done loop head result effect =>
    have htaken : Draining (taken s m rest) := ⟨h.stopping,h.loaded,h.pending,h.loop⟩
    obtain ⟨hp,hc,hk,hcase⟩ := htaken.dispatch loop (ok m (by simp [head])) effect
    have hrun : u.isRunning=false := effect.untouched.isRunning.trans h.stopping
    have hload : u.startup=.returned := effect.untouched.startup.trans h.loaded
    have hlen : u.coroutines.length=s.coroutines.length := by rw [hc,taken_length]
    cases done with
    | true => exact ⟨⟨hrun,hload,hp,nofun⟩,hlen,hk⟩
    | false =>
      refine ⟨⟨hrun,hload,hp,fun _ he => ?_⟩,hlen,hk⟩
      rcases hcase with hsame | ⟨type,hid⟩
      · have hnil : s.keys=[] := hsame.symm.trans (List.map_eq_nil_iff.mpr he)
        exact h.loop loop (List.map_eq_nil_iff.mp hnil)
      · have hdone : (Manager.dispatch o (taken s m rest) m).2=true :=
          dispatch_done.mpr (Or.inr ⟨type,hid,h.stopping,by rwa [result]⟩)
        rw [result] at hdone
        cases hdone

/-- Handling the exit command sends a stop request to every child, or ends the loop. -/
theorem draining_of_exit {o : Outcome} {b s : State} {m : EventMessage} (hb : Ledger b)
    (hload : b.startup=.returned) (hn : next b (.handle o)=some s)
    (hm : m∈b.mailbox.messages.head?) (type : m.type=.cmdExit) : Draining s := by
  have hl := (startup_returned hload hn).1
  cases next_turn hn with
  | quiet caller => exact absurd rfl (caller o)
  | @handle _ m' rest u done loop head result effect =>
    obtain rfl : m'=m := by simpa [head] using hm
    have hrun : u.isRunning=false :=
      effect.untouched.isRunning.trans (hb.exit_queued m' (by simp [head]) type)
    have hdone (hf : done=false) : b.childrens≠[] := by
      intro he
      have hd : (dispatch o (taken b m' rest) m').2=true :=
        dispatch_done.mpr (Or.inl ⟨type,he⟩)
      rw [result,hf] at hd
      cases hd
    cases effect with
    | ignore _ exit => exact absurd type exit
    | exit =>
      rw [foldl_requestStop] at hrun hl ⊢
      have hpending : ∀ id∈b.keys,id∈b.pendingStop∪b.keys.toFinset := fun id hid =>
        Finset.mem_union_right _ (List.mem_toFinset.mpr hid)
      cases done with
      | true => exact ⟨hrun,hl,hpending,nofun⟩
      | false => exact ⟨hrun,hl,hpending,fun _ => hdone rfl⟩
    | reloadAll ht | loadAll ht | reloadOne ht | reloadNew ht | remove ht | crash ht | unknown ht
    | barrier ht | complete ht | single ht | restart ht | erase ht =>
      exact absurd (type.symm.trans ht) (by decide)

/-- After the event loop has handled the exit command, no step launches a coroutine or adds a
child, and a stop request was sent to every child that is left, in every run in which the first
load had returned by then and no reload command finds a module that is listed but not loaded. -/
theorem shutdown_drains {o : Outcome} {b s x t : State} {m : EventMessage}
    (hb : machine.Reachable b) (hload : b.startup=.returned)
    (hm : m∈b.mailbox.messages.head?) (type : m.type=.cmdExit)
    (hs : machine.next b (.handle o)=some s) (hx : machine.Steps NoNewModule s x)
    (ht : machine.Steps NoNewModule x t) :
    t.coroutines.length=x.coroutines.length ∧ t.keys.Sublist x.keys ∧
      ∀ id∈t.keys,id∈t.pendingStop ∧ Requested t id := by
  have hdx : Draining x := by
    apply hx.invariant (I := Draining) (draining_of_exit (reachable_ledger hb) hload hs hm type)
    exact fun _ _ _ h hn ok => (h.step hn ok).1
  have hdt : Draining t ∧ Shrinks x t := by
    apply ht.invariant (I := fun t => Draining t ∧ Shrinks x t) ⟨hdx,.refl x⟩
    intro y a z h hn ok
    obtain ⟨hz,hyz⟩ := h.1.step hn ok
    exact ⟨hz,h.2.trans hyz⟩
  have hreach : machine.Reachable t := by
    have hany := hb.next hs trivial
    exact hany.steps ((hx.trans ht).mono fun _ _ _ _ => trivial)
  obtain ⟨_,hrec⟩ := reachable_recorded hreach
  refine ⟨hdt.2.coroutines,hdt.2.keys,fun id hid => ?_⟩
  exact ⟨hdt.1.pending id hid,hrec.stop id (Or.inl (hdt.1.pending id hid))⟩

section Runs

instance (o : Outcome) (config : AcConfig) (name : String) :
    Decidable (Openable o config name) :=
  inferInstanceAs (Decidable (∃ e∈config.modules.zipIdx.find? _,_))

instance (o : Outcome) (s : State) (m : EventMessage) : Decidable (LoadsModule o s m) :=
  inferInstanceAs (Decidable (_ ∧ _ ∧ _ ∧ ∃ config∈o.config,_))

instance (s : State) (a : Action) (t : State) : Decidable (NoNewModule s a t) :=
  inferInstanceAs (Decidable (OnHandle _ s a))

instance (s : State) (id : Nat) : Decidable (Requested s id) :=
  inferInstanceAs (Decidable ((∃ m∈(s.mailboxes id).messages,_) ∨ (∃ c∈s.coroutines,_) ∨ _))

def exitMessage : EventMessage := ⟨.cmdExit,0,"",0⟩

/-- The exit command is handled after the steps `before`, and the steps `after` follow. -/
theorem exists_exit (ok : State → Action → State → Prop) [∀ x a y,Decidable (ok x a y)]
    (names : List String) (before : List Action) (o : Outcome) (after : List Action)
    (p : State → State → State → Bool)
    (h : (machine.exec Machine.anyStep (init (listing names)) before).any (fun b =>
      b.mailbox.messages.head?=some exitMessage &&
        (machine.next b (.handle o)).any fun s => (machine.exec ok s after).any (p b s))=true) :
    ∃ b s t,machine.Reachable b ∧ exitMessage∈b.mailbox.messages.head? ∧
      machine.next b (.handle o)=some s ∧ machine.Steps ok s t ∧ p b s t=true := by
  obtain ⟨b,hb,hp⟩ := machine.exists_reachableBy _ _ _ (init_start (listing names)) h
  rw [Bool.and_eq_true,decide_eq_true_eq] at hp
  obtain ⟨s,t,hn,hr,hst⟩ := machine.exists_steps ok b (.handle o) after (p b) hp.2
  exact ⟨b,s,t,hb,hp.1,hn,hr,hst⟩

/-- One module is loaded, and then `Shutdown` is called. -/
def exiting : List Action := loading ["m"]++[.shutdown,.clearRunning,.sendExit]

/-- A reload of the loaded module after the exit command only stops it once more. -/
theorem shutdown_drains_reload :
    ∃ s t,machine.Reachable s ∧ s.exitHandled=true ∧ machine.Steps NoNewModule s t ∧
      1∈t.pendingReload ∧ t.coroutines.length=s.coroutines.length ∧ t.keys.Sublist s.keys ∧
      ∀ id∈t.keys,id∈t.pendingStop ∧ Requested t id := by
  obtain ⟨b,s,t,hb,hm,hn,hr,hp⟩ := exists_exit NoNewModule ["m"] exiting (opening ["m","n"])
    [.reloadModule "m",.handle (opening ["m","n"])]
    (fun b s t => b.startup=.returned ∧ s.exitHandled=true ∧ 1∈t.pendingReload)
    (by decide +kernel)
  simp only [decide_eq_true_eq] at hp
  obtain ⟨hload,hexit,hid⟩ := hp
  exact ⟨s,t,hb.next hn trivial,hexit,hr,hid,shutdown_drains hb hload hm rfl hn .refl hr⟩

/-- A reload of a module that is listed but not loaded launches it after the exit command. -/
theorem launch_after_exit :
    ∃ o b s t m,machine.Reachable b ∧ b.startup=.returned ∧ m∈b.mailbox.messages.head? ∧
      m.type=.cmdExit ∧ machine.next b (.handle o)=some s ∧
      machine.Steps Machine.anyStep s t ∧ s.coroutines.length<t.coroutines.length ∧
      s.keys.length<t.keys.length := by
  obtain ⟨b,s,t,hb,hm,hn,hr,hp⟩ := exists_exit Machine.anyStep ["m"] exiting (opening ["m","n"])
    [.reloadModule "n",.handle (opening ["m","n"])]
    (fun b s t => b.startup=.returned ∧ s.coroutines.length<t.coroutines.length ∧
      s.keys.length<t.keys.length)
    (by decide +kernel)
  simp only [decide_eq_true_eq] at hp
  exact ⟨_,b,s,t,_,hb,hp.1,hm,rfl,hn,hr,hp.2⟩

/-- The first load, if it has not returned, adds a child after the exit command, and no stop
request is sent to that one. -/
theorem load_after_exit :
    ∃ o b s t m,machine.Reachable b ∧ m∈b.mailbox.messages.head? ∧ m.type=.cmdExit ∧
      machine.next b (.handle o)=some s ∧ machine.Steps NoNewModule s t ∧
      2∉s.keys ∧ 2∈t.keys ∧ ¬Requested t 2 := by
  obtain ⟨b,s,t,hb,hm,hn,hr,hp⟩ := exists_exit NoNewModule ["m","n"]
    (List.replicate 2 (.load (opening ["m","n"]))++[.shutdown,.clearRunning,.sendExit])
    (opening ["m","n"]) [.load (opening ["m","n"])]
    (fun _ s t => 2∉s.keys ∧ 2∈t.keys ∧ ¬Requested t 2) (by decide +kernel)
  simp only [decide_eq_true_eq] at hp
  exact ⟨_,b,s,t,_,hb,hm,rfl,hn,hr,hp⟩

end Runs

end Acnet.Manager
