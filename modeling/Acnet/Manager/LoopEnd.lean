import Acnet.Manager.SingleConsumer

/-! When the event loop returns. -/

namespace Acnet.Manager.LoopEnd

/-- The configuration lists each module name once. -/
def Distinct (config : AcConfig) : Prop := (config.modules.map (·.moduleName)).Nodup

instance (config : AcConfig) : Decidable (Distinct config) :=
  inferInstanceAs (Decidable (List.Nodup _))

/-- The manager's machine with such a configuration at the start. -/
def machine : Machine State Action where
  start s := ∃ config,Distinct config ∧ s=init config
  next := next

/-- Every configuration that is read lists each module name once. -/
def UniqueNames (_ : State) (a : Action) (_ : State) : Prop :=
  match a with
  | .handle o => ∀ config∈o.config,Distinct config
  | _ => True

instance (s : State) (a : Action) (t : State) : Decidable (UniqueNames s a t) := by
  unfold UniqueNames
  split <;> infer_instance

/-- Besides, no message is handled before the first load has returned. -/
def InOrder (s : State) (a : Action) (t : State) : Prop := UniqueNames s a t ∧ AfterLoad s a

instance (s : State) (a : Action) (t : State) : Decidable (InOrder s a t) :=
  inferInstanceAs (Decidable (_ ∧ _))

/-- The step in which `main_latch_` is counted down. -/
def CountsDown (s t : State) : Prop := s.loop=true ∧ t.loop=false

/-- Nothing is left: no child, nothing pending, and every coroutine ever launched has had its
exit handled. -/
structure Idle (s : State) : Prop where
  isRunning : s.isRunning=false
  childrens : s.childrens=[]
  pendingReload : s.pendingReload=∅
  pendingStop : s.pendingStop=∅
  pendingRestart : s.pendingRestart=∅
  coroutines : ∀ c∈s.coroutines,c.phase=.retired

structure Inv (s : State) : Prop where
  owned : Owned s
  barrier : Barrier s
  early : Early s
  distinct : Distinct s.config
  latch : s.mainLatch=s.loop.toNat

variable {s t : State}

theorem openedNames_nodup (o : Outcome) {config : AcConfig} (h : Distinct config) :
    (openedNames o config.modules.zipIdx).Nodup := by
  have hsub : (openedNames o config.modules.zipIdx).Sublist
      (config.modules.zipIdx.map (·.1.moduleName)) := List.filter_sublist.map _
  have hmap : config.modules.zipIdx.map (·.1.moduleName)=config.modules.map (·.moduleName) := by
    have hfst := congrArg (List.map fun m : AcModule => m.moduleName)
      (List.zipIdx_map_fst 0 config.modules)
    rw [List.map_map] at hfst
    exact hfst
  rw [hmap] at hsub
  exact hsub.nodup h

/-- A message changes the configuration only to the one that was read. -/
theorem dispatch_config {o : Outcome} {m : EventMessage} (h : Dispatch o s m t) :
    t.config=s.config ∨ ∃ config,o.config=some config ∧ t.config=config := by
  cases h with
  | exit type =>
    rw [foldl_requestStop]
    exact Or.inl rfl
  | @reloadAll config type update all some =>
    rw [stopAll_eq]
    exact Or.inr ⟨config,update,rfl⟩
  | @loadAll config type update all none =>
    rw [(LaunchFrame.loadModules o _).config,stopAll_eq]
    exact Or.inr ⟨config,update,rfl⟩
  | @reloadOne config c type update => exact Or.inr ⟨config,update,rfl⟩
  | @reloadNew config type update =>
    rw [(LaunchFrame.reloadModule o _ 0 m.payload).config]
    exact Or.inr ⟨config,update,rfl⟩
  | complete => exact Or.inl (LaunchFrame.reloadAllModules o _).config
  | single => exact Or.inl (LaunchFrame.reloadModule o _ m.senderId _).config
  | ignore | remove | crash | unknown | barrier | restart | erase => exact Or.inl rfl

/-- Handling a message does not touch `main_latch_`; returning does. -/
theorem ops_mainLatch (h : Ops s t) : t.mainLatch=s.mainLatch := by
  induction h with
  | refl => rfl
  | tail _ hop ih =>
    rw [← ih]
    cases hop <;> rfl

theorem step_mainLatch {a : Action} (h : Step s a t) (ha : ∀ o,a≠.handle o) :
    t.mainLatch=s.mainLatch := by
  cases h with
  | load effect => exact ops_mainLatch effect.ops
  | command | post | shutdown | shutdownAgain | clearRunning | sendExit => rfl
  | handle => exact absurd rfl (ha _)
  | actor self enqueued move => cases move <;> rfl

theorem step_frame {a : Action} (h : Step s a t) (ha : ∀ o,a≠.handle o) :
    t.config=s.config ∧ t.loop=s.loop := by
  cases h with
  | load effect =>
    rcases effect.shape with ⟨startup,rfl⟩ | ⟨startup,name,module,rfl⟩
    · exact ⟨rfl,rfl⟩
    · exact ⟨rfl,rfl⟩
  | command | post | shutdown | shutdownAgain | clearRunning | sendExit => exact ⟨rfl,rfl⟩
  | handle => exact absurd rfl (ha _)
  | actor self enqueued move => cases move <;> exact ⟨rfl,rfl⟩

theorem Inv.handle (h : Inv s) {o : Outcome} (hn : next s (.handle o)=some t)
    (ok : ∀ config∈o.config,Distinct config) : Distinct t.config ∧ t.mainLatch=t.loop.toNat := by
  obtain ⟨m,rest,hloop,hm,rfl⟩ := handle_cases hn
  have heffect := dispatch_cases o (taken s m rest) m
  have hmem : m∈s.mailbox.messages := by simp [hm]
  have hlatch := ops_mainLatch (heffect.ops (h.owned.ledger.exit_queued m hmem))
  have hl := heffect.untouched.loop
  have hstart : s.mainLatch=1 := by
    rw [h.latch,hloop]
    rfl
  constructor
  · have hc : (finish (dispatch o (taken s m rest) m).1
        (dispatch o (taken s m rest) m).2).config=(dispatch o (taken s m rest) m).1.config := by
      cases (dispatch o (taken s m rest) m).2 <;> rfl
    rw [hc]
    rcases dispatch_config heffect with he | ⟨config,hr,he⟩
    · rw [he]
      exact h.distinct
    · rw [he]
      exact ok config hr
  · cases (dispatch o (taken s m rest) m).2 with
    | true =>
      change (dispatch o (taken s m rest) m).1.mainLatch-1=0
      rw [hlatch]
      change s.mainLatch-1=0
      rw [hstart]
    | false =>
      change (dispatch o (taken s m rest) m).1.mainLatch=
        (dispatch o (taken s m rest) m).1.loop.toNat
      rw [hlatch,hl]
      change s.mainLatch=s.loop.toNat
      exact h.latch

theorem Inv.next (h : Inv s) {a : Action} (hn : next s a=some t) (ok : InOrder s a t) :
    Inv t := by
  have hdistinct : DistinctNames s a t := by
    cases a with
    | handle o => exact fun _ _ _ => openedNames_nodup o h.distinct
    | _ => trivial
  obtain ⟨howned,hbarrier⟩ := h.owned.step h.barrier h.early hn hdistinct
  have hearly := h.early.step hn ok.2
  by_cases ha : ∃ o,a=.handle o
  · obtain ⟨o,rfl⟩ := ha
    obtain ⟨hc,hl⟩ := h.handle hn ok.1
    exact ⟨howned,hbarrier,hearly,hc,hl⟩
  · have hother : ∀ o,a≠.handle o := fun o ho => ha ⟨o,ho⟩
    obtain ⟨hc,hl⟩ := step_frame (next_cases hn) hother
    refine ⟨howned,hbarrier,hearly,hc ▸ h.distinct,?_⟩
    rw [step_mainLatch (next_cases hn) hother,hl]
    exact h.latch

theorem reachable_inv (h : machine.ReachableBy InOrder s) : Inv s := by
  apply h.invariant
  · intro x hx
    obtain ⟨config,hd,rfl⟩ := hx
    obtain ⟨howned,hbarrier,hearly⟩ := start_owned (init_start config)
    exact ⟨howned,hbarrier,hearly,hd,rfl⟩
  · intro x a y hx hn ok
    exact hx.next hn ok

/-- With no child left nothing is pending and no coroutine is live. -/
theorem Inv.idle (h : Inv s) (hr : s.isRunning=false) (hc : s.childrens=[]) : Idle s := by
  have hkeys (id : Nat) : id∉s.keys := by simp [State.keys,hc]
  have hs := h.owned.ledger
  refine ⟨hr,hc,?_,?_,?_,?_⟩
  · exact Finset.eq_empty_of_forall_notMem fun id hid => hkeys id (hs.reload_keys id hid)
  · exact Finset.eq_empty_of_forall_notMem fun id hid => hkeys id (hs.stop_keys id hid)
  · exact Finset.eq_empty_of_forall_notMem fun id hid => hkeys id (hs.restart_keys id hid)
  · intro c hc
    by_contra hp
    exact hkeys c.actorId (h.owned.owned _ ⟨c,hc,rfl,by simpa [Coroutine.live] using hp⟩)

/-- The loop does not start again and the latch stays. -/
theorem returned_stays (h : t.loop=false) {u : State}
    (hs : machine.Steps Machine.anyStep t u) : u.loop=false ∧ u.mainLatch=t.mainLatch := by
  induction hs with
  | refl => exact ⟨h,rfl⟩
  | @tail x y a _ hn _ ih =>
    obtain ⟨hx,hlatch⟩ := ih
    have hother : ∀ o,a≠.handle o := by
      rintro o rfl
      obtain ⟨m,rest,hl,-⟩ := handle_cases hn
      rw [hx] at hl
      cases hl
    have hstep := next_cases hn
    exact ⟨(step_frame hstep hother).2.trans hx,(step_mainLatch hstep hother).trans hlatch⟩

/-- The step that counts down leaves no child, with the manager to stop. -/
theorem Inv.countsDown (h : Inv s) {a : Action} (hn : Manager.next s a=some t)
    (hd : CountsDown s t) : t.isRunning=false ∧ t.childrens=[] := by
  obtain ⟨hloop,hend⟩ := hd
  have same (hl : t.loop=s.loop) : False := by
    rw [hl,hloop] at hend
    cases hend
  cases next_turn hn with
  | quiet caller => exact (same (step_frame (next_cases hn) caller).2).elim
  | emplace => exact (same (step_frame (next_cases hn) (by simp)).2).elim
  | @handle o m rest u done _ head result effect =>
    have hu := effect.untouched
    cases done with
    | false => exact (same hu.loop).elim
    | true =>
      have hmem : m∈s.mailbox.messages := by simp [head]
      refine ⟨hu.isRunning.trans ?_,dispatch_ended (t := u) result effect⟩
      rcases dispatch_done.mp (congrArg Prod.snd result) with ⟨type,-⟩ | ⟨-,-,hstop,-⟩
      · exact h.owned.ledger.exit_queued m hmem type
      · exact hstop

/-- When `main_latch_` is counted down nothing is left running, and it is counted down once, in
every run in which no message is handled before the first load has returned. -/
theorem loop_ends_idle {a : Action} (h : machine.ReachableBy InOrder s)
    (hn : machine.next s a=some t) (ok : InOrder s a t) :
    (CountsDown s t → Idle t ∧ s.mainLatch=1 ∧ t.mainLatch=0 ∧
      ∀ u v b,machine.Steps Machine.anyStep t u → machine.next u b=some v →
        ¬CountsDown u v ∧ v.mainLatch=0) ∧
    (¬CountsDown s t → t.mainLatch=s.mainLatch) := by
  have hs := reachable_inv h
  have ht : Inv t := hs.next hn ok
  constructor
  · intro hd
    obtain ⟨hrun,hempty⟩ := hs.countsDown hn hd
    have hzero : t.mainLatch=0 := by rw [ht.latch,hd.2]; rfl
    refine ⟨ht.idle hrun hempty,by rw [hs.latch,hd.1]; rfl,hzero,?_⟩
    intro u v b hsteps hnext
    obtain ⟨hu,-⟩ := returned_stays hd.2 hsteps
    obtain ⟨-,hv⟩ := returned_stays hd.2 (.tail hsteps hnext trivial)
    exact ⟨fun hc => absurd (hu.symm.trans hc.1) (by decide),hv.trans hzero⟩
  · intro hd
    rw [ht.latch,hs.latch]
    cases hl : s.loop with
    | true =>
      cases hlt : t.loop with
      | true => rfl
      | false => exact absurd ⟨hl,hlt⟩ hd
    | false => rw [(returned_stays hl (.tail .refl hn trivial)).1]

section Runs

/-- A coroutine that runs receives its stop request and exits. -/
def obeying (serial : Nat) : List Action :=
  [.actor serial .start,.actor serial (.receive false),.actor serial .exit]

/-- One child crashes within `Shutdown`, the other one obeys its stop request: the loop returns
when the exit of the latter has been handled. -/
theorem loop_ends_idle_shutdown :
    ∃ s t,machine.ReachableBy InOrder s ∧ machine.next s (.handle (opening ["a","b"]))=some t ∧
      CountsDown s t ∧ Idle t := by
  obtain ⟨s,t,hs,hn,hp⟩ := machine.exists_reachableBy_step InOrder
    (List.flatten [loading ["a","b"],[.shutdown,.clearRunning],crashing 0,[.sendExit],
      List.replicate 3 (.handle (opening ["a","b"])),obeying 1])
    (.handle (opening ["a","b"]))
    (fun s t => (s.loop=true ∧ t.loop=false) ∧ InOrder s (.handle (opening ["a","b"])) t)
    (s := init (listing ["a","b"])) ⟨_,by decide,rfl⟩ (by decide +kernel)
  simp only [decide_eq_true_eq] at hp
  obtain ⟨hidle,-⟩ := (loop_ends_idle hs hn hp.2).1 hp.1
  exact ⟨s,t,hs,hn,hp.1,hidle⟩

/-- The reload-all is handled while the first load has one child to go: it launches that child a
second time. At the shutdown one coroutine of it takes the stop request and exits, and the latch
is counted down while the other one is still there. -/
theorem loop_ends_running :
    ∃ s t,machine.ReachableBy UniqueNames s ∧
      machine.next s (.handle (opening ["a","b"]))=some t ∧ CountsDown s t ∧
      ∃ c∈t.coroutines,c.phase≠.retired := by
  obtain ⟨s,t,hs,hn,hp⟩ := machine.exists_reachableBy_step UniqueNames
    (List.flatten [List.replicate 2 (.load (opening ["a","b"])),
      [.reloadModule "all",.handle (opening ["a","b"])],
      List.replicate 2 (.load (opening ["a","b"])),obeying 0,
      [.handle (opening ["a","b"]),.shutdown,.clearRunning,.sendExit,
        .handle (opening ["a","b"])],obeying 2,obeying 1,[.handle (opening ["a","b"])]])
    (.handle (opening ["a","b"]))
    (fun s t => (s.loop=true ∧ t.loop=false) ∧ ∃ c∈t.coroutines,c.phase≠.retired)
    (s := init (listing ["a","b"])) ⟨_,by decide,rfl⟩ (by decide +kernel)
  simp only [decide_eq_true_eq] at hp
  exact ⟨s,t,hs,hn,hp⟩

end Runs

end Acnet.Manager.LoopEnd
