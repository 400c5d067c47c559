import Acnet.Manager.Frame

namespace Acnet.Manager

/-- Every child has at most one live coroutine, and every live coroutine is a child's. -/
structure Owned (s : State) : Prop where
  ledger : Ledger s
  single : ∀ id,liveCount s id ≤ 1
  owned : ∀ id,Live s id → id∈s.keys

namespace Owned

variable {s : State}

theorem not_live_next (h : Owned s) : ¬Live s s.nextId := by
  rintro ⟨c,hc,hid,_⟩
  have := h.ledger.actor_lt c hc
  omega

/-- A coroutine may be launched for a child that has none. -/
theorem launch (h : Owned s) {id : Nat} (hid : id∈s.keys) (hl : ¬Live s id)
    (module : LoadedModule) : Owned (s.launch id module) where
  ledger := h.ledger.launched hid module
  single x := by
    rw [liveCount_launch]
    have hx := h.single x
    split_ifs with he
    · subst he
      rw [liveCount_eq_zero.mpr hl]
    · exact hx
  owned x hx := by
    rcases live_launch.mp hx with hx | rfl
    · exact h.owned x hx
    · exact hid

theorem emplace (h : Owned s) (name : String) (module : LoadedModule) :
    Owned (s.emplace name module) where
  ledger := h.ledger.op (.emplace name module)
  single x := by
    have hc := liveCount_launch s s.nextId x module
    have hx := h.single x
    change liveCount (s.launch s.nextId module) x ≤ 1
    rw [hc]
    split_ifs with he
    · subst he
      rw [liveCount_eq_zero.mpr h.not_live_next]
    · exact hx
  owned x hx := by
    rw [keys_emplace]
    change Live (s.launch s.nextId module) x at hx
    rcases live_launch.mp hx with hx | rfl
    · simp [h.owned x hx]
    · simp

theorem relaunch (h : Owned s) {id : Nat} (hid : id∈s.keys) (hl : ¬Live s id)
    (module : LoadedModule) : Owned (s.relaunch id module) := by
  have hkeys := map_keys s.childrens id module
  apply Owned.launch
  · exact {
      ledger := h.ledger.rekey hkeys
      single := h.single
      owned := fun x hx => by
        change x∈(s.relaunch id module).keys
        rw [keys_relaunch]
        exact h.owned x hx}
  · change id∈(s.relaunch id module).keys
    rw [keys_relaunch]
    exact hid
  · exact hl

theorem loadModules (h : Owned s) (o : Outcome) : Owned (Manager.loadModules o s) :=
  loadModules_rec (P := Owned) (fun _ name module ht => ht.emplace name module) h o

/-- `__reload_module` launches one coroutine, for a new child or for one that has none. -/
theorem reloadModule (h : Owned s) (o : Outcome) (id : Nat) (name : String)
    (hl : ¬Live s id) : Owned (Manager.reloadModule o s id name) := by
  unfold Manager.reloadModule
  split
  · exact h
  · unfold reloadNamed
    split
    split
    · exact h
    · split_ifs
      · exact h.emplace _ _
      · split
        · exact h
        · rename_i hf
          obtain ⟨hc,rfl⟩ := find_mem hf
          exact h.relaunch (mem_keys hc) hl _

end Owned

/-- The names of the entries whose library opens. -/
def openedNames (o : Outcome) (entries : List (AcModule×Nat)) : List String :=
  (entries.filter fun e => (o.opened e.2).isSome).map (·.1.moduleName)

/-- No child that an entry yet to be visited names has a live coroutine. -/
def Idle (o : Outcome) (entries : List (AcModule×Nat)) (s : State) : Prop :=
  ∀ name∈openedNames o entries,∀ c∈s.childrens,c.moduleName=name → ¬Live s c.actorId

theorem reloadEntry_owned {o : Outcome} {config : AcConfig} {s : State} {mod : AcModule} {k : Nat}
    {entries : List (AcModule×Nat)} (h : Owned s) (hi : Idle o ((mod,k)::entries) s)
    (hnd : (openedNames o ((mod,k)::entries)).Nodup) :
    Owned (reloadEntry o config s (mod,k)) ∧ Idle o entries (reloadEntry o config s (mod,k)) := by
  have hcons (ho : (o.opened k).isSome=true) :
      openedNames o ((mod,k)::entries)=mod.moduleName::openedNames o entries := by
    simp [openedNames,ho]
  rcases reloadEntry_cases o config s mod k with ⟨ho,he⟩ | ⟨c,module,ho,hf,he⟩ | ⟨module,ho,hf,he⟩
  · rw [he]
    refine ⟨h,fun name hname => hi name ?_⟩
    simpa [openedNames,List.filter_cons,ho] using hname
  · rw [hcons ho,List.nodup_cons] at hnd
    rw [Idle,hcons ho] at hi
    obtain ⟨hc,hname⟩ := firstNamed_mem hf
    have hl := hi _ List.mem_cons_self c hc hname
    rw [he]
    refine ⟨h.relaunch (mem_keys hc) hl module,?_⟩
    intro name hn d hd hdn hlive
    obtain ⟨e,he,hed⟩ := List.mem_map.mp hd
    have hsame : d.actorId=e.actorId ∧ d.moduleName=e.moduleName := by
      rw [← hed]
      split_ifs <;> exact ⟨rfl,rfl⟩
    rw [hsame.1] at hlive
    change Live (s.launch c.actorId module) e.actorId at hlive
    rcases live_launch.mp hlive with hlive | heq
    · exact hi name (List.mem_cons_of_mem _ hn) e he (hsame.2 ▸ hdn) hlive
    · have hec : e=c := List.inj_on_of_nodup_map h.ledger.keys_nodup he hc heq
      rw [hsame.2,hec,hname] at hdn
      exact hnd.1 (hdn ▸ hn)
  · rw [hcons ho,List.nodup_cons] at hnd
    rw [Idle,hcons ho] at hi
    rw [he]
    refine ⟨h.emplace _ module,?_⟩
    intro name hn d hd hdn hlive
    change Live (s.launch s.nextId module) d.actorId at hlive
    rcases List.mem_append.mp hd with hd | hd
    · rcases live_launch.mp hlive with hlive | heq
      · exact hi name (List.mem_cons_of_mem _ hn) d hd hdn hlive
      · have := (h.ledger.keys_lt _ (mem_keys hd)).2
        omega
    · obtain rfl := List.mem_singleton.mp hd
      replace hdn : mod.moduleName=name := hdn
      exact hnd.1 (hdn ▸ hn)

/-- With distinct names, `__reload_all_modules` launches each child at most once. -/
theorem Owned.reloadAllModules {o : Outcome} {s : State} (h : Owned s)
    (hl : ∀ id,¬Live s id) (hnd : (openedNames o s.config.modules.zipIdx).Nodup) :
    Owned (Manager.reloadAllModules o s) := by
  have hi : Idle o s.config.modules.zipIdx s := fun _ _ c _ _ => hl c.actorId
  change Owned (s.config.modules.zipIdx.foldl (reloadEntry o s.config) s)
  generalize s.config=config at hi hnd ⊢
  generalize config.modules.zipIdx=entries at hi hnd ⊢
  clear hl
  induction entries generalizing s with
  | nil => exact h
  | cons e entries ih =>
    obtain ⟨ho,hi⟩ := reloadEntry_owned h hi hnd
    apply ih ho hi
    have hsub : (openedNames o entries).Sublist (openedNames o (e::entries)) :=
      ((List.sublist_cons_self e entries).filter _).map _
    exact hsub.nodup hnd

/-- While a reload-all waits, every live coroutine is one that it waits for. -/
def Barrier (s : State) : Prop :=
  s.reloadAllFlag=true → s.pendingReload≠∅ → ∀ id,Live s id → id∈s.pendingReload

/-- Wherever an exit completes a reload-all, the entries whose library opens have pairwise
distinct module names. -/
def DistinctNames (s : State) (a : Action) (_ : State) : Prop :=
  OnHandle (fun o m => CompletesReloadAll s m →
    (openedNames o s.config.modules.zipIdx).Nodup) s a

section Handle

variable {s : State} {m : EventMessage} {rest : List EventMessage}

theorem Owned.taken (h : Owned s) (hm : s.mailbox.messages=m::rest) :
    Owned (taken s m rest) := by
  refine ⟨h.ledger.take hm,fun id => ?_,fun id hl => ?_⟩
  · by_cases ht : m.type=.moduleExited
    · have hc := h.ledger.liveCount_taken hm ht id
      have := h.single id
      omega
    · have := h.single id
      rwa [liveCount,taken_coroutines ht]
  · exact h.owned id (h.ledger.live_of_taken hm hl)

/-- An exit event leaves its sender without a live coroutine. -/
theorem Owned.not_live (h : Owned s) (hm : s.mailbox.messages=m::rest)
    (ht : m.type=.moduleExited) : ¬Live (Manager.taken s m rest) m.senderId := by
  have hc := h.ledger.liveCount_taken hm ht m.senderId
  have := h.single m.senderId
  apply liveCount_eq_zero.mp
  simp only [if_true] at hc
  omega

end Handle

/-- A change that launches nothing and erases no live child. -/
theorem Owned.frame {s t : State} (h : Owned s) (hl : Ledger t)
    (hc : t.coroutines=s.coroutines) (hk : ∀ id∈s.keys,Live s id → id∈t.keys) : Owned t := by
  have hlive {id : Nat} : Live t id ↔ Live s id := by rw [Live,Live,hc]
  refine ⟨hl,fun id => ?_,fun id hid => ?_⟩
  · rw [liveCount,hc]
    exact h.single id
  · have hs := hlive.mp hid
    exact hk id (h.owned id hs) hs

theorem Barrier.frame {s t : State} (h : Barrier s) (hc : t.coroutines=s.coroutines)
    (hf : t.reloadAllFlag=s.reloadAllFlag) (hp : t.pendingReload=s.pendingReload) :
    Barrier t := by
  intro hflag hne id hl
  rw [Live,hc] at hl
  rw [hp] at hne ⊢
  exact h (hf ▸ hflag) hne id hl

/-- The exit of a live coroutine shortens what the reload-all waits for, for nobody else. -/
theorem Barrier.forget {s t : State} {id : Nat} (h : Barrier s) (hd : ¬Live s id)
    (hc : t.coroutines=s.coroutines) (hf : t.reloadAllFlag=s.reloadAllFlag)
    (hp : t.pendingReload=s.pendingReload.erase id) : Barrier t := by
  intro hflag hne x hl
  rw [Live,hc] at hl
  rw [hp] at hne ⊢
  have hx : x≠id := fun he => hd (he ▸ hl)
  apply Finset.mem_erase_of_ne_of_mem hx
  apply h (hf ▸ hflag) _ x hl
  intro he
  simp [he] at hne

/-- Handling a message keeps the children single. -/
theorem Owned.dispatch {o : Outcome} {s t : State} {m : EventMessage} (h : Owned s)
    (hb : Barrier s) (ht : Ledger t) (hdead : m.type=.moduleExited → ¬Live s m.senderId)
    (hlate : m.type=.moduleExited → s.reloadAllFlag=true → s.pendingReload≠∅ →
      m.senderId∈s.pendingReload)
    (hnames : CompletesReloadAll s m → (openedNames o s.config.modules.zipIdx).Nodup)
    (hd : Dispatch o s m t) : Owned t ∧ Barrier t := by
  cases hd with
  | ignore => exact ⟨h,hb⟩
  | exit type =>
    rw [foldl_requestStop] at ht ⊢
    exact ⟨h.frame ht rfl fun _ hk _ => hk,hb.frame rfl rfl rfl⟩
  | reloadAll type update all some =>
    rw [stopAll_eq] at ht ⊢
    refine ⟨h.frame ht rfl fun _ hk _ => hk,fun _ _ id hl => ?_⟩
    simp only [Finset.mem_union,List.mem_toFinset]
    exact Or.inr (h.owned id hl)
  | @loadAll config type update all none =>
    have hs : Owned (stopAll s config) := by
      have hl := h.ledger.stopAll config
      rw [stopAll_eq] at hl ⊢
      exact h.frame hl rfl fun _ hk _ => hk
    refine ⟨hs.loadModules o,fun _ hne => absurd ?_ hne⟩
    exact (LaunchFrame.loadModules o _).pendingReload.trans none
  | reloadOne type update one found =>
    exact ⟨h.frame ht rfl fun _ hk _ => hk,nofun⟩
  | @reloadNew config type update one missing =>
    have hs : Owned {s with config := config, reloadAllFlag := false} :=
      h.frame (h.ledger.op (.configure config false)) rfl fun _ hk _ => hk
    refine ⟨hs.reloadModule o 0 m.payload fun hl => ?_,fun hf => ?_⟩
    · exact Nat.lt_irrefl 0 (h.ledger.keys_lt 0 (h.owned 0 hl)).1
    · rw [(LaunchFrame.reloadModule o _ 0 m.payload).reloadAllFlag] at hf
      cases hf
  | remove type found =>
    exact ⟨h.frame ht rfl fun _ hk _ => hk,hb.frame rfl rfl rfl⟩
  | crash type child running reload stop =>
    exact ⟨h.frame ht rfl fun _ hk _ => hk,hb.frame rfl rfl rfl⟩
  | unknown type missing =>
    exact ⟨h.frame ht rfl fun _ hk _ => hk,hb.forget (hdead type) rfl rfl rfl⟩
  | barrier type child reload all wait =>
    exact ⟨h.frame ht rfl fun _ hk _ => hk,hb.forget (hdead type) rfl rfl rfl⟩
  | complete type child reload all last =>
    have hs : Owned (s.forget m.senderId) :=
      h.frame (h.ledger.op (.forget _)) rfl fun _ hk _ => hk
    have hnone (id : Nat) : ¬Live s id := by
      intro hl
      have hid := hb all (Finset.ne_empty_of_mem reload.2) id hl
      have hne : id≠m.senderId := fun he => hdead type (he ▸ hl)
      simpa [last] using Finset.mem_erase_of_ne_of_mem hne hid
    refine ⟨hs.reloadAllModules hnone (hnames ⟨type,child,reload,all,last⟩),?_⟩
    intro _ hne
    exact absurd ((LaunchFrame.reloadAllModules o _).pendingReload.trans last) hne
  | single type child reload one =>
    have hs : Owned (s.forget m.senderId) :=
      h.frame (h.ledger.op (.forget _)) rfl fun _ hk _ => hk
    refine ⟨hs.reloadModule o m.senderId _ (hdead type),fun hf => ?_⟩
    rw [(LaunchFrame.reloadModule o _ m.senderId _).reloadAllFlag] at hf
    exact absurd (one.symm.trans hf) (by decide)
  | restart type child restart =>
    have hs : Owned (s.forget m.senderId) :=
      h.frame (h.ledger.op (.forget _)) rfl fun _ hk _ => hk
    obtain ⟨hc,hid⟩ := find_mem child
    refine ⟨hs.launch (mem_keys hc) (hid ▸ hdead type) _,fun hf hne => ?_⟩
    have hne' : s.pendingReload≠∅ := by
      intro he
      exact hne (by simp [State.restartModule,State.launch,State.forget,he])
    exact absurd (hlate type hf hne') restart.2.1
  | erase type child reload restart =>
    refine ⟨h.frame ht rfl fun id hk hl => ?_,hb.forget (hdead type) rfl rfl rfl⟩
    exact mem_keys_erase.mpr ⟨hk,fun he => hdead type (he ▸ hl)⟩

theorem Owned.quiet {s t : State} (h : Owned s) (hl : Ledger t) (hq : Quiet s t) : Owned t where
  ledger := hl
  single id := by
    rw [hq.liveCount]
    exact h.single id
  owned id hid := by
    rw [hq.keys]
    exact h.owned id (hq.live.mp hid)

theorem Barrier.quiet {s t : State} (h : Barrier s) (hq : Quiet s t) : Barrier t := by
  intro hf hne id hl
  rw [hq.reloadAllFlag] at hf
  rw [hq.pendingReload] at hne ⊢
  exact h hf hne id (hq.live.mp hl)

theorem Owned.step {s t : State} {a : Action} (h : Owned s) (hb : Barrier s) (he : Early s)
    (hn : next s a=some t) (ok : DistinctNames s a t) : Owned t ∧ Barrier t := by
  have ht := h.ledger.next hn
  cases next_turn hn with
  | quiet _ hq => exact ⟨h.quiet ht hq,hb.quiet hq⟩
  | emplace startup name module loading =>
    have hs : Owned {s with startup := startup} := h.quiet {h.ledger with} (.startup s startup)
    refine ⟨hs.emplace name module,fun hf => ?_⟩
    exact absurd ((he loading).symm.trans hf) (by decide)
  | @handle o m rest u done loop head result effect =>
    have hu : Ledger u := h.ledger.handled head effect
    have hbt : Barrier (Manager.taken s m rest) := fun hf hne id hl =>
      hb hf hne id (h.ledger.live_of_taken head hl)
    have hlate (type : m.type=.moduleExited) (hf : s.reloadAllFlag=true)
        (hne : s.pendingReload≠∅) : m.senderId∈s.pendingReload := by
      obtain ⟨c,hc,hid,hp⟩ := h.ledger.exits m (by simp [head]) type
      exact hb hf hne _ ⟨c,List.mem_of_getElem? hc,hid,by simp [Coroutine.live,hp]⟩
    obtain ⟨hou,hbu⟩ := (h.taken head).dispatch hbt hu (h.not_live head) hlate
      (ok m (by simp [head])) effect
    cases done with
    | true => exact ⟨hou.frame {hou.ledger with} rfl fun _ hk _ => hk,hbu.frame rfl rfl rfl⟩
    | false => exact ⟨hou,hbu⟩

theorem start_owned {s : State} (h : machine.start s) : Owned s ∧ Barrier s ∧ Early s := by
  obtain ⟨config,rfl⟩ := h
  refine ⟨⟨init_ledger config,fun _ => Nat.zero_le 1,fun id hl => ?_⟩,nofun,fun _ => rfl⟩
  simp [Live,init] at hl

/-- The module names are distinct where they have to be, and the first load has returned before
a message is handled. -/
def DistinctAfterLoad (s : State) (a : Action) (t : State) : Prop :=
  DistinctNames s a t ∧ AfterLoad s a

theorem reachable_owned {s : State} (h : machine.ReachableBy DistinctAfterLoad s) :
    Owned s ∧ Barrier s ∧ Early s := by
  refine h.invariant (fun _ => start_owned) fun x a y hi hn ok => ?_
  obtain ⟨ho,hb,he⟩ := hi
  obtain ⟨ho',hb'⟩ := ho.step hb he hn ok.1
  exact ⟨ho',hb',he.step hn ok.2⟩

/-- At most one live coroutine consumes from the mailbox of a child, in every run in which no
message is handled before the first load has returned and no reload-all is completed under a
configuration that lists a module name twice. -/
theorem single_consumer {s : State} (h : machine.ReachableBy DistinctAfterLoad s) (id : Nat) :
    liveCount s id ≤ 1 :=
  (reachable_owned h).1.single id

section Runs

instance (s : State) (a : Action) (t : State) : Decidable (DistinctNames s a t) :=
  inferInstanceAs (Decidable (OnHandle _ s a))

instance (s : State) (a : Action) (t : State) : Decidable (DistinctAfterLoad s a t) :=
  inferInstanceAs (Decidable (_ ∧ _))

/-- Two modules are reloaded together. -/
theorem single_consumer_reloadAll :
    ∃ s,machine.ReachableBy DistinctAfterLoad s ∧ s.coroutines.length=4 ∧ liveCount s 1 ≤ 1 := by
  obtain ⟨s,hs,hp⟩ := machine.exists_reachableBy DistinctAfterLoad
    (List.flatten [loading ["a","b"],[.reloadModule "all",.handle (opening ["a","b"])],
      crashing 0,crashing 1,List.replicate 4 (.handle (opening ["a","b"]))])
    (fun s => s.coroutines.length=4) (init_start (listing ["a","b"])) (by decide +kernel)
  exact ⟨s,hs,by simpa using hp,single_consumer hs 1⟩

/-- A configuration that lists one module twice makes reload-all launch two coroutines for
one child, so two coroutines receive from one mailbox. -/
theorem two_consumers : ∃ s,machine.Reachable s ∧ 1∈s.keys ∧ liveCount s 1=2 := by
  obtain ⟨s,hs,hp⟩ := machine.exists_reachableBy Machine.anyStep
    (List.flatten [loading ["m"],[.reloadModule "all",.handle (opening ["m","m"])],crashing 0,
      List.replicate 2 (.handle (opening ["m","m"]))])
    (fun s => 1∈s.keys ∧ liveCount s 1=2) (init_start (listing ["m"])) (by decide +kernel)
  exact ⟨s,hs,by simpa using hp⟩

/-- The same happens with distinct names when a reload-all is handled between the two emplaces
of the first load: it waits for the first child only and launches the second one again. -/
theorem two_consumers_loading :
    ∃ s,machine.ReachableBy DistinctNames s ∧ 2∈s.keys ∧ liveCount s 2=2 := by
  obtain ⟨s,hs,hp⟩ := machine.exists_reachableBy DistinctNames
    (List.flatten [List.replicate 2 (.load (opening ["a","b"])),
      [.reloadModule "all",.handle (opening ["a","b"])],
      List.replicate 2 (.load (opening ["a","b"])),crashing 0,
      List.replicate 2 (.handle (opening ["a","b"]))])
    (fun s => 2∈s.keys ∧ liveCount s 2=2) (init_start (listing ["a","b"])) (by decide +kernel)
  exact ⟨s,hs,by simpa using hp⟩

end Runs

end Acnet.Manager
