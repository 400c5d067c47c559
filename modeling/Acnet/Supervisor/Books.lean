import Acnet.Manager.Frame
import Acnet.Supervisor.Step

namespace Acnet.Supervisor

open Manager (AcConfig LoadedModule Outcome Broadcast Effect Loading Kept requestAll)

/-- The books are in order. -/
structure Books (s : State) : Prop where
  next_pos : 0<s.nextId
  keys_lt : ∀ e∈s.childrens,0 < e.1 ∧ e.1 < s.nextId
  actor_id : ∀ e∈s.childrens,e.2.actorId=e.1
  reload_keys : ∀ id∈s.pendingReload,id∈s.keys
  stop_keys : ∀ id∈s.pendingStop,id∈s.keys
  restart_keys : ∀ id∈s.pendingRestart,id∈s.keys
  restart_reload : Disjoint s.pendingRestart s.pendingReload
  restart_stop : Disjoint s.pendingRestart s.pendingStop

namespace Books

variable {s : State} (h : Books s)

include h

theorem launch (c : ActorMetaData) : Books (s.launch c) := {h with}

/-- Children come to the map, or change their creators. -/
theorem rekey {l : List (Nat×ActorMetaData)} {n : Nat} (hn : s.nextId ≤ n)
    (hl : ∀ e∈l,(0 < e.1 ∧ e.1 < n) ∧ e.2.actorId=e.1) (hk : ∀ k∈s.keys,k∈l.map (·.1)) :
    Books {s with childrens := l, nextId := n} :=
  {h with
    next_pos := h.next_pos.trans_le hn
    keys_lt := fun e he => (hl e he).1
    actor_id := fun e he => (hl e he).2
    reload_keys := fun id hid => hk id (h.reload_keys id hid)
    stop_keys := fun id hid => hk id (h.stop_keys id hid)
    restart_keys := fun id hid => hk id (h.restart_keys id hid)}

theorem nextId_new : s.nextId∉s.keys := by
  intro hk
  obtain ⟨e,he,hid⟩ := List.mem_map.mp hk
  have := h.keys_lt e he
  omega

theorem emplace (name : String) (module : LoadedModule) : Books (s.emplace name module) := by
  have hbooks : Books {s with
      childrens := s.childrens++[(s.nextId,⟨s.nextId,s.nextMailbox,name,module⟩)]
      nextId := s.nextId+1} := by
    apply h.rekey (Nat.le_succ _)
    · intro e he
      rcases List.mem_append.mp he with he | he
      · have hlt := h.keys_lt e he
        exact ⟨⟨hlt.1,hlt.2.trans (Nat.lt_succ_self _)⟩,h.actor_id e he⟩
      · obtain rfl := List.mem_singleton.mp he
        exact ⟨⟨h.next_pos,Nat.lt_succ_self _⟩,rfl⟩
    · intro k hk
      rw [List.map_append]
      exact List.mem_append_left _ hk
  rw [emplace_new h.nextId_new]
  exact {hbooks with}

theorem relaunch (e : Nat×ActorMetaData) (module : LoadedModule) :
    Books (s.relaunch e module) := by
  apply Books.launch
  refine h.rekey (Nat.le_refl _) ?_ ?_
  · intro x hx
    obtain ⟨y,hy,rfl⟩ := List.mem_map.mp hx
    split_ifs
    · exact ⟨h.keys_lt y hy,h.actor_id y hy⟩
    · exact ⟨h.keys_lt y hy,h.actor_id y hy⟩
  · intro k hk
    obtain ⟨y,hy,rfl⟩ := List.mem_map.mp hk
    refine List.mem_map.mpr ⟨_,List.mem_map_of_mem hy,?_⟩
    split_ifs <;> rfl

omit h in
theorem kept : Kept Books :=
  ⟨fun _ name module h => h.emplace name module,fun _ e module _ h => h.relaunch e module⟩

/-- Some children are noted for reloading. -/
theorem notesReload {l : List (Nat×ActorMetaData)} (hl : ∀ e∈l,e∈s.childrens) :
    Books (l.foldl State.noteReload s) := by
  rw [foldl_noteReload]
  exact {h with
    reload_keys := by
      intro id hid
      rcases Finset.mem_union.mp hid with hid | hid
      · exact h.reload_keys id hid
      · obtain ⟨e,he,rfl⟩ := List.mem_map.mp (List.mem_toFinset.mp hid)
        exact mem_keys (hl e he)
    restart_keys := fun id hid => h.restart_keys id (Finset.sdiff_subset hid)
    restart_reload := Finset.disjoint_union_right.mpr
      ⟨h.restart_reload.mono_left Finset.sdiff_subset,Finset.sdiff_disjoint⟩
    restart_stop := h.restart_stop.mono_left Finset.sdiff_subset}

/-- Some children are noted for removal. -/
theorem notesStop {l : List (Nat×ActorMetaData)} (hl : ∀ e∈l,e∈s.childrens) :
    Books (l.foldl State.noteStop s) := by
  rw [foldl_noteStop]
  exact {h with
    stop_keys := by
      intro id hid
      rcases Finset.mem_union.mp hid with hid | hid
      · exact h.stop_keys id hid
      · obtain ⟨e,he,rfl⟩ := List.mem_map.mp (List.mem_toFinset.mp hid)
        exact mem_keys (hl e he)
    restart_keys := fun id hid => h.restart_keys id (Finset.sdiff_subset hid)
    restart_reload := h.restart_reload.mono_left Finset.sdiff_subset
    restart_stop := Finset.disjoint_union_right.mpr
      ⟨h.restart_stop.mono_left Finset.sdiff_subset,Finset.sdiff_disjoint⟩}

theorem noteReload {e : Nat×ActorMetaData} (he : e∈s.childrens) : Books (s.noteReload e) :=
  h.notesReload (l := [e]) (by simpa using he)

theorem noteStop {e : Nat×ActorMetaData} (he : e∈s.childrens) : Books (s.noteStop e) :=
  h.notesStop (l := [e]) (by simpa using he)

theorem requestAll : Books (requestAll s) := by
  have hflag : Books {s with reloadAllFlag := true} := {h with}
  exact hflag.notesReload fun _ he => he

theorem forget (id : Nat) : Books (s.forget id) :=
  {h with
    reload_keys := fun x hx => h.reload_keys x (Finset.mem_of_mem_erase hx)
    stop_keys := fun x hx => h.stop_keys x (Finset.mem_of_mem_erase hx)
    restart_keys := fun x hx => h.restart_keys x (Finset.mem_of_mem_erase hx)
    restart_reload := h.restart_reload.mono (Finset.erase_subset _ _) (Finset.erase_subset _ _)
    restart_stop := h.restart_stop.mono (Finset.erase_subset _ _) (Finset.erase_subset _ _)}

/-- A child is erased after the pending sets have forgotten it. -/
theorem erase (id : Nat) : Books ((s.forget id).erase id) := by
  have hkeys {x : Nat} (hx : x∈s.keys) (hne : x≠id) :
      x∈((s.forget id).erase id).keys := by
    obtain ⟨e,he,rfl⟩ := List.mem_map.mp hx
    exact List.mem_map_of_mem (List.mem_filter.mpr ⟨he,by simpa using hne⟩)
  have hf := h.forget id
  exact {hf with
    keys_lt := fun e he => h.keys_lt e (List.mem_filter.mp he).1
    actor_id := fun e he => h.actor_id e (List.mem_filter.mp he).1
    reload_keys := fun x hx => hkeys (hf.reload_keys x hx) (Finset.ne_of_mem_erase hx)
    stop_keys := fun x hx => hkeys (hf.stop_keys x hx) (Finset.ne_of_mem_erase hx)
    restart_keys := fun x hx => hkeys (hf.restart_keys x hx) (Finset.ne_of_mem_erase hx)}

theorem configure (config : AcConfig) (flag : Bool) :
    Books {s with config := config, reloadAllFlag := flag} := {h with}

theorem effect {o : Outcome} {t : State} {m : EventMessage} {stop : Option Broadcast}
    {done : Bool} (he : Effect o s m t stop done) : Books t := by
  have hf := h.forget m.senderId
  cases he with
  | other | exitEmpty | reloadFailed | removeMissing | crashIgnored => exact h
  | exit => exact h.notesStop fun _ he => he
  | @reloadAll config => exact (h.configure config _).requestAll
  | @loadAll config =>
    exact Manager.loadModules_rec kept.emplace (h.configure config _).requestAll o
  | reloadOne type update one found =>
    exact (h.configure _ false).noteReload (Manager.Child.firstNamed_mem found).1
  | reloadNew => exact kept.reloadModule (h.configure _ false) o 0 _
  | remove type found => exact h.noteStop (Manager.Child.firstNamed_mem found).1
  | crash type noted =>
    obtain ⟨hk,-,hr,hst⟩ := noted
    exact {h with
      restart_keys := fun x hx => (Finset.mem_insert.mp hx).elim (· ▸ hk) (h.restart_keys x)
      restart_reload := Finset.disjoint_insert_left.mpr ⟨hr,h.restart_reload⟩
      restart_stop := Finset.disjoint_insert_left.mpr ⟨hst,h.restart_stop⟩}
  | unknown => exact hf
  | reload type child reload => exact kept.reloadExited hf o _ _
  | restart => exact hf.launch _
  | erase => exact h.erase m.senderId

/-- A step of the first load makes a child, if anything. -/
theorem loading {o : Outcome} {t : State} (hl : Loading o s t) : Books t := by
  have hs (startup : Manager.Startup) : Books {s with startup := startup} := {h with}
  cases hl with
  | begin | skip | enqueue => exact hs _
  | emplace => exact (hs _).emplace _ _

end Books

theorem init_books (config : AcConfig) : Books (init config) where
  next_pos := Nat.one_pos
  keys_lt _ he := absurd he List.not_mem_nil
  actor_id _ he := absurd he List.not_mem_nil
  reload_keys _ hid := absurd hid (Finset.notMem_empty _)
  stop_keys _ hid := absurd hid (Finset.notMem_empty _)
  restart_keys _ hid := absurd hid (Finset.notMem_empty _)
  restart_reload := Finset.disjoint_empty_left _
  restart_stop := Finset.disjoint_empty_left _

theorem next_books {s t : State} {a : Action} (h : Books s) (hn : next s a=some t) :
    Books t := by
  cases a with
  | load o => exact h.loading (Manager.load_cases hn)
  | handle o m =>
    cases hn
    exact h.effect (Manager.supervise_effect o s m)
  | shutdown =>
    cases hn
    exact {h with}

theorem start_books {s : State} (h : machine.start s) : Books s := by
  obtain ⟨config,rfl⟩ := h
  exact init_books config

theorem reachable_books {s : State} (h : machine.Reachable s) : Books s := by
  apply h.invariant
  · intro x hx
    exact start_books hx
  · intro x a y hx hn _
    exact next_books hx hn

/-- After the loop over all children nothing is to be reloaded exactly when there is no child. -/
theorem Books.requestAll_empty {s : State} (h : Books s) :
    (Manager.requestAll s).pendingReload=∅ ↔ s.childrens=[] := by
  rw [requestAll_eq]
  constructor
  · intro he
    have hk : s.keys.toFinset=∅ := Finset.subset_empty.mp (he ▸ Finset.subset_union_right)
    have hnil : s.keys=[] := by simpa using hk
    simpa [State.keys] using hnil
  · intro hnil
    have hk : s.keys=[] := by simp [State.keys,hnil]
    have hempty : s.pendingReload=∅ := by
      apply Finset.eq_empty_of_forall_notMem
      intro id hid
      have := h.reload_keys id hid
      simp [hk] at this
    simp [hk,hempty]

/-- The books are in order whatever messages have been handled. -/
theorem books_in_order {s : State} (h : machine.Reachable s) :
    (∀ e∈s.childrens,e.1≠0 ∧ e.2.actorId=e.1) ∧
    (∀ id∈s.pendingReload,id∈s.keys) ∧ (∀ id∈s.pendingStop,id∈s.keys) ∧
    (∀ id∈s.pendingRestart,id∈s.keys) ∧
    Disjoint s.pendingRestart s.pendingReload ∧ Disjoint s.pendingRestart s.pendingStop ∧
    ∀ config,(requestAll {s with config := config}).pendingReload=∅ ↔ s.childrens=[] := by
  have hb := reachable_books h
  refine ⟨?_,hb.reload_keys,hb.stop_keys,hb.restart_keys,hb.restart_reload,hb.restart_stop,?_⟩
  · intro e he
    exact ⟨(hb.keys_lt e he).1.ne',hb.actor_id e he⟩
  · intro config
    have hc : Books {s with config := config} := {hb with}
    exact hc.requestAll_empty

theorem init_start (config : AcConfig) : machine.start (init config) := ⟨config,rfl⟩

/-- The first load makes two children, `a` and `b`, and has yet to return. -/
def loadingTwo : List Action := List.replicate 3 (.load (Manager.opening ["a","b"]))

/-- The second child crashes and the first one is to be reloaded. -/
theorem books_in_order_two :
    ∃ s,machine.Reachable s ∧ s.pendingReload={1} ∧ s.pendingRestart={2} ∧
      Disjoint s.pendingRestart s.pendingReload := by
  obtain ⟨s,hs,hp⟩ := machine.exists_reachableBy Machine.anyStep
    (loadingTwo++[.handle (Manager.opening []) ⟨.crashReport,2,"",0⟩,
      .handle (Manager.opening ["a","b"]) ⟨.cmdModuleReload,0,"a",0⟩])
    (fun s => decide (s.pendingReload={1} ∧ s.pendingRestart={2}))
    (init_start (Manager.listing ["a","b"])) (by decide +kernel)
  obtain ⟨hr,ht⟩ := of_decide_eq_true hp
  obtain ⟨-,-,-,-,hd,-⟩ := books_in_order hs
  exact ⟨s,hs,hr,ht,hd⟩

end Acnet.Supervisor
