import Acnet.Manager.Owners

/-!
No actor outlives the library that its code is in.
-/

namespace Acnet.Manager.Library

open HotReload

variable {s t : State}

/-- The creators that are opened and not yet stored. -/
def State.transits (s : State) : List Nat := s.transit.toList++s.loading.toList

/-- The manager's ids are distinct and every object is counted by its owners. -/
structure Holding (s : State) : Prop where
  nodup : s.manager.keys.Nodup
  fresh : ∀ id∈s.manager.keys,id < s.manager.nextId
  owns : Owns s.heap (owners s.manager s.ended s.transits)
  ended : ∀ serial∈s.ended,serial < s.manager.modules.length

/-- An instance is alive as long as its frame runs with it, and a frame that has ended runs with
none. -/
structure Framed (s : State) : Prop where
  ended : ∀ serial∈s.ended,s.frames serial=.finishing
  actors : ∀ a x,s.instances[a]?=some x → s.module x.serial=some x.module ∧
    ((x.destroys=[] ∧ s.frames x.serial=.running a) ∨
      (x.destroys=[x.module] ∧ s.frames x.serial=.finishing))
  running : ∀ serial a,s.frames serial=.running a → ∃ x,s.instances[a]?=some x ∧ x.serial=serial

theorem Holding.next_not_ended (h : Holding s) : s.manager.modules.length∉s.ended :=
  fun hmem => Nat.lt_irrefl _ (h.ended _ hmem)

/-- The manager adds launches; frames and instances stay. -/
theorem Framed.launches (h : Framed s) (hf : t.frames=s.frames) (he : t.ended=s.ended)
    (hi : t.instances=s.instances) {l : List Manager.LoadedModule}
    (hm : t.manager.modules=s.manager.modules++l) : Framed t := by
  have module {serial n : Nat} (hn : s.module serial=some n) : t.module serial=some n := by
    obtain ⟨module,hmodule,rfl⟩ := Option.map_eq_some_iff.mp hn
    obtain ⟨hlt,-⟩ := List.getElem?_eq_some_iff.mp hmodule
    simp only [State.module,hm,List.getElem?_append_left hlt,hmodule,Option.map_some]
  refine ⟨?_,?_,?_⟩
  · rw [he,hf]
    exact h.ended
  · rw [hi,hf]
    intro a x hx
    exact ⟨module (h.actors a x hx).1,(h.actors a x hx).2⟩
  · rw [hi,hf]
    exact h.running

/-- Nobody gets or loses a reference. -/
theorem Holding.quiet (h : Holding s) (hc : t.manager.childrens=s.manager.childrens)
    (hm : t.manager.modules=s.manager.modules) (hid : t.manager.nextId=s.manager.nextId)
    (hh : t.heap=s.heap) (he : t.ended=s.ended) (ht : t.transits=s.transits) : Holding t := by
  have hkeys : t.manager.keys=s.manager.keys := congrArg (List.map _) hc
  refine ⟨hkeys ▸ h.nodup,?_,?_,?_⟩
  · rw [hkeys,hid]
    exact h.fresh
  · rw [hh,he,ht]
    exact h.owns.congr (owners_congr (congrArg (List.map _) hc) hm)
  · rw [he,hm]
    exact h.ended

theorem taken_modules (m : Manager.State) (e : EventMessage) (rest : List EventMessage) :
    (taken m e rest).modules=m.modules := by
  have ho := congrArg (List.map Prod.snd) (taken_origins m e rest)
  simp only [State.origins,List.map_map] at ho
  exact ho

/-- What holds of the owners before and after a message is prepared. -/
theorem prepared_owns {m t : Manager.State} {e : EventMessage} {heap : Heap}
    {ended : Finset Nat} {transit : List Nat} (h : Prepared m e t) (hnd : m.keys.Nodup)
    (hend : m.modules.length∉ended) (ho : Owns heap (owners m ended transit)) :
    Owns (exitHeap m heap e) (owners t ended transit) := by
  cases h with
  | quiet childrens coroutines nextId stays =>
    have hheap : exitHeap m heap e=heap := by
      unfold exitHeap
      by_cases ht : e.type=.moduleExited
      · rw [if_pos ht]
        rcases stays ht with hf | hr
        · rw [hf]
        · split
          · rfl
          · exact if_pos hr
      · rw [if_neg ht]
    rw [hheap]
    exact ho.congr
      (owners_congr (congrArg (List.map _) childrens) (congrArg (List.map _) coroutines))
  | @restart c type child restart =>
    have hreload : ¬Reloading m e.senderId := fun hr => restart.2.1 hr.2
    have hheap : exitHeap m heap e=heap.share c.creator.handle := by
      simp [exitHeap,type,child,hreload,restart]
    rw [hheap]
    have hmodules : ((m.forget e.senderId).restartModule c).modules=m.modules++[c.creator] := by
      simp [State.modules,State.restartModule,State.launch,State.forget]
    have hcreators : ((m.forget e.senderId).restartModule c).creators=m.creators := rfl
    exact ho.share (owners_creator (find_mem child).1) (owners_launch hend hcreators hmodules)
  | @erase c type child reload restart =>
    have hheap : exitHeap m heap e=heap.drop c.creator.handle := by
      simp [exitHeap,type,child,reload,restart]
    rw [hheap]
    exact ho.drop (owners_erase hnd child)

theorem take_cases {o : Outcome} (hn : take s o=some t) :
    ∃ m rest,s.manager.mailbox.messages=m::rest ∧ s.job=none ∧
      t={s with
        manager := (plan o (taken s.manager m rest) m).state
        heap := exitHeap (taken s.manager m rest) s.heap m
        job := some ⟨o,loopOf (taken s.manager m rest) m,
          (plan o (taken s.manager m rest) m).entries,
          (dispatch o (taken s.manager m rest) m).2⟩} := by
  unfold take at hn
  split at hn
  · rename_i m rest hj _ hm
    exact ⟨m,rest,hm,hj,(Option.some.inj hn).symm⟩
  · cases hn

theorem Holding.take (h : Holding s) {o : Outcome} (hn : take s o=some t) : Holding t := by
  obtain ⟨m,rest,-,-,rfl⟩ := take_cases hn
  have hp := (plan_spec o (taken s.manager m rest) m).2
  have hmodules := taken_modules s.manager m rest
  obtain ⟨hkeys,hid⟩ := hp.keys
  have howns : Owns s.heap (owners (taken s.manager m rest) s.ended s.transits) :=
    h.owns.congr (owners_congr rfl hmodules)
  refine ⟨h.nodup.sublist hkeys,?_,?_,?_⟩
  · intro id hmem
    change id < (plan o (taken s.manager m rest) m).state.nextId
    rw [hid]
    exact h.fresh id (hkeys.subset hmem)
  · refine prepared_owns hp h.nodup ?_ howns
    rw [hmodules]
    exact h.next_not_ended
  · intro serial hserial
    obtain ⟨l,hl,-⟩ := hp.sheds.modules
    have hlt := h.ended serial hserial
    change serial < (plan o (taken s.manager m rest) m).state.modules.length
    rw [hl,hmodules,List.length_append]
    omega

theorem Framed.take (h : Framed s) {o : Outcome} (hn : take s o=some t) : Framed t := by
  obtain ⟨m,rest,-,-,rfl⟩ := take_cases hn
  obtain ⟨l,hl,-⟩ := (plan_spec o (taken s.manager m rest) m).2.sheds.modules
  rw [taken_modules] at hl
  exact h.launches rfl rfl rfl hl

/-- The manager's own state is the same but for what concerns neither children nor launches. -/
def SameChildren (m t : Manager.State) : Prop :=
  t.childrens=m.childrens ∧ t.modules=m.modules ∧ t.nextId=m.nextId

/-- A handler or the first load opens a library, which is closed again at once unless it becomes
a creator in transit. -/
structure Opens (s : State) (l : Loader) (created : Option Nat) (t : State) : Prop where
  manager : SameChildren s.manager t.manager
  frames : t.frames=s.frames
  ended : t.ended=s.ended
  instances : t.instances=s.instances
  heap : ∃ path,generateCreator s.heap path l=(t.heap,created)
  transits : t.transits.Perm (created.toList++s.transits)

theorem openNext_cases {l : Loader} (hn : openNext s l=some t) : Opens s l t.transit t := by
  unfold openNext at hn
  split at hn
  · rename_i o loop mod k rest done hj htransit
    split at hn
    · rename_i heap n hc
      cases hn
      exact ⟨⟨rfl,rfl,rfl⟩,rfl,rfl,rfl,⟨_,hc⟩,by simp [State.transits,htransit]⟩
    · rename_i heap hc
      cases hn
      exact ⟨⟨rfl,rfl,rfl⟩,rfl,rfl,rfl,⟨_,hc.trans (by rw [htransit])⟩,
        by simp [State.transits,htransit]⟩
  · cases hn

theorem loadOpen_cases {l : Loader} (hn : loadOpen s l=some t) : Opens s l t.loading t := by
  unfold loadOpen at hn
  split at hn
  · rename_i config mod k rest batch hs hloading
    split at hn
    · rename_i heap n hc
      cases hn
      refine ⟨⟨rfl,rfl,rfl⟩,rfl,rfl,rfl,⟨_,hc⟩,?_⟩
      simp [State.transits,hloading]
    · rename_i heap hc
      obtain ⟨m,hm,rfl⟩ := Option.map_eq_some_iff.mp hn
      have hsame : SameChildren s.manager m := by
        simp only [loaded,Manager.load,Members.startup,hs,Manager.generateCreator,
          Option.map_none,Option.some.injEq] at hm
        exact hm ▸ ⟨rfl,rfl,rfl⟩
      exact ⟨hsame,rfl,rfl,rfl,⟨_,hc.trans (by rw [hloading])⟩,
        by simp [State.transits,hloading]⟩
  · cases hn

theorem Holding.opens (h : Holding s) {l : Loader} {created : Option Nat}
    (hn : Opens s l created t) : Holding t := by
  obtain ⟨hchildrens,hmodules,hid⟩ := hn.manager
  have hkeys : t.manager.keys=s.manager.keys := congrArg (List.map _) hchildrens
  obtain ⟨path,hc⟩ := hn.heap
  have howns := h.owns.generateCreator path l
  rw [hc] at howns
  refine ⟨hkeys ▸ h.nodup,?_,?_,?_⟩
  · rw [hkeys,hid]
    exact h.fresh
  · have hsame (i : Nat) : owners t.manager t.ended t.transits i=
        owners s.manager s.ended (created.toList++s.transits) i := by
      rw [owners_perm hn.transits,hn.ended]
      exact owners_congr (congrArg (List.map _) hchildrens) hmodules i
    cases created with
    | none => exact howns.1.congr hsame
    | some n => exact howns.congr fun i => (hsame i).trans (owners_transit ..)
  · rw [hn.ended,hmodules]
    exact h.ended

theorem Framed.opens (h : Framed s) {l : Loader} {created : Option Nat}
    (hn : Opens s l created t) : Framed t :=
  h.launches hn.frames hn.ended hn.instances (by rw [hn.manager.2.1,List.append_nil])

/-- A library that does not open is not left open. -/
theorem Opens.failed (h : Holding s) {l : Loader} (hn : Opens s l none t) :
    ∃ c,t.heap=s.heap++[c] ∧ c.content.handle=none ∧ c.content.opened=c.content.closed := by
  obtain ⟨path,hc⟩ := hn.heap
  have howns := h.owns.generateCreator path l
  rw [hc] at howns
  obtain ⟨c,hheap,hclosed⟩ := howns.2
  exact ⟨c,hheap,hclosed.1,hclosed.2.1⟩

/-- A child that gets a new creator is there. -/
theorem find_of_store {o : Outcome} {m : Manager.State} {mod : AcModule} {k id : Nat} {loop : Loop}
    (h : loop.store o m mod k=.relaunch id) : ∃ c,m.find id=some c := by
  apply Option.isSome_iff_exists.mp
  cases loop with
  | load => cases h
  | all =>
    simp only [Loop.store] at h
    split at h
    · rename_i c hc
      cases h
      exact find_isSome.mpr (mem_keys (firstNamed_mem hc).1)
    · cases h
  | single moduleId =>
    simp only [Loop.store] at h
    split_ifs at h with h0 hf
    cases h
    exact hf

/-- The creator in transit is stored, and launched, or dropped. -/
theorem Owns.store {m : Manager.State} {heap : Heap} {ended : Finset Nat} {transit : List Nat}
    {n : Nat}
    (ho : Owns heap (owners m ended (n::transit))) (hnd : m.keys.Nodup)
    (hend : m.modules.length∉ended) (path : String) (x : Store)
    (hx : ∀ id,x=.relaunch id → ∃ c,m.find id=some c) :
    Owns (x.heap m heap n) (owners (x.manager m ⟨path,n⟩) ended transit) := by
  have hn : 0 < owners m ended (n::transit) n := by
    rw [owners_transit,if_pos rfl]
    omega
  cases x with
  | emplace name => exact ho.share hn (owners_emplace name hend)
  | discard => exact ho.drop (owners_transit m ended transit n)
  | relaunch id =>
    obtain ⟨c,hc⟩ := hx id rfl
    have hrelaunch (i : Nat) :
        owners (m.relaunch id ⟨path,n⟩) ended transit i+(if i=c.creator.handle then 1 else 0)=
          owners m ended (n::transit) i+if i=n then 1 else 0 := owners_relaunch hnd hc hend i
    have hold : 0 < owners m ended transit c.creator.handle := owners_creator (find_mem hc).1
    -- between the move into the metadata and the call the old creator is gone
    let between (i : Nat) : Nat :=
      owners m ended (n::transit) i-if i=c.creator.handle then 1 else 0
    have hbetween (i : Nat) : owners m ended (n::transit) i=
        between i+if i=c.creator.handle then 1 else 0 := by
      have ht := owners_transit m ended transit n i
      by_cases hi : i=c.creator.handle
      · simp only [between,if_pos hi]
        rw [← hi] at hold
        omega
      · simp only [between,if_neg hi]
        omega
    simp only [Store.heap,hc]
    apply (ho.drop hbetween).share
    · have ht := owners_transit m ended transit n n
      rw [if_pos rfl] at ht
      have hb := hbetween n
      by_cases hi : n=c.creator.handle
      · rw [if_pos hi] at hb
        rw [← hi] at hold
        omega
      · rw [if_neg hi] at hb
        omega
    · intro i
      have hr := hrelaunch i
      have hb := hbetween i
      simp only [Store.manager]
      omega

theorem store_launches (m : Manager.State) (module : Manager.LoadedModule) (x : Store) :
    ∃ l,(x.manager m module).modules=m.modules++l := by
  cases x with
  | emplace name =>
    exact ⟨[module],by simp [State.modules,Store.manager,State.emplace,State.launch]⟩
  | relaunch id =>
    exact ⟨[module],by simp [State.modules,Store.manager,State.relaunch,State.launch]⟩
  | discard => exact ⟨[],(List.append_nil _).symm⟩

/-- A new child has an id of its own. -/
theorem store_keys {m : Manager.State} (hnd : m.keys.Nodup) (hfresh : ∀ id∈m.keys,id < m.nextId)
    (module : Manager.LoadedModule) (x : Store) :
    (x.manager m module).keys.Nodup ∧
      ∀ id∈(x.manager m module).keys,id < (x.manager m module).nextId := by
  cases x with
  | emplace name =>
    simp only [Store.manager,keys_emplace]
    constructor
    · refine List.Nodup.append hnd (List.nodup_singleton _) ?_
      intro id hid hnew
      rw [List.mem_singleton.mp hnew] at hid
      exact Nat.lt_irrefl _ (hfresh _ hid)
    · intro id hid
      change id < m.nextId+1
      rcases List.mem_append.mp hid with hid | hid
      · exact Nat.lt_succ_of_lt (hfresh id hid)
      · rw [List.mem_singleton.mp hid]
        exact Nat.lt_succ_self _
  | relaunch id =>
    simp only [Store.manager,keys_relaunch]
    exact ⟨hnd,hfresh⟩
  | discard => exact ⟨hnd,hfresh⟩

/-- A handler or the first load does with its creator in transit what `x` says. -/
structure Stores (s : State) (m : Manager.State) (x : Store) (module : Manager.LoadedModule)
    (t : State) : Prop where
  same : SameChildren s.manager m
  child : ∀ id,x=.relaunch id → ∃ c,m.find id=some c
  manager : t.manager=x.manager m module
  heap : t.heap=x.heap m s.heap module.handle
  transits : s.transits.Perm (module.handle::t.transits)
  frames : t.frames=s.frames
  ended : t.ended=s.ended
  instances : t.instances=s.instances

theorem store_cases (hn : store s=some t) : ∃ x module,Stores s s.manager x module t := by
  unfold store at hn
  split at hn
  · rename_i o loop mod k rest done n hj ht
    cases hn
    exact ⟨loop.store o s.manager mod k,⟨s.manager.config.path mod,n⟩,⟨rfl,rfl,rfl⟩,
      fun id hid => find_of_store hid,rfl,rfl,by simp [State.transits,ht],rfl,rfl,rfl⟩
  · cases hn

theorem Stores.holding (h : Holding s) {m : Manager.State} {x : Store}
    {module : Manager.LoadedModule} (hn : Stores s m x module t) : Holding t := by
  obtain ⟨hchildrens,hmodules,hid⟩ := hn.same
  have hkeys : m.keys=s.manager.keys := congrArg (List.map _) hchildrens
  have hnd : m.keys.Nodup := hkeys ▸ h.nodup
  have howns : Owns s.heap (owners m s.ended (module.handle::t.transits)) := by
    apply h.owns.congr
    intro i
    rw [← owners_perm hn.transits]
    exact owners_congr (congrArg (List.map _) hchildrens) hmodules i
  obtain ⟨hnd',hfresh⟩ := store_keys hnd (by rw [hkeys,hid]; exact h.fresh) module x
  refine ⟨hn.manager ▸ hnd',hn.manager ▸ hfresh,?_,?_⟩
  · rw [hn.heap,hn.manager,hn.ended]
    exact howns.store hnd (hmodules ▸ h.next_not_ended) module.path x hn.child
  · intro serial hserial
    rw [hn.ended] at hserial
    obtain ⟨l,hl⟩ := store_launches m module x
    have hlt := h.ended serial hserial
    rw [hn.manager,hl,hmodules,List.length_append]
    omega

theorem Stores.framed (h : Framed s) {m : Manager.State} {x : Store}
    {module : Manager.LoadedModule} (hn : Stores s m x module t) : Framed t := by
  obtain ⟨l,hl⟩ := store_launches m module x
  exact h.launches hn.frames hn.ended hn.instances (by rw [hn.manager,hl,hn.same.2.1])

/-- The first load stores its creator, or changes neither children nor launches. -/
theorem loadNext_cases (hn : loadNext s=some t) :
    (∃ m,SameChildren s.manager m ∧ t={s with manager := m}) ∨
      ∃ m x module,Stores s m x module t := by
  unfold loadNext at hn
  split at hn
  · rename_i hs _
    obtain ⟨m,hm,rfl⟩ := Option.map_eq_some_iff.mp hn
    simp only [loaded,Manager.load,Members.startup,hs,Option.some.injEq] at hm
    exact Or.inl ⟨m,hm ▸ ⟨rfl,rfl,rfl⟩,rfl⟩
  · rename_i hs _
    obtain ⟨m,hm,rfl⟩ := Option.map_eq_some_iff.mp hn
    simp only [loaded,Manager.load,Members.startup,hs,Option.some.injEq] at hm
    exact Or.inl ⟨m,hm ▸ ⟨rfl,rfl,rfl⟩,rfl⟩
  · rename_i config e rest batch n hs hloading
    obtain ⟨m,hm,rfl⟩ := Option.map_eq_some_iff.mp hn
    simp only [loaded,Manager.load,Members.startup,hs,Manager.generateCreator,Option.map_some,
      Option.some.injEq] at hm
    subst hm
    refine Or.inr ⟨{s.manager with
        startup := .entries config rest (batch++[s.manager.coroutines.length])},
      .emplace e.1.moduleName,⟨config.path e.1,n⟩,⟨rfl,rfl,rfl⟩,by simp,rfl,rfl,?_,rfl,rfl,rfl⟩
    simp [State.transits,hloading]
  · cases hn

/-- A step of the manager's model that handles no message and loads nothing. -/
theorem next_keeps {m t : Manager.State} {a : Manager.Action} (hn : Manager.next m a=some t)
    (ha : ∀ o,a≠.handle o) (hl : ∀ o,a≠.load o) : SameChildren m t := by
  have hquiet := (next_cases hn).quiet ha hl
  have ho := congrArg (List.map Prod.snd) ((next_cases hn).origins ha hl)
  simp only [State.origins,List.map_map] at ho
  exact ⟨hquiet.childrens,ho,hquiet.nextId⟩

/-- Everything that a step of a coroutine can do. -/
theorem actor_cases {serial : Nat} {step : ActorStep} (hn : actor s serial step=some t) :
    ∃ m,Manager.next s.manager (.actor serial step)=some m ∧
      (t={s with manager := m} ∨
        (s.frames serial=.suspended ∧
          t={s with manager := m, frames := Function.update s.frames serial .finishing}) ∨
        ∃ n,s.frames serial=.suspended ∧ s.module serial=some n ∧
          t={s with
            manager := m
            frames := Function.update s.frames serial (.running s.instances.length)
            instances := s.instances++[⟨serial,n,[]⟩]}) := by
  unfold actor at hn
  split at hn
  · rename_i m n hm hmodule
    refine ⟨m,hm,?_⟩
    split at hn
    · rename_i hf
      split_ifs at hn
      exact Or.inr (Or.inr ⟨n,hf,hmodule,(Option.some.inj hn).symm⟩)
    · rename_i hf
      exact Or.inr (Or.inl ⟨hf,(Option.some.inj hn).symm⟩)
    · exact Or.inl (Option.some.inj hn).symm
    · exact Or.inl (Option.some.inj hn).symm
    · exact Or.inl (Option.some.inj hn).symm
    · exact Or.inl (Option.some.inj hn).symm
    · cases hn
  · cases hn

theorem Holding.actor (h : Holding s) {serial : Nat} {step : ActorStep}
    (hn : actor s serial step=some t) : Holding t := by
  obtain ⟨m,hm,ht⟩ := actor_cases hn
  obtain ⟨hc,hmodules,hid⟩ := next_keeps hm (by simp) (by simp)
  rcases ht with rfl | ⟨-,rfl⟩ | ⟨n,-,-,rfl⟩ <;> exact h.quiet hc hmodules hid rfl rfl rfl

/-- A frame that starts leaves the others where they are. -/
theorem Framed.others (h : Framed s) {serial : Nat} (hf : s.frames serial=.suspended)
    (pc : FramePc) :
    (∀ x∈s.ended,Function.update s.frames serial pc x=.finishing) ∧
      ∀ a x,s.instances[a]?=some x → s.module x.serial=some x.module ∧
        ((x.destroys=[] ∧ Function.update s.frames serial pc x.serial=.running a) ∨
          (x.destroys=[x.module] ∧ Function.update s.frames serial pc x.serial=.finishing)) := by
  have other {x : Nat} (hx : s.frames x≠.suspended) :
      Function.update s.frames serial pc x=s.frames x := by
    apply Function.update_of_ne
    intro hxs
    exact hx (hxs ▸ hf)
  constructor
  · intro x hx
    have hfinishing := h.ended x hx
    exact (other (by simp [hfinishing])).trans hfinishing
  · intro a x hx
    obtain ⟨hm,⟨hd,hx⟩ | ⟨hd,hx⟩⟩ := h.actors a x hx
    · exact ⟨hm,Or.inl ⟨hd,(other (by simp [hx])).trans hx⟩⟩
    · exact ⟨hm,Or.inr ⟨hd,(other (by simp [hx])).trans hx⟩⟩

theorem Framed.startNull (h : Framed s) {serial : Nat} (hf : s.frames serial=.suspended) :
    Framed {s with frames := Function.update s.frames serial .finishing} := by
  obtain ⟨hended,hactors⟩ := h.others hf .finishing
  refine ⟨hended,hactors,?_⟩
  intro x a hx
  change Function.update s.frames serial .finishing x=.running a at hx
  have hxs : x≠serial := by
    rintro rfl
    simp at hx
  rw [Function.update_of_ne hxs] at hx
  exact h.running x a hx

/-- A new instance belongs to a frame that had none. -/
theorem Framed.start (h : Framed s) {serial n : Nat} (hf : s.frames serial=.suspended)
    (hm : s.module serial=some n) :
    Framed {s with
      frames := Function.update s.frames serial (.running s.instances.length)
      instances := s.instances++[⟨serial,n,[]⟩]} := by
  obtain ⟨hended,hactors⟩ := h.others hf (.running s.instances.length)
  refine ⟨hended,?_,?_⟩
  · intro a x hx
    change (s.instances++[⟨serial,n,[]⟩])[a]?=some x at hx
    rcases Nat.lt_trichotomy a s.instances.length with ha | rfl | ha
    · rw [List.getElem?_append_left ha] at hx
      exact hactors a x hx
    · simp only [List.getElem?_concat_length,Option.some.injEq] at hx
      subst hx
      exact ⟨hm,Or.inl ⟨rfl,Function.update_self ..⟩⟩
    · rw [List.getElem?_eq_none (by simp; omega)] at hx
      cases hx
  · intro x a hx
    change Function.update s.frames serial (.running s.instances.length) x=.running a at hx
    by_cases hxs : x=serial
    · rw [hxs,Function.update_self] at hx
      cases hx
      exact ⟨⟨serial,n,[]⟩,List.getElem?_concat_length,hxs.symm⟩
    · rw [Function.update_of_ne hxs] at hx
      obtain ⟨y,hy,hyx⟩ := h.running x a hx
      obtain ⟨hlt,-⟩ := List.getElem?_eq_some_iff.mp hy
      exact ⟨y,(List.getElem?_append_left hlt).trans hy,hyx⟩

theorem Framed.actor (h : Framed s) {serial : Nat} {step : ActorStep}
    (hn : actor s serial step=some t) : Framed t := by
  obtain ⟨m,hm,ht⟩ := actor_cases hn
  have hmodules := (next_keeps hm (by simp) (by simp)).2.1
  rw [← List.append_nil s.manager.modules] at hmodules
  rcases ht with rfl | ⟨hf,rfl⟩ | ⟨n,hf,hmodule,rfl⟩
  · exact h.launches rfl rfl rfl hmodules
  · exact (h.startNull hf).launches rfl rfl rfl hmodules
  · exact (h.start hf hmodule).launches rfl rfl rfl hmodules

theorem destroy_cases {serial : Nat} (hn : destroy s serial=some t) :
    ∃ c a,s.manager.coroutines[serial]?=some c ∧ s.frames serial=.running a ∧
      t={s with
        frames := Function.update s.frames serial .finishing
        instances := s.instances.modify a fun x =>
          {x with destroys := x.destroys++[c.module.handle]}} := by
  unfold destroy at hn
  split at hn
  · rename_i c a hc hf
    split_ifs at hn
    exact ⟨c,a,hc,hf,(Option.some.inj hn).symm⟩
  · cases hn

/-- The instance that a frame runs with is its own, from its own library and not destroyed. -/
theorem Framed.of_running (h : Framed s) {serial a : Nat} {c : Coroutine}
    (hf : s.frames serial=.running a) (hc : s.manager.coroutines[serial]?=some c) :
    ∃ x,s.instances[a]?=some x ∧ x.serial=serial ∧ x.module=c.module.handle ∧ x.destroys=[] := by
  obtain ⟨x,hx,rfl⟩ := h.running serial a hf
  obtain ⟨hm,hrun⟩ := h.actors a x hx
  refine ⟨x,hx,rfl,?_,?_⟩
  · simp only [State.module,State.modules,List.getElem?_map,hc,Option.map_some,
      Option.some.injEq] at hm
    exact hm.symm
  · rcases hrun with ⟨hd,-⟩ | ⟨-,hx⟩
    · exact hd
    · cases hf.symm.trans hx

/-- A frame destroys the instance it runs with, by the function of its own library. -/
theorem Framed.destroy (h : Framed s) {serial : Nat} (hn : destroy s serial=some t) :
    Framed t := by
  obtain ⟨c,a,hc,hf,rfl⟩ := destroy_cases hn
  obtain ⟨y,hy,hserial,hmodule,hnil⟩ := h.of_running hf hc
  have hself : Function.update s.frames serial .finishing serial=.finishing :=
    Function.update_self ..
  refine ⟨?_,?_,?_⟩
  · intro x hx
    have hfinishing := h.ended x hx
    by_cases hxs : x=serial
    · exact hxs ▸ hself
    · exact (Function.update_of_ne hxs ..).trans hfinishing
  · intro b x hx
    obtain ⟨z,hz,hb⟩ := Cell.modify_cases hx
    obtain ⟨hm,hrun⟩ := h.actors b z hz
    rcases hb with ⟨hba,rfl⟩ | ⟨rfl,rfl⟩
    · refine ⟨hm,?_⟩
      rcases hrun with ⟨hd,hx⟩ | ⟨hd,hx⟩
      · -- another instance of this frame would have to be the one it runs with
        have hne : x.serial≠serial := by
          intro hs
          rw [hs,hf] at hx
          exact hba (FramePc.running.inj hx).symm
        exact Or.inl ⟨hd,(Function.update_of_ne hne ..).trans hx⟩
      · refine Or.inr ⟨hd,?_⟩
        by_cases hs : x.serial=serial
        · exact hs ▸ hself
        · exact (Function.update_of_ne hs ..).trans hx
    · cases hy.symm.trans hz
      exact ⟨hm,Or.inr ⟨by simp [hnil,hmodule],hserial ▸ hself⟩⟩
  · intro x b hx
    change Function.update s.frames serial .finishing x=.running b at hx
    have hxs : x≠serial := by
      rintro rfl
      simp at hx
    rw [Function.update_of_ne hxs] at hx
    obtain ⟨z,hz,hzx⟩ := h.running x b hx
    have hba : a≠b := by
      rintro rfl
      cases hy.symm.trans hz
      exact hxs (hzx.symm.trans hserial)
    exact ⟨z,by simp [hba,hz],hzx⟩

theorem Holding.destroy (h : Holding s) {serial : Nat} (hn : destroy s serial=some t) :
    Holding t := by
  obtain ⟨c,a,-,-,rfl⟩ := destroy_cases hn
  exact h.quiet rfl rfl rfl rfl rfl rfl

theorem frameEnd_cases {serial : Nat} (hn : frameEnd s serial=some t) :
    ∃ c,s.manager.coroutines[serial]?=some c ∧ s.frames serial=.finishing ∧ serial∉s.ended ∧
      t={s with
        heap := s.heap.drop c.module.handle
        ended := insert serial s.ended} := by
  unfold frameEnd at hn
  split at hn
  · rename_i c hc
    split_ifs at hn with hguard
    exact ⟨c,hc,hguard.2.1,hguard.2.2,(Option.some.inj hn).symm⟩
  · cases hn

theorem Holding.frameEnd (h : Holding s) {serial : Nat} (hn : frameEnd s serial=some t) :
    Holding t := by
  obtain ⟨c,hc,-,hend,rfl⟩ := frameEnd_cases hn
  refine ⟨h.nodup,h.fresh,h.owns.drop (owners_ended hc hend),?_⟩
  intro x hx
  rcases Finset.mem_insert.mp hx with rfl | hx
  · obtain ⟨hlt,-⟩ := List.getElem?_eq_some_iff.mp hc
    simpa [State.modules] using hlt
  · exact h.ended x hx

theorem Framed.frameEnd (h : Framed s) {serial : Nat} (hn : frameEnd s serial=some t) :
    Framed t := by
  obtain ⟨c,-,hf,-,rfl⟩ := frameEnd_cases hn
  refine ⟨?_,h.actors,h.running⟩
  intro x hx
  rcases Finset.mem_insert.mp hx with rfl | hx
  · exact hf
  · exact h.ended x hx

theorem destruct_cases (hn : destruct s=some t) :
    t={s with
      manager := {s.manager with childrens := []}
      heap := (s.manager.creators.map (·.handle)).foldl Heap.drop s.heap} := by
  unfold destruct at hn
  split_ifs at hn
  exact (Option.some.inj hn).symm

theorem Holding.destruct (h : Holding s) (hn : destruct s=some t) : Holding t := by
  obtain rfl := destruct_cases hn
  refine ⟨List.nodup_nil,by simp [State.keys],?_,h.ended⟩
  apply Owns.foldl_drop
  apply h.owns.congr
  intro i
  have hcount : (s.manager.creators.map (·.handle)).count i=
      s.manager.creators.countP (·.handle=i) := by
    rw [List.count,List.countP_map]
    apply List.countP_congr
    intro x _
    simp
  rw [hcount]
  simp only [owners,State.creators,State.modules,State.transits,List.map_nil,List.countP_nil]
  omega

theorem done_cases (hn : done s=some t) :
    ∃ b,t={s with manager := finish s.manager b, job := none} := by
  unfold done at hn
  split at hn
  · rename_i b _
    exact ⟨b,(Option.some.inj hn).symm⟩
  · cases hn

theorem finish_keeps (m : Manager.State) (b : Bool) :
    SameChildren m (finish m b) := by
  cases b <;> exact ⟨rfl,rfl,rfl⟩

structure Inv (s : State) : Prop where
  holding : Holding s
  framed : Framed s

/-- A step that changes nothing but the manager's own state. -/
theorem Inv.manager (h : Inv s) {m : Manager.State} {job : Option Job}
    (hm : SameChildren s.manager m) : Inv {s with manager := m, job := job} := by
  obtain ⟨hc,hmodules,hid⟩ := hm
  refine ⟨h.holding.quiet hc hmodules hid rfl rfl rfl,?_⟩
  rw [← List.append_nil s.manager.modules] at hmodules
  exact h.framed.launches rfl rfl rfl hmodules

theorem Inv.next (h : Inv s) {a : Action} (hn : next s a=some t) : Inv t := by
  cases a with
  | loadOpen l => exact ⟨h.holding.opens (loadOpen_cases hn),h.framed.opens (loadOpen_cases hn)⟩
  | loadNext =>
    rcases loadNext_cases hn with ⟨m,hm,rfl⟩ | ⟨m,x,module,hstores⟩
    · exact h.manager hm
    · exact ⟨hstores.holding h.holding,hstores.framed h.framed⟩
  | take o => exact ⟨h.holding.take hn,h.framed.take hn⟩
  | openNext l => exact ⟨h.holding.opens (openNext_cases hn),h.framed.opens (openNext_cases hn)⟩
  | store =>
    obtain ⟨x,module,hstores⟩ := store_cases hn
    exact ⟨hstores.holding h.holding,hstores.framed h.framed⟩
  | done =>
    obtain ⟨b,rfl⟩ := done_cases hn
    exact h.manager (finish_keeps s.manager b)
  | other a =>
    have other (ha : ∀ o,a≠.handle o) (hl : ∀ o,a≠.load o)
        (hmap : (Manager.next s.manager a).map (fun m => {s with manager := m})=some t) :
        Inv t := by
      obtain ⟨m,hm,rfl⟩ := Option.map_eq_some_iff.mp hmap
      exact h.manager (next_keeps hm ha hl)
    cases a with
    | load o | handle o => cases hn
    | actor serial step => exact ⟨h.holding.actor hn,h.framed.actor hn⟩
    | reloadModule | removeModule | shutdown | clearRunning | sendExit | post | postManager =>
      exact other (by simp) (by simp) hn
  | destroy serial => exact ⟨h.holding.destroy hn,h.framed.destroy hn⟩
  | frameEnd serial => exact ⟨h.holding.frameEnd hn,h.framed.frameEnd hn⟩
  | destruct =>
    refine ⟨h.holding.destruct hn,?_⟩
    obtain rfl := destruct_cases hn
    exact h.framed.launches rfl rfl rfl (List.append_nil _).symm

theorem start_inv (config : AcConfig) : Inv (start config) := by
  refine ⟨⟨List.nodup_nil,by simp [start,init,State.keys],⟨?_,by simp [Cell.Kept,start]⟩,?_⟩,?_⟩
  · apply Cell.Balanced.nil.congr
    intro i
    simp [owners,start,init,State.creators,State.modules,State.transits]
  · simp [start]
  · exact ⟨by simp [start],by simp [start],by simp [start]⟩

theorem reachable_inv (h : machine.Reachable s) : Inv s := by
  refine h.invariant ?_ fun _ _ _ hs hn _ => hs.next hn
  intro s₀ hstart
  obtain ⟨config,rfl⟩ := hstart
  exact start_inv config

/-- Somebody refers to an object: the creator of a child, a creator in transit, or a frame. -/
def Referred (s : State) (n : Nat) : Prop :=
  (∃ c∈s.manager.childrens,c.creator.handle=n) ∨ n∈s.transits ∨
    ∃ serial,s.module serial=some n ∧ serial∉s.ended

theorem owners_eq_zero (s : State) (n : Nat) :
    owners s.manager s.ended s.transits n=0 ↔ ¬Referred s n := by
  simp only [owners,Nat.add_eq_zero_iff,List.countP_eq_zero,List.count_eq_zero,Referred,not_or]
  constructor
  · intro h
    obtain ⟨⟨hcreators,hframes⟩,htransit⟩ := h
    refine ⟨?_,?_,?_⟩
    · intro hc
      obtain ⟨c,hc,hn⟩ := hc
      exact hcreators c.creator (List.mem_map_of_mem hc) (by simpa using hn)
    · exact htransit
    · intro hf
      obtain ⟨serial,hm,hend⟩ := hf
      obtain ⟨module,hmodule,hn⟩ := Option.map_eq_some_iff.mp hm
      exact hframes (module,serial) (List.mem_zipIdx_iff_getElem?.mpr hmodule)
        (by simp [hn,hend])
  · intro h
    obtain ⟨hcreators,htransit,hframes⟩ := h
    refine ⟨⟨?_,?_⟩,htransit⟩
    · intro m hm hn
      obtain ⟨c,hc,rfl⟩ := List.mem_map.mp hm
      exact hcreators ⟨c,hc,by simpa using hn⟩
    · intro x hx hn
      simp only [Bool.and_eq_true,decide_eq_true_eq] at hn
      refine hframes ⟨x.2,?_,hn.2⟩
      simp [State.module,List.mem_zipIdx_iff_getElem?.mp hx,hn.1]

/-- No actor outlives its library. -/
structure Safe (s : State) : Prop where
  mapped : ∀ x∈s.instances,x.destroys=[] → ∃ c,s.heap[x.module]?=some c ∧ c.content.IsOpen
  destroyed : ∀ x∈s.instances,x.destroys=[] ∨ x.destroys=[x.module]
  before : ∀ x∈s.instances,x.serial∈s.ended → x.destroys=[x.module]
  closed : ∀ n c,s.heap[n]?=some c → 0 < c.content.opened →
    c.content.opened=1 ∧ c.content.closed ≤ 1 ∧ (c.content.closed=1 ↔ ¬Referred s n)
  failed : ∀ l t,(next s (.openNext l)=some t ∧ t.transit=none) ∨
      (next s (.loadOpen l)=some t ∧ t.loading=none) →
    ∃ c,t.heap=s.heap++[c] ∧ c.content.handle=none ∧ c.content.opened=c.content.closed

/-- In every run of the manager, with frames of earlier launches at any point of theirs, an
instance that is not destroyed has its library open, and it is destroyed once, by that library
and before its frame ends. A library is closed once, when the last creator and the last frame
that refer to it are gone, and one that does not open is not left open. -/
theorem actor_in_library (h : machine.Reachable s) : Safe s := by
  obtain ⟨hholding,hframed⟩ := reachable_inv h
  refine ⟨?_,?_,?_,?_,?_⟩
  · intro x hx hd
    obtain ⟨a,ha⟩ := List.mem_iff_getElem?.mp hx
    obtain ⟨hm,hrun⟩ := hframed.actors a x ha
    have hf : s.frames x.serial=.running a := by
      rcases hrun with ⟨-,hf⟩ | ⟨hd',-⟩
      · exact hf
      · rw [hd] at hd'
        cases hd'
    have hend : x.serial∉s.ended := by
      intro hmem
      cases hf.symm.trans (hframed.ended _ hmem)
    exact hholding.owns.isOpen (owners_frame hm hend)
  · intro x hx
    obtain ⟨a,ha⟩ := List.mem_iff_getElem?.mp hx
    exact (hframed.actors a x ha).2.imp And.left And.left
  · intro x hx hend
    obtain ⟨a,ha⟩ := List.mem_iff_getElem?.mp hx
    rcases (hframed.actors a x ha).2 with ⟨-,hf⟩ | ⟨hd,-⟩
    · cases hf.symm.trans (hframed.ended _ hend)
    · exact hd
  · intro n c hc hopened
    obtain ⟨hone,hclosed⟩ := hholding.owns.closed_iff hc hopened
    rw [← owners_eq_zero]
    split_ifs at hclosed with hn
    · exact ⟨hone,by omega,by simp [hclosed,hn]⟩
    · exact ⟨hone,by omega,by simp [hclosed,hn]⟩
  · intro l t hn
    rcases hn with ⟨hn,hnone⟩ | ⟨hn,hnone⟩
    · exact Opens.failed hholding (hnone ▸ openNext_cases hn)
    · exact Opens.failed hholding (hnone ▸ loadOpen_cases hn)

section Runs

/-- One module, whose library has the given name. -/
def configured (library : String) : AcConfig := ⟨"lib",[⟨"a",library⟩]⟩

def reading (library : String) : Outcome := ⟨some (configured library),fun _ => none,fun _ => 0⟩

/-- The module is loaded and starts, is told to reload from another library, stops and has sent
its exit event; the next launch starts before the frame of the first has ended. -/
def overlapping : List Action :=
  [[.loadNext,.loadOpen finding,.loadNext,.loadNext,.other (.actor 0 .start)],
    [.other (.reloadModule "a"),.take (reading "second"),.done],
    [.other (.actor 0 (.receive false)),.destroy 0,.other (.actor 0 .exit)],
    [.take (reading "second"),.openNext finding,.store,.done,.other (.actor 1 .start)]].flatten

theorem actor_in_library_overlapping :
    ∃ s,machine.Reachable s ∧ s.ended=∅ ∧ s.instances=[⟨0,0,[0]⟩,⟨1,1,[]⟩] ∧
      ∃ c,s.heap[1]?=some c ∧ c.content.IsOpen := by
  obtain ⟨s,hs,hp⟩ := machine.exists_reachableBy Machine.anyStep overlapping
    (fun s => decide (s.ended=∅ ∧ s.instances=[⟨0,0,[0]⟩,⟨1,1,[]⟩]))
    ⟨configured "first",rfl⟩ (by decide +kernel)
  obtain ⟨hended,hinstances⟩ := of_decide_eq_true hp
  refine ⟨s,hs,hended,hinstances,?_⟩
  exact (actor_in_library hs).mapped ⟨1,1,[]⟩ (by simp [hinstances]) rfl

end Runs

end Acnet.Manager.Library
