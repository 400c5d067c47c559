import Acnet.Manager.Relaunch

namespace Acnet.Manager

/-- The configuration lists the module of every child. -/
def Lists (b : State) (config : AcConfig) : Prop :=
  ∀ c∈b.childrens,∃ mod∈config.modules,mod.moduleName=c.moduleName

/-- What a step after `b` is granted: the manager runs, the configuration can be read and goes
on listing the children of `b`, and all its libraries open. -/
def Supplied (b x : State) (a : Action) (y : State) : Prop :=
  y.isRunning=true ∧ Lists b y.config ∧
    OnHandle (fun o m => (m.type=.cmdModuleReload → o.config.isSome=true) ∧
      ∀ k<y.config.modules.length,(o.opened k).isSome=true) x a

/-- The exits of all coroutines that the children had in `b` are handled. -/
def Exited (b x : State) : Prop :=
  ∀ c∈x.coroutines.take b.coroutines.length,c.actorId∈b.keys → c.live=false

/-- No reload command is handled while a child of `b` that has exited waits for the others, nor a
further reload-all between the first launch and the last exit; and where an exit completes a
reload-all, the children's names are pairwise distinct. -/
def Undisturbed (b x : State) (a : Action) : Prop :=
  OnHandle (fun _ m =>
    (m.type=.cmdModuleReload →
      (∀ c∈b.childrens,Live x c.actorId ∨ Relaunched b x c.actorId) ∧
      (m.payload="all" → x.coroutines.length=b.coroutines.length ∨ Exited b x)) ∧
    (CompletesReloadAll x m → (x.childrens.map (·.moduleName)).Nodup)) x a

/-- No child of `b` was launched since `b`, though the first load may have added others, and the
reload waits for the coroutines that are live. -/
structure Waiting (b x : State) : Prop where
  length : b.coroutines.length ≤ x.coroutines.length
  others : ∀ id∈b.keys,¬Relaunched b x id
  same : x.coroutines.length=b.coroutines.length → x.childrens=b.childrens
  childrens : ∀ c∈b.childrens,c∈x.childrens
  pending : ∀ id,id∈x.pendingReload ↔ id∈b.keys ∧ Live x id
  nonempty : x.pendingReload≠∅
  single : ∀ id∈b.keys,liveCount x id ≤ 1
  flag : x.reloadAllFlag=false → ∀ id∈b.keys,Live x id

/-- A child of `b` that its own exit will relaunch. -/
structure Due (x : State) (c : ActorMetaData) : Prop where
  pending : c.actorId∈x.pendingReload
  live : Live x c.actorId
  child : ∃ d∈x.childrens,d.actorId=c.actorId ∧ d.moduleName=c.moduleName

/-- The children of `b` are relaunched one by one. -/
structure Singly (b x : State) : Prop where
  flag : x.reloadAllFlag=false
  grown : b.coroutines.length<x.coroutines.length
  each : ∀ c∈b.childrens,Relaunched b x c.actorId ∨ Due x c

def AllRelaunched (b x : State) : Prop := ∀ c∈b.childrens,Relaunched b x c.actorId

/-- How far a reload of all children of `b` has come. -/
inductive Progress (b x : State) : Prop
  | waiting (h : Waiting b x)
  | singly (h : Singly b x)
  | done (h : AllRelaunched b x)

section Launches

variable {b s t : State} {o : Outcome} {m : EventMessage}

theorem Relaunched.of_le {id : Nat} (h : Relaunched s t id)
    (hle : b.coroutines.length ≤ s.coroutines.length) : Relaunched b t id := by
  obtain ⟨c,hc,hid⟩ := h
  exact ⟨c,List.drop_subset_drop_left _ hle hc,hid⟩

theorem Relaunched.length_lt {id : Nat} (h : Relaunched s t id) :
    s.coroutines.length<t.coroutines.length := by
  obtain ⟨c,hc,_⟩ := h
  have := List.length_pos_of_mem hc
  rw [List.length_drop] at this
  omega

theorem Lists.entry {config : AcConfig} (h : Lists b config) {c : ActorMetaData}
    (hc : c∈b.childrens) : ∃ e∈config.modules.zipIdx,e.1.moduleName=c.moduleName := by
  obtain ⟨mod,hmod,hname⟩ := h c hc
  obtain ⟨k,hk⟩ := List.mem_iff_getElem?.mp hmod
  exact ⟨(mod,k),List.mk_mem_zipIdx_iff_getElem?.mpr hk,hname⟩

theorem opened_of_mem {config : AcConfig}
    (h : ∀ k<config.modules.length,(o.opened k).isSome=true) {e : AcModule×Nat}
    (he : e∈config.modules.zipIdx) : (o.opened e.2).isSome=true :=
  h e.2 (List.getElem?_eq_some_iff.mp (List.mk_mem_zipIdx_iff_getElem?.mp he)).1

/-- The exit of a child that is listed and to be reloaded by itself relaunches it. -/
theorem reloadModule_listed {c d : ActorMetaData} {id : Nat} (hs : Ledger s)
    (hd : s.find id=some d) (hc : c∈b.childrens) (hname : d.moduleName=c.moduleName)
    (hlists : Lists b s.config) (hopen : ∀ k<s.config.modules.length,(o.opened k).isSome=true) :
    Relaunched s (reloadModule o s id d.moduleName) id := by
  rw [reloadModule_relaunched hs (find_isSome.mp (by simp [hd]))]
  obtain ⟨e,he,hen⟩ := hlists.entry hc
  unfold Openable
  cases hf : s.config.modules.zipIdx.find? (·.1.moduleName=d.moduleName) with
  | none =>
    have hnone := List.find?_eq_none.mp hf e he
    simp [hen,hname] at hnone
  | some e => exact ⟨e,rfl,opened_of_mem hopen (List.mem_of_find?_eq_some hf)⟩

/-- With distinct names every listed child is relaunched at the end of a reload-all. -/
theorem reloadAllModules_listed {c : ActorMetaData} (hs : Ledger s) (hc : c∈s.childrens)
    (hb : c∈b.childrens) (hnames : (s.childrens.map (·.moduleName)).Nodup)
    (hlists : Lists b s.config) (hopen : ∀ k<s.config.modules.length,(o.opened k).isSome=true) :
    Relaunched s (reloadAllModules o s) c.actorId := by
  rw [reloadAllModules_relaunched hs (mem_keys hc)]
  obtain ⟨e,he,hen⟩ := hlists.entry hb
  refine ⟨e,he,opened_of_mem hopen he,?_⟩
  cases hf : firstNamed o e.2 s.childrens e.1.moduleName with
  | none => exact absurd hen.symm (firstNamed_none hf c hc)
  | some d =>
    obtain ⟨hd,hdn⟩ := firstNamed_mem hf
    have hdc : d=c := List.inj_on_of_nodup_map hnames hd hc (hdn.trans hen)
    simp [firstId,hf,hdc]

end Launches

theorem Dispatch.live {o : Outcome} {s t : State} {m : EventMessage} (h : Dispatch o s m t)
    {id : Nat} (hl : Live s id) : Live t id := by
  obtain ⟨l,hc⟩ := h.coroutines
  obtain ⟨c,hmem,hrest⟩ := hl
  exact ⟨c,hc ▸ List.mem_append_left _ hmem,hrest⟩

theorem Due.dispatch {o : Outcome} {x v : State} {m : EventMessage} {rest : List EventMessage}
    {c : ActorMetaData} (h : Due x c) (hx : Ledger x) (head : x.mailbox.messages=m::rest)
    (hd : Dispatch o (taken x m rest) m v) (hne : m.type=.moduleExited → c.actorId≠m.senderId) :
    Due v c where
  pending := hd.mem_pendingReload h.pending hne
  live := hd.live (hx.live_taken head h.live hne)
  child := by
    obtain ⟨d,hmem,hid,hname⟩ := h.child
    obtain ⟨e,he,heid,hen⟩ := hd.childrens hmem fun ht => hid ▸ hne ht
    exact ⟨e,he,heid.trans hid,hen.trans hname⟩

namespace Waiting

variable {b s t : State} {o : Outcome} {m : EventMessage}

theorem due (h : Waiting b s) (hall : ∀ id∈b.keys,Live s id) {c : ActorMetaData}
    (hc : c∈b.childrens) : Due s c where
  pending := (h.pending _).mpr ⟨mem_keys hc,hall _ (mem_keys hc)⟩
  live := hall _ (mem_keys hc)
  child := ⟨c,h.childrens c hc,rfl,rfl⟩

/-- A live coroutine of a child of `b` is one that it had in `b`. -/
theorem not_exited (h : Waiting b s) {id : Nat} (hid : id∈b.keys) (hl : Live s id) :
    ¬Exited b s := by
  intro hexit
  obtain ⟨d,hd,rfl,hdl⟩ := hl
  rw [← List.take_append_drop b.coroutines.length s.coroutines] at hd
  rcases List.mem_append.mp hd with hd | hd
  · exact absurd (hdl.symm.trans (hexit d hd hid)) (by decide)
  · exact h.others _ hid ⟨d,hd,rfl⟩

theorem keys (h : Waiting b s) (hs : s.coroutines.length=b.coroutines.length) :
    s.keys=b.keys := by
  rw [State.keys,State.keys,h.same hs]

/-- Another child than those of `b` is there only once something was launched. -/
theorem grown (h : Waiting b s) {id : Nat} (hid : id∈s.keys) (hb : id∉b.keys) :
    b.coroutines.length<s.coroutines.length := by
  refine lt_of_le_of_ne h.length fun he => ?_
  rw [h.keys he.symm] at hid
  exact hb hid

/-- A reload command that finds all children live only adds to what the reload waits for. -/
theorem request (h : Waiting b s) (hall : ∀ id∈b.keys,Live s id)
    (hc : t.coroutines=s.coroutines) (hch : t.childrens=s.childrens)
    (hsub : s.pendingReload⊆t.pendingReload) (hkeys : ∀ id∈t.pendingReload,id∈b.keys) :
    Waiting b t where
  length := by rw [hc]; exact h.length
  others id hid := by rw [Relaunched,hc]; exact h.others id hid
  same he := hch.trans (h.same (hc ▸ he))
  childrens := by rw [hch]; exact h.childrens
  pending id := by
    rw [Live,hc]
    constructor
    · intro hid
      exact ⟨hkeys id hid,hall id (hkeys id hid)⟩
    · intro hid
      exact hsub ((h.pending id).mpr hid)
  nonempty he := h.nonempty (Finset.subset_empty.mp (he ▸ hsub))
  single id hid := by
    rw [liveCount,hc]
    exact h.single id hid
  flag _ id hid := by
    rw [Live,hc]
    exact hall id hid

/-- A reload command that concerns another child leaves each child of `b` to its own exit. -/
theorem singly (h : Waiting b s) (hall : ∀ id∈b.keys,Live s id) (hf : t.reloadAllFlag=false)
    (hlen : b.coroutines.length<t.coroutines.length) (hc : s.coroutines⊆t.coroutines)
    (hch : s.childrens⊆t.childrens) (hsub : s.pendingReload⊆t.pendingReload) : Singly b t := by
  refine ⟨hf,hlen,fun c hcb => Or.inr ?_⟩
  obtain ⟨hp,⟨d,hd,hdl⟩,e,he,hid⟩ := h.due hall hcb
  exact ⟨hsub hp,⟨d,hc hd,hdl⟩,e,hch he,hid⟩

theorem command (h : Waiting b s) (hexit : m.type≠.cmdExit) (hexited : m.type≠.moduleExited)
    (hlive : m.type=.cmdModuleReload → ∀ id∈b.keys,Live s id)
    (hall : m.type=.cmdModuleReload → m.payload="all" →
      s.coroutines.length=b.coroutines.length)
    (hd : Dispatch o s m t) : Progress b t := by
  have hmem {id : Nat} (hid : id∈s.pendingReload) : id∈b.keys := ((h.pending id).mp hid).1
  cases hd with
  | ignore => exact .waiting h
  | exit type => exact absurd type hexit
  | reloadAll type update all some =>
    rw [stopAll_eq]
    refine .waiting (h.request (hlive type) rfl rfl Finset.subset_union_left fun id hid => ?_)
    rcases Finset.mem_union.mp hid with hid | hid
    · exact hmem hid
    · exact h.keys (hall type all) ▸ List.mem_toFinset.mp hid
  | loadAll type update all none =>
    rw [stopAll_eq] at none
    exact absurd (Finset.union_eq_empty.mp none).1 h.nonempty
  | @reloadOne config c type update one found =>
    have hc := mem_keys (firstNamed_mem found).1
    by_cases hcb : c.actorId∈b.keys
    · refine .waiting (h.request (hlive type) rfl rfl (Finset.subset_insert _ _) fun id hid => ?_)
      rcases Finset.mem_insert.mp hid with rfl | hid
      · exact hcb
      · exact hmem hid
    · exact .singly (h.singly (hlive type) rfl (h.grown hc hcb) (List.Subset.refl _)
        (List.Subset.refl _) (Finset.subset_insert _ _))
  | @reloadNew config type update one missing =>
    by_cases ho : Openable o config m.payload
    · obtain ⟨module,he⟩ :=
        reloadModule_new (s := {s with config := config, reloadAllFlag := false}) ho
      rw [he]
      refine .singly (h.singly (hlive type) rfl ?_ (List.subset_append_left _ _)
        (List.subset_append_left _ _) (Finset.Subset.refl _))
      have := h.length
      simp only [State.emplace,State.launch,List.length_append,List.length_singleton]
      omega
    · have he := reloadModule_of_not (s := {s with config := config, reloadAllFlag := false}) 0 ho
      rw [he]
      exact .waiting (h.request (hlive type) rfl rfl (Finset.Subset.refl _) fun _ => hmem)
  | remove | crash => exact .waiting {h with}
  | unknown type | barrier type | complete type | single type | restart type | erase type =>
    exact absurd type hexited

theorem live_iff_count {s : State} {id : Nat} : Live s id ↔ liveCount s id≠0 := by
  rw [ne_eq,liveCount_eq_zero,not_not]

/-- A step that concerns other children than those of `b`. -/
theorem other (h : Waiting b s) (new : List Nat)
    (hids : t.coroutines.map (·.actorId)=s.coroutines.map (·.actorId)++new)
    (hnew : ∀ id∈new,id∉b.keys) (hlive : ∀ id∈b.keys,liveCount t id=liveCount s id)
    (hch : ∀ c∈b.childrens,c∈t.childrens)
    (hsame : t.coroutines.length=b.coroutines.length → t.childrens=b.childrens)
    (hp : t.pendingReload=s.pendingReload) (hf : t.reloadAllFlag=s.reloadAllFlag) :
    Waiting b t := by
  have hlen := congrArg List.length hids
  simp only [List.length_append,List.length_map] at hlen
  have hl {id : Nat} (hid : id∈b.keys) : Live t id ↔ Live s id := by
    rw [live_iff_count,live_iff_count,hlive id hid]
  refine ⟨?_,fun id hid hr => ?_,hsame,hch,fun id => ?_,?_,fun id hid => ?_,fun hflag id hid => ?_⟩
  · exact h.length.trans (by omega)
  · rw [relaunched_iff,hids,List.drop_append_of_le_length (by simpa using h.length),
      List.mem_append] at hr
    rcases hr with hr | hr
    · exact h.others id hid (relaunched_iff.mpr hr)
    · exact hnew id hr hid
  · rw [hp,h.pending]
    exact and_congr_right fun hid => (hl hid).symm
  · rw [hp]
    exact h.nonempty
  · rw [hlive id hid]
    exact h.single id hid
  · exact (hl hid).mpr (h.flag (hf ▸ hflag) id hid)

/-- The first load adds a child. -/
theorem emplace (h : Waiting b s) (hs : Ledger s) (startup : Startup) (name : String)
    (module : LoadedModule) :
    Waiting b (State.emplace {s with startup := startup} name module) := by
  have hnew : s.nextId∉b.keys := by
    intro hid
    obtain ⟨c,hc,hce⟩ := List.mem_map.mp hid
    have := (hs.keys_lt _ (mem_keys (h.childrens c hc))).2
    omega
  refine h.other [s.nextId] List.map_append (by simpa using hnew) (fun id hid => ?_)
    (fun c hc => List.mem_append_left _ (h.childrens c hc)) (fun he => ?_) rfl rfl
  · have hne : id≠s.nextId := fun he => hnew (he ▸ hid)
    exact (liveCount_launch s s.nextId id module).trans (by rw [if_neg hne,Nat.add_zero])
  · have := h.length
    simp only [State.emplace,State.launch,List.length_append,List.length_singleton] at he
    omega

section Exit

variable {x v : State} {rest : List EventMessage}

/-- An exit that launches nothing leaves the reload waiting for the others. -/
theorem forget (h : Waiting b x) (hx : Ledger x) (head : x.mailbox.messages=m::rest)
    (type : m.type=.moduleExited) (hc : v.coroutines=(taken x m rest).coroutines)
    (hch : v.childrens=x.childrens) (hp : v.pendingReload=x.pendingReload.erase m.senderId)
    (hne : v.pendingReload≠∅) (hf : v.reloadAllFlag=true) : Waiting b v := by
  have hlive {id : Nat} (hid : id≠m.senderId) : Live v id ↔ Live x id := by
    rw [Live,hc]
    exact ⟨hx.live_of_taken head,fun hl => hx.live_taken head hl fun _ => hid⟩
  have hcount (id : Nat) : liveCount v id+(if id=m.senderId then 1 else 0)=liveCount x id := by
    rw [liveCount,hc]
    exact hx.liveCount_taken head type id
  have hlen : v.coroutines.length=x.coroutines.length := by rw [hc,taken_length]
  refine ⟨hlen ▸ h.length,fun id hid hr => ?_,fun he => hch.trans (h.same (hlen ▸ he)),
    hch ▸ h.childrens,fun id => ?_,hne,fun id hid => ?_,fun hflag => ?_⟩
  · rw [relaunched_iff,hc,taken_actorIds] at hr
    exact h.others id hid (relaunched_iff.mpr hr)
  · rw [hp,Finset.mem_erase,h.pending]
    by_cases hid : id=m.senderId
    · subst hid
      constructor
      · intro hmem
        exact absurd rfl hmem.1
      · rintro ⟨hk,hl⟩
        have hone := h.single _ hk
        have hsum := hcount m.senderId
        have hzero : liveCount v m.senderId=0 := by
          rw [if_pos rfl] at hsum
          omega
        exact absurd hl (liveCount_eq_zero.mp hzero)
    · rw [hlive hid]
      exact ⟨fun hmem => hmem.2,fun hmem => ⟨hid,hmem⟩⟩
  · have := h.single id hid
    have := hcount id
    omega
  · exact absurd (hf.symm.trans hflag) (by decide)

/-- The exit of a child that is not one of `b` and is not relaunched. -/
theorem exitedOther (h : Waiting b x) (hx : Ledger x) (head : x.mailbox.messages=m::rest)
    (type : m.type=.moduleExited) (hk : m.senderId∉b.keys) {new : List Coroutine}
    (hc : v.coroutines=(taken x m rest).coroutines++new)
    (hnew : ∀ c∈new,c.actorId=m.senderId)
    (hch : ∀ c∈b.childrens,c∈v.childrens)
    (hsame : x.coroutines.length=b.coroutines.length → v.childrens=b.childrens)
    (hp : v.pendingReload=x.pendingReload.erase m.senderId)
    (hf : v.reloadAllFlag=x.reloadAllFlag) : Waiting b v := by
  have hne (id : Nat) (hid : id∈b.keys) : id≠m.senderId := fun he => hk (he ▸ hid)
  have hzero (id : Nat) (hid : id∈b.keys) :
      new.countP (fun c => c.actorId=id && c.live)=0 := by
    rw [List.countP_eq_zero]
    intro c hcn
    simp [hnew c hcn,(hne id hid).symm]
  refine h.other (new.map (·.actorId)) ?_ ?_ (fun id hid => ?_) hch (fun he => ?_) ?_ hf
  · rw [hc,List.map_append,taken_actorIds]
  · intro id hid
    obtain ⟨c,hcn,rfl⟩ := List.mem_map.mp hid
    rw [hnew c hcn]
    exact hk
  · have hcount := hx.liveCount_taken head type id
    rw [if_neg (hne id hid),Nat.add_zero] at hcount
    rw [liveCount,hc,List.countP_append,hzero id hid,Nat.add_zero]
    exact hcount
  · refine hsame ?_
    have := h.length
    rw [hc,List.length_append,taken_length] at he
    omega
  · rw [hp]
    exact Finset.erase_eq_of_notMem fun hid => hk ((h.pending _).mp hid).1

theorem exited (h : Waiting b x) (hx : Ledger x) (head : x.mailbox.messages=m::rest)
    (type : m.type=.moduleExited) (hrun : x.isRunning=true) (hlists : Lists b v.config)
    (hopen : ∀ k<v.config.modules.length,(o.opened k).isSome=true)
    (hnames : CompletesReloadAll x m → (x.childrens.map (·.moduleName)).Nodup)
    (hd : Dispatch o (taken x m rest) m v) : Progress b v := by
  -- The sender was live, so the reload waits for it if it is a child of `b`.
  have hpending (hk : m.senderId∈b.keys) : m.senderId∈x.pendingReload := by
    obtain ⟨c,hc,hid,hp⟩ := hx.exits m (by simp [head]) type
    refine (h.pending _).mpr ⟨hk,c,List.mem_of_getElem? hc,hid,?_⟩
    simp [Coroutine.live,hp]
  have hkeys (id : Nat) (hid : id∈b.keys) : id∈x.keys := by
    obtain ⟨c,hc,rfl⟩ := List.mem_map.mp hid
    exact mem_keys (h.childrens c hc)
  have hle : b.coroutines.length ≤ ((taken x m rest).forget m.senderId).coroutines.length :=
    h.length.trans (taken_length x m rest).ge
  have hfl : Ledger ((taken x m rest).forget m.senderId) := (hx.take head).op (.forget _)
  cases hd with
  | ignore reload exit exited => exact absurd type exited
  | exit ht | reloadAll ht | loadAll ht | reloadOne ht | reloadNew ht | remove ht | crash ht =>
    exact absurd (type.symm.trans ht) (by decide)
  | unknown _ missing =>
    exact .waiting (h.exitedOther hx head type (fun hk => missing (hkeys _ hk))
      (List.append_nil _).symm (by simp) h.childrens h.same rfl rfl)
  | barrier _ child reload all wait =>
    exact .waiting (h.forget hx head type rfl rfl rfl wait all)
  | complete _ child reload all last =>
    refine .done fun c hc => ?_
    have hconf := (LaunchFrame.reloadAllModules o
      ((taken x m rest).forget m.senderId)).config
    rw [hconf] at hlists hopen
    have hl := reloadAllModules_listed hfl (h.childrens c hc) hc
      (hnames ⟨type,child,reload,all,last⟩) hlists hopen
    exact hl.of_le hle
  | @single d _ child reload one =>
    have hf := LaunchFrame.reloadModule o ((taken x m rest).forget m.senderId) m.senderId
      d.moduleName
    rw [hf.config] at hlists hopen
    obtain ⟨hdm,hdid⟩ := find_mem child
    have hk := ((h.pending _).mp reload.2).1
    obtain ⟨e,heb,heid⟩ := List.mem_map.mp hk
    have hde : d=e := List.inj_on_of_nodup_map hx.keys_nodup hdm (h.childrens e heb)
      (hdid.trans heid.symm)
    have hl := reloadModule_listed hfl child heb (hde ▸ rfl) hlists hopen
    refine .singly ⟨hf.reloadAllFlag.trans one,lt_of_le_of_lt hle hl.length_lt,?_⟩
    intro c hc
    by_cases hid : c.actorId=m.senderId
    · exact Or.inl (hid ▸ hl.of_le hle)
    · have hdue := h.due (h.flag one) hc
      exact Or.inr (hdue.dispatch hx head (.single type child reload one) fun _ => hid)
  | @restart d _ child restart =>
    obtain ⟨hdm,hdid⟩ := find_mem child
    have hk : m.senderId∉b.keys := fun hk => restart.2.1 (hpending hk)
    refine .waiting (h.exitedOther hx head type hk rfl ?_ h.childrens h.same rfl rfl)
    intro c hc
    obtain rfl := List.mem_singleton.mp hc
    exact hdid
  | erase _ child reload restart =>
    have hk : m.senderId∉b.keys := fun hk => reload ⟨hrun,hpending hk⟩
    refine .waiting (h.exitedOther hx head type hk (List.append_nil _).symm (by simp)
      (fun c hc => ?_) (fun he => ?_) rfl rfl)
    · refine List.mem_filter.mpr ⟨h.childrens c hc,?_⟩
      simpa using fun he : c.actorId=m.senderId => hk (he ▸ mem_keys hc)
    · exact absurd (h.keys he ▸ child) hk

end Exit

end Waiting

namespace Singly

variable {b x v : State} {o : Outcome} {m : EventMessage} {rest : List EventMessage}

/-- Once all first coroutines are gone, every child is relaunched. -/
theorem allRelaunched (h : Singly b x) (hexit : Exited b x) : AllRelaunched b x := by
  intro c hc
  rcases h.each c hc with hr | hdue
  · exact hr
  · obtain ⟨d,hd,hid,hl⟩ := hdue.live
    rw [← List.take_append_drop b.coroutines.length x.coroutines] at hd
    rcases List.mem_append.mp hd with hd | hd
    · have hdead := hexit d hd (hid ▸ mem_keys hc)
      exact absurd (hl.symm.trans hdead) (by decide)
    · exact ⟨d,hd,hid⟩

theorem dispatch (h : Singly b x) (hx : Ledger x) (head : x.mailbox.messages=m::rest)
    (hrun : x.isRunning=true) (hexit : m.type≠.cmdExit) (hlists : Lists b v.config)
    (hopen : ∀ k<v.config.modules.length,(o.opened k).isSome=true)
    (hall : m.type=.cmdModuleReload → m.payload="all" → Exited b x)
    (hd : Dispatch o (taken x m rest) m v) : Progress b v := by
  obtain ⟨l,hl⟩ := hd.coroutines
  have hids : v.coroutines.map (·.actorId)=
      x.coroutines.map (·.actorId)++l.map (·.actorId) := by
    rw [hl,List.map_append,taken_actorIds]
  have hgrown : b.coroutines.length<v.coroutines.length := by
    have := h.grown
    rw [hl,List.length_append,taken_length]
    omega
  have hkeep (hf : v.reloadAllFlag=false)
      (hself : ∀ c∈b.childrens,Due x c → m.type=.moduleExited → c.actorId=m.senderId →
        Relaunched b v c.actorId) : Progress b v := by
    refine .singly ⟨hf,hgrown,fun c hc => ?_⟩
    rcases h.each c hc with hr | hdue
    · exact Or.inl (hr.mono hids)
    · by_cases hid : m.type=.moduleExited ∧ c.actorId=m.senderId
      · exact Or.inl (hself c hc hdue hid.1 hid.2)
      · exact Or.inr (hdue.dispatch hx head hd fun ht he => hid ⟨ht,he⟩)
  have hdone (type : m.type=.cmdModuleReload) (all : m.payload="all") : Progress b v :=
    .done fun c hc => (h.allRelaunched (hall type all) c hc).mono hids
  have hflag : (taken x m rest).reloadAllFlag=false := h.flag
  have hnot {c : ActorMetaData} (hdue : Due x c) (hid : c.actorId=m.senderId) :
      m.senderId∈x.pendingReload ∧ m.senderId∈x.keys := by
    obtain ⟨d,hdm,hdid,_⟩ := hdue.child
    exact ⟨hid ▸ hdue.pending,hid ▸ hdid ▸ mem_keys hdm⟩
  cases id hd with
  | exit type => exact absurd type hexit
  | reloadAll type update all some => exact hdone type all
  | loadAll type update all none => exact hdone type all
  | ignore reload exit exited => exact hkeep hflag fun _ _ _ ht => absurd ht exited
  | reloadOne type => exact hkeep rfl fun _ _ _ ht => absurd (type.symm.trans ht) (by decide)
  | reloadNew type =>
    refine hkeep ?_ fun _ _ _ ht => absurd (type.symm.trans ht) (by decide)
    rw [(LaunchFrame.reloadModule o _ 0 m.payload).reloadAllFlag]
  | remove type => exact hkeep hflag fun _ _ _ ht => absurd (type.symm.trans ht) (by decide)
  | crash type => exact hkeep hflag fun _ _ _ ht => absurd (type.symm.trans ht) (by decide)
  | unknown type missing =>
    exact hkeep hflag fun _ _ hdue _ hid => absurd (hnot hdue hid).2 missing
  | barrier type child reload all => exact absurd (hflag.symm.trans all) (by decide)
  | complete type child reload all => exact absurd (hflag.symm.trans all) (by decide)
  | @single d type child reload one =>
    have hf := LaunchFrame.reloadModule o ((taken x m rest).forget m.senderId) m.senderId
      d.moduleName
    rw [hf.config] at hlists hopen
    refine hkeep (hf.reloadAllFlag.trans one) fun c hc hdue _ hid => ?_
    obtain ⟨e,hem,heid,hen⟩ := hdue.child
    obtain ⟨hdm,hdid⟩ := find_mem child
    have hde : d=e := List.inj_on_of_nodup_map hx.keys_nodup hdm hem
      (hdid.trans (hid.symm.trans heid.symm))
    have hfl : Ledger ((taken x m rest).forget m.senderId) := (hx.take head).op (.forget _)
    have hr := reloadModule_listed hfl child hc (hde ▸ hen) hlists hopen
    have hle : b.coroutines.length ≤ ((taken x m rest).forget m.senderId).coroutines.length :=
      h.grown.le.trans (taken_length x m rest).ge
    exact hid ▸ hr.of_le hle
  | restart type child restart =>
    exact hkeep hflag fun _ _ hdue _ hid => absurd (hnot hdue hid).1 restart.2.1
  | erase type child reload restart =>
    exact hkeep hflag fun _ _ hdue _ hid => absurd ⟨hrun,(hnot hdue hid).1⟩ reload

end Singly

section Quiet

variable {b x y : State}

theorem Waiting.quiet (h : Waiting b x) (hq : Quiet x y) : Waiting b y := by
  have hids := congrArg (List.map Prod.fst) hq.tags
  simp only [State.tags,List.map_map] at hids
  refine h.other [] (hids.trans (List.append_nil _).symm) (by simp)
    (fun id _ => hq.liveCount id) ?_ (fun he => ?_) hq.pendingReload hq.reloadAllFlag
  · rw [hq.childrens]
    exact h.childrens
  · rw [hq.childrens]
    exact h.same (hq.length ▸ he)

theorem Due.quiet {c : ActorMetaData} (h : Due x c) (hq : Quiet x y) : Due y c where
  pending := by
    rw [hq.pendingReload]
    exact h.pending
  live := hq.live.mpr h.live
  child := by
    rw [hq.childrens]
    exact h.child

theorem Progress.quiet {a : Action} (h : Progress b x) (hn : next x a=some y)
    (hq : Quiet x y) : Progress b y := by
  obtain ⟨l,hids⟩ := next_actorIds hn
  cases h with
  | waiting h => exact .waiting (h.quiet hq)
  | singly h =>
    refine .singly ⟨hq.reloadAllFlag.trans h.flag,hq.length ▸ h.grown,fun c hc => ?_⟩
    exact (h.each c hc).imp (fun hr => hr.mono hids) fun hdue => hdue.quiet hq
  | done h => exact .done fun c hc => (h c hc).mono hids

theorem Progress.emplace {o : Outcome} {startup : Startup} {name : String}
    {module : LoadedModule} (h : Progress b x) (hx : Ledger x)
    (hn : next x (.load o)=some (State.emplace {x with startup := startup} name module)) :
    Progress b (State.emplace {x with startup := startup} name module) := by
  obtain ⟨l,hids⟩ := next_actorIds hn
  cases h with
  | waiting h => exact .waiting (h.emplace hx startup name module)
  | singly h =>
    have hlen : x.coroutines.length<
        (State.emplace {x with startup := startup} name module).coroutines.length := by
      simp [State.emplace,State.launch]
    refine .singly ⟨h.flag,h.grown.trans hlen,fun c hc => ?_⟩
    refine (h.each c hc).imp (fun hr => hr.mono hids) fun hdue => ?_
    obtain ⟨hp,⟨d,hd,hdl⟩,e,he,hid⟩ := hdue
    exact ⟨hp,⟨d,List.mem_append_left _ hd,hdl⟩,e,List.mem_append_left _ he,hid⟩
  | done h => exact .done fun c hc => (h c hc).mono hids

end Quiet

theorem Waiting.taken {b x : State} {m : EventMessage} {rest : List EventMessage}
    (h : Waiting b x) (ht : m.type≠.moduleExited) : Waiting b (taken x m rest) := by
  have hc : (Manager.taken x m rest).coroutines=x.coroutines := taken_coroutines ht
  refine h.other [] (by rw [hc,List.append_nil]) (by simp) (fun id _ => ?_) h.childrens
    (fun he => h.same (hc ▸ he)) rfl rfl
  rw [liveCount,hc]
  rfl

theorem Progress.finish {b s : State} (h : Progress b s) (done : Bool) :
    Progress b (finish s done) := by
  cases done with
  | false => exact h
  | true =>
    cases h with
    | waiting h => exact .waiting {h with}
    | singly h =>
      refine .singly ⟨h.flag,h.grown,fun c hc => (h.each c hc).imp_right fun hdue => ?_⟩
      exact {hdue with}
    | done h => exact .done h

theorem finish_config (s : State) (done : Bool) : (finish s done).config=s.config := by
  cases done <;> rfl

theorem Progress.step {b x y : State} {a : Action} (h : Progress b x) (hx : Ledger x)
    (hrun : x.isRunning=true) (hn : next x a=some y) (hs : Supplied b x a y)
    (hu : Undisturbed b x a) : Progress b y := by
  cases next_turn hn with
  | quiet _ hq => exact h.quiet hn hq
  | emplace => exact h.emplace hx hn
  | @handle o m rest v done loop head result effect =>
    have hm : m∈x.mailbox.messages.head? := by simp [head]
    have hexit : m.type≠.cmdExit := fun he =>
      absurd (hrun.symm.trans (hx.exit_queued m (by simp [head]) he)) (by decide)
    obtain ⟨_,hlists,hsup⟩ := hs
    obtain ⟨_,hopen⟩ := hsup m hm
    obtain ⟨hreload,hnames⟩ := hu m hm
    rw [finish_config] at hlists hopen
    refine Progress.finish ?_ done
    cases h with
    | waiting h =>
      by_cases ht : m.type=.moduleExited
      · exact h.exited hx head ht hrun hlists hopen hnames effect
      · have hlive (type : m.type=.cmdModuleReload) (id : Nat) (hid : id∈b.keys) : Live x id := by
          obtain ⟨c,hc,rfl⟩ := List.mem_map.mp hid
          exact ((hreload type).1 c hc).resolve_right (h.others _ hid)
        refine (h.taken ht).command hexit ht (fun type id hid => ?_) (fun type all => ?_) effect
        · exact hx.live_taken head (hlive type id hid) fun he => absurd he ht
        · obtain ⟨id,hid⟩ := Finset.nonempty_iff_ne_empty.mpr h.nonempty
          obtain ⟨hk,hl⟩ := (h.pending id).mp hid
          rw [taken_length]
          exact ((hreload type).2 all).resolve_right (h.not_exited hk hl)
    | singly h =>
      refine h.dispatch hx head hrun hexit hlists hopen (fun type all => ?_) effect
      exact ((hreload type).2 all).resolve_left (Nat.ne_of_gt h.grown)
    | done h =>
      obtain ⟨l,hl⟩ := effect.coroutines
      refine .done fun c hc => (h c hc).mono (l := l.map (·.actorId)) ?_
      rw [hl,List.map_append,taken_actorIds]

/-- In `b` the event loop handles a reload-all of children that are all live. -/
structure ReloadsAll (b : State) (o : Outcome) (s : State) : Prop where
  command : ∃ m∈b.mailbox.messages.head?,m.type=.cmdModuleReload ∧ m.payload="all"
  step : machine.next b (.handle o)=some s
  supplied : Supplied b b (.handle o) s
  nonempty : b.childrens≠[]
  live : ∀ c∈b.childrens,Live b c.actorId

theorem ReloadsAll.waiting {b s : State} {o : Outcome} (h : ReloadsAll b o s) (hb : Ledger b)
    (single : ∀ c∈b.childrens,liveCount b c.actorId ≤ 1) : Waiting b s := by
  obtain ⟨m,rest,_,head,rfl⟩ := handle_cases h.step
  obtain ⟨m',hm',type,all⟩ := h.command
  obtain rfl : m=m' := by simpa [head] using hm'
  have hsup := (h.supplied.2.2 m (by simp [head])).1 type
  have hne : m.type≠.moduleExited := by simp [type]
  have hlive {id : Nat} (hid : id∈b.keys) : Live b id := by
    obtain ⟨c,hc,rfl⟩ := List.mem_map.mp hid
    exact h.live c hc
  have hc : (taken b m rest).coroutines=b.coroutines := taken_coroutines hne
  have hdone : (dispatch o (taken b m rest) m).2=false := by
    rw [Bool.eq_false_iff,ne_eq,dispatch_done]
    simp [type]
  have hd := dispatch_cases o (taken b m rest) m
  rw [hdone]
  change Waiting b (dispatch o (taken b m rest) m).1
  generalize (dispatch o (taken b m rest) m).1=v at hd
  cases hd with
  | ignore reload => simp [reload type] at hsup
  | reloadAll _ update _ some =>
    rw [stopAll_eq] at some ⊢
    have hnone (id : Nat) (_ : id∈b.keys) : ¬Relaunched b (taken b m rest) id := not_relaunched hc
    refine ⟨(taken_length b m rest).ge,hnone,fun _ => rfl,fun _ h => h,fun id => ?_,some,
      fun id hid => ?_,nofun⟩
    · simp only [Live,hc,Finset.mem_union,List.mem_toFinset]
      constructor
      · intro hid
        have hk : id∈b.keys := hid.elim (hb.reload_keys id) fun hk => hk
        exact ⟨hk,hlive hk⟩
      · exact fun hid => Or.inr hid.1
    · obtain ⟨c,hcm,rfl⟩ := List.mem_map.mp hid
      simpa only [liveCount,hc] using single c hcm
  | loadAll _ update _ none =>
    rw [stopAll_eq] at none
    have hkeys := (Finset.union_eq_empty.mp none).2
    rw [List.toFinset_eq_empty_iff] at hkeys
    exact absurd (List.map_eq_nil_iff.mp hkeys) h.nonempty
  | reloadOne _ _ one | reloadNew _ _ one => exact absurd all one
  | exit ht | remove ht | crash ht | unknown ht | barrier ht | complete ht | single ht
  | restart ht | erase ht => exact absurd (type.symm.trans ht) (by decide)

/-- Once the exits of all children are handled, a reload-all has relaunched them, in every run
whose reload commands disturb no child that waits for the others. -/
theorem reloadAll_relaunches {b s t : State} {o : Outcome} (hb : machine.Reachable b)
    (hs : ReloadsAll b o s) (single : ∀ c∈b.childrens,liveCount b c.actorId ≤ 1)
    (run : machine.Steps (fun x a y => Supplied b x a y ∧ Undisturbed b x a) s t)
    (exited : Exited b t) : AllRelaunched b t := by
  have hledger := reachable_ledger hb
  have hinv : Ledger t ∧ t.isRunning=true ∧ Progress b t := by
    apply run.invariant (I := fun x => Ledger x ∧ x.isRunning=true ∧ Progress b x)
    · exact ⟨hledger.next (a := .handle o) hs.step,hs.supplied.1,
        .waiting (hs.waiting hledger single)⟩
    · rintro x a y ⟨hx,hrun,hp⟩ hn ⟨hsup,hund⟩
      exact ⟨hx.next hn,hsup.1,hp.step hx hrun hn hsup hund⟩
  cases hinv.2.2 with
  | waiting h =>
    obtain ⟨id,hid⟩ := Finset.nonempty_iff_ne_empty.mpr h.nonempty
    obtain ⟨hk,hl⟩ := (h.pending id).mp hid
    exact absurd exited (h.not_exited hk hl)
  | singly h => exact h.allRelaunched exited
  | done h => exact h

section Runs

instance (b x : State) (a : Action) (y : State) : Decidable (Supplied b x a y) :=
  inferInstanceAs (Decidable (_ ∧ (∀ c∈b.childrens,∃ mod∈y.config.modules,_) ∧ _))

instance (b x : State) : Decidable (Exited b x) :=
  inferInstanceAs (Decidable (∀ c∈x.coroutines.take b.coroutines.length,_))

instance (b x : State) : Decidable (AllRelaunched b x) :=
  inferInstanceAs (Decidable (∀ c∈b.childrens,_))

instance (b x : State) (a : Action) : Decidable (Undisturbed b x a) :=
  inferInstanceAs (Decidable (OnHandle _ x a))

/-- Two modules are loaded and a reload-all of them is handled; then the given steps follow. -/
theorem exists_reload (ok : State → State → Action → State → Prop)
    [∀ b x a y,Decidable (ok b x a y)] (run : List Action) (p : State → State → Bool)
    (h : (machine.exec Machine.anyStep (init (listing ["a","b"]))
      (loading ["a","b"]++[.reloadModule "all"])).any (fun b =>
        ((b.mailbox.messages.head?=some ⟨.cmdModuleReload,0,"all",0⟩ ∧ b.childrens≠[]) ∧
          ∀ c∈b.childrens,Live b c.actorId ∧ liveCount b c.actorId ≤ 1) &&
        (machine.next b (.handle (opening ["a","b"]))).any fun s =>
          (machine.exec (ok b) s run).any fun t =>
            Supplied b b (.handle (opening ["a","b"])) s && p b t)=true) :
    ∃ b s t,machine.Reachable b ∧ ReloadsAll b (opening ["a","b"]) s ∧
      (∀ c∈b.childrens,liveCount b c.actorId ≤ 1) ∧ machine.Steps (ok b) s t ∧ p b t=true := by
  obtain ⟨b,hb,hp⟩ := machine.exists_reachableBy _ _ _ (init_start (listing ["a","b"])) h
  rw [Bool.and_eq_true,decide_eq_true_eq] at hp
  obtain ⟨⟨⟨hm,hne⟩,hlive⟩,hrun⟩ := hp
  obtain ⟨s,t,hn,hr,hst⟩ := machine.exists_steps (ok b) b _ run _ hrun
  rw [Bool.and_eq_true,decide_eq_true_eq] at hst
  exact ⟨b,s,t,hb,⟨⟨_,hm,rfl,rfl⟩,hn,hst.1,hne,fun c hc => (hlive c hc).1⟩,
    fun c hc => (hlive c hc).2,hr,hst.2⟩

/-- Both modules crash and exit, and are then launched again together. -/
theorem reloadAll_relaunches_both :
    ∃ b s t,machine.Reachable b ∧ ReloadsAll b (opening ["a","b"]) s ∧ Exited b t ∧
      machine.Steps (fun x a y => Supplied b x a y ∧ Undisturbed b x a) s t ∧
      b.childrens.length=2 ∧ AllRelaunched b t := by
  obtain ⟨b,s,t,hb,hs,hone,ht,hp⟩ := exists_reload
    (fun b x a y => Supplied b x a y ∧ Undisturbed b x a)
    (List.flatten [crashing 0,crashing 1,List.replicate 4 (.handle (opening ["a","b"]))])
    (fun b t => Exited b t ∧ b.childrens.length=2) (by decide +kernel)
  simp only [decide_eq_true_eq] at hp
  exact ⟨b,s,t,hb,hs,hp.1,ht,hp.2,reloadAll_relaunches hb hs hone ht hp.1⟩

/-- A reload of an unknown module after the first of two exits: the module that exited first is
not launched again, though no message removes it. -/
theorem reloadAll_disturbed :
    ∃ b s t o,machine.Reachable b ∧ ReloadsAll b o s ∧
      machine.Steps (fun x a y => Supplied b x a y ∧
        OnHandle (fun _ m => m.type≠.cmdModuleRemove) x a) s t ∧
      Exited b t ∧ ¬AllRelaunched b t := by
  obtain ⟨b,s,t,hb,hs,_,ht,hp⟩ := exists_reload
    (fun b x a y => Supplied b x a y ∧ OnHandle (fun _ m => m.type≠.cmdModuleRemove) x a)
    (List.flatten [crashing 0,List.replicate 2 (.handle (opening ["a","b"])),
      [.reloadModule "c",.handle (opening ["a","b"])],
      crashing 1,List.replicate 2 (.handle (opening ["a","b"]))])
    (fun b t => Exited b t ∧ ¬AllRelaunched b t) (by decide +kernel)
  simp only [decide_eq_true_eq] at hp
  exact ⟨b,s,t,_,hb,hs,ht,hp⟩

end Runs

end Acnet.Manager
