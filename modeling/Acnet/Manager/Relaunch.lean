import Acnet.Manager.Frame

namespace Acnet.Manager

/-- A coroutine of the child was launched between the two states. -/
def Relaunched (s t : State) (id : Nat) : Prop :=
  ∃ c∈t.coroutines.drop s.coroutines.length,c.actorId=id

instance (s t : State) (id : Nat) : Decidable (Relaunched s t id) :=
  inferInstanceAs (Decidable (∃ c∈t.coroutines.drop s.coroutines.length,_))

theorem relaunched_append {s t : State} {l : List Coroutine} {id : Nat}
    (h : t.coroutines=s.coroutines++l) : Relaunched s t id ↔ ∃ c∈l,c.actorId=id := by
  rw [Relaunched,h,List.drop_left]

theorem not_relaunched {s t : State} {id : Nat} (h : t.coroutines=s.coroutines) :
    ¬Relaunched s t id := by
  rintro ⟨c,hc,_⟩
  simp [h] at hc

theorem relaunched_trans {p q : Nat → Prop} {s t u : State} {id : Nat}
    (h : LaunchFrame p s t) (k : LaunchFrame q t u) :
    Relaunched s u id ↔ Relaunched s t id ∨ Relaunched t u id := by
  obtain ⟨l,hl,_⟩ := h.coroutines
  obtain ⟨r,hr,_⟩ := k.coroutines
  have hu : u.coroutines=s.coroutines++(l++r) := by rw [hr,hl,List.append_assoc]
  rw [relaunched_append hl,relaunched_append hr,relaunched_append hu]
  constructor
  · rintro ⟨c,hc,hid⟩
    exact (List.mem_append.mp hc).imp (fun hc => ⟨c,hc,hid⟩) fun hc => ⟨c,hc,hid⟩
  · rintro (⟨c,hc,hid⟩ | ⟨c,hc,hid⟩)
    · exact ⟨c,List.mem_append_left _ hc,hid⟩
    · exact ⟨c,List.mem_append_right _ hc,hid⟩

theorem relaunched_launch (s : State) (id x : Nat) (module : LoadedModule) :
    Relaunched s (s.launch id module) x ↔ id=x := by
  rw [relaunched_append (l := [⟨id,module,.launched,false⟩]) rfl]
  simp

theorem relaunched_iff {s t : State} {id : Nat} :
    Relaunched s t id ↔ id∈(t.coroutines.map (·.actorId)).drop s.coroutines.length := by
  simp [Relaunched,← List.map_drop]

theorem finish_coroutines (s : State) (done : Bool) :
    (finish s done).coroutines=s.coroutines := by
  cases done <;> rfl

/-- Coroutines are only ever added, at the end. -/
theorem next_actorIds {s t : State} {a : Action} (h : next s a=some t) :
    ∃ l,t.coroutines.map (·.actorId)=s.coroutines.map (·.actorId)++l := by
  cases next_turn h with
  | quiet _ hq =>
    have hids := congrArg (List.map Prod.fst) hq.tags
    simp only [State.tags,List.map_map] at hids
    exact ⟨[],hids.trans (List.append_nil _).symm⟩
  | emplace startup name module => exact ⟨_,List.map_append⟩
  | handle done loop head result effect =>
    obtain ⟨l,hl⟩ := effect.coroutines
    exact ⟨l.map (·.actorId),by rw [finish_coroutines,hl,List.map_append,taken_actorIds]⟩

theorem Relaunched.mono {s t u : State} {id : Nat} {l : List Nat} (h : Relaunched s t id)
    (hl : u.coroutines.map (·.actorId)=t.coroutines.map (·.actorId)++l) :
    Relaunched s u id := by
  rw [relaunched_iff] at h ⊢
  rw [hl,List.drop_append]
  exact List.mem_append_left _ h

section Names

/-- The ids of the children with the given name. -/
def namedIds (l : List ActorMetaData) (name : String) : List Nat :=
  (l.filter (·.moduleName=name)).map (·.actorId)

/-- The id of the child that a loop for the name meets first. -/
def firstId (o : Outcome) (k : Nat) (l : List ActorMetaData) (name : String) : Option Nat :=
  (firstNamed o k l name).map (·.actorId)

theorem firstId_eq (o : Outcome) (k : Nat) (l : List ActorMetaData) (name : String) :
    firstId o k l name=(namedIds l name)[o.pick k%(namedIds l name).length]? := by
  simp [firstId,firstNamed,namedIds]

theorem namedIds_map (l : List ActorMetaData) (id : Nat) (module : LoadedModule)
    (name : String) :
    namedIds (l.map fun c => if c.actorId=id then {c with creator := module} else c) name=
      namedIds l name := by
  induction l with
  | nil => rfl
  | cons c l ih =>
    simp only [namedIds,List.map_cons,List.filter_cons] at ih ⊢
    by_cases hid : c.actorId=id
    · by_cases hn : c.moduleName=name <;> simp [hid,hn,ih]
    · by_cases hn : c.moduleName=name <;> simp [hid,hn,ih]

theorem namedIds_append (l : List ActorMetaData) (c : ActorMetaData) (name : String) :
    namedIds (l++[c]) name=namedIds l name++if c.moduleName=name then [c.actorId] else [] := by
  by_cases hn : c.moduleName=name <;> simp [namedIds,hn]

theorem namedIds_of_none {o : Outcome} {k : Nat} {l : List ActorMetaData} {name : String}
    (h : firstNamed o k l name=none) : namedIds l name=[] := by
  simpa [namedIds] using firstNamed_none h

end Names

section ReloadAll

variable {o : Outcome} {config : AcConfig} {s : State} {id : Nat}

theorem reloadEntry_ledger (hs : Ledger s) (e : AcModule×Nat) :
    Ledger (reloadEntry o config s e) := by
  obtain ⟨mod,k⟩ := e
  rcases reloadEntry_cases o config s mod k with ⟨_,he⟩ | ⟨c,module,_,hf,he⟩ | ⟨module,_,_,he⟩
  · rwa [he]
  · rw [he]
    exact hs.op (.relaunch _ module (mem_keys (firstNamed_mem hf).1))
  · rw [he]
    exact hs.op (.emplace _ module)

/-- Visiting one entry does not change which child another entry finds. -/
theorem reloadEntry_firstId (hs : Ledger s) (hid : id∈s.keys) (e : AcModule×Nat) (k : Nat)
    (name : String) :
    firstId o k (reloadEntry o config s e).childrens name=some id ↔
      firstId o k s.childrens name=some id := by
  obtain ⟨mod,j⟩ := e
  rcases reloadEntry_cases o config s mod j with ⟨_,he⟩ | ⟨c,module,_,hf,he⟩ | ⟨module,_,hf,he⟩
  · rw [he]
  · have hsame := namedIds_map s.childrens c.actorId module name
    have hc : (reloadEntry o config s (mod,j)).childrens=s.childrens.map fun d =>
        if d.actorId=c.actorId then {d with creator := module} else d := by rw [he]; rfl
    rw [firstId_eq,firstId_eq,hc,hsame]
  · have hc : (reloadEntry o config s (mod,j)).childrens=
        s.childrens++[⟨s.nextId,mod.moduleName,module⟩] := by rw [he]; rfl
    rw [firstId_eq,firstId_eq,hc,namedIds_append]
    by_cases hn : mod.moduleName=name
    · subst hn
      have hlt := (hs.keys_lt id hid).2
      simp only [namedIds_of_none hf,if_true,List.nil_append,List.length_singleton,Nat.mod_one,
        List.getElem?_cons_zero,Option.some.injEq,List.getElem?_nil]
      constructor
      · intro he
        omega
      · nofun
    · simp [hn]

theorem reloadEntry_relaunched (hs : Ledger s) (hid : id∈s.keys) (mod : AcModule) (k : Nat) :
    Relaunched s (reloadEntry o config s (mod,k)) id ↔
      (o.opened k).isSome=true ∧ firstId o k s.childrens mod.moduleName=some id := by
  rcases reloadEntry_cases o config s mod k with ⟨ho,he⟩ | ⟨c,module,ho,hf,he⟩ | ⟨module,ho,hf,he⟩
  · rw [he]
    simp [ho,not_relaunched]
  · rw [he]
    have hl : Relaunched s (s.relaunch c.actorId module) id ↔ c.actorId=id :=
      relaunched_launch s c.actorId id module
    simpa [firstId,hf,ho] using hl
  · rw [he]
    have hlt := (hs.keys_lt id hid).2
    have hl : Relaunched s (s.emplace mod.moduleName module) id ↔ s.nextId=id :=
      relaunched_launch s s.nextId id module
    have hne : s.nextId≠id := by omega
    simpa [firstId,hf,ho,hne] using hl

/-- `__reload_all_modules` launches a child exactly if some entry opens and finds it. -/
theorem reloadAllModules_relaunched (hs : Ledger s) (hid : id∈s.keys) :
    Relaunched s (reloadAllModules o s) id ↔
      ∃ e∈s.config.modules.zipIdx,(o.opened e.2).isSome=true ∧
        firstId o e.2 s.childrens e.1.moduleName=some id := by
  change Relaunched s (s.config.modules.zipIdx.foldl (reloadEntry o s.config) s) id ↔ _
  generalize s.config=config
  generalize config.modules.zipIdx=entries
  induction entries generalizing s with
  | nil => simp [not_relaunched]
  | cons e entries ih =>
    have hf := LaunchFrame.reloadEntry o config s e
    have hrest := LaunchFrame.reloadEntries o config entries (reloadEntry o config s e)
    rw [List.foldl_cons,relaunched_trans hf hrest,reloadEntry_relaunched hs hid,
      ih (reloadEntry_ledger hs e) (hf.kept hid)]
    simp only [reloadEntry_firstId hs hid,List.mem_cons,exists_eq_or_imp]

end ReloadAll

section ReloadOne

/-- The first entry of that name can be opened. -/
def Openable (o : Outcome) (config : AcConfig) (name : String) : Prop :=
  ∃ e∈config.modules.zipIdx.find? (·.1.moduleName=name),(o.opened e.2).isSome=true

variable {o : Outcome} {s : State} {name : String}

theorem reloadModule_of_not (id : Nat) (h : ¬Openable o s.config name) :
    reloadModule o s id name=s := by
  unfold reloadModule
  split
  · rfl
  · rename_i e he
    obtain ⟨mod,k⟩ := e
    cases ho : o.opened k with
    | none => simp [reloadNamed,generateCreator,ho]
    | some handle => exact absurd ⟨(mod,k),he,by simp [ho]⟩ h

/-- A module that is not loaded becomes a new child. -/
theorem reloadModule_new (h : Openable o s.config name) :
    ∃ module,reloadModule o s 0 name=s.emplace name module := by
  obtain ⟨⟨mod,k⟩,he,ho⟩ := h
  obtain ⟨handle,ho⟩ := Option.isSome_iff_exists.mp ho
  have hname : mod.moduleName=name := by simpa using List.find?_some he
  refine ⟨⟨s.config.path mod,handle⟩,?_⟩
  simp [reloadModule,Option.mem_def.mp he,reloadNamed,generateCreator,ho,hname]

/-- A child gets a new creator and is launched again. -/
theorem reloadModule_child {id : Nat} (h : Openable o s.config name) (hs : Ledger s)
    (hid : id∈s.keys) : ∃ module,reloadModule o s id name=s.relaunch id module := by
  obtain ⟨⟨mod,k⟩,he,ho⟩ := h
  obtain ⟨handle,ho⟩ := Option.isSome_iff_exists.mp ho
  obtain ⟨c,hc⟩ := Option.isSome_iff_exists.mp (find_isSome.mpr hid)
  have hpos : id≠0 := Nat.ne_of_gt (hs.keys_lt id hid).1
  refine ⟨⟨s.config.path mod,handle⟩,?_⟩
  simp [reloadModule,Option.mem_def.mp he,reloadNamed,generateCreator,ho,hpos,hc,
    (find_mem hc).2]

/-- `__reload_module` launches a child exactly if the first entry of that name opens. -/
theorem reloadModule_relaunched {id : Nat} (hs : Ledger s) (hid : id∈s.keys) :
    Relaunched s (reloadModule o s id name) id ↔ Openable o s.config name := by
  by_cases h : Openable o s.config name
  · obtain ⟨module,hm⟩ := reloadModule_child h hs hid
    have hl : Relaunched s (s.relaunch id module) id ↔ id=id := relaunched_launch s id id module
    simp [hm,hl,h]
  · simp [reloadModule_of_not id h,not_relaunched,h]

end ReloadOne

section Completion

/-- The handled exit completes a reload: it is the child's own, or the last one that a
reload-all waits for. -/
def CompletesReload (s : State) (m : EventMessage) : Prop :=
  m.type=.moduleExited ∧ m.senderId∈s.keys ∧ Reloading s m.senderId ∧
    (s.reloadAllFlag=true → s.pendingReload.erase m.senderId=∅)

/-- The children that take part in the reload. -/
def participants (s : State) (m : EventMessage) : List ActorMetaData :=
  if s.reloadAllFlag then s.childrens else s.childrens.filter (·.actorId=m.senderId)

/-- Every child that took part has a new coroutine or is gone. -/
def NoDeadChild (s : State) (m : EventMessage) (t : State) : Prop :=
  ∀ c∈participants s m,Relaunched s t c.actorId ∨ c.actorId∉t.keys

/-- The configuration as last read and the libraries allow the reload: for a single child the
first entry of its name opens; for a reload-all, some entry opens for every child and a search
for the name of that entry meets the child first. -/
def Reloadable (o : Outcome) (s : State) (m : EventMessage) : Prop :=
  ∀ c∈participants s m,
    if s.reloadAllFlag then
      ∃ e∈s.config.modules.zipIdx,(o.opened e.2).isSome=true ∧
        firstId o e.2 s.childrens e.1.moduleName=some c.actorId
    else Openable o s.config c.moduleName

end Completion

section Runs

instance (s : State) (m : EventMessage) : Decidable (CompletesReload s m) :=
  inferInstanceAs (Decidable (_ ∧ _ ∧ _ ∧ (_ → _)))

instance (s : State) (m : EventMessage) (t : State) : Decidable (NoDeadChild s m t) :=
  inferInstanceAs (Decidable (∀ c∈participants s m,_))

/-- A module is to be reloaded, crashes and exits, and its exit event is next. -/
def exitingReload (o : Outcome) : List Action :=
  List.flatten [loading ["m"],[.reloadModule "m",.handle o],crashing 0,[.handle o]]

end Runs

end Acnet.Manager
