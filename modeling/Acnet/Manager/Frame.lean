import Acnet.Manager.Ledger

namespace Acnet.Manager

/-- What the handlers leave alone: `is_running_` and the callers of `Shutdown`, the manager's
mailbox, the loop and the first load. -/
structure Untouched (s t : State) : Prop where
  isRunning : t.isRunning=s.isRunning
  mailbox : t.mailbox=s.mailbox
  loop : t.loop=s.loop
  startup : t.startup=s.startup
  stopping : t.stopping=s.stopping
  sending : t.sending=s.sending
  exitSent : t.exitSent=s.exitSent

namespace Untouched

theorem refl (s : State) : Untouched s s := ⟨rfl,rfl,rfl,rfl,rfl,rfl,rfl⟩

theorem trans {s t u : State} (h : Untouched s t) (k : Untouched t u) : Untouched s u where
  isRunning := k.isRunning.trans h.isRunning
  mailbox := k.mailbox.trans h.mailbox
  loop := k.loop.trans h.loop
  startup := k.startup.trans h.startup
  stopping := k.stopping.trans h.stopping
  sending := k.sending.trans h.sending
  exitSent := k.exitSent.trans h.exitSent

end Untouched

/-- What launching coroutines does and leaves alone: new children get ids that were not given
before and empty mailboxes, and of the ids given before only those with `p` are launched. -/
structure LaunchFrame (p : Nat → Prop) (s t : State) : Prop extends Untouched s t where
  reloadAllFlag : t.reloadAllFlag=s.reloadAllFlag
  pendingReload : t.pendingReload=s.pendingReload
  pendingStop : t.pendingStop=s.pendingStop
  pendingRestart : t.pendingRestart=s.pendingRestart
  config : t.config=s.config
  exitHandled : t.exitHandled=s.exitHandled
  dropped : t.dropped=s.dropped
  nextId : s.nextId ≤ t.nextId
  keys : ∀ id∈t.keys,id∈s.keys ∨ s.nextId ≤ id
  childrens : ∀ c∈s.childrens,∃ d∈t.childrens,d.actorId=c.actorId ∧ d.moduleName=c.moduleName
  mailboxes : ∀ id,id<s.nextId → t.mailboxes id=s.mailboxes id
  fresh : ∀ id,s.nextId ≤ id → id<t.nextId → t.mailboxes id=.empty
  coroutines : ∃ l,t.coroutines=s.coroutines++l ∧
    ∀ c∈l,c.phase=.launched ∧ (p c.actorId ∨ s.nextId ≤ c.actorId)

namespace LaunchFrame

variable {p q : Nat → Prop}

theorem refl (s : State) : LaunchFrame p s s :=
  {Untouched.refl s with
    reloadAllFlag := rfl
    pendingReload := rfl
    pendingStop := rfl
    pendingRestart := rfl
    config := rfl
    exitHandled := rfl
    dropped := rfl
    nextId := Nat.le_refl _
    keys := fun _ => Or.inl
    childrens := fun c hc => ⟨c,hc,rfl,rfl⟩
    mailboxes := fun _ _ => rfl
    fresh := fun _ h k => absurd k (Nat.not_lt.mpr h)
    coroutines := ⟨[],by simp,by simp⟩}

theorem trans {s t u : State} (h : LaunchFrame p s t) (k : LaunchFrame q t u)
    (hq : ∀ id,q id → p id ∨ s.nextId ≤ id) : LaunchFrame p s u where
  toUntouched := h.toUntouched.trans k.toUntouched
  reloadAllFlag := k.reloadAllFlag.trans h.reloadAllFlag
  pendingReload := k.pendingReload.trans h.pendingReload
  pendingStop := k.pendingStop.trans h.pendingStop
  pendingRestart := k.pendingRestart.trans h.pendingRestart
  config := k.config.trans h.config
  exitHandled := k.exitHandled.trans h.exitHandled
  dropped := k.dropped.trans h.dropped
  nextId := h.nextId.trans k.nextId
  keys id hid := (k.keys id hid).elim (h.keys id) fun hn => Or.inr (h.nextId.trans hn)
  childrens c hc := by
    obtain ⟨d,hd,hid,hname⟩ := h.childrens c hc
    obtain ⟨e,he,hid',hname'⟩ := k.childrens d hd
    exact ⟨e,he,hid'.trans hid,hname'.trans hname⟩
  mailboxes id hid := (k.mailboxes id (hid.trans_le h.nextId)).trans (h.mailboxes id hid)
  fresh id hs hu := by
    by_cases ht : id<t.nextId
    · exact (k.mailboxes id ht).trans (h.fresh id hs ht)
    · exact k.fresh id (Nat.not_lt.mp ht) hu
  coroutines := by
    obtain ⟨l,hl,hlp⟩ := h.coroutines
    obtain ⟨r,hr,hrq⟩ := k.coroutines
    refine ⟨l++r,by rw [hr,hl,List.append_assoc],fun c hc => ?_⟩
    rcases List.mem_append.mp hc with hc | hc
    · exact hlp c hc
    · obtain ⟨hp,hid⟩ := hrq c hc
      exact ⟨hp,hid.elim (hq c.actorId) fun hn => Or.inr (h.nextId.trans hn)⟩

theorem launch (s : State) {id : Nat} (module : LoadedModule) (hid : p id) :
    LaunchFrame p s (s.launch id module) :=
  {refl (p := p) s with
    coroutines := by
      refine ⟨[⟨id,module,.launched,false⟩],rfl,fun c hc => ?_⟩
      obtain rfl := List.mem_singleton.mp hc
      exact ⟨rfl,Or.inl hid⟩}

theorem relaunch (s : State) {id : Nat} (module : LoadedModule) (hid : p id) :
    LaunchFrame p s (s.relaunch id module) :=
  {launch s module hid with
    keys := fun x hx => by
      rw [keys_relaunch] at hx
      exact Or.inl hx
    childrens := fun c hc => by
      refine ⟨_,List.mem_map_of_mem hc,?_⟩
      split_ifs <;> exact ⟨rfl,rfl⟩}

theorem emplace (s : State) (name : String) (module : LoadedModule) :
    LaunchFrame p s (s.emplace name module) :=
  {refl (p := p) s with
    nextId := Nat.le_succ _
    keys := fun x hx => by
      rw [keys_emplace,List.mem_append,List.mem_singleton] at hx
      exact hx.imp_right fun he => he.ge
    childrens := fun c hc => ⟨c,List.mem_append_left _ hc,rfl,rfl⟩
    mailboxes := fun x hx => Function.update_of_ne (Nat.ne_of_lt hx) _ _
    fresh := fun x hs ht => by
      obtain rfl := Nat.le_antisymm (Nat.le_of_lt_succ ht) hs
      exact Function.update_self _ _ _
    coroutines := by
      refine ⟨[⟨s.nextId,module,.launched,false⟩],rfl,fun c hc => ?_⟩
      obtain rfl := List.mem_singleton.mp hc
      exact ⟨rfl,Or.inr (Nat.le_refl _)⟩}

theorem kept {s t : State} (h : LaunchFrame p s t) {id : Nat} (hid : id∈s.keys) : id∈t.keys := by
  obtain ⟨c,hc,rfl⟩ := List.mem_map.mp hid
  obtain ⟨d,hd,he,_⟩ := h.childrens c hc
  exact he ▸ mem_keys hd

theorem foldl {α : Type} (p : State → Nat → Prop) (f : State → α → State)
    (hf : ∀ s x,LaunchFrame (p s) s (f s x))
    (hp : ∀ s t,LaunchFrame (p s) s t → ∀ id,p t id → p s id ∨ s.nextId ≤ id) (l : List α)
    (s : State) : LaunchFrame (p s) s (l.foldl f s) := by
  induction l generalizing s with
  | nil => exact .refl s
  | cons x l ih => exact (hf s x).trans (ih (f s x)) (hp s _ (hf s x))

theorem loadEntry (o : Outcome) (config : AcConfig) (s : State) (e : AcModule×Nat) :
    LaunchFrame (fun _ => False) s (Manager.loadEntry o config s e) := by
  unfold Manager.loadEntry
  split
  split
  · exact .refl s
  · exact .emplace s _ _

/-- Loading launches new children only. -/
theorem loadModules (o : Outcome) (s : State) :
    LaunchFrame (fun _ => False) s (Manager.loadModules o s) :=
  .foldl (fun _ _ => False) _ (loadEntry o _) (fun _ _ _ _ h => h.elim) _ s

theorem reloadEntry (o : Outcome) (config : AcConfig) (s : State) (e : AcModule×Nat) :
    LaunchFrame (·∈s.keys) s (Manager.reloadEntry o config s e) := by
  unfold Manager.reloadEntry
  split
  split
  · exact .refl s
  · split
    · rename_i hc
      exact .relaunch s _ (mem_keys (firstNamed_mem hc).1)
    · exact .emplace s _ _

theorem reloadEntries (o : Outcome) (config : AcConfig) (entries : List (AcModule×Nat))
    (s : State) : LaunchFrame (·∈s.keys) s (entries.foldl (Manager.reloadEntry o config) s) :=
  .foldl (fun s id => id∈s.keys) _ (reloadEntry o config) (fun _ _ h => h.keys) entries s

theorem reloadAllModules (o : Outcome) (s : State) :
    LaunchFrame (·∈s.keys) s (Manager.reloadAllModules o s) :=
  reloadEntries o s.config s.config.modules.zipIdx s

theorem reloadNamed (o : Outcome) (config : AcConfig) (id : Nat) (s : State) (e : AcModule×Nat) :
    LaunchFrame (·=id) s (Manager.reloadNamed o config id s e) := by
  unfold Manager.reloadNamed
  split
  split
  · exact .refl s
  · split_ifs
    · exact .emplace s _ _
    · split
      · exact .refl s
      · rename_i hf
        exact .relaunch s _ (find_mem hf).2

theorem reloadModule (o : Outcome) (s : State) (id : Nat) (name : String) :
    LaunchFrame (·=id) s (Manager.reloadModule o s id name) := by
  unfold Manager.reloadModule
  split
  · exact .refl s
  · exact reloadNamed o _ id s _

end LaunchFrame

section Effects

variable {o : Outcome} {s t : State} {m : EventMessage}

theorem Dispatch.untouched (h : Dispatch o s m t) : Untouched s t := by
  have launch {p : Nat → Prop} {u : State} (hf : LaunchFrame p u t) (hu : Untouched s u) :
      Untouched s t := hu.trans hf.toUntouched
  have same : Untouched s (s.forget m.senderId) := {Untouched.refl s with}
  cases h with
  | exit type =>
    rw [foldl_requestStop]
    exact {Untouched.refl s with}
  | reloadAll type update all some =>
    rw [stopAll_eq]
    exact {Untouched.refl s with}
  | @loadAll config type update all none =>
    apply launch (LaunchFrame.loadModules o (stopAll s config))
    rw [stopAll_eq]
    exact {Untouched.refl s with}
  | reloadNew type update one missing =>
    exact launch (LaunchFrame.reloadModule o _ 0 _) {Untouched.refl s with}
  | complete type child reload all last => exact launch (LaunchFrame.reloadAllModules o _) same
  | single type child reload one => exact launch (LaunchFrame.reloadModule o _ _ _) same
  | ignore | reloadOne | remove | crash | unknown | barrier | restart | erase =>
    exact {Untouched.refl s with}

theorem Dispatch.exitHandled (h : Dispatch o s m t) :
    t.exitHandled=true ↔ s.exitHandled=true ∨ m.type=.cmdExit := by
  have other {type : EventType} (ht : m.type=type) (hne : type≠.cmdExit)
      (he : t.exitHandled=s.exitHandled) :
      t.exitHandled=true ↔ s.exitHandled=true ∨ m.type=.cmdExit := by
    rw [he]
    exact (or_iff_left fun he => hne (ht.symm.trans he)).symm
  cases h with
  | ignore reload exit exited => exact (or_iff_left exit).symm
  | exit type => exact ⟨fun _ => Or.inr type,fun _ => rfl⟩
  | reloadAll type update all some => exact other type (by decide) (by rw [stopAll_eq])
  | @loadAll config type update all none =>
    refine other type (by decide) ?_
    rw [(LaunchFrame.loadModules o (stopAll s config)).exitHandled,stopAll_eq]
  | reloadNew type =>
    exact other type (by decide) (LaunchFrame.reloadModule o _ 0 m.payload).exitHandled
  | complete type => exact other type (by decide) (LaunchFrame.reloadAllModules o _).exitHandled
  | single type => exact other type (by decide) (LaunchFrame.reloadModule o _ _ _).exitHandled
  | reloadOne type => exact other type (by decide) rfl
  | remove type => exact other type (by decide) rfl
  | crash type => exact other type (by decide) rfl
  | unknown type | barrier type | restart type | erase type => exact other type (by decide) rfl

theorem Dispatch.coroutines (h : Dispatch o s m t) : ∃ l,t.coroutines=s.coroutines++l := by
  have same (hc : t.coroutines=s.coroutines) : ∃ l,t.coroutines=s.coroutines++l :=
    ⟨[],by rw [hc,List.append_nil]⟩
  cases h with
  | exit type => exact same (by rw [foldl_requestStop])
  | reloadAll type update all some => exact same (by rw [stopAll_eq])
  | @loadAll config type update all none =>
    obtain ⟨l,hl,_⟩ := (LaunchFrame.loadModules o (stopAll s config)).coroutines
    exact ⟨l,by rw [hl,stopAll_eq]⟩
  | reloadNew type update one missing =>
    obtain ⟨l,hl,_⟩ := (LaunchFrame.reloadModule o _ 0 m.payload).coroutines
    exact ⟨l,hl⟩
  | complete type child reload all last =>
    obtain ⟨l,hl,_⟩ := (LaunchFrame.reloadAllModules o (s.forget m.senderId)).coroutines
    exact ⟨l,hl⟩
  | single type child reload one =>
    obtain ⟨l,hl,_⟩ := (LaunchFrame.reloadModule o (s.forget m.senderId) m.senderId _).coroutines
    exact ⟨l,hl⟩
  | restart type child restart => exact ⟨_,rfl⟩
  | ignore | reloadOne | remove | crash | unknown | barrier | erase => exact same rfl

/-- A pending reload is only forgotten when the child's exit is handled. -/
theorem Dispatch.mem_pendingReload (h : Dispatch o s m t) {id : Nat} (hid : id∈s.pendingReload)
    (hne : m.type=.moduleExited → id≠m.senderId) : id∈t.pendingReload := by
  have kept (type : m.type=.moduleExited) : id∈(s.forget m.senderId).pendingReload :=
    Finset.mem_erase_of_ne_of_mem (hne type) hid
  cases h with
  | exit type =>
    rw [foldl_requestStop]
    exact hid
  | reloadAll type update all some =>
    rw [stopAll_eq]
    exact Finset.mem_union_left _ hid
  | @loadAll config type update all none =>
    rw [(LaunchFrame.loadModules o (stopAll s config)).pendingReload,stopAll_eq]
    exact Finset.mem_union_left _ hid
  | reloadOne type update one found => exact Finset.mem_insert_of_mem hid
  | reloadNew type update one missing =>
    rw [(LaunchFrame.reloadModule o _ 0 m.payload).pendingReload]
    exact hid
  | complete type child reload all last =>
    rw [(LaunchFrame.reloadAllModules o _).pendingReload]
    exact kept type
  | single type child reload one =>
    rw [(LaunchFrame.reloadModule o _ m.senderId _).pendingReload]
    exact kept type
  | unknown type | barrier type | restart type | erase type => exact kept type
  | ignore | remove | crash => exact hid

/-- A child only goes when its exit is handled, and keeps its name. -/
theorem Dispatch.childrens (h : Dispatch o s m t) {c : ActorMetaData} (hc : c∈s.childrens)
    (hne : m.type=.moduleExited → c.actorId≠m.senderId) :
    ∃ d∈t.childrens,d.actorId=c.actorId ∧ d.moduleName=c.moduleName := by
  have same (ht : t.childrens=s.childrens) :
      ∃ d∈t.childrens,d.actorId=c.actorId ∧ d.moduleName=c.moduleName :=
    ⟨c,ht ▸ hc,rfl,rfl⟩
  cases h with
  | exit type => exact same (by rw [foldl_requestStop])
  | reloadAll type update all some => exact same (by rw [stopAll_eq])
  | @loadAll config type update all none =>
    apply (LaunchFrame.loadModules o (stopAll s config)).childrens
    rw [stopAll_eq]
    exact hc
  | reloadNew type update one missing =>
    exact (LaunchFrame.reloadModule o _ 0 m.payload).childrens c hc
  | complete type child reload all last =>
    exact (LaunchFrame.reloadAllModules o _).childrens c hc
  | single type child reload one =>
    exact (LaunchFrame.reloadModule o _ m.senderId _).childrens c hc
  | erase type child reload restart =>
    exact ⟨c,List.mem_filter.mpr ⟨hc,by simpa using hne type⟩,rfl,rfl⟩
  | ignore | reloadOne | remove | crash | unknown | barrier | restart => exact same rfl

end Effects

/-- One entry of a reload-all: it is passed over, or relaunches the child that it finds, or
adds one. -/
theorem reloadEntry_cases (o : Outcome) (config : AcConfig) (s : State) (mod : AcModule)
    (k : Nat) :
    ((o.opened k).isSome=false ∧ reloadEntry o config s (mod,k)=s) ∨
    (∃ c module,(o.opened k).isSome=true ∧ firstNamed o k s.childrens mod.moduleName=some c ∧
      reloadEntry o config s (mod,k)=s.relaunch c.actorId module) ∨
    (∃ module,(o.opened k).isSome=true ∧ firstNamed o k s.childrens mod.moduleName=none ∧
      reloadEntry o config s (mod,k)=s.emplace mod.moduleName module) := by
  cases ho : o.opened k with
  | none => exact Or.inl ⟨rfl,by simp [reloadEntry,generateCreator,ho]⟩
  | some handle =>
    right
    have hc : generateCreator o config k mod=some ⟨config.path mod,handle⟩ := by
      simp [generateCreator,ho]
    unfold reloadEntry
    simp only [hc]
    cases hf : firstNamed o k s.childrens mod.moduleName with
    | some c => exact Or.inl ⟨c,⟨config.path mod,handle⟩,rfl,rfl,rfl⟩
    | none => exact Or.inr ⟨⟨config.path mod,handle⟩,rfl,rfl,rfl⟩

/-- Some coroutine of the child is live. -/
def Live (s : State) (id : Nat) : Prop := ∃ c∈s.coroutines,c.actorId=id ∧ c.live=true

instance (s : State) (id : Nat) : Decidable (Live s id) :=
  inferInstanceAs (Decidable (∃ c∈s.coroutines,_))

def liveCount (s : State) (id : Nat) : Nat :=
  s.coroutines.countP fun c => c.actorId=id && c.live

theorem liveCount_eq_zero {s : State} {id : Nat} : liveCount s id=0 ↔ ¬Live s id := by
  simp only [liveCount,List.countP_eq_zero,Live,Bool.and_eq_true,decide_eq_true_eq]
  constructor
  · rintro h ⟨c,hc,hl⟩
    exact h c hc hl
  · intro h c hc hl
    exact h ⟨c,hc,hl⟩

theorem liveCount_launch (s : State) (id x : Nat) (module : LoadedModule) :
    liveCount (s.launch id module) x=liveCount s x+if x=id then 1 else 0 := by
  simp only [liveCount,State.launch,List.countP_append,List.countP_cons,List.countP_nil,
    Coroutine.live]
  by_cases hx : x=id
  · simp [hx]
  · simp [hx,Ne.symm hx]

theorem live_launch {s : State} {id x : Nat} {module : LoadedModule} :
    Live (s.launch id module) x ↔ Live s x ∨ x=id := by
  simp only [Live,State.launch,List.mem_append,List.mem_singleton]
  constructor
  · rintro ⟨c,hc | rfl,hid,hl⟩
    · exact Or.inl ⟨c,hc,hid,hl⟩
    · exact Or.inr hid.symm
  · rintro (⟨c,hc,hrest⟩ | rfl)
    · exact ⟨c,Or.inl hc,hrest⟩
    · exact ⟨_,Or.inr rfl,rfl,rfl⟩

/-- Retiring one coroutine in a list. -/
theorem countP_modify {α : Type} (p : α → Bool) (f : α → α) {l : List α} {i : Nat} {a : α}
    (h : l[i]?=some a) :
    (l.modify i f).countP p+(p a).toNat=l.countP p+(p (f a)).toNat := by
  induction l generalizing i with
  | nil => cases h
  | cons b l ih =>
    cases i with
    | zero =>
      cases h
      simp only [List.modify_zero_cons,List.countP_cons]
      cases p a <;> cases p (f a) <;> simp
    | succ i =>
      have hi := ih (i := i) h
      simp only [List.modify_succ_cons,List.countP_cons]
      omega

/-- Whose coroutine it is and from which library, as settled by its launch. -/
def Coroutine.origin (c : Coroutine) : Nat×LoadedModule := (c.actorId,c.module)

def State.origins (s : State) : List (Nat×LoadedModule) := s.coroutines.map (·.origin)

section Taken

variable {s : State} {m : EventMessage} {rest : List EventMessage}

theorem taken_coroutines (h : m.type≠.moduleExited) :
    (taken s m rest).coroutines=s.coroutines := by
  simp [taken,h]

/-- An exit event takes one live coroutine of its sender. -/
theorem Ledger.liveCount_taken (hs : Ledger s) (hm : s.mailbox.messages=m::rest)
    (ht : m.type=.moduleExited) (id : Nat) :
    liveCount (taken s m rest) id+(if id=m.senderId then 1 else 0)=liveCount s id := by
  obtain ⟨c,hc,hid,hp⟩ := hs.exits m (by simp [hm]) ht
  have hcount := countP_modify (fun c : Coroutine => c.actorId=id && c.live)
    (fun c => {c with phase := .retired}) hc
  have hmod : (taken s m rest).coroutines=
      s.coroutines.modify m.serial fun c => {c with phase := .retired} := by
    simp [taken,ht]
  simp only [liveCount,hmod]
  have hlive : c.live=true := by simp [Coroutine.live,hp]
  have hgone (id : Nat) : Coroutine.live ⟨id,c.module,.retired,c.stopped⟩=false := rfl
  by_cases he : id=m.senderId
  · simpa only [hid,he,hlive,hgone,decide_true,Bool.and_self,Bool.and_false,Bool.toNat_true,
      Bool.toNat_false,if_true,Nat.add_zero] using hcount
  · simpa [hid,he,Ne.symm he] using hcount

theorem Ledger.live_of_taken (hs : Ledger s) (hm : s.mailbox.messages=m::rest) {id : Nat}
    (h : Live (taken s m rest) id) : Live s id := by
  by_cases ht : m.type=.moduleExited
  · have hc := hs.liveCount_taken hm ht id
    by_contra hn
    rw [liveCount_eq_zero.mpr hn] at hc
    have := liveCount_eq_zero.mp (by omega : liveCount (taken s m rest) id=0)
    exact this h
  · obtain ⟨c,hc,hrest⟩ := h
    rw [taken_coroutines ht] at hc
    exact ⟨c,hc,hrest⟩

theorem Ledger.live_taken (hs : Ledger s) (hm : s.mailbox.messages=m::rest) {id : Nat}
    (h : Live s id) (hne : m.type=.moduleExited → id≠m.senderId) : Live (taken s m rest) id := by
  by_cases ht : m.type=.moduleExited
  · have hc := hs.liveCount_taken hm ht id
    rw [if_neg (hne ht)] at hc
    by_contra hn
    rw [liveCount_eq_zero.mpr hn] at hc
    exact liveCount_eq_zero.mp hc.symm h
  · rwa [Live,taken_coroutines ht]

variable (s m rest) in
theorem taken_origins : (taken s m rest).origins=s.origins := by
  by_cases ht : m.type=.moduleExited
  · simp only [State.origins,taken,ht,if_true]
    apply List.ext_getElem?
    intro i
    simp only [List.getElem?_map,List.getElem?_modify,Option.map_eq_map,Option.map_map]
    congr 1
    funext c
    simp only [Function.comp,Coroutine.origin]
    split_ifs <;> rfl
  · rw [State.origins,taken_coroutines ht]
    rfl

variable (s m rest) in
theorem taken_actorIds :
    (taken s m rest).coroutines.map (·.actorId)=s.coroutines.map (·.actorId) := by
  have ho := congrArg (List.map Prod.fst) (taken_origins s m rest)
  simp only [State.origins,List.map_map] at ho
  exact ho

variable (s m rest) in
theorem taken_length : (taken s m rest).coroutines.length=s.coroutines.length := by
  simpa using congrArg List.length (taken_actorIds s m rest)

end Taken

/-- Whose coroutine it is, and whether it is live. -/
def Coroutine.tag (c : Coroutine) : Nat×Bool := (c.actorId,c.live)

def State.tags (s : State) : List (Nat×Bool) := s.coroutines.map (·.tag)

theorem live_iff {s : State} {id : Nat} : Live s id ↔ (id,true)∈s.tags := by
  simp only [Live,State.tags,List.mem_map,Coroutine.tag,Prod.mk.injEq]

theorem liveCount_eq (s : State) (id : Nat) : liveCount s id=s.tags.count (id,true) := by
  rw [liveCount,State.tags,List.count,List.countP_map]
  apply List.countP_congr
  intro c _
  simp [Coroutine.tag]

theorem tags_setPhase {s : State} {serial : Nat} {c d : Coroutine} {phase : Phase}
    (hc : s.coroutines[serial]?=some c) (hd : d.actorId=c.actorId) (hl : c.phase≠.retired)
    (hp : phase≠.retired) : (s.setPhase serial d phase).tags=s.tags := by
  obtain ⟨hlt,rfl⟩ := List.getElem?_eq_some_iff.mp hc
  have htag : Coroutine.tag {d with phase := phase}=s.coroutines[serial].tag := by
    simp [Coroutine.tag,Coroutine.live,hd,hl,hp]
  simp only [State.tags,State.setPhase,List.map_set,htag]
  rw [← List.getElem_map Coroutine.tag (h := by simpa using hlt)]
  exact List.set_getElem_self _

/-- What every step leaves alone that does not handle a message. -/
structure Quiet (s t : State) : Prop where
  reloadAllFlag : t.reloadAllFlag=s.reloadAllFlag
  childrens : t.childrens=s.childrens
  pendingReload : t.pendingReload=s.pendingReload
  pendingStop : t.pendingStop=s.pendingStop
  pendingRestart : t.pendingRestart=s.pendingRestart
  config : t.config=s.config
  nextId : t.nextId=s.nextId
  loop : t.loop=s.loop
  exitHandled : t.exitHandled=s.exitHandled
  tags : t.tags=s.tags
  isRunning : t.isRunning=true → s.isRunning=true

theorem ActorMove.quiet {s t : State} {serial : Nat} {c : Coroutine} {a : ActorStep}
    (h : ActorMove s serial c a t) (hc : s.coroutines[serial]?=some c) : Quiet s t := by
  have phase (d : Coroutine) (p : Phase) (hd : d.actorId=c.actorId) (hl : c.phase≠.retired)
      (hp : p≠.retired) : (s.setPhase serial d p).tags=s.tags := tags_setPhase hc hd hl hp
  cases h with
  | start hp | startNull hp | throw hp | report hp | exit hp =>
    exact ⟨rfl,rfl,rfl,rfl,rfl,rfl,rfl,rfl,rfl,phase c _ rfl (by simp [hp]) (by decide),id⟩
  | stop throws hp =>
    exact ⟨rfl,rfl,rfl,rfl,rfl,rfl,rfl,rfl,rfl,
      phase {c with stopped := true} _ rfl (by simp [hp]) (by decide),id⟩
  | receive throws hp =>
    refine ⟨rfl,rfl,rfl,rfl,rfl,rfl,rfl,rfl,rfl,phase c _ rfl (by simp [hp]) ?_,id⟩
    split_ifs <;> decide

theorem ActorMove.origins {s t : State} {serial : Nat} {c : Coroutine} {a : ActorStep}
    (h : ActorMove s serial c a t) (hc : s.coroutines[serial]?=some c) :
    t.origins=s.origins := by
  have phase (d : Coroutine) (p : Phase) (hd : d.origin=c.origin) :
      (s.coroutines.set serial {d with phase := p}).map (·.origin)=s.origins := by
    obtain ⟨hlt,rfl⟩ := List.getElem?_eq_some_iff.mp hc
    have ho : Coroutine.origin {d with phase := p}=s.coroutines[serial].origin := hd
    simp only [State.origins,List.map_set,ho]
    rw [← List.getElem_map Coroutine.origin (h := by simpa using hlt)]
    exact List.set_getElem_self _
  cases h with
  | start | startNull | throw | receive | report | exit => exact phase c _ rfl
  | stop throws => exact phase {c with stopped := true} _ rfl

/-- Only the event loop and the first load launch coroutines. -/
theorem Step.origins {s t : State} {a : Action} (h : Step s a t) (ha : ∀ o,a≠.handle o)
    (hl : ∀ o,a≠.load o) : t.origins=s.origins := by
  cases h with
  | command | post | shutdown | shutdownAgain | clearRunning | sendExit => rfl
  | load => exact absurd rfl (hl _)
  | handle => exact absurd rfl (ha _)
  | actor self enqueued move => exact move.origins self

theorem Step.quiet {s t : State} {a : Action} (h : Step s a t) (ha : ∀ o,a≠.handle o)
    (hl : ∀ o,a≠.load o) : Quiet s t := by
  cases h with
  | command | post | shutdown | shutdownAgain | sendExit =>
    exact ⟨rfl,rfl,rfl,rfl,rfl,rfl,rfl,rfl,rfl,rfl,id⟩
  | clearRunning => exact ⟨rfl,rfl,rfl,rfl,rfl,rfl,rfl,rfl,rfl,rfl,nofun⟩
  | load => exact absurd rfl (hl _)
  | handle => exact absurd rfl (ha _)
  | actor self enqueued move => exact move.quiet self

/-- Only the first load moves on the first load. -/
theorem Step.startup {s t : State} {a : Action} (h : Step s a t) (hl : ∀ o,a≠.load o) :
    t.startup=s.startup := by
  cases h with
  | load => exact absurd rfl (hl _)
  | handle done loop head result effect => cases done <;> exact effect.untouched.startup
  | actor self enqueued move => cases move <;> rfl
  | command | post | shutdown | shutdownAgain | clearRunning | sendExit => rfl

theorem Loading.startup_ne {o : Outcome} {s t : State} (h : Loading o s t) :
    s.startup≠.returned := by
  cases h with
  | begin hs | skip hs | emplace hs | enqueue hs =>
    intro hr
    exact absurd (hs.symm.trans hr) (by simp)

/-- Once the first load has returned it has returned for good. -/
theorem startup_returned {s t : State} {a : Action} (h : s.startup=.returned)
    (hn : next s a=some t) : t.startup=.returned ∧ ∀ o,a≠.load o := by
  have hl : ∀ o,a≠.load o := by
    rintro o rfl
    exact (load_cases hn).startup_ne h
  exact ⟨((next_cases hn).startup hl).trans h,hl⟩

/-- A step handles a message, or it is quiet but for a child that the first load emplaces. -/
inductive Turn (s : State) : Action → State → Prop
  | quiet {a : Action} {t : State} (caller : ∀ o,a≠.handle o) (quiet : Quiet s t) : Turn s a t
  | emplace {o : Outcome} (startup : Startup) (name : String) (module : LoadedModule)
      (loading : s.startup≠.returned) :
      Turn s (.load o) (State.emplace {s with startup := startup} name module)
  | handle {o : Outcome} {m : EventMessage} {rest : List EventMessage} {t : State} (done : Bool)
      (loop : s.loop=true) (head : s.mailbox.messages=m::rest)
      (result : dispatch o (taken s m rest) m=(t,done)) (effect : Dispatch o (taken s m rest) m t) :
      Turn s (.handle o) (finish t done)

theorem Quiet.startup (s : State) (startup : Startup) : Quiet s {s with startup := startup} :=
  ⟨rfl,rfl,rfl,rfl,rfl,rfl,rfl,rfl,rfl,rfl,id⟩

/-- A step of the first load moves it on, and may emplace a child. -/
theorem Loading.shape {o : Outcome} {s t : State} (h : Loading o s t) :
    (∃ startup,t={s with startup := startup}) ∨
      ∃ startup name module,t=State.emplace {s with startup := startup} name module := by
  cases h with
  | begin | skip | enqueue => exact Or.inl ⟨_,rfl⟩
  | emplace => exact Or.inr ⟨_,_,_,rfl⟩

theorem Loading.turn {o : Outcome} {s t : State} (h : Loading o s t) : Turn s (.load o) t := by
  have hne := h.startup_ne
  rcases h.shape with ⟨startup,rfl⟩ | ⟨startup,name,module,rfl⟩
  · exact .quiet (by simp) (.startup s startup)
  · exact .emplace startup name module hne

theorem next_turn {s t : State} {a : Action} (h : next s a=some t) : Turn s a t := by
  cases next_cases h with
  | load effect => exact effect.turn
  | handle done loop head result effect => exact .handle done loop head result effect
  | command m caller loader => exact .quiet caller ((next_cases h).quiet caller loader)
  | shutdown | shutdownAgain | clearRunning | sendExit | actor | post =>
    exact .quiet (by simp) ((next_cases h).quiet (by simp) (by simp))

namespace Quiet

variable {s t : State}

theorem live (h : Quiet s t) {id : Nat} : Live t id ↔ Live s id := by
  rw [live_iff,live_iff,h.tags]

theorem liveCount (h : Quiet s t) (id : Nat) : liveCount t id=liveCount s id := by
  rw [liveCount_eq,liveCount_eq,h.tags]

theorem length (h : Quiet s t) : t.coroutines.length=s.coroutines.length := by
  simpa [State.tags] using congrArg List.length h.tags

theorem keys (h : Quiet s t) : t.keys=s.keys := by rw [State.keys,State.keys,h.childrens]

end Quiet

/-- What holds of the message that a step of the event loop handles. -/
def OnHandle (p : Outcome → EventMessage → Prop) (s : State) : Action → Prop
  | .handle o => ∀ m∈s.mailbox.messages.head?,p o m
  | _ => True

instance (p : Outcome → EventMessage → Prop) [∀ o m,Decidable (p o m)] (s : State) (a : Action) :
    Decidable (OnHandle p s a) :=
  match a with
  | .handle o => inferInstanceAs (Decidable (∀ m∈s.mailbox.messages.head?,p o m))
  | .load _ | .reloadModule _ | .removeModule _ | .shutdown | .clearRunning | .sendExit
  | .actor _ _ | .post _ _ | .postManager _ => isTrue trivial

/-- No message is handled before the first `__load_modules` has returned. -/
def AfterLoad (s : State) (a : Action) : Prop := OnHandle (fun _ _ => s.startup=.returned) s a

instance (s : State) (a : Action) : Decidable (AfterLoad s a) :=
  inferInstanceAs (Decidable (OnHandle _ s a))

/-- While the first load runs, no reload-all has begun. -/
def Early (s : State) : Prop := s.startup≠.returned → s.reloadAllFlag=false

theorem Early.step {s t : State} {a : Action} (h : Early s) (hn : next s a=some t)
    (ok : AfterLoad s a) : Early t := by
  cases next_cases hn with
  | load effect =>
    intro _
    have hs := h effect.startup_ne
    cases effect <;> exact hs
  | handle done loop head result effect =>
    intro ht
    have hr : s.startup=.returned := ok _ (by simp only [head,List.head?_cons]; rfl)
    exact absurd (startup_returned hr hn).1 ht
  | actor self enqueued move => cases move <;> exact h
  | command | post | shutdown | shutdownAgain | clearRunning | sendExit => exact h

section Runs

/-- A configuration that lists the given modules. -/
def listing (names : List String) : AcConfig := ⟨"lib",names.map fun name => ⟨name,name⟩⟩

/-- Reading that configuration succeeds, as does every `dlopen`. -/
def opening (names : List String) : Outcome := ⟨some (listing names),some,fun _ => 0⟩

theorem init_start (config : AcConfig) : machine.start (init config) := ⟨config,rfl⟩

/-- The first load of those modules, from its beginning to its return. -/
def loading (names : List String) : List Action :=
  List.replicate (names.length+2) (.load (opening names))

/-- A coroutine starts, throws, reports and exits. -/
def crashing (serial : Nat) : List Action :=
  [.actor serial .start,.actor serial .throw,.actor serial .report,.actor serial .exit]

end Runs

end Acnet.Manager
