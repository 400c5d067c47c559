import Acnet.Manager.Effect

/-!
Maps between two models of the manager: what the members and their operations commute with, the
handlers commute with.
-/

namespace Acnet.Manager

open Child Members

variable {σ κ τ ι : Type} [Child κ] [Members σ κ] [Child ι] [Members τ ι]

/-- `f` maps the states of one model to those of another and `g` their children. `P` is what
holds of the states that are mapped. -/
structure Morphism (P : σ → Prop) (f : σ → τ) (g : κ → ι) : Prop where
  key : ∀ c,key (g c)=key c
  mailbox : ∀ c,mailbox (g c)=mailbox c
  moduleName : ∀ c,moduleName (g c)=moduleName c
  isRunning : ∀ s,isRunning (f s)=isRunning s
  reloadAllFlag : ∀ s,reloadAllFlag (f s)=reloadAllFlag s
  childrens : ∀ s,childrens (f s)=(childrens s).map g
  pendingReload : ∀ s,pendingReload (f s)=pendingReload s
  pendingStop : ∀ s,pendingStop (f s)=pendingStop s
  pendingRestart : ∀ s,pendingRestart (f s)=pendingRestart s
  config : ∀ s,config (f s)=config s
  startup : ∀ s,startup (f s)=startup s
  launches : ∀ s,launches (f s)=launches s
  setReloadAllFlag : ∀ s flag,setReloadAllFlag (f s) flag=f (setReloadAllFlag s flag)
  setConfig : ∀ s config,setConfig (f s) config=f (setConfig s config)
  setStartup : ∀ s startup,setStartup (f s) startup=f (setStartup s startup)
  emplace : ∀ s name module,P s → emplace (f s) name module=f (emplace s name module)
  relaunch : ∀ s c module,relaunch (f s) (g c) module=f (relaunch s c module)
  restartModule : ∀ s c,restartModule (f s) (g c)=f (restartModule s c)
  erase : ∀ s id,erase (f s) id=f (erase s id)
  requestReload : ∀ s c,requestReload (f s) (g c)=f (requestReload s c)
  requestStop : ∀ s c,requestStop (f s) (g c)=f (requestStop s c)
  requestRestart : ∀ s id,requestRestart (f s) id=f (requestRestart s id)
  forget : ∀ s id,forget (f s) id=f (forget s id)
  kept : Kept P
  kept_setReloadAllFlag : ∀ s flag,P s → P (Members.setReloadAllFlag s flag)
  kept_setConfig : ∀ s config,P s → P (Members.setConfig s config)
  kept_setStartup : ∀ s startup,P s → P (Members.setStartup s startup)
  kept_requestReload : ∀ s c,P s → P (Members.requestReload s c)
  kept_forget : ∀ s id,P s → P (Members.forget s id)

namespace Morphism

variable {P : σ → Prop} {f : σ → τ} {g : κ → ι} (h : Morphism P f g)
include h

theorem find (s : σ) (id : Nat) : find (f s) id=(find s id).map g := by
  simp only [Manager.find,h.childrens,List.find?_map,Function.comp_def,h.key]

theorem mailboxes (s : σ) : mailboxes (f s)=mailboxes s := by
  simp only [Manager.mailboxes,h.childrens,List.map_map,Function.comp_def,h.mailbox]

theorem firstNamed (o : Outcome) (k : Nat) (s : σ) (name : String) :
    firstNamed o k (Members.childrens (f s)) name=
      (firstNamed o k (Members.childrens s) name).map g := by
  simp only [Manager.firstNamed,h.childrens,List.filter_map,Function.comp_def,h.moduleName,
    List.length_map,List.getElem?_map]

omit [Child κ] [Members σ κ] [Child ι] [Members τ ι] h in
/-- A loop commutes with `f` if its body does. -/
theorem foldl {α β : Type} {F : τ → β → τ} {G : σ → α → σ} (b : α → β) {s : σ} (hs : P s)
    (hP : ∀ t x,P t → P (G t x)) (hfg : ∀ t x,P t → F (f t) (b x)=f (G t x)) (l : List α) :
    (l.map b).foldl F (f s)=f (l.foldl G s) := by
  induction l generalizing s with
  | nil => rfl
  | cons x l ih =>
    rw [List.map_cons,List.foldl_cons,List.foldl_cons,hfg s x hs]
    exact ih (hP s x hs)

section Loops

variable {s : σ} (hs : P s)
include hs

theorem loadEntry (o : Outcome) (config : AcConfig) (e : AcModule×Nat) :
    loadEntry o config (f s) e=f (loadEntry o config s e) := by
  obtain ⟨mod,k⟩ := e
  simp only [Manager.loadEntry]
  cases generateCreator o config k mod with
  | none => rfl
  | some module => exact h.emplace s _ _ hs

theorem loadModules (o : Outcome) : loadModules o (f s)=f (loadModules o s) := by
  unfold Manager.loadModules
  rw [h.config]
  have hloop := foldl (f := f) id hs (fun t x ht => loadEntry_rec h.kept.emplace ht o _ x)
    (fun t x ht => h.loadEntry ht o (Members.config s) x) (Members.config s).modules.zipIdx
  rwa [List.map_id] at hloop

theorem reloadEntry (o : Outcome) (config : AcConfig) (e : AcModule×Nat) :
    reloadEntry o config (f s) e=f (reloadEntry o config s e) := by
  obtain ⟨mod,k⟩ := e
  simp only [Manager.reloadEntry]
  cases generateCreator o config k mod with
  | none => rfl
  | some module =>
    simp only [h.firstNamed]
    cases Manager.firstNamed o k (Members.childrens s) mod.moduleName with
    | none => exact h.emplace s _ _ hs
    | some c => exact h.relaunch s c module

theorem reloadAllModules (o : Outcome) : reloadAllModules o (f s)=f (reloadAllModules o s) := by
  unfold Manager.reloadAllModules
  rw [h.config]
  have hloop := foldl (f := f) id hs (fun t x ht => h.kept.reloadEntry ht o _ x)
    (fun t x ht => h.reloadEntry ht o (Members.config s) x) (Members.config s).modules.zipIdx
  rwa [List.map_id] at hloop

theorem reloadNamed (o : Outcome) (config : AcConfig) (id : Nat) (e : AcModule×Nat) :
    reloadNamed o config id (f s) e=f (reloadNamed o config id s e) := by
  obtain ⟨mod,k⟩ := e
  simp only [Manager.reloadNamed]
  cases generateCreator o config k mod with
  | none => rfl
  | some module =>
    simp only [h.find]
    split_ifs
    · exact h.emplace s _ _ hs
    · cases Manager.find s id with
      | none => rfl
      | some c => exact h.relaunch s c module

theorem reloadModule (o : Outcome) (id : Nat) (name : String) :
    reloadModule o (f s) id name=f (reloadModule o s id name) := by
  unfold Manager.reloadModule
  rw [h.config]
  split
  · rfl
  · exact h.reloadNamed hs o _ id _

theorem reloadExited (o : Outcome) (id : Nat) (c : κ) :
    reloadExited o (f s) id (g c)=f (reloadExited o s id c) := by
  unfold Manager.reloadExited
  rw [h.reloadAllFlag,h.pendingReload,h.moduleName]
  split_ifs
  · exact h.reloadAllModules hs o
  · rfl
  · exact h.reloadModule hs o id _

theorem requestAll : requestAll (f s)=f (requestAll s) := by
  unfold Manager.requestAll
  rw [h.childrens,h.setReloadAllFlag]
  exact foldl g (h.kept_setReloadAllFlag s true hs) h.kept_requestReload
    (fun t c _ => h.requestReload t c) _

theorem kept_requestAll : P (Manager.requestAll s) := by
  apply List.foldlRecOn
  · exact h.kept_setReloadAllFlag s true hs
  · intro t ht c _
    exact h.kept_requestReload t c ht

theorem searchModuleAndRemove (o : Outcome) (name : String) :
    searchModuleAndRemove o (f s) name=
      (f (searchModuleAndRemove o s name).1,(searchModuleAndRemove o s name).2) := by
  unfold Manager.searchModuleAndRemove
  by_cases hall : name="all"
  · simp only [if_pos hall,h.requestAll hs,h.pendingReload,h.mailboxes,h.childrens,
      List.length_map]
    split_ifs
    · rw [h.loadModules (h.kept_requestAll hs) o]
    · rfl
  · simp only [if_neg hall,h.firstNamed]
    cases Manager.firstNamed o 0 (Members.childrens s) name with
    | none => simp only [Option.map_none,h.setReloadAllFlag]
    | some c => simp only [Option.map_some,h.setReloadAllFlag,h.requestReload,h.mailbox]

theorem kept_searchModuleAndRemove (o : Outcome) (name : String) :
    P (Manager.searchModuleAndRemove o s name).1 := by
  unfold Manager.searchModuleAndRemove
  split_ifs
  · exact loadModules_rec h.kept.emplace (h.kept_requestAll hs) o
  · exact h.kept_requestAll hs
  · split
    · exact h.kept_requestReload _ _ (h.kept_setReloadAllFlag s false hs)
    · exact h.kept_setReloadAllFlag s false hs

theorem handleCmdReload (o : Outcome) (name : String) :
    handleCmdReload o (f s) name=(f (handleCmdReload o s name).1,(handleCmdReload o s name).2) := by
  unfold Manager.handleCmdReload
  cases o.config with
  | none => rfl
  | some config =>
    have hc := h.kept_setConfig s config hs
    simp only [h.setConfig,h.searchModuleAndRemove hc]
    split_ifs
    · rfl
    · rw [h.reloadModule (h.kept_searchModuleAndRemove hc o name)]

theorem handleEventExit (o : Outcome) (id : Nat) :
    handleEventExit o (f s) id=(f (handleEventExit o s id).1,(handleEventExit o s id).2) := by
  unfold Manager.handleEventExit
  simp only [h.find,h.isRunning,h.pendingReload,h.pendingRestart,h.pendingStop,h.forget,h.erase,
    h.childrens,List.isEmpty_map]
  cases Manager.find s id with
  | none => rfl
  | some c =>
    simp only [Option.map_some,h.restartModule,h.reloadExited (h.kept_forget s id hs)]
    split_ifs <;> rfl

end Loops

theorem handleCmdExit (s : σ) :
    handleCmdExit (f s)=(f (handleCmdExit s).1,(handleCmdExit s).2) := by
  unfold Manager.handleCmdExit
  have hloop : ((Members.childrens s).map g).foldl Members.requestStop (f s)=
      f ((Members.childrens s).foldl Members.requestStop s) :=
    foldl (P := fun _ => True) g trivial (fun _ _ _ => trivial) (fun t c _ => h.requestStop t c) _
  simp only [h.mailboxes,h.childrens,hloop,List.isEmpty_map,List.length_map]
  split_ifs <;> rfl

theorem handleCmdRemove (o : Outcome) (s : σ) (name : String) :
    handleCmdRemove o (f s) name=(f (handleCmdRemove o s name).1,(handleCmdRemove o s name).2) := by
  unfold Manager.handleCmdRemove
  rw [h.firstNamed]
  cases Manager.firstNamed o 0 (Members.childrens s) name with
  | none => rfl
  | some c => simp only [Option.map_some,h.requestStop,h.mailbox]

theorem handleEventCrash (s : σ) (id : Nat) :
    handleEventCrash (f s) id=f (handleEventCrash s id) := by
  unfold Manager.handleEventCrash
  rw [h.find,Option.isSome_map,h.isRunning,h.pendingReload,h.pendingStop,h.requestRestart]
  split_ifs <;> rfl

/-- Every message has the same effect in both models, and the same stop request. -/
theorem supervise {s : σ} (hs : P s) (o : Outcome) (m : EventMessage) :
    supervise o (f s) m=(f (supervise o s m).1,(supervise o s m).2) := by
  unfold Manager.supervise
  split
  · exact h.handleCmdExit s
  · rw [h.handleCmdReload hs]
  · rw [h.handleCmdRemove]
  · rw [h.handleEventExit hs]
  · rw [h.handleEventCrash]
  · rfl

/-- So has every step of the first load. -/
theorem load {s : σ} (hs : P s) (o : Outcome) : load o (f s)=(load o s).map f := by
  unfold Manager.load
  rw [h.startup,h.config,h.launches]
  split
  · rw [h.setStartup]
    rfl
  · rename_i config mod k rest batch _
    simp only [h.setStartup]
    cases generateCreator o config k mod with
    | none => rfl
    | some module => exact congrArg some (h.emplace _ _ _ (h.kept_setStartup s _ hs))
  · rw [h.setStartup]
    rfl
  · rfl

end Morphism

end Acnet.Manager
