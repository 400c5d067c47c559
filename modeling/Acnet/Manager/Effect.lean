import Acnet.Manager.Handlers
import Mathlib.Data.Finset.Lattice.Lemmas

/-!
What the handlers can do, for every model that they are written over: the effects of a message
and of a step of the first load, and properties that launching keeps.
-/

namespace Acnet.Manager

open Child Members

section Effect

variable {σ κ : Type} [Child κ] [Members σ κ]

def keys (s : σ) : List Nat := (childrens s).map key

theorem Members.mem_keys {s : σ} {c : κ} (h : c∈childrens s) : key c∈keys s := List.mem_map_of_mem h

theorem Members.find_mem {s : σ} {id : Nat} {c : κ} (h : find s id=some c) :
    c∈childrens s ∧ key c=id := by
  constructor
  · exact List.mem_of_find?_eq_some h
  · simpa using List.find?_some h

theorem Members.find_isSome {s : σ} {id : Nat} : (find s id).isSome=true ↔ id∈keys s := by
  simp [find,keys]

theorem Members.find_eq_none {s : σ} {id : Nat} : find s id=none ↔ id∉keys s := by
  simp [find,keys]

omit [Members σ κ] in
theorem Child.firstNamed_mem {o : Outcome} {k : Nat} {l : List κ} {name : String} {c : κ}
    (h : firstNamed o k l name=some c) : c∈l ∧ moduleName c=name := by
  have hm := List.mem_of_getElem? h
  simpa using hm

omit [Members σ κ] in
theorem Child.firstNamed_none {o : Outcome} {k : Nat} {l : List κ} {name : String}
    (h : firstNamed o k l name=none) : ∀ c∈l,moduleName c≠name := by
  intro c hc hn
  have hm : c∈l.filter (moduleName ·=name) := by simp [hc,hn]
  have hpos := List.length_pos_of_mem hm
  simp only [firstNamed,List.getElem?_eq_none_iff] at h
  have := Nat.mod_lt (o.pick k) hpos
  omega

/-- An exit that is handled while the child is to be reloaded. -/
def Reloading (s : σ) (id : Nat) : Prop := isRunning s=true ∧ id∈pendingReload s

/-- An exit that is handled while the child is to be restarted after a crash. -/
def Restarting (s : σ) (id : Nat) : Prop :=
  isRunning s=true ∧ id∉pendingReload s ∧ id∈pendingRestart s ∧ id∉pendingStop s

/-- A crash report of the child is noted. -/
def Noted (s : σ) (id : Nat) : Prop :=
  id∈keys s ∧ isRunning s=true ∧ id∉pendingReload s ∧ id∉pendingStop s

instance (s : σ) (id : Nat) : Decidable (Reloading s id) := inferInstanceAs (Decidable (_ ∧ _))
instance (s : σ) (id : Nat) : Decidable (Restarting s id) := inferInstanceAs (Decidable (_ ∧ _))

/-- Everything that handling a message can do: the state after it, the stop request that it
allocates and whether the event loop returns. -/
inductive Effect (o : Outcome) (s : σ) (m : EventMessage) : σ → Option Broadcast → Bool → Prop
  | other (exit : m.type≠.cmdExit) (reload : m.type≠.cmdModuleReload)
      (remove : m.type≠.cmdModuleRemove) (exited : m.type≠.moduleExited)
      (crash : m.type≠.crashReport) : Effect o s m s none false
  | exitEmpty (type : m.type=.cmdExit) (empty : childrens s=[]) : Effect o s m s none true
  | exit (type : m.type=.cmdExit) (some : childrens s≠[]) :
      Effect o s m ((childrens s).foldl requestStop s)
        (Option.some ⟨(childrens s).length,mailboxes s,false⟩) false
  | reloadFailed (type : m.type=.cmdModuleReload) (update : o.config=none) :
      Effect o s m s none false
  | reloadAll {config : AcConfig} (type : m.type=.cmdModuleReload)
      (update : o.config=some config) (all : m.payload="all")
      (some : pendingReload (requestAll (setConfig s config))≠∅) :
      Effect o s m (requestAll (setConfig s config))
        (Option.some ⟨max (childrens (setConfig s config)).length 1,
          mailboxes (setConfig s config),false⟩) false
  | loadAll {config : AcConfig} (type : m.type=.cmdModuleReload)
      (update : o.config=some config) (all : m.payload="all")
      (none : pendingReload (requestAll (setConfig s config))=∅) :
      Effect o s m (loadModules o (requestAll (setConfig s config)))
        (some ⟨max (childrens (setConfig s config)).length 1,
          mailboxes (setConfig s config),true⟩) false
  | reloadOne {config : AcConfig} {c : κ} (type : m.type=.cmdModuleReload)
      (update : o.config=some config) (one : m.payload≠"all")
      (found : firstNamed o 0 (childrens (setConfig s config)) m.payload=some c) :
      Effect o s m (requestReload (setReloadAllFlag (setConfig s config) false) c)
        (some ⟨1,[mailbox c],false⟩) false
  | reloadNew {config : AcConfig} (type : m.type=.cmdModuleReload)
      (update : o.config=some config) (one : m.payload≠"all")
      (missing : firstNamed o 0 (childrens (setConfig s config)) m.payload=none) :
      Effect o s m (reloadModule o (setReloadAllFlag (setConfig s config) false) 0 m.payload)
        (some ⟨1,[],true⟩) false
  | remove {c : κ} (type : m.type=.cmdModuleRemove)
      (found : firstNamed o 0 (childrens s) m.payload=some c) :
      Effect o s m (requestStop s c) (some ⟨1,[mailbox c],false⟩) false
  | removeMissing (type : m.type=.cmdModuleRemove)
      (missing : firstNamed o 0 (childrens s) m.payload=none) : Effect o s m s none false
  | crash (type : m.type=.crashReport) (noted : Noted s m.senderId) :
      Effect o s m (requestRestart s m.senderId) none false
  | crashIgnored (type : m.type=.crashReport) (ignored : ¬Noted s m.senderId) :
      Effect o s m s none false
  | unknown (type : m.type=.moduleExited) (missing : m.senderId∉keys s) :
      Effect o s m (forget s m.senderId) none false
  | reload {c : κ} (type : m.type=.moduleExited) (child : find s m.senderId=some c)
      (reload : Reloading s m.senderId) :
      Effect o s m (reloadExited o (forget s m.senderId) m.senderId c) none false
  | restart {c : κ} (type : m.type=.moduleExited) (child : find s m.senderId=some c)
      (restart : Restarting s m.senderId) :
      Effect o s m (restartModule (forget s m.senderId) c) none false
  | erase {c : κ} (type : m.type=.moduleExited) (child : find s m.senderId=some c)
      (reload : ¬Reloading s m.senderId) (restart : ¬Restarting s m.senderId) :
      Effect o s m (erase (forget s m.senderId) m.senderId) none
        (!isRunning s && (childrens (erase (forget s m.senderId) m.senderId)).isEmpty)

variable (o : Outcome) (s : σ) (m : EventMessage)

theorem handleCmdReload_effect (type : m.type=.cmdModuleReload) :
    Effect o s m (handleCmdReload o s m.payload).1 (handleCmdReload o s m.payload).2 false := by
  unfold handleCmdReload
  cases hc : o.config with
  | none => exact .reloadFailed type hc
  | some config =>
    simp only [searchModuleAndRemove]
    by_cases hall : m.payload="all"
    · by_cases he : pendingReload (requestAll (setConfig s config))=∅
      · simp only [if_pos hall,if_pos he,if_true]
        exact .loadAll type hc hall he
      · simp only [if_pos hall,if_neg he,if_true]
        exact .reloadAll type hc hall he
    · simp only [if_neg hall]
      cases hf : firstNamed o 0 (childrens (setConfig s config)) m.payload with
      | some c => exact .reloadOne type hc hall hf
      | none => exact .reloadNew type hc hall hf

theorem handleEventExit_effect (type : m.type=.moduleExited) :
    Effect o s m (handleEventExit o s m.senderId).1 none (handleEventExit o s m.senderId).2 := by
  unfold handleEventExit
  cases hf : find s m.senderId with
  | none => exact .unknown type (find_eq_none.mp hf)
  | some c =>
    simp only
    split_ifs with hr hs
    · exact .reload type hf hr
    · exact .restart type hf ⟨hs.1,fun h => hr ⟨hs.1,h⟩,hs.2⟩
    · exact .erase type hf hr fun h => hs ⟨h.1,h.2.2⟩

/-- Handling a message does one of these things. -/
theorem supervise_effect :
    Effect o s m (supervise o s m).1 (supervise o s m).2.1 (supervise o s m).2.2 := by
  unfold supervise
  split
  · rename_i type
    unfold handleCmdExit
    split_ifs with he
    · exact .exitEmpty type (List.isEmpty_iff.mp he)
    · exact .exit type fun hnil => he (List.isEmpty_iff.mpr hnil)
  · rename_i type
    exact handleCmdReload_effect o s m type
  · rename_i type
    unfold handleCmdRemove
    cases hf : firstNamed o 0 (childrens s) m.payload with
    | some c => exact .remove type hf
    | none => exact .removeMissing type hf
  · rename_i type
    exact handleEventExit_effect o s m type
  · rename_i type
    unfold handleEventCrash
    split_ifs with hc
    · exact .crash type ⟨find_isSome.mp hc.1,hc.2⟩
    · exact .crashIgnored type fun hn => hc ⟨find_isSome.mpr hn.1,hn.2⟩
  · rename_i exit reload remove exited crash
    exact .other exit reload remove exited crash

/-- Everything that a step of the first load can do. -/
inductive Loading : σ → Prop
  | begin (startup : startup s=.begin) :
      Loading (setStartup s (.entries (config s) (config s).modules.zipIdx []))
  | skip {config : AcConfig} {mod : AcModule} {k : Nat} {rest : List (AcModule×Nat)}
      {batch : List Nat} (startup : startup s=.entries config ((mod,k)::rest) batch)
      (closed : o.opened k=none) : Loading (setStartup s (.entries config rest batch))
  | emplace {config : AcConfig} {mod : AcModule} {k handle : Nat} {rest : List (AcModule×Nat)}
      {batch : List Nat} (startup : startup s=.entries config ((mod,k)::rest) batch)
      (opened : o.opened k=some handle) :
      Loading (emplace (setStartup s (.entries config rest (batch++[launches s])))
        mod.moduleName ⟨config.path mod,handle⟩)
  | enqueue {config : AcConfig} {batch : List Nat} (startup : startup s=.entries config [] batch) :
      Loading (setStartup s .returned)

variable {o s} in
omit [Child κ] in
theorem load_cases {t : σ} (h : load o s=some t) : Loading o s t := by
  unfold load at h
  split at h
  · rename_i hs
    cases h
    exact .begin hs
  · rename_i config mod k rest batch hs
    cases ho : o.opened k with
    | none =>
      simp only [generateCreator,ho,Option.map_none,Option.some.injEq] at h
      exact h ▸ .skip hs ho
    | some handle =>
      simp only [generateCreator,ho,Option.map_some,Option.some.injEq] at h
      exact h ▸ .emplace hs ho
  · rename_i hs
    cases h
    exact .enqueue hs
  · cases h

end Effect

section Kept

variable {σ κ : Type} [Child κ] [Members σ κ]

section Load

variable {P : σ → Prop} (emplaced : ∀ s name module,P s → P (emplace s name module)) {s : σ}
  (hs : P s)
include emplaced hs

omit [Child κ] in
theorem loadEntry_rec (o : Outcome) (config : AcConfig) (e : AcModule×Nat) :
    P (loadEntry o config s e) := by
  unfold loadEntry
  split
  split
  · exact hs
  · exact emplaced s _ _ hs

omit [Child κ] in
/-- What every new child keeps, loading keeps. -/
theorem loadModules_rec (o : Outcome) : P (loadModules o s) := by
  apply List.foldlRecOn
  · exact hs
  · intro t ht e _
    exact loadEntry_rec emplaced ht o _ e

end Load

/-- A property that a new child and a relaunched one keep. Every opened library makes one or the
other. -/
structure Kept (P : σ → Prop) : Prop where
  emplace : ∀ s name module,P s → P (emplace s name module)
  relaunch : ∀ s c module,c∈childrens s → P s → P (relaunch s c module)

namespace Kept

variable {P : σ → Prop} {s : σ} (h : Kept P) (hs : P s)
include h hs

theorem reloadEntry (o : Outcome) (config : AcConfig) (e : AcModule×Nat) :
    P (reloadEntry o config s e) := by
  unfold Manager.reloadEntry
  split
  split
  · exact hs
  · split
    · rename_i hf
      exact h.relaunch s _ _ (firstNamed_mem hf).1 hs
    · exact h.emplace s _ _ hs

theorem reloadAllModules (o : Outcome) : P (reloadAllModules o s) := by
  apply List.foldlRecOn
  · exact hs
  · intro t ht e _
    exact h.reloadEntry ht o _ e

theorem reloadNamed (o : Outcome) (config : AcConfig) (id : Nat) (e : AcModule×Nat) :
    P (reloadNamed o config id s e) := by
  unfold Manager.reloadNamed
  split
  split
  · exact hs
  · split_ifs
    · exact h.emplace s _ _ hs
    · split
      · exact hs
      · rename_i hf
        exact h.relaunch s _ _ (find_mem hf).1 hs

theorem reloadModule (o : Outcome) (id : Nat) (name : String) :
    P (reloadModule o s id name) := by
  unfold Manager.reloadModule
  split
  · exact hs
  · exact h.reloadNamed hs o _ id _

theorem reloadExited (o : Outcome) (id : Nat) (c : κ) : P (reloadExited o s id c) := by
  unfold Manager.reloadExited
  split_ifs
  · exact h.reloadAllModules hs o
  · exact hs
  · exact h.reloadModule hs o id _

end Kept

end Kept

end Acnet.Manager
