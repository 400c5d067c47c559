import Acnet.Manager.Frame

namespace Acnet.Manager

/-- How many stop requests are in the mailbox of a child. -/
def stops (s : State) (id : Nat) : Nat :=
  (s.mailboxes id).messages.countP (·.type=.cmdModuleStop)

/-- Every live coroutine of the child is in its loop. -/
def Attending (s : State) (id : Nat) : Prop :=
  ∀ c∈s.coroutines,c.actorId=id → c.live=true → c.inLoop=true

/-- A stop request that is sent now is the only one, and will be received. -/
def Listening (s : State) (id : Nat) : Prop := stops s id=0 ∧ Attending s id

/-- The children that a reload command stops. -/
def selected (o : Outcome) (s : State) (name : String) : List ActorMetaData :=
  if name="all" then s.childrens else (firstNamed o 0 s.childrens name).toList

/-- The coroutine leaves its loop by itself, not for a stop request. -/
def Abandons (s : State) (c : Coroutine) : ActorStep → Prop
  | .startNull | .throw => True
  | .receive true => ∀ m∈(s.mailboxes c.actorId).messages.head?,m.type≠.cmdModuleStop
  | _ => False

/-- The exit of the child launches it again or may do so, since it is to be reloaded or not to be
removed. -/
def Relaunchable (s : State) (id : Nat) : Prop :=
  id∈s.keys ∧ (id∈s.pendingReload ∨ id∉s.pendingStop)

/-- No reload-all waits for others to launch the child again. -/
def NotWaiting (s : State) (id : Nat) : Prop :=
  id∉s.pendingReload → s.reloadAllFlag=true → s.pendingReload=∅

/-- A removal does not stop a child that is to be reloaded unless it listens, nor one that waits
for the others of a reload-all. -/
def Removable (s : State) (id : Nat) : Prop :=
  (id∈s.pendingReload → Live s id → Listening s id) ∧ NotWaiting s id

/-- While the manager runs, a child that may be launched again is sent a stop request only while
it listens, by the manager or by anybody else, and it does not leave its loop by itself while one
is in its mailbox. -/
def HeardStops (s : State) (a : Action) (_ : State) : Prop :=
  s.isRunning=true →
    match a with
    | .handle o => ∀ m∈s.mailbox.messages.head?,
        (m.type=.cmdModuleReload → o.config.isSome=true → ∀ c∈selected o s m.payload,
          Live s c.actorId → Listening s c.actorId) ∧
        (m.type=.cmdModuleRemove → ∀ c∈firstNamed o 0 s.childrens m.payload,
          Removable s c.actorId)
    | .actor serial step => ∀ c∈s.coroutines[serial]?,Abandons s c step →
        Relaunchable s c.actorId → stops s c.actorId=0
    | .post id m => m.type=.cmdModuleStop → id∈s.keys →
        (Relaunchable s id → Live s id → Listening s id) ∧ NotWaiting s id
    | _ => True

/-- A child that a step launches again finds no stop request in its mailbox. -/
def CleanLaunch (s t : State) : Prop :=
  ∀ c∈t.coroutines.drop s.coroutines.length,c.actorId∈s.keys → stops t c.actorId=0

/-- Where stop requests can be: at most one with a live child that may be launched again, which
will receive it, and none with one that a reload-all launches again. -/
structure Accounted (s : State) : Prop where
  waiting : ∀ id,Relaunchable s id → Live s id → stops s id ≤ 1 ∧ (stops s id≠0 → Attending s id)
  barrier : s.reloadAllFlag=true → s.pendingReload≠∅ →
    ∀ id∈s.keys,id∉s.pendingReload → stops s id=0

section Mailboxes

variable {s t : State} {id x : Nat}

theorem stops_congr (h : t.mailboxes id=s.mailboxes id) : stops t id=stops s id := by
  rw [stops,stops,h]

theorem stops_request {box : Fifo EventMessage} (h : s.mailboxes id=box)
    (ht : t.mailboxes id=box.send kMailBoxSize stopMessage) : stops t id ≤ stops s id+1 := by
  rw [stops,stops,h,ht]
  exact Fifo.countP_send_le _ _ _ _

theorem stops_send_of_ne (h : x≠id) (m : EventMessage) : stops (s.send id m) x=stops s x :=
  stops_congr (Function.update_of_ne h _ _)

theorem stops_send_le {m : EventMessage} (hm : m.type≠.cmdModuleStop) :
    stops (s.send id m) x ≤ stops s x := by
  by_cases hx : x=id
  · subst hx
    have hsent : (s.send x m).mailboxes x=(s.mailboxes x).send kMailBoxSize m :=
      Function.update_self _ _ _
    have hc := Fifo.countP_send_le kMailBoxSize m (s.mailboxes x) fun m => m.type=.cmdModuleStop
    rw [stops,stops,hsent]
    simpa [hm] using hc
  · exact (stops_send_of_ne hx m).le

theorem stops_send_self (m : EventMessage) : stops (s.send id m) id ≤ stops s id+1 := by
  have hsent : (s.send id m).mailboxes id=(s.mailboxes id).send kMailBoxSize m :=
    Function.update_self _ _ _
  have hc := Fifo.countP_send_le kMailBoxSize m (s.mailboxes id) fun m => m.type=.cmdModuleStop
  have hone := Bool.toNat_le (decide (m.type=.cmdModuleStop))
  rw [stops,stops,hsent]
  omega

theorem stops_receive {m : EventMessage} {rest : List EventMessage}
    (h : (s.mailboxes id).messages=m::rest) :
    stops (s.setMailbox id {s.mailboxes id with messages := rest}) x+
      (if x=id ∧ m.type=.cmdModuleStop then 1 else 0)=stops s x := by
  by_cases hx : x=id
  · subst hx
    simp only [stops,State.setMailbox,Function.update_self,h,List.countP_cons,
      decide_eq_true_eq,true_and]
  · simp only [hx,false_and,if_false,Nat.add_zero]
    exact stops_congr (Function.update_of_ne hx _ _)

end Mailboxes

section Coroutines

variable {s t : State} {id : Nat}

theorem Attending.congr (h : Attending s id) (hc : t.coroutines=s.coroutines) :
    Attending t id := by
  rw [Attending,hc]
  exact h

theorem Attending.setPhase {serial : Nat} {d : Coroutine} {phase : Phase} (h : Attending s id)
    (hp : d.actorId=id → phase=.launched ∨ phase=.running) :
    Attending (s.setPhase serial d phase) id := by
  intro c hc hid hl
  rcases List.mem_or_eq_of_mem_set hc with hc | rfl
  · exact h c hc hid hl
  · simpa [Coroutine.inLoop] using hp hid

theorem Attending.taken {m : EventMessage} {rest : List EventMessage} (h : Attending s id) :
    Attending (taken s m rest) id := by
  by_cases ht : m.type=.moduleExited
  · intro c hc hid hl
    simp only [Manager.taken,ht,if_true] at hc
    obtain ⟨i,hi⟩ := List.mem_iff_getElem?.mp hc
    simp only [List.getElem?_modify,Option.map_eq_map,Option.map_eq_some_iff] at hi
    obtain ⟨d,hd,rfl⟩ := hi
    split_ifs at hid hl ⊢
    · cases hl
    · exact h d (List.mem_of_getElem? hd) hid hl
  · exact h.congr (taken_coroutines ht)

end Coroutines

namespace Accounted

variable {s t : State}

/-- A step that handles no message, takes only from the children's mailboxes and lets no
coroutine leave its loop while its child may be launched again and a stop request is there. -/
theorem quiet (h : Accounted s) (hq : Quiet s t) (hs : ∀ id,stops t id ≤ stops s id)
    (ha : ∀ id,Relaunchable s id → stops t id≠0 → Attending s id → Attending t id) :
    Accounted t where
  waiting id hid hl := by
    rw [Relaunchable,hq.keys,hq.pendingReload,hq.pendingStop] at hid
    obtain ⟨hle,hatt⟩ := h.waiting id hid (hq.live.mp hl)
    have hst := hs id
    exact ⟨hst.trans hle,fun hne => ha id hid hne (hatt (by omega))⟩
  barrier hf hp id hk hid := by
    rw [hq.reloadAllFlag] at hf
    rw [hq.pendingReload] at hp hid
    rw [hq.keys] at hk
    have hst := hs id
    have hz := h.barrier hf hp id hk hid
    omega

/-- Somebody other than the manager sends a stop request. -/
theorem post (h : Accounted s) {id : Nat} (m : EventMessage)
    (ok : id∈s.keys → (Relaunchable s id → Live s id → Listening s id) ∧ NotWaiting s id) :
    Accounted (s.send id m) where
  waiting x hx hl := by
    by_cases he : x=id
    · subst he
      obtain ⟨hz,hatt⟩ := (ok hx.1).1 hx hl
      have hsent : stops (s.send x m) x ≤ stops s x+1 := stops_send_self m
      exact ⟨by omega,fun _ => hatt⟩
    · rw [stops_send_of_ne he]
      exact h.waiting x hx hl
  barrier hf hp x hk hx := by
    by_cases he : x=id
    · subst he
      exact absurd ((ok hk).2 hx hf) hp
    · rw [stops_send_of_ne he]
      exact h.barrier hf hp x hk hx

/-- The manager forgets a child whose mailbox has no stop request, or that it erases. -/
theorem forget (h : Accounted s) {id : Nat} (hr : t.pendingReload=s.pendingReload.erase id)
    (hs : t.pendingStop=s.pendingStop.erase id) (hf : t.reloadAllFlag=s.reloadAllFlag)
    (hm : t.mailboxes=s.mailboxes) (hc : t.coroutines=s.coroutines)
    (hk : ∀ x∈t.keys,x∈s.keys ∧ (x=id → stops s x=0)) : Accounted t := by
  have hst (x : Nat) : stops t x=stops s x := stops_congr (by rw [hm])
  refine ⟨fun x hx hl => ?_,fun hflag hp x hx hn => ?_⟩
  · obtain ⟨hxs,hz⟩ := hk x hx.1
    rw [hst]
    by_cases hxid : x=id
    · rw [hz hxid]
      exact ⟨Nat.zero_le 1,fun hne => absurd rfl hne⟩
    · have hre := hx.2
      rw [hr,hs,Finset.mem_erase,Finset.mem_erase] at hre
      simp only [hxid,ne_eq,not_false_eq_true,true_and] at hre
      rw [Live,hc] at hl
      obtain ⟨hle,hatt⟩ := h.waiting x ⟨hxs,hre⟩ hl
      exact ⟨hle,fun hne => (hatt hne).congr hc⟩
  · rw [hst]
    obtain ⟨hxs,hz⟩ := hk x hx
    by_cases hxid : x=id
    · exact hz hxid
    · apply h.barrier (hf ▸ hflag) _ x hxs
      · intro hmem
        rw [hr] at hn
        exact hn (Finset.mem_erase_of_ne_of_mem hxid hmem)
      · intro he
        simp [hr,he] at hp

/-- Children are launched again that have no stop request in their mailbox. -/
theorem launch {p : Nat → Prop} (h : Accounted s) (hl : Ledger s) (ht : Ledger t)
    (hf : LaunchFrame p s t) (hp : ∀ id∈s.keys,p id → stops s id=0) : Accounted t := by
  obtain ⟨l,hco,hnew⟩ := hf.coroutines
  have hold {id : Nat} (hid : id∈s.keys) : stops t id=stops s id :=
    stops_congr (hf.mailboxes id (hl.keys_lt id hid).2)
  have hzero {id : Nat} (hid : id∈t.keys) (hn : s.nextId ≤ id) : stops t id=0 := by
    rw [stops,hf.fresh id hn (ht.keys_lt id hid).2]
    rfl
  refine ⟨fun id hid hlive => ?_,fun hflag hne id hk hid => ?_⟩
  · obtain ⟨hkt,hre⟩ := hid
    rw [hf.pendingReload,hf.pendingStop] at hre
    by_cases hz : stops t id=0
    · exact ⟨by omega,fun hne => absurd hz hne⟩
    · -- The child was live before, since whatever is launched has no stop request.
      have hk : id∈s.keys := (hf.keys id hkt).resolve_right fun hn => hz (hzero hkt hn)
      have hsame (c : Coroutine) (hc : c∈t.coroutines) (hcid : c.actorId=id) :
          c∈s.coroutines := by
        rw [hco] at hc
        rcases List.mem_append.mp hc with hc | hc
        · exact hc
        · rcases (hnew c hc).2 with hpc | hn
          · exact absurd ((hold hk).trans (hp id hk (hcid ▸ hpc))) hz
          · have := (hl.keys_lt id hk).2
            omega
      obtain ⟨c,hc,hcid,hcl⟩ := hlive
      obtain ⟨hle,hatt⟩ := h.waiting id ⟨hk,hre⟩ ⟨c,hsame c hc hcid,hcid,hcl⟩
      rw [hold hk]
      exact ⟨hle,fun hne d hd hdid hdl => hatt hne d (hsame d hd hdid) hdid hdl⟩
  · rw [hf.reloadAllFlag] at hflag
    rw [hf.pendingReload] at hid hne
    rcases hf.keys id hk with hks | hn
    · rw [hold hks]
      exact h.barrier hflag hne id hks hid
    · exact hzero hk hn

/-- Children are sent a stop request while they listen and are noted for reloading. -/
theorem request (h : Accounted s) {ids : List Nat} (hnd : ids.Nodup)
    (hr : ∀ id,id∈t.pendingReload ↔ id∈s.pendingReload ∨ id∈ids)
    (hst : t.pendingStop=s.pendingStop) (hc : t.coroutines=s.coroutines) (hk : t.keys=s.keys)
    (hm : t.mailboxes=stopped ids s.mailboxes)
    (hf : t.reloadAllFlag=true → ∀ id∈s.keys,id∈ids)
    (hlisten : ∀ id∈ids,Live s id → Listening s id) : Accounted t := by
  have hother {id : Nat} (hid : id∉ids) : stops t id=stops s id :=
    stops_congr (by rw [hm,stopped_of_not_mem hid])
  refine ⟨fun id hid hl => ?_,fun hflag _ id hks hid => ?_⟩
  · rw [Live,hc] at hl
    by_cases hmem : id∈ids
    · obtain ⟨hz,hatt⟩ := hlisten id hmem hl
      have hsent := stops_request (t := t) rfl ((congrFun hm id).trans (stopped_of_mem hmem hnd _))
      exact ⟨by omega,fun _ => hatt.congr hc⟩
    · rw [Relaunchable,hk,hr,hst,or_iff_left hmem] at hid
      obtain ⟨hle,hatt⟩ := h.waiting id hid hl
      rw [hother hmem]
      exact ⟨hle,fun hne => (hatt hne).congr hc⟩
  · rw [hk] at hks
    rw [hr,not_or] at hid
    exact absurd (hf hflag id hks) hid.2

end Accounted

theorem LaunchFrame.clean {p : Nat → Prop} {s t : State} (hf : LaunchFrame p s t)
    (hl : Ledger s) (hp : ∀ id∈s.keys,p id → stops s id=0) : CleanLaunch s t := by
  obtain ⟨l,hco,hnew⟩ := hf.coroutines
  intro c hc hk
  rw [hco,List.drop_left] at hc
  have hlt := (hl.keys_lt _ hk).2
  rw [stops_congr (hf.mailboxes _ hlt)]
  apply hp _ hk
  rcases (hnew c hc).2 with h | h
  · exact h
  · omega

theorem CleanLaunch.of_length {s t : State} (h : t.coroutines.length ≤ s.coroutines.length) :
    CleanLaunch s t := by
  intro c hc
  rw [List.drop_eq_nil_of_le h] at hc
  cases hc

theorem CleanLaunch.congr {s t u : State} (h : CleanLaunch u t)
    (hc : u.coroutines.length=s.coroutines.length) (hk : u.keys=s.keys) : CleanLaunch s t := by
  rwa [CleanLaunch,hc,hk] at h

section Requests

variable {s : State}

theorem Accounted.stopAll (h : Accounted s) (hs : Ledger s) (config : AcConfig)
    (hl : ∀ c∈s.childrens,Live s c.actorId → Listening s c.actorId) :
    Accounted (Manager.stopAll s config) := by
  rw [stopAll_eq]
  apply h.request hs.keys_nodup
  · intro id
    simp
  · rfl
  · rfl
  · rfl
  · rfl
  · exact fun _ _ hid => hid
  · intro id hid
    obtain ⟨c,hc,rfl⟩ := List.mem_map.mp hid
    exact hl c hc

theorem Accounted.requestReload (h : Accounted s) (config : AcConfig) {c : ActorMetaData}
    (hl : Live s c.actorId → Listening s c.actorId) :
    Accounted (State.requestReload {s with config := config, reloadAllFlag := false} c) := by
  apply h.request (List.nodup_singleton c.actorId)
  · intro id
    simp [State.requestReload,or_comm]
  · rfl
  · rfl
  · rfl
  · rfl
  · exact fun hf => absurd hf Bool.false_ne_true
  · intro id hid
    obtain rfl := List.mem_singleton.mp hid
    exact hl

theorem Accounted.requestStop (h : Accounted s) {c : ActorMetaData}
    (hc : Removable s c.actorId) : Accounted (s.requestStop c) := by
  have hother {id : Nat} (hid : id≠c.actorId) : stops (s.requestStop c) id=stops s id :=
    stops_send_of_ne hid stopMessage
  refine ⟨fun id hid hl => ?_,fun hflag hp id hk hid => ?_⟩
  · obtain ⟨hk,hre⟩ := hid
    by_cases he : id=c.actorId
    · subst he
      have hmem := hre.resolve_right fun hn => hn (Finset.mem_insert_self _ _)
      obtain ⟨hz,hatt⟩ := hc.1 hmem hl
      have hsent : stops (s.requestStop c) c.actorId ≤ stops s c.actorId+1 :=
        stops_send_self stopMessage
      exact ⟨by omega,fun _ => hatt⟩
    · rw [hother he]
      refine h.waiting id ⟨hk,hre.imp_right fun hn => ?_⟩ hl
      exact fun hmem => hn (Finset.mem_insert_of_mem hmem)
  · by_cases he : id=c.actorId
    · exact absurd (hc.2 (he ▸ hid) hflag) hp
    · rw [hother he]
      exact h.barrier hflag hp id hk hid

end Requests

/-- The exit of a child is handled and children are launched again, none of them with a stop
request in its mailbox. -/
theorem Accounted.relaunches {s t : State} {p : Nat → Prop} {id : Nat} (h : Accounted s)
    (hs : Ledger s) (ht : Ledger t) (hf : LaunchFrame p (s.forget id) t) (hz : stops s id=0)
    (hp : ∀ x∈s.keys,p x → stops s x=0) : Accounted t ∧ CleanLaunch s t := by
  have hfl : Ledger (s.forget id) := hs.op (.forget _)
  have hu : Accounted (s.forget id) :=
    h.forget rfl rfl rfl rfl rfl fun x hx => ⟨hx,fun he => he ▸ hz⟩
  exact ⟨hu.launch hfl ht hf hp,hf.clean hfl hp⟩

/-- While the manager runs, handling a message keeps account of the stop requests. -/
theorem Accounted.dispatch {o : Outcome} {s t : State} {m : EventMessage} (h : Accounted s)
    (hs : Ledger s) (ht : Ledger t) (hexit : m.type≠.cmdExit)
    (hreload : m.type=.cmdModuleReload → o.config.isSome=true →
      ∀ c∈selected o s m.payload,Live s c.actorId → Listening s c.actorId)
    (hremove : m.type=.cmdModuleRemove → ∀ c∈firstNamed o 0 s.childrens m.payload,
      Removable s c.actorId)
    (hclean : m.type=.moduleExited → Relaunchable s m.senderId → stops s m.senderId=0)
    (hd : Dispatch o s m t) : Accounted t ∧ CleanLaunch s t := by
  have hstopAll {config : AcConfig} (type : m.type=.cmdModuleReload)
      (update : o.config=some config) (all : m.payload="all") :
      Accounted (Manager.stopAll s config) := by
    have hl := hreload type (by simp [update])
    rw [selected,if_pos all] at hl
    exact h.stopAll hs config hl
  cases hd with
  | ignore => exact ⟨h,.of_length (Nat.le_refl _)⟩
  | exit type => exact absurd type hexit
  | reloadAll type update all some =>
    refine ⟨hstopAll type update all,.of_length ?_⟩
    rw [stopAll_eq]
  | @loadAll config type update all none =>
    have hf := LaunchFrame.loadModules o (Manager.stopAll s config)
    have hl := hs.stopAll config
    refine ⟨(hstopAll type update all).launch hl ht hf fun _ _ h => h.elim,?_⟩
    exact (hf.clean hl fun _ _ h => h.elim).congr (by rw [stopAll_eq]) (by rw [stopAll_eq]; rfl)
  | @reloadOne config c type update one found =>
    have hl := hreload type (by simp [update])
    rw [selected,if_neg one,found] at hl
    exact ⟨h.requestReload config (hl c (by simp)),.of_length (Nat.le_refl _)⟩
  | @reloadNew config type update one missing =>
    have hf := LaunchFrame.reloadModule o {s with config := config, reloadAllFlag := false} 0
      m.payload
    have hl := hs.op (.configure config false)
    have hzero : 0∉s.keys := fun hk => Nat.lt_irrefl 0 (hs.keys_lt 0 hk).1
    have hu : Accounted {s with config := config, reloadAllFlag := false} := ⟨h.waiting,by simp⟩
    have hnone : ∀ id∈s.keys,id=0 → stops s id=0 := by
      rintro _ hk rfl
      exact absurd hk hzero
    exact ⟨hu.launch hl ht hf hnone,hf.clean hl hnone⟩
  | @remove c type found => exact ⟨h.requestStop (hremove type c found),.of_length (Nat.le_refl _)⟩
  | crash type child running reload stop =>
    exact ⟨⟨h.waiting,h.barrier⟩,.of_length (Nat.le_refl _)⟩
  | unknown type missing =>
    refine ⟨h.forget rfl rfl rfl rfl rfl fun x hx => ⟨hx,fun he => ?_⟩,.of_length (Nat.le_refl _)⟩
    exact absurd (he ▸ hx) missing
  | barrier type child reload all wait =>
    have hz := hclean type ⟨child,Or.inl reload.2⟩
    exact ⟨h.forget rfl rfl rfl rfl rfl fun x hx => ⟨hx,fun he => he ▸ hz⟩,
      .of_length (Nat.le_refl _)⟩
  | complete type child reload all last =>
    have hz := hclean type ⟨child,Or.inl reload.2⟩
    apply h.relaunches hs ht (LaunchFrame.reloadAllModules o _) hz
    intro id hk _
    by_cases he : id=m.senderId
    · exact he ▸ hz
    · apply h.barrier all (Finset.ne_empty_of_mem reload.2) id hk
      intro hid
      simpa [last] using Finset.mem_erase_of_ne_of_mem he hid
  | single type child reload one =>
    obtain ⟨hc,hid⟩ := find_mem child
    have hz := hclean type ⟨hid ▸ mem_keys hc,Or.inl reload.2⟩
    apply h.relaunches hs ht (LaunchFrame.reloadModule o _ _ _) hz
    rintro _ _ rfl
    exact hz
  | @restart c type child restart =>
    obtain ⟨hc,hid⟩ := find_mem child
    have hf : LaunchFrame (·=m.senderId) (s.forget m.senderId)
        ((s.forget m.senderId).restartModule c) := .launch _ _ hid
    have hz := hclean type ⟨hid ▸ mem_keys hc,Or.inr restart.2.2.2⟩
    apply h.relaunches hs ht hf hz
    rintro _ _ rfl
    exact hz
  | erase type child reload restart =>
    refine ⟨h.forget rfl rfl rfl rfl rfl fun x hx => ?_,.of_length (Nat.le_refl _)⟩
    obtain ⟨hk,hne⟩ := mem_keys_erase.mp hx
    exact ⟨hk,fun he => absurd he hne⟩

/-- A coroutine that has exited is not in its loop, so no stop request is with its child. -/
theorem Accounted.clean {s : State} {m : EventMessage} (h : Accounted s) (hs : Ledger s)
    (hm : m∈s.mailbox.messages) (ht : m.type=.moduleExited)
    (hr : Relaunchable s m.senderId) : stops s m.senderId=0 := by
  obtain ⟨c,hc,hid,hp⟩ := hs.exits m hm ht
  have hlive : c.live=true := by simp [Coroutine.live,hp]
  by_contra hne
  obtain ⟨_,hatt⟩ := h.waiting _ hr ⟨c,List.mem_of_getElem? hc,hid,hlive⟩
  have hin := hatt hne c (List.mem_of_getElem? hc) hid hlive
  simp [Coroutine.inLoop,hp] at hin

theorem Accounted.taken {s : State} {m : EventMessage} {rest : List EventMessage}
    (h : Accounted s) (hs : Ledger s) (hm : s.mailbox.messages=m::rest) :
    Accounted (taken s m rest) where
  waiting id hid hl := by
    obtain ⟨hle,hatt⟩ := h.waiting id hid (hs.live_of_taken hm hl)
    exact ⟨hle,fun hne => (hatt hne).taken⟩
  barrier := h.barrier

theorem Accounted.actor {s t : State} {serial : Nat} {c : Coroutine} {a : ActorStep}
    (h : Accounted s) (hc : s.coroutines[serial]?=some c) (hm : ActorMove s serial c a t)
    (ok : Abandons s c a → Relaunchable s c.actorId → stops s c.actorId=0) : Accounted t := by
  have hmem := List.mem_of_getElem? hc
  -- A phase outside the loop is no matter where the child has no stop request.
  have hleave (d : Coroutine) (u : State) (phase : Phase) (hd : d.actorId=c.actorId)
      (hu : u.coroutines=s.coroutines) (hz : Relaunchable s c.actorId → stops t c.actorId=0)
      (id : Nat) (hid : Relaunchable s id) (hne : stops t id≠0) (ha : Attending s id) :
      Attending (u.setPhase serial d phase) id := by
    apply (ha.congr hu).setPhase
    intro he
    have hce : c.actorId=id := hd.symm.trans he
    exact absurd (hce ▸ hz (hce ▸ hid)) hne
  have hgone (u : State) (phase : Phase) (hu : u.coroutines=s.coroutines)
      (hl : c.live=true) (hp : c.inLoop=false) (id : Nat) (ha : Attending s id) :
      Attending (u.setPhase serial c phase) id := by
    apply (ha.congr hu).setPhase
    intro he
    have hin := ha c hmem he hl
    simp [hp] at hin
  have hq := hm.quiet hc
  cases hm with
  | start hp =>
    exact h.quiet hq (fun _ => Nat.le_refl _) fun id _ _ ha => ha.setPhase fun _ => Or.inr rfl
  | startNull hp | throw hp =>
    exact h.quiet hq (fun _ => Nat.le_refl _) (hleave c s _ rfl rfl (ok trivial))
  | @stop m rest throws hp head type =>
    have hst (x : Nat) := stops_receive (x := x) head
    refine h.quiet hq (fun x => (Nat.le_add_right _ _).trans (hst x).le)
      (hleave {c with stopped := true} (s.setMailbox c.actorId _) _ rfl rfl fun hid => ?_)
    have hone := hst c.actorId
    simp only [type,and_self,if_true] at hone
    have hle := (h.waiting _ hid ⟨c,hmem,rfl,by simp [Coroutine.live,hp]⟩).1
    change stops (s.setMailbox c.actorId _) c.actorId=0
    omega
  | @receive m rest throws hp head type =>
    have hst (x : Nat) := stops_receive (x := x) head
    simp only [type,and_false,if_false,Nat.add_zero] at hst
    refine h.quiet hq (fun x => (hst x).le) ?_
    cases throws with
    | false =>
      intro id _ _ ha
      exact (ha.congr (t := s.setMailbox c.actorId _) rfl).setPhase fun _ => Or.inr rfl
    | true =>
      refine hleave c (s.setMailbox c.actorId _) _ rfl rfl fun hid => (hst c.actorId).trans ?_
      apply ok _ hid
      intro x hx
      simp only [head,List.head?_cons,Option.mem_def,Option.some.injEq] at hx
      exact hx ▸ type
  | report hp | exit hp =>
    refine h.quiet hq (fun _ => Nat.le_refl _) fun id _ _ ha => ?_
    exact hgone (s.sendManager _) _ rfl (by simp [Coroutine.live,hp])
      (by simp [Coroutine.inLoop,hp]) id ha

/-- Once the manager is to stop, no child is launched again. -/
theorem Dispatch.cleanLaunch {o : Outcome} {s t : State} {m : EventMessage}
    (h : Dispatch o s m t) (hs : Ledger s) (hrun : s.isRunning=false) : CleanLaunch s t := by
  cases h with
  | exit type =>
    apply CleanLaunch.of_length
    rw [foldl_requestStop]
  | reloadAll type update all some =>
    apply CleanLaunch.of_length
    rw [stopAll_eq]
  | @loadAll config type update all none =>
    have hf := LaunchFrame.loadModules o (stopAll s config)
    exact (hf.clean (hs.stopAll config) fun _ _ h => h.elim).congr (by rw [stopAll_eq])
      (by rw [stopAll_eq]; rfl)
  | @reloadNew config type update one missing =>
    have hf := LaunchFrame.reloadModule o {s with config := config, reloadAllFlag := false} 0
      m.payload
    apply hf.clean (hs.op (.configure config false))
    rintro _ hk rfl
    exact absurd (hs.keys_lt 0 hk).1 (Nat.lt_irrefl 0)
  | complete type child reload => exact absurd (hrun.symm.trans reload.1) (by decide)
  | single type child reload => exact absurd (hrun.symm.trans reload.1) (by decide)
  | restart type child restart => exact absurd (hrun.symm.trans restart.1) (by decide)
  | ignore | reloadOne | remove | crash | unknown | barrier | erase =>
    exact .of_length (Nat.le_refl _)

theorem Removable.taken {s : State} {m : EventMessage} {rest : List EventMessage} {id : Nat}
    (h : Removable s id) (hs : Ledger s) (hm : s.mailbox.messages=m::rest) :
    Removable (taken s m rest) id := by
  refine ⟨fun hid hl => ?_,h.2⟩
  obtain ⟨hz,ha⟩ := h.1 hid (hs.live_of_taken hm hl)
  exact ⟨hz,ha.taken⟩

theorem Accounted.step {s t : State} {a : Action} (h : s.isRunning=true → Accounted s)
    (hs : Ledger s) (hn : next s a=some t) (ok : HeardStops s a t) :
    (t.isRunning=true → Accounted t) ∧ CleanLaunch s t := by
  have quietly (hq : Quiet s t) : CleanLaunch s t := .of_length hq.length.le
  have same (hq : Quiet s t) (hst : ∀ id,stops t id ≤ stops s id)
      (hc : t.coroutines=s.coroutines) :
      (t.isRunning=true → Accounted t) ∧ CleanLaunch s t :=
    ⟨fun hr => (h (hq.isRunning hr)).quiet hq hst fun _ _ _ ha => ha.congr hc,quietly hq⟩
  cases next_cases hn with
  | load effect =>
    rcases effect.shape with ⟨startup,rfl⟩ | ⟨startup,name,module,rfl⟩
    · exact same (.startup s startup) (fun _ => Nat.le_refl _) rfl
    · have hl : Ledger {s with startup := startup} := hs.op (.startup startup)
      have hf : LaunchFrame (fun _ => False) {s with startup := startup} _ := .emplace _ name module
      refine ⟨fun hr => ?_,hf.clean hl fun _ _ h => h.elim⟩
      have hu : Accounted {s with startup := startup} := ⟨(h hr).waiting,(h hr).barrier⟩
      exact hu.launch hl (hs.next hn) hf fun _ _ h => h.elim
  | command m caller loader =>
    exact same ((next_cases hn).quiet caller loader) (fun _ => Nat.le_refl _) rfl
  | shutdown | shutdownAgain | clearRunning | sendExit =>
    exact same ((next_cases hn).quiet (by simp) (by simp)) (fun _ => Nat.le_refl _) rfl
  | actor self enqueued move =>
    have hq := move.quiet self
    refine ⟨fun hr => ?_,quietly hq⟩
    exact (h (hq.isRunning hr)).actor self move (ok (hq.isRunning hr) _ self)
  | post id m =>
    have hq := (next_cases hn).quiet (by simp) (by simp)
    by_cases hm : m.type=.cmdModuleStop
    · exact ⟨fun hr => (h hr).post m (ok hr hm),quietly hq⟩
    · exact same hq (fun _ => stops_send_le hm) rfl
  | @handle o m rest u done loop head result effect =>
    have hts := hs.take head
    have hsame : CleanLaunch (Manager.taken s m rest) u → CleanLaunch s (finish u done) := by
      intro hc
      cases done with
      | true => exact hc.congr (taken_length s m rest) rfl
      | false => exact hc.congr (taken_length s m rest) rfl
    have hrunning : (finish u done).isRunning=s.isRunning := by
      have hu := effect.untouched.isRunning
      cases done with
      | true => exact hu
      | false => exact hu
    cases hr : s.isRunning with
    | false =>
      refine ⟨fun ht => ?_,hsame (effect.cleanLaunch hts hr)⟩
      exact absurd (hr.symm.trans (hrunning.symm.trans ht)) (by decide)
    | true =>
      have hexit : m.type≠.cmdExit := fun he =>
        absurd (hr.symm.trans (hs.exit_queued m (by simp [head]) he)) (by decide)
      have hu : Ledger u := hs.handled head effect
      obtain ⟨hreload,hremove⟩ := ok hr m (by simp [head])
      obtain ⟨hau,hcu⟩ := ((h hr).taken hs head).dispatch hts hu hexit
        (fun ht hc c hsel hl => by
          obtain ⟨hz,ha⟩ := hreload ht hc c hsel (hs.live_of_taken head hl)
          exact ⟨hz,ha.taken⟩)
        (fun ht c hc => (hremove ht c hc).taken hs head)
        (fun ht hmem => (h hr).clean hs (by simp [head]) ht hmem) effect
      refine ⟨fun _ => ?_,hsame hcu⟩
      cases done with
      | true => exact ⟨hau.waiting,hau.barrier⟩
      | false => exact hau

theorem start_accounted {s : State} (h : machine.start s) : Accounted s := by
  obtain ⟨config,rfl⟩ := h
  exact ⟨fun id hid => by simp [Relaunchable,init,State.keys] at hid,nofun⟩

theorem reachable_accounted {s : State} (h : machine.ReachableBy HeardStops s) :
    Ledger s ∧ (s.isRunning=true → Accounted s) :=
  h.invariant (I := fun s => Ledger s ∧ (s.isRunning=true → Accounted s))
    (fun _ hs => ⟨start_ledger hs,fun _ => start_accounted hs⟩)
    fun _ _ _ hi hn ok => ⟨hi.1.next hn,(Accounted.step hi.2 hi.1 hn ok).1⟩

/-- In every run in which stop requests meet a child that will receive them, no step launches a
child again on a mailbox that holds a stop request. -/
theorem relaunch_clean {s t : State} {a : Action} (h : machine.ReachableBy HeardStops s)
    (hn : machine.next s a=some t) (ok : HeardStops s a t) : CleanLaunch s t := by
  obtain ⟨hs,ha⟩ := reachable_accounted h
  exact (Accounted.step ha hs hn ok).2

section Runs

instance (s : State) (id : Nat) : Decidable (Listening s id) :=
  inferInstanceAs (Decidable (_ ∧ ∀ c∈s.coroutines,_ → _ → _))

instance (s : State) (id : Nat) : Decidable (Relaunchable s id) :=
  inferInstanceAs (Decidable (_ ∧ _))

instance (s : State) (id : Nat) : Decidable (NotWaiting s id) :=
  inferInstanceAs (Decidable (_ → _ → _))

instance (s : State) (id : Nat) : Decidable (Removable s id) :=
  inferInstanceAs (Decidable ((_ → _ → _) ∧ _))

instance (s : State) (c : Coroutine) (a : ActorStep) : Decidable (Abandons s c a) :=
  match a with
  | .startNull | .throw => isTrue trivial
  | .receive true =>
      inferInstanceAs (Decidable (∀ m∈(s.mailboxes c.actorId).messages.head?,_))
  | .receive false | .start | .report | .exit => isFalse id

instance (s : State) (a : Action) (t : State) : Decidable (HeardStops s a t) :=
  match a with
  | .handle _ => inferInstanceAs (Decidable (_ → ∀ m∈s.mailbox.messages.head?,_ ∧ _))
  | .actor serial _ => inferInstanceAs (Decidable (_ → ∀ c∈s.coroutines[serial]?,_))
  | .post _ _ => inferInstanceAs (Decidable (_ → _ → _ → _ ∧ _))
  | .load _ | .reloadModule _ | .removeModule _ | .shutdown | .clearRunning | .sendExit
  | .postManager _ => isTrue fun _ => trivial

instance (s t : State) : Decidable (CleanLaunch s t) :=
  inferInstanceAs (Decidable (∀ c∈t.coroutines.drop s.coroutines.length,_))

/-- A module that crashed is restarted. -/
theorem relaunch_clean_restart :
    ∃ s t a,machine.ReachableBy HeardStops s ∧ machine.next s a=some t ∧ HeardStops s a t ∧
      s.coroutines.length<t.coroutines.length ∧ CleanLaunch s t := by
  obtain ⟨s,t,hs,ht,hp⟩ := machine.exists_reachableBy_step HeardStops
    (loading ["m"]++crashing 0++[.handle (opening ["m"])]) (.handle (opening ["m"]))
    (fun s t => HeardStops s (.handle (opening ["m"])) t ∧
      s.coroutines.length<t.coroutines.length)
    (init_start (listing ["m"])) (by decide +kernel)
  simp only [decide_eq_true_eq] at hp
  exact ⟨s,t,_,hs,ht,hp.1,hp.2,relaunch_clean hs ht hp.1⟩

/-- A module that crashes after its reload was requested is launched again on a mailbox that
still holds the stop request. -/
theorem stale_stop :
    ∃ s t a,machine.Reachable s ∧ machine.next s a=some t ∧ ¬CleanLaunch s t := by
  obtain ⟨s,t,hs,ht,hc⟩ := machine.exists_reachableBy_step Machine.anyStep
    (List.flatten [loading ["m"],[.reloadModule "m",.handle (opening ["m"])],crashing 0,
      [.handle (opening ["m"])]])
    (.handle (opening ["m"])) (fun s t => ¬CleanLaunch s t) (init_start (listing ["m"]))
    (by decide +kernel)
  exact ⟨s,t,_,hs,ht,by simpa using hc⟩

end Runs

end Acnet.Manager
