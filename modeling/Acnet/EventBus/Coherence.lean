import Acnet.EventBus.EventBus

namespace Acnet.EventBus

section Accounts

variable {μ : Type*} [DecidableEq μ]

/-- The table is what the changes make of the empty one: no list is empty, and a mailbox is in
the list of a type as often as it was subscribed and not unsubscribed. -/
def Accounts (table : Table μ) (changes : List (Change μ)) : Prop :=
  ∀ type,table type≠some [] ∧ ∀ mailbox,
    (table.mailboxes type).count mailbox+changes.count (.unsubscribed type mailbox)=
      changes.count (.subscribed type mailbox)

variable {table : Table μ} {changes : List (Change μ)}

theorem accounts_empty : Accounts (.empty : Table μ) [] := by
  intro type
  simp [Table.empty,Table.mailboxes]

theorem Accounts.set {c : Change μ} {entry : Option (List μ)} (h : Accounts table changes)
    (hne : entry≠some []) (hc : ∀ m,(entry.getD []).count m+[c].count (.unsubscribed c.type m)=
      (table.mailboxes c.type).count m+[c].count (.subscribed c.type m)) :
    Accounts (table.set c.type entry) (changes++[c]) := by
  intro type
  by_cases ht : type=c.type
  · subst ht
    simp only [Table.set,Table.mailboxes,if_true,List.count_append]
    refine ⟨hne,?_⟩
    intro m
    have hold := (h c.type).2 m
    have hm := hc m
    simp only [Table.mailboxes] at hold hm
    omega
  · have hu (m : μ) : c≠.unsubscribed type m := fun he => ht (by rw [he]; rfl)
    have hs (m : μ) : c≠.subscribed type m := fun he => ht (by rw [he]; rfl)
    simp only [Table.set,Table.mailboxes,if_neg ht,List.count_append]
    simp only [List.count_singleton,beq_eq_false_iff_ne.mpr (hu _),
      beq_eq_false_iff_ne.mpr (hs _)]
    exact h type

theorem Accounts.pushBack (h : Accounts table changes) (type : EventType) (mailbox : μ) :
    Accounts (table.pushBack type mailbox) (changes++[.subscribed type mailbox]) := by
  refine h.set (c := .subscribed type mailbox) (by simp) ?_
  intro m
  simp [Change.type,List.count_append,List.count_singleton]

theorem Accounts.remove {table' : Table μ} {type : EventType} {mailbox : μ}
    (h : Accounts table changes) (hr : table.remove type mailbox=some table') :
    Accounts table' (changes++[.unsubscribed type mailbox]) := by
  obtain ⟨entry,rfl,hne,hp⟩ := remove_eq_some hr
  refine h.set (c := .unsubscribed type mailbox) hne ?_
  intro m
  have hc := hp.count_eq m
  rw [List.count_cons] at hc
  simp only [Change.type,← hc,List.count_singleton]
  by_cases hm : mailbox=m <;> simp [hm]

end Accounts

section Logs

variable {α : Type*} {l : List α} {y : α} {i j : Nat}

/-- What is logged from `i` on and before `j`. -/
def between (l : List α) (i j : Nat) : List α := (l.take j).drop i

theorem mem_between : y∈between l i j ↔ ∃ k,i ≤ k ∧ k < j ∧ l[k]?=some y := by
  rw [between,List.mem_iff_getElem?]
  simp only [List.getElem?_drop,List.getElem?_take]
  constructor
  · intro h
    obtain ⟨n,hn⟩ := h
    split_ifs at hn with hlt
    exact ⟨i+n,Nat.le_add_right i n,hlt,hn⟩
  · intro h
    obtain ⟨k,hik,hkj,hk⟩ := h
    refine ⟨k-i,?_⟩
    rw [Nat.add_sub_cancel' hik,if_pos hkj]
    exact hk

theorem not_mem_between {x : α} (hx : l[i]?=some x) (hxy : x≠y)
    (hno : ∀ k,i < k → k < j → l[k]?≠some y) : y∉between l i j := by
  intro hy
  obtain ⟨k,hik,hkj,hk⟩ := mem_between.mp hy
  rcases Nat.eq_or_lt_of_le hik with rfl | hlt
  · exact hxy (Option.some.inj (hx.symm.trans hk))
  · exact hno k hlt hkj hk

theorem count_take [DecidableEq α] (hij : i ≤ j) :
    (l.take j).count y=(l.take i).count y+(between l i j).count y := by
  have ht : (l.take j).take i=l.take i := by rw [List.take_take,Nat.min_eq_left hij]
  rw [between,← ht,← List.count_append,List.take_append_drop]

end Logs

section Coherence

variable {τ μ : Type*}

/-- Where a call of `Publish` stands against the version and the thread's own table. -/
def Call (version : Nat) (c : Local μ) : ThreadPc μ → Prop
  | .idle => True
  | .subscribe _ _ => True
  | .unsubscribe _ _ => True
  | .publish _ began => began ≤ version
  | .syncRouteTable _ began => began ≤ version
  | .find _ began => began ≤ c.localVersion
  | .sending message began ref sent rest =>
      began ≤ c.localVersion ∧ c.localEventBus message.type=some (sent++rest) ∧
        ref=(sent++rest).length

theorem Call.mono {v w : Nat} {c : Local μ} {pc : ThreadPc μ} (h : Call v c pc) (hvw : v ≤ w) :
    Call w c pc := by
  cases pc with
  | publish | syncRouteTable => exact Nat.le_trans h hvw
  | _ => exact h

/-- The mailboxes were those of one version between the call and the return; the count stored
is their number. -/
def Snapshot (history : List (Table μ)) (p : Publication τ μ) : Prop :=
  (∃ v table,p.began ≤ v ∧ v ≤ p.ended ∧ history[v]?=some table ∧
    p.sent=table.mailboxes p.message.type) ∧
  p.ref=if p.sent=[] then none else some p.sent.length

theorem getElem?_append_of_some {l : List (Table μ)} {v : Nat} {x y : Table μ}
    (h : l[v]?=some x) : (l++[y])[v]?=some x := by
  have hlt := (List.getElem?_eq_some_iff.mp h).1
  rw [List.getElem?_append_left hlt]
  exact h

theorem Snapshot.append {history : List (Table μ)} {p : Publication τ μ}
    (h : Snapshot history p) (table : Table μ) : Snapshot (history++[table]) p := by
  obtain ⟨⟨v,old,hb,he,hv,hs⟩,hr⟩ := h
  exact ⟨⟨v,old,hb,he,getElem?_append_of_some hv,hs⟩,hr⟩

variable [DecidableEq μ]

structure Inv (s : State τ μ) : Prop where
  history_length : s.history.length=s.version+1
  changes_length : s.changes.length=s.version
  current : s.history[s.version]?=some s.eventBus
  tables : ∀ (v : Nat) table,s.history[v]?=some table → Accounts table (s.changes.take v)
  cached : ∀ t,s.history[(s.locals t).localVersion]?=some (s.locals t).localEventBus
  call : ∀ t,Call s.version (s.locals t) (s.pcs t)
  publication : ∀ p∈s.publications,p.ended ≤ s.version ∧ Snapshot s.history p

theorem Inv.localVersion_le {s : State τ μ} (h : Inv s) (t : τ) :
    (s.locals t).localVersion ≤ s.version := by
  have hlt := (List.getElem?_eq_some_iff.mp (h.cached t)).1
  have := h.history_length
  omega

theorem Inv.accounts {s : State τ μ} (h : Inv s) : Accounts s.eventBus s.changes := by
  have hnow := h.tables _ _ h.current
  rwa [← h.changes_length,List.take_length] at hnow

theorem init_inv : Inv (init : State τ μ) where
  history_length := rfl
  changes_length := rfl
  current := rfl
  tables v table h := by
    obtain ⟨hv,rfl⟩ := List.getElem?_eq_some_iff.mp h
    simp only [init,List.length_singleton,Nat.lt_one_iff] at hv
    subst hv
    exact accounts_empty
  cached _ := rfl
  call _ := trivial
  publication _ hp := absurd hp List.not_mem_nil

/-- A mailbox that was subscribed before the call and not unsubscribed until the return is sent
to. -/
def Delivers (s : State τ μ) (p : Publication τ μ) : Prop :=
  ∀ (k : Nat) mailbox,s.changes[k]?=some (.subscribed p.message.type mailbox) → k < p.began →
    (∀ j,k < j → j < p.ended → s.changes[j]?≠some (.unsubscribed p.message.type mailbox)) →
    mailbox∈p.sent

/-- A mailbox that was subscribed once and unsubscribed before the call, and not subscribed again
until the return, is not sent to. -/
def Withholds (s : State τ μ) (p : Publication τ μ) : Prop :=
  ∀ (k : Nat) mailbox table,s.changes[k]?=some (.unsubscribed p.message.type mailbox) →
    k < p.began → s.history[k]?=some table →
    (table.mailboxes p.message.type).count mailbox=1 →
    (∀ j,k < j → j < p.ended → s.changes[j]?≠some (.subscribed p.message.type mailbox)) →
    mailbox∉p.sent

/-- The tables of two versions differ by what was changed between them. -/
theorem Inv.count_between {s : State τ μ} (h : Inv s) {k v : Nat} (hkv : k ≤ v)
    {old table : Table μ} (hold : s.history[k]?=some old) (hv : s.history[v]?=some table)
    (type : EventType) (mailbox : μ) :
    (table.mailboxes type).count mailbox+
        (between s.changes k v).count (.unsubscribed type mailbox)=
      (old.mailboxes type).count mailbox+
        (between s.changes k v).count (.subscribed type mailbox) := by
  have hbefore := (h.tables k old hold type).2 mailbox
  have hafter := (h.tables v table hv type).2 mailbox
  rw [count_take hkv,count_take hkv] at hafter
  omega

theorem Inv.delivers {s : State τ μ} {p : Publication τ μ} (h : Inv s)
    (hp : p∈s.publications) : Delivers s p := by
  obtain ⟨he,⟨v,table,hb,hv,htable,hsent⟩,-⟩ := h.publication p hp
  intro k mailbox hk hkb hno
  obtain ⟨old,hold⟩ : ∃ old,s.history[k]?=some old :=
    ⟨_,List.getElem?_eq_getElem (by have := h.history_length; omega)⟩
  have hcount := h.count_between (show k ≤ v by omega) hold htable p.message.type mailbox
  have hsub := List.count_pos_iff.mpr (mem_between.mpr ⟨k,Nat.le_refl k,hkb.trans_le hb,hk⟩)
  have hunsub := List.count_eq_zero.mpr
    (not_mem_between hk (by simp) fun j hj hjv => hno j hj (hjv.trans_le hv))
  rw [hsent]
  apply List.count_pos_iff.mp
  omega

theorem Inv.withholds {s : State τ μ} {p : Publication τ μ} (h : Inv s)
    (hp : p∈s.publications) : Withholds s p := by
  obtain ⟨he,⟨v,table,hb,hv,htable,hsent⟩,-⟩ := h.publication p hp
  intro k mailbox old hk hkb hold hone hno
  have hcount := h.count_between (show k ≤ v by omega) hold htable p.message.type mailbox
  have hunsub := List.count_pos_iff.mpr (mem_between.mpr ⟨k,Nat.le_refl k,hkb.trans_le hb,hk⟩)
  have hsub := List.count_eq_zero.mpr
    (not_mem_between hk (by simp) fun j hj hjv => hno j hj (hjv.trans_le hv))
  rw [hsent]
  apply List.count_eq_zero.mp
  omega

variable [DecidableEq τ]

namespace Inv

variable {s : State τ μ} {t : τ}

theorem setPc (h : Inv s) {pc : ThreadPc μ} (hc : Call s.version (s.locals t) pc) :
    Inv (s.setPc t pc) :=
  {h with
    call := by
      intro u
      simp only [State.setPc,Function.update_apply]
      split_ifs with hu
      · rw [hu]
        exact hc
      · exact h.call u}

/-- A change brings a new version; the tables of the old ones stay as they were. -/
theorem write (h : Inv s) {table : Table μ} {c : Change μ}
    (ha : Accounts table (s.changes++[c])) : Inv (s.write t table c) := by
  have hi : Inv (s.setPc t .idle) := h.setPc trivial
  have hlen := h.history_length
  have hch := h.changes_length
  exact {
    history_length := by simp [State.write,hlen]
    changes_length := by simp [State.write,hch]
    current := by
      change (s.history++[table])[s.version+1]?=some table
      rw [← hlen]
      simp
    tables := by
      intro v x hx
      change (s.history++[table])[v]?=some x at hx
      change Accounts x ((s.changes++[c]).take v)
      by_cases hv : v < s.history.length
      · rw [List.getElem?_append_left hv] at hx
        rw [List.take_append_of_le_length (by omega)]
        exact h.tables v x hx
      · have hlt := (List.getElem?_eq_some_iff.mp hx).1
        simp only [List.length_append,List.length_singleton] at hlt
        obtain rfl : v=s.history.length := by omega
        simp only [List.getElem?_concat_length,Option.some.injEq] at hx
        rw [← hx,List.take_of_length_le (by simp; omega)]
        exact ha
    cached := fun u => getElem?_append_of_some (h.cached u)
    call := fun u => (hi.call u).mono (Nat.le_succ _)
    publication := by
      intro p hp
      obtain ⟨he,hsnap⟩ := h.publication p hp
      exact ⟨he.trans (Nat.le_succ _),hsnap.append table⟩}

/-- After `__sync_route_table` the thread has the table of the present version. -/
theorem sync (h : Inv s) {message : EventMessage} {began : Nat} (hb : began ≤ s.version) :
    Inv {s.setPc t (.find message began) with
      locals := Function.update s.locals t ⟨s.eventBus,s.version⟩} :=
  {h with
    cached := by
      intro u
      simp only [Function.update_apply]
      split_ifs
      · exact h.current
      · exact h.cached u
    call := by
      intro u
      simp only [State.setPc,Function.update_apply]
      split_ifs
      · exact hb
      · exact h.call u}

theorem returned (h : Inv s) {p : Publication τ μ} (he : p.ended=s.version)
    (hp : Snapshot s.history p) : Inv (s.returned t p) :=
  have hi : Inv (s.setPc t .idle) := h.setPc trivial
  {hi with
    publication := by
      intro q hq
      rcases List.mem_append.mp hq with hq | hq
      · exact h.publication q hq
      · obtain rfl := List.mem_singleton.mp hq
        exact ⟨he.le,hp⟩}

theorem step {u : State τ μ} (h : Inv s) (hn : step s t=some u) : Inv u := by
  have hcall := h.call t
  have hlocal := h.localVersion_le t
  have haccounts := h.accounts
  unfold EventBus.step at hn
  cases hpc : s.pcs t with
  | idle => simp [hpc] at hn
  | subscribe type mailbox =>
    simp only [hpc] at hn
    cases hn
    exact h.write (haccounts.pushBack type mailbox)
  | unsubscribe type mailbox =>
    simp only [hpc] at hn
    cases hr : s.eventBus.remove type mailbox with
    | none =>
      simp only [hr] at hn
      cases hn
      exact h.setPc trivial
    | some table =>
      simp only [hr] at hn
      cases hn
      exact h.write (haccounts.remove hr)
  | publish message began =>
    simp only [hpc] at hn hcall
    split_ifs at hn with hv
    · cases hn
      exact h.setPc hcall
    · cases hn
      -- the local table is the present one
      exact h.setPc (Nat.le_trans hcall (Nat.not_lt.mp hv))
  | syncRouteTable message began =>
    simp only [hpc] at hn hcall
    cases hn
    exact h.sync hcall
  | find message began =>
    simp only [hpc] at hn hcall
    cases hl : (s.locals t).localEventBus message.type with
    | some l =>
      simp only [hl] at hn
      cases hn
      exact h.setPc ⟨hcall,hl,rfl⟩
    | none =>
      simp only [hl] at hn
      cases hn
      refine h.returned rfl ⟨⟨_,_,hcall,hlocal,h.cached t,?_⟩,rfl⟩
      simp [Table.mailboxes,hl]
  | sending message began ref sent rest =>
    simp only [hpc] at hn hcall
    obtain ⟨hb,hl,hr⟩ := hcall
    cases rest with
    | cons mailbox rest =>
      cases hn
      refine h.setPc ⟨hb,?_,?_⟩
      · simpa using hl
      · simpa using hr
    | nil =>
      cases hn
      rw [List.append_nil] at hl hr
      have hne : sent≠[] := by
        rintro rfl
        exact ((h.tables _ _ (h.cached t)) message.type).1 hl
      refine h.returned rfl ⟨⟨_,_,hb,hlocal,h.cached t,?_⟩,?_⟩
      · simp [Table.mailboxes,hl]
      · simp [hne,hr]

theorem next {u : State τ μ} {a : Action τ μ} (h : Inv s) (hn : next s a=some u) : Inv u := by
  cases a with
  | subscribe t type mailbox =>
    simp only [EventBus.next] at hn
    split at hn <;> cases hn
    exact h.setPc trivial
  | unsubscribe t type mailbox =>
    simp only [EventBus.next] at hn
    split at hn <;> cases hn
    exact h.setPc trivial
  | publish t message =>
    simp only [EventBus.next] at hn
    split at hn <;> cases hn
    exact h.setPc (Nat.le_refl s.version)
  | step t => exact h.step hn

end Inv

theorem reachable_inv {s : State τ μ} (h : (machine τ μ).Reachable s) : Inv s := by
  apply h.invariant
  · intro x hx
    cases hx
    exact init_inv
  · intro x a y hx hn _
    exact hx.next hn

theorem next_history {s u : State τ μ} {a : Action τ μ} (hn : next s a=some u) :
    s.history<+:u.history := by
  cases a with
  | subscribe t type mailbox | unsubscribe t type mailbox | publish t message =>
    simp only [next] at hn
    split at hn <;> cases hn
    exact List.prefix_rfl
  | step t =>
    simp only [next,step] at hn
    split at hn
    · cases hn
    · cases hn
      exact List.prefix_append _ _
    · split at hn <;> cases hn
      · exact List.prefix_rfl
      · exact List.prefix_append _ _
    · split_ifs at hn <;> cases hn <;> exact List.prefix_rfl
    · cases hn
      exact List.prefix_rfl
    · split at hn <;> cases hn <;> exact List.prefix_rfl
    · cases hn
      exact List.prefix_rfl
    · cases hn
      exact List.prefix_rfl

/-- What the locked section of `Unsubscribe` does: nothing if the mailbox is absent, else one
occurrence is gone, and only it. -/
def Removed (s u : State τ μ) (type : EventType) (mailbox : μ) : Prop :=
  (mailbox∉s.eventBus.mailboxes type ∧ u.eventBus=s.eventBus ∧ u.version=s.version ∧
    u.changes=s.changes) ∨
  ((mailbox::u.eventBus.mailboxes type).Perm (s.eventBus.mailboxes type) ∧
    (∀ type',type'≠type → u.eventBus type'=s.eventBus type') ∧ u.version=s.version+1 ∧
    u.changes=s.changes++[.unsubscribed type mailbox])

theorem unsubscribe_removed {s u : State τ μ} {t : τ} {type : EventType} {mailbox : μ}
    (hpc : s.pcs t=.unsubscribe type mailbox) (hn : next s (.step t)=some u) :
    Removed s u type mailbox := by
  simp only [next,step,hpc] at hn
  cases hr : s.eventBus.remove type mailbox with
  | none =>
    simp only [hr] at hn
    cases hn
    exact Or.inl ⟨remove_eq_none.mp hr,rfl,rfl,rfl⟩
  | some table =>
    simp only [hr] at hn
    cases hn
    obtain ⟨entry,rfl,-,hp⟩ := remove_eq_some hr
    refine Or.inr ⟨?_,?_,rfl,rfl⟩
    · simpa [State.write,Table.mailboxes,Table.set] using hp
    · intro type' hne
      exact if_neg hne

/-- The event bus is coherent. The tables of all versions are recorded in `history`; every
thread's table is that of its own version, the shared one is what `Subscribe` and `Unsubscribe`
have made of it, and every `Publish` sends to the mailboxes of one version within the call. -/
theorem bus_coherent {s : State τ μ} (h : (machine τ μ).Reachable s) :
    (s.history[s.version]?=some s.eventBus ∧ ∀ a u,next s a=some u → s.history<+:u.history) ∧
    (∀ t,s.history[(s.locals t).localVersion]?=some (s.locals t).localEventBus) ∧
    Accounts s.eventBus s.changes ∧
    (∀ t type mailbox u,s.pcs t=.unsubscribe type mailbox → next s (.step t)=some u →
      Removed s u type mailbox) ∧
    ∀ p∈s.publications,Snapshot s.history p ∧ Delivers s p ∧ Withholds s p := by
  have hi := reachable_inv h
  refine ⟨⟨hi.current,fun a u => next_history⟩,hi.cached,hi.accounts,?_,?_⟩
  · intro t type mailbox u hpc hn
    exact unsubscribe_removed hpc hn
  · intro p hp
    exact ⟨(hi.publication p hp).2,hi.delivers hp,hi.withholds hp⟩

/-- One thread subscribes mailbox 7 twice and mailbox 8 once to the stop request and removes the
first 7; another one, whose table is old, publishes. -/
theorem bus_coherent_removed :
    ∃ s : State Nat Nat,(machine Nat Nat).Reachable s ∧ s.version=4 ∧
      s.publications.map (·.sent)=[[8,7]] ∧ ∀ p∈s.publications,Snapshot s.history p := by
  obtain ⟨s,hs,hp⟩ := (machine Nat Nat).exists_reachableBy Machine.anyStep
    [.subscribe 0 .cmdModuleStop 7,.step 0,.subscribe 0 .cmdModuleStop 7,.step 0,
      .subscribe 0 .cmdModuleStop 8,.step 0,.publish 1 ⟨.cmdModuleStop,0,"",0⟩,
      .unsubscribe 0 .cmdModuleStop 7,.step 1,.step 0,.step 1,.step 1,.step 1,.step 1,.step 1]
    (fun s => decide (s.version=4 ∧ s.publications.map (·.sent)=[[8,7]])) rfl
    (by decide +kernel)
  obtain ⟨hv,hsent⟩ := of_decide_eq_true hp
  obtain ⟨-,-,-,-,hpub⟩ := bus_coherent hs
  exact ⟨s,hs,hv,hsent,fun p hp => (hpub p hp).1⟩

end Coherence

end Acnet.EventBus
