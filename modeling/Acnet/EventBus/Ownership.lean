import Acnet.EventBus.Coherence
import Acnet.Framework.Word

namespace Acnet.EventBus.Ownership

/-- The message that is published: its `ref_`, and, not in the source, how often it has been
deleted and how often it was accessed after that. -/
structure Message where
  ref : Nat
  deletes : Nat
  stale : Nat
  deriving DecidableEq

namespace Message

def access (m : Message) : Message :=
  {m with stale := m.stale+if m.deletes=0 then 0 else 1}

def storeRef (m : Message) (n : Nat) : Message := {m.access with ref := wrap n}

/-- The decrement in `event_message_release`; who finds the count at one deletes next. -/
def fetchSub (m : Message) : Message := {m.access with ref := wrapSub m.ref 1}

def delete (m : Message) : Message := {m.access with deletes := m.deletes+1}

end Message

/-- Where `Publish` is: at the lookup of `message->type_`, at the store of `ref_`, in the loop
over the remaining mailboxes, in the `event_message_release` of a `Send` that found its mailbox
full, or in its own. -/
inductive PublishPc (μ : Type*) where
  | find
  | storeRef (mailboxes : List μ)
  | send (rest : List μ)
  | drop (rest : List μ)
  | dropDelete (rest : List μ)
  | release
  | releaseDelete
  | returned
  deriving DecidableEq

/-- A recipient of the message: it has it, or is in its `event_message_release`, or is through. -/
inductive RecipientPc where
  | holding
  | deleting
  | finished
  deriving DecidableEq

/-- One call of `Publish`, with a recipient for every `Send` that has enqueued the message. -/
structure State (μ : Type*) where
  message : Message
  publisher : PublishPc μ
  recipients : List RecipientPc

/-- A step of `Publish`, with what the next `try_enqueue` finds, or of a recipient. -/
inductive Action where
  | publish (full : Bool)
  | recipient (i : Nat)

variable {μ : Type*}

def publish (table : Table μ) (type : EventType) (full : Bool) (s : State μ) : Option (State μ) :=
  match s.publisher with
  | .find =>
      match table type with
      | some mailboxes => some ⟨s.message.access,.storeRef mailboxes,s.recipients⟩
      | none => some ⟨s.message.access,.release,s.recipients⟩
  | .storeRef mailboxes =>
      some ⟨s.message.storeRef mailboxes.length,.send mailboxes,s.recipients⟩
  | .send [] => some {s with publisher := .returned}
  | .send (_::rest) =>
      if full then some {s with publisher := .drop rest}
      else some {s with publisher := .send rest,recipients := s.recipients++[.holding]}
  | .drop rest =>
      some ⟨s.message.fetchSub,if s.message.ref=1 then .dropDelete rest else .send rest,
        s.recipients⟩
  | .dropDelete rest => some ⟨s.message.delete,.send rest,s.recipients⟩
  | .release =>
      some ⟨s.message.fetchSub,if s.message.ref=1 then .releaseDelete else .returned,
        s.recipients⟩
  | .releaseDelete => some ⟨s.message.delete,.returned,s.recipients⟩
  | .returned => none

def recipient (i : Nat) (s : State μ) : Option (State μ) :=
  match s.recipients[i]? with
  | some .holding =>
      some ⟨s.message.fetchSub,s.publisher,
        s.recipients.set i (if s.message.ref=1 then .deleting else .finished)⟩
  | some .deleting => some ⟨s.message.delete,s.publisher,s.recipients.set i .finished⟩
  | _ => none

def next (table : Table μ) (type : EventType) (s : State μ) : Action → Option (State μ)
  | .publish full => publish table type full s
  | .recipient i => recipient i s

def init (ref : Nat) : State μ := ⟨⟨ref,0,0⟩,.find,[]⟩

/-- `Publish` of a message with the given count, over the route table of its thread. -/
def machine (ref : Nat) (table : Table μ) (type : EventType) : Machine (State μ) Action where
  start s := s=init ref
  next := next table type

/-- `Publish` has returned, and every recipient has released what it received. -/
def Finished (s : State μ) : Prop :=
  s.publisher=.returned ∧ ∀ r∈s.recipients,r=RecipientPc.finished

/-- The message is deleted exactly once, after `Publish` and all recipients are through, as they
always can be, and nobody accesses it after that. -/
structure Owned (ref : Nat) (table : Table μ) (type : EventType) : Prop where
  finishes : ∀ s,(machine ref table type).Reachable s →
    ∃ t,(machine ref table type).Steps Machine.anyStep s t ∧ Finished t
  deleted : ∀ s,(machine ref table type).Reachable s → Finished s → s.message.deletes=1
  fresh : ∀ s,(machine ref table type).Reachable s → s.message.stale=0

/-- The count is the number of references, and without one the message is deleted, or one of the
threads is about to delete it. -/
structure Message.Balanced (m : Message) (holders deleters : Nat) : Prop where
  word : holders<2^64
  ref : m.ref=holders
  deletes : m.deletes+deleters=if holders=0 then 1 else 0
  fresh : m.stale=0

namespace Message.Balanced

variable {m : Message} {n d n' d' : Nat}

theorem congr (h : m.Balanced n d) (hn : n'=n) (hd : d'=d) : m.Balanced n' d' := by
  subst hn
  subst hd
  exact h

theorem access (h : m.Balanced (n+1) d) : m.access=m := by
  have hd := h.deletes
  rw [if_neg (Nat.succ_ne_zero n)] at hd
  have hz : m.deletes=0 := by omega
  rw [Message.access,if_pos hz]
  rfl

/-- A reference is given up; the last one passes on the duty to delete. -/
theorem fetchSub (h : m.Balanced (n+1) d) :
    m.fetchSub.Balanced n (d+if m.ref=1 then 1 else 0) := by
  have hd := h.deletes
  have hw := h.word
  rw [if_neg (Nat.succ_ne_zero n)] at hd
  unfold Message.fetchSub
  rw [h.access,h.ref]
  refine ⟨by omega,?_,?_,h.fresh⟩
  · exact (wrapSub_of_le (Nat.succ_pos n) hw).trans (Nat.add_sub_cancel n 1)
  · by_cases hn : n=0 <;> simp [hn] <;> omega

theorem delete (h : m.Balanced n (d+1)) : m.delete.Balanced n d := by
  have hd := h.deletes
  have hz : m.deletes=0 := by
    split_ifs at hd
    omega
  refine ⟨h.word,h.ref,?_,?_⟩
  · rw [← hd]
    change m.deletes+1+d=_
    omega
  · simp [Message.delete,Message.access,hz,h.fresh]

end Message.Balanced

/-- The references that `Publish` still has to pass on or to give up. -/
def PublishPc.pending : PublishPc μ → Nat
  | .send rest | .dropDelete rest => rest.length
  | .drop rest => rest.length+1
  | .release => 1
  | _ => 0

def PublishPc.deleting : PublishPc μ → Nat
  | .dropDelete _ | .releaseDelete => 1
  | _ => 0

def State.holders (s : State μ) : Nat := s.recipients.count .holding+s.publisher.pending

def State.deleters (s : State μ) : Nat := s.recipients.count .deleting+s.publisher.deleting

/-- Until the count is set the message is as it was built; from then on it is balanced. -/
def Inv (ref : Nat) (s : State μ) : Prop :=
  match s.publisher with
  | .find => s.message=⟨ref,0,0⟩ ∧ s.recipients=[]
  | .storeRef mailboxes =>
      s.message=⟨ref,0,0⟩ ∧ s.recipients=[] ∧ 0 < mailboxes.length ∧ mailboxes.length<2^64
  | _ => s.message.Balanced s.holders s.deleters

section Invariant

variable {ref : Nat} {table : Table μ} {type : EventType} {s t : State μ}

/-- One recipient moves from one program point to another. -/
theorem count_set {l : List RecipientPc} {i : Nat} {x : RecipientPc} (hx : l[i]?=some x)
    (y z : RecipientPc) :
    (l.set i y).count z+(if x=z then 1 else 0)=l.count z+if y=z then 1 else 0 := by
  obtain ⟨hi,rfl⟩ := List.getElem?_eq_some_iff.mp hx
  have hpos : l[i]=z → 0<l.count z := by
    rintro rfl
    exact List.count_pos_iff.mpr (List.getElem_mem hi)
  rw [List.count_set hi]
  simp only [beq_iff_eq]
  split_ifs with h1 h2 <;> simp_all

theorem publish_inv {full : Bool} (hsize : ∀ l,table type=some l → 0<l.length ∧ l.length<2^64)
    (href : table type=none → ref=1) (h : Inv ref s) (hn : publish table type full s=some t) :
    Inv ref t := by
  obtain ⟨m,pc,l⟩ := s
  cases pc with
  | find =>
    obtain ⟨rfl,rfl⟩ : m=⟨ref,0,0⟩ ∧ l=[] := h
    simp only [publish] at hn
    split at hn
    · rename_i mailboxes hm
      cases hn
      exact ⟨rfl,rfl,hsize mailboxes hm⟩
    · rename_i hm
      cases hn
      obtain rfl := href hm
      exact ⟨show 1<2^64 by decide,rfl,rfl,rfl⟩
  | storeRef mailboxes =>
    obtain ⟨rfl,rfl,hpos,hword⟩ : m=⟨ref,0,0⟩ ∧ l=[] ∧ _ := h
    cases hn
    have hlen : mailboxes.length ≠ 0 := by omega
    refine ⟨?_,?_,?_,rfl⟩
    · simpa [State.holders,PublishPc.pending] using hword
    · simp [State.holders,PublishPc.pending,Message.storeRef,wrap_of_lt hword]
    · simp [State.holders,State.deleters,PublishPc.pending,PublishPc.deleting,Message.storeRef,
        Message.access,hlen]
  | send rest =>
    cases rest with
    | nil =>
      cases hn
      exact h
    | cons x rest =>
      have hb : m.Balanced (l.count .holding+(rest.length+1)) (l.count .deleting+0) := h
      cases full with
      | true =>
        cases hn
        exact hb
      | false =>
        cases hn
        refine hb.congr ?_ ?_
        · simp [State.holders,PublishPc.pending]
          omega
        · simp [State.deleters,PublishPc.deleting]
  | drop rest =>
    have hb : m.Balanced (l.count .holding+rest.length+1) (l.count .deleting+0) := h
    obtain rfl := Option.some.inj hn
    by_cases hlast : m.ref=1
    · have hf := hb.fetchSub
      simp only [if_pos hlast] at hf ⊢
      exact hf
    · have hf := hb.fetchSub
      simp only [if_neg hlast] at hf ⊢
      exact hf
  | dropDelete rest =>
    have hb : m.Balanced (l.count .holding+rest.length) (l.count .deleting+1) := h
    cases hn
    exact hb.delete
  | release =>
    have hb : m.Balanced (l.count .holding+0+1) (l.count .deleting+0) := h
    obtain rfl := Option.some.inj hn
    by_cases hlast : m.ref=1
    · have hf := hb.fetchSub
      simp only [if_pos hlast] at hf ⊢
      exact hf
    · have hf := hb.fetchSub
      simp only [if_neg hlast] at hf ⊢
      exact hf
  | releaseDelete =>
    have hb : m.Balanced (l.count .holding+0) (l.count .deleting+1) := h
    cases hn
    exact hb.delete
  | returned => cases hn

/-- A recipient's release is balanced whatever `Publish` is doing. -/
theorem recipient_balanced {i : Nat} (h : s.message.Balanced s.holders s.deleters)
    (hn : recipient i s=some t) : t.message.Balanced t.holders t.deleters := by
  simp only [recipient] at hn
  split at hn
  · rename_i hi
    obtain rfl := Option.some.inj hn
    have hhold := count_set hi (if s.message.ref=1 then .deleting else .finished) .holding
    have hdel := count_set hi (if s.message.ref=1 then .deleting else .finished) .deleting
    have hb : s.message.Balanced (s.holders-1+1) s.deleters := by
      refine h.congr ?_ rfl
      have hpos := List.count_pos_iff.mpr (List.mem_of_getElem? hi)
      unfold State.holders
      omega
    refine hb.fetchSub.congr ?_ ?_
    · simp only [State.holders] at hhold ⊢
      by_cases hlast : s.message.ref=1 <;> simp [hlast] at hhold ⊢ <;> omega
    · simp only [State.deleters] at hdel ⊢
      by_cases hlast : s.message.ref=1 <;> simp [hlast] at hdel ⊢ <;> omega
  · rename_i hi
    cases hn
    have hhold := count_set hi .finished .holding
    have hdel := count_set hi .finished .deleting
    simp at hhold hdel
    have hb : s.message.Balanced s.holders (s.deleters-1+1) := by
      refine h.congr rfl ?_
      simp only [State.deleters]
      omega
    refine hb.delete.congr ?_ ?_
    · simp only [State.holders]
      omega
    · simp only [State.deleters]
      omega
  · cases hn

theorem recipient_inv {i : Nat} (h : Inv ref s) (hn : recipient i s=some t) : Inv ref t := by
  obtain ⟨m,pc,l⟩ := s
  have hpc : t.publisher=pc := by
    simp only [recipient] at hn
    split at hn
    · exact congrArg State.publisher (Option.some.inj hn).symm
    · exact congrArg State.publisher (Option.some.inj hn).symm
    · cases hn
  cases pc with
  | find =>
    obtain ⟨_,rfl⟩ : m=⟨ref,0,0⟩ ∧ l=[] := h
    cases hn
  | storeRef mailboxes =>
    obtain ⟨_,rfl,_⟩ : m=⟨ref,0,0⟩ ∧ l=[] ∧ _ := h
    cases hn
  | send rest | drop rest | dropDelete rest | release | releaseDelete | returned =>
    unfold Inv
    rw [hpc]
    exact recipient_balanced h hn

end Invariant

section Termination

variable {table : Table μ} {type : EventType} {s : State μ}

/-- The steps that `Publish` can still take. -/
def PublishPc.work (table : Table μ) (type : EventType) : PublishPc μ → Nat
  | .find => 3*(table.mailboxes type).length+3
  | .storeRef mailboxes => 3*mailboxes.length+2
  | .send rest => 3*rest.length+1
  | .drop rest => 3*rest.length+3
  | .dropDelete rest => 3*rest.length+2
  | .release => 2
  | .releaseDelete => 1
  | .returned => 0

def State.work (table : Table μ) (type : EventType) (s : State μ) : Nat :=
  s.publisher.work table type+(2*s.recipients.count .holding+s.recipients.count .deleting)

variable (table type) in
theorem publish_progress (hp : s.publisher ≠ .returned) :
    ∃ t,publish table type true s=some t ∧ t.work table type<s.work table type := by
  obtain ⟨m,pc,l⟩ := s
  cases pc with
  | find =>
    cases hm : table type with
    | none =>
      refine ⟨_,by simp only [publish,hm]; rfl,?_⟩
      simp [State.work,PublishPc.work]
    | some mailboxes =>
      refine ⟨_,by simp only [publish,hm]; rfl,?_⟩
      simp [State.work,PublishPc.work,Table.mailboxes,hm]
  | send rest =>
    cases rest with
    | nil => exact ⟨_,rfl,by simp [State.work,PublishPc.work]⟩
    | cons x rest =>
      refine ⟨_,rfl,?_⟩
      simp only [State.work,PublishPc.work,List.length_cons]
      omega
  | drop rest =>
    refine ⟨_,rfl,?_⟩
    simp only [State.work]
    split_ifs <;> simp [PublishPc.work]
  | release =>
    refine ⟨_,rfl,?_⟩
    simp only [State.work]
    split_ifs <;> simp [PublishPc.work]
  | storeRef mailboxes | dropDelete rest | releaseDelete =>
    exact ⟨_,rfl,by simp [State.work,PublishPc.work]⟩
  | returned => exact absurd rfl hp

variable (table type) in
theorem recipient_progress {r : RecipientPc} (hr : r∈s.recipients) (hf : r ≠ .finished) :
    ∃ i t,recipient i s=some t ∧ t.work table type<s.work table type := by
  obtain ⟨i,hi⟩ := List.mem_iff_getElem?.mp hr
  refine ⟨i,?_⟩
  cases r with
  | holding =>
    refine ⟨_,by simp only [recipient,hi]; rfl,?_⟩
    have hhold := count_set hi (if s.message.ref=1 then .deleting else .finished) .holding
    have hdel := count_set hi (if s.message.ref=1 then .deleting else .finished) .deleting
    simp only [State.work]
    by_cases hlast : s.message.ref=1 <;> simp [hlast] at hhold hdel ⊢ <;> omega
  | deleting =>
    refine ⟨_,by simp only [recipient,hi]; rfl,?_⟩
    have hhold := count_set hi .finished .holding
    have hdel := count_set hi .finished .deleting
    simp at hhold hdel
    simp only [State.work]
    omega
  | finished => exact absurd rfl hf

theorem finishes (ref : Nat) (table : Table μ) (type : EventType) (s : State μ) :
    ∃ t,(machine ref table type).Steps Machine.anyStep s t ∧ Finished t := by
  apply Machine.exists_steps_done (I := fun _ => True) (State.work table type)
  · intro x a y _ _ _
    trivial
  · intro x _ hx
    by_cases hp : x.publisher=.returned
    · have hr : ∃ r∈x.recipients,r ≠ .finished := by
        by_contra hall
        exact hx ⟨hp,by simpa using hall⟩
      obtain ⟨r,hr,hf⟩ := hr
      obtain ⟨i,y,hn,hlt⟩ := recipient_progress table type hr hf
      exact ⟨.recipient i,y,hn,trivial,hlt⟩
    · obtain ⟨y,hn,hlt⟩ := publish_progress table type hp
      exact ⟨.publish true,y,hn,trivial,hlt⟩
  · trivial

end Termination

variable {ref : Nat} {table : Table μ} {type : EventType} {s : State μ}

theorem reachable_inv (hsize : ∀ l,table type=some l → 0<l.length ∧ l.length<2^64)
    (href : table type=none → ref=1) (h : (machine ref table type).Reachable s) :
    Inv ref s := by
  apply h.invariant
  · rintro x rfl
    exact ⟨rfl,rfl⟩
  · intro x a y hx hn _
    cases a with
    | publish full => exact publish_inv hsize href hx hn
    | recipient i => exact recipient_inv hx hn

theorem Inv.fresh (h : Inv ref s) : s.message.stale=0 := by
  obtain ⟨m,pc,l⟩ := s
  cases pc with
  | find | storeRef mailboxes =>
    have hm : m=⟨ref,0,0⟩ := h.1
    rw [hm]
  | send rest | drop rest | dropDelete rest | release | releaseDelete | returned =>
    exact Message.Balanced.fresh h

theorem Inv.deleted (h : Inv ref s) (hf : Finished s) : s.message.deletes=1 := by
  obtain ⟨m,pc,l⟩ := s
  obtain ⟨rfl,hall⟩ : pc=.returned ∧ ∀ r∈l,r=RecipientPc.finished := hf
  have hb : m.Balanced (l.count .holding+0) (l.count .deleting+0) := h
  have hnone {r : RecipientPc} (hr : r ≠ .finished) : l.count r=0 :=
    List.count_eq_zero.mpr fun hm => hr (hall r hm)
  have hd := hb.deletes
  rw [hnone (by decide),hnone (by decide)] at hd
  exact hd

/-- The lists of the route table that a thread publishes over are never empty. -/
theorem local_pos {τ : Type*} [DecidableEq τ] [DecidableEq μ] {s : EventBus.State τ μ}
    (h : (EventBus.machine τ μ).Reachable s) (t : τ) {l : List μ}
    (hl : (s.locals t).localEventBus type=some l) : 0<l.length := by
  have hi := EventBus.reachable_inv h
  have hne := (hi.tables _ _ (hi.cached t) type).1
  rw [hl] at hne
  exact List.length_pos_iff.mpr fun hnil => hne (congrArg some hnil)

/-- Without subscribers a message whose count is not one is left behind. -/
theorem unsubscribed_leaks (hnone : table type=none) (href : ref ≠ 1) :
    (machine ref table type).Reachable ⟨⟨wrapSub ref 1,0,0⟩,.returned,[]⟩ ∧
      Finished (⟨⟨wrapSub ref 1,0,0⟩,.returned,[]⟩ : State μ) ∧
      (⟨⟨wrapSub ref 1,0,0⟩,.returned,[]⟩ : State μ).message.deletes=0 := by
  have hfind : (machine ref table type).next (init ref) (.publish false)=
      some ⟨⟨ref,0,0⟩,.release,[]⟩ := by
    simp only [machine,next,publish,init,hnone]
    rfl
  have hrelease : (machine ref table type).next ⟨⟨ref,0,0⟩,.release,[]⟩ (.publish false)=
      some ⟨⟨wrapSub ref 1,0,0⟩,.returned,[]⟩ := by
    simp only [machine,next,publish,if_neg href]
    rfl
  refine ⟨⟨_,rfl,.tail (.tail .refl hfind trivial) hrelease trivial⟩,⟨rfl,?_⟩,rfl⟩
  simp

/-- Over a table whose lists are not empty, `Publish` owns its message in every interleaving and
for every pattern of full mailboxes exactly if somebody has subscribed to its type or it was
built with a count of one: without subscribers `Publish` takes one reference off whatever count
the message came with. -/
theorem publish_owns_iff (ref : Nat) (table : Table μ) (type : EventType)
    (hsize : ∀ l,table type=some l → 0<l.length ∧ l.length<2^64) :
    Owned ref table type ↔ 0<(table.mailboxes type).length ∨ ref=1 := by
  constructor
  · intro h
    by_contra hno
    obtain ⟨hlen,href⟩ := not_or.mp hno
    have hnone : table type=none := by
      cases hm : table type with
      | none => rfl
      | some l => exact absurd (hsize l hm).1 (by simpa [Table.mailboxes,hm] using hlen)
    have hleft := unsubscribed_leaks hnone href
    exact absurd (h.deleted _ hleft.1 hleft.2.1) (by simp)
  · intro h
    have href : table type=none → ref=1 := by
      intro hn
      simpa [Table.mailboxes,hn] using h
    refine ⟨fun s _ => finishes ref table type s,?_,?_⟩
    · intro s hs hf
      exact (reachable_inv hsize href hs).deleted hf
    · intro s hs
      exact (reachable_inv hsize href hs).fresh

/-- A default-constructed message has the count zero; nobody has subscribed to its type. -/
theorem publish_leaks_default : ∃ s : State Nat,
    (machine 0 (.empty : Table Nat) .none).Reachable s ∧ Finished s ∧ s.message.deletes=0 := by
  exact ⟨_,unsubscribed_leaks rfl (by decide)⟩

/-- The same message is owned as soon as two mailboxes have subscribed. -/
theorem publish_owns_default :
    Owned 0 ((Table.empty : Table Nat).set .none (some [3,4])) .none := by
  apply (publish_owns_iff 0 _ _ ?_).mpr
  · exact Or.inl (by decide)
  · rintro l ⟨⟩
    decide

end Acnet.EventBus.Ownership
