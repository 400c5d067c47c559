import Acnet.EventBus.Ownership
import Acnet.Framework.Shared

/-!
The message that `Publish` sends round, with the memory orders of `ref_`: the count is stored
relaxed, and every decrement is `acq_rel`. A mailbox hands a message over with what its sender
knew. The publisher is thread `none`, the recipients are numbered.
-/

namespace Acnet.EventBus.Lifetime

open Ownership History

abbrev Know := View Unit (Option Nat)

/-- `deletes` is a history: how often the message has been deleted. -/
structure State (μ : Type*) where
  ref : History Unit (Option Nat) Nat
  message : Plain (Option Nat) Unit
  publisher : PublishPc μ
  publisherView : Know
  recipients : List (RecipientPc×Know)
  deletes : Nat

/-- A step of `Publish`, with what the next `try_enqueue` finds; a use of the message by a
recipient, which is its code in `ProcessEvent`; its `event_message_release`; or two threads
synchronise by other means. `n` says which write is read, or the time of a store. -/
inductive Action where
  | publish (full : Bool) (n : Nat)
  | use (i : Nat)
  | recipient (i n : Nat)
  | sync (i j : Option Nat)

variable {μ : Type*}

/-- The decrement of `event_message_release`, by a thread that accesses the message with it. -/
def fetchSub (s : State μ) (i : Option Nat) (v : Know) (n : Nat) :
    Option (Nat×History Unit (Option Nat) Nat×Know) :=
  update () .acqRel s.ref (v.tick i) n fun found => wrapSub found 1

def access (s : State μ) (i : Option Nat) (v : Know) : Plain (Option Nat) Unit :=
  s.message.noteRead i (v.tick i)

def delete (s : State μ) (i : Option Nat) (v : Know) : Plain (Option Nat) Unit :=
  s.message.set i (v.tick i) ()

def publish (table : Table μ) (type : EventType) (full : Bool) (n : Nat) (s : State μ) :
    Option (State μ) :=
  let v := s.publisherView.tick none
  match s.publisher with
  | .find =>
      some {s with
        message := access s none s.publisherView
        publisherView := v
        publisher := match table type with
          | some mailboxes => .storeRef mailboxes
          | none => .release}
  | .storeRef mailboxes =>
      (store () .relaxed s.ref v n (wrap mailboxes.length)).map fun (h,v) =>
        {s with
          ref := h
          message := access s none s.publisherView
          publisherView := v
          publisher := .send mailboxes}
  | .send [] => some {s with publisher := .returned}
  | .send (_::rest) =>
      if full then some {s with publisher := .drop rest}
      else some {s with
        publisher := .send rest
        recipients := s.recipients++[(.holding,s.publisherView)]}
  | .drop rest =>
      (fetchSub s none s.publisherView n).map fun (found,h,v) =>
        {s with
          ref := h
          message := access s none s.publisherView
          publisherView := v
          publisher := if found=1 then .dropDelete rest else .send rest}
  | .release =>
      (fetchSub s none s.publisherView n).map fun (found,h,v) =>
        {s with
          ref := h
          message := access s none s.publisherView
          publisherView := v
          publisher := if found=1 then .releaseDelete else .returned}
  | .dropDelete rest =>
      some {s with
        message := delete s none s.publisherView
        publisherView := v
        publisher := .send rest
        deletes := s.deletes+1}
  | .releaseDelete =>
      some {s with
        message := delete s none s.publisherView
        publisherView := v
        publisher := .returned
        deletes := s.deletes+1}
  | .returned => none

def use (i : Nat) (s : State μ) : Option (State μ) :=
  match s.recipients[i]? with
  | some (.holding,v) =>
      some {s with
        message := access s (some i) v
        recipients := s.recipients.set i (.holding,v.tick (some i))}
  | _ => none

def recipient (i n : Nat) (s : State μ) : Option (State μ) :=
  match s.recipients[i]? with
  | some (.holding,v) =>
      (fetchSub s (some i) v n).map fun (found,h,v') =>
        {s with
          ref := h
          message := access s (some i) v
          recipients := s.recipients.set i (if found=1 then .deleting else .finished,v')}
  | some (.deleting,v) =>
      some {s with
        message := delete s (some i) v
        recipients := s.recipients.set i (.finished,v.tick (some i))
        deletes := s.deletes+1}
  | _ => none

def viewOf (s : State μ) : Option Nat → Know
  | none => s.publisherView
  | some i => (s.recipients[i]?).elim ⊥ (·.2)

def sync (i j : Option Nat) (s : State μ) : State μ :=
  match i with
  | none => {s with publisherView := s.publisherView ⊔ viewOf s j}
  | some i => {s with recipients := s.recipients.modify i fun r => (r.1,r.2 ⊔ viewOf s j)}

def next (table : Table μ) (type : EventType) (s : State μ) : Action → Option (State μ)
  | .publish full n => publish table type full n s
  | .use i => use i s
  | .recipient i n => recipient i n s
  | .sync i j => some (sync i j s)

def init (ref : Nat) : State μ := ⟨.initial ref,.new (),.find,⊥,[],0⟩

def machine (ref : Nat) (table : Table μ) (type : EventType) : Machine (State μ) Action where
  start s := s=init ref
  next := next table type

/-- The thread in view `v` may access the message with its next step. -/
inductive Uses (s : State μ) : Know → Prop where
  | find : s.publisher=.find → Uses s s.publisherView
  | storeRef {mailboxes} : s.publisher=.storeRef mailboxes → Uses s s.publisherView
  | drop {rest} : s.publisher=.drop rest → Uses s s.publisherView
  | release : s.publisher=.release → Uses s s.publisherView
  | holding {v} : (.holding,v)∈s.recipients → Uses s v

/-- The thread in view `v` deletes the message with its next step. -/
inductive Deletes (s : State μ) : Know → Prop where
  | drop {rest} : s.publisher=.dropDelete rest → Deletes s s.publisherView
  | release : s.publisher=.releaseDelete → Deletes s s.publisherView
  | deleting {v} : (.deleting,v)∈s.recipients → Deletes s v

/-- `Publish` has returned, and every recipient has released what it received. -/
def Finished (s : State μ) : Prop :=
  s.publisher=.returned ∧ ∀ r∈s.recipients,r.1=RecipientPc.finished

/-- The references that `Publish` has not yet passed on. -/
def held : PublishPc μ → Nat
  | .find | .storeRef _ | .release => 1
  | .send rest => rest.length
  | .drop rest => rest.length+1
  | _ => 0

def deletesNow : PublishPc μ → Bool
  | .dropDelete _ | .releaseDelete => true
  | _ => false

def holding : RecipientPc×Know → Option Know
  | (.holding,v) => some v
  | _ => none

def deleting : RecipientPc×Know → Option Know
  | (.deleting,v) => some v
  | _ => none

/-- Who has a reference, by what it knows. -/
def hands (s : State μ) : List Know :=
  List.replicate (held s.publisher) s.publisherView++s.recipients.filterMap holding

/-- Who is about to delete the message. -/
def deleters (s : State μ) : List Know :=
  (if deletesNow s.publisher then [s.publisherView] else [])++s.recipients.filterMap deleting

def Phased (s : State μ) : Prop :=
  Lifespan () s.ref s.message s.deletes (hands s) (deleters s)

/-- Before the count is stored nobody but the publisher has seen the message. -/
structure Fresh (ref : Nat) (s : State μ) : Prop where
  initial : s.ref=.initial ref
  alone : s.recipients=[]
  undeleted : s.deletes=0
  read : s.message.read ≤ s.publisherView.2
  unwritten : s.message.write=⊥

/-- Only the last `Send` can find the count at one. -/
def Inv (ref : Nat) (s : State μ) : Prop :=
  match s.publisher with
  | .find => Fresh ref s
  | .storeRef mailboxes => Fresh ref s ∧ 0 < mailboxes.length ∧ mailboxes.length < 2^64
  | .dropDelete rest => Phased s ∧ rest=[]
  | _ => Phased s

theorem wrapSub_one {n : Nat} (h : 0 < n) (hn : n < 2^64) : wrapSub n 1=n-1 :=
  wrapSub_of_le h hn

section Hands

variable {s : State μ} {v v' : Know} {n : Nat}

theorem forall₂_replicate (h : v ≤ v') (l : List Know) :
    List.Forall₂ (· ≤ ·) (List.replicate n v++l) (List.replicate n v'++l) := by
  refine List.rel_append ?_ (List.forall₂_refl l)
  induction n with
  | zero => exact .nil
  | succ n ih => exact .cons h ih

/-- The publisher, with `n+1` references, accesses the message and gives one up. -/
theorem publisher_release {l : List Know} {deletes : Nat} {ds : List Know} {k : Nat}
    {r : Nat×History Unit (Option Nat) Nat×Know}
    (hp : Lifespan () s.ref s.message deletes (List.replicate (n+1) s.publisherView++l) ds)
    (hu : fetchSub s none s.publisherView k=some r) :
    (r.1=1 ↔ n=0 ∧ l=[]) ∧ Lifespan () r.2.1 (access s none s.publisherView) deletes
      (List.replicate n r.2.2++l) (if r.1=1 then r.2.2::ds else ds) := by
  have htick := hp.learn (forall₂_replicate (View.le_tick (i := none)) l)
    (List.forall₂_refl ds)
  have hmem : s.publisherView.tick none∈
      List.replicate (n+1) (s.publisherView.tick none)++l := by
    simp [List.replicate_succ]
  obtain ⟨hv,hfound,hrel⟩ := (htick.access hmem none).release (v := s.publisherView.tick none)
    (fun _ h hn => wrapSub_one h hn) hu
  refine ⟨?_,hrel.learn (forall₂_replicate hv l) (List.forall₂_refl _)⟩
  rw [hfound]
  simp

end Hands

section Steps

variable {ref : Nat} {table : Table μ} {type : EventType} {s t : State μ} {full : Bool} {n : Nat}

theorem Fresh.access (h : Fresh ref s) :
    (access s none s.publisherView).read ≤ (s.publisherView.tick none).2 ∧
      (access s none s.publisherView).write=⊥ := by
  have hle : s.publisherView ≤ s.publisherView.tick none := View.le_tick
  exact ⟨Plain.noteRead_le (h.read.trans hle.2),h.unwritten⟩

theorem publish_inv (hsize : ∀ l,table type=some l → 0 < l.length ∧ l.length < 2^64)
    (href : table type=none → ref=1) (h : Inv ref s)
    (hn : publish table type full n s=some t) : Inv ref t := by
  obtain ⟨hist,message,pc,pv,recipients,deletes⟩ := s
  cases pc with
  | find =>
    have hf : Fresh ref ⟨hist,message,.find,pv,recipients,deletes⟩ := h
    obtain ⟨hread,hwrite⟩ := hf.access
    cases hn
    cases ht : table type with
    | some mailboxes =>
      exact ⟨⟨hf.initial,hf.alone,hf.undeleted,hread,hwrite⟩,hsize mailboxes ht⟩
    | none =>
      obtain rfl := href ht
      obtain rfl : hist=.initial 1 := hf.initial
      obtain rfl : recipients=[] := hf.alone
      exact .used 0 ⟨0,1,⊥⟩ ⟨.initial 1,rfl,by simp [hands],
        fun i => Or.inr ⟨_,by simp [hands,held],hread i⟩,hwrite⟩ (by simp [hands,held])
        (by simp [hands,held]) hf.undeleted rfl
  | storeRef mailboxes =>
    obtain ⟨hf,hpos,hlt⟩ : Fresh ref ⟨hist,message,.storeRef mailboxes,pv,recipients,deletes⟩ ∧
      0 < mailboxes.length ∧ mailboxes.length < 2^64 := h
    obtain ⟨hread,hwrite⟩ := hf.access
    obtain ⟨x,hs,rfl⟩ := Option.map_eq_some_iff.mp hn
    obtain ⟨-,hfresh,rfl⟩ := store_cases hs
    obtain rfl : hist=.initial ref := hf.initial
    obtain rfl : recipients=[] := hf.alone
    have hshared := Shared.stored (x := ()) (n := mailboxes.length) .relaxed
      (Tail.initial ref) hfresh hread hwrite hpos
    rw [← wrap_of_lt hlt] at hshared
    refine .used n _ (hshared.perm ?_) ?_ ?_ hf.undeleted rfl
    · simp [hands,held,wrap_of_lt hlt]
    · simpa [hands,held] using hlt
    · simp [hands,held]
      exact List.ne_nil_of_length_pos hpos
  | send rest =>
    have hp : Phased ⟨hist,message,.send rest,pv,recipients,deletes⟩ := h
    cases rest with
    | nil =>
      cases hn
      exact hp
    | cons mailbox rest =>
      simp only [publish] at hn
      split_ifs at hn
      · cases hn
        exact hp
      · cases hn
        refine Lifespan.perm hp ?_ ?_
        · simp only [hands,held,List.length_cons,List.filterMap_append]
          rw [List.replicate_succ',List.append_assoc]
          exact (List.Perm.append_left _ List.perm_append_comm)
        · have hnone : [(RecipientPc.holding,pv)].filterMap deleting=[] := rfl
          simp [deleters,deletesNow,hnone]
  | drop rest =>
    have hp : Phased ⟨hist,message,.drop rest,pv,recipients,deletes⟩ := h
    obtain ⟨r,hu,rfl⟩ := Option.map_eq_some_iff.mp hn
    obtain ⟨hfound,hrel⟩ := publisher_release (n := rest.length) hp hu
    by_cases hone : r.1=1
    · have hnil : rest=[] := List.eq_nil_of_length_eq_zero (hfound.mp hone).1
      subst hnil
      simp only [hone,if_true] at hrel ⊢
      exact ⟨hrel,rfl⟩
    · simp only [hone,if_false] at hrel ⊢
      exact hrel
  | dropDelete rest =>
    obtain ⟨hp,rfl⟩ : Phased ⟨hist,message,.dropDelete rest,pv,recipients,deletes⟩ ∧ rest=[] := h
    cases hn
    exact (Lifespan.delete hp _).2.2
  | release =>
    have hp : Phased ⟨hist,message,.release,pv,recipients,deletes⟩ := h
    obtain ⟨r,hu,rfl⟩ := Option.map_eq_some_iff.mp hn
    obtain ⟨-,hrel⟩ := publisher_release (n := 0) hp hu
    by_cases hone : r.1=1
    · simp only [hone,if_true] at hrel ⊢
      exact hrel
    · simp only [hone,if_false] at hrel ⊢
      exact hrel
  | releaseDelete =>
    have hp : Phased ⟨hist,message,.releaseDelete,pv,recipients,deletes⟩ := h
    cases hn
    exact (Lifespan.delete hp _).2.2
  | returned => cases hn

/-- Once somebody has received the message, its count is stored. -/
theorem Inv.phased (h : Inv ref s) (hr : s.recipients≠[]) :
    Phased s ∧ ∀ {t : State μ},t.publisher=s.publisher → Phased t → Inv ref t := by
  obtain ⟨hist,message,pc,pv,recipients,deletes⟩ := s
  cases pc with
  | find => exact absurd (Fresh.alone h) hr
  | storeRef mailboxes => exact absurd (Fresh.alone h.1) hr
  | dropDelete rest =>
    refine ⟨h.1,fun {t} ht hp => ?_⟩
    obtain ⟨hist',message',pc',pv',recipients',deletes'⟩ := t
    obtain rfl : pc'=.dropDelete rest := ht
    exact ⟨hp,h.2⟩
  | send rest | drop rest | release | releaseDelete | returned =>
    refine ⟨h,fun {t} ht hp => ?_⟩
    obtain ⟨hist',message',pc',pv',recipients',deletes'⟩ := t
    cases ht
    exact hp

/-- The hands and the deleters, with the reference of recipient `i` in front. -/
theorem recipients_perm {i : Nat} {r : RecipientPc×Know} (hi : s.recipients[i]?=some r)
    (r' : RecipientPc×Know) :
    ∃ hs ds,(hands s).Perm ((holding r).toList++hs) ∧ (deleters s).Perm ((deleting r).toList++ds) ∧
      ∀ t : State μ,t.publisher=s.publisher → t.publisherView=s.publisherView →
        t.recipients=s.recipients.set i r' →
        ((holding r').toList++hs).Perm (hands t) ∧
          ((deleting r').toList++ds).Perm (deleters t) := by
  obtain ⟨hh,hh'⟩ := filterMap_set holding hi r'
  obtain ⟨hd,hd'⟩ := filterMap_set deleting hi r'
  have swap {a b c : List Know} : (a++(b++c)).Perm (b++(a++c)) := by
    rw [← List.append_assoc,← List.append_assoc]
    exact List.Perm.append_right _ List.perm_append_comm
  refine ⟨_,_,(hh.append_left _).trans swap,(hd.append_left _).trans swap,?_⟩
  intro t hp hv hr
  unfold hands deleters
  rw [hp,hv,hr]
  exact ⟨swap.trans (hh'.symm.append_left _),swap.trans (hd'.symm.append_left _)⟩

theorem forall₂_cons {v v' : Know} (h : v ≤ v') (l : List Know) :
    List.Forall₂ (· ≤ ·) (v::l) (v'::l) := .cons h (List.forall₂_refl l)

theorem recipient_inv {i : Nat} (h : Inv ref s) (hn : recipient i n s=some t) : Inv ref t := by
  simp only [recipient] at hn
  split at hn
  · rename_i v hi
    obtain ⟨hp,hkeep⟩ := h.phased (List.ne_nil_of_mem (List.mem_of_getElem? hi))
    obtain ⟨r,hu,rfl⟩ := Option.map_eq_some_iff.mp hn
    obtain ⟨hs,ds,hh,hd,hback⟩ := recipients_perm hi
      (if r.1=1 then .deleting else .finished,r.2.2)
    have htick := (hp.perm hh hd).learn
      (forall₂_cons (View.le_tick (i := some i)) hs) (List.forall₂_refl _)
    obtain ⟨-,-,hrel⟩ := (htick.access (List.mem_cons_self ..) (some i)).release
      (fun _ h hn => wrapSub_one h hn) hu
    obtain ⟨hh',hd'⟩ := hback {s with
      ref := r.2.1
      message := access s (some i) v
      recipients := s.recipients.set i (if r.1=1 then .deleting else .finished,r.2.2)} rfl rfl rfl
    refine hkeep ?_ ?_
    · rfl
    · by_cases hone : r.1=1
      · simp only [hone,if_true] at hrel hh' hd' ⊢
        exact hrel.perm hh' hd'
      · simp only [hone,if_false] at hrel hh' hd' ⊢
        exact hrel.perm hh' hd'
  · rename_i v hi
    obtain ⟨hp,hkeep⟩ := h.phased (List.ne_nil_of_mem (List.mem_of_getElem? hi))
    cases hn
    obtain ⟨hs,ds,hh,hd,hback⟩ := recipients_perm hi (.finished,v.tick (some i))
    obtain ⟨hh',hd'⟩ := hback {s with
      message := delete s (some i) v
      recipients := s.recipients.set i (.finished,v.tick (some i))
      deletes := s.deletes+1} rfl rfl rfl
    refine hkeep ?_ ((Lifespan.delete (hp.perm hh hd) _).2.2.perm hh' hd')
    rfl
  · cases hn

theorem use_inv {i : Nat} (h : Inv ref s) (hn : use i s=some t) : Inv ref t := by
  simp only [use] at hn
  split at hn
  · rename_i v hi
    obtain ⟨hp,hkeep⟩ := h.phased (List.ne_nil_of_mem (List.mem_of_getElem? hi))
    cases hn
    obtain ⟨hs,ds,hh,hd,hback⟩ := recipients_perm hi (.holding,v.tick (some i))
    obtain ⟨hh',hd'⟩ := hback {s with
      message := access s (some i) v
      recipients := s.recipients.set i (.holding,v.tick (some i))} rfl rfl rfl
    have htick := (hp.perm hh hd).learn
      (forall₂_cons (View.le_tick (i := some i)) hs) (List.forall₂_refl _)
    refine hkeep ?_ ((htick.access (List.mem_cons_self ..) (some i)).perm hh' hd')
    rfl
  · cases hn

theorem sync_inv (i j : Option Nat) (h : Inv ref s) : Inv ref (sync i j s) := by
  cases i with
  | none =>
    obtain ⟨hist,message,pc,pv,recipients,deletes⟩ := s
    simp only [sync]
    generalize hv : pv ⊔ _=v
    have hle : pv ≤ v := hv ▸ le_sup_left
    have hlearn (hp : Phased ⟨hist,message,pc,pv,recipients,deletes⟩) :
        Phased ⟨hist,message,pc,v,recipients,deletes⟩ := by
      refine Lifespan.learn hp (forall₂_replicate hle _) (List.rel_append ?_ (List.forall₂_refl _))
      split_ifs
      · exact .cons hle .nil
      · exact .nil
    have hfresh (hf : Fresh ref ⟨hist,message,pc,pv,recipients,deletes⟩) :
        Fresh ref ⟨hist,message,pc,v,recipients,deletes⟩ :=
      {hf with read := hf.read.trans hle.2}
    cases pc with
    | find => exact hfresh h
    | storeRef mailboxes => exact ⟨hfresh h.1,h.2⟩
    | dropDelete rest => exact ⟨hlearn h.1,h.2⟩
    | send rest | drop rest | release | releaseDelete | returned => exact hlearn h
  | some i =>
    simp only [sync]
    generalize viewOf s j=u
    cases hi : s.recipients[i]? with
    | none =>
      have hlen : s.recipients.length ≤ i := List.getElem?_eq_none_iff.mp hi
      rw [List.modify_eq_self hlen]
      exact h
    | some r =>
      obtain ⟨hp,hkeep⟩ := h.phased (List.ne_nil_of_mem (List.mem_of_getElem? hi))
      rw [List.modify_eq_set_getElem?,hi]
      obtain ⟨hs,ds,hh,hd,hback⟩ := recipients_perm hi (r.1,r.2 ⊔ u)
      obtain ⟨hh',hd'⟩ := hback {s with
        recipients := s.recipients.set i (r.1,r.2 ⊔ u)} rfl rfl rfl
      refine hkeep ?_ (((hp.perm hh hd).learn ?_ ?_).perm hh' hd')
      · rfl
      all_goals
        obtain ⟨pc,v⟩ := r
        refine List.rel_append ?_ (List.forall₂_refl _)
        cases pc <;> first | exact .nil | exact .cons le_sup_left .nil

theorem reachable_inv (hsize : ∀ l,table type=some l → 0 < l.length ∧ l.length < 2^64)
    (href : table type=none → ref=1) (h : (machine ref table type).Reachable s) :
    Inv ref s := by
  apply h.invariant
  · rintro x rfl
    exact ⟨rfl,rfl,rfl,bot_le,rfl⟩
  · intro x a y hx hn _
    cases a with
    | publish full n => exact publish_inv hsize href hx hn
    | use i => exact use_inv hx hn
    | recipient i n => exact recipient_inv hx hn
    | sync i j =>
      cases hn
      exact sync_inv i j hx

theorem Inv.uses (h : Inv ref s) {v : Know} (hu : Uses s v) : s.deletes=0 := by
  obtain ⟨hist,message,pc,pv,recipients,deletes⟩ := s
  cases hu with
  | find hp =>
    obtain rfl : pc=.find := hp
    exact Fresh.undeleted h
  | storeRef hp =>
    cases hp
    exact Fresh.undeleted h.1
  | drop hp =>
    cases hp
    exact Lifespan.undeleted_of_mem h (v := pv) (by simp [hands,held,List.replicate_succ])
  | release hp =>
    obtain rfl : pc=.release := hp
    exact Lifespan.undeleted_of_mem h (v := pv) (by simp [hands,held])
  | holding hm =>
    have hp := (h.phased (List.ne_nil_of_mem hm)).1
    refine Lifespan.undeleted_of_mem hp (v := v) (List.mem_append_right _ ?_)
    exact List.mem_filterMap.mpr ⟨_,hm,rfl⟩

theorem Inv.deletes (h : Inv ref s) {v : Know} (hd : Deletes s v) :
    s.deletes=0 ∧ s.message.Writable v := by
  have ready (hp : Phased s) (hv : v∈deleters s) : s.deletes=0 ∧ s.message.Writable v := by
    obtain ⟨l₁,l₂,he⟩ := List.append_of_mem hv
    have hp' : Lifespan () s.ref s.message s.deletes (hands s) (l₁++v::l₂) := he ▸ hp
    obtain ⟨hz,hw,-⟩ := Lifespan.delete (hp'.perm (List.Perm.refl _) List.perm_middle) s.message
    exact ⟨hz,hw⟩
  obtain ⟨hist,message,pc,pv,recipients,deletes⟩ := s
  cases hd with
  | drop hp =>
    cases hp
    exact ready h.1 (by simp [deleters,deletesNow])
  | release hp =>
    obtain rfl : pc=.releaseDelete := hp
    exact ready h (by simp [deleters,deletesNow])
  | deleting hm =>
    refine ready (h.phased (List.ne_nil_of_mem hm)).1 (List.mem_append_right _ ?_)
    exact List.mem_filterMap.mpr ⟨_,hm,rfl⟩

theorem Inv.finished (h : Inv ref s) (hf : Finished s) : s.deletes=1 := by
  obtain ⟨hist,message,pc,pv,recipients,deletes⟩ := s
  obtain ⟨rfl,hall⟩ : pc=.returned ∧ ∀ r∈recipients,r.1=RecipientPc.finished := hf
  have hnone {f : RecipientPc×Know → Option Know} (hf : ∀ v,f (.finished,v)=none) :
      recipients.filterMap f=[] := by
    rw [List.filterMap_eq_nil_iff]
    rintro ⟨pc,v⟩ hr
    obtain rfl : pc=.finished := hall _ hr
    exact hf v
  refine Lifespan.deleted (x := ()) (h := hist) (c := message) (Lifespan.perm h ?_ ?_)
  · simp [hands,held,hnone (f := holding) fun _ => rfl]
  · simp [deleters,deletesNow,hnone (f := deleting) fun _ => rfl]

end Steps

/-- The memory orders of `ref_` suffice. Over a table whose lists are not empty, for a message
that somebody has subscribed to or that came with a count of one: whoever still has a reference
uses a message that is not deleted, the one that deletes it does so after every use by any
thread, and once everybody is through it has been deleted, exactly once. -/
theorem publish_release_acquire {ref : Nat} {table : Table μ} {type : EventType} {s : State μ}
    (hsize : ∀ l,table type=some l → 0 < l.length ∧ l.length < 2^64)
    (href : table type=none → ref=1) (h : (machine ref table type).Reachable s) :
    (∀ v,Uses s v → s.deletes=0) ∧
    (∀ v,Deletes s v → s.deletes=0 ∧ s.message.Writable v) ∧
    (Finished s → s.deletes=1) := by
  have hi := reachable_inv hsize href h
  exact ⟨fun _ hu => hi.uses hu,fun _ hd => hi.deletes hd,fun hf => hi.finished hf⟩

/-- The first of two mailboxes takes the message and its consumer is through with it before
`Publish` finds the second one full: `Publish` itself deletes the message. -/
theorem publish_release_acquire_full : ∃ s : State Nat,
    (machine 0 ((Table.empty : Table Nat).set .none (some [3,4])) .none).Reachable s ∧
    s.publisher=.dropDelete [] ∧ s.message.Writable s.publisherView := by
  have hsize : ∀ l,(Table.empty : Table Nat).set .none (some [3,4]) .none=some l →
      0 < l.length ∧ l.length < 2^64 := by
    rintro l ⟨⟩
    decide
  obtain ⟨s,hs,hp⟩ := Machine.exists_reachableBy
    (machine 0 ((Table.empty : Table Nat).set .none (some [3,4])) .none) Machine.anyStep
    [.publish false 0,.publish false 1,.publish false 0,.use 0,.recipient 0 1,
      .publish true 0,.publish false 2] (fun s => s.publisher=.dropDelete [])
    rfl (by decide +kernel)
  have hd : s.publisher=.dropDelete [] := of_decide_eq_true hp
  exact ⟨s,hs,hd,((publish_release_acquire hsize nofun hs).2.1 _ (.drop hd)).2⟩

end Acnet.EventBus.Lifetime
