import Acnet.Manager.Manager
import Mathlib.Data.List.Perm.Basic

namespace Acnet.EventBus

/-- The map from event types to subscribed mailboxes. -/
def Table (μ : Type*) := EventType → Option (List μ)

namespace Table

variable {μ : Type*}

def empty : Table μ := fun _ => none

def mailboxes (table : Table μ) (type : EventType) : List μ := (table type).getD []

/-- The entry of a type is written, or erased. -/
def set (table : Table μ) (type : EventType) (entry : Option (List μ)) : Table μ :=
  fun type' => if type'=type then entry else table type'

/-- The list of a type that has none yet is made by `operator[]`. -/
def pushBack (table : Table μ) (type : EventType) (mailbox : μ) : Table μ :=
  table.set type (some (table.mailboxes type++[mailbox]))

end Table

section Table

variable {μ : Type*} [DecidableEq μ]

/-- The first occurrence is overwritten with the last element, which is then popped. -/
def swapRemove (l : List μ) (mailbox : μ) : List μ :=
  match l.getLast? with
  | none => l
  | some back => (l.set (l.idxOf mailbox) back).dropLast

/-- The table without one occurrence of the mailbox, or nothing if it has none. -/
def Table.remove (table : Table μ) (type : EventType) (mailbox : μ) : Option (Table μ) :=
  match table type with
  | none => none
  | some l =>
      if mailbox∈l then
        let l' := swapRemove l mailbox
        some (table.set type (if l'.isEmpty then none else some l'))
      else none

end Table

/-- What a thread keeps between its calls of `Publish`. -/
structure Local (μ : Type*) where
  localEventBus : Table μ
  localVersion : Nat

/-- Where a thread is: at the lock of a writer, or in `Publish` before the load of `version_`,
before `__sync_route_table`, before the lookup, or in the loop over the mailboxes, of which some
have been sent to. `began` is the version at the call of `Publish`. -/
inductive ThreadPc (μ : Type*) where
  | idle
  | subscribe (type : EventType) (mailbox : μ)
  | unsubscribe (type : EventType) (mailbox : μ)
  | publish (message : EventMessage) (began : Nat)
  | syncRouteTable (message : EventMessage) (began : Nat)
  | find (message : EventMessage) (began : Nat)
  | sending (message : EventMessage) (began ref : Nat) (sent rest : List μ)

/-- A change of the shared table. -/
inductive Change (μ : Type*) where
  | subscribed (type : EventType) (mailbox : μ)
  | unsubscribed (type : EventType) (mailbox : μ)
  deriving DecidableEq

def Change.type {μ : Type*} : Change μ → EventType
  | .subscribed type _ => type
  | .unsubscribed type _ => type

/-- A call of `Publish` that has returned: the versions at its call and at its return, the
mailboxes it has sent to, and the count it has stored, none if it has released the message. -/
structure Publication (τ μ : Type*) where
  thread : τ
  message : EventMessage
  began : Nat
  ended : Nat
  sent : List μ
  ref : Option Nat
  deriving DecidableEq

/-- `history` (the tables by version), `changes` and `publications` are not in the source. -/
structure State (τ μ : Type*) where
  eventBus : Table μ
  version : Nat
  locals : τ → Local μ
  pcs : τ → ThreadPc μ
  history : List (Table μ)
  changes : List (Change μ)
  publications : List (Publication τ μ)

inductive Action (τ μ : Type*) where
  | subscribe (t : τ) (type : EventType) (mailbox : μ)
  | unsubscribe (t : τ) (type : EventType) (mailbox : μ)
  | publish (t : τ) (message : EventMessage)
  | step (t : τ)

section Machine

variable {τ μ : Type*} [DecidableEq τ] [DecidableEq μ]

namespace State

def setPc (s : State τ μ) (t : τ) (pc : ThreadPc μ) : State τ μ :=
  {s with pcs := Function.update s.pcs t pc}

/-- A locked section that changes the table. -/
def write (s : State τ μ) (t : τ) (table : Table μ) (change : Change μ) : State τ μ :=
  {s.setPc t .idle with
    eventBus := table
    version := s.version+1
    history := s.history++[table]
    changes := s.changes++[change]}

def returned (s : State τ μ) (t : τ) (p : Publication τ μ) : State τ μ :=
  {s.setPc t .idle with publications := s.publications++[p]}

end State

/-- The next step of a call. -/
def step (s : State τ μ) (t : τ) : Option (State τ μ) :=
  match s.pcs t with
  | .idle => none
  | .subscribe type mailbox =>
      some (s.write t (s.eventBus.pushBack type mailbox) (.subscribed type mailbox))
  | .unsubscribe type mailbox =>
      match s.eventBus.remove type mailbox with
      | none => some (s.setPc t .idle)
      | some table => some (s.write t table (.unsubscribed type mailbox))
  | .publish message began =>
      if (s.locals t).localVersion<s.version then some (s.setPc t (.syncRouteTable message began))
      else some (s.setPc t (.find message began))
  | .syncRouteTable message began =>
      some {s.setPc t (.find message began) with
        locals := Function.update s.locals t ⟨s.eventBus,s.version⟩}
  | .find message began =>
      match (s.locals t).localEventBus message.type with
      | some l => some (s.setPc t (.sending message began l.length [] l))
      | none => some (s.returned t ⟨t,message,began,s.version,[],none⟩)
  | .sending message began ref sent (mailbox::rest) =>
      some (s.setPc t (.sending message began ref (sent++[mailbox]) rest))
  | .sending message began ref sent [] =>
      some (s.returned t ⟨t,message,began,s.version,sent,some ref⟩)

def next (s : State τ μ) : Action τ μ → Option (State τ μ)
  | .subscribe t type mailbox =>
      match s.pcs t with
      | .idle => some (s.setPc t (.subscribe type mailbox))
      | _ => none
  | .unsubscribe t type mailbox =>
      match s.pcs t with
      | .idle => some (s.setPc t (.unsubscribe type mailbox))
      | _ => none
  | .publish t message =>
      match s.pcs t with
      | .idle => some (s.setPc t (.publish message s.version))
      | _ => none
  | .step t => step s t

def init : State τ μ where
  eventBus := .empty
  version := 0
  locals _ := ⟨.empty,0⟩
  pcs _ := .idle
  history := [.empty]
  changes := []
  publications := []

variable (τ μ) in
def machine : Machine (State τ μ) (Action τ μ) where
  start s := s=init
  next := next

end Machine

section Lists

variable {μ : Type*} [DecidableEq μ] {l : List μ} {mailbox : μ}

/-- Whichever occurrence is overwritten, one of them is gone. -/
theorem swapRemove_perm (h : mailbox∈l) : (mailbox::swapRemove l mailbox).Perm l := by
  obtain ⟨front,back,rfl⟩ := l.eq_nil_or_concat'.resolve_left (List.ne_nil_of_mem h)
  have hlast : (front++[back]).getLast?=some back := by simp
  simp only [swapRemove,hlast]
  by_cases hm : mailbox∈front
  · have hi := List.idxOf_lt_length_of_mem hm
    have hset : (front.set (front.idxOf mailbox) back).Perm (back::front.erase mailbox) := by
      rw [← List.eraseIdx_idxOf_eq_erase]
      exact List.set_perm_cons_eraseIdx hi back
    rw [List.idxOf_append_of_mem hm,List.set_append_left _ _ hi,List.dropLast_concat]
    calc (mailbox::front.set (front.idxOf mailbox) back).Perm
          (mailbox::back::front.erase mailbox) :=
          hset.cons _
      _ |>.Perm (back::mailbox::front.erase mailbox) := .swap _ _ _
      _ |>.Perm (back::front) := (List.perm_cons_erase hm).symm.cons _
      _ |>.Perm (front++[back]) := (List.perm_append_singleton _ _).symm
  · obtain rfl : mailbox=back := by simpa [hm] using h
    have hfront : ((front++[mailbox]).set (front.length+[mailbox].idxOf mailbox) mailbox).dropLast=
        front := by
      simp
    rw [List.idxOf_append_of_notMem hm,hfront]
    exact (List.perm_append_singleton _ _).symm

theorem remove_eq_none {table : Table μ} {type : EventType} :
    table.remove type mailbox=none ↔ mailbox∉table.mailboxes type := by
  unfold Table.remove Table.mailboxes
  cases table type with
  | none => simp
  | some l => simp

/-- `Unsubscribe` takes one occurrence away and leaves no empty list. -/
theorem remove_eq_some {table table' : Table μ} {type : EventType}
    (h : table.remove type mailbox=some table') :
    ∃ entry,table'=table.set type entry ∧ entry≠some [] ∧
      (mailbox::entry.getD []).Perm (table.mailboxes type) := by
  unfold Table.remove at h
  split at h
  · cases h
  · rename_i l hl
    split_ifs at h with hm
    cases h
    refine ⟨_,rfl,?_,?_⟩
    · split_ifs with he
      · simp
      · simpa using he
    · have hp := swapRemove_perm hm
      rw [show table.mailboxes type=l by simp [Table.mailboxes,hl]]
      split_ifs with he
      · rwa [List.isEmpty_iff.mp he] at hp
      · exact hp

end Lists

end Acnet.EventBus
