import Acnet.Framework.Counted
import Acnet.Supervisor.Books

/-!
Who holds the messages. The manager's loop is cut where it releases, sends or receives, so that
other threads may send and release between any two of its steps. Mailbox 0 is the manager's own.
-/

namespace Acnet.Supervisor.References

open Manager (Outcome Broadcast Effect Loading mailboxes supervise)

/-- Where the manager's coroutine is in the handling of a message. -/
inductive ManagerPc where
  | idle
  | handling (message : Nat)
  /-- The handler of `message` has allocated `stop` and has yet to send it to `recipients` and,
  if `release`, to release it. -/
  | sending (message stop : Nat) (recipients : List Nat) (release done : Bool)
  | finishing (message : Nat) (done : Bool)
  | returned
  deriving DecidableEq

/-- The messages are numbered as they are allocated. -/
structure State where
  books : Supervisor.State
  messages : List (Cell EventMessage)
  /-- The `Send`s of other threads that have neither enqueued nor released their message. -/
  posts : List (Nat×Nat)
  /-- The occupied mailbox slots, a mailbox with a message, in the order they were filled. -/
  slots : List (Nat×Nat)
  /-- The messages that consumers and destructors of mailboxes hold. -/
  held : List Nat
  manager : ManagerPc
  destroyed : List Nat

inductive Action where
  | load (o : Outcome)
  | post (box : Nat) (message : EventMessage)
  | deliver (box message : Nat) (full : Bool)
  | receive (box : Nat)
  | release (message : Nat)
  | managerReceive
  | handle (o : Outcome)
  | send (box : Nat) (full : Bool)
  | sent
  | finish
  | destroy (box : Nat)
  | drain (box : Nat)
  | clearRunning

def ManagerPc.recipients : ManagerPc → List Nat
  | .sending _ _ recipients _ _ => recipients
  | _ => []

/-- The shared stop request of a handler. -/
def stopMessage : EventMessage := ⟨.cmdModuleStop,0,"",0⟩

namespace State

/-- Nobody can reach the mailbox any more. -/
def Unreferenced (s : State) (box : Nat) : Prop :=
  box∉mailboxes s.books ∧ box∉s.posts.map (·.1) ∧ box∉s.manager.recipients ∧
    (box=0 → s.manager=.returned)

instance (s : State) (box : Nat) : Decidable (s.Unreferenced box) :=
  inferInstanceAs (Decidable (_∧_∧_∧(_ → _)))

/-- `MailBox::Send` enqueues the message, or drops it and lets go of it. -/
def send (s : State) (box message : Nat) (full : Bool) : State :=
  if full then {s with messages := Cell.release s.messages message}
  else {s with slots := s.slots++[(box,message)]}

/-- The oldest message leaves a mailbox for the hands of a consumer. -/
def take (s : State) (box : Nat) : Option State :=
  match s.slots.find? (·.1=box) with
  | none => none
  | some slot => some {s with slots := s.slots.erase slot, held := slot.2::s.held}

end State

/-- One turn of the `switch` of `RunCoroutine`. -/
def handle (o : Outcome) (s : State) (message : Nat) (content : EventMessage) : State :=
  match supervise o s.books content with
  | (books,none,done) => {s with books := books, manager := .finishing message done}
  | (books,some stop,done) =>
      {s with
        books := books
        messages := Cell.alloc s.messages stopMessage stop.ref
        manager := .sending message s.messages.length stop.recipients stop.release done}

def next (s : State) : Action → Option State
  | .load o => (Manager.load o s.books).map fun books => {s with books := books}
  | .post box message =>
      if box∈s.destroyed then none
      else some {s with
        messages := Cell.alloc s.messages message 1
        posts := (box,s.messages.length)::s.posts}
  | .deliver box message full =>
      if (box,message)∈s.posts then
        some (State.send {s with posts := s.posts.erase (box,message)} box message full)
      else none
  | .receive box => if box=0 ∨ box∈s.destroyed then none else s.take box
  | .release message =>
      if message∈s.held then
        some {s with
          messages := Cell.release s.messages message
          held := s.held.erase message}
      else none
  | .managerReceive =>
      match s.manager,s.slots.find? (·.1=0) with
      | .idle,some slot =>
          some {s with slots := s.slots.erase slot, manager := .handling slot.2}
      | _,_ => none
  | .handle o =>
      match s.manager with
      | .handling message => s.messages[message]?.map fun c => handle o s message c.content
      | _ => none
  | .send box full =>
      match s.manager with
      | .sending message stop recipients release done =>
          if box∈recipients then
            some (State.send {s with
              manager := .sending message stop (recipients.erase box) release done} box stop full)
          else none
      | _ => none
  | .sent =>
      match s.manager with
      | .sending message stop [] release done =>
          some {s with
            messages := if release then Cell.release s.messages stop else s.messages
            manager := .finishing message done}
      | _ => none
  | .finish =>
      match s.manager with
      | .finishing message done =>
          some {s with
            messages := Cell.release s.messages message
            manager := if done then .returned else .idle}
      | _ => none
  | .destroy box =>
      if box < s.books.nextMailbox ∧ s.Unreferenced box ∧ box∉s.destroyed then
        some {s with destroyed := box::s.destroyed}
      else none
  | .drain box => if box∈s.destroyed then s.take box else none
  | .clearRunning => some {s with books := {s.books with isRunning := false}}

def init (books : Supervisor.State) : State where
  books := books
  messages := []
  posts := []
  slots := []
  held := []
  manager := .idle
  destroyed := []

def machine : Machine State Action where
  start s := ∃ books,Supervisor.machine.start books ∧ s=init books
  next := next

/-- Everything that a step can do. -/
inductive Step (s : State) : Action → State → Prop
  | load {o : Outcome} {books : Supervisor.State} (effect : Loading o s.books books) :
      Step s (.load o) {s with books := books}
  | post {box : Nat} {message : EventMessage} (alive : box∉s.destroyed) :
      Step s (.post box message) {s with
        messages := Cell.alloc s.messages message 1
        posts := (box,s.messages.length)::s.posts}
  | deliver {box message : Nat} {full : Bool} (posted : (box,message)∈s.posts) :
      Step s (.deliver box message full)
        (State.send {s with posts := s.posts.erase (box,message)} box message full)
  | take {a : Action} {box : Nat} {slot : Nat×Nat} (action : a=.receive box ∨ a=.drain box)
      (oldest : s.slots.find? (·.1=box)=some slot) :
      Step s a {s with slots := s.slots.erase slot, held := slot.2::s.held}
  | release {message : Nat} (held : message∈s.held) :
      Step s (.release message) {s with
        messages := Cell.release s.messages message
        held := s.held.erase message}
  | managerReceive {slot : Nat×Nat} (pc : s.manager=.idle)
      (oldest : s.slots.find? (·.1=0)=some slot) :
      Step s .managerReceive {s with slots := s.slots.erase slot, manager := .handling slot.2}
  | handle {o : Outcome} {message : Nat} {c : Cell EventMessage} (pc : s.manager=.handling message)
      (cell : s.messages[message]?=some c) :
      Step s (.handle o) (handle o s message c.content)
  | send {box message stop : Nat} {recipients : List Nat} {full release done : Bool}
      (pc : s.manager=.sending message stop recipients release done) (recipient : box∈recipients) :
      Step s (.send box full) (State.send {s with
        manager := .sending message stop (recipients.erase box) release done} box stop full)
  | sent {message stop : Nat} {release done : Bool}
      (pc : s.manager=.sending message stop [] release done) :
      Step s .sent {s with
        messages := if release then Cell.release s.messages stop else s.messages
        manager := .finishing message done}
  | finish {message : Nat} {done : Bool} (pc : s.manager=.finishing message done) :
      Step s .finish {s with
        messages := Cell.release s.messages message
        manager := if done then .returned else .idle}
  | destroy {box : Nat} (unreferenced : s.Unreferenced box) :
      Step s (.destroy box) {s with destroyed := box::s.destroyed}
  | clearRunning : Step s .clearRunning {s with books := {s.books with isRunning := false}}

theorem take_cases {s t : State} {box : Nat} (h : s.take box=some t) :
    ∃ slot,s.slots.find? (·.1=box)=some slot ∧
      t={s with slots := s.slots.erase slot, held := slot.2::s.held} := by
  unfold State.take at h
  split at h
  · cases h
  · rename_i slot hf
    cases h
    exact ⟨slot,hf,rfl⟩

theorem next_cases {s t : State} {a : Action} (h : next s a=some t) : Step s a t := by
  cases a with
  | load o =>
    obtain ⟨books,hb,rfl⟩ := Option.map_eq_some_iff.mp h
    exact .load (Manager.load_cases hb)
  | post box message =>
    simp only [next] at h
    split_ifs at h with hd
    cases h
    exact .post hd
  | deliver box message full =>
    simp only [next] at h
    split_ifs at h with hp
    cases h
    exact .deliver hp
  | receive box =>
    simp only [next] at h
    split_ifs at h
    obtain ⟨slot,hf,rfl⟩ := take_cases h
    exact .take (Or.inl rfl) hf
  | drain box =>
    simp only [next] at h
    split_ifs at h
    obtain ⟨slot,hf,rfl⟩ := take_cases h
    exact .take (Or.inr rfl) hf
  | release message =>
    simp only [next] at h
    split_ifs at h with hm
    cases h
    exact .release hm
  | managerReceive =>
    simp only [next] at h
    split at h
    · rename_i slot hm hf
      cases h
      exact .managerReceive hm hf
    · cases h
  | handle o =>
    simp only [next] at h
    split at h
    · rename_i message hm
      obtain ⟨c,hc,rfl⟩ := Option.map_eq_some_iff.mp h
      exact .handle hm hc
    · cases h
  | send box full =>
    simp only [next] at h
    split at h
    · rename_i message stop recipients release done hm
      split_ifs at h with hbox
      cases h
      exact .send hm hbox
    · cases h
  | sent =>
    simp only [next] at h
    split at h
    · rename_i message stop release done hm
      cases h
      exact .sent hm
    · cases h
  | finish =>
    simp only [next] at h
    split at h
    · rename_i message done hm
      cases h
      exact .finish hm
    · cases h
  | destroy box =>
    simp only [next] at h
    split_ifs at h with hd
    cases h
    exact .destroy hd.2.1
  | clearRunning =>
    cases h
    exact .clearRunning

/-- How often the manager's coroutine holds a message: once while it handles it, and a stop
request once for each `Send` to come and once for its own release. -/
def ManagerPc.refs (i : Nat) : ManagerPc → Nat
  | .idle => 0
  | .handling message => if i=message then 1 else 0
  | .sending message stop recipients release _ =>
      (if i=message then 1 else 0)+if i=stop then recipients.length+release.toNat else 0
  | .finishing message _ => if i=message then 1 else 0
  | .returned => 0

/-- How many slots, consumers and unfinished `Send`s or releases a message has. -/
def State.holders (s : State) (i : Nat) : Nat :=
  s.slots.countP (·.2=i)+s.held.count i+s.posts.countP (·.2=i)+s.manager.refs i

/-- The message that a step sends, takes out of a mailbox, reads or releases. -/
def touched (s : State) : Action → Option Nat
  | .deliver _ message _ => some message
  | .receive box => (s.slots.find? (·.1=box)).map (·.2)
  | .drain box => (s.slots.find? (·.1=box)).map (·.2)
  | .release message => some message
  | .managerReceive => (s.slots.find? (·.1=0)).map (·.2)
  | .handle _ =>
      match s.manager with
      | .handling message => some message
      | _ => none
  | .send _ _ =>
      match s.manager with
      | .sending _ stop _ _ _ => some stop
      | _ => none
  | .sent =>
      match s.manager with
      | .sending _ stop _ true _ => some stop
      | _ => none
  | .finish =>
      match s.manager with
      | .finishing message _ => some message
      | _ => none
  | _ => none

/-- A stop request is allocated with one reference for each of its recipients and for the
release of its handler, and it never comes without any. -/
theorem stop_counted {o : Outcome} {s t : Supervisor.State} {m : EventMessage} {b : Broadcast}
    {done : Bool} (hs : Books s) (h : Effect o s m t (some b) done) :
    b.ref=b.recipients.length+b.release.toNat ∧ 0 < b.ref := by
  cases h with
  | exit type some =>
    have hpos : 0 < s.childrens.length := List.length_pos_iff.mpr some
    exact ⟨by simp [mailboxes],hpos⟩
  | @reloadAll config type update all some =>
    have hc : Books {s with config := config} := {hs with}
    have hne : s.childrens≠[] := fun hnil => some (hc.requestAll_empty.mpr hnil)
    have hpos : 0 < s.childrens.length := List.length_pos_iff.mpr hne
    simp only [mailboxes,setConfig_eq,childrens_eq,List.length_map,Bool.toNat_false]
    omega
  | @loadAll config type update all none =>
    have hc : Books {s with config := config} := {hs with}
    have hnil : s.childrens=[] := hc.requestAll_empty.mp none
    simp [mailboxes,hnil]
  | reloadOne | reloadNew | remove => simp

structure Inv (s : State) : Prop where
  books : Books s.books
  balanced : Cell.Balanced s.messages s.holders

theorem countP_of_mem {l : List (Nat×Nat)} {p : Nat×Nat} (h : p∈l) (i : Nat) :
    l.countP (·.2=i)=(l.erase p).countP (·.2=i)+if i=p.2 then 1 else 0 := by
  rw [(List.perm_cons_erase h).countP_eq,List.countP_cons]
  simp only [decide_eq_true_eq,eq_comm (a := i)]

theorem count_of_mem {l : List Nat} {m : Nat} (h : m∈l) (i : Nat) :
    l.count i=(l.erase m).count i+if i=m then 1 else 0 := by
  rw [(List.perm_cons_erase h).count_eq,List.count_cons]
  simp only [beq_iff_eq,eq_comm (a := i)]

namespace Inv

variable {s t : State}

/-- Nobody takes or drops a reference. -/
theorem frame (h : Inv s) (hb : Books t.books) (hm : t.messages=s.messages)
    (hh : ∀ i,t.holders i=s.holders i) : Inv t :=
  ⟨hb,hm ▸ h.balanced.congr hh⟩

/-- `Send` hands the reference that is on its way to a slot, or lets go of it. -/
theorem send {box message : Nat} {full : Bool} (hb : Books s.books)
    (h : Cell.Balanced s.messages fun i => s.holders i+if i=message then 1 else 0) :
    Inv (s.send box message full) := by
  cases full with
  | true => exact ⟨hb,h.release fun _ => rfl⟩
  | false =>
    refine ⟨hb,h.congr ?_⟩
    intro i
    simp only [State.send,State.holders,Bool.false_eq_true,if_false,List.countP_append,
      List.countP_singleton,decide_eq_true_eq]
    simp only [eq_comm (a := i)]
    omega

/-- The manager turns to a message: a handler that needs a stop request holds as many references
to it as it is allocated with. -/
theorem handle {message : Nat} (h : Inv s) (hm : s.manager=.handling message) (o : Outcome)
    (content : EventMessage) : Inv (handle o s message content) := by
  have he := Manager.supervise_effect o s.books content
  have hb := h.books.effect he
  unfold References.handle
  split
  · rename_i books done hs
    rw [hs] at hb
    refine h.frame hb rfl ?_
    intro i
    simp [State.holders,hm,ManagerPc.refs]
  · rename_i books stop done hs
    rw [hs] at hb he
    obtain ⟨href,hpos⟩ := stop_counted h.books he
    refine ⟨hb,h.balanced.alloc hpos ?_⟩
    intro i
    simp only [State.holders,hm,ManagerPc.refs,href]
    omega

theorem step {a : Action} (h : Inv s) (hs : Step s a t) : Inv t := by
  cases hs with
  | load effect => exact h.frame (h.books.loading effect) rfl fun _ => rfl
  | post =>
    refine ⟨h.books,h.balanced.alloc Nat.one_pos ?_⟩
    intro i
    simp only [State.holders,List.countP_cons,decide_eq_true_eq]
    simp only [eq_comm (a := i)]
    omega
  | @deliver box message full posted =>
    refine Inv.send h.books (h.balanced.congr ?_)
    intro i
    have hc : _=_+if i=message then 1 else 0 := countP_of_mem posted i
    simp only [State.holders]
    rw [hc]
    omega
  | take action oldest =>
    refine h.frame h.books rfl ?_
    intro i
    have hc := countP_of_mem (List.mem_of_find?_eq_some oldest) i
    simp only [State.holders,List.count_cons,beq_iff_eq]
    rw [hc]
    simp only [eq_comm (a := i)]
    omega
  | release held =>
    refine ⟨h.books,h.balanced.release ?_⟩
    intro i
    have hc := count_of_mem held i
    simp only [State.holders]
    omega
  | managerReceive pc oldest =>
    refine h.frame h.books rfl ?_
    intro i
    have hc := countP_of_mem (List.mem_of_find?_eq_some oldest) i
    simp only [State.holders,pc,ManagerPc.refs]
    omega
  | handle pc => exact h.handle pc _ _
  | send pc recipient =>
    refine Inv.send h.books (h.balanced.congr ?_)
    intro i
    have hlen := List.length_erase_add_one recipient
    simp only [State.holders,pc,ManagerPc.refs]
    split_ifs <;> omega
  | @sent message stop release done pc =>
    cases release with
    | true =>
      refine ⟨h.books,h.balanced.release ?_⟩
      intro i
      simp only [State.holders,pc,ManagerPc.refs,List.length_nil,Bool.toNat_true,Nat.zero_add]
      omega
    | false =>
      refine h.frame h.books rfl ?_
      intro i
      simp [State.holders,pc,ManagerPc.refs]
  | @finish message done pc =>
    refine ⟨h.books,h.balanced.release ?_⟩
    intro i
    cases done <;> simp [State.holders,pc,ManagerPc.refs]
  | destroy => exact h.frame h.books rfl fun _ => rfl
  | clearRunning =>
    have hb := h.books
    exact h.frame {hb with} rfl fun _ => rfl

end Inv

theorem reachable_inv {s : State} (h : machine.Reachable s) : Inv s := by
  apply h.invariant
  · intro x hx
    obtain ⟨books,hb,rfl⟩ := hx
    exact ⟨start_books hb,Cell.Balanced.nil⟩
  · intro x a y hx hn _
    exact hx.step (next_cases hn)

/-- What a step touches somebody holds. -/
theorem Step.touched_held {s t : State} {a : Action} {i : Nat} (hs : Step s a t)
    (ht : touched s a=some i) : 0 < s.holders i := by
  have slot_held {box : Nat} {slot : Nat×Nat} (hf : s.slots.find? (·.1=box)=some slot) :
      0 < s.holders slot.2 := by
    have hc := countP_of_mem (List.mem_of_find?_eq_some hf) slot.2
    simp only [State.holders,if_true] at hc ⊢
    omega
  have refs_held (hr : 0 < s.manager.refs i) : 0 < s.holders i := by
    simp only [State.holders]
    omega
  cases hs with
  | load | post | destroy | clearRunning => cases ht
  | take action oldest =>
    rcases action with rfl | rfl
    all_goals
      simp only [touched,oldest,Option.map_some,Option.some.injEq] at ht
      exact ht ▸ slot_held oldest
  | managerReceive pc oldest =>
    simp only [touched,oldest,Option.map_some,Option.some.injEq] at ht
    exact ht ▸ slot_held oldest
  | deliver posted =>
    cases ht
    have hc := countP_of_mem posted i
    simp only [State.holders,if_true] at hc ⊢
    omega
  | release held =>
    cases ht
    have hc := List.count_pos_iff.mpr held
    simp only [State.holders]
    omega
  | handle pc =>
    simp only [touched,pc,Option.some.injEq] at ht
    exact refs_held (by simp [pc,ManagerPc.refs,ht])
  | send pc recipient =>
    simp only [touched,pc,Option.some.injEq] at ht
    subst ht
    have hlen := List.length_pos_of_mem recipient
    refine refs_held ?_
    simp only [pc,ManagerPc.refs,if_true]
    omega
  | @sent message stop release done pc =>
    cases release with
    | false => simp [touched,pc] at ht
    | true =>
      simp only [touched,pc,Option.some.injEq] at ht
      subst ht
      refine refs_held ?_
      simp only [pc,ManagerPc.refs,if_true,Bool.toNat_true]
      omega
  | finish pc =>
    simp only [touched,pc,Option.some.injEq] at ht
    exact refs_held (by simp [pc,ManagerPc.refs,ht])

end Acnet.Supervisor.References
