import Acnet.Control.ControlFile
import Acnet.Framework.Machine
import Mathlib.Logic.Function.Basic

/-!
Any number of `acnet -s` processes and the daemon at the control file, with SIGHUP between them.
-/

namespace Acnet.Control

/-- Where an invocation is: the file is opened before the command is looked at, which is none
when it is rejected. `inode` is the file that its stream writes to. -/
inductive ClientPc where
  | idle
  | opened (command : Option Command) (inode : Nat)
  | written (command : Command)
  | closed (command : Command)
  | readPid (command : Command)
  | exited
  deriving DecidableEq

/-- Where the daemon's handler is. -/
inductive DaemonPc where
  | idle
  | read
  | unlink (cmd : List UInt8)
  | dispatch (cmd : List UInt8)
  deriving DecidableEq

/-- The control file by its contents, none when there is no such file, and by a number that
changes with every creation. `pending` is the one SIGHUP that can be pending. `sent`, the
commands whose SIGHUP was sent, is not in the source. -/
structure State (ι : Type*) where
  file : Option (List UInt8)
  inode : Nat
  clients : ι → ClientPc
  pending : Bool
  daemon : DaemonPc
  sent : List Command
  dispatched : List Dispatch

/-- An invocation starts, an invocation takes its next step, with whether a pid can be read, or
the daemon takes its next one. -/
inductive Action (ι : Type*) where
  | invoke (i : ι) (command : CString) (arg : Option CString)
  | client (i : ι) (pid : Bool)
  | daemon

section Machine

variable {ι : Type*} [DecidableEq ι]

def State.setClient (s : State ι) (i : ι) (pc : ClientPc) : State ι :=
  {s with clients := Function.update s.clients i pc}

/-- `fopen(kControlFile, "w")`. -/
def State.openControl (s : State ι) : State ι :=
  {s with file := some [],inode := if s.file.isSome then s.inode else s.inode+1}

/-- Bytes written from the start of a file; if it was unlinked meanwhile nobody sees them. -/
def State.write (s : State ι) (inode : Nat) (bytes : List UInt8) : State ι :=
  {s with file := if inode=s.inode then s.file.map fun old => bytes++old.drop bytes.length
    else s.file}

/-- The next step of an invocation. -/
def client (s : State ι) (i : ι) (pid : Bool) : Option (State ι) :=
  match s.clients i with
  | .idle | .exited => none
  | .opened none _ => some (s.setClient i .exited)
  | .opened (some c) inode => some ((s.write inode (encode c)).setClient i (.written c))
  | .written c => some (s.setClient i (.closed c))
  | .closed c => some (s.setClient i (if pid then .readPid c else .exited))
  | .readPid c => some {s.setClient i .exited with pending := true,sent := s.sent++[c]}

/-- The next step of the daemon; the handler runs with SIGHUP blocked. -/
def daemon (s : State ι) : Option (State ι) :=
  match s.daemon with
  | .idle => if s.pending then some {s with pending := false,daemon := .read} else none
  | .read =>
      match s.file.bind (fgets 64) with
      | none => some {s with daemon := .idle}
      | some cmd => some {s with daemon := .unlink cmd}
  | .unlink cmd => some {s with file := none,daemon := .dispatch cmd}
  | .dispatch cmd =>
      some {s with daemon := .idle,dispatched := s.dispatched++(dispatch (.ofBuffer cmd)).toList}

def next (s : State ι) : Action ι → Option (State ι)
  | .invoke i command arg =>
      match s.clients i with
      | .idle =>
          some (s.openControl.setClient i
            (.opened (parseCommandLine command arg) s.openControl.inode))
      | _ => none
  | .client i pid => client s i pid
  | .daemon => daemon s

def init : State ι := ⟨none,0,fun _ => .idle,false,.idle,[],[]⟩

variable (ι) in
def machine : Machine (State ι) (Action ι) where
  start s := s=init
  next := next

end Machine

variable {ι : Type*}

/-- The valid command that an invocation has under way. -/
def ClientPc.command : ClientPc → Option Command
  | .opened c _ => c
  | .written c | .closed c | .readPid c => some c
  | .idle | .exited => none

/-- All pending signals are handled. -/
def State.Quiescent (s : State ι) : Prop := s.pending=false ∧ s.daemon=.idle

/-- Invocations do not overlap: the control file is opened only when no command is under way,
from its own opening of the file to its dispatch, and by a rejected invocation only when no
command is left in the file. -/
def Serial (s : State ι) : Action ι → State ι → Prop
  | .invoke _ command arg,_ => (∀ j,(s.clients j).command=none) ∧ s.Quiescent ∧
      (parseCommandLine command arg=none → s.file=none ∨ s.file=some [])
  | _,_ => True

def received (c : Command) : Option Dispatch := decode (encode c)

/-- Where the one command is that may be under way. -/
inductive Stage : State ι → Prop
  | quiet {s : State ι} (hc : ∀ j,(s.clients j).command=none) (hq : s.Quiescent)
      (h : s.sent.map received=s.dispatched.map some) : Stage s
  | opened {s : State ι} {i : ι} {c : Command} (hi : s.clients i=.opened (some c) s.inode)
      (hc : ∀ j≠i,(s.clients j).command=none) (hq : s.Quiescent) (hf : s.file=some [])
      (h : s.sent.map received=s.dispatched.map some) : Stage s
  | written {s : State ι} {i : ι} {c : Command}
      (hi : s.clients i=.written c ∨ s.clients i=.closed c ∨ s.clients i=.readPid c)
      (hc : ∀ j≠i,(s.clients j).command=none) (hq : s.Quiescent) (hf : s.file=some (encode c))
      (h : s.sent.map received=s.dispatched.map some) : Stage s
  | signalled {s : State ι} {c : Command} (hc : ∀ j,(s.clients j).command=none)
      (hp : s.pending=true ∧ s.daemon=.idle ∨ s.pending=false ∧ s.daemon=.read)
      (hf : s.file=some (encode c))
      (h : s.sent.map received=s.dispatched.map some++[received c]) : Stage s
  | consumed {s : State ι} {c : Command} {cmd : List UInt8}
      (hc : ∀ j,(s.clients j).command=none)
      (hp : s.pending=false ∧ (s.daemon=.unlink cmd ∨ s.daemon=.dispatch cmd))
      (hr : fgets 64 (encode c)=some cmd)
      (h : s.sent.map received=s.dispatched.map some++[received c]) : Stage s

theorem command_of_written {pc : ClientPc} {c : Command}
    (h : pc=.written c ∨ pc=.closed c ∨ pc=.readPid c) : pc.command=some c := by
  rcases h with rfl | rfl | rfl <;> rfl

/-- What the handler reads of a command's own bytes is dispatched. -/
theorem fgets_encode (c : Command) :
    ∃ cmd d,fgets 64 (encode c)=some cmd ∧ dispatch (.ofBuffer cmd)=some d ∧
      received c=some d := by
  have hd := decode_encode c
  unfold decode at hd
  obtain ⟨cmd,hcmd,hdispatch⟩ := Option.bind_eq_some_iff.mp hd
  exact ⟨cmd,_,hcmd,hdispatch,decode_encode c⟩

section Daemon

variable {s t : State ι}

theorem balance_of_quiescent (h : Stage s) (hq : s.Quiescent) :
    s.sent.map received=s.dispatched.map some := by
  cases h with
  | quiet _ _ h | opened _ _ _ _ h | written _ _ _ _ h => exact h
  | signalled _ hp =>
    rcases hp with ⟨hp,-⟩ | ⟨-,hd⟩
    · cases hq.1.symm.trans hp
    · cases hq.2.symm.trans hd
  | consumed _ hp =>
    rcases hp.2 with hd | hd
    · cases hq.2.symm.trans hd
    · cases hq.2.symm.trans hd

theorem stage_daemon (h : Stage s) (hn : daemon s=some t) : Stage t := by
  have hidle (hq : s.Quiescent) : daemon s=none := by
    simp [daemon,hq.1,hq.2]
  cases h with
  | quiet _ hq | opened _ _ hq | written _ _ hq => cases (hidle hq).symm.trans hn
  | @signalled c hc hp hf h =>
    rcases hp with ⟨hp,hd⟩ | ⟨hp,hd⟩
    · simp only [daemon,hd,hp] at hn
      cases hn
      exact .signalled hc (Or.inr ⟨rfl,rfl⟩) hf h
    · obtain ⟨cmd,d,hcmd,-⟩ := fgets_encode c
      simp only [daemon,hd,hf,Option.bind_some,hcmd] at hn
      cases hn
      exact .consumed hc ⟨hp,Or.inl rfl⟩ hcmd h
  | @consumed c cmd hc hp hr h =>
    obtain ⟨hp,hd | hd⟩ := hp
    · simp only [daemon,hd] at hn
      cases hn
      exact .consumed hc ⟨hp,Or.inr rfl⟩ hr h
    · simp only [daemon,hd] at hn
      cases hn
      obtain ⟨cmd',d,hcmd,hdispatch,hreceived⟩ := fgets_encode c
      cases hcmd.symm.trans hr
      refine .quiet hc ⟨hp,rfl⟩ ?_
      simp [h,hdispatch,hreceived]

theorem daemon_sent (hn : daemon s=some t) : t.sent=s.sent := by
  unfold daemon at hn
  split at hn
  · split at hn
    · cases hn
      rfl
    · cases hn
  · split at hn <;> cases hn <;> rfl
  · cases hn
    rfl
  · cases hn
    rfl

/-- How many steps of the handler are left. -/
def State.unhandled (s : State ι) : Nat :=
  (if s.pending then 4 else 0)+match s.daemon with
    | .idle => 0
    | .read => 3
    | .unlink _ => 2
    | .dispatch _ => 1

theorem daemon_progress (h : ¬s.Quiescent) :
    ∃ t,daemon s=some t ∧ t.unhandled<s.unhandled := by
  cases hd : s.daemon with
  | idle =>
    have hp : s.pending=true := by
      by_contra hp
      exact h ⟨by simpa using hp,hd⟩
    refine ⟨{s with pending := false,daemon := .read},by simp [daemon,hd,hp],?_⟩
    simp [State.unhandled,hd,hp]
  | read =>
    cases hf : s.file.bind (fgets 64) with
    | none =>
      refine ⟨{s with daemon := .idle},by simp [daemon,hd,hf],?_⟩
      simp [State.unhandled,hd]
    | some cmd =>
      refine ⟨{s with daemon := .unlink cmd},by simp [daemon,hd,hf],?_⟩
      simp [State.unhandled,hd]
  | unlink cmd =>
    refine ⟨{s with file := none,daemon := .dispatch cmd},by simp [daemon,hd],?_⟩
    simp [State.unhandled,hd]
  | dispatch cmd =>
    refine ⟨{s with daemon := .idle,dispatched := s.dispatched++(dispatch (.ofBuffer cmd)).toList},
      by simp [daemon,hd],?_⟩
    simp [State.unhandled,hd]

end Daemon

section Steps

variable [DecidableEq ι] {s t : State ι} {i : ι}

theorem setClient_self (s : State ι) (i : ι) (pc : ClientPc) :
    (s.setClient i pc).clients i=pc := by
  simp [State.setClient]

theorem setClient_of_ne (s : State ι) {i j : ι} (pc : ClientPc) (h : j≠i) :
    (s.setClient i pc).clients j=s.clients j := by
  simp [State.setClient,h]

theorem setClient_others (hc : ∀ j≠i,(s.clients j).command=none) (pc : ClientPc) :
    ∀ j≠i,((s.setClient i pc).clients j).command=none := by
  intro j hj
  rw [setClient_of_ne s pc hj]
  exact hc j hj

/-- Nothing is under way after a client that had nothing, or all, of it under way. -/
theorem setClient_command {pc : ClientPc} (hc : ∀ j≠i,(s.clients j).command=none)
    (hpc : pc.command=none) (j : ι) : ((s.setClient i pc).clients j).command=none := by
  by_cases hj : j=i
  · rw [hj,setClient_self]
    exact hpc
  · exact setClient_others hc pc j hj

/-- The first step of a serial invocation. -/
theorem stage_invoke {command : CString} {arg : Option CString} (h : Stage s)
    (ho : Serial s (.invoke i command arg) t) (hn : next s (.invoke i command arg)=some t) :
    Stage t := by
  obtain ⟨hc,hq,-⟩ := ho
  have hbalance := balance_of_quiescent h hq
  simp only [next] at hn
  split at hn
  · cases hn
    cases hparse : parseCommandLine command arg with
    | none => exact .quiet (setClient_command (fun j _ => hc j) rfl) hq hbalance
    | some c =>
      exact .opened (setClient_self _ i _) (setClient_others (fun j _ => hc j) _) hq rfl hbalance
  · cases hn

/-- A rejected invocation leaves everybody else where they are. -/
theorem Stage.reject (h : Stage s) (hi : (s.clients i).command=none) :
    Stage (s.setClient i .exited) := by
  have keep {k : ι} {c : Command} (hk : (s.clients k).command=some c) :
      (s.setClient i .exited).clients k=s.clients k := by
    apply setClient_of_ne
    intro hki
    rw [hki,hi] at hk
    cases hk
  have others {k : ι} (hc : ∀ j≠k,(s.clients j).command=none) :
      ∀ j≠k,((s.setClient i .exited).clients j).command=none := by
    intro j hj
    by_cases hji : j=i
    · rw [hji,setClient_self]
      rfl
    · rw [setClient_of_ne s _ hji]
      exact hc j hj
  cases h with
  | quiet hc hq h => exact .quiet (setClient_command (fun j _ => hc j) rfl) hq h
  | opened hk hc hq hf h =>
    have hcommand := congrArg ClientPc.command hk
    exact .opened ((keep hcommand).trans hk) (others hc) hq hf h
  | written hk hc hq hf h =>
    refine .written ?_ (others hc) hq hf h
    rwa [keep (command_of_written hk)]
  | signalled hc hp hf h => exact .signalled (setClient_command (fun j _ => hc j) rfl) hp hf h
  | consumed hc hp hr h => exact .consumed (setClient_command (fun j _ => hc j) rfl) hp hr h

/-- Only one stage has a command in an opened file, and its invocation is the one that moves. -/
theorem Stage.of_opened {c : Command} {inode : Nat} (h : Stage s)
    (hi : s.clients i=.opened (some c) inode) :
    inode=s.inode ∧ (∀ j≠i,(s.clients j).command=none) ∧ s.Quiescent ∧ s.file=some [] ∧
      s.sent.map received=s.dispatched.map some := by
  have hcommand := congrArg ClientPc.command hi
  cases h with
  | quiet hc | signalled hc | consumed hc => cases (hc i).symm.trans hcommand
  | @opened k _ hk hc hq hf h =>
    by_cases hik : i=k
    · subst hik
      cases hk.symm.trans hi
      exact ⟨rfl,hc,hq,hf,h⟩
    · cases (hc i hik).symm.trans hcommand
  | @written k _ hk hc =>
    by_cases hik : i=k
    · subst hik
      rw [hi] at hk
      simp at hk
    · cases (hc i hik).symm.trans hcommand

/-- The same for a command that is written. -/
theorem Stage.of_written {c : Command} (h : Stage s)
    (hi : s.clients i=.written c ∨ s.clients i=.closed c ∨ s.clients i=.readPid c) :
    (∀ j≠i,(s.clients j).command=none) ∧ s.Quiescent ∧ s.file=some (encode c) ∧
      s.sent.map received=s.dispatched.map some := by
  have hcommand := command_of_written hi
  cases h with
  | quiet hc | signalled hc | consumed hc => cases (hc i).symm.trans hcommand
  | @opened k _ hk hc =>
    by_cases hik : i=k
    · subst hik
      rw [hk] at hi
      simp at hi
    · cases (hc i hik).symm.trans hcommand
  | @written k _ hk hc hq hf h =>
    by_cases hik : i=k
    · subst hik
      cases hcommand.symm.trans (command_of_written hk)
      exact ⟨hc,hq,hf,h⟩
    · cases (hc i hik).symm.trans hcommand

theorem stage_client {pid : Bool} (h : Stage s) (hn : client s i pid=some t) : Stage t := by
  unfold client at hn
  split at hn
  · cases hn
  · cases hn
  · rename_i hi
    cases hn
    exact h.reject (congrArg ClientPc.command hi)
  · rename_i c inode hi
    cases hn
    obtain ⟨rfl,hc,hq,hf,hb⟩ := h.of_opened hi
    refine .written (Or.inl (setClient_self _ i _)) (setClient_others hc _) hq ?_ hb
    simp [State.setClient,State.write,hf]
  · rename_i c hi
    cases hn
    obtain ⟨hc,hq,hf,hb⟩ := h.of_written (Or.inl hi)
    exact .written (Or.inr (Or.inl (setClient_self _ i _))) (setClient_others hc _) hq hf hb
  · rename_i c hi
    cases hn
    obtain ⟨hc,hq,hf,hb⟩ := h.of_written (Or.inr (Or.inl hi))
    cases pid with
    | false => exact .quiet (setClient_command hc rfl) hq hb
    | true =>
      exact .written (Or.inr (Or.inr (setClient_self _ i _))) (setClient_others hc _) hq hf hb
  · rename_i c hi
    cases hn
    obtain ⟨hc,hq,hf,hb⟩ := h.of_written (Or.inr (Or.inr hi))
    refine .signalled (setClient_command hc rfl) (Or.inl ⟨rfl,hq.2⟩) hf ?_
    simp [State.setClient,hb]

theorem stage_next {a : Action ι} (h : Stage s) (hn : next s a=some t) (ho : Serial s a t) :
    Stage t := by
  cases a with
  | invoke i command arg => exact stage_invoke h ho hn
  | client i pid => exact stage_client h hn
  | daemon => exact stage_daemon h hn

theorem reachable_stage (h : (machine ι).ReachableBy Serial s) : Stage s := by
  refine h.invariant ?_ fun _ _ _ hs hn ho => stage_next hs hn ho
  intro s₀ hstart
  cases hstart
  exact .quiet (fun _ => rfl) ⟨rfl,rfl⟩ rfl

/-- A step of an invocation whose command is rejected. -/
def Rejected (s : State ι) : Action ι → Prop
  | .invoke _ command arg => parseCommandLine command arg=none
  | .client i _ => ∃ inode,s.clients i=.opened none inode
  | .daemon => False

/-- What the next reader of the control file finds. -/
def State.contents (s : State ι) : List UInt8 := s.file.getD []

theorem contents_of_rejected {a : Action ι} (hr : Rejected s a) (ho : Serial s a t)
    (hn : next s a=some t) : t.contents=s.contents := by
  cases a with
  | invoke i command arg =>
    have hempty : s.contents=[] := by
      rcases ho.2.2 hr with hf | hf <;> simp [State.contents,hf]
    simp only [next] at hn
    split at hn
    · cases hn
      exact hempty.symm
    · cases hn
  | client i pid =>
    obtain ⟨inode,hi⟩ := hr
    simp only [next,client,hi] at hn
    cases hn
    rfl
  | daemon => exact hr.elim

/-- Only the daemon runs. -/
def DaemonOnly (_ : State ι) (a : Action ι) (_ : State ι) : Prop :=
  match a with
  | .daemon => True
  | _ => False

/-- The daemon, left to itself, handles what is pending. -/
theorem exists_quiescent (s : State ι) :
    ∃ t,(machine ι).Steps DaemonOnly s t ∧ t.Quiescent ∧ t.sent=s.sent := by
  have hdone : ∃ t,(machine ι).Steps DaemonOnly s t ∧ t.Quiescent := by
    refine Machine.exists_steps_done (I := fun _ => True) State.unhandled
      (fun _ _ _ h _ _ => h) ?_ s trivial
    intro x _ hx
    obtain ⟨y,hn,hlt⟩ := daemon_progress hx
    exact ⟨.daemon,y,hn,trivial,hlt⟩
  obtain ⟨t,hsteps,hq⟩ := hdone
  refine ⟨t,hsteps,hq,hsteps.invariant (I := fun x => x.sent=s.sent) rfl ?_⟩
  intro x a y hx hn ho
  cases a with
  | invoke i command arg => exact ho.elim
  | client i pid => exact ho.elim
  | daemon => exact (daemon_sent hn).trans hx

/-- As long as invocations do not overlap, the daemon's own next steps dispatch what was sent,
each command once and in order, and no step of a rejected invocation changes what the next
reader of the control file finds. -/
theorem control_delivers (h : (machine ι).ReachableBy Serial s) :
    (s.Quiescent → s.dispatched.map some=s.sent.map received) ∧
      (∃ t,(machine ι).Steps DaemonOnly s t ∧ t.Quiescent ∧ t.sent=s.sent ∧
        t.dispatched.map some=s.sent.map received) ∧
      ∀ a t,next s a=some t → Serial s a t → Rejected s a → t.contents=s.contents := by
  have balance {t : State ι} (ht : (machine ι).ReachableBy Serial t) (hq : t.Quiescent) :
      t.dispatched.map some=t.sent.map received :=
    (balance_of_quiescent (reachable_stage ht) hq).symm
  refine ⟨balance h,?_,fun a t hn ho hr => contents_of_rejected hr ho hn⟩
  obtain ⟨t,hsteps,hq,hsent⟩ := exists_quiescent s
  have hserial : (machine ι).Steps Serial s t := by
    apply hsteps.mono
    intro x a y ho
    cases a with
    | invoke i command arg => exact ho.elim
    | client i pid => trivial
    | daemon => trivial
  refine ⟨t,hsteps,hq,hsent,?_⟩
  rw [← hsent]
  exact balance (h.steps hserial) hq

end Steps

section Runs

instance {n : Nat} (s : State (Fin n)) : Decidable s.Quiescent :=
  inferInstanceAs (Decidable (_ ∧ _))

instance {n : Nat} (s : State (Fin n)) : (a : Action (Fin n)) → (t : State (Fin n)) →
    Decidable (Serial s a t)
  | .invoke _ _ _,_ => inferInstanceAs (Decidable (_ ∧ _ ∧ (_ → _)))
  | .client _ _,_ => inferInstanceAs (Decidable True)
  | .daemon,_ => inferInstanceAs (Decidable True)

/-- `acnet -s stop` up to its SIGHUP. -/
def sendStop (i : Fin 2) : List (Action (Fin 2)) :=
  [.invoke i ⟨ascii "stop",by decide⟩ none,.client i true,.client i true,.client i true,
    .client i true]

/-- `acnet -s status` opens the control file. -/
def openStatus (i : Fin 2) : Action (Fin 2) := .invoke i ⟨ascii "status",by decide⟩ none

/-- A serial run with a rejected invocation and then a stop, which has been sent and is not
handled yet. -/
theorem control_delivers_stop :
    ∃ s,(machine (Fin 2)).ReachableBy Serial s ∧ s.sent=[.stop] ∧ s.dispatched=[] ∧
      ∃ t,(machine (Fin 2)).Steps DaemonOnly s t ∧ t.Quiescent ∧
        t.dispatched.map some=[some .shutdown] := by
  obtain ⟨s,hs,hp⟩ := (machine (Fin 2)).exists_reachableBy Serial
    ([openStatus 1,.client 1 true]++sendStop 0)
    (fun s => decide (s.sent=[.stop] ∧ s.dispatched=[])) rfl (by decide +kernel)
  have hp := of_decide_eq_true hp
  obtain ⟨-,⟨t,hsteps,hq,-,ht⟩,-⟩ := control_delivers hs
  refine ⟨s,hs,hp.1,hp.2,t,hsteps,hq,?_⟩
  rw [ht,hp.1]
  decide

/-- The rejected invocation comes after the SIGHUP and before it is handled: it empties the
file, and the stop is never dispatched. -/
theorem control_loses_stop :
    (∃ s t,(machine (Fin 2)).Reachable s ∧ next s (openStatus 1)=some t ∧
      s.sent=[.stop] ∧ s.contents=encode .stop ∧ t.contents=[]) ∧
    ∃ s,(machine (Fin 2)).Reachable s ∧ s.Quiescent ∧ s.sent=[.stop] ∧ s.dispatched=[] := by
  constructor
  · obtain ⟨s,t,hs,hn,hp⟩ := (machine (Fin 2)).exists_reachableBy_step Machine.anyStep
      (sendStop 0) (openStatus 1)
      (fun s t => decide (s.sent=[.stop] ∧ s.contents=encode .stop ∧ t.contents=[])) rfl
      (by decide +kernel)
    exact ⟨s,t,hs,hn,of_decide_eq_true hp⟩
  · obtain ⟨s,hs,hp⟩ := (machine (Fin 2)).exists_reachableBy Machine.anyStep
      (sendStop 0++[openStatus 1,.client 1 true,.daemon,.daemon])
      (fun s => decide (s.Quiescent ∧ s.sent=[.stop] ∧ s.dispatched=[])) rfl (by decide +kernel)
    exact ⟨s,hs,of_decide_eq_true hp⟩

end Runs

end Acnet.Control
