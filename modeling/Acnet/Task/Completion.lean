import Acnet.Framework.Machine
import Acnet.Framework.Threads

/-!
A `Task` awaited by its caller, access by access. The body starts eagerly on the caller's
thread; from its first suspension in `MailBox::Wait` on, any worker may resume it, before the
caller has looked at it. What the mailbox answers is left open, since only `scheduled_`
decides who runs the body.
-/

namespace Acnet.Completion

/-- Where a thread stands. With `eager` set the frame of the caller lies below the body on
this thread's stack: when the body leaves the thread, the caller's code goes on there. -/
inductive ThreadPc where
  | idle
  | body (eager : Bool)
  | clearScheduled (eager : Bool)
  | recheck (eager : Bool)
  | finalSuspend (eager : Bool)
  | loadContinuation (eager : Bool)
  | awaitReady
  | storeContinuation
  | transfer
  deriving DecidableEq

namespace ThreadPc

/-- The thread that has the right to run the body, to its final suspend point included. -/
@[simp]
def runs : ThreadPc → Bool
  | .body _ | .clearScheduled _ | .finalSuspend _ | .loadContinuation _ => true
  | _ => false

/-- The caller has not evaluated `await_ready` yet. -/
@[simp]
def below : ThreadPc → Bool
  | .body eager | .clearScheduled eager | .recheck eager | .finalSuspend eager
  | .loadContinuation eager => eager
  | .awaitReady => true
  | _ => false

@[simp]
def completes : ThreadPc → Bool
  | .finalSuspend _ | .loadContinuation _ => true
  | _ => false

@[simp]
def loads : ThreadPc → Bool
  | .loadContinuation _ => true
  | _ => false

@[simp]
def stores : ThreadPc → Bool
  | .storeContinuation => true
  | _ => false

@[simp]
def transfers : ThreadPc → Bool
  | .transfer => true
  | _ => false

/-- With the task done, this thread's next steps take the caller past its `co_await`: it is
about to read the caller's handle or to resume it, or it is the caller's own thread on the
way to `done()`. -/
def resumesCaller : ThreadPc → Bool
  | .loadContinuation _ | .transfer | .awaitReady => true
  | .recheck eager => eager
  | _ => false

/-- The body gives up the thread. -/
def leave (eager : Bool) : ThreadPc := if eager then .awaitReady else .idle

end ThreadPc

open ThreadPc

/-- The promise; `continuation` says whether the caller has stored its handle. -/
structure TaskPromise (ε τ : Type*) where
  continuation : Bool
  result : Option (Except ε τ)

/-- `queued` counts the handles of the body in the scheduler, `received` lists what the
caller's `await_resume` found each time the caller went past its `co_await`. `checked` and
`loaded` record that `await_ready` and the final awaiter's read have happened. -/
structure State (κ ε τ : Type*) where
  threads : κ → ThreadPc
  scheduled : Bool
  queued : Nat
  promise : TaskPromise ε τ
  done : Bool
  received : List (Option (Except ε τ))
  checked : Bool
  loaded : Bool

variable {κ ε τ : Type*}

/-- A caller that went on destroys its `Task` and with it the frame of the body. -/
def State.destroyed (s : State κ ε τ) : Bool := !s.received.isEmpty

/-- `step` is any access but those the body decides on; `answer` is what `can_dequeue`
returns in the second look of `await_suspend`, or what a destroyed frame holds. -/
inductive Action (κ ε τ : Type*) where
  | send
  | take (k : κ)
  | suspend (k : κ)
  | finish (k : κ) (result : Except ε τ)
  | step (k : κ) (answer : Bool)

variable [DecidableEq κ]

def setThread (s : State κ ε τ) (k : κ) (pc : ThreadPc) : State κ ε τ :=
  {s with threads := Function.update s.threads k pc}

def step (s : State κ ε τ) (k : κ) (answer : Bool) : ThreadPc → Option (State κ ε τ)
  | .idle | .body _ => none
  -- MailBox::WaitAwaiter::await_suspend
  | .clearScheduled eager => some (setThread {s with scheduled := false} k (.recheck eager))
  | .recheck eager =>
      if answer && !s.scheduled then
        some (setThread {s with scheduled := true} k (.body eager))
      else some (setThread s k (leave eager))
  -- TaskPromise::FinalAwaiter
  | .finalSuspend eager => some (setThread {s with done := true} k (.loadContinuation eager))
  | .loadContinuation eager =>
      let continuation := if s.destroyed then answer else s.promise.continuation
      some (setThread {s with loaded := true} k
        (if continuation then .transfer else leave eager))
  -- Task::await_ready and Task::await_suspend
  | .awaitReady =>
      if s.done then
        some (setThread {s with
          checked := true
          received := s.promise.result::s.received} k .idle)
      else some (setThread {s with checked := true} k .storeContinuation)
  | .storeContinuation =>
      some (setThread {s with promise := {s.promise with continuation := true}} k .idle)
  | .transfer => some (setThread {s with received := s.promise.result::s.received} k .idle)

def next (s : State κ ε τ) : Action κ ε τ → Option (State κ ε τ)
  -- Send wins the flag and enqueues the handle
  | .send =>
      if s.scheduled then none
      else some {s with scheduled := true, queued := s.queued+1}
  | .take k =>
      if s.threads k=.idle ∧ 0 < s.queued then
        some (setThread {s with queued := s.queued-1} k (.body false))
      else none
  | .suspend k =>
      match s.threads k with
      | .body eager => some (setThread s k (.clearScheduled eager))
      | _ => none
  -- return_value or unhandled_exception
  | .finish k r =>
      match s.threads k with
      | .body eager =>
          some (setThread {s with promise := {s.promise with result := some r}} k
            (.finalSuspend eager))
      | _ => none
  | .step k answer => step s k answer (s.threads k)

/-- The caller's thread `k` has entered the body, everybody else is elsewhere. -/
def start (k : κ) : State κ ε τ where
  threads := Function.update (fun _ => .idle) k (.body true)
  scheduled := true
  queued := 0
  promise := ⟨false,none⟩
  done := false
  received := []
  checked := false
  loaded := false

variable (κ ε τ) in
def machine : Machine (State κ ε τ) (Action κ ε τ) where
  start := fun s => ∃ k,s=start k
  next := next

/-- The final awaiter reads `continuation_` either before the caller has evaluated
`await_ready` or after the caller has stored its handle. -/
def Timely (s : State κ ε τ) (a : Action κ ε τ) (_ : State κ ε τ) : Prop :=
  match a with
  | .step k _ => (s.threads k).loads=true → s.checked=false ∨ s.promise.continuation=true
  | _ => True

instance (s : State κ ε τ) (a : Action κ ε τ) (t : State κ ε τ) : Decidable (Timely s a t) :=
  match a with
  | .step k _ => inferInstanceAs
      (Decidable ((s.threads k).loads=true → s.checked=false ∨ s.promise.continuation=true))
  | .send | .take _ | .suspend _ | .finish _ _ => isTrue trivial

variable [Fintype κ]

/-- The number of threads at a program point of the given kind. -/
def State.count (s : State κ ε τ) (p : ThreadPc → Bool) : Nat := countThreads p s.threads

/-- The caller sleeps and the final awaiter is still to read its handle. -/
def State.waiting (s : State κ ε τ) : Bool := s.promise.continuation && !s.loaded

/-- One holder of the right to run the body, one place where the caller is. -/
structure Inv (s : State κ ε τ) : Prop where
  permit : s.count runs+s.queued+s.loaded.toNat=s.scheduled.toNat
  below : s.count ThreadPc.below+s.checked.toNat=1
  caller : s.count stores+s.count transfers+s.received.length+s.waiting.toNat=s.checked.toNat
  done : s.done.toNat=s.count loads+s.loaded.toNat
  result : s.promise.result.isSome.toNat=s.count completes+s.loaded.toNat
  storing : s.count stores+s.loaded.toNat ≤ 1
  transfer : s.count transfers ≤ s.loaded.toNat
  received : ∀ r ∈ s.received,r=s.promise.result ∧ r.isSome=true

/-- How the counts change when thread `k` moves and the other fields change at will. -/
theorem counts (s u : State κ ε τ) (hu : u.threads=s.threads) (k : κ) (pc : ThreadPc)
    (p : ThreadPc → Bool) :
    (setThread u k pc).count p+(p (s.threads k)).toNat=s.count p+(p pc).toNat := by
  have hc := countThreads_update p u.threads k pc
  rw [hu] at hc
  rw [State.count,State.count,setThread,hu]
  exact hc

variable {s t : State κ ε τ}

/-- A thread's move keeps the invariant when the fields it writes balance its own change. -/
theorem Inv.move (h : Inv s) (u : State κ ε τ) (hu : u.threads=s.threads) (k : κ)
    (pc : ThreadPc) (hl : ∀ r ∈ u.received,r=u.promise.result ∧ r.isSome=true)
    (hp : (runs pc).toNat+u.queued+u.loaded.toNat+s.scheduled.toNat=
      (runs (s.threads k)).toNat+s.queued+s.loaded.toNat+u.scheduled.toNat)
    (hb : (ThreadPc.below pc).toNat+u.checked.toNat=
      (ThreadPc.below (s.threads k)).toNat+s.checked.toNat)
    (hc : (stores pc).toNat+(transfers pc).toNat+u.received.length+u.waiting.toNat+
        s.checked.toNat=
      (stores (s.threads k)).toNat+(transfers (s.threads k)).toNat+s.received.length+
        s.waiting.toNat+u.checked.toNat)
    (hd : u.done.toNat+s.loaded.toNat+(loads (s.threads k)).toNat=
      s.done.toNat+u.loaded.toNat+(loads pc).toNat)
    (hr : u.promise.result.isSome.toNat+s.loaded.toNat+(completes (s.threads k)).toNat=
      s.promise.result.isSome.toNat+u.loaded.toNat+(completes pc).toNat)
    (hs : (stores pc).toNat+u.loaded.toNat ≤
      (stores (s.threads k)).toNat+s.loaded.toNat ∨
        s.count stores+(stores pc).toNat+u.loaded.toNat ≤ 1)
    (ht : (transfers pc).toNat+s.loaded.toNat ≤ (transfers (s.threads k)).toNat+u.loaded.toNat) :
    Inv (setThread u k pc) := by
  have count := counts s u hu k pc
  have c₁ := count runs
  have c₂ := count ThreadPc.below
  have c₃ := count stores
  have c₄ := count transfers
  have c₅ := count loads
  have c₆ := count completes
  obtain ⟨h₁,h₂,h₃,h₄,h₅,h₆,h₇,_⟩ := h
  refine ⟨?_,?_,?_,?_,?_,?_,?_,hl⟩
  · change _+u.queued+u.loaded.toNat=u.scheduled.toNat
    omega
  · change _+u.checked.toNat=1
    omega
  · change _+u.received.length+u.waiting.toNat=u.checked.toNat
    omega
  · change u.done.toNat=_+u.loaded.toNat
    omega
  · change u.promise.result.isSome.toNat=_+u.loaded.toNat
    omega
  · change _+u.loaded.toNat ≤ 1
    omega
  · change _ ≤ u.loaded.toNat
    omega

section Standing

omit [DecidableEq κ]

theorem count_pos {p : ThreadPc → Bool} {k : κ} (hk : p (s.threads k)=true) : 0 < s.count p :=
  (countThreads_pos_iff p s.threads).mpr ⟨k,hk⟩

theorem exists_of_count_pos {p : ThreadPc → Bool} (h : 0 < s.count p) :
    ∃ k,p (s.threads k)=true :=
  (countThreads_pos_iff p s.threads).mp h

/-- While a thread has the right to run the body, the flag is set, nothing is queued and
the final awaiter has not read. -/
theorem Inv.running (h : Inv s) {k : κ} (hk : runs (s.threads k)=true) :
    s.scheduled=true ∧ s.queued=0 ∧ s.loaded=false ∧ s.count runs=1 := by
  have hp := h.permit
  have hc : 0 < s.count runs := count_pos hk
  have hs := Bool.toNat_le s.scheduled
  cases hl : s.loaded <;> cases hf : s.scheduled <;> simp [hl,hf] at hp ⊢ <;> omega

/-- Nobody else is at a point where the body runs. -/
theorem Inv.only (h : Inv s) {k : κ} (hk : runs (s.threads k)=true) (p : ThreadPc → Bool)
    (hp : ∀ pc,p pc=true → runs pc=true) (hn : p (s.threads k)=false) : s.count p=0 := by
  obtain ⟨-,-,-,hc⟩ := h.running hk
  apply (countThreads_eq_zero_iff p s.threads).mpr
  intro j
  by_contra hj
  have hpj : p (s.threads j)=true := by simpa using hj
  have hjk : j=k := countThreads_unique runs (le_of_eq hc) (hp _ hpj) hk
  rw [hjk,hn] at hpj
  cases hpj

theorem Inv.checked_of_below (h : Inv s) {k : κ} (hk : ThreadPc.below (s.threads k)=true) :
    s.checked=false := by
  have hb := h.below
  have hp : 0 < s.count ThreadPc.below := count_pos hk
  cases hc : s.checked with
  | false => rfl
  | true =>
    rw [hc,Bool.toNat_true] at hb
    omega

/-- A caller that is about to store its handle is not too late. -/
theorem Inv.loaded_of_stores (h : Inv s) {k : κ} (hk : stores (s.threads k)=true) :
    s.loaded=false := by
  have hs := h.storing
  have hp : 0 < s.count stores := count_pos hk
  cases hl : s.loaded with
  | false => rfl
  | true =>
    rw [hl,Bool.toNat_true] at hs
    omega

theorem Inv.loaded_of_transfers (h : Inv s) {k : κ} (hk : transfers (s.threads k)=true) :
    s.loaded=true := by
  have ht := h.transfer
  have hp : 0 < s.count transfers := count_pos hk
  cases hl : s.loaded with
  | true => rfl
  | false =>
    rw [hl,Bool.toNat_false] at ht
    omega

theorem Inv.received_cons (h : Inv s) (hr : s.promise.result.isSome=true) :
    ∀ r ∈ s.promise.result::s.received,r=s.promise.result ∧ r.isSome=true := by
  intro r hm
  rcases List.mem_cons.mp hm with rfl | hm
  · exact ⟨rfl,hr⟩
  · exact h.received r hm

end Standing

theorem completes_runs (pc : ThreadPc) (h : completes pc=true) : runs pc=true := by
  cases pc <;> simp_all [completes,runs]

theorem Inv.suspend_step (h : Inv s) (k : κ) (hn : next s (.suspend k)=some t) : Inv t := by
  cases hk : s.threads k with
  | body eager =>
    simp only [next,hk] at hn
    cases hn
    apply h.move s rfl k (.clearScheduled eager) h.received
    all_goals rw [hk]
    all_goals simp
  | _ => simp [next,hk] at hn

/-- The result is set once: before, nobody has read it. -/
theorem Inv.finish_step (h : Inv s) (k : κ) (r : Except ε τ)
    (hn : next s (.finish k r)=some t) : Inv t := by
  cases hk : s.threads k with
  | body eager =>
    simp only [next,hk] at hn
    cases hn
    have hruns : runs (s.threads k)=true := by simp [hk]
    obtain ⟨-,-,hl,-⟩ := h.running hruns
    have hc := h.only hruns completes completes_runs (by simp [hk])
    have hnone : s.promise.result=none := by
      have hr := h.result
      cases hres : s.promise.result with
      | none => rfl
      | some _ => simp [hres,hc,hl] at hr
    have hempty : s.received=[] := by
      apply List.eq_nil_iff_forall_not_mem.mpr
      intro x hx
      obtain ⟨rfl,hsome⟩ := h.received x hx
      simp [hnone] at hsome
    apply h.move {s with promise := {s.promise with result := some r}} rfl k
      (.finalSuspend eager) (by simp [hempty])
    all_goals rw [hk]
    all_goals simp [State.waiting,hnone,hl]
  | _ => simp [next,hk] at hn

theorem Inv.take_step (h : Inv s) (k : κ) (hn : next s (.take k)=some t) : Inv t := by
  simp only [next] at hn
  split_ifs at hn with hk
  obtain ⟨hidle,hq⟩ := hk
  cases hn
  apply h.move {s with queued := s.queued-1} rfl k (.body false) h.received
  all_goals rw [hidle]
  all_goals simp [State.waiting]
  omega

theorem Inv.send_step (h : Inv s) (hn : next s .send=some t) : Inv t := by
  simp only [next] at hn
  split_ifs at hn with hs
  cases hn
  have hp := h.permit
  refine {h with permit := ?_}
  change s.count runs+(s.queued+1)+s.loaded.toNat=1
  simp [hs] at hp
  simp [hp]

theorem loads_completes (pc : ThreadPc) (h : loads pc=true) : completes pc=true := by
  cases pc <;> simp_all

omit [DecidableEq κ] in
/-- The result is there as soon as `done()` says so. -/
theorem Inv.result_of_done (h : Inv s) (hd : s.done=true) : s.promise.result.isSome=true := by
  have hr := h.result
  have hp : 0 < s.count completes+s.loaded.toNat := by
    have hdone := h.done
    rw [hd,Bool.toNat_true] at hdone
    by_cases hl : 0 < s.count loads
    · obtain ⟨k,hk⟩ := exists_of_count_pos hl
      have hc : 0 < s.count completes := count_pos (loads_completes _ hk)
      omega
    · omega
  cases hres : s.promise.result.isSome with
  | true => rfl
  | false =>
    rw [hres,Bool.toNat_false] at hr
    omega

theorem Inv.wait_step (h : Inv s) (k : κ) (eager answer : Bool)
    (hk : s.threads k=.clearScheduled eager ∨ s.threads k=.recheck eager)
    (hn : step s k answer (s.threads k)=some t) : Inv t := by
  rcases hk with hk | hk
  · obtain ⟨hs,-,-,-⟩ := h.running (k := k) (by simp [hk])
    simp only [step,hk] at hn
    cases hn
    apply h.move {s with scheduled := false} rfl k (.recheck eager) h.received
    all_goals rw [hk]
    all_goals simp [State.waiting,hs]
    omega
  · simp only [step,hk] at hn
    split_ifs at hn with hw
    · cases hn
      have hs : s.scheduled=false := by simp at hw; exact hw.2
      apply h.move {s with scheduled := true} rfl k (.body eager) h.received
      all_goals rw [hk]
      all_goals simp [State.waiting,hs]
      omega
    · cases hn
      apply h.move s rfl k (leave eager) h.received
      all_goals rw [hk]
      all_goals cases eager <;> simp [leave]

theorem Inv.finalSuspend_step (h : Inv s) (k : κ) (eager answer : Bool)
    (hk : s.threads k=.finalSuspend eager)
    (hn : step s k answer (s.threads k)=some t) : Inv t := by
  have hruns : runs (s.threads k)=true := by simp [hk]
  obtain ⟨-,-,hl,-⟩ := h.running hruns
  have hc := h.only hruns loads (fun pc hp => completes_runs pc (loads_completes pc hp))
    (by simp [hk])
  have hd : s.done=false := by
    have hdone := h.done
    cases hs : s.done with
    | false => rfl
    | true => simp [hs,hc,hl] at hdone
  simp only [step,hk] at hn
  cases hn
  apply h.move {s with done := true} rfl k (.loadContinuation eager) h.received
  all_goals rw [hk]
  all_goals simp [State.waiting,hd]
  omega

/-- A timely read finds the frame intact and, if the caller sleeps, its handle. -/
theorem Inv.load_step (h : Inv s) (k : κ) (eager answer : Bool)
    (hk : s.threads k=.loadContinuation eager)
    (hn : step s k answer (s.threads k)=some t)
    (ho : s.checked=false ∨ s.promise.continuation=true) : Inv t := by
  obtain ⟨-,-,hl,-⟩ := h.running (k := k) (by simp [hk])
  have hcaller := h.caller
  have hchecked := Bool.toNat_le s.checked
  simp only [step,hk] at hn
  cases hc : s.promise.continuation with
  | false =>
    have hno : s.checked=false := by simpa [hc] using ho
    rw [hno,Bool.toNat_false] at hcaller
    have hempty : s.received=[] := List.length_eq_zero_iff.mp (by omega)
    have hdestroyed : s.destroyed=false := by simp [State.destroyed,hempty]
    simp only [hdestroyed,hc,Bool.false_eq_true,if_false,Option.some.injEq] at hn
    subst hn
    apply h.move {s with loaded := true} rfl k (leave eager) h.received
    all_goals rw [hk]
    all_goals cases eager <;> simp [State.waiting,leave,hl,hc]
    all_goals omega
  | true =>
    have hw : s.waiting.toNat=1 := by simp [State.waiting,hc,hl]
    have hempty : s.received=[] := List.length_eq_zero_iff.mp (by omega)
    have heager : eager=false := by
      by_contra he
      have hno := h.checked_of_below (k := k) (by simpa [hk] using he)
      rw [hno,Bool.toNat_false] at hcaller
      omega
    subst heager
    have hdestroyed : s.destroyed=false := by simp [State.destroyed,hempty]
    simp only [hdestroyed,hc,Bool.false_eq_true,if_false,if_true,Option.some.injEq] at hn
    subst hn
    apply h.move {s with loaded := true} rfl k .transfer h.received
    all_goals rw [hk]
    all_goals simp [State.waiting,hl,hc]
    all_goals omega

theorem Inv.awaitReady_step (h : Inv s) (k : κ) (answer : Bool) (hk : s.threads k=.awaitReady)
    (hn : step s k answer (s.threads k)=some t) : Inv t := by
  have hcaller := h.caller
  have hno : s.checked=false := h.checked_of_below (k := k) (by simp [hk])
  rw [hno,Bool.toNat_false] at hcaller
  simp only [step,hk] at hn
  split_ifs at hn with hd
  · cases hn
    apply h.move {s with checked := true, received := s.promise.result::s.received} rfl k .idle
      (h.received_cons (h.result_of_done hd))
    all_goals rw [hk]
    all_goals simp [State.waiting,hno]
    omega
  · cases hn
    have hdone := h.done
    have hfalse : s.done=false := by simpa using hd
    rw [hfalse,Bool.toNat_false] at hdone
    apply h.move {s with checked := true} rfl k .storeContinuation h.received
    all_goals rw [hk]
    all_goals simp [State.waiting,hno]
    all_goals omega

theorem Inv.resume_step (h : Inv s) (k : κ) (answer : Bool)
    (hk : s.threads k=.storeContinuation ∨ s.threads k=.transfer)
    (hn : step s k answer (s.threads k)=some t) : Inv t := by
  rcases hk with hk | hk
  · have hstores : stores (s.threads k)=true := by simp [hk]
    have hstore : 0 < s.count stores := count_pos hstores
    have hl := h.loaded_of_stores hstores
    have hc : s.promise.continuation=false := by
      have hcaller := h.caller
      have hchecked := Bool.toNat_le s.checked
      cases hc : s.promise.continuation with
      | false => rfl
      | true =>
        simp [State.waiting,hc,hl] at hcaller
        omega
    simp only [step,hk] at hn
    cases hn
    apply h.move {s with promise := {s.promise with continuation := true}} rfl k .idle
      h.received
    all_goals rw [hk]
    all_goals simp [State.waiting,hl,hc]
    omega
  · have hl : s.loaded=true := h.loaded_of_transfers (k := k) (by simp [hk])
    have hsome : s.promise.result.isSome=true := by
      have hr := h.result
      cases hres : s.promise.result.isSome with
      | true => rfl
      | false => simp [hres,hl] at hr
    simp only [step,hk] at hn
    cases hn
    apply h.move {s with received := s.promise.result::s.received} rfl k .idle
      (h.received_cons hsome)
    all_goals rw [hk]
    all_goals simp [State.waiting]
    omega

theorem Inv.next (h : Inv s) (a : Action κ ε τ) (hn : next s a=some t)
    (ho : Timely s a t) : Inv t := by
  cases a with
  | send => exact h.send_step hn
  | take k => exact h.take_step k hn
  | suspend k => exact h.suspend_step k hn
  | finish k r => exact h.finish_step k r hn
  | step k answer =>
    change step s k answer (s.threads k)=some t at hn
    cases hk : s.threads k with
    | idle => simp [step,hk] at hn
    | body eager => simp [step,hk] at hn
    | clearScheduled eager => exact h.wait_step k eager answer (Or.inl hk) hn
    | recheck eager => exact h.wait_step k eager answer (Or.inr hk) hn
    | finalSuspend eager => exact h.finalSuspend_step k eager answer hk hn
    | loadContinuation eager => exact h.load_step k eager answer hk hn (ho (by simp [hk]))
    | awaitReady => exact h.awaitReady_step k answer hk hn
    | storeContinuation => exact h.resume_step k answer (Or.inl hk) hn
    | transfer => exact h.resume_step k answer (Or.inr hk) hn

theorem start_inv (k : κ) : Inv (start k : State κ ε τ) := by
  have hc (p : ThreadPc → Bool) (hp : p .idle=false) :
      (start k : State κ ε τ).count p=(p (.body true)).toNat := by
    have hu := countThreads_update p (fun _ : κ => ThreadPc.idle) k (.body true)
    have hz := (countThreads_eq_zero_iff p (fun _ : κ => ThreadPc.idle)).mpr (fun _ => hp)
    rw [hz,hp] at hu
    simpa [State.count,start] using hu
  constructor
  all_goals try rw [hc _ rfl]
  all_goals try rw [hc _ rfl]
  all_goals simp [start,State.waiting]

theorem reachable_inv (h : (machine κ ε τ).ReachableBy Timely s) : Inv s := by
  apply h.invariant
  · intro x hx
    obtain ⟨k,rfl⟩ := hx
    exact start_inv k
  · intro x a y hx hn ho
    exact hx.next a hn ho

omit [DecidableEq κ] in
/-- After the final awaiter's read the caller has gone on or is about to. -/
theorem Inv.resumed_of_loaded (h : Inv s) (hl : s.loaded=true) :
    s.received.length=1 ∨ ∃ k,resumesCaller (s.threads k)=true := by
  cases hc : s.checked with
  | false =>
    have hb := h.below
    rw [hc,Bool.toNat_false] at hb
    obtain ⟨k,hk⟩ := exists_of_count_pos (show 0 < s.count ThreadPc.below by omega)
    have hruns : runs (s.threads k)=false := by
      cases hr : runs (s.threads k) with
      | false => rfl
      | true =>
        obtain ⟨-,-,hf,-⟩ := h.running hr
        rw [hl] at hf
        cases hf
    refine Or.inr ⟨k,?_⟩
    cases hpc : s.threads k <;> simp_all [resumesCaller]
  | true =>
    have hcaller := h.caller
    have hs := h.storing
    have hw : s.waiting=false := by simp [State.waiting,hl]
    rw [hc,hw,Bool.toNat_true,Bool.toNat_false] at hcaller
    rw [hl,Bool.toNat_true] at hs
    by_cases hr : s.received.length=1
    · exact Or.inl hr
    · obtain ⟨k,hk⟩ := exists_of_count_pos (show 0 < s.count transfers by omega)
      refine Or.inr ⟨k,?_⟩
      cases hpc : s.threads k <;> simp_all [resumesCaller]

/-- The caller goes past its `co_await` at most once and with the result; and once the task
is at its final suspend point, it has done so or somebody is about to make it. -/
theorem completes_once (h : (machine κ ε τ).ReachableBy Timely s) :
    s.received.length ≤ 1 ∧
    (∀ r ∈ s.received,r=s.promise.result ∧ r.isSome=true) ∧
    (s.done=true → s.received.length=1 ∨ ∃ k,resumesCaller (s.threads k)=true) := by
  have hi := reachable_inv h
  have hcaller := hi.caller
  have hchecked := Bool.toNat_le s.checked
  refine ⟨by omega,hi.received,?_⟩
  intro hd
  cases hl : s.loaded with
  | true => exact hi.resumed_of_loaded hl
  | false =>
    have hdone := hi.done
    rw [hd,hl,Bool.toNat_true,Bool.toNat_false] at hdone
    obtain ⟨k,hk⟩ := exists_of_count_pos (show 0 < s.count loads by omega)
    refine Or.inr ⟨k,?_⟩
    cases hpc : s.threads k <;> simp_all [resumesCaller]

/-- The caller's thread 0 leaves the body suspended, worker 1 resumes it. -/
def resumed : List (Action (Fin 2) Unit Nat) :=
  [.suspend 0,.step 0 false,.send,.take 1,.step 0 false]

/-- The caller sleeps before the body ends: it goes on once, with the result. -/
theorem completes_once_sleeping :
    ∃ s,(machine (Fin 2) Unit Nat).ReachableBy Timely s ∧ s.done=true ∧ s.received.length=1 ∧
      ∀ r ∈ s.received,r=s.promise.result ∧ r.isSome=true := by
  obtain ⟨s,hs,hp⟩ := (machine (Fin 2) Unit Nat).exists_reachableBy Timely
    (List.flatten [resumed,[.step 0 false,.step 0 false,.finish 1 (.ok 7),.step 1 false,
      .step 1 false,.step 1 false]])
    (fun s => s.done && decide (s.received.length=1)) ⟨0,rfl⟩ (by decide +kernel)
  simp at hp
  obtain ⟨-,hr,-⟩ := completes_once hs
  exact ⟨s,hs,hp.1,hp.2,hr⟩

/-- The body ends between the caller's `done()` and its store: the final awaiter finds no
continuation, and the caller sleeps for good. -/
theorem completion_lost :
    ∃ s,(machine (Fin 2) Unit Nat).Reachable s ∧ s.done=true ∧ s.promise.result.isSome=true ∧
      s.promise.continuation=true ∧ s.received=[] ∧ s.queued=0 ∧ ∀ k,s.threads k=.idle := by
  obtain ⟨s,hs,hp⟩ := (machine (Fin 2) Unit Nat).exists_reachableBy Machine.anyStep
    (List.flatten [resumed,[.step 0 false,.finish 1 (.ok 7),.step 1 false,.step 1 false,
      .step 0 false]])
    (fun s => s.done && s.promise.result.isSome && s.promise.continuation &&
      s.received.isEmpty && decide (s.queued=0) && decide (∀ k,s.threads k=.idle))
    ⟨0,rfl⟩ (by decide +kernel)
  simp only [Bool.and_eq_true,List.isEmpty_iff,decide_eq_true_eq] at hp
  obtain ⟨⟨⟨⟨⟨hd,hr⟩,hc⟩,he⟩,hq⟩,hi⟩ := hp
  exact ⟨s,hs,hd,hr,hc,he,hq,hi⟩

end Acnet.Completion
