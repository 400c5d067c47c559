import Mathlib.Logic.Basic
import Mathlib.Tactic.SplitIfs
import Mathlib.Tactic.TypeStar

namespace Acnet

/-- Where one access of a procedure leaves its caller: at a further program point, or
back with a result. -/
inductive Control (π ρ : Type*) where
  | running (pc : π)
  | returned (result : ρ)
  deriving DecidableEq

/-- The program point of a caller that is not back yet. -/
def Control.pc? {π ρ : Type*} : Control π ρ → Option π
  | .running pc => some pc
  | .returned _ => none

/-- A labelled machine. The label of a step settles every choice the step leaves
open (which thread moves, what the environment answers), so a run is executable. -/
structure Machine (σ α : Type*) where
  start : σ → Prop
  next : σ → α → Option σ

namespace Machine

variable {σ α : Type*} (M : Machine σ α)

/-- Runs from `s` whose every step is allowed by `ok`, which sees the state before
the step, its label and the state after it. -/
inductive Steps (ok : σ → α → σ → Prop) (s : σ) : σ → Prop
  | refl : Steps ok s s
  | tail {t u : σ} {a : α} : Steps ok s t → M.next t a=some u → ok t a u → Steps ok s u

/-- The step condition that every step meets. -/
def anyStep : σ → α → σ → Prop := fun _ _ _ => True

instance (s : σ) (a : α) (t : σ) : Decidable (anyStep s a t) := inferInstanceAs (Decidable True)

def ReachableBy (ok : σ → α → σ → Prop) (s : σ) : Prop :=
  ∃ s₀,M.start s₀ ∧ M.Steps ok s₀ s

def Reachable (s : σ) : Prop := M.ReachableBy anyStep s

variable {M}
variable {ok : σ → α → σ → Prop}

theorem Steps.invariant {I : σ → Prop} {s t : σ} (h : M.Steps ok s t) (hs : I s)
    (step : ∀ x a y,I x → M.next x a=some y → ok x a y → I y) : I t := by
  induction h with
  | refl => exact hs
  | tail _ hn ho ih => exact step _ _ _ ih hn ho

theorem Steps.trans {s t u : σ} (h : M.Steps ok s t) (k : M.Steps ok t u) :
    M.Steps ok s u := by
  induction k with
  | refl => exact h
  | tail _ hn ho ih => exact .tail ih hn ho

theorem Steps.mono {ok' : σ → α → σ → Prop} {s t : σ} (h : M.Steps ok s t)
    (hk : ∀ x a y,ok x a y → ok' x a y) : M.Steps ok' s t := by
  induction h with
  | refl => exact .refl
  | tail _ hn ho ih => exact .tail ih hn (hk _ _ _ ho)

/-- What holds at the start and is kept by every allowed step holds in every state
that allowed steps reach. -/
theorem ReachableBy.invariant {I : σ → Prop} {s : σ} (h : M.ReachableBy ok s)
    (init : ∀ x,M.start x → I x)
    (step : ∀ x a y,I x → M.next x a=some y → ok x a y → I y) : I s := by
  obtain ⟨s₀,hs,hr⟩ := h
  exact hr.invariant (init s₀ hs) step

theorem ReachableBy.steps {s t : σ} (h : M.ReachableBy ok s) (k : M.Steps ok s t) :
    M.ReachableBy ok t := by
  obtain ⟨s₀,hs,hr⟩ := h
  exact ⟨s₀,hs,hr.trans k⟩

theorem ReachableBy.next {s t : σ} {a : α} (h : M.ReachableBy ok s)
    (hn : M.next s a=some t) (ho : ok s a t) : M.ReachableBy ok t :=
  h.steps (.tail .refl hn ho)

/-- A measure that some step decreases until the run is done leads there. -/
theorem exists_steps_done {I done : σ → Prop} (measure : σ → Nat)
    (keep : ∀ x a y,I x → M.next x a=some y → ok x a y → I y)
    (progress : ∀ x,I x → ¬done x →
      ∃ a y,M.next x a=some y ∧ ok x a y ∧ measure y < measure x) (s : σ) (hs : I s) :
    ∃ t,M.Steps ok s t ∧ done t := by
  induction hm : measure s using Nat.strongRecOn generalizing s with
  | _ n ih =>
    by_cases hd : done s
    · exact ⟨s,.refl,hd⟩
    · obtain ⟨a,y,hn,ho,hlt⟩ := progress s hs hd
      obtain ⟨t,ht,hdone⟩ := ih (measure y) (hm ▸ hlt) y (keep s a y hs hn ho) rfl
      exact ⟨t,(Steps.tail .refl hn ho).trans ht,hdone⟩

section Simulation

variable {τ β : Type*} {N : Machine τ β} {label : σ → α → Option β} {R : σ → τ → Prop}

variable (N) in
/-- The machine takes the step of the given label, if there is one, and `p` holds after it. -/
def Answers (x : τ) (label : Option β) (p : τ → Prop) : Prop :=
  match label with
  | none => p x
  | some b => ∃ y,N.next x b=some y ∧ p y

variable (M ok N label R) in
/-- The relation is kept when `N` answers every allowed step of `M`. -/
def Simulates : Prop :=
  ∀ s a t x,R s x → M.next s a=some t → ok s a t → N.Answers x (label s a) (R t)

theorem Simulates.steps (h : M.Simulates ok N label R) {s t : σ} {x : τ} (hs : M.Steps ok s t)
    (hx : R s x) : ∃ y,N.Steps anyStep x y ∧ R t y := by
  induction hs with
  | refl => exact ⟨x,.refl,hx⟩
  | tail _ hn ho ih =>
    obtain ⟨y,hy,hr⟩ := ih
    have hstep := h _ _ _ _ hr hn ho
    unfold Answers at hstep
    split at hstep
    · exact ⟨y,hy,hstep⟩
    · obtain ⟨z,hz,hr⟩ := hstep
      exact ⟨z,.tail hy hz trivial,hr⟩

end Simulation

section Execution

variable (M) (ok) [∀ x a y,Decidable (ok x a y)]

/-- Executes a list of labels, stopping at a step that is impossible or not allowed. -/
def exec : σ → List α → Option σ
  | s,[] => some s
  | s,a::as =>
      match M.next s a with
      | none => none
      | some t => if ok s a t then exec t as else none

variable {M ok} in
theorem steps_of_exec (as : List α) (s t : σ) (h : M.exec ok s as=some t) :
    M.Steps ok s t := by
  induction as generalizing s with
  | nil =>
    cases h
    exact .refl
  | cons a as ih =>
    simp only [exec] at h
    cases hn : M.next s a with
    | none => simp [hn] at h
    | some u =>
      simp only [hn] at h
      split_ifs at h with ho
      exact (Steps.tail .refl hn ho).trans (ih u h)

/-- A run that executes to a state with property `p` shows that such a state is reachable. -/
theorem exists_reachableBy (as : List α) {s : σ} (p : σ → Bool) (hs : M.start s)
    (h : (M.exec ok s as).any p=true) : ∃ t,M.ReachableBy ok t ∧ p t=true := by
  cases he : M.exec ok s as with
  | none => simp [he] at h
  | some t => exact ⟨t,⟨s,hs,steps_of_exec as s t he⟩,by simpa [he] using h⟩

/-- The same for a property of one more step. -/
theorem exists_reachableBy_step (as : List α) (a : α) {s : σ} (p : σ → σ → Bool) (hs : M.start s)
    (h : (M.exec ok s as).any (fun t => (M.next t a).any (p t))=true) :
    ∃ t u,M.ReachableBy ok t ∧ M.next t a=some u ∧ p t u=true := by
  obtain ⟨t,ht,hp⟩ := M.exists_reachableBy ok as _ hs h
  cases hn : M.next t a with
  | none => simp [hn] at hp
  | some u => exact ⟨t,u,ht,hn,by simpa [hn] using hp⟩

/-- One step from `s` and then a run. -/
theorem exists_steps (s : σ) (a : α) (as : List α) (p : σ → σ → Bool)
    (h : (M.next s a).any (fun t => (M.exec ok t as).any (p t))=true) :
    ∃ t u,M.next s a=some t ∧ M.Steps ok t u ∧ p t u=true := by
  cases hn : M.next s a with
  | none => simp [hn] at h
  | some t =>
    cases he : M.exec ok t as with
    | none => simp [hn,he] at h
    | some u => exact ⟨t,u,rfl,steps_of_exec as t u he,by simpa [hn,he] using h⟩

end Execution

end Machine

end Acnet
