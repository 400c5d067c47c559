import Acnet.Framework.Machine

namespace Acnet.Alone

variable {ε σ π ρ : Type*} {access : ε → σ → π → σ×Control π ρ}

/-- A call that nobody interferes with: it goes from `pc` in `s` to its return in `t`, access
after access, each one with some answer of the environment. -/
inductive Returns (access : ε → σ → π → σ×Control π ρ) : σ → π → σ → ρ → Prop
  | last {e : ε} {s t : σ} {pc : π} {r : ρ} (h : access e s pc=(t,.returned r)) :
      Returns access s pc t r
  | more {e : ε} {s t u : σ} {pc pc' : π} {r : ρ} (h : access e s pc=(t,.running pc'))
      (k : Returns access t pc' u r) : Returns access s pc u r

/-- Total correctness of a call made alone: it can return, and `p` holds of the state and the
result of every return. -/
def Ensures (access : ε → σ → π → σ×Control π ρ) (s : σ) (pc : π) (p : σ → ρ → Prop) : Prop :=
  (∃ t r,Returns access s pc t r) ∧ ∀ t r,Returns access s pc t r → p t r

variable {s t : σ} {pc pc' : π} {r : ρ} {p : σ → ρ → Prop}

/-- An access that comes back whatever the environment answers. -/
theorem ensures_returned [Nonempty ε] (h : ∀ e,access e s pc=(t,.returned r)) :
    Ensures access s pc p ↔ p t r := by
  obtain ⟨e⟩ := ‹Nonempty ε›
  constructor
  · intro hp
    exact hp.2 t r (.last (h e))
  · intro hp
    refine ⟨⟨t,r,.last (h e)⟩,?_⟩
    intro u x hr
    cases hr with
    | last hl =>
      cases (h _).symm.trans hl
      exact hp
    | more hm => cases (h _).symm.trans hm

/-- An access that goes on to one program point whatever the environment answers. -/
theorem ensures_running [Nonempty ε] (h : ∀ e,access e s pc=(t,.running pc')) :
    Ensures access s pc p ↔ Ensures access t pc' p := by
  obtain ⟨e⟩ := ‹Nonempty ε›
  constructor
  · rintro ⟨⟨u,x,hr⟩,hp⟩
    constructor
    · cases hr with
      | last hl => cases (h _).symm.trans hl
      | more hm k =>
        cases (h _).symm.trans hm
        exact ⟨u,x,k⟩
    · intro v y k
      exact hp v y (.more (h e) k)
  · rintro ⟨⟨u,x,k⟩,hp⟩
    refine ⟨⟨u,x,.more (h e) k⟩,?_⟩
    intro v y hr
    cases hr with
    | last hl => cases (h _).symm.trans hl
    | more hm k =>
      cases (h _).symm.trans hm
      exact hp v y k

variable {P : π → Prop}

/-- A loop that changes nothing until it is left for `pc'` in `t`. -/
theorem ensures_retry
    (hstep : ∀ x,P x → ∀ e,
      (∃ y,access e s x=(s,.running y) ∧ P y) ∨ access e s x=(t,.running pc'))
    (hexit : ∀ u r,Returns access t pc' u r → Returns access s pc u r) (hp : P pc) :
    Ensures access s pc p ↔ Ensures access t pc' p := by
  have hleft {x : σ} {y : π} {u : σ} {r : ρ} (hr : Returns access x y u r) (hx : x=s)
      (hy : P y) : Returns access t pc' u r := by
    induction hr with
    | last hl =>
      subst hx
      rcases hstep _ hy _ with ⟨z,hz,_⟩ | hz
      · cases hz.symm.trans hl
      · cases hz.symm.trans hl
    | more hm k ih =>
      subst hx
      rcases hstep _ hy _ with ⟨z,hz,hpz⟩ | hz
      · cases hz.symm.trans hm
        exact ih rfl hpz
      · cases hz.symm.trans hm
        exact k
  constructor
  · rintro ⟨⟨u,r,hr⟩,hall⟩
    refine ⟨⟨u,r,hleft hr rfl hp⟩,?_⟩
    intro v x k
    exact hall v x (hexit v x k)
  · rintro ⟨⟨u,r,k⟩,hall⟩
    refine ⟨⟨u,r,hexit u r k⟩,?_⟩
    intro v x hr
    exact hall v x (hleft hr rfl hp)

end Acnet.Alone
