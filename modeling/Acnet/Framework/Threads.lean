import Mathlib.Algebra.BigOperators.Group.Finset.Piecewise
import Mathlib.Algebra.BigOperators.Ring.Finset

namespace Acnet

/-- The number of threads whose local state satisfies `p`. -/
def countThreads {ι β : Type*} [Fintype ι] (p : β → Bool) (f : ι → β) : Nat :=
  (Finset.univ.filter fun i => p (f i)=true).card

variable {ι β : Type*} [Fintype ι] (p : β → Bool)

theorem countThreads_eq_sum (f : ι → β) :
    countThreads p f=∑ i,(p (f i)).toNat := by
  rw [countThreads,Finset.card_filter]
  apply Finset.sum_congr rfl
  intro i _
  cases p (f i) <;> rfl

theorem countThreads_pos_iff (f : ι → β) : 0<countThreads p f ↔ ∃ i,p (f i)=true := by
  rw [countThreads,Finset.card_pos]
  constructor
  · rintro ⟨i,hi⟩
    exact ⟨i,(Finset.mem_filter.mp hi).2⟩
  · rintro ⟨i,hi⟩
    exact ⟨i,Finset.mem_filter.mpr ⟨Finset.mem_univ i,hi⟩⟩

theorem countThreads_eq_zero_iff (f : ι → β) :
    countThreads p f=0 ↔ ∀ i,p (f i)=false := by
  have h := countThreads_pos_iff p f
  constructor
  · intro hz i
    by_contra hi
    have := h.mpr ⟨i,by simpa using hi⟩
    omega
  · intro hi
    by_contra hz
    obtain ⟨i,ht⟩ := h.mp (Nat.pos_of_ne_zero hz)
    simp [hi i] at ht

/-- Two threads that satisfy `p` are one thread as soon as the count is at most one. -/
theorem countThreads_unique {f : ι → β} (h : countThreads p f ≤ 1) {i j : ι}
    (hi : p (f i)=true) (hj : p (f j)=true) : i=j :=
  Finset.card_le_one.mp h i (by simp [hi]) j (by simp [hj])

variable [DecidableEq ι]

/-- How the count moves when one thread moves. -/
theorem countThreads_update (f : ι → β) (i : ι) (x : β) :
    countThreads p (Function.update f i x)+(p (f i)).toNat=
      countThreads p f+(p x).toNat := by
  have moved : (fun j => (p (Function.update f i x j)).toNat)=
      Function.update (fun j => (p (f j)).toNat) i (p x).toNat := by
    funext j
    by_cases hj : j=i <;> simp [hj]
  have total := Finset.add_sum_erase Finset.univ (fun j => (p (f j)).toNat)
    (Finset.mem_univ i)
  rw [countThreads_eq_sum,countThreads_eq_sum,moved,
    Finset.sum_update_of_mem (Finset.mem_univ i),← Finset.erase_eq]
  omega

theorem countThreads_update_same (f : ι → β) (i : ι) (x : β) (h : p x=p (f i)) :
    countThreads p (Function.update f i x)=countThreads p f := by
  have hu := countThreads_update p f i x
  rw [h] at hu
  omega

end Acnet
