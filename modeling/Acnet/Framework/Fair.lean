import Acnet.Framework.Machine
import Mathlib.Data.List.Basic
import Mathlib.Data.List.Induction
import Mathlib.Order.Nat

namespace Acnet.Machine

variable {σ α : Type*} (M : Machine σ α) (ok : σ → α → σ → Prop)

/-- A run without end. Where there is no label nothing happens, so a run that stops is one too. -/
structure Trace where
  state : Nat → σ
  label : Nat → Option α
  step : ∀ n a,label n=some a →
    M.next (state n) a=some (state (n+1)) ∧ ok (state n) a (state (n+1))
  idle : ∀ n,label n=none → state (n+1)=state n

/-- A step of the given kind is possible. -/
def Enabled (kind : α → Prop) (x : σ) : Prop := ∃ a y,kind a ∧ M.next x a=some y

variable {M} in
theorem Enabled.of_isSome {kind : α → Prop} {x : σ} {a : α} (h : (M.next x a).isSome=true)
    (hk : kind a) : M.Enabled kind x := by
  obtain ⟨y,hy⟩ := Option.isSome_iff_exists.mp h
  exact ⟨a,y,hk,hy⟩

namespace Trace

variable {M ok} (r : Trace M ok) {kind : α → Prop} {P Q : σ → Prop} {n : Nat}

/-- Steps of a kind that stay possible are taken at some time. -/
def Fair (kind : α → Prop) : Prop :=
  ∀ n,(∀ m ≥ n,M.Enabled kind (r.state m)) → ∃ m ≥ n,∃ a,r.label m=some a ∧ kind a

theorem invariant (hn : P (r.state n))
    (keep : ∀ x a y,P x → M.next x a=some y → ok x a y → P y) :
    ∀ m ≥ n,P (r.state m) := by
  intro m hm
  induction m, hm using Nat.le_induction with
  | base => exact hn
  | succ m hm ih =>
    cases hl : r.label m with
    | none =>
      rw [r.idle m hl]
      exact ih
    | some a => exact keep _ a _ ih (r.step m a hl).1 (r.step m a hl).2

/-- What only `Q` can end lasts until then. -/
theorem lasts (keep : ∀ x a y,P x → M.next x a=some y → ok x a y → Q y ∨ P y)
    (hn : P (r.state n)) : ∀ m ≥ n,(∃ k ≥ n,Q (r.state k)) ∨ P (r.state m) := by
  intro m hm
  induction m, hm using Nat.le_induction with
  | base => exact Or.inr hn
  | succ m hm ih =>
    rcases ih with hq | hp
    · exact Or.inl hq
    · cases hl : r.label m with
      | none =>
        rw [r.idle m hl]
        exact Or.inr hp
      | some a =>
        rcases keep _ a _ hp (r.step m a hl).1 (r.step m a hl).2 with hq | hp'
        · exact Or.inl ⟨m+1,by omega,hq⟩
        · exact Or.inr hp'

/-- While `P` holds and `Q` does not, the rank never grows, and the steps of one kind stay
possible and decrease it: if they are taken fairly, `Q` comes. -/
theorem leadsTo (fair : r.Fair kind) (rank : σ → Nat)
    (enabled : ∀ x,P x → ¬Q x → M.Enabled kind x)
    (step : ∀ x a y,P x → M.next x a=some y → ok x a y →
      Q y ∨ P y ∧ rank y ≤ rank x ∧ (kind a → rank y < rank x))
    (hn : P (r.state n)) : ∃ m ≥ n,Q (r.state m) := by
  by_contra hnone
  have hnever : ∀ m ≥ n,¬Q (r.state m) := fun m hm hq => hnone ⟨m,hm,hq⟩
  -- without `Q` every step keeps `P`
  have move (m : Nat) (hm : m ≥ n) (hp : P (r.state m)) :
      P (r.state (m+1)) ∧ rank (r.state (m+1)) ≤ rank (r.state m) ∧
        ∀ a,r.label m=some a → kind a → rank (r.state (m+1)) < rank (r.state m) := by
    cases hl : r.label m with
    | none =>
      rw [r.idle m hl]
      exact ⟨hp,le_rfl,by simp⟩
    | some a =>
      rcases step _ a _ hp (r.step m a hl).1 (r.step m a hl).2 with hq | ⟨hp',hle,hlt⟩
      · exact absurd hq (hnever (m+1) (by omega))
      · exact ⟨hp',hle,fun b hb => Option.some.inj hb ▸ hlt⟩
  have hkeep : ∀ m ≥ n,P (r.state m) := by
    intro m hm
    induction m, hm using Nat.le_induction with
    | base => exact hn
    | succ m hm ih => exact (move m hm ih).1
  have hmono : ∀ m ≥ n,∀ k ≥ m,rank (r.state k) ≤ rank (r.state m) := by
    intro m hm k hk
    induction k, hk using Nat.le_induction with
    | base => exact le_rfl
    | succ k hk ih => exact (move k (hm.trans hk) (hkeep k (hm.trans hk))).2.1.trans ih
  -- the rank falls below every bound
  have hfall : ∀ d,∃ m ≥ n,rank (r.state m)+d ≤ rank (r.state n) := by
    intro d
    induction d with
    | zero => exact ⟨n,le_rfl,le_rfl⟩
    | succ d ih =>
      obtain ⟨m,hm,hle⟩ := ih
      obtain ⟨k,hk,a,ha,hkind⟩ := fair m fun j hj =>
        enabled _ (hkeep j (hm.trans hj)) (hnever j (hm.trans hj))
      have hlt := (move k (hm.trans hk) (hkeep k (hm.trans hk))).2.2 a ha hkind
      have hmk := hmono m hm k hk
      exact ⟨k+1,by omega,by omega⟩
  obtain ⟨m,-,hle⟩ := hfall (rank (r.state n)+1)
  omega

/-- Where one of two outcomes leads on to the other, the other comes. -/
theorem cancel {p q : Nat → Prop} (h : ∃ m ≥ n,q m ∨ p m) (hp : ∀ m,p m → ∃ k ≥ m,q k) :
    ∃ k ≥ n,q k := by
  obtain ⟨m,hm,hq | hpm⟩ := h
  · exact ⟨m,hm,hq⟩
  · obtain ⟨k,hk,hq⟩ := hp m hpm
    exact ⟨k,hm.trans hk,hq⟩

/-- Steps that are not possible any more need not be taken. -/
theorem fair_of_disabled (h : ∃ m,∀ k ≥ m,¬M.Enabled kind (r.state k)) : r.Fair kind := by
  obtain ⟨m,hm⟩ := h
  intro n hn
  exact absurd (hn (max n m) (le_max_left _ _)) (hm _ (le_max_right _ _))

end Trace

section Execution

variable [∀ x a y,Decidable (ok x a y)]

variable {M ok} in
theorem exec_concat {s t : σ} {l : List α} {a : α} (h : M.exec ok s (l++[a])=some t) :
    ∃ u,M.exec ok s l=some u ∧ M.next u a=some t ∧ ok u a t := by
  induction l generalizing s with
  | nil =>
    simp only [List.nil_append,exec] at h
    split at h
    · cases h
    · rename_i u hu
      split_ifs at h with ho
      obtain rfl := Option.some.inj h
      exact ⟨s,rfl,hu,ho⟩
  | cons b l ih =>
    simp only [List.cons_append,exec] at h ⊢
    split at h
    · cases h
    · split_ifs at h with ho
      rw [if_pos ho]
      exact ih h

variable {M ok} in
theorem exec_take {s : σ} {l : List α} (h : (M.exec ok s l).isSome=true) (n : Nat) :
    (M.exec ok s (l.take n)).isSome=true := by
  induction l using List.reverseRecOn with
  | nil =>
    rw [List.take_nil]
    rfl
  | append_singleton l a ih =>
    obtain ⟨t,ht⟩ := Option.isSome_iff_exists.mp h
    obtain ⟨u,hu,-⟩ := exec_concat ht
    rcases Nat.lt_or_ge l.length n with hlt | hge
    · rw [List.take_of_length_le (by rw [List.length_append]; exact hlt)]
      exact h
    · rw [List.take_append_of_le_length hge]
      exact ih (by rw [hu]; rfl)

/-- The run that executes a list of labels and then stops. -/
def Trace.ofList (s : σ) (l : List α) (h : (M.exec ok s l).isSome=true) : Trace M ok where
  state n := (M.exec ok s (l.take n)).get (exec_take h n)
  label n := l[n]?
  step n a ha := by
    have htake : l.take (n+1)=l.take n++[a] := by rw [List.take_add_one,ha]; rfl
    obtain ⟨u,hu,hn,ho⟩ := exec_concat (t := (M.exec ok s (l.take (n+1))).get (exec_take h _))
      (by rw [← htake,Option.some_get])
    have he : (M.exec ok s (l.take n)).get (exec_take h n)=u :=
      Option.get_of_mem _ hu
    rw [he]
    exact ⟨hn,ho⟩
  idle n hn := by
    have hlen := List.getElem?_eq_none_iff.mp hn
    simp only [List.take_of_length_le hlen,List.take_of_length_le (Nat.le_succ_of_le hlen)]

section OfList

variable {M ok} {s : σ} {l : List α} (h : (M.exec ok s l).isSome=true) {n : Nat}

theorem Trace.ofList_exec (n : Nat) :
    M.exec ok s (l.take n)=some ((Trace.ofList M ok s l h).state n) :=
  (Option.some_get _).symm

theorem Trace.ofList_any (n : Nat) (p : σ → Bool) (hp : (M.exec ok s (l.take n)).any p=true) :
    p ((Trace.ofList M ok s l h).state n)=true := by
  rw [ofList_exec h] at hp
  exact hp

theorem Trace.ofList_last (hn : n ≥ l.length) :
    (Trace.ofList M ok s l h).state n=(Trace.ofList M ok s l h).state l.length := by
  simp only [ofList,List.take_of_length_le hn,List.take_length]

omit h in
theorem Trace.ofList_stops {t : σ} (ht : M.exec ok s l=some t) (hn : n ≥ l.length) :
    (Trace.ofList M ok s l (Option.isSome_iff_exists.mpr ⟨t,ht⟩)).state n=t := by
  rw [ofList_last _ hn]
  simp only [ofList,List.take_length,ht,Option.get_some]

end OfList

end Execution

end Acnet.Machine
