import Mathlib.Data.List.Nodup
import Mathlib.Data.List.Perm.Basic

namespace Acnet

/-- Each of the things lies in exactly one place, and once there; nothing else lies anywhere. -/
structure Placed {π α : Type*} (things : List α) (lies : π → List α) : Prop where
  nodup : ∀ p,(lies p).Nodup
  unique : ∀ p q x,x∈lies p → x∈lies q → p=q
  mem : ∀ x,x∈things ↔ ∃ p,x∈lies p

namespace Placed

variable {π α : Type*} {things : List α} {lies lies' : π → List α} {a b : π}

theorem nowhere (h : ∀ p,lies p=[]) : Placed [] lies :=
  ⟨by simp [h],by simp [h],by simp [h]⟩

theorem congr (h : Placed things lies) (hl : ∀ p,lies' p=lies p) : Placed things lies' := by
  obtain rfl : lies'=lies := funext hl
  exact h

/-- Some things go from one place to another. -/
theorem move (h : Placed things lies) (hab : a≠b) (xs : List α)
    (ha : (lies a).Perm (xs++lies' a)) (hb : (lies' b).Perm (lies b++xs))
    (ho : ∀ p,p≠a → p≠b → lies' p=lies p) : Placed things lies' := by
  have hnd : (xs++lies' a).Nodup := ha.nodup_iff.mp (h.nodup a)
  have hxs (x : α) (hx : x∈xs) : x∈lies a := ha.mem_iff.mpr (List.mem_append_left _ hx)
  have back (p : π) (x : α) (hx : x∈lies' p) : x∈lies p ∨ (p=b ∧ x∈xs) := by
    by_cases hpb : p=b
    · subst hpb
      exact (List.mem_append.mp (hb.mem_iff.mp hx)).imp_right fun hx => ⟨rfl,hx⟩
    · by_cases hpa : p=a
      · subst hpa
        exact Or.inl (ha.mem_iff.mpr (List.mem_append_right _ hx))
      · exact Or.inl (ho p hpa hpb ▸ hx)
  refine ⟨?_,?_,?_⟩
  · intro p
    by_cases hpb : p=b
    · subst hpb
      rw [hb.nodup_iff]
      refine List.Nodup.append (h.nodup p) hnd.of_append_left ?_
      intro x hx hxx
      exact hab (h.unique a p x (hxs x hxx) hx)
    · by_cases hpa : p=a
      · subst hpa
        exact hnd.of_append_right
      · exact ho p hpa hpb ▸ h.nodup p
  · -- a thing that has moved cannot have stayed behind
    have moved (q : π) (x : α) (hx : x∈xs) (hq : x∈lies q) (hq' : x∈lies' q) : b=q := by
      have haq := h.unique a q x (hxs x hx) hq
      subst haq
      exact absurd hq' (fun hq' => (List.disjoint_of_nodup_append hnd) hx hq')
    intro p q x hp hq
    rcases back p x hp with hp' | ⟨rfl,hx⟩
    · rcases back q x hq with hq' | ⟨rfl,hx⟩
      · exact h.unique p q x hp' hq'
      · exact (moved p x hx hp' hp).symm
    · rcases back q x hq with hq' | ⟨rfl,-⟩
      · exact moved q x hx hq' hq
      · rfl
  · intro x
    rw [h.mem]
    constructor
    · intro hx
      obtain ⟨p,hp⟩ := hx
      by_cases hpb : p=b
      · subst hpb
        exact ⟨p,hb.mem_iff.mpr (List.mem_append_left _ hp)⟩
      · by_cases hpa : p=a
        · subst hpa
          rcases List.mem_append.mp (ha.mem_iff.mp hp) with hx | hx
          · exact ⟨b,hb.mem_iff.mpr (List.mem_append_right _ hx)⟩
          · exact ⟨p,hx⟩
        · exact ⟨p,(ho p hpa hpb).symm ▸ hp⟩
    · intro hx
      obtain ⟨p,hp⟩ := hx
      rcases back p x hp with hp' | ⟨-,hx⟩
      · exact ⟨p,hp'⟩
      · exact ⟨a,hxs x hx⟩

/-- New things come to one place. -/
theorem add (h : Placed things lies) {xs : List α} (hx : xs.Nodup) (hnew : ∀ x∈xs,x∉things)
    (hb : (lies' b).Perm (lies b++xs)) (ho : ∀ p,p≠b → lies' p=lies p) :
    Placed (things++xs) lies' := by
  have old (p : π) (x : α) (hp : x∈lies p) : x∉xs := fun hxs =>
    hnew x hxs ((h.mem x).mpr ⟨p,hp⟩)
  have back (p : π) (x : α) (hp : x∈lies' p) : x∈lies p ∨ (p=b ∧ x∈xs) := by
    by_cases hpb : p=b
    · subst hpb
      exact (List.mem_append.mp (hb.mem_iff.mp hp)).imp_right fun hx => ⟨rfl,hx⟩
    · exact Or.inl (ho p hpb ▸ hp)
  refine ⟨?_,?_,?_⟩
  · intro p
    by_cases hpb : p=b
    · subst hpb
      rw [hb.nodup_iff]
      exact List.Nodup.append (h.nodup p) hx fun x hp => old p x hp
    · exact ho p hpb ▸ h.nodup p
  · intro p q x hp hq
    rcases back p x hp with hp' | ⟨rfl,hxs⟩
    · rcases back q x hq with hq' | ⟨rfl,hxs⟩
      · exact h.unique p q x hp' hq'
      · exact absurd hxs (old p x hp')
    · rcases back q x hq with hq' | ⟨rfl,-⟩
      · exact absurd hxs (old q x hq')
      · rfl
  · intro x
    rw [List.mem_append,h.mem]
    constructor
    · intro hmem
      rcases hmem with ⟨p,hp⟩ | hxs
      · by_cases hpb : p=b
        · subst hpb
          exact ⟨p,hb.mem_iff.mpr (List.mem_append_left _ hp)⟩
        · exact ⟨p,(ho p hpb).symm ▸ hp⟩
      · exact ⟨b,hb.mem_iff.mpr (List.mem_append_right _ hxs)⟩
    · intro hmem
      obtain ⟨p,hp⟩ := hmem
      exact (back p x hp).imp (fun hp' => ⟨p,hp'⟩) fun hx => hx.2

theorem existsUnique (h : Placed things lies) {x : α} (hx : x∈things) : ∃! p,x∈lies p := by
  obtain ⟨p,hp⟩ := (h.mem x).mp hx
  exact ⟨p,hp,fun q hq => h.unique q p x hq hp⟩

section Single

variable {x : α}

theorem single (ha : lies a=[x]) (ho : ∀ p,p≠a → lies p=[]) : Placed [x] lies := by
  have at_a (p : π) (y : α) (hy : y∈lies p) : p=a := by
    by_contra hp
    simp [ho p hp] at hy
  refine ⟨?_,?_,?_⟩
  · intro p
    by_cases hp : p=a
    · simp [hp,ha]
    · simp [ho p hp]
  · intro p q y hp hq
    rw [at_a p y hp,at_a q y hq]
  · intro y
    constructor
    · intro hy
      exact ⟨a,by rwa [ha]⟩
    · intro hy
      obtain ⟨p,hp⟩ := hy
      rwa [at_a p y hp,ha] at hp

/-- A single thing leaves every other place empty. -/
theorem elsewhere (h : Placed [x] lies) {y : α} (ha : y∈lies a) {p : π} (hp : p≠a) :
    lies p=[] := by
  apply List.eq_nil_iff_forall_not_mem.mpr
  intro z hz
  obtain rfl : z=x := List.mem_singleton.mp ((h.mem z).mpr ⟨p,hz⟩)
  obtain rfl : y=z := List.mem_singleton.mp ((h.mem y).mpr ⟨a,ha⟩)
  exact hp (h.unique p a y hz ha)

theorem eq_singleton (h : Placed [x] lies) {y : α} (ha : y∈lies a) : lies a=[x] := by
  have hx : ∀ z∈lies a,z=x := fun z hz => List.mem_singleton.mp ((h.mem z).mpr ⟨a,hz⟩)
  have hnd := h.nodup a
  cases hl : lies a with
  | nil => simp [hl] at ha
  | cons z rest =>
    rw [hl] at hx hnd
    cases rest with
    | nil => rw [hx z (by simp)]
    | cons w rest =>
      have hz := hx z (by simp)
      have hw := hx w (by simp)
      simp [hz,hw] at hnd

end Single

end Placed

end Acnet
