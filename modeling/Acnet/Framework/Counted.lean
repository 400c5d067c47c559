import Mathlib.Algebra.Order.Ring.Int
import Mathlib.Data.List.Basic

namespace Acnet

/-- A counted object: its count, an integer so that a count below zero would show, and how often
it has been deleted. -/
structure Cell (α : Type*) where
  content : α
  ref : Int
  deletes : Nat
  deriving DecidableEq

namespace Cell

variable {α : Type*}

def alloc (cells : List (Cell α)) (content : α) (ref : Nat) : List (Cell α) :=
  cells++[⟨content,ref,0⟩]

/-- Whoever takes the last reference deletes the object. -/
def release (cells : List (Cell α)) (i : Nat) : List (Cell α) :=
  cells.modify i fun c =>
    {c with ref := c.ref-1, deletes := if c.ref=1 then c.deletes+1 else c.deletes}

/-- A reference is copied. -/
def retain (cells : List (Cell α)) (i : Nat) : List (Cell α) :=
  cells.modify i fun c => {c with ref := c.ref+1}

/-- A reference goes; the last one takes the object through its destructor. -/
def drop (destructor : α → α) (cells : List (Cell α)) (i : Nat) : List (Cell α) :=
  (release cells i).modify i fun c =>
    if c.ref=0 then {c with content := destructor c.content} else c

/-- What stands in a list of which one entry was modified. -/
theorem modify_cases {β : Type*} {l : List β} {k i : Nat} {f : β → β} {b : β}
    (h : (l.modify k f)[i]?=some b) :
    ∃ a,l[i]?=some a ∧ ((i≠k ∧ b=a) ∨ (i=k ∧ b=f a)) := by
  simp only [List.getElem?_modify,Option.map_eq_map,Option.map_eq_some_iff] at h
  obtain ⟨a,ha,rfl⟩ := h
  refine ⟨a,ha,?_⟩
  by_cases hi : k=i
  · exact Or.inr ⟨hi.symm,if_pos hi⟩
  · exact Or.inl ⟨Ne.symm hi,if_neg hi⟩

theorem modify_concat {β : Type*} (l : List β) (b : β) (f : β → β) :
    (l++[b]).modify l.length f=l++[f b] := by
  simp [List.modify_eq_set_getElem?]

/-- An object that loses its only reference at once. -/
theorem drop_alloc (destructor : α → α) (cells : List (Cell α)) (a : α) :
    drop destructor (alloc cells a 1) cells.length=cells++[⟨destructor a,0,1⟩] := by
  simp [drop,release,alloc,modify_concat]

/-- Every count is the number of holders, and exactly the objects without one are deleted, once. -/
structure Balanced (cells : List (Cell α)) (holders : Nat → Nat) : Prop where
  ref : ∀ (i : Nat) (c : Cell α),cells[i]?=some c → c.ref=(holders i : Int)
  deletes : ∀ (i : Nat) (c : Cell α),cells[i]?=some c → c.deletes=if holders i=0 then 1 else 0
  unallocated : ∀ i,cells.length ≤ i → holders i=0

namespace Balanced

variable {cells : List (Cell α)} {holders holders' : Nat → Nat}

theorem nil : Balanced ([] : List (Cell α)) fun _ => 0 :=
  ⟨by simp,by simp,fun _ _ => rfl⟩

theorem congr (h : Balanced cells holders) (hh : ∀ i,holders' i=holders i) :
    Balanced cells holders' := by
  obtain rfl : holders'=holders := funext hh
  exact h

/-- A new object is held as often as its count says. -/
theorem alloc (h : Balanced cells holders) {a : α} {n : Nat} (hn : 0 < n)
    (hh : ∀ i,holders' i=holders i+if i=cells.length then n else 0) :
    Balanced (alloc cells a n) holders' := by
  have hnew : holders cells.length=0 := h.unallocated _ (Nat.le_refl _)
  have cases_of {i : Nat} {c : Cell α} (hc : (cells++[⟨a,n,0⟩])[i]?=some c) :
      (i≠cells.length ∧ cells[i]?=some c) ∨ (i=cells.length ∧ c=⟨a,n,0⟩) := by
    rcases Nat.lt_trichotomy i cells.length with hi | rfl | hi
    · rw [List.getElem?_append_left hi] at hc
      exact Or.inl ⟨hi.ne,hc⟩
    · simp at hc
      exact Or.inr ⟨rfl,hc.symm⟩
    · rw [List.getElem?_eq_none (by simp; omega)] at hc
      cases hc
  refine ⟨?_,?_,?_⟩
  · intro i c hc
    rw [hh]
    rcases cases_of hc with ⟨hi,hc⟩ | ⟨rfl,rfl⟩
    · rw [if_neg hi]
      exact h.ref i c hc
    · simp [hnew]
  · intro i c hc
    rw [hh]
    rcases cases_of hc with ⟨hi,hc⟩ | ⟨rfl,rfl⟩
    · rw [if_neg hi]
      exact h.deletes i c hc
    · simp [hnew,hn.ne']
  · intro i hi
    simp only [Cell.alloc,List.length_append,List.length_singleton] at hi
    rw [hh,if_neg (by omega)]
    exact h.unallocated i (by omega)

/-- One holder lets go. -/
theorem release (h : Balanced cells holders) {k : Nat}
    (hh : ∀ i,holders i=holders' i+if i=k then 1 else 0) : Balanced (release cells k) holders' := by
  refine ⟨?_,?_,?_⟩
  · intro i c hc
    obtain ⟨d,hd,⟨hi,rfl⟩ | ⟨rfl,rfl⟩⟩ := modify_cases hc
    · have hr := h.ref i c hd
      rwa [hh,if_neg hi] at hr
    · have hr := h.ref i d hd
      rw [hh,if_pos rfl] at hr
      change d.ref-1=_
      omega
  · intro i c hc
    obtain ⟨d,hd,⟨hi,rfl⟩ | ⟨rfl,rfl⟩⟩ := modify_cases hc
    · have hdel := h.deletes i c hd
      rwa [hh,if_neg hi] at hdel
    · have hr := h.ref i d hd
      have hdel := h.deletes i d hd
      rw [hh,if_pos rfl] at hr hdel
      rw [if_neg (Nat.succ_ne_zero _)] at hdel
      change (if d.ref=1 then d.deletes+1 else d.deletes)=_
      rw [hdel]
      by_cases hz : holders' i=0
      · rw [if_pos (by omega),if_pos hz]
      · rw [if_neg (by omega),if_neg hz]
  · intro i hi
    have hlen : cells.length ≤ i := by simpa [Cell.release] using hi
    have hz := h.unallocated i hlen
    rw [hh] at hz
    omega

/-- One holder more, of an object that somebody holds. -/
theorem retain (h : Balanced cells holders) {k : Nat} (hk : 0 < holders k)
    (hh : ∀ i,holders' i=holders i+if i=k then 1 else 0) : Balanced (retain cells k) holders' := by
  refine ⟨?_,?_,?_⟩
  · intro i c hc
    rw [hh]
    obtain ⟨d,hd,⟨hi,rfl⟩ | ⟨rfl,rfl⟩⟩ := modify_cases hc
    · rw [if_neg hi]
      exact h.ref i c hd
    · have hr := h.ref i d hd
      rw [if_pos rfl]
      change d.ref+1=_
      omega
  · intro i c hc
    rw [hh]
    obtain ⟨d,hd,⟨hi,rfl⟩ | ⟨rfl,rfl⟩⟩ := modify_cases hc
    · rw [if_neg hi]
      exact h.deletes i c hd
    · have hdel := h.deletes i d hd
      rw [if_neg hk.ne'] at hdel
      simpa using hdel
  · intro i hi
    have hlen : cells.length ≤ i := by simpa [Cell.retain] using hi
    have hz := h.unallocated i hlen
    have hik : i≠k := by
      rintro rfl
      omega
    rw [hh,if_neg hik,hz]

/-- Only the counts matter. -/
theorem of_modify (h : Balanced cells holders) {k : Nat} {f : Cell α → Cell α}
    (hf : ∀ c,(f c).ref=c.ref ∧ (f c).deletes=c.deletes) : Balanced (cells.modify k f) holders := by
  have cases_of {i : Nat} {c : Cell α} (hc : (cells.modify k f)[i]?=some c) :
      ∃ d,cells[i]?=some d ∧ c.ref=d.ref ∧ c.deletes=d.deletes := by
    obtain ⟨d,hd,⟨-,rfl⟩ | ⟨-,rfl⟩⟩ := modify_cases hc
    · exact ⟨c,hd,rfl,rfl⟩
    · exact ⟨d,hd,hf d⟩
  refine ⟨?_,?_,?_⟩
  · intro i c hc
    obtain ⟨d,hd,hr,-⟩ := cases_of hc
    rw [hr,h.ref i d hd]
  · intro i c hc
    obtain ⟨d,hd,-,hdel⟩ := cases_of hc
    rw [hdel,h.deletes i d hd]
  · intro i hi
    exact h.unallocated i (by simpa using hi)

theorem drop (h : Balanced cells holders) (destructor : α → α) {k : Nat}
    (hh : ∀ i,holders i=holders' i+if i=k then 1 else 0) :
    Balanced (drop destructor cells k) holders' := by
  apply (h.release hh).of_modify
  intro c
  split_ifs <;> exact ⟨rfl,rfl⟩

/-- Whoever holds an object finds it allocated, counted and not deleted. -/
theorem alive (h : Balanced cells holders) {i : Nat} (hi : 0 < holders i) :
    ∃ c,cells[i]?=some c ∧ c.deletes=0 ∧ 0 < c.ref := by
  have hlt : i < cells.length := by
    by_contra hge
    have := h.unallocated i (Nat.not_lt.mp hge)
    omega
  refine ⟨cells[i],List.getElem?_eq_getElem hlt,?_,?_⟩
  · rw [h.deletes i _ (List.getElem?_eq_getElem hlt),if_neg hi.ne']
  · rw [h.ref i _ (List.getElem?_eq_getElem hlt)]
    exact_mod_cast hi

end Balanced

/-- The contents before and after the destructor. -/
def Kept (live dead : α → Prop) (cells : List (Cell α)) : Prop :=
  ∀ (i : Nat) (c : Cell α),cells[i]?=some c →
    (c.deletes=0 → live c.content) ∧ (c.deletes≠0 → dead c.content)

namespace Kept

variable {live dead : α → Prop} {cells : List (Cell α)} {destructor : α → α}

theorem append (h : Kept live dead cells) {c : Cell α} (hlive : c.deletes=0 → live c.content)
    (hdead : c.deletes≠0 → dead c.content) : Kept live dead (cells++[c]) := by
  intro i d hd
  rcases List.mem_append.mp (List.mem_of_getElem? hd) with hmem | hmem
  · obtain ⟨j,hj⟩ := List.mem_iff_getElem?.mp hmem
    exact h j d hj
  · rw [List.mem_singleton.mp hmem]
    exact ⟨hlive,hdead⟩

theorem retain (h : Kept live dead cells) (k : Nat) : Kept live dead (retain cells k) := by
  intro i c hc
  obtain ⟨d,hd,⟨-,rfl⟩ | ⟨-,rfl⟩⟩ := modify_cases hc
  · exact h i c hd
  · exact h i d hd

theorem drop (h : Kept live dead cells) (hlive : ∀ a,live a → dead (destructor a))
    (hdead : ∀ a,dead a → dead (destructor a)) (k : Nat) :
    Kept live dead (drop destructor cells k) := by
  intro i c hc
  obtain ⟨d,hd,hc⟩ := modify_cases hc
  obtain ⟨e,he,hd⟩ := modify_cases hd
  obtain ⟨hl,hr⟩ := h i e he
  rcases hd with ⟨hk,rfl⟩ | ⟨rfl,rfl⟩
  · obtain ⟨-,rfl⟩ := hc.resolve_right fun hc => hk hc.1
    exact ⟨hl,hr⟩
  · obtain ⟨-,rfl⟩ := hc.resolve_left fun hc => hc.1 rfl
    by_cases hone : e.ref=1
    · -- the destructor has run
      have hcontent : dead (destructor e.content) := by
        by_cases hdel : e.deletes=0
        · exact hlive _ (hl hdel)
        · exact hdead _ (hr hdel)
      simpa [hone] using hcontent
    · have hne : e.ref-1≠0 := by omega
      simpa [hone,hne] using ⟨hl,hr⟩

end Kept

end Cell

end Acnet
