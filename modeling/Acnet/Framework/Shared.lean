import Mathlib.Data.List.Perm.Basic
import Acnet.Framework.Memory
import Acnet.Framework.Word

namespace Acnet

open History

variable {ℓ θ α : Type*}

/-- A shared object with its count at location `x`. Every reference is in a hand, given by what
that hand knows; the count is the number of references, and whatever was done with the object is
known to a hand or carried by the count. -/
structure Shared (x : ℓ) (h : History ℓ θ Nat) (c : Plain θ α) (base : Nat)
    (last : Write ℓ θ Nat) (hands : List (View ℓ θ)) : Prop where
  tail : Tail h base last
  count : last.value=hands.length
  known : ∀ v∈hands,base ≤ v.1 x
  covered : ∀ t,c.read t ≤ last.view.2 t ∨ ∃ v∈hands,c.read t ≤ v.2 t
  unwritten : c.write=⊥

namespace Shared

variable {x : ℓ} {h : History ℓ θ Nat} {c : Plain θ α} {base : Nat} {last : Write ℓ θ Nat}
  {hands hands' : List (View ℓ θ)} {v : View ℓ θ}

theorem perm (hs : Shared x h c base last hands) (hp : hands.Perm hands') :
    Shared x h c base last hands' where
  tail := hs.tail
  count := hs.count.trans hp.length_eq
  known v hv := hs.known v (hp.mem_iff.mpr hv)
  covered t := (hs.covered t).imp_right fun ⟨v,hv,ht⟩ => ⟨v,hp.mem_iff.mp hv,ht⟩
  unwritten := hs.unwritten

/-- The hands learn something. -/
theorem learn (hs : Shared x h c base last hands) (hl : List.Forall₂ (· ≤ ·) hands hands') :
    Shared x h c base last hands' where
  tail := hs.tail
  count := hs.count.trans hl.length_eq
  known v' hv' := by
    obtain ⟨i,hi,rfl⟩ := List.mem_iff_getElem.mp hv'
    have hi' : i < hands.length := hl.length_eq ▸ hi
    have hle : hands[i] ≤ hands'[i] := hl.get hi' hi
    exact (hs.known _ (List.getElem_mem hi')).trans (hle.1 x)
  covered t := by
    refine (hs.covered t).imp_right ?_
    rintro ⟨v,hv,ht⟩
    obtain ⟨i,hi,rfl⟩ := List.mem_iff_getElem.mp hv
    have hi' : i < hands'.length := hl.length_eq ▸ hi
    have hle : hands[i] ≤ hands'[i] := hl.get hi hi'
    exact ⟨_,List.getElem_mem hi',ht.trans (hle.2 t)⟩
  unwritten := hs.unwritten

/-- A hand uses the object; it has counted the access already. -/
theorem access [DecidableEq θ] (hs : Shared x h c base last hands) (hv : v∈hands) (i : θ) :
    Shared x h (c.noteRead i v) base last hands where
  tail := hs.tail
  count := hs.count
  known := hs.known
  covered t := by
    by_cases ht : t=i
    · subst t
      exact Or.inr ⟨v,hv,by simp [Plain.noteRead]⟩
    · simpa [Plain.noteRead,ht] using hs.covered t
  unwritten := hs.unwritten

/-- The count is stored for `n` hands, by the only one that has used the object. -/
theorem stored [DecidableEq ℓ] {time n : Nat} (order : MemoryOrder)
    (ht : Tail h 0 last) (hfresh : ∀ w∈h,w.time≠time) (hr : c.read ≤ v.2) (hw : c.write=⊥)
    (hn : 0 < n) :
    Shared x (h++[⟨time,n,carried x order time (v.observe x time)⟩]) c time
      ⟨time,n,carried x order time (v.observe x time)⟩
      (List.replicate n (v.observe x time)) where
  tail := (ht.concat_store (u := ⟨time,n,carried x order time (v.observe x time)⟩) hfresh).2
  count := by simp
  known u hu := by
    rw [List.eq_of_mem_replicate hu,View.observe_self]
    exact le_max_right _ _
  covered t := Or.inr ⟨_,List.mem_replicate.mpr ⟨hn.ne',rfl⟩,hr t⟩
  unwritten := hw

/-- A hand gives up its reference. The one that finds the count at one may delete the object: all
uses of it happened before. -/
theorem release [DecidableEq ℓ] {k : Nat} {f : Nat → Nat} {r : Nat×History ℓ θ Nat×View ℓ θ}
    (hs : Shared x h c base last (v::hands)) (hf : f (hands.length+1)=hands.length)
    (hu : update x .acqRel h v k f=some r) :
    r.1=hands.length+1 ∧ v ≤ r.2.2 ∧ (hands=[] → c.Writable r.2.2) ∧
      ∃ last',Shared x r.2.1 c base last' hands := by
  obtain ⟨w,hw,ht,hfresh,rfl⟩ := update_cases hu
  have hbase := hs.known v (List.mem_cons_self ..)
  obtain rfl : w=last := by
    rcases hs.tail.reads (List.mem_of_getElem? hw) hfresh with he | hlt
    · exact he
    · omega
  have hcount := hs.count
  rw [List.length_cons] at hcount
  generalize hv' : (read x .acqRel w v).observe x (w.time+1)=v'
  have hle : v ≤ v' := hv' ▸ (le_read w).trans View.le_observe
  have hwle : w.view ≤ v' := hv' ▸ (view_le_read rfl w).trans View.le_observe
  refine ⟨hcount,hle,fun hnil => ⟨?_,fun t => ?_⟩,?_⟩
  · rw [hs.unwritten]
    exact bot_le
  · subst hnil
    rcases hs.covered t with hc | ⟨u,hu,hc⟩
    · exact hc.trans (hwle.2 t)
    · rw [List.mem_singleton.mp hu] at hc
      exact hc.trans (hle.2 t)
  · refine ⟨⟨w.time+1,f w.value,w.view ⊔ carried x .acqRel (w.time+1) v'⟩,
      hs.tail.concat_last rfl le_sup_left,?_,fun u hu => hs.known u (List.mem_cons_of_mem _ hu),
      fun t => ?_,hs.unwritten⟩
    · exact (congrArg f hcount).trans hf
    · have hright : v' ≤ w.view ⊔ carried x .acqRel (w.time+1) v' := le_sup_right
      rcases hs.covered t with hc | ⟨u,hu,hc⟩
      · exact Or.inl ((hc.trans (hwle.2 t)).trans (hright.2 t))
      · rcases List.mem_cons.mp hu with rfl | hu
        · exact Or.inl ((hc.trans (hle.2 t)).trans (hright.2 t))
        · exact Or.inr ⟨u,hu,hc⟩

end Shared

/-- What becomes of a shared object: it is in use, or about to be deleted by the one that gave up
the last reference, or gone. -/
inductive Lifespan (x : ℓ) (h : History ℓ θ Nat) (c : Plain θ α) (deletes : Nat)
    (hands deleters : List (View ℓ θ)) : Prop where
  | used (base : Nat) (last : Write ℓ θ Nat) (shared : Shared x h c base last hands)
      (word : hands.length < 2^64) (held : hands≠[]) (undeleted : deletes=0)
      (nobody : deleters=[])
  | dying (v : View ℓ θ) (unheld : hands=[]) (undeleted : deletes=0) (one : deleters=[v])
      (ordered : c.Writable v)
  | gone (unheld : hands=[]) (deleted : deletes=1) (nobody : deleters=[])

namespace Lifespan

variable {x : ℓ} {h : History ℓ θ Nat} {c c' : Plain θ α} {deletes : Nat}
  {hands hands' deleters deleters' : List (View ℓ θ)} {v : View ℓ θ}

theorem perm (hp : Lifespan x h c deletes hands deleters) (hh : hands.Perm hands')
    (hd : deleters.Perm deleters') : Lifespan x h c deletes hands' deleters' := by
  cases hp with
  | used base last shared word held undeleted nobody =>
    subst nobody
    refine .used base last (shared.perm hh) (hh.length_eq ▸ word) ?_ undeleted
      (List.nil_perm.mp hd)
    rintro rfl
    exact held (List.perm_nil.mp hh)
  | dying v unheld undeleted one ordered =>
    subst unheld
    subst one
    exact .dying v (List.nil_perm.mp hh) undeleted (List.singleton_perm.mp hd).symm ordered
  | gone unheld deleted nobody =>
    subst unheld
    subst nobody
    exact .gone (List.nil_perm.mp hh) deleted (List.nil_perm.mp hd)

theorem learn (hp : Lifespan x h c deletes hands deleters)
    (hh : List.Forall₂ (· ≤ ·) hands hands') (hd : List.Forall₂ (· ≤ ·) deleters deleters') :
    Lifespan x h c deletes hands' deleters' := by
  cases hp with
  | used base last shared word held undeleted nobody =>
    subst nobody
    refine .used base last (shared.learn hh) (hh.length_eq ▸ word) ?_ undeleted
      (List.forall₂_nil_left_iff.mp hd)
    rintro rfl
    exact held (List.forall₂_nil_right_iff.mp hh)
  | dying v unheld undeleted one ordered =>
    subst unheld
    subst one
    obtain ⟨v',l,hv,hl,rfl⟩ := List.forall₂_cons_left_iff.mp hd
    rw [List.forall₂_nil_left_iff.mp hl]
    exact .dying v' (List.forall₂_nil_left_iff.mp hh) undeleted rfl
      ⟨ordered.1.trans hv.2,ordered.2.trans hv.2⟩
  | gone unheld deleted nobody =>
    subst unheld
    subst nobody
    exact .gone (List.forall₂_nil_left_iff.mp hh) deleted (List.forall₂_nil_left_iff.mp hd)

/-- Whoever has a reference uses an object that is not deleted. -/
theorem undeleted_of_mem (hp : Lifespan x h c deletes hands deleters) (hv : v∈hands) :
    deletes=0 := by
  cases hp with
  | used base last shared word held undeleted nobody => exact undeleted
  | dying v unheld undeleted one ordered => exact undeleted
  | gone unheld deleted nobody =>
    subst unheld
    cases hv

theorem access [DecidableEq θ] (hp : Lifespan x h c deletes hands deleters) (hv : v∈hands) (i : θ) :
    Lifespan x h (c.noteRead i v) deletes hands deleters := by
  cases hp with
  | used base last shared word held undeleted nobody =>
    exact .used base last (shared.access hv i) word held undeleted nobody
  | dying v unheld undeleted one ordered | gone unheld deleted nobody =>
    subst unheld
    cases hv

/-- A hand gives up its reference; if it finds the count at one, it has to delete the object. -/
theorem release [DecidableEq ℓ] {k : Nat} {f : Nat → Nat} {r : Nat×History ℓ θ Nat×View ℓ θ}
    (hp : Lifespan x h c deletes (v::hands) deleters)
    (hf : ∀ n,0 < n → n < 2^64 → f n=n-1) (hu : update x .acqRel h v k f=some r) :
    v ≤ r.2.2 ∧ (r.1=1 ↔ hands=[]) ∧
      Lifespan x r.2.1 c deletes hands (if r.1=1 then r.2.2::deleters else deleters) := by
  cases hp with
  | used base last shared word held undeleted nobody =>
    have hlen := hf (hands.length+1) (Nat.succ_pos _) word
    obtain ⟨hfound,hv,hdel,last',hshared⟩ := shared.release hlen hu
    subst nobody
    rw [hfound]
    by_cases hnil : hands=[]
    · subst hnil
      exact ⟨hv,by simp,.dying r.2.2 rfl undeleted (by simp) (hdel rfl)⟩
    · have hne : hands.length≠0 := by simpa using hnil
      refine ⟨hv,by simp,.used base last' hshared ?_ hnil undeleted (by simp [hnil])⟩
      simp only [List.length_cons] at word
      omega
  | dying v unheld undeleted one ordered | gone unheld deleted nobody => cases unheld

/-- The one that gave up the last reference deletes the object, for the first time and after all
uses. -/
theorem delete (hp : Lifespan x h c deletes hands (v::deleters)) (d : Plain θ α) :
    deletes=0 ∧ c.Writable v ∧ Lifespan x h d (deletes+1) hands deleters := by
  cases hp with
  | used base last shared word held undeleted nobody => cases nobody
  | dying v' unheld undeleted one ordered =>
    obtain ⟨rfl,rfl⟩ := List.cons.inj one
    exact ⟨undeleted,ordered,.gone unheld (by rw [undeleted]) rfl⟩
  | gone unheld deleted nobody => cases nobody

/-- Without references and without somebody about to delete it, the object has been deleted. -/
theorem deleted (hp : Lifespan x h c deletes [] []) : deletes=1 := by
  cases hp with
  | used base last shared word held undeleted nobody => exact absurd rfl held
  | dying v unheld undeleted one ordered => cases one
  | gone unheld deleted nobody => exact deleted

end Lifespan

/-- One entry of a list is exchanged; what is collected from the others stays. -/
theorem filterMap_set {α β : Type*} (f : α → Option β) {l : List α} {i : Nat} {a : α}
    (h : l[i]?=some a) (b : α) :
    (l.filterMap f).Perm ((f a).toList++(l.eraseIdx i).filterMap f) ∧
      ((l.set i b).filterMap f).Perm ((f b).toList++(l.eraseIdx i).filterMap f) := by
  obtain ⟨hi,rfl⟩ := List.getElem?_eq_some_iff.mp h
  have hcons (c : α) (r : List α) : (c::r).filterMap f=(f c).toList++r.filterMap f := by
    cases hc : f c <;> simp [hc]
  constructor
  · rw [← hcons]
    exact (List.getElem_cons_eraseIdx_perm hi).symm.filterMap f
  · rw [← hcons]
    exact (List.set_perm_cons_eraseIdx hi b).filterMap f

end Acnet
