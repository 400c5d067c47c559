import Mathlib.Data.List.Pairwise
import Mathlib.Logic.Function.Basic
import Mathlib.Order.BoundedOrder.Basic
import Mathlib.Order.Lattice
import Mathlib.Order.Nat

namespace Acnet

/-- What a thread knows, ordered pointwise: of every atomic location the time of a write, of
every thread the number of its plain accesses that happened before. -/
abbrev View (ℓ θ : Type*) := (ℓ → Nat)×(θ → Nat)

/-- `std::memory_order` of one access; the stronger ones are not needed. -/
inductive MemoryOrder where
  | relaxed
  | acquire
  | release
  | acqRel
  deriving DecidableEq

def MemoryOrder.acquires : MemoryOrder → Bool
  | .acquire | .acqRel => true
  | _ => false

def MemoryOrder.releases : MemoryOrder → Bool
  | .release | .acqRel => true
  | _ => false

variable {ℓ θ α : Type*}

namespace View

section Observe

variable [DecidableEq ℓ]

def observe (v : View ℓ θ) (x : ℓ) (time : Nat) : View ℓ θ :=
  (Function.update v.1 x (max (v.1 x) time),v.2)

variable {v u : View ℓ θ} {x y : ℓ} {time : Nat}

theorem observe_self : (v.observe x time).1 x=max (v.1 x) time := by
  simp [observe]

theorem observe_of_ne (h : y≠x) : (v.observe x time).1 y=v.1 y := by
  simp [observe,h]

theorem le_observe : v ≤ v.observe x time := by
  refine ⟨fun y => ?_,le_rfl⟩
  by_cases h : y=x
  · rw [h,observe_self]
    exact le_max_left _ _
  · rw [observe_of_ne h]

theorem observe_le (h : v ≤ u) (ht : time ≤ u.1 x) : v.observe x time ≤ u := by
  refine ⟨fun y => ?_,h.2⟩
  by_cases hy : y=x
  · rw [hy,observe_self]
    exact max_le (h.1 x) ht
  · rw [observe_of_ne hy]
    exact h.1 y

end Observe

section Tick

variable [DecidableEq θ]

/-- Thread `i` counts one more access of its own. -/
def tick (v : View ℓ θ) (i : θ) : View ℓ θ := (v.1,Function.update v.2 i (v.2 i+1))

theorem le_tick {v : View ℓ θ} {i : θ} : v ≤ v.tick i := by
  refine ⟨le_rfl,fun j => ?_⟩
  by_cases h : j=i
  · simp [tick,h]
  · simp [tick,h]

end Tick

/-- A `seq_cst` fence: the thread learns of every location what was known at earlier such fences.
That orders no plain accesses. -/
def fence (v : View ℓ θ) (sc : ℓ → Nat) : View ℓ θ := (v.1 ⊔ sc,v.2)

theorem le_fence {v : View ℓ θ} {sc : ℓ → Nat} : v ≤ v.fence sc := ⟨le_sup_left,le_rfl⟩

theorem sc_le_fence {v : View ℓ θ} {sc : ℓ → Nat} : sc ≤ (v.fence sc).1 := le_sup_right

end View

/-- One write of an atomic location. `view` is what a thread learns by acquiring it. -/
structure Write (ℓ θ α : Type*) where
  time : Nat
  value : α
  view : View ℓ θ

/-- The writes of one location in the order in which they were issued; their times give the
modification order. -/
abbrev History (ℓ θ α : Type*) := List (Write ℓ θ α)

namespace History

/-- The history of a location that is initialised before the threads start. -/
def initial (value : α) : History ℓ θ α := [⟨0,value,⊥⟩]

/-- The thread has seen every write of `x`. -/
def Seen (x : ℓ) (h : History ℓ θ α) (v : View ℓ θ) : Prop := ∀ w∈h,w.time ≤ v.1 x

/-- What the thread has seen of `x` it has acquired. -/
def Acquired (x : ℓ) (h : History ℓ θ α) (v : View ℓ θ) : Prop :=
  ∀ w∈h,w.time ≤ v.1 x → w.view ≤ v

/-- The writes of `x` were issued in the order of their times, each by a thread that knew what
the earlier ones carry. -/
structure Chain (x : ℓ) (h : History ℓ θ α) : Prop where
  ordered : h.Pairwise fun w u => w.time < u.time ∧ w.view ≤ u.view
  own : ∀ w∈h,w.view.1 x ≤ w.time

variable {x : ℓ} {h : History ℓ θ α} {v v' : View ℓ θ} {w u : Write ℓ θ α} {i j k : Nat}

theorem Chain.time_lt (hc : Chain x h) (hw : h[i]?=some w) (hu : h[j]?=some u) (hij : i < j) :
    w.time < u.time ∧ w.view ≤ u.view := by
  obtain ⟨hi,rfl⟩ := List.getElem?_eq_some_iff.mp hw
  obtain ⟨hj,rfl⟩ := List.getElem?_eq_some_iff.mp hu
  exact List.pairwise_iff_getElem.mp hc.ordered i j hi hj hij

/-- The index of a write grows with its time. -/
theorem Chain.index_le (hc : Chain x h) (hw : h[i]?=some w) (hu : h[j]?=some u)
    (ht : w.time ≤ u.time) : i ≤ j := by
  by_contra hij
  have := (hc.time_lt hu hw (by omega)).1
  omega

theorem Chain.view_le (hc : Chain x h) (hw : h[i]?=some w) (hu : h[j]?=some u) (hij : i ≤ j) :
    w.view ≤ u.view := by
  rcases Nat.lt_or_eq_of_le hij with hlt | rfl
  · exact (hc.time_lt hw hu hlt).2
  · rw [Option.some.inj (hw.symm.trans hu)]

theorem chain_initial (value : α) : Chain x (initial value : History ℓ θ α) where
  ordered := List.pairwise_singleton _ _
  own := by simp [initial]

theorem seen_initial (value : α) (v : View ℓ θ) :
    Seen x (initial value : History ℓ θ α) v := by
  simp [initial,Seen]

theorem acquired_initial (value : α) (v : View ℓ θ) :
    Acquired x (initial value : History ℓ θ α) v := by
  simp [initial,Acquired]

/-- A thread that has seen every write of a location loads the last one. -/
theorem Chain.last_of_load (hc : Chain x h) (hs : Seen x h v) (hw : h[k]?=some w)
    (ht : v.1 x ≤ w.time) : k+1=h.length := by
  obtain ⟨hk,-⟩ := List.getElem?_eq_some_iff.mp hw
  by_contra hne
  obtain ⟨u,hu⟩ : ∃ u,h[k+1]?=some u := ⟨_,List.getElem?_eq_getElem (by omega)⟩
  have hlt := (hc.time_lt hw hu (Nat.lt_succ_self k)).1
  have hle := hs u (List.mem_of_getElem? hu)
  omega

/-- What is observed elsewhere does not matter for what was acquired of `x`. -/
theorem Acquired.congr (hv : Acquired x h v) (hle : v ≤ v') (hx : v'.1 x=v.1 x) :
    Acquired x h v' :=
  fun w hw ht => (hv w hw (hx ▸ ht)).trans hle

/-- A releasing store by a thread that knows all earlier writes extends the chain. -/
theorem Chain.concat (hc : Chain x h) (hlt : ∀ w∈h,w.time < u.time ∧ w.view ≤ u.view)
    (hown : u.view.1 x ≤ u.time) : Chain x (h++[u]) where
  ordered := by
    rw [List.pairwise_append]
    refine ⟨hc.ordered,List.pairwise_singleton _ _,?_⟩
    intro w hw b hb
    rw [List.mem_singleton.mp hb]
    exact hlt w hw
  own := by
    intro w hw
    rcases List.mem_append.mp hw with hw | hw
    · exact hc.own w hw
    · rw [List.mem_singleton.mp hw]
      exact hown

/-- The last write of a chain is the newest one. -/
theorem Chain.le_last (hc : Chain x h) (hu : h.getLast?=some u) (hw : w∈h) :
    w.time ≤ u.time ∧ w.view ≤ u.view := by
  obtain ⟨i,hi⟩ := List.getElem?_of_mem hw
  rw [List.getLast?_eq_getElem?] at hu
  have hlen := (List.getElem?_eq_some_iff.mp hi).1
  rcases Nat.lt_or_ge i (h.length-1) with hlt | hge
  · exact ⟨(hc.time_lt hi hu hlt).1.le,(hc.time_lt hi hu hlt).2⟩
  · obtain rfl : i=h.length-1 := by omega
    rw [Option.some.inj (hi.symm.trans hu)]
    exact ⟨le_rfl,le_rfl⟩

/-- Only the last write of a chain is not older than it. -/
theorem Chain.eq_last (hc : Chain x h) (hu : h.getLast?=some u) (hw : w∈h)
    (ht : u.time ≤ w.time) : w=u := by
  obtain ⟨i,hi⟩ := List.getElem?_of_mem hw
  rw [List.getLast?_eq_getElem?] at hu
  have hle := hc.index_le hu hi ht
  have hlen := (List.getElem?_eq_some_iff.mp hi).1
  obtain rfl : i=h.length-1 := by omega
  exact Option.some.inj (hi.symm.trans hu)

theorem Chain.concat_last (hc : Chain x h) (hw : h.getLast?=some w) (ht : w.time < u.time)
    (hv : w.view ≤ u.view) (hown : u.view.1 x ≤ u.time) : Chain x (h++[u]) := by
  refine hc.concat (fun b hb => ?_) hown
  obtain ⟨ht',hv'⟩ := hc.le_last hw hb
  exact ⟨ht'.trans_lt ht,hv'.trans hv⟩

/-- From time `base` on the writes of the location form one release sequence that ends with
`last`: after the store at `base` it was only written by read-modify-writes. -/
structure Tail (h : History ℓ θ α) (base : Nat) (last : Write ℓ θ α) : Prop where
  mem : last∈h
  le : ∀ w∈h,w.time ≤ last.time
  base_le : base ≤ last.time
  unique : ∀ w∈h,∀ u∈h,w.time=u.time → w=u
  filled : ∀ t,base ≤ t → t ≤ last.time → ∃ w∈h,w.time=t
  carried : ∀ w∈h,base ≤ w.time → w.view ≤ last.view

namespace Tail

variable {base : Nat} {last : Write ℓ θ α}

theorem initial (value : α) :
    Tail (History.initial value : History ℓ θ α) 0 ⟨0,value,⊥⟩ where
  mem := List.mem_singleton_self _
  le w hw := by rw [List.mem_singleton.mp hw]
  base_le := le_rfl
  unique w hw u hu _ := (List.mem_singleton.mp hw).trans (List.mem_singleton.mp hu).symm
  filled t _ ht := ⟨_,List.mem_singleton_self _,(Nat.le_zero.mp ht).symm⟩
  carried w hw _ := by rw [List.mem_singleton.mp hw]

/-- A read-modify-write reads the last write, or one from before the release sequence. -/
theorem reads (ht : Tail h base last) (hw : w∈h) (hfresh : ∀ u∈h,u.time≠w.time+1) :
    w=last ∨ w.time+1 < base := by
  rcases Nat.lt_or_ge (w.time+1) base with hlt | hge
  · exact Or.inr hlt
  · refine Or.inl (ht.unique w hw last ht.mem ?_)
    by_contra hne
    have hle := ht.le w hw
    obtain ⟨u,hu,he⟩ := ht.filled (w.time+1) hge (by omega)
    exact hfresh u hu he

theorem unique_concat (ht : Tail h base last) (hfresh : ∀ w∈h,w.time≠u.time) :
    ∀ w∈h++[u],∀ w'∈h++[u],w.time=w'.time → w=w' := by
  intro w hw w' hw' he
  rcases List.mem_append.mp hw with hw | hw <;> rcases List.mem_append.mp hw' with hw' | hw'
  · exact ht.unique w hw w' hw' he
  · rw [List.mem_singleton.mp hw'] at he
    exact absurd he (hfresh w hw)
  · rw [List.mem_singleton.mp hw] at he
    exact absurd he.symm (hfresh w' hw')
  · exact (List.mem_singleton.mp hw).trans (List.mem_singleton.mp hw').symm

/-- A write before the release sequence does not matter to it. -/
theorem concat_old (ht : Tail h base last) (hu : u.time < base)
    (hfresh : ∀ w∈h,w.time≠u.time) : Tail (h++[u]) base last where
  mem := List.mem_append_left _ ht.mem
  le w hw := by
    rcases List.mem_append.mp hw with hw | hw
    · exact ht.le w hw
    · rw [List.mem_singleton.mp hw]
      exact hu.le.trans ht.base_le
  base_le := ht.base_le
  unique := ht.unique_concat hfresh
  filled t hb hl := by
    obtain ⟨w,hw,he⟩ := ht.filled t hb hl
    exact ⟨w,List.mem_append_left _ hw,he⟩
  carried w hw hb := by
    rcases List.mem_append.mp hw with hw | hw
    · exact ht.carried w hw hb
    · rw [List.mem_singleton.mp hw] at hb
      omega

/-- A read-modify-write of the last write prolongs the release sequence. -/
theorem concat_last (ht : Tail h base last) (hu : u.time=last.time+1) (hv : last.view ≤ u.view) :
    Tail (h++[u]) base u where
  mem := by simp
  le w hw := by
    rcases List.mem_append.mp hw with hw | hw
    · have := ht.le w hw
      omega
    · rw [List.mem_singleton.mp hw]
  base_le := by
    have := ht.base_le
    omega
  unique := by
    refine ht.unique_concat fun w hw he => ?_
    have := ht.le w hw
    omega
  filled t hb hl := by
    rcases Nat.lt_or_ge last.time t with hlt | hge
    · exact ⟨u,by simp,by omega⟩
    · obtain ⟨w,hw,he⟩ := ht.filled t hb hge
      exact ⟨w,List.mem_append_left _ hw,he⟩
  carried w hw hb := by
    rcases List.mem_append.mp hw with hw | hw
    · exact (ht.carried w hw hb).trans hv
    · rw [List.mem_singleton.mp hw]

/-- A plain store starts a new release sequence: it comes after all writes of one that started
with the location. -/
theorem concat_store (ht : Tail h 0 last) (hfresh : ∀ w∈h,w.time≠u.time) :
    last.time < u.time ∧ Tail (h++[u]) u.time u := by
  have hlt : last.time < u.time := by
    by_contra hge
    obtain ⟨w,hw,he⟩ := ht.filled u.time (Nat.zero_le _) (by omega)
    exact hfresh w hw he
  refine ⟨hlt,by simp,?_,le_rfl,ht.unique_concat hfresh,?_,?_⟩
  · intro w hw
    rcases List.mem_append.mp hw with hw | hw
    · exact (ht.le w hw).trans hlt.le
    · rw [List.mem_singleton.mp hw]
  · intro t hb hl
    exact ⟨u,by simp,by omega⟩
  · intro w hw hb
    rcases List.mem_append.mp hw with hw | hw
    · have := ht.le w hw
      omega
    · rw [List.mem_singleton.mp hw]

end Tail

section Access

variable [DecidableEq ℓ]

/-- What a thread knows after it has read the write. -/
def read (x : ℓ) (order : MemoryOrder) (w : Write ℓ θ α) (v : View ℓ θ) : View ℓ θ :=
  if order.acquires then v.observe x w.time ⊔ w.view else v.observe x w.time

/-- What a write carries that is issued in view `v`. -/
def carried (x : ℓ) (order : MemoryOrder) (time : Nat) (v : View ℓ θ) : View ℓ θ :=
  if order.releases then v else View.observe ⊥ x time

/-- A load of `x` from the `k`-th write: any write that is not older than what was seen. -/
def load (x : ℓ) (order : MemoryOrder) (h : History ℓ θ α) (v : View ℓ θ) (k : Nat) :
    Option (α×View ℓ θ) :=
  match h[k]? with
  | none => none
  | some w => if v.1 x ≤ w.time then some (w.value,read x order w v) else none

/-- A store to `x` at a free time after what was seen. -/
def store (x : ℓ) (order : MemoryOrder) (h : History ℓ θ α) (v : View ℓ θ) (time : Nat)
    (value : α) : Option (History ℓ θ α×View ℓ θ) :=
  if v.1 x < time ∧ ∀ w∈h,w.time≠time then
    let v' := v.observe x time
    some (h++[⟨time,value,carried x order time v'⟩],v')
  else none

/-- A relaxed store to `x` by a thread whose last release fence was issued in view `rel`. -/
def storeAfter (x : ℓ) (h : History ℓ θ α) (v rel : View ℓ θ) (time : Nat) (value : α) :
    Option (History ℓ θ α×View ℓ θ) :=
  if v.1 x < time ∧ ∀ w∈h,w.time≠time then
    some (h++[⟨time,value,rel.observe x time⟩],v.observe x time)
  else none

/-- A read-modify-write of `x`: it writes right after the `k`-th write, which it reads, and
carries on what that one carried. -/
def update (x : ℓ) (order : MemoryOrder) (h : History ℓ θ α) (v : View ℓ θ) (k : Nat)
    (f : α → α) : Option (α×History ℓ θ α×View ℓ θ) :=
  match h[k]? with
  | none => none
  | some w =>
      if v.1 x ≤ w.time ∧ ∀ u∈h,u.time≠w.time+1 then
        let v' := (read x order w v).observe x (w.time+1)
        some (w.value,h++[⟨w.time+1,f w.value,w.view ⊔ carried x order (w.time+1) v'⟩],v')
      else none

variable {x : ℓ} {order : MemoryOrder} {h : History ℓ θ α} {v : View ℓ θ} {k : Nat}

theorem le_read (w : Write ℓ θ α) : v ≤ read x order w v := by
  unfold read
  split_ifs
  · exact View.le_observe.trans le_sup_left
  · exact View.le_observe

theorem time_le_read (w : Write ℓ θ α) : w.time ≤ (read x order w v).1 x := by
  have ho : w.time ≤ (v.observe x w.time).1 x := by
    rw [View.observe_self]
    exact le_max_right _ _
  unfold read
  split_ifs
  · have hs : v.observe x w.time ≤ v.observe x w.time ⊔ w.view := le_sup_left
    exact ho.trans (hs.1 x)
  · exact ho

theorem view_le_read (ho : order.acquires=true) (w : Write ℓ θ α) : w.view ≤ read x order w v := by
  rw [read,if_pos ho]
  exact le_sup_right

theorem load_cases {r : α×View ℓ θ} (hl : load x order h v k=some r) :
    ∃ w,h[k]?=some w ∧ v.1 x ≤ w.time ∧ r=(w.value,read x order w v) := by
  unfold load at hl
  split at hl
  · cases hl
  · rename_i w hw
    split_ifs at hl with ht
    exact ⟨w,hw,ht,(Option.some.inj hl).symm⟩

theorem store_cases {time : Nat} {value : α} {r : History ℓ θ α×View ℓ θ}
    (hs : store x order h v time value=some r) :
    v.1 x < time ∧ (∀ w∈h,w.time≠time) ∧
      r=(h++[⟨time,value,carried x order time (v.observe x time)⟩],v.observe x time) := by
  unfold store at hs
  split_ifs at hs with ht
  exact ⟨ht.1,ht.2,(Option.some.inj hs).symm⟩

theorem storeAfter_cases {rel : View ℓ θ} {time : Nat} {value : α}
    {r : History ℓ θ α×View ℓ θ} (hs : storeAfter x h v rel time value=some r) :
    v.1 x < time ∧ r=(h++[⟨time,value,rel.observe x time⟩],v.observe x time) := by
  unfold storeAfter at hs
  split_ifs at hs with ht
  exact ⟨ht.1,(Option.some.inj hs).symm⟩

/-- An acquiring load of the location keeps what was seen acquired. -/
theorem Acquired.read (hc : Chain x h) (hv : Acquired x h v) (ho : order.acquires=true)
    {w : Write ℓ θ α} (hw : h[k]?=some w) : Acquired x h (History.read x order w v) := by
  intro u hu ht
  obtain ⟨j,hj⟩ := List.getElem?_of_mem hu
  have hown := hc.own w (List.mem_of_getElem? hw)
  have hx : (History.read x order w v).1 x=max (v.1 x) w.time := by
    rw [History.read,if_pos ho]
    change max ((v.observe x w.time).1 x) (w.view.1 x)=_
    rw [View.observe_self]
    exact max_eq_left (hown.trans (le_max_right _ _))
  rw [hx] at ht
  rcases le_sup_iff.mp ht with ht | ht
  · exact (hv u hu ht).trans (le_read w)
  · exact (hc.view_le hj hw (hc.index_le hj hw ht)).trans (view_le_read ho w)

theorem update_cases {f : α → α} {r : α×History ℓ θ α×View ℓ θ}
    (hu : update x order h v k f=some r) :
    ∃ w,h[k]?=some w ∧ v.1 x ≤ w.time ∧ (∀ u∈h,u.time≠w.time+1) ∧
      r=(w.value,h++[⟨w.time+1,f w.value,w.view ⊔ carried x order (w.time+1)
        ((read x order w v).observe x (w.time+1))⟩],
        (read x order w v).observe x (w.time+1)) := by
  unfold update at hu
  split at hu
  · cases hu
  · rename_i w hw
    split_ifs at hu with ht
    exact ⟨w,hw,ht.1,ht.2,(Option.some.inj hu).symm⟩

/-- The location `x` has one writer, in view `v`, that stores relaxed after release fences, the
last one in view `rel`. -/
structure Sole (x : ℓ) (h : History ℓ θ α) (v rel : View ℓ θ) : Prop where
  chain : Chain x h
  seen : Seen x h v
  carried : ∀ w∈h,w.view ≤ rel.observe x w.time

namespace Sole

variable {rel rel' v' : View ℓ θ} {w : Write ℓ θ α}

theorem initial (value : α) : Sole x (History.initial value : History ℓ θ α) ⊥ ⊥ where
  chain := chain_initial value
  seen := seen_initial value _
  carried := by simp [History.initial]

theorem mono (hs : Sole x h v rel) (hv : v ≤ v') (hr : rel ≤ rel') : Sole x h v' rel' where
  chain := hs.chain
  seen w hw := (hs.seen w hw).trans (hv.1 x)
  carried w hw := (hs.carried w hw).trans
    (View.observe_le (hr.trans View.le_observe) (by rw [View.observe_self]; exact le_max_right _ _))

theorem store {time : Nat} (hs : Sole x h v rel) (ht : v.1 x < time) (hr : rel.1 x ≤ v.1 x)
    (value : α) : Sole x (h++[⟨time,value,rel.observe x time⟩]) (v.observe x time) rel where
  chain := by
    refine hs.chain.concat (fun w hw => ?_) ?_
    · have hlt := (hs.seen w hw).trans_lt ht
      refine ⟨hlt,(hs.carried w hw).trans (View.observe_le View.le_observe ?_)⟩
      rw [View.observe_self]
      exact hlt.le.trans (le_max_right _ _)
    · rw [View.observe_self]
      exact max_le (hr.trans ht.le) le_rfl
  seen w hw := by
    rw [View.observe_self]
    rcases List.mem_append.mp hw with hw | hw
    · exact (hs.seen w hw).trans (le_max_left _ _)
    · rw [List.mem_singleton.mp hw]
      exact le_max_right _ _
  carried w hw := by
    rcases List.mem_append.mp hw with hw | hw
    · exact hs.carried w hw
    · rw [List.mem_singleton.mp hw]

/-- The writer loads what it wrote last. -/
theorem load_last (hs : Sole x h v rel) (hw : h[k]?=some w) (ht : v.1 x ≤ w.time) :
    h.getLast?=some w := by
  have hk := hs.chain.last_of_load hs.seen hw ht
  rw [List.getLast?_eq_getElem?,← hk]
  exact hw

end Sole

/-- The location `x` has one writer, in view `own`, that releases every write, and a reader, in
view `other`, that acquires. -/
structure Published (x : ℓ) (h : History ℓ θ α) (own other : View ℓ θ) : Prop where
  chain : Chain x h
  seen : Seen x h own
  known : ∀ w∈h,w.view ≤ own
  acquired : Acquired x h other
  bound : other.1 x ≤ own.1 x

namespace Published

variable {own other v' : View ℓ θ} {w : Write ℓ θ α}

omit [DecidableEq ℓ] in
theorem initial (value : α) : Published x (History.initial value : History ℓ θ α) ⊥ ⊥ where
  chain := chain_initial value
  seen := seen_initial value _
  known := by simp [History.initial]
  acquired := acquired_initial value _
  bound := le_rfl

omit [DecidableEq ℓ] in
theorem mono (hp : Published x h own other) (hle : own ≤ v') : Published x h v' other where
  chain := hp.chain
  seen w hw := (hp.seen w hw).trans (hle.1 x)
  known w hw := (hp.known w hw).trans hle
  acquired := hp.acquired
  bound := hp.bound.trans (hle.1 x)

omit [DecidableEq ℓ] in
theorem congr (hp : Published x h own other) (hle : other ≤ v') (hx : v'.1 x=other.1 x) :
    Published x h own v' :=
  {hp with acquired := hp.acquired.congr hle hx,bound := hx ▸ hp.bound}

theorem load (hp : Published x h own other) (ho : order.acquires=true) (hw : h[k]?=some w) :
    Published x h own (History.read x order w other) where
  chain := hp.chain
  seen := hp.seen
  known := hp.known
  acquired := hp.acquired.read hp.chain ho hw
  bound := by
    have hmem := List.mem_of_getElem? hw
    rw [History.read,if_pos ho]
    refine sup_le ?_ ((hp.known w hmem).1 x)
    rw [View.observe_self]
    exact max_le hp.bound (hp.seen w hmem)

theorem store {time : Nat} (hp : Published x h own other) (ho : order.releases=true)
    (ht : own.1 x < time) (value : α) :
    Published x (h++[⟨time,value,carried x order time (own.observe x time)⟩])
      (own.observe x time) other := by
  have hc : carried x order time (own.observe x time)=own.observe x time := if_pos ho
  have hx : (own.observe x time).1 x=time := by
    rw [View.observe_self]
    exact max_eq_right ht.le
  rw [hc]
  refine ⟨hp.chain.concat ?_ hx.le,?_,?_,?_,?_⟩
  · intro w hw
    exact ⟨(hp.seen w hw).trans_lt ht,(hp.known w hw).trans View.le_observe⟩
  · intro w hw
    rw [hx]
    rcases List.mem_append.mp hw with hw | hw
    · exact (hp.seen w hw).trans ht.le
    · rw [List.mem_singleton.mp hw]
  · intro w hw
    rcases List.mem_append.mp hw with hw | hw
    · exact (hp.known w hw).trans View.le_observe
    · rw [List.mem_singleton.mp hw]
  · -- the reader cannot have seen the new write
    intro w hw hle
    rcases List.mem_append.mp hw with hw | hw
    · exact hp.acquired w hw hle
    · rw [List.mem_singleton.mp hw] at hle
      exact absurd (hle.trans hp.bound) (not_le.mpr ht)
  · rw [hx]
    exact hp.bound.trans ht.le

end Published

end Access

end History

theorem getElem?_concat_of_some {β : Type*} {l : List β} {b : β} {k : Nat}
    (h : l[k]?=some b) (c : β) : (l++[c])[k]?=some b := by
  rw [List.getElem?_append_left (List.getElem?_eq_some_iff.mp h).1]
  exact h

theorem getElem?_concat_cases {β : Type*} {l : List β} {b c : β} {k : Nat}
    (h : (l++[c])[k]?=some b) : l[k]?=some b ∨ k=l.length ∧ b=c := by
  rcases Nat.lt_trichotomy k l.length with hk | rfl | hk
  · rw [List.getElem?_append_left hk] at h
    exact Or.inl h
  · rw [List.getElem?_concat_length] at h
    exact Or.inr ⟨rfl,(Option.some.inj h).symm⟩
  · rw [List.getElem?_eq_none (by simp; omega)] at h
    cases h

/-- A plain object. `write` and `read` give, for every thread, its last access of the kind. -/
structure Plain (θ α : Type*) where
  value : α
  write : θ → Nat
  read : θ → Nat

namespace Plain

def new (value : α) : Plain θ α := ⟨value,⊥,⊥⟩

/-- All writes happened before: a read is no data race. -/
def Readable (c : Plain θ α) (v : View ℓ θ) : Prop := c.write ≤ v.2

/-- All accesses happened before: a write is no data race. -/
def Writable (c : Plain θ α) (v : View ℓ θ) : Prop := c.write ≤ v.2 ∧ c.read ≤ v.2

variable [DecidableEq θ]

/-- Thread `i` in view `v` reads the object; it has counted the access already. -/
def noteRead (c : Plain θ α) (i : θ) (v : View ℓ θ) : Plain θ α :=
  {c with read := Function.update c.read i (v.2 i)}

def set (c : Plain θ α) (i : θ) (v : View ℓ θ) (value : α) : Plain θ α :=
  {c with value := value,write := Function.update c.write i (v.2 i)}

variable {c : Plain θ α} {i : θ} {v : View ℓ θ}

theorem noteRead_le (h : c.read ≤ v.2) : (c.noteRead i v).read ≤ v.2 := by
  intro j
  by_cases hj : j=i
  · simp [noteRead,hj]
  · simpa [noteRead,hj] using h j

theorem set_le (h : c.write ≤ v.2) (value : α) : (c.set i v value).write ≤ v.2 := by
  intro j
  by_cases hj : j=i
  · simp [set,hj]
  · simpa [set,hj] using h j

end Plain

end Acnet
