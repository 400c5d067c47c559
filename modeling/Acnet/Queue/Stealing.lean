import Acnet.Queue.WorkStealing
import Mathlib.Data.List.Perm.Basic
import Mathlib.Data.List.Range

namespace Acnet.Stealing

open WorkStealingQueue

variable {ι η : Type}

inductive OwnerPc (η : Type) where
  | idle
  | push (handle : η) (pc : PushPc)
  | pop (pc : PopPc η)
  deriving DecidableEq

/-- A `kSuccess`: who took the element, the deque index it was stored at, the number of the
push that stored it, and the pointer handed out. -/
structure Return (η : Type) where
  stolen : Bool
  index : Nat
  ticket : Nat
  handle : Option η
  deriving DecidableEq

/-- The deque with its owner and its thieves. `pushed` lists the handles of the successful
pushes, so that a push is known by its position; `label i` is the last push to store at deque
index `i`; `returns` lists the successes. -/
structure State (ι η : Type) where
  queue : WorkStealingQueue η
  owner : OwnerPc η
  thieves : ι → Option (StealPc η)
  pushed : List η
  label : Nat → Nat
  returns : List (Return η)

inductive Action (ι η : Type) where
  | push (handle : η)
  | pop
  | own
  | steal (i : ι)
  | thieve (i : ι)

def init (capacity : Nat) : State ι η :=
  ⟨.new capacity,.idle,fun _ => none,[],fun _ => 0,[]⟩

/-- The index a `pop` works on. -/
def popIndex : PopPc η → Nat
  | .loadBottom => 0
  | .storeBottom bt | .loadTop bt | .loadSlot bt _ | .compareExchange bt _ _
  | .restoreLast bt _ | .restoreEmpty bt => bt

def pushIndex : PushPc → Nat
  | .loadBottom => 0
  | .loadTop bt | .storeSlot bt | .storeBottom bt => bt

def own (s : State ι η) : OwnerPc η → Option (State ι η)
  | .idle => none
  | .push h pc =>
      match s.queue.push h pc with
      | (q,.running pc') => some {s with queue := q, owner := .push h pc'}
      | (q,.returned false) => some {s with queue := q, owner := .idle}
      | (q,.returned true) =>
          some {s with
            queue := q
            owner := .idle
            pushed := s.pushed++[h]
            label := Function.update s.label (pushIndex pc) s.pushed.length}
  | .pop pc =>
      match s.queue.pop pc with
      | (q,.running pc') => some {s with queue := q, owner := .pop pc'}
      | (q,.returned (.success,ptr)) =>
          some {s with
            queue := q
            owner := .idle
            returns := s.returns++[⟨false,popIndex pc,s.label (popIndex pc),ptr⟩]}
      | (q,.returned _) => some {s with queue := q, owner := .idle}

section Next

variable [DecidableEq ι]

def thieve (s : State ι η) (i : ι) (pc : StealPc η) : State ι η :=
  match s.queue.steal pc with
  | (q,.running pc') =>
      {s with queue := q, thieves := Function.update s.thieves i (some pc')}
  | (q,.returned (.success,ptr)) =>
      {s with
        queue := q
        thieves := Function.update s.thieves i none
        returns := s.returns++[⟨true,s.queue.top,s.label s.queue.top,ptr⟩]}
  | (q,.returned _) => {s with queue := q, thieves := Function.update s.thieves i none}

def next (s : State ι η) : Action ι η → Option (State ι η)
  | .push h =>
      match s.owner with
      | .idle => some {s with owner := .push h .loadBottom}
      | _ => none
  | .pop =>
      match s.owner with
      | .idle => some {s with owner := .pop .loadBottom}
      | _ => none
  | .own => own s s.owner
  | .steal i =>
      match s.thieves i with
      | none => some {s with thieves := Function.update s.thieves i (some .loadTop)}
      | some _ => none
  | .thieve i =>
      match s.thieves i with
      | none => none
      | some pc => some (thieve s i pc)

/-- One owner and any number of thieves on a deque whose capacity is a power of two. -/
def machine (ι η : Type) [DecidableEq ι] : Machine (State ι η) (Action ι η) where
  start s := ∃ k<64,s=init (2^k)
  next := next

end Next

def InRange (_ : State ι η) (_ : Action ι η) (t : State ι η) : Prop := t.queue.InRange

/-- One element is left at `bt` and owner and thieves race for it, or a thief has it. -/
def LastRace (q : WorkStealingQueue η) (len bt : Nat) : Prop :=
  (q.top=bt ∧ len=1) ∨ (q.top=bt+1 ∧ len=0)

/-- What the owner knows at each point; `len` elements are left from `top` on. -/
def OwnerOk (q : WorkStealingQueue η) (pushed : List η) (label : Nat → Nat) (len : Nat) :
    OwnerPc η → Prop
  | .idle | .push _ .loadBottom | .pop .loadBottom => q.bottom=q.top+len
  | .push _ (.loadTop bt) => q.bottom=q.top+len ∧ bt=q.top+len
  | .push _ (.storeSlot bt) => q.bottom=q.top+len ∧ bt=q.top+len ∧ len<q.capacity
  | .push h (.storeBottom bt) =>
      q.bottom=q.top+len ∧ bt=q.top+len ∧ len<q.capacity ∧ q.slot bt=some h
  | .pop (.storeBottom bt) =>
      q.bottom=q.top+len ∧ signed bt=((q.top+len : Nat) : Int)-1 ∧ bt<2^64
  | .pop (.loadTop bt) =>
      q.bottom=bt ∧ signed bt=((q.top+len : Nat) : Int)-1 ∧ bt<2^64
  | .pop (.loadSlot bt tp) => q.bottom=bt ∧ bt<2^63 ∧
      if tp=bt then LastRace q len bt
      else bt=q.top+len ∧ q.slot bt=pushed[label bt]?
  | .pop (.compareExchange bt tp ptr) =>
      q.bottom=bt ∧ bt<2^63 ∧ tp=bt ∧ LastRace q len bt ∧ (q.top=bt → ptr=pushed[label bt]?)
  | .pop (.restoreLast bt ptr) =>
      q.bottom=bt ∧ q.top=bt+1 ∧ len=0 ∧ (ptr=none ∨ ptr=pushed[label bt]?)
  | .pop (.restoreEmpty bt) => q.bottom=bt ∧ signed bt=(q.top : Int)-1 ∧ bt<2^64 ∧ len=0

def ThiefOk (q : WorkStealingQueue η) (len : Nat) : StealPc η → Prop
  | .loadTop => True
  | .loadBottom tp => tp ≤ q.top
  | .loadSlot tp => tp ≤ q.top ∧ (tp=q.top → 1 ≤ len)
  | .compareExchange tp ptr => tp ≤ q.top ∧ (tp=q.top → 1 ≤ len ∧ ptr=q.slot q.top)

/-- The push that the owner has taken off the deque and not yet returned. -/
def held (label : Nat → Nat) : OwnerPc η → List Nat
  | .pop (.loadSlot bt tp) => if tp=bt then [] else [label bt]
  | .pop (.restoreLast bt (some _)) => [label bt]
  | _ => []

def window (label : Nat → Nat) (top len : Nat) : List Nat := (List.range' top len).map label

def stolen (returns : List (Return η)) : List (Return η) := returns.filter (·.stolen)

/-- `len` elements are in the deque. Every push is accounted for once: returned, held by the
owner, or at one of the indices from `top` on, where its handle is stored. -/
structure Inv (s : State ι η) (len : Nat) : Prop where
  pow : ∃ k<64,s.queue.capacity=2^k
  fits : len ≤ s.queue.capacity
  slot : ∀ j<len,s.queue.slot (s.queue.top+j)=s.pushed[s.label (s.queue.top+j)]?
  tickets : (s.returns.map (·.ticket)++held s.label s.owner++
    window s.label s.queue.top len).Perm (List.range s.pushed.length)
  handles : ∀ r∈s.returns,r.handle=s.pushed[r.ticket]?
  sorted : (window s.label s.queue.top len).Pairwise (·<·)
  order : (stolen s.returns).Pairwise fun a b => a.index<b.index ∧ a.ticket<b.ticket
  older : ∀ r∈stolen s.returns,r.index<s.queue.top ∧
    ∀ x∈window s.label s.queue.top len,r.ticket<x
  owner : OwnerOk s.queue s.pushed s.label len s.owner
  thief : ∀ i pc,s.thieves i=some pc → ThiefOk s.queue len pc

theorem window_succ (label : Nat → Nat) (top len : Nat) :
    window label top (len+1)=label top::window label (top+1) len := by
  simp [window,List.range'_succ]

theorem window_concat (label : Nat → Nat) (top len : Nat) :
    window label top (len+1)=window label top len++[label (top+len)] := by
  simp [window,List.range'_1_concat]

theorem window_update (label : Nat → Nat) (top len x : Nat) :
    window (Function.update label (top+len) x) top len=window label top len := by
  apply List.map_congr_left
  intro i hi
  obtain ⟨_,hlt⟩ := List.mem_range'_1.mp hi
  exact Function.update_of_ne (by omega) _ _

theorem OwnerOk.steal {q : WorkStealingQueue η} {pushed : List η} {label : Nat → Nat}
    {len : Nat} {pc : OwnerPc η} (h : OwnerOk q pushed label (len+1) pc) :
    OwnerOk {q with top := q.top+1} pushed label len pc := by
  cases pc with
  | idle =>
    simp only [OwnerOk] at h ⊢
    omega
  | push x pc =>
    cases pc with
    | storeBottom bt =>
      obtain ⟨hb,ht,hc,hs⟩ := h
      exact ⟨hb.trans (by simp; omega),ht.trans (by simp; omega),by simp; omega,hs⟩
    | _ =>
      simp only [OwnerOk] at h ⊢
      omega
  | pop pc =>
    cases pc with
    | loadSlot bt tp =>
      obtain ⟨hb,hlt,hr⟩ := h
      refine ⟨hb,hlt,?_⟩
      split_ifs at hr ⊢ with he
      · simp only [LastRace] at hr ⊢
        omega
      · exact ⟨hr.1.trans (by simp; omega),hr.2⟩
    | compareExchange bt tp ptr =>
      obtain ⟨hb,hlt,he,hr,_⟩ := h
      simp only [LastRace] at hr
      refine ⟨hb,hlt,he,Or.inr ⟨by simp; omega,by omega⟩,fun ht => ?_⟩
      simp only at ht
      omega
    | restoreLast bt ptr =>
      obtain ⟨_,_,hz,_⟩ := h
      omega
    | _ =>
      simp only [OwnerOk] at h ⊢
      omega

/-- The owner never shows a thief more elements than there are. -/
theorem OwnerOk.bottom_le {q : WorkStealingQueue η} {pushed : List η} {label : Nat → Nat}
    {len : Nat} {pc : OwnerPc η} (h : OwnerOk q pushed label len pc) :
    signed q.bottom ≤ ((q.top+len : Nat) : Int) := by
  have hs := signed_le q.bottom
  cases pc with
  | idle =>
    simp only [OwnerOk] at h
    omega
  | push x pc => cases pc <;> simp only [OwnerOk] at h <;> omega
  | pop pc =>
    cases pc with
    | loadTop bt =>
      obtain ⟨hb,hr,_⟩ := h
      rw [hb]
      omega
    | loadSlot bt tp =>
      obtain ⟨hb,_,hr⟩ := h
      split_ifs at hr
      · simp only [LastRace] at hr
        omega
      · omega
    | compareExchange bt tp ptr =>
      obtain ⟨hb,_,_,hr,_⟩ := h
      simp only [LastRace] at hr
      omega
    | restoreLast bt ptr =>
      obtain ⟨hb,ht,_,_⟩ := h
      omega
    | restoreEmpty bt =>
      obtain ⟨hb,ht,_,_⟩ := h
      rw [hb]
      omega
    | _ =>
      simp only [OwnerOk] at h
      omega

theorem ThiefOk.steal {q : WorkStealingQueue η} {len : Nat} {pc : StealPc η}
    (h : ThiefOk q (len+1) pc) : ThiefOk {q with top := q.top+1} len pc := by
  cases pc with
  | loadTop => trivial
  | loadBottom tp => exact Nat.le_succ_of_le h
  | loadSlot tp =>
    obtain ⟨hle,_⟩ := h
    exact ⟨Nat.le_succ_of_le hle,fun he => by simp only at he; omega⟩
  | compareExchange tp ptr =>
    obtain ⟨hle,_⟩ := h
    exact ⟨Nat.le_succ_of_le hle,fun he => by simp only at he; omega⟩

/-- A thief's reading of an element that is still there survives any change that leaves `top`
and the top element alone. -/
theorem ThiefOk.keep {q q' : WorkStealingQueue η} {len len' : Nat} {pc : StealPc η}
    (h : ThiefOk q len pc) (ht : q'.top=q.top)
    (hl : 1 ≤ len → 1 ≤ len' ∧ q'.slot q.top=q.slot q.top) : ThiefOk q' len' pc := by
  cases pc with
  | loadTop => trivial
  | loadBottom tp => exact le_of_le_of_eq h ht.symm
  | loadSlot tp =>
    obtain ⟨hle,hn⟩ := h
    exact ⟨ht ▸ hle,fun he => (hl (hn (he.trans ht))).1⟩
  | compareExchange tp ptr =>
    obtain ⟨hle,hn⟩ := h
    refine ⟨ht ▸ hle,fun he => ?_⟩
    obtain ⟨hlen,hp⟩ := hn (he.trans ht)
    obtain ⟨hlen',hs⟩ := hl hlen
    exact ⟨hlen',by rw [hp,ht,hs]⟩

namespace Inv

variable {s : State ι η} {len : Nat}

theorem land (h : Inv s len) (i : Nat) :
    i &&& (s.queue.capacity-1)=i%s.queue.capacity := by
  obtain ⟨k,_,hk⟩ := h.pow
  exact land_mask hk i

theorem len_le (h : Inv s len) : len ≤ 2^63 := by
  obtain ⟨k,hk,hc⟩ := h.pow
  have hp : 2^k ≤ 2^63 := Nat.pow_le_pow_right (by decide) (by omega)
  have hf := h.fits
  omega

/-- Outside `pop` the counters are plain numbers below `2^63`. -/
theorem bottom_lt (h : Inv s len) (hr : s.queue.InRange)
    (hb : s.queue.bottom=s.queue.top+len) : s.queue.top+len<2^63 := by
  have hl := h.len_le
  obtain ⟨_,hr | ⟨hz,hr⟩⟩ := hr <;> omega

theorem ticket_lt (h : Inv s len) {x : Nat}
    (hx : x∈held s.label s.owner ∨ x∈window s.label s.queue.top len) : x<s.pushed.length := by
  have hm : x∈s.returns.map (·.ticket)++held s.label s.owner++
      window s.label s.queue.top len := by
    simp only [List.mem_append]
    tauto
  exact List.mem_range.mp (h.tickets.mem_iff.mp hm)

theorem returned_lt (h : Inv s len) {r : Return η} (hr : r∈s.returns) :
    r.ticket<s.pushed.length := by
  have hm : r.ticket∈s.returns.map (·.ticket)++held s.label s.owner++
      window s.label s.queue.top len := by
    simp only [List.mem_append]
    exact Or.inl (Or.inl (List.mem_map_of_mem hr))
  exact List.mem_range.mp (h.tickets.mem_iff.mp hm)

end Inv

/-- Any change of the owner's place that keeps counters, slots and held element. -/
theorem Inv.set_owner {s : State ι η} {len : Nat} (h : Inv s len) (pc : OwnerPc η)
    (hp : OwnerOk s.queue s.pushed s.label len pc)
    (hh : held s.label pc=held s.label s.owner) : Inv {s with owner := pc} len :=
  {h with tickets := by simpa only [hh] using h.tickets, owner := hp}

section Thieves

variable [DecidableEq ι]

theorem Inv.set_thief {s : State ι η} {len : Nat} (h : Inv s len) (i : ι)
    (x : Option (StealPc η)) (hx : ∀ pc,x=some pc → ThiefOk s.queue len pc) :
    Inv {s with thieves := Function.update s.thieves i x} len := by
  refine {h with thief := ?_}
  intro j pc hj
  by_cases he : j=i
  · subst j
    exact hx pc (by simpa using hj)
  · exact h.thief j pc (by simpa [he] using hj)

/-- Advancing `top` over the first element hands it to one thread. -/
theorem Inv.steal_step {s : State ι η} {len : Nat} (h : Inv s (len+1)) (i : ι) :
    Inv {s with
      queue := {s.queue with top := s.queue.top+1}
      thieves := Function.update s.thieves i none
      returns := s.returns++[⟨true,s.queue.top,s.label s.queue.top,
        s.queue.slot s.queue.top⟩]} len := by
  have hw := window_succ s.label s.queue.top len
  have hsorted := h.sorted
  rw [hw,List.pairwise_cons] at hsorted
  have stolen_append : stolen (s.returns++[(⟨true,s.queue.top,s.label s.queue.top,
      s.queue.slot s.queue.top⟩ : Return η)])=stolen s.returns++
        [⟨true,s.queue.top,s.label s.queue.top,s.queue.slot s.queue.top⟩] := by
    simp [stolen]
  refine ⟨h.pow,Nat.le_of_succ_le h.fits,?_,?_,?_,hsorted.2,?_,?_,h.owner.steal,?_⟩
  · intro j hj
    have hs := h.slot (j+1) (by omega)
    rwa [show s.queue.top+(j+1)=s.queue.top+1+j by omega] at hs
  · have ht := h.tickets
    rw [hw] at ht
    refine List.Perm.trans (List.perm_iff_count.mpr fun x => ?_) ht
    simp only [List.map_append,List.map_cons,List.map_nil,List.count_append,List.count_cons,
      List.count_nil]
    omega
  · intro r hr
    rcases List.mem_append.mp hr with hr | hr
    · exact h.handles r hr
    · obtain rfl := List.mem_singleton.mp hr
      exact h.slot 0 (by omega)
  · simp only [stolen_append,List.pairwise_append,List.mem_singleton]
    refine ⟨h.order,by simp,?_⟩
    rintro r hr _ rfl
    obtain ⟨hi,ht⟩ := h.older r hr
    exact ⟨hi,ht _ (by rw [hw]; exact List.mem_cons_self)⟩
  · intro r hr
    rw [stolen_append,List.mem_append,List.mem_singleton] at hr
    rcases hr with hr | rfl
    · obtain ⟨hi,ht⟩ := h.older r hr
      exact ⟨Nat.lt_succ_of_lt hi,fun x hx => ht x (by rw [hw]; exact List.mem_cons_of_mem _ hx)⟩
    · exact ⟨Nat.lt_succ_self _,hsorted.1⟩
  · intro j pc hj
    by_cases he : j=i
    · subst j
      simp at hj
    · exact (h.thief j pc (by simpa [he] using hj)).steal

/-- One access of `steal` keeps the invariant. -/
theorem Inv.thieve_step {s : State ι η} {len : Nat} (h : Inv s len) (hr : s.queue.InRange)
    {i : ι} {pc : StealPc η} (hi : s.thieves i=some pc) : ∃ len',Inv (thieve s i pc) len' := by
  have hok := h.thief i pc hi
  have htop := hr.1
  cases pc with
  | loadTop =>
    refine ⟨len,h.set_thief i _ ?_⟩
    rintro pc ⟨⟩
    exact le_refl s.queue.top
  | loadBottom tp =>
    refine ⟨len,?_⟩
    simp only [thieve,WorkStealingQueue.steal]
    by_cases hlt : signed tp<signed s.queue.bottom
    · rw [if_pos hlt]
      refine h.set_thief i _ ?_
      rintro pc ⟨⟩
      refine ⟨hok,?_⟩
      rintro rfl
      have hb := h.owner.bottom_le
      rw [signed_of_lt htop] at hlt
      omega
    · rw [if_neg hlt]
      exact h.set_thief i _ (by simp)
  | loadSlot tp =>
    refine ⟨len,h.set_thief i _ ?_⟩
    rintro pc ⟨⟩
    obtain ⟨hle,hn⟩ := hok
    exact ⟨hle,fun he => ⟨hn he,by rw [he]⟩⟩
  | compareExchange tp ptr =>
    obtain ⟨hle,hn⟩ := hok
    simp only [thieve,WorkStealingQueue.steal]
    by_cases he : s.queue.top=tp
    · subst tp
      obtain ⟨hlen,rfl⟩ := hn rfl
      obtain ⟨m,rfl⟩ : ∃ m,len=m+1 := ⟨len-1,by omega⟩
      have hwrap : wrap (s.queue.top+1)=s.queue.top+1 := wrap_of_lt (by omega)
      simp only [if_true,hwrap]
      exact ⟨m,h.steal_step i⟩
    · rw [if_neg he]
      exact ⟨len,h.set_thief i _ (by simp)⟩

end Thieves

section Owner

variable {s : State ι η} {len : Nat}

/-- The slot behind the last element is not one of the elements' slots. -/
theorem Inv.slot_free (h : Inv s len) (hlt : len<s.queue.capacity) (x : Option η) {j : Nat}
    (hj : j<len) : (s.queue.setSlot (s.queue.top+len) x).slot (s.queue.top+j)=
      s.queue.slot (s.queue.top+j) := by
  rw [slot_setSlot,h.land,h.land,if_neg]
  intro he
  have := slot_inj (a := s.queue.top) (by omega) (by omega) (by omega) (by omega) he
  omega

theorem Inv.store_step (h : Inv s len) {x : η} {bt : Nat}
    (ho : s.owner=.push x (.storeSlot bt)) :
    Inv {s with
      queue := s.queue.setSlot bt (some x)
      owner := .push x (.storeBottom bt)} len := by
  have hok := h.owner
  rw [ho] at hok
  obtain ⟨hb,rfl,hlt⟩ := hok
  refine {h with slot := ?_, tickets := ?_, owner := ⟨hb,rfl,hlt,?_⟩, thief := ?_}
  · intro j hj
    exact (h.slot_free hlt (some x) hj).trans (h.slot j hj)
  · simpa [ho,held] using h.tickets
  · rw [slot_setSlot,if_pos rfl]
  · intro i pc hi
    refine (h.thief i pc hi).keep rfl fun hlen => ⟨hlen,?_⟩
    exact h.slot_free hlt (some x) (j := 0) hlen

/-- Publishing the new `bottom` appends the pushed handle to the deque. -/
theorem Inv.push_step (h : Inv s len) (hr : s.queue.InRange) {x : η} {bt : Nat}
    (ho : s.owner=.push x (.storeBottom bt)) :
    Inv {s with
      queue := {s.queue with bottom := wrap (bt+1)}
      owner := .idle
      pushed := s.pushed++[x]
      label := Function.update s.label bt s.pushed.length} (len+1) := by
  have hok := h.owner
  rw [ho] at hok
  obtain ⟨hb,rfl,hlt,hslot⟩ := hok
  have hbound := h.bottom_lt hr hb
  have hwrap : wrap (s.queue.top+len+1)=s.queue.top+len+1 := wrap_of_lt (by omega)
  have hwin : window (Function.update s.label (s.queue.top+len) s.pushed.length) s.queue.top
      (len+1)=window s.label s.queue.top len++[s.pushed.length] := by
    rw [window_concat,window_update,Function.update_self]
  have old {t : Nat} (ht : t<s.pushed.length) : (s.pushed++[x])[t]?=s.pushed[t]? :=
    List.getElem?_append_left ht
  refine ⟨h.pow,hlt,?_,?_,?_,?_,h.order,?_,?_,?_⟩
  · intro j hj
    change s.queue.slot (s.queue.top+j)=(s.pushed++[x])[Function.update s.label
      (s.queue.top+len) s.pushed.length (s.queue.top+j)]?
    by_cases he : j=len
    · subst j
      simp [hslot]
    · have hj' : j<len := by omega
      rw [Function.update_of_ne (by omega),h.slot j hj',old]
      apply h.ticket_lt
      right
      exact List.mem_map_of_mem (List.mem_range'_1.mpr ⟨by omega,by omega⟩)
  · have ht := h.tickets
    simp only [ho,held,List.append_nil] at ht
    simp only [hwin,held,List.append_nil,List.length_append,List.length_cons,List.length_nil,
      List.range_succ,← List.append_assoc]
    exact ht.append_right _
  · intro r hr'
    exact (h.handles r hr').trans (old (h.returned_lt hr')).symm
  · simp only [hwin,List.pairwise_append,List.mem_singleton]
    refine ⟨h.sorted,by simp,?_⟩
    rintro t ht _ rfl
    exact h.ticket_lt (Or.inr ht)
  · intro r hr'
    refine ⟨(h.older r hr').1,fun t ht => ?_⟩
    simp only [hwin,List.mem_append,List.mem_singleton] at ht
    rcases ht with ht | rfl
    · exact (h.older r hr').2 t ht
    · exact h.returned_lt (List.mem_of_mem_filter hr')
  · exact hwrap
  · intro i pc hi
    exact (h.thief i pc hi).keep rfl fun hlen => ⟨by omega,rfl⟩

/-- Reading a smaller `top` after lowering `bottom` makes the last element the owner's. -/
theorem Inv.claim_step (h : Inv s (len+1)) (hlen : 1 ≤ len) {bt : Nat}
    (ho : s.owner=.pop (.loadTop bt)) (hbt : bt=s.queue.top+len) (hlt : bt<2^63) :
    Inv {s with owner := .pop (.loadSlot bt s.queue.top)} len := by
  have hok := h.owner
  rw [ho] at hok
  obtain ⟨hb,_,_⟩ := hok
  have hne : s.queue.top≠bt := by omega
  have hw := window_concat s.label s.queue.top len
  have hsorted := h.sorted
  rw [hw,List.pairwise_append] at hsorted
  refine {h with
    fits := Nat.le_of_succ_le h.fits
    slot := fun j hj => h.slot j (by omega)
    tickets := ?_
    sorted := hsorted.1
    older := fun r hr => ⟨(h.older r hr).1,fun x hx => (h.older r hr).2 x (by simp [hw,hx])⟩
    owner := ⟨hb,hlt,?_⟩
    thief := fun i pc hi => (h.thief i pc hi).keep rfl fun _ => ⟨hlen,rfl⟩}
  · have ht := h.tickets
    rw [hw] at ht
    simp only [ho,held,List.append_nil] at ht
    simp only [held,if_neg hne]
    refine List.Perm.trans (List.perm_iff_count.mpr fun x => ?_) ht
    simp only [hbt,List.count_append]
    omega
  · rw [if_neg hne]
    refine ⟨hbt,?_⟩
    rw [hbt]
    exact h.slot len (by omega)

/-- The owner wins the race for the last element. -/
theorem Inv.last_step (h : Inv s 1) {bt : Nat} {ptr : Option η} {tp : Nat}
    (ho : s.owner=.pop (.compareExchange bt tp ptr)) (ht : s.queue.top=bt) :
    Inv {s with
      queue := {s.queue with top := bt+1}
      owner := .pop (.restoreLast bt ptr)} 0 := by
  have hok := h.owner
  rw [ho] at hok
  obtain ⟨hb,_,_,_,hp⟩ := hok
  have hptr := hp ht
  have hw : window s.label s.queue.top 1=[s.label bt] := by simp [window,ht]
  have hticket : s.label bt<s.pushed.length := h.ticket_lt (Or.inr (by simp [hw]))
  rw [List.getElem?_eq_getElem hticket] at hptr
  refine {h with
    fits := Nat.zero_le _
    slot := fun j hj => absurd hj (Nat.not_lt_zero j)
    tickets := ?_
    sorted := List.Pairwise.nil
    older := fun r hr => ⟨?_,fun x hx => absurd hx (by simp [window])⟩
    owner := ⟨hb,rfl,rfl,Or.inr (hp ht)⟩
    thief := ?_}
  · have htk := h.tickets
    simp only [hw,ho,held,List.append_nil] at htk
    simpa [hptr,held,window] using htk
  · have := (h.older r hr).1
    exact Nat.lt_succ_of_lt (ht ▸ this)
  · intro i pc hi
    have hk := (h.thief i pc hi).steal
    rwa [ht] at hk

theorem Inv.push_pc_step (h : Inv s len) (hr : s.queue.InRange) {x : η} {pc : PushPc}
    {t : State ι η} (ho : s.owner=.push x pc) (hn : own s (.push x pc)=some t) :
    ∃ len',Inv t len' := by
  have hok := h.owner
  rw [ho] at hok
  cases pc with
  | loadBottom =>
    cases hn
    exact ⟨len,h.set_owner _ ⟨hok,hok⟩ (by simp [ho,held])⟩
  | loadTop bt =>
    obtain ⟨hb,rfl⟩ := hok
    have hbound := h.bottom_lt hr hb
    have hsub : wrapSub (s.queue.top+len) s.queue.top=len := by
      rw [wrapSub_of_le (by omega) (by omega)]
      omega
    simp only [own,WorkStealingQueue.push,hsub] at hn
    split_ifs at hn with hfull
    · cases hn
      exact ⟨len,h.set_owner _ hb (by simp [ho,held])⟩
    · cases hn
      exact ⟨len,h.set_owner _ ⟨hb,rfl,by omega⟩ (by simp [ho,held])⟩
  | storeSlot bt =>
    cases hn
    exact ⟨len,h.store_step ho⟩
  | storeBottom bt =>
    cases hn
    exact ⟨len+1,h.push_step hr ho⟩

/-- The owner returns the element it holds. -/
theorem Inv.return_step (h : Inv s len) {bt : Nat} (b : Nat)
    (hheld : held s.label s.owner=[s.label bt]) (hb : b=s.queue.top+len) :
    Inv {s with
      queue := {s.queue with bottom := b}
      owner := .idle
      returns := s.returns++[⟨false,bt,s.label bt,s.pushed[s.label bt]?⟩]} len := by
  have hst : stolen (s.returns++[(⟨false,bt,s.label bt,s.pushed[s.label bt]?⟩ : Return η)])=
      stolen s.returns := by
    simp [stolen]
  refine {h with
    tickets := ?_, handles := ?_, order := hst ▸ h.order, older := hst ▸ h.older
    owner := hb
    thief := fun i pc hi => (h.thief i pc hi).keep rfl fun hlen => ⟨hlen,rfl⟩}
  · have ht := h.tickets
    rw [hheld] at ht
    simpa [held] using ht
  · intro r hr
    rcases List.mem_append.mp hr with hr | hr
    · exact h.handles r hr
    · obtain rfl := List.mem_singleton.mp hr
      rfl

theorem Inv.restore_step (h : Inv s len) (b : Nat) (hheld : held s.label s.owner=[])
    (hb : b=s.queue.top+len) :
    Inv {s with queue := {s.queue with bottom := b}, owner := .idle} len :=
  {h with
    tickets := by
      have ht := h.tickets
      rw [hheld] at ht
      simpa [held] using ht
    owner := hb
    thief := fun i pc hi => (h.thief i pc hi).keep rfl fun hlen => ⟨hlen,rfl⟩}

theorem Inv.load_top_step (h : Inv s len) (hr : s.queue.InRange) {bt : Nat} {t : State ι η}
    (ho : s.owner=.pop (.loadTop bt)) (hn : own s (.pop (.loadTop bt))=some t) :
    ∃ len',Inv t len' := by
  have hok := h.owner
  rw [ho] at hok
  obtain ⟨hb,hbt,hword⟩ := hok
  have htop := signed_of_lt hr.1
  simp only [own,WorkStealingQueue.pop] at hn
  by_cases hle : signed s.queue.top ≤ signed bt
  · rw [if_pos hle] at hn
    cases hn
    have hnat : bt+1=s.queue.top+len ∧ bt<2^63 := by
      unfold signed at hbt htop hle
      split_ifs at hbt <;> omega
    by_cases hlast : s.queue.top=bt
    -- One element is left and a thief may still win it: nothing is taken before the exchange.
    · refine ⟨len,h.set_owner _ ⟨hb,hnat.2,?_⟩ (by simp [ho,held,hlast])⟩
      rw [if_pos hlast]
      exact Or.inl ⟨hlast,by omega⟩
    -- No thief gets as far as `bt`, because `bottom_` was lowered before `top_` was read.
    · obtain ⟨m,rfl⟩ : ∃ m,len=m+1 := ⟨len-1,by omega⟩
      exact ⟨m,h.claim_step (by omega) ho (by omega) hnat.2⟩
  · rw [if_neg hle] at hn
    cases hn
    have hz : len=0 := by omega
    exact ⟨len,h.set_owner _ ⟨hb,by omega,hword,hz⟩ (by simp [ho,held])⟩

/-- The slot that `pop` reads is the owner's, unless a thief may still take the last element. -/
theorem Inv.load_slot_step (h : Inv s len) {bt tp : Nat} {t : State ι η}
    (ho : s.owner=.pop (.loadSlot bt tp)) (hn : own s (.pop (.loadSlot bt tp))=some t) :
    ∃ len',Inv t len' := by
  have hok := h.owner
  rw [ho] at hok
  obtain ⟨hb,hlt,hcase⟩ := hok
  simp only [own,WorkStealingQueue.pop] at hn
  by_cases he : tp=bt
  · subst tp
    rw [if_pos rfl] at hcase hn
    cases hn
    refine ⟨len,h.set_owner _ ⟨hb,hlt,rfl,hcase,fun ht => ?_⟩ (by simp [ho,held])⟩
    have hone : len=1 := by
      simp only [LastRace] at hcase
      omega
    have hs := h.slot 0 (by omega)
    rwa [Nat.add_zero,ht] at hs
  · rw [if_neg he] at hcase hn
    obtain ⟨hbt,hs⟩ := hcase
    have hheld : held s.label s.owner=[s.label bt] := by simp [ho,held,he]
    have hticket : s.label bt<s.pushed.length := h.ticket_lt (Or.inl (by simp [hheld]))
    have hsome := List.getElem?_eq_getElem hticket
    rw [hs,hsome] at hn
    cases hn
    have hret := h.return_step s.queue.bottom hheld (hb.trans hbt)
    rw [hsome] at hret
    exact ⟨len,hret⟩

/-- The exchange of `pop` decides who has the last element. -/
theorem Inv.exchange_step (h : Inv s len) {bt tp : Nat} {ptr : Option η} {t : State ι η}
    (ho : s.owner=.pop (.compareExchange bt tp ptr))
    (hn : own s (.pop (.compareExchange bt tp ptr))=some t) : ∃ len',Inv t len' := by
  have hok := h.owner
  rw [ho] at hok
  obtain ⟨hb,hlt,rfl,hcase,hp⟩ := hok
  simp only [own,WorkStealingQueue.pop] at hn
  by_cases he : s.queue.top=tp
  · rw [if_pos he] at hn
    cases hn
    have hone : len=1 := by
      simp only [LastRace] at hcase
      omega
    subst hone
    have hwrap : wrap (tp+1)=tp+1 := wrap_of_lt (by omega)
    simp only [hwrap]
    exact ⟨0,h.last_step ho he⟩
  · rw [if_neg he] at hn
    cases hn
    simp only [LastRace] at hcase
    exact ⟨len,h.set_owner _ ⟨hb,by omega,by omega,Or.inl rfl⟩ (by simp [ho,held])⟩

/-- One access of `pop` keeps the invariant. -/
theorem Inv.pop_pc_step (h : Inv s len) (hr : s.queue.InRange) {pc : PopPc η}
    {t : State ι η} (ho : s.owner=.pop pc) (hn : own s (.pop pc)=some t) :
    ∃ len',Inv t len' := by
  have hok := h.owner
  rw [ho] at hok
  cases pc with
  | loadBottom =>
    cases hn
    have hbound := h.bottom_lt hr hok
    replace hok : s.queue.bottom=s.queue.top+len := hok
    refine ⟨len,h.set_owner _ ⟨hok,?_⟩ (by simp [ho,held])⟩
    rw [hok]
    unfold wrapSub signed
    constructor
    · split_ifs <;> omega
    · omega
  | storeBottom bt =>
    cases hn
    obtain ⟨_,hbt,hword⟩ := hok
    exact ⟨len,{h with
      tickets := by simpa [ho,held] using h.tickets
      owner := ⟨rfl,hbt,hword⟩
      thief := fun i pc hi => (h.thief i pc hi).keep rfl fun hlen => ⟨hlen,rfl⟩}⟩
  | loadTop bt => exact h.load_top_step hr ho hn
  | loadSlot bt tp => exact h.load_slot_step ho hn
  | compareExchange bt tp ptr => exact h.exchange_step ho hn
  | restoreLast bt ptr =>
    obtain ⟨hb,ht,hz,hp⟩ := hok
    have hwrap : wrap (bt+1)=s.queue.top+len := by
      rw [wrap_of_lt (by have := hr.1; omega)]
      omega
    cases ptr with
    | none =>
      cases hn
      exact ⟨len,h.restore_step _ (by simp [ho,held]) hwrap⟩
    | some x =>
      cases hn
      have hx : some x=s.pushed[s.label bt]? := by simpa using hp
      have hheld : held s.label s.owner=[s.label bt] := by simp [ho,held]
      have hret := h.return_step _ hheld hwrap
      rw [← hx] at hret
      exact ⟨len,hret⟩
  | restoreEmpty bt =>
    obtain ⟨hb,hbt,hword,hz⟩ := hok
    cases hn
    have hwrap : wrap (bt+1)=s.queue.top+len := by
      have htop := hr.1
      unfold signed at hbt
      unfold wrap
      split_ifs at hbt <;> omega
    exact ⟨len,h.restore_step _ (by simp [ho,held]) hwrap⟩

end Owner

theorem init_inv (k : Nat) (hk : k<64) : Inv (init (2^k) : State ι η) 0 where
  pow := ⟨k,hk,rfl⟩
  fits := Nat.zero_le _
  slot j hj := absurd hj (Nat.not_lt_zero j)
  tickets := by simp [init,held,window]
  handles r hr := by simp [init] at hr
  sorted := by simp [window]
  order := by simp [init,stolen]
  older r hr := by simp [init,stolen] at hr
  owner := rfl
  thief i pc hi := by simp [init] at hi

section Run

variable [DecidableEq ι]

theorem next_inv {s t : State ι η} {a : Action ι η} (hr : s.queue.InRange)
    (h : ∃ len,Inv s len) (hn : next s a=some t) : ∃ len,Inv t len := by
  obtain ⟨len,h⟩ := h
  cases a with
  | push x =>
    simp only [next] at hn
    split at hn <;> cases hn
    rename_i ho
    have hok := h.owner
    rw [ho] at hok
    exact ⟨len,h.set_owner _ hok (by simp [ho,held])⟩
  | pop =>
    simp only [next] at hn
    split at hn <;> cases hn
    rename_i ho
    have hok := h.owner
    rw [ho] at hok
    exact ⟨len,h.set_owner _ hok (by simp [ho,held])⟩
  | own =>
    cases ho : s.owner with
    | idle => simp [next,ho,own] at hn
    | push x pc =>
      simp only [next,ho] at hn
      exact h.push_pc_step hr ho hn
    | pop pc =>
      simp only [next,ho] at hn
      exact h.pop_pc_step hr ho hn
  | steal i =>
    simp only [next] at hn
    split at hn <;> cases hn
    refine ⟨len,h.set_thief i _ ?_⟩
    rintro pc ⟨⟩
    trivial
  | thieve i =>
    simp only [next] at hn
    split at hn
    · cases hn
    · rename_i pc hi
      cases hn
      exact h.thieve_step hr hi

theorem steps_inv {s t : State ι η} (h : (machine ι η).Steps InRange s t)
    (hs : s.queue.InRange ∧ ∃ len,Inv s len) : t.queue.InRange ∧ ∃ len,Inv t len := by
  refine h.invariant (I := fun t => t.queue.InRange ∧ ∃ len,Inv t len) hs ?_
  rintro x a y ⟨hr,hi⟩ hn ho
  exact ⟨ho,next_inv hr hi hn⟩

theorem reachable_inv {s : State ι η} (h : (machine ι η).ReachableBy InRange s) :
    s.queue.InRange ∧ ∃ len,Inv s len := by
  obtain ⟨_,⟨k,hk,rfl⟩,hsteps⟩ := h
  have zero : 0<2^63 := by decide
  exact steps_inv hsteps ⟨⟨zero,Or.inl zero⟩,0,init_inv k hk⟩

/-- Successful pushes and returns are only ever added. -/
theorem next_grows {s t : State ι η} {a : Action ι η} (hn : next s a=some t) :
    s.pushed <+: t.pushed ∧ s.returns <+: t.returns := by
  have same (l : List η) (r : List (Return η)) : l <+: l ∧ r <+: r :=
    ⟨List.prefix_rfl,List.prefix_rfl⟩
  cases a with
  | push x | pop | steal i =>
    simp only [next] at hn
    split at hn <;> cases hn
    exact same _ _
  | own =>
    simp only [next] at hn
    cases ho : s.owner with
    | idle => simp [ho,own] at hn
    | push x pc =>
      simp only [ho,own] at hn
      split at hn <;> cases hn
      · exact same _ _
      · exact same _ _
      · exact ⟨List.prefix_append _ _,List.prefix_rfl⟩
    | pop pc =>
      simp only [ho,own] at hn
      split at hn <;> cases hn
      · exact same _ _
      · exact ⟨List.prefix_rfl,List.prefix_append _ _⟩
      · exact same _ _
  | thieve i =>
    simp only [next] at hn
    split at hn <;> cases hn
    simp only [thieve]
    split
    · exact same _ _
    · exact ⟨List.prefix_rfl,List.prefix_append _ _⟩
    · exact same _ _

theorem steps_grow {s t : State ι η} (h : (machine ι η).Steps InRange s t) :
    s.pushed.length ≤ t.pushed.length ∧ s.returns.length ≤ t.returns.length := by
  refine h.invariant (I := fun t => s.pushed.length ≤ t.pushed.length ∧
    s.returns.length ≤ t.returns.length) ⟨le_refl _,le_refl _⟩ ?_
  rintro x a y ⟨hp,hr⟩ hn _
  obtain ⟨hp',hr'⟩ := next_grows hn
  exact ⟨hp.trans hp'.length_le,hr.trans hr'.length_le⟩

end Run

/-- The owner's next access makes `pop` return `result`. -/
def PopReturns (s : State ι η) (result : Taken η) : Prop :=
  ∃ pc,s.owner=.pop pc ∧ (s.queue.pop pc).2=.returned result

/-- Every push has been returned: nothing is stored and nothing is held. -/
def AllReturned (s : State ι η) : Prop :=
  (s.returns.map (·.ticket)).Perm (List.range s.pushed.length)

section Results

variable {s : State ι η} {len : Nat}

theorem Inv.length_eq (h : Inv s len) :
    s.returns.length+(held s.label s.owner).length+len=s.pushed.length := by
  have hl := h.tickets.length_eq
  simpa [window,Nat.add_assoc] using hl

theorem Inv.allReturned (h : Inv s 0) (hh : held s.label s.owner=[]) : AllReturned s := by
  have ht := h.tickets
  simpa [AllReturned,hh,window] using ht

/-- A deque that has returned as much as was pushed is empty. -/
theorem Inv.drained (h : Inv s len) (hl : s.pushed.length ≤ s.returns.length) :
    len=0 ∧ AllReturned s := by
  have he := h.length_eq
  obtain rfl : len=0 := by omega
  exact ⟨rfl,h.allReturned (List.length_eq_zero_iff.mp (by omega))⟩

theorem taken_empty {ptr ptr' : Option η} (h : taken ptr=(.empty,ptr')) : ptr=none := by
  cases ptr with
  | none => rfl
  | some x => simp [taken] at h

def OwnerPc.inPop : OwnerPc η → Bool
  | .pop _ => true
  | _ => false

theorem Inv.bottom_eq {s : State ι η} {len : Nat} (h : Inv s len) (hp : s.owner.inPop=false) :
    s.queue.bottom=s.queue.top+len := by
  have hok := h.owner
  cases ho : s.owner with
  | idle =>
    rw [ho] at hok
    exact hok
  | push x pc =>
    rw [ho] at hok
    cases pc with
    | loadBottom => exact hok
    | _ => exact hok.1
  | pop pc => simp [ho,OwnerPc.inPop] at hp

variable [DecidableEq ι]

/-- `pop` reports an empty deque only when it is empty. -/
theorem Inv.pop_empty (h : Inv s len) (hr : s.queue.InRange) {ptr : Option η} {t : State ι η}
    (hp : PopReturns s (.empty,ptr)) (hn : next s .own=some t) :
    Inv t 0 ∧ t.owner=.idle ∧ t.queue.top=s.queue.top := by
  obtain ⟨pc,ho,hres⟩ := hp
  have hok := h.owner
  have htop := hr.1
  simp only [next,ho,own] at hn
  rw [ho] at hok
  cases pc with
  | loadBottom | storeBottom bt => simp [pop] at hres
  | loadTop bt | compareExchange bt tp ptr =>
    simp only [pop] at hres
    split_ifs at hres
  | loadSlot bt tp =>
    simp only [pop] at hres
    split_ifs at hres with he
    obtain ⟨_,_,hcase⟩ := hok
    rw [if_neg he] at hcase
    have hticket : s.label bt<s.pushed.length :=
      h.ticket_lt (Or.inl (by simp [ho,held,he]))
    rw [hcase.2,List.getElem?_eq_getElem hticket] at hres
    cases hres
  | restoreLast bt p =>
    obtain ⟨_,ht,rfl,_⟩ := hok
    have hnone : p=none := taken_empty (by simpa [pop] using hres)
    subst hnone
    cases hn
    exact ⟨h.restore_step _ (by simp [ho,held]) ((wrap_of_lt (by omega)).trans ht.symm),rfl,
      rfl⟩
  | restoreEmpty bt =>
    obtain ⟨_,hbt,_,rfl⟩ := hok
    cases hn
    refine ⟨h.restore_step _ (by simp [ho,held]) ?_,rfl,rfl⟩
    unfold signed at hbt
    unfold wrap
    split_ifs at hbt <;> omega

/-- A successful `pop` takes the element behind all those that remain. -/
theorem Inv.pop_success (h : Inv s len) (hr : s.queue.InRange) {ptr : Option η}
    {t : State ι η} (hp : PopReturns s (.success,ptr)) (hn : next s .own=some t) :
    ∃ r : Return η,t.returns=s.returns++[r] ∧ r.stolen=false ∧ r.handle=ptr ∧
      ∀ i,t.queue.top ≤ i → i<t.queue.bottom → i<r.index := by
  obtain ⟨pc,ho,hres⟩ := hp
  have hok := h.owner
  have htop := hr.1
  obtain ⟨q,hq⟩ : ∃ q,s.queue.pop pc=(q,.returned (.success,ptr)) := ⟨_,Prod.ext rfl hres⟩
  simp only [next,ho,own,hq] at hn
  cases hn
  rw [ho] at hok
  refine ⟨_,rfl,rfl,rfl,?_⟩
  change ∀ i,q.top ≤ i → i<q.bottom → i<popIndex pc
  intro i hlo hhi
  cases pc with
  | loadBottom | storeBottom bt | restoreEmpty bt => simp [pop] at hq
  | loadTop bt | compareExchange bt tp ptr =>
    simp only [pop] at hq
    split_ifs at hq <;> cases hq
  | loadSlot bt tp =>
    obtain ⟨hb,_,_⟩ := hok
    simp only [pop] at hq
    split_ifs at hq with he
    · cases hq
    · obtain rfl : s.queue=q := congrArg Prod.fst hq
      exact lt_of_lt_of_eq hhi hb
  | restoreLast bt p =>
    obtain ⟨_,ht,_,_⟩ := hok
    obtain rfl : {s.queue with bottom := wrap (bt+1)}=q := congrArg Prod.fst hq
    have hw : wrap (bt+1)=bt+1 := wrap_of_lt (by omega)
    simp only [hw,ht] at hlo hhi
    omega

/-- Exactly-once delivery over every interleaving of the owner with any number of thieves. No
push is returned twice and every success hands out a pushed handle; while the owner is between
operations the pushes not yet returned are those stored from `top` up to `bottom`; steals come
in push order; a `pop` that reports an empty deque leaves it empty until the next push; a
successful `pop` takes the highest index. -/
theorem deque_exactly_once {s : State ι η} (h : (machine ι η).ReachableBy InRange s) :
    (s.returns.map (·.ticket)).Nodup ∧
    (∀ r∈s.returns,∃ x,s.pushed[r.ticket]?=some x ∧ r.handle=some x) ∧
    (s.owner=.idle → s.queue.top ≤ s.queue.bottom ∧
      (s.returns.map (·.ticket)++
        window s.label s.queue.top (s.queue.bottom-s.queue.top)).Perm
          (List.range s.pushed.length) ∧
      ∀ i,s.queue.top ≤ i → i<s.queue.bottom → s.queue.slot i=s.pushed[s.label i]?) ∧
    (stolen s.returns).Pairwise (fun a b => a.index<b.index ∧ a.ticket<b.ticket) ∧
    (∀ ptr t,PopReturns s (.empty,ptr) → next s .own=some t →
      t.queue.top=t.queue.bottom ∧ AllReturned t ∧
      ∀ u,(machine ι η).Steps InRange t u → u.pushed.length=t.pushed.length →
        AllReturned u ∧ (u.owner.inPop=false → u.queue.top=u.queue.bottom)) ∧
    (∀ ptr t,PopReturns s (.success,ptr) → next s .own=some t →
      ∃ r : Return η,t.returns=s.returns++[r] ∧ r.stolen=false ∧ r.handle=ptr ∧
        ∀ i,t.queue.top ≤ i → i<t.queue.bottom → i<r.index) := by
  obtain ⟨hr,len,hi⟩ := reachable_inv h
  refine ⟨?_,?_,?_,hi.order,?_,?_⟩
  · have hnd := hi.tickets.nodup_iff.mpr List.nodup_range
    rw [List.append_assoc] at hnd
    exact (List.nodup_append.mp hnd).1
  · intro r hmem
    have hlt := hi.returned_lt hmem
    exact ⟨_,List.getElem?_eq_getElem hlt,
      (hi.handles r hmem).trans (List.getElem?_eq_getElem hlt)⟩
  · intro ho
    have hb := hi.bottom_eq (by simp [ho,OwnerPc.inPop])
    refine ⟨by omega,?_,?_⟩
    · rw [show s.queue.bottom-s.queue.top=len by omega]
      simpa [ho,held] using hi.tickets
    · intro i hlo hhi
      have hs := hi.slot (i-s.queue.top) (by omega)
      rwa [Nat.add_sub_cancel' hlo] at hs
  · intro ptr t hp hn
    obtain ⟨ht,hidle,heq⟩ := hi.pop_empty hr hp hn
    have hall := ht.allReturned (by simp [hidle,held])
    have hb := ht.bottom_eq (by simp [hidle,OwnerPc.inPop])
    refine ⟨hb.symm,hall,?_⟩
    intro u hu hsame
    have htop : t.queue.top<2^63 := lt_of_eq_of_lt heq hr.1
    obtain ⟨_,m,hm⟩ := steps_inv hu ⟨⟨htop,Or.inl (hb ▸ htop)⟩,0,ht⟩
    have hlen := hall.length_eq
    obtain ⟨rfl,hu'⟩ := hm.drained (by have := steps_grow hu; simp at hlen; omega)
    exact ⟨hu',fun hnp => (hm.bottom_eq hnp).symm⟩
  · intro ptr t hp hn
    exact hi.pop_success hr hp hn

end Results

instance (q : WorkStealingQueue η) : Decidable q.InRange :=
  inferInstanceAs (Decidable
    (q.top<2^63 ∧ (q.bottom<2^63 ∨ q.top=0 ∧ q.bottom=2^64-1)))

instance (s : State ι η) (a : Action ι η) (t : State ι η) : Decidable (InRange s a t) :=
  inferInstanceAs (Decidable t.queue.InRange)

/-- A thief that read `top` and `bottom` before the owner popped the second of two elements
still gets the first. -/
theorem deque_exactly_once_race : ∃ s : State (Fin 2) Nat,
    (machine (Fin 2) Nat).ReachableBy InRange s ∧
    s.returns=[⟨false,1,1,some 6⟩,⟨true,0,0,some 5⟩] ∧ s.queue.top=1 ∧
      (s.returns.map (·.ticket)).Nodup := by
  obtain ⟨s,hs,hp⟩ := Machine.exists_reachableBy (machine (Fin 2) Nat) InRange
    [.push 5,.own,.own,.own,.own,.push 6,.own,.own,.own,.own,.steal 0,.thieve 0,.thieve 0,
      .pop,.own,.own,.own,.thieve 0,.own,.thieve 0]
    (fun s => s.returns=[⟨false,1,1,some 6⟩,⟨true,0,0,some 5⟩] ∧ s.queue.top=1)
    ⟨1,by decide,rfl⟩ (by decide +kernel)
  have hv : s.returns=[⟨false,1,1,some 6⟩,⟨true,0,0,some 5⟩] ∧ s.queue.top=1 := by
    simpa using hp
  exact ⟨s,hs,hv.1,hv.2,(deque_exactly_once hs).1⟩

end Acnet.Stealing
