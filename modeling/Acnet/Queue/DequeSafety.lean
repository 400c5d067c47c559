import Acnet.Queue.DequeMemory
import Mathlib.Data.List.Basic

namespace Acnet.DequeMemory

open History WorkStealingQueue

variable {ι θ η : Type}

/-- In view `u` the slot of element `i` can only show `e`, whose push happened before. -/
def Stored (q : Deque θ η) (i : Nat) (e : Entry θ η) (u : View Loc θ) : Prop :=
  e.view ≤ u ∧ ∃ w,(q.slot (q.index i)).getLast?=some w ∧ w.value=some e.handle ∧
    w.time ≤ u.1 (.slot (q.index i))

theorem Stored.mono {q : Deque θ η} {i : Nat} {e : Entry θ η} {u u' : View Loc θ}
    (h : Stored q i e u) (hu : u ≤ u') : Stored q i e u' := by
  obtain ⟨hv,w,hw,he,ht⟩ := h
  exact ⟨hv.trans hu,w,hw,he,ht.trans (hu.1 _)⟩

/-- The shared part of the invariant. `T` elements were taken at the top; `items` are the elements
from `T` on. A write of `bottom_` that no fence has hidden yet shows only elements that are there,
and what it carries suffices to read them. -/
structure Core (q : Deque θ η) (v : OwnerView θ) (items : List (Entry θ η)) (T : Nat) : Prop where
  power : ∃ k,q.capacity=2^k
  fits : items.length ≤ q.capacity
  small : T+items.length < 2^63
  length : q.top.length=T+1
  top : ∀ k (w : Write Loc θ Nat),q.top[k]?=some w → w.time=k ∧ w.value=k
  bottom : Sole .bottom q.bottom v.cur v.rel
  slots : ∀ j,Sole (.slot j) (q.slot j) v.cur v.rel
  rel : v.rel ≤ v.cur
  stored : ∀ j e,items[j]?=some e → Stored q (T+j) e v.rel
  shown : ∀ w∈q.bottom,q.sc .bottom ≤ w.time →
    ∀ j : Nat,(T+j : Int) < signed w.value → ∃ e,items[j]?=some e ∧ Stored q (T+j) e w.view
  reach : T ≤ q.sc .top+1 ∨ T ≤ v.cur.1 .top+1

namespace Core

variable {q : Deque θ η} {v : OwnerView θ} {items : List (Entry θ η)} {T time : Nat}
  {cur : View Loc θ} {e : Entry θ η}

theorem index_eq (h : Core q v items T) (i : Nat) : q.index i=i%q.capacity := by
  obtain ⟨k,hk⟩ := h.power
  exact land_mask hk i

theorem learn (h : Core q v items T) (hv : v.cur ≤ cur) : Core q ⟨cur,v.rel⟩ items T where
  power := h.power
  fits := h.fits
  small := h.small
  length := h.length
  top := h.top
  bottom := h.bottom.mono hv le_rfl
  slots j := (h.slots j).mono hv le_rfl
  rel := h.rel.trans hv
  stored := h.stored
  shown := h.shown
  reach := h.reach.imp_right fun hr => hr.trans (Nat.add_le_add_right (hv.1 _) 1)

/-- A release fence of the owner. -/
theorem release (h : Core q v items T) : Core q ⟨v.cur,v.cur⟩ items T where
  power := h.power
  fits := h.fits
  small := h.small
  length := h.length
  top := h.top
  bottom := h.bottom.mono le_rfl h.rel
  slots j := (h.slots j).mono le_rfl h.rel
  rel := le_rfl
  stored j e he := (h.stored j e he).mono h.rel
  shown := h.shown
  reach := h.reach

/-- A `seq_cst` fence hides older writes of `bottom_`. -/
theorem fence (h : Core q v items T) {sc : Loc → Nat} (hsc : q.sc ≤ sc) :
    Core {q with sc := sc} v items T where
  power := h.power
  fits := h.fits
  small := h.small
  length := h.length
  top := h.top
  bottom := h.bottom
  slots := h.slots
  rel := h.rel
  stored := h.stored
  shown w hw ht := h.shown w hw ((hsc _).trans ht)
  reach := h.reach.imp_left fun hr => hr.trans (Nat.add_le_add_right (hsc _) 1)

theorem push (h : Core q v items T) (hlt : items.length < q.capacity)
    (hsmall : T+(items.length+1) < 2^63) (he : Stored q (T+items.length) e v.rel) :
    Core q v (items++[e]) T where
  power := h.power
  fits := by
    rw [List.length_append,List.length_singleton]
    exact hlt
  small := by simpa using hsmall
  length := h.length
  top := h.top
  bottom := h.bottom
  slots := h.slots
  rel := h.rel
  stored j e' hj := by
    rcases getElem?_concat_cases hj with hj | ⟨rfl,rfl⟩
    · exact h.stored j e' hj
    · exact he
  shown w hw ht j hj := by
    obtain ⟨e',he',hs⟩ := h.shown w hw ht j hj
    exact ⟨e',getElem?_concat_of_some he' _,hs⟩
  reach := h.reach

/-- The owner may store any value to `bottom_` that shows no more than the elements. -/
theorem storeBottom (h : Core q v items T) (ht : v.cur.1 .bottom < time) {value : Nat}
    (hle : signed value ≤ T+items.length) :
    Core {q with bottom := q.bottom++[⟨time,value,v.rel.observe .bottom time⟩]}
      ⟨v.cur.observe .bottom time,v.rel⟩ items T where
  power := h.power
  fits := h.fits
  small := h.small
  length := h.length
  top := h.top
  bottom := h.bottom.store ht (h.rel.1 _) value
  slots j := (h.slots j).mono View.le_observe le_rfl
  rel := h.rel.trans View.le_observe
  stored := h.stored
  shown w hw hsc j hj := by
    rcases List.mem_append.mp hw with hw | hw
    · exact h.shown w hw hsc j hj
    · rw [List.mem_singleton.mp hw] at hj ⊢
      replace hj : (T+j : Int) < signed value := hj
      have hlt : j < items.length := by omega
      have hget := List.getElem?_eq_getElem hlt
      exact ⟨_,hget,(h.stored j _ hget).mono View.le_observe⟩
  reach := h.reach.imp_right fun hr => hr.trans
    (Nat.add_le_add_right ((View.le_observe (v := v.cur)).1 _) 1)

/-- The slot of the next element is not in use. -/
theorem index_ne (h : Core q v items T) (hlt : items.length < q.capacity) {j : Nat}
    (hj : j < items.length) : q.index (T+j)≠q.index (T+items.length) := by
  intro he
  rw [h.index_eq,h.index_eq] at he
  have := slot_inj (a := T) (by omega) (by omega) (by omega) (by omega) he
  omega

theorem stored_other {i i' : Nat} {u : View Loc θ} (hs : Stored q i e u)
    (hne : q.index i≠q.index i') (h : History Loc θ (Option η)) :
    Stored {q with slot := Function.update q.slot (q.index i') h} i e u := by
  obtain ⟨hv,w,hw,he,ht⟩ := hs
  refine ⟨hv,w,?_,he,ht⟩
  exact (congrArg List.getLast? (Function.update_of_ne hne h q.slot)).trans hw

theorem storeSlot (h : Core q v items T) (hlt : items.length < q.capacity) {bt : Nat}
    (hbt : bt=T+items.length) (ht : v.cur.1 (.slot (q.index bt)) < time) (x : Option η) :
    Core {q with slot := Function.update q.slot (q.index bt) (q.slot (q.index bt)++
        [⟨time,x,v.rel.observe (.slot (q.index bt)) time⟩])}
      ⟨v.cur.observe (.slot (q.index bt)) time,v.rel⟩ items T where
  power := h.power
  fits := h.fits
  small := h.small
  length := h.length
  top := h.top
  bottom := h.bottom.mono View.le_observe le_rfl
  slots j := by
    dsimp only
    by_cases hj : j=q.index bt
    · subst hj
      rw [Function.update_self]
      exact (h.slots _).store ht (h.rel.1 _) x
    · rw [Function.update_of_ne hj]
      exact (h.slots j).mono View.le_observe le_rfl
  rel := h.rel.trans View.le_observe
  stored j e he := by
    have hj := (List.getElem?_eq_some_iff.mp he).1
    exact stored_other (h.stored j e he) (hbt ▸ h.index_ne hlt hj) _
  shown w hw hsc j hj := by
    obtain ⟨e,he,hs⟩ := h.shown w hw hsc j hj
    have hlen := (List.getElem?_eq_some_iff.mp he).1
    exact ⟨e,he,stored_other hs (hbt ▸ h.index_ne hlt hlen) _⟩
  reach := h.reach.imp_right fun hr => hr.trans
    (Nat.add_le_add_right ((View.le_observe (v := v.cur)).1 _) 1)

/-- An exchange takes the first element. -/
theorem take (h : Core q v (e::items) T) (view : View Loc θ) (hv : v.cur ≤ cur)
    (hreach : T ≤ q.sc .top ∨ T ≤ cur.1 .top) :
    Core {q with top := q.top++[⟨T+1,T+1,view⟩]} ⟨cur,v.rel⟩ items (T+1) where
  power := h.power
  fits := (Nat.le_succ _).trans h.fits
  small := by
    have := h.small
    rw [List.length_cons] at this
    omega
  length := by
    have := h.length
    simp only [List.length_append,List.length_singleton]
    omega
  top k w hw := by
    rcases getElem?_concat_cases hw with hw | ⟨rfl,rfl⟩
    · exact h.top k w hw
    · exact ⟨h.length.symm,h.length.symm⟩
  bottom := h.bottom.mono hv le_rfl
  slots j := (h.slots j).mono hv le_rfl
  rel := h.rel.trans hv
  stored j e' he := by
    rw [show T+1+j=T+(j+1) by omega]
    exact h.stored (j+1) e' (by simpa using he)
  shown w hw ht j hj := by
    obtain ⟨e',he,hs⟩ := h.shown w hw ht (j+1) (by push_cast at hj ⊢; omega)
    rw [show T+1+j=T+(j+1) by omega]
    exact ⟨e',by simpa using he,hs⟩
  reach := hreach.imp (fun hr => Nat.add_le_add_right hr 1) fun hr => Nat.add_le_add_right hr 1

/-- The owner takes the last element once no write of `bottom_` shows it any more. -/
theorem claim (h : Core q v (items++[e]) T)
    (hhide : ∀ w∈q.bottom,q.sc .bottom ≤ w.time → signed w.value ≤ T+items.length) :
    Core q v items T where
  power := h.power
  fits := by
    have := h.fits
    rw [List.length_append,List.length_singleton] at this
    omega
  small := by
    have := h.small
    rw [List.length_append,List.length_singleton] at this
    omega
  length := h.length
  top := h.top
  bottom := h.bottom
  slots := h.slots
  rel := h.rel
  stored j e' he := h.stored j e' (getElem?_concat_of_some he _)
  shown w hw ht j hj := by
    obtain ⟨e',he,hs⟩ := h.shown w hw ht j hj
    have hle := hhide w hw ht
    rcases getElem?_concat_cases he with he | ⟨rfl,rfl⟩
    · exact ⟨e',he,hs⟩
    · omega
  reach := h.reach

theorem top_get (h : Core q v items T) {k : Nat} {w : Write Loc θ Nat} (hw : q.top[k]?=some w) :
    w.time=k ∧ w.value=k ∧ k ≤ T := by
  have hk := (List.getElem?_eq_some_iff.mp hw).1
  have hl := h.length
  exact ⟨(h.top k w hw).1,(h.top k w hw).2,by omega⟩

/-- The exchange reads the last write of `top_`, which it finds at `T`, or it fails on a newer or
older one. -/
theorem exchange_cases (h : Core q v items T) {u : View Loc θ} {tp n : Nat}
    {r : Bool×Deque θ η×View Loc θ} (hc : compareExchange tp n q u=some r) :
    (∃ view u',r=(true,{q with top := q.top++[⟨T+1,T+1,view⟩]},u') ∧ tp=T ∧ u ≤ u' ∧
      T ≤ u'.1 .top) ∨
    ∃ k u',r=(false,q,u') ∧ k≠tp ∧ k ≤ T ∧ u.1 .top ≤ k ∧ u ≤ u' := by
  unfold compareExchange at hc
  split at hc
  · cases hc
  · rename_i found v' hl
    obtain ⟨w,hw,ht,he⟩ := load_cases hl
    obtain ⟨rfl,rfl⟩ := Prod.mk.inj he
    obtain ⟨htime,hvalue,hn⟩ := h.top_get hw
    split_ifs at hc with hf
    · obtain ⟨r',hu,rfl⟩ := Option.map_eq_some_iff.mp hc
      obtain ⟨w',hw',ht',hfree,rfl⟩ := update_cases hu
      obtain rfl := Option.some.inj (hw.symm.trans hw')
      -- the time after `w` is free only if `w` is the last write
      have hT : n=T := by
        by_contra hne
        obtain ⟨u,hu⟩ : ∃ u,q.top[n+1]?=some u :=
          ⟨_,List.getElem?_eq_getElem (by have := h.length; omega)⟩
        exact hfree u (List.mem_of_getElem? hu) ((h.top _ u hu).1.trans (by omega))
      have hsmall := h.small
      have htp : tp=T := hf.symm.trans (hvalue.trans hT)
      subst htp
      have hwrap : wrap (tp+1)=tp+1 := wrap_of_lt (by omega)
      have hr : n ≤ (History.read .top .acqRel w u).1 .top := htime ▸ time_le_read w
      simp only [htime,hT,hwrap] at hr ⊢
      refine Or.inl ⟨_,_,rfl,trivial,(le_read w).trans View.le_observe,hr.trans ?_⟩
      exact View.le_observe.1 _
    · refine Or.inr ⟨n,_,(Option.some.inj hc).symm,?_,hn,by omega,le_read w⟩
      exact fun he => hf (hvalue.trans he)

end Core

def LastBottom (q : Deque θ η) (n : Nat) : Prop := ∃ w,q.bottom.getLast?=some w ∧ w.value=n

/-- The owner and the thieves contend for the last element, `bt`, or a thief has it already. -/
structure Race (s : State ι η) (T bt : Nat) : Prop where
  held : s.held=none
  count : bt+1=T+s.items.length
  le : bt ≤ T
  seen : bt ≤ s.ownerView.cur.1 .top

/-- Where the owner stands. After the fence of its `pop` no thief that is still before its own
fence can see the last element, and it sees every `top_` that a thief behind its fence has read. -/
def OwnerOk (s : State ι η) (T : Nat) : OwnerPc η → Prop
  | .idle | .push _ .loadBottom | .pop .loadBottom =>
      s.held=none ∧ LastBottom s.deque (T+s.items.length)
  | .push _ (.loadTop bt) =>
      s.held=none ∧ LastBottom s.deque (T+s.items.length) ∧ bt=T+s.items.length
  | .push _ (.storeSlot bt) =>
      s.held=none ∧ LastBottom s.deque (T+s.items.length) ∧ bt=T+s.items.length ∧
        s.items.length < s.deque.capacity
  | .push x (.fence bt) =>
      s.held=none ∧ LastBottom s.deque (T+s.items.length) ∧ bt=T+s.items.length ∧
        s.items.length < s.deque.capacity ∧
        ∃ w,(s.deque.slot (s.deque.index bt)).getLast?=some w ∧ w.value=some x
  | .push x (.storeBottom bt) =>
      s.held=none ∧ LastBottom s.deque (T+s.items.length) ∧ bt=T+s.items.length ∧
        s.items.length < s.deque.capacity ∧
        Stored s.deque bt ⟨s.pushed.length,x,s.ownerView.rel⟩ s.ownerView.rel
  | .pop (.storeBottom bt) => s.held=none ∧ bt=wrapSub (T+s.items.length) 1
  | .pop (.fence bt) =>
      s.held=none ∧ bt=wrapSub (T+s.items.length) 1 ∧ LastBottom s.deque bt
  | .pop (.loadTop bt) =>
      s.held=none ∧ bt=wrapSub (T+s.items.length) 1 ∧
        (∃ w,s.deque.bottom.getLast?=some w ∧ w.value=bt ∧ w.time ≤ s.deque.sc .bottom) ∧
        ((T : Int) ≤ signed bt ∨ signed bt ≤ s.ownerView.cur.1 .top)
  | .pop (.loadSlot bt tp) =>
      (tp=bt → Race s T bt) ∧
        (tp≠bt → LastBottom s.deque (T+s.items.length) ∧
          ∃ e w,s.held=some e ∧ (s.deque.slot (s.deque.index bt)).getLast?=some w ∧
            w.value=some e.handle)
  | .pop (.compareExchange bt tp ptr) =>
      tp=bt ∧ Race s T bt ∧ (T=bt → ∃ e,s.items=[e] ∧ ptr=some e.handle)
  | .pop (.restoreLast bt ptr) => s.items=[] ∧ T=bt+1 ∧ ptr=s.held.map (·.handle)
  | .pop (.restoreEmpty bt) => s.items=[] ∧ s.held=none ∧ bt=wrapSub T 1

/-- A `pop` that reads `top_` next takes no element without a race that a thief could take. -/
def Safe (s : State ι η) (T : Nat) : Prop :=
  ∀ bt,s.owner=.pop (.loadTop bt) → (T : Int) < signed bt ∨ T ≤ s.ownerView.cur.1 .top

/-- A thief that has read `tp` can still win only the first element. -/
def Ready (s : State ι η) (T tp : Nat) (K : Entry (Option ι) η → Prop) : Prop :=
  tp=T → Safe s T ∧ ∃ e,s.items.head?=some e ∧ K e

def ThiefOk (s : State ι η) (T : Nat) (v : View Loc (Option ι)) : StealPc η → Prop
  | .loadTop => True
  | .fence tp => tp ≤ T ∧ tp ≤ v.1 .top
  | .loadBottom tp =>
      tp ≤ T ∧ tp ≤ s.deque.sc .top ∧
        ∀ w∈s.deque.bottom,v.1 .bottom ≤ w.time → (tp : Int) < signed w.value →
          Ready s T tp (Stored s.deque T · w.view)
  | .loadSlot tp =>
      tp ≤ T ∧ tp ≤ s.deque.sc .top ∧ Ready s T tp (Stored s.deque T · v)
  | .compareExchange tp ptr =>
      tp ≤ T ∧ tp ≤ s.deque.sc .top ∧ Ready s T tp fun e => ptr=some e.handle ∧ e.view ≤ v

structure Inv (s : State ι η) (T : Nat) : Prop where
  core : Core s.deque s.ownerView s.items T
  held : ∀ e,s.held=some e → e.view ≤ s.ownerView.cur
  owner : OwnerOk s T s.owner
  thieves : ∀ i pc,s.thieves i=some pc → ThiefOk s T (s.thiefView i) pc

/-- What a step does to a plain deque: the owner adds and takes elements at its end, thieves take
the first one; an element that is returned is handed out with its own handle, to a thread that
knows what was known at its push. -/
inductive Effect (s t : State ι η) : Prop
  | silent (pushed : t.pushed=s.pushed) (items : t.items=s.items) (held : t.held=s.held)
      (returns : t.returns=s.returns)
  | push (e : Entry (Option ι) η) (ticket : e.ticket=s.pushed.length)
      (pushed : t.pushed=s.pushed++[e.handle]) (items : t.items=s.items++[e])
      (free : s.held=none) (held : t.held=none)
      (returns : t.returns=s.returns)
  | claim (e : Entry (Option ι) η) (pushed : t.pushed=s.pushed) (items : s.items=t.items++[e])
      (free : s.held=none) (held : t.held=some e) (returns : t.returns=s.returns)
  | give (e : Entry (Option ι) η) (v : View Loc (Option ι)) (view : e.view ≤ v)
      (pushed : t.pushed=s.pushed) (items : t.items=s.items) (had : s.held=some e)
      (held : t.held=none) (returns : t.returns=s.returns++[⟨false,some e,some e.handle,v⟩])
  | steal (e : Entry (Option ι) η) (v : View Loc (Option ι)) (view : e.view ≤ v)
      (pushed : t.pushed=s.pushed) (items : s.items=e::t.items) (held : t.held=s.held)
      (returns : t.returns=s.returns++[⟨true,some e,some e.handle,v⟩])

/-- What a step with the same `T` has to keep for the thieves. -/
structure Keeps (s t : State ι η) (T : Nat) : Prop where
  sc : s.deque.sc .top ≤ t.deque.sc .top
  ready : T ≤ s.deque.sc .top → Safe s T → ∀ e,s.items.head?=some e →
    Safe t T ∧ t.items.head?=some e
  stored : ∀ e u,s.items.head?=some e → Stored s.deque T e u → Stored t.deque T e u
  bottom : ∀ w∈t.deque.bottom,w∈s.deque.bottom ∨
    ((T : Int) < signed w.value → Safe t T ∧ ∃ e,t.items.head?=some e ∧ Stored t.deque T e w.view)

section Frames

variable {s t : State ι η} {T : Nat} {v v' : View Loc (Option ι)} {pc : StealPc η}

theorem Ready.keep {tp : Nat} {K K' : Entry (Option ι) η → Prop} (h : Ready s T tp K)
    (hk : Keeps s t T) (hsc : tp ≤ s.deque.sc .top)
    (himp : ∀ e,s.items.head?=some e → K e → K' e) : Ready t T tp K' := by
  rintro rfl
  obtain ⟨hsafe,e,he,hK⟩ := h rfl
  obtain ⟨hsafe',he'⟩ := hk.ready hsc hsafe e he
  exact ⟨hsafe',e,he',himp e he hK⟩

theorem ThiefOk.keep (h : ThiefOk s T v pc) (hk : Keeps s t T) (hv : v ≤ v') :
    ThiefOk t T v' pc := by
  cases pc with
  | loadTop => trivial
  | fence tp => exact ⟨h.1,h.2.trans (hv.1 _)⟩
  | loadBottom tp =>
    refine ⟨h.1,h.2.1.trans hk.sc,fun w hw ht hlt => ?_⟩
    rcases hk.bottom w hw with hw | hnew
    · exact (h.2.2 w hw ((hv.1 _).trans ht) hlt).keep hk h.2.1 fun e he => hk.stored e _ he
    · rintro rfl
      exact hnew hlt
  | loadSlot tp =>
    refine ⟨h.1,h.2.1.trans hk.sc,h.2.2.keep hk h.2.1 fun e he hs => ?_⟩
    exact (hk.stored e v he hs).mono hv
  | compareExchange tp ptr =>
    exact ⟨h.1,h.2.1.trans hk.sc,h.2.2.keep hk h.2.1 fun e _ hs => ⟨hs.1,hs.2.trans hv⟩⟩

/-- Once `top_` has moved on no thief that has read it before can win. -/
theorem ThiefOk.advance (h : ThiefOk s T v pc) (hsc : t.deque.sc=s.deque.sc) :
    ThiefOk t (T+1) v pc := by
  have hmiss {tp : Nat} (hle : tp ≤ T) (K : Entry (Option ι) η → Prop) :
      Ready t (T+1) tp K := fun he => by omega
  cases pc with
  | loadTop => trivial
  | fence tp => exact ⟨h.1.trans (Nat.le_succ T),h.2⟩
  | loadBottom tp =>
    exact ⟨h.1.trans (Nat.le_succ T),hsc ▸ h.2.1,fun _ _ _ _ => hmiss h.1 _⟩
  | loadSlot tp => exact ⟨h.1.trans (Nat.le_succ T),hsc ▸ h.2.1,hmiss h.1 _⟩
  | compareExchange tp ptr => exact ⟨h.1.trans (Nat.le_succ T),hsc ▸ h.2.1,hmiss h.1 _⟩

theorem safe_of_ne (h : ∀ bt,s.owner≠.pop (.loadTop bt)) : Safe s T :=
  fun bt hbt => absurd hbt (h bt)

/-- A step of a thief that takes nothing: only views grow. -/
theorem OwnerOk.fence {pc : OwnerPc η} {sc : Loc → Nat} {cur : View Loc (Option ι)}
    (h : OwnerOk s T pc) (hsc : s.deque.sc ≤ sc) (hcur : s.ownerView.cur ≤ cur)
    (thieves : ι → Option (StealPc η)) (views : ι → View Loc (Option ι)) :
    OwnerOk {s with
      deque := {s.deque with sc := sc}
      ownerView := ⟨cur,s.ownerView.rel⟩
      thieves := thieves
      thiefView := views} T pc := by
  have hrace {bt : Nat} (hr : Race s T bt) : Race {s with
      deque := {s.deque with sc := sc}
      ownerView := ⟨cur,s.ownerView.rel⟩
      thieves := thieves
      thiefView := views} T bt := ⟨hr.held,hr.count,hr.le,hr.seen.trans (hcur.1 _)⟩
  cases pc with
  | idle => exact h
  | push x pc => cases pc <;> exact h
  | pop pc =>
    cases pc with
    | loadBottom | storeBottom | fence | restoreLast | restoreEmpty => exact h
    | loadTop bt =>
      obtain ⟨hheld,hbt,⟨w,hw,he,ht⟩,htop⟩ := h
      have hv : (s.ownerView.cur.1 .top : Int) ≤ cur.1 .top := by exact_mod_cast hcur.1 _
      exact ⟨hheld,hbt,⟨w,hw,he,ht.trans (hsc _)⟩,htop.imp_right fun hle => hle.trans hv⟩
    | loadSlot bt tp => exact ⟨fun he => hrace (h.1 he),h.2⟩
    | compareExchange bt tp ptr => exact ⟨h.1,hrace h.2.1,h.2.2⟩

/-- A thief takes the first element. -/
theorem OwnerOk.steal {pc : OwnerPc η} {e : Entry (Option ι) η} {rest : List (Entry (Option ι) η)}
    (h : OwnerOk s T pc) (hpc : s.owner=pc) (hi : s.items=e::rest) (hsafe : Safe s T)
    (top : History Loc (Option ι) Nat) (thieves : ι → Option (StealPc η))
    (views : ι → View Loc (Option ι)) (returns : List (Return (Option ι) η)) :
    OwnerOk {s with
      deque := {s.deque with top := top}
      thieves := thieves
      thiefView := views
      items := rest
      returns := returns} (T+1) pc := by
  have hlen : T+s.items.length=T+1+rest.length := by
    rw [hi,List.length_cons]
    omega
  have hle : rest.length ≤ s.items.length := by
    rw [hi]
    exact Nat.le_succ _
  have hrace {bt : Nat} (hr : Race s T bt) : Race {s with
      deque := {s.deque with top := top}
      thieves := thieves
      thiefView := views
      items := rest
      returns := returns} (T+1) bt :=
    ⟨hr.held,hr.count.trans hlen,hr.le.trans (Nat.le_succ T),hr.seen⟩
  cases pc with
  | idle =>
    unfold OwnerOk at h ⊢
    rw [hlen] at h
    exact h
  | push x pc =>
    cases pc with
    | loadBottom | loadTop =>
      unfold OwnerOk at h ⊢
      rw [hlen] at h
      exact h
    | storeSlot bt =>
      obtain ⟨hheld,hlast,hbt,hcap⟩ := h
      rw [hlen] at hlast hbt
      exact ⟨hheld,hlast,hbt,hle.trans_lt hcap⟩
    | fence bt =>
      obtain ⟨hheld,hlast,hbt,hcap,hslot⟩ := h
      rw [hlen] at hlast hbt
      exact ⟨hheld,hlast,hbt,hle.trans_lt hcap,hslot⟩
    | storeBottom bt =>
      obtain ⟨hheld,hlast,hbt,hcap,hstored⟩ := h
      rw [hlen] at hlast hbt
      exact ⟨hheld,hlast,hbt,hle.trans_lt hcap,hstored⟩
  | pop pc =>
    cases pc with
    | loadBottom | storeBottom | fence =>
      unfold OwnerOk at h ⊢
      rw [hlen] at h
      exact h
    | loadTop bt =>
      obtain ⟨hheld,hbt,hhide,htop⟩ := h
      rw [hlen] at hbt
      refine ⟨hheld,hbt,hhide,?_⟩
      -- the element that the thief takes may be the one that the owner is after
      have := hsafe bt hpc
      push_cast
      change _ ∨ signed bt ≤ s.ownerView.cur.1 .top
      omega
    | loadSlot bt tp =>
      refine ⟨fun he => hrace (h.1 he),fun he => ?_⟩
      have hslot := h.2 he
      rw [hlen] at hslot
      exact hslot
    | compareExchange bt tp ptr =>
      have := h.2.1.le
      exact ⟨h.1,hrace h.2.1,fun he => by omega⟩
    | restoreLast bt ptr => simp [OwnerOk,hi] at h
    | restoreEmpty bt => simp [OwnerOk,hi] at h

end Frames

section Owner

variable {s t : State ι η} {T n : Nat} {x : η}

theorem Inv.of_owner (h : Inv s T) (ht : t.thieves=s.thieves) (hv : t.thiefView=s.thiefView)
    (hcore : Core t.deque t.ownerView t.items T)
    (hheld : ∀ e,t.held=some e → e.view ≤ t.ownerView.cur) (howner : OwnerOk t T t.owner)
    (hk : Keeps s t T) : Inv t T where
  core := hcore
  held := hheld
  owner := howner
  thieves i pc hi := by
    rw [hv]
    exact (h.thieves i pc (ht ▸ hi)).keep hk le_rfl

/-- The owner reads something. -/
theorem Inv.owner_load (h : Inv s T) {cur : View Loc (Option ι)} (hcur : s.ownerView.cur ≤ cur)
    {pc : OwnerPc η} (hne : ∀ bt,pc≠.pop (.loadTop bt))
    (hok : OwnerOk {s with ownerView := ⟨cur,s.ownerView.rel⟩,owner := pc} T pc) :
    Inv {s with ownerView := ⟨cur,s.ownerView.rel⟩,owner := pc} T :=
  h.of_owner rfl rfl (h.core.learn hcur) (fun e he => (h.held e he).trans hcur) hok
    { sc := le_rfl
      ready := fun _ _ _ he => ⟨safe_of_ne hne,he⟩
      stored := fun _ _ _ hs => hs
      bottom := fun _ hw => Or.inl hw }

/-- The owner stores to `bottom_` a value that shows no more than the elements. -/
theorem Inv.store_bottom (h : Inv s T) {items : List (Entry (Option ι) η)}
    (hcore : Core s.deque s.ownerView items T)
    (hhead : ∀ e,s.items.head?=some e → items.head?=some e) {value : Nat}
    (hle : signed value ≤ T+items.length) (ht : s.ownerView.cur.1 .bottom < n) {pc : OwnerPc η}
    (hne : ∀ bt,pc≠.pop (.loadTop bt)) {held : Option (Entry (Option ι) η)} {pushed : List η}
    {returns : List (Return (Option ι) η)} (hheld : ∀ e,held=some e → e.view ≤ s.ownerView.cur)
    (hok : OwnerOk {s with
      deque := {s.deque with
        bottom := s.deque.bottom++[⟨n,value,s.ownerView.rel.observe .bottom n⟩]}
      ownerView := ⟨s.ownerView.cur.observe .bottom n,s.ownerView.rel⟩
      owner := pc
      pushed := pushed
      items := items
      held := held
      returns := returns} T pc) :
    Inv {s with
      deque := {s.deque with
        bottom := s.deque.bottom++[⟨n,value,s.ownerView.rel.observe .bottom n⟩]}
      ownerView := ⟨s.ownerView.cur.observe .bottom n,s.ownerView.rel⟩
      owner := pc
      pushed := pushed
      items := items
      held := held
      returns := returns} T := by
  have hnew := hcore.storeBottom ht hle
  refine h.of_owner rfl rfl hnew (fun e he => (hheld e he).trans View.le_observe) hok
    ⟨le_rfl,?_,?_,?_⟩
  · exact fun _ _ e he => ⟨safe_of_ne hne,hhead e he⟩
  · exact fun _ _ _ hs => hs
  · intro w hw
    rcases List.mem_append.mp hw with hw | hw
    · exact Or.inl hw
    · rw [List.mem_singleton.mp hw]
      refine Or.inr fun hlt => ⟨safe_of_ne hne,?_⟩
      replace hlt : (T : Int) < signed value := hlt
      have hpos : 0 < items.length := by omega
      have hget := List.getElem?_eq_getElem hpos
      exact ⟨items[0],by rw [List.head?_eq_getElem?,hget],
        (hcore.stored 0 _ hget).mono View.le_observe⟩

theorem LastBottom.load {q : Deque θ η} {v : OwnerView θ} {items : List (Entry θ η)} {T n b : Nat}
    {w : Write Loc θ Nat} (hl : LastBottom q b) (h : Core q v items T) (hw : q.bottom[n]?=some w)
    (ht : v.cur.1 .bottom ≤ w.time) : w.value=b := by
  obtain ⟨u,hu,he⟩ := hl
  rw [← Option.some.inj (hu.symm.trans (h.bottom.load_last hw ht))]
  exact he

/-- The new element is in its slot. -/
theorem Inv.store_slot (h : Inv s T) {bt : Nat} (hpc : s.owner=.push x (.storeSlot bt))
    (ht : s.ownerView.cur.1 (.slot (s.deque.index bt)) < n) :
    Inv {s with
      deque := {s.deque with
        slot := Function.update s.deque.slot (s.deque.index bt) (s.deque.slot (s.deque.index bt)++
          [⟨n,some x,s.ownerView.rel.observe (.slot (s.deque.index bt)) n⟩])}
      ownerView := ⟨s.ownerView.cur.observe (.slot (s.deque.index bt)) n,s.ownerView.rel⟩
      owner := .push x (.fence bt)} T := by
  have hok := h.owner
  rw [hpc] at hok
  obtain ⟨hheld,hlast,hbt,hlt⟩ := hok
  refine h.of_owner rfl rfl (h.core.storeSlot hlt hbt ht (some x)) ?_ ?_ ⟨le_rfl,?_,?_,?_⟩
  · exact fun e he => (h.held e he).trans View.le_observe
  · refine ⟨hheld,hlast,hbt,hlt,⟨n,some x,s.ownerView.rel.observe (.slot (s.deque.index bt)) n⟩,
      ?_,rfl⟩
    change (Function.update s.deque.slot (s.deque.index bt) _ (s.deque.index bt)).getLast?=_
    rw [Function.update_self]
    exact List.getLast?_concat
  · exact fun _ _ e he => ⟨safe_of_ne fun _ => by simp,he⟩
  · intro e u he hs
    have hpos : 0 < s.items.length := by
      cases hi : s.items with
      | nil =>
        rw [hi] at he
        cases he
      | cons => exact Nat.succ_pos _
    exact Core.stored_other hs (hbt ▸ h.core.index_ne hlt hpos) _
  · exact fun w hw => Or.inl hw

theorem Inv.push_step (h : Inv s T) {pc : PushPc} (hpc : s.owner=.push x pc)
    {r : Deque (Option ι) η×OwnerView (Option ι)×Control PushPc Bool}
    (hp : push x n s.deque s.ownerView pc=some r) (hr : (pushed s x r).deque.InRange) :
    Inv (pushed s x r) T ∧ Effect s (pushed s x r) := by
  have hok := h.owner
  rw [hpc] at hok
  have hsmall := h.core.small
  cases pc with
  | loadBottom =>
    obtain ⟨r,hl,rfl⟩ := Option.map_eq_some_iff.mp hp
    obtain ⟨w,hw,ht,rfl⟩ := load_cases hl
    have hb := hok.2.load h.core hw ht
    exact ⟨h.owner_load (le_read w) (by simp) ⟨hok.1,hok.2,hb⟩,.silent rfl rfl rfl rfl⟩
  | loadTop bt =>
    obtain ⟨r,hl,rfl⟩ := Option.map_eq_some_iff.mp hp
    obtain ⟨w,hw,ht,rfl⟩ := load_cases hl
    obtain ⟨hheld,hlast,hbt⟩ := hok
    obtain ⟨-,hvalue,hn⟩ := h.core.top_get hw
    dsimp only
    split_ifs with hfull
    · exact ⟨h.owner_load (le_read w) (by simp) ⟨hheld,hlast⟩,.silent rfl rfl rfl rfl⟩
    · rw [hvalue,wrapSub_of_le (by omega) (by omega)] at hfull
      have hlt : s.items.length < s.deque.capacity := by omega
      exact ⟨h.owner_load (le_read w) (by simp) ⟨hheld,hlast,hbt,hlt⟩,.silent rfl rfl rfl rfl⟩
  | storeSlot bt =>
    obtain ⟨r,hs,rfl⟩ := Option.map_eq_some_iff.mp hp
    obtain ⟨ht,rfl⟩ := storeAfter_cases hs
    exact ⟨h.store_slot hpc ht,.silent rfl rfl rfl rfl⟩
  | fence bt =>
    obtain rfl := Option.some.inj hp
    obtain ⟨hheld,hlast,hbt,hlt,w,hw,he⟩ := hok
    have hseen := (h.core.slots _).seen w (List.mem_of_getLast? hw)
    refine ⟨h.of_owner rfl rfl h.core.release h.held
      ⟨hheld,hlast,hbt,hlt,le_rfl,w,hw,he,hseen⟩ ⟨le_rfl,?_,?_,?_⟩,.silent rfl rfl rfl rfl⟩
    · exact fun _ _ e he => ⟨safe_of_ne fun _ => by simp [pushed],he⟩
    · exact fun _ _ _ hs => hs
    · exact fun _ hw => Or.inl hw
  | storeBottom bt =>
    obtain ⟨r,hs,rfl⟩ := Option.map_eq_some_iff.mp hp
    obtain ⟨ht,rfl⟩ := storeAfter_cases hs
    obtain ⟨hheld,-,hbt,hlt,hstored⟩ := hok
    have hwrap : wrap (bt+1)=bt+1 := wrap_of_lt (by omega)
    have hbound : bt+1 < 2^63 := by
      have := hr ⟨n,wrap (bt+1),s.ownerView.rel.observe .bottom n⟩
        (List.mem_append_right _ (by simp))
      dsimp only at this
      omega
    rw [hbt] at hstored
    refine ⟨h.store_bottom (h.core.push hlt (by omega) hstored) ?_ ?_ ht (by simp)
      (fun e he => h.held e he) ⟨hheld,_,List.getLast?_concat,?_⟩,
      .push _ rfl rfl rfl hheld hheld rfl⟩
    · intro e he
      rw [List.head?_append,he]
      rfl
    · rw [hwrap,signed_of_lt hbound,List.length_append,List.length_singleton]
      omega
    · dsimp only
      rw [hwrap,List.length_append,List.length_singleton]
      omega

theorem signed_pred {b : Nat} (hb : b < 2^63) : signed (wrapSub b 1)=b-1 := by
  unfold signed wrapSub
  split_ifs <;> omega

theorem wrap_pred_succ {b : Nat} (hb : b < 2^63) : wrap (wrapSub b 1+1)=b := by
  unfold wrap wrapSub
  omega

/-- Behind the fence the owner sees what the thieves before it have read of `top_`, and they no
longer see the element that it is after. -/
theorem Inv.pop_fence (h : Inv s T) {bt : Nat} (hpc : s.owner=.pop (.fence bt)) :
    Inv {s with
      deque := {s.deque with sc := (s.ownerView.cur.fence s.deque.sc).1}
      ownerView := ⟨s.ownerView.cur.fence s.deque.sc,s.ownerView.cur.fence s.deque.sc⟩
      owner := .pop (.loadTop bt)} T := by
  have hok := h.owner
  rw [hpc] at hok
  obtain ⟨hheld,hbt,w,hw,he⟩ := hok
  have hcur : s.ownerView.cur ≤ s.ownerView.cur.fence s.deque.sc := View.le_fence
  have hsc : s.deque.sc ≤ (s.ownerView.cur.fence s.deque.sc).1 := View.sc_le_fence
  have hseen := (h.core.bottom.seen w (List.mem_of_getLast? hw)).trans (hcur.1 _)
  have hreach : T ≤ (s.ownerView.cur.fence s.deque.sc).1 .top+1 := by
    rcases h.core.reach with hr | hr
    · exact hr.trans (Nat.add_le_add_right (hsc _) 1)
    · exact hr.trans (Nat.add_le_add_right (hcur.1 _) 1)
  refine h.of_owner rfl rfl ((h.core.learn hcur).release.fence hsc)
    (fun e he => (h.held e he).trans hcur)
    ⟨hheld,hbt,⟨w,hw,he,hseen⟩,?_⟩ ⟨hsc _,?_,fun _ _ _ hs => hs,fun _ hw => Or.inl hw⟩
  · rw [hbt,signed_pred h.core.small]
    push_cast
    omega
  · exact fun hle _ e he => ⟨fun _ _ => Or.inr (hle.trans (hsc _)),he⟩

/-- The owner takes the last element without a race: a thief that could take the element, too,
would have shown it a newer `top_`. -/
theorem Inv.claim_step (h : Inv s T) {bt tp : Nat} {cur : View Loc (Option ι)}
    (hpc : s.owner=.pop (.loadTop bt)) (hcur : s.ownerView.cur ≤ cur)
    (hold : s.ownerView.cur.1 .top ≤ tp) (hlt : (tp : Int) < signed bt) :
    ∃ items e,s.items=items++[e] ∧
      Inv {s with
        ownerView := ⟨cur,s.ownerView.rel⟩
        owner := .pop (.loadSlot bt tp)
        items := items
        held := some e} T := by
  have hok := h.owner
  rw [hpc] at hok
  obtain ⟨hheld,hbt,⟨w,hw,hwe,hwt⟩,htop⟩ := hok
  have hsmall := h.core.small
  have hsigned := signed_pred hsmall
  rw [← hbt] at hsigned
  have hne : s.items≠[] := by
    intro hi
    rw [hi] at hsigned
    simp only [List.length_nil] at hsigned
    omega
  obtain ⟨items,e,hi⟩ : ∃ items e,s.items=items++[e] :=
    ⟨_,_,(List.dropLast_append_getLast hne).symm⟩
  have hlen : s.items.length=items.length+1 := by rw [hi]; simp
  have hbt' : bt=T+items.length := by
    rw [hbt,wrapSub_of_le (by omega) (by omega)]
    omega
  have hcore := h.core
  rw [hi] at hcore
  obtain ⟨-,u,hu,hue,-⟩ := hcore.stored items.length e (by simp)
  -- only the last write of `bottom_` is still visible behind a fence
  have hhide : ∀ w∈s.deque.bottom,s.deque.sc .bottom ≤ w.time →
      signed w.value ≤ T+items.length := by
    intro w' hw' ht'
    rw [h.core.bottom.chain.eq_last hw hw' (hwt.trans ht'),hwe,hsigned]
    omega
  have hnext : bt≠tp := by
    rintro rfl
    rw [signed_of_lt (by omega)] at hlt
    omega
  refine ⟨items,e,hi,h.of_owner rfl rfl ((hcore.claim hhide).learn hcur) ?_ ?_
    ⟨le_rfl,?_,fun _ _ _ hs => hs,fun _ hw => Or.inl hw⟩⟩
  · intro e' he'
    obtain rfl := Option.some.inj he'
    exact ((hcore.stored items.length e (by simp)).1.trans hcore.rel).trans hcur
  · refine ⟨fun he => absurd he.symm hnext,fun _ => ⟨⟨w,hw,hwe.trans hbt'⟩,e,u,rfl,?_,hue⟩⟩
    rw [hbt']
    exact hu
  · intro _ hsafe e' he'
    refine ⟨safe_of_ne fun _ => by simp,?_⟩
    have := hsafe bt hpc
    cases hitems : items with
    | nil =>
      have hzero : items.length=0 := by rw [hitems]; rfl
      omega
    | cons e₀ rest =>
      rw [hi,hitems] at he'
      exact he'

theorem Inv.load_top (h : Inv s T) {bt tp : Nat} {cur : View Loc (Option ι)}
    (hpc : s.owner=.pop (.loadTop bt)) (hcur : s.ownerView.cur ≤ cur)
    (hold : s.ownerView.cur.1 .top ≤ tp) (hnew : tp ≤ cur.1 .top) (htp : tp ≤ T) :
    let t := popped s (s.deque,⟨cur,s.ownerView.rel⟩,
      if signed tp ≤ signed bt then .running (.loadSlot bt tp) else .running (.restoreEmpty bt))
    Inv t T ∧ Effect s t := by
  have hok := h.owner
  rw [hpc] at hok
  obtain ⟨hheld,hbt,-,-⟩ := hok
  have hsmall := h.core.small
  have hsigned := signed_pred hsmall
  rw [← hbt] at hsigned
  rw [signed_of_lt (n := tp) (by omega)]
  split_ifs with hle
  · have hb : bt=T+s.items.length-1 := by
      rw [hbt,wrapSub_of_le (by omega) (by omega)]
    simp only [popped]
    split_ifs with he
    · refine ⟨h.owner_load hcur (by simp) ⟨fun _ => ⟨hheld,?_,?_,?_⟩,fun hne => absurd he hne⟩,
        .silent rfl rfl rfl rfl⟩
      · change bt+1=T+s.items.length
        omega
      · exact he ▸ htp
      · exact he ▸ hnew
    · obtain ⟨items,e,hi,hinv⟩ := h.claim_step hpc hcur hold (by omega)
      rw [hi,List.dropLast_concat,List.getLast?_concat]
      exact ⟨hinv,.claim e rfl hi hheld rfl rfl⟩
  · have hnil : s.items=[] := List.length_eq_zero_iff.mp (by omega)
    refine ⟨h.owner_load hcur (by simp) ⟨hnil,hheld,?_⟩,.silent rfl rfl rfl rfl⟩
    rw [hbt,hnil]
    rfl

/-- The owner's exchange takes the last element, or a thief has taken it. -/
theorem Inv.exchange (h : Inv s T) {bt tp : Nat} {ptr : Option η}
    (hpc : s.owner=.pop (.compareExchange bt tp ptr))
    {r : Bool×Deque (Option ι) η×View Loc (Option ι)}
    (hc : compareExchange tp n s.deque s.ownerView.cur=some r) :
    let t := popped s (r.2.1,⟨r.2.2,s.ownerView.rel⟩,
      .running (.restoreLast bt (if r.1 then ptr else none)))
    (∃ T,Inv t T) ∧ Effect s t := by
  have hok := h.owner
  rw [hpc] at hok
  obtain ⟨htp,hrace,hptr⟩ := hok
  have hcount := hrace.count
  rcases h.core.exchange_cases hc with ⟨view,cur,rfl,hT,hcur,hseen⟩ | ⟨k,cur,rfl,hk,hkT,hkv,hcur⟩
  · obtain ⟨e,hi,hp⟩ := hptr (hT.symm.trans htp)
    have hcore := h.core
    rw [hi] at hcore
    have hview : e.view ≤ cur := ((hcore.stored 0 e rfl).1.trans hcore.rel).trans hcur
    simp only [popped,if_pos,List.length_append,List.length_singleton,Nat.lt_succ_self,hi]
    refine ⟨⟨T+1,hcore.take view hcur (Or.inr hseen),?_,?_,?_⟩,?_⟩
    · rintro e' he'
      obtain rfl := Option.some.inj he'
      exact hview
    · exact ⟨rfl,by omega,hp⟩
    · exact fun i pc hpc => (h.thieves i pc hpc).advance rfl
    · exact .claim e rfl hi hrace.held rfl rfl
  · have hseen := hrace.seen
    have hnil : s.items=[] := List.length_eq_zero_iff.mp (by omega)
    simp only [popped,lt_irrefl,if_false]
    refine ⟨⟨T,h.owner_load hcur (by simp) ⟨hnil,?_,?_⟩⟩,.silent rfl rfl rfl rfl⟩
    · rw [hnil] at hcount
      exact hcount.symm
    · simp [hrace.held]

/-- Without elements the owner sets `bottom_` back to where `top_` is. -/
theorem Inv.restore (h : Inv s T) (hnil : s.items=[]) {value : Nat} (hvalue : value=T)
    (ht : s.ownerView.cur.1 .bottom < n) {held : Option (Entry (Option ι) η)} (hheld : held=none)
    (returns : List (Return (Option ι) η)) :
    Inv {s with
      deque := {s.deque with
        bottom := s.deque.bottom++[⟨n,value,s.ownerView.rel.observe .bottom n⟩]}
      ownerView := ⟨s.ownerView.cur.observe .bottom n,s.ownerView.rel⟩
      owner := .idle
      held := held
      returns := returns} T := by
  have hsmall := h.core.small
  refine h.store_bottom h.core (fun _ he => he) ?_ ht (by simp) (by simp [hheld])
    ⟨hheld,_,List.getLast?_concat,?_⟩
  · rw [hvalue,signed_of_lt (by omega)]
    omega
  · simp [hvalue,hnil]

/-- The owner returns the element that it took without a race. -/
theorem Inv.give_step (h : Inv s T) {cur : View Loc (Option ι)} (hcur : s.ownerView.cur ≤ cur)
    (hlast : LastBottom s.deque (T+s.items.length)) (returns : List (Return (Option ι) η)) :
    Inv {s with
      ownerView := ⟨cur,s.ownerView.rel⟩
      owner := .idle
      held := none
      returns := returns} T :=
  h.of_owner rfl rfl (h.core.learn hcur) (by simp) ⟨rfl,hlast⟩
    { sc := le_rfl
      ready := fun _ _ _ he => ⟨safe_of_ne (by simp),he⟩
      stored := fun _ _ _ hs => hs
      bottom := fun _ hw => Or.inl hw }

theorem Inv.pop_step (h : Inv s T) {pc : PopPc η} (hpc : s.owner=.pop pc)
    {r : Deque (Option ι) η×OwnerView (Option ι)×Control (PopPc η) (Taken η)}
    (hp : pop n s.deque s.ownerView pc=some r) :
    (∃ T,Inv (popped s r) T) ∧ Effect s (popped s r) := by
  have hok := h.owner
  rw [hpc] at hok
  have hsmall := h.core.small
  cases pc with
  | loadBottom =>
    obtain ⟨r,hl,rfl⟩ := Option.map_eq_some_iff.mp hp
    obtain ⟨w,hw,ht,rfl⟩ := load_cases hl
    have hb := hok.2.load h.core hw ht
    exact ⟨⟨T,h.owner_load (le_read w) (by simp) ⟨hok.1,congrArg (wrapSub · 1) hb⟩⟩,
      .silent rfl rfl rfl rfl⟩
  | storeBottom bt =>
    obtain ⟨r,hs,rfl⟩ := Option.map_eq_some_iff.mp hp
    obtain ⟨ht,rfl⟩ := storeAfter_cases hs
    refine ⟨⟨T,h.store_bottom h.core (fun _ he => he) ?_ ht (by simp) h.held
      ⟨hok.1,hok.2,_,List.getLast?_concat,rfl⟩⟩,.silent rfl rfl rfl rfl⟩
    rw [hok.2,signed_pred hsmall]
    omega
  | fence bt =>
    obtain rfl := Option.some.inj hp
    exact ⟨⟨T,h.pop_fence hpc⟩,.silent rfl rfl rfl rfl⟩
  | loadTop bt =>
    obtain ⟨r,hl,rfl⟩ := Option.map_eq_some_iff.mp hp
    obtain ⟨w,hw,ht,rfl⟩ := load_cases hl
    obtain ⟨htime,hvalue,hn⟩ := h.core.top_get hw
    have hnew : w.time ≤ (History.read .top .relaxed w s.ownerView.cur).1 .top := time_le_read w
    obtain ⟨hinv,heff⟩ := h.load_top hpc (le_read w) (ht.trans (htime.trans hvalue.symm).le)
      ((hvalue.trans htime.symm).le.trans hnew) (hvalue.le.trans hn)
    exact ⟨⟨T,hinv⟩,heff⟩
  | loadSlot bt tp =>
    obtain ⟨r,hl,rfl⟩ := Option.map_eq_some_iff.mp hp
    obtain ⟨w,hw,ht,rfl⟩ := load_cases hl
    have hlast := (h.core.slots _).load_last hw ht
    have hcur : s.ownerView.cur ≤ History.read (.slot (s.deque.index bt)) .relaxed w
      s.ownerView.cur := le_read w
    dsimp only
    split_ifs with he
    · have hrace := hok.1 he
      have hcount := hrace.count
      refine ⟨⟨T,h.owner_load hcur (by simp) ⟨he,⟨hrace.held,hcount,hrace.le,
        hrace.seen.trans (hcur.1 _)⟩,fun hT => ?_⟩⟩,.silent rfl rfl rfl rfl⟩
      obtain ⟨e,hi⟩ : ∃ e,s.items=[e] := List.length_eq_one_iff.mp (by omega)
      obtain ⟨-,u,hu,hue,-⟩ := h.core.stored 0 e (by rw [hi]; rfl)
      rw [Nat.add_zero,hT] at hu
      exact ⟨e,hi,Option.some.inj (hlast.symm.trans hu) ▸ hue⟩
    · obtain ⟨hb,e,u,hheld,hu,hue⟩ := hok.2 he
      obtain rfl := Option.some.inj (hlast.symm.trans hu)
      simp only [hue,taken,Option.isSome_some,if_true,popped]
      exact ⟨⟨T,h.give_step hcur hb _⟩,
        .give e _ ((h.held e hheld).trans hcur) rfl rfl hheld rfl (by rw [hheld])⟩
  | compareExchange bt tp ptr =>
    obtain ⟨r,hc,rfl⟩ := Option.map_eq_some_iff.mp hp
    exact h.exchange hpc hc
  | restoreLast bt ptr =>
    obtain ⟨r,hs,rfl⟩ := Option.map_eq_some_iff.mp hp
    obtain ⟨ht,rfl⟩ := storeAfter_cases hs
    obtain ⟨hnil,hT,rfl⟩ := hok
    have hvalue : wrap (bt+1)=T := hT ▸ wrap_of_lt (by omega)
    cases hheld : s.held with
    | none => exact ⟨⟨T,h.restore hnil hvalue ht hheld _⟩,.silent rfl rfl rfl rfl⟩
    | some e =>
      simp only [Option.map_some,taken,Option.isSome_some,if_true,popped]
      exact ⟨⟨T,h.restore hnil hvalue ht rfl _⟩,
        .give e _ ((h.held e hheld).trans View.le_observe) rfl rfl hheld rfl (by rw [hheld])⟩
  | restoreEmpty bt =>
    obtain ⟨r,hs,rfl⟩ := Option.map_eq_some_iff.mp hp
    obtain ⟨ht,rfl⟩ := storeAfter_cases hs
    obtain ⟨hnil,hheld,hbt⟩ := hok
    have hvalue : wrap (bt+1)=T := hbt ▸ wrap_pred_succ (by omega)
    exact ⟨⟨T,h.restore hnil hvalue ht hheld _⟩,.silent rfl rfl rfl rfl⟩

end Owner

section Thief

variable [DecidableEq ι] {s t : State ι η} {T n : Nat} {i : ι}

/-- A thief moves on and takes nothing. -/
theorem Inv.thief_move (h : Inv s T) {sc : Loc → Nat} (hsc : s.deque.sc ≤ sc)
    {v : View Loc (Option ι)} {pc : Option (StealPc η)}
    (hok : ∀ pc',pc=some pc' → ThiefOk {s with deque := {s.deque with sc := sc}} T v pc') :
    Inv {s with
      deque := {s.deque with sc := sc}
      thieves := Function.update s.thieves i pc
      thiefView := Function.update s.thiefView i v} T where
  core := h.core.fence hsc
  held := h.held
  owner := h.owner.fence hsc le_rfl _ _
  thieves j pc' hj := by
    dsimp only at hj ⊢
    by_cases he : j=i
    · subst he
      rw [Function.update_self] at hj ⊢
      cases pc' <;> exact hok _ hj
    · rw [Function.update_of_ne he] at hj ⊢
      refine (h.thieves j pc' hj).keep ⟨hsc _,?_,?_,?_⟩ le_rfl
      · exact fun _ hsafe e he => ⟨hsafe,he⟩
      · exact fun _ _ _ hs => hs
      · exact fun _ hw => Or.inl hw

omit [DecidableEq ι] in
/-- Behind its fence a thief sees no element that the owner takes without a race. -/
theorem Inv.steal_fence (h : Inv s T) {v : View Loc (Option ι)} {tp : Nat}
    (hle : tp ≤ T) (hseen : tp ≤ v.1 .top) :
    ThiefOk {s with deque := {s.deque with sc := (v.fence s.deque.sc).1}} T (v.fence s.deque.sc)
      (.loadBottom tp) := by
  refine ⟨hle,hseen.trans (View.le_fence.1 _),fun w hw ht hlt => ?_⟩
  rintro rfl
  have hsc : s.deque.sc .bottom ≤ w.time := (View.sc_le_fence _).trans ht
  obtain ⟨e,he,hs⟩ := h.core.shown w hw hsc 0 (by simpa using hlt)
  refine ⟨fun bt hbt => Or.inl ?_,e,by rwa [List.head?_eq_getElem?],hs⟩
  have hok := h.owner
  rw [show s.owner=_ from hbt] at hok
  obtain ⟨-,-,⟨u,hu,hue,hut⟩,-⟩ := hok
  -- the write of `bottom_` that the thief can see is the one that the owner's `pop` made
  rw [← hue,← h.core.bottom.chain.eq_last hu hw (hut.trans hsc)]
  exact hlt

theorem Stored.load {q : Deque θ η} {v : OwnerView θ} {items : List (Entry θ η)} {T i n : Nat}
    {e : Entry θ η} {u : View Loc θ} {w : Write Loc θ (Option η)} (hs : Stored q i e u)
    (h : Core q v items T) (hw : (q.slot (q.index i))[n]?=some w)
    (ht : u.1 (.slot (q.index i)) ≤ w.time) : w.value=some e.handle := by
  obtain ⟨-,w',hw',he,ht'⟩ := hs
  rw [(h.slots _).chain.eq_last hw' (List.mem_of_getElem? hw) (ht'.trans ht)]
  exact he

/-- A thief's exchange takes the first element. -/
theorem Inv.steal_take (h : Inv s T) {e : Entry (Option ι) η} {rest : List (Entry (Option ι) η)}
    (hi : s.items=e::rest) (hsafe : Safe s T) (hsc : T ≤ s.deque.sc .top)
    (view v : View Loc (Option ι)) (returns : List (Return (Option ι) η)) :
    Inv {s with
      deque := {s.deque with top := s.deque.top++[⟨T+1,T+1,view⟩]}
      thieves := Function.update s.thieves i none
      thiefView := Function.update s.thiefView i v
      items := rest
      returns := returns} (T+1) where
  core := (hi ▸ h.core).take view le_rfl (Or.inl hsc)
  held := h.held
  owner := h.owner.steal rfl hi hsafe _ _ _ _
  thieves j pc hj := by
    dsimp only at hj ⊢
    by_cases he : j=i
    · rw [he,Function.update_self] at hj
      cases hj
    · rw [Function.update_of_ne he] at hj ⊢
      exact (h.thieves j pc hj).advance rfl

theorem Inv.steal_step (h : Inv s T) {pc : StealPc η} (hpc : s.thieves i=some pc)
    {r : Deque (Option ι) η×View Loc (Option ι)×Control (StealPc η) (Taken η)}
    (hp : steal n s.deque (s.thiefView i) pc=some r) :
    (∃ T,Inv (stole s i r) T) ∧ Effect s (stole s i r) := by
  have hok := h.thieves i pc hpc
  have hsmall := h.core.small
  cases pc with
  | loadTop =>
    obtain ⟨r,hl,rfl⟩ := Option.map_eq_some_iff.mp hp
    obtain ⟨w,hw,ht,rfl⟩ := load_cases hl
    obtain ⟨htime,hvalue,hn⟩ := h.core.top_get hw
    refine ⟨⟨T,h.thief_move le_rfl ?_⟩,.silent rfl rfl rfl rfl⟩
    rintro _ ⟨⟩
    exact ⟨hvalue.le.trans hn,(hvalue.trans htime.symm).le.trans (time_le_read w)⟩
  | fence tp =>
    obtain rfl := Option.some.inj hp
    refine ⟨⟨T,h.thief_move View.sc_le_fence ?_⟩,.silent rfl rfl rfl rfl⟩
    rintro _ ⟨⟩
    exact h.steal_fence hok.1 hok.2
  | loadBottom tp =>
    obtain ⟨r,hl,rfl⟩ := Option.map_eq_some_iff.mp hp
    obtain ⟨w,hw,ht,rfl⟩ := load_cases hl
    obtain ⟨hle,hsc,hready⟩ := hok
    dsimp only
    split_ifs with hlt
    · refine ⟨⟨T,h.thief_move le_rfl ?_⟩,.silent rfl rfl rfl rfl⟩
      rintro _ ⟨⟩
      rw [signed_of_lt (by omega)] at hlt
      refine ⟨hle,hsc,fun he => ?_⟩
      obtain ⟨hsafe,e,hhead,hs⟩ := hready w (List.mem_of_getElem? hw) ht hlt he
      exact ⟨hsafe,e,hhead,hs.mono (view_le_read rfl w)⟩
    · exact ⟨⟨T,h.thief_move le_rfl (by simp)⟩,.silent rfl rfl rfl rfl⟩
  | loadSlot tp =>
    obtain ⟨r,hl,rfl⟩ := Option.map_eq_some_iff.mp hp
    obtain ⟨w,hw,ht,rfl⟩ := load_cases hl
    obtain ⟨hle,hsc,hready⟩ := hok
    refine ⟨⟨T,h.thief_move le_rfl ?_⟩,.silent rfl rfl rfl rfl⟩
    rintro _ ⟨⟩
    refine ⟨hle,hsc,?_⟩
    rintro rfl
    obtain ⟨hsafe,e,hhead,hs⟩ := hready rfl
    exact ⟨hsafe,e,hhead,hs.load h.core hw ht,hs.1.trans (le_read w)⟩
  | compareExchange tp ptr =>
    obtain ⟨r,hc,rfl⟩ := Option.map_eq_some_iff.mp hp
    obtain ⟨hle,hsc,hready⟩ := hok
    rcases h.core.exchange_cases hc with ⟨view,v,rfl,rfl,hv,-⟩ | ⟨k,v,rfl,-,-,-,hv⟩
    · obtain ⟨hsafe,e,hhead,rfl,hview⟩ := hready rfl
      obtain ⟨rest,hi⟩ := List.head?_eq_some_iff.mp hhead
      simp only [if_true,stole,hi,List.head?_cons,List.tail_cons]
      exact ⟨⟨tp+1,h.steal_take hi hsafe hsc view v _⟩,
        .steal e v (hview.trans hv) rfl hi rfl rfl⟩
    · exact ⟨⟨T,h.thief_move le_rfl (by simp)⟩,.silent rfl rfl rfl rfl⟩

theorem Inv.setView (h : Inv s T) (a : Option ι) {v : View Loc (Option ι)} (hv : viewOf s a ≤ v) :
    Inv (setView s v a) T ∧ Effect s (setView s v a) := by
  cases a with
  | none =>
    refine ⟨h.of_owner rfl rfl (h.core.learn hv) (fun e he => (h.held e he).trans hv)
      (h.owner.fence le_rfl hv _ _) ⟨le_rfl,?_,?_,?_⟩,.silent rfl rfl rfl rfl⟩
    · exact fun _ hsafe e he =>
        ⟨fun bt hbt => (hsafe bt hbt).imp_right fun hle => hle.trans (hv.1 _),he⟩
    · exact fun _ _ _ hs => hs
    · exact fun _ hw => Or.inl hw
  | some i =>
    refine ⟨⟨h.core,h.held,h.owner.fence le_rfl le_rfl _ _,fun j pc hj => ?_⟩,
      .silent rfl rfl rfl rfl⟩
    have hkeep : Keeps s (DequeMemory.setView s v (some i)) T :=
      ⟨le_rfl,fun _ hsafe _ he => ⟨hsafe,he⟩,fun _ _ _ hs => hs,fun _ hw => Or.inl hw⟩
    refine (h.thieves j pc hj).keep hkeep ?_
    by_cases he : j=i
    · subst he
      exact hv.trans (Function.update_self j v s.thiefView).symm.le
    · exact (Function.update_of_ne he v s.thiefView).symm.le

omit [DecidableEq ι] in
theorem init_inv {k : Nat} : Inv (init (2^k) : State ι η) 0 where
  core :=
    { power := ⟨k,rfl⟩
      fits := Nat.zero_le _
      small := by simp [init]
      length := rfl
      top := by
        intro k w hw
        cases k with
        | zero =>
          obtain rfl := Option.some.inj hw
          exact ⟨rfl,rfl⟩
        | succ k => cases hw
      bottom := Sole.initial 0
      slots := fun _ => Sole.initial none
      rel := le_rfl
      stored := by simp [init]
      shown := by
        intro w hw _ j hj
        rw [List.mem_singleton.mp hw] at hj
        simp [signed] at hj
        omega
      reach := Or.inl (Nat.zero_le _) }
  held := by simp [init]
  owner := ⟨rfl,_,rfl,rfl⟩
  thieves := by simp [init]

theorem next_inv {a : Action ι η} (h : Inv s T) (hn : next s a=some t) (hr : t.deque.InRange) :
    (∃ T,Inv t T) ∧ Effect s t := by
  cases a with
  | push x =>
    simp only [next] at hn
    split at hn
    · rename_i hidle
      obtain rfl := Option.some.inj hn
      have hok := h.owner
      rw [hidle] at hok
      exact ⟨⟨T,h.owner_load le_rfl (by simp) hok⟩,.silent rfl rfl rfl rfl⟩
    · cases hn
  | pop =>
    simp only [next] at hn
    split at hn
    · rename_i hidle
      obtain rfl := Option.some.inj hn
      have hok := h.owner
      rw [hidle] at hok
      exact ⟨⟨T,h.owner_load le_rfl (by simp) hok⟩,.silent rfl rfl rfl rfl⟩
    · cases hn
  | own n =>
    cases hpc : s.owner with
    | idle => simp [next,own,hpc] at hn
    | push x pc =>
      simp only [next,own,hpc] at hn
      obtain ⟨r,hp,rfl⟩ := Option.map_eq_some_iff.mp hn
      obtain ⟨hinv,heff⟩ := h.push_step hpc hp hr
      exact ⟨⟨T,hinv⟩,heff⟩
    | pop pc =>
      simp only [next,own,hpc] at hn
      obtain ⟨r,hp,rfl⟩ := Option.map_eq_some_iff.mp hn
      exact h.pop_step hpc hp
  | steal i =>
    simp only [next] at hn
    split at hn
    · obtain rfl := Option.some.inj hn
      refine ⟨⟨T,h.core,h.held,h.owner.fence le_rfl le_rfl _ _,fun j pc hj => ?_⟩,
        .silent rfl rfl rfl rfl⟩
      dsimp only at hj ⊢
      by_cases he : j=i
      · subst he
        rw [Function.update_self] at hj
        obtain rfl := Option.some.inj hj
        trivial
      · rw [Function.update_of_ne he] at hj
        exact (h.thieves j pc hj).keep ⟨le_rfl,fun _ hsafe _ he => ⟨hsafe,he⟩,
          fun _ _ _ hs => hs,fun _ hw => Or.inl hw⟩ le_rfl
    · cases hn
  | thieve i n =>
    simp only [next] at hn
    split at hn
    · cases hn
    · rename_i pc hpc
      obtain ⟨r,hp,rfl⟩ := Option.map_eq_some_iff.mp hn
      exact h.steal_step hpc hp
  | work a =>
    obtain rfl := Option.some.inj hn
    obtain ⟨hinv,heff⟩ := h.setView a View.le_tick
    exact ⟨⟨T,hinv⟩,heff⟩
  | sync a b =>
    obtain rfl := Option.some.inj hn
    obtain ⟨hinv,heff⟩ := h.setView a le_sup_left
    exact ⟨⟨T,hinv⟩,heff⟩

end Thief

/-- The elements that were returned. -/
def returned (s : State ι η) : List (Entry (Option ι) η) := s.returns.filterMap (·.entry)

def stolen (s : State ι η) : List (Entry (Option ι) η) :=
  (s.returns.filter (·.stolen)).filterMap (·.entry)

/-- Every push is accounted for once, and the elements stand in the order of their pushes: those
that were stolen, those that are there, and the one that the owner has taken. -/
structure Books (s : State ι η) : Prop where
  counted : ((returned s++s.items++s.held.toList).map (·.ticket)).Perm
    (List.range s.pushed.length)
  handles : ∀ e∈returned s++s.items++s.held.toList,s.pushed[e.ticket]?=some e.handle
  ordered : ((stolen s++s.items++s.held.toList).map (·.ticket)).Pairwise (· < ·)
  handed : ∀ r∈s.returns,∃ e,r.entry=some e ∧ r.handle=some e.handle ∧ e.view ≤ r.view

section Books

variable {s t : State ι η}

/-- A step adds one pushed element, or leaves the elements what they are. -/
theorem Effect.elements (h : Effect s t) :
    t.pushed=s.pushed ∧
      (returned t++t.items++t.held.toList).Perm (returned s++s.items++s.held.toList) ∨
    ∃ e,e.ticket=s.pushed.length ∧ t.pushed=s.pushed++[e.handle] ∧
      returned t++t.items++t.held.toList=returned s++s.items++s.held.toList++[e] := by
  cases h with
  | silent hp hi hh hr =>
    refine Or.inl ⟨hp,?_⟩
    simp [returned,hi,hh,hr]
  | push e he hp hi hfree hh hr =>
    refine Or.inr ⟨e,he,hp,?_⟩
    simp [returned,hi,hh,hr,hfree]
  | claim e hp hi hfree hh hr =>
    refine Or.inl ⟨hp,?_⟩
    simp [returned,hi,hh,hr,hfree]
  | give e v hv hp hi hhad hh hr =>
    refine Or.inl ⟨hp,?_⟩
    simp only [returned,hr,hi,hh,hhad,List.filterMap_append,List.filterMap_cons,
      List.filterMap_nil,Option.toList_none,Option.toList_some,List.append_nil]
    rw [List.append_assoc,List.append_assoc]
    exact List.Perm.append_left _ List.perm_append_comm
  | steal e v hv hp hi hh hr =>
    refine Or.inl ⟨hp,?_⟩
    simp [returned,hi,hh,hr]

/-- The queue of stolen, present and held elements changes at its end only. -/
theorem Effect.line (h : Effect s t) :
    stolen t++t.items++t.held.toList <+: stolen s++s.items++s.held.toList ∨
    ∃ e,e.ticket=s.pushed.length ∧
      stolen t++t.items++t.held.toList=stolen s++s.items++s.held.toList++[e] := by
  cases h with
  | silent hp hi hh hr =>
    refine Or.inl ?_
    simp [stolen,hi,hh,hr]
  | push e he hp hi hfree hh hr =>
    refine Or.inr ⟨e,he,?_⟩
    simp [stolen,hi,hh,hr,hfree]
  | claim e hp hi hfree hh hr =>
    refine Or.inl ?_
    simp [stolen,hi,hh,hr,hfree]
  | give e v hv hp hi hhad hh hr =>
    refine Or.inl ?_
    simp [stolen,hi,hh,hr]
  | steal e v hv hp hi hh hr =>
    refine Or.inl ?_
    simp [stolen,hi,hh,hr]

theorem Effect.handed (h : Effect s t)
    (hs : ∀ r∈s.returns,∃ e,r.entry=some e ∧ r.handle=some e.handle ∧ e.view ≤ r.view) :
    ∀ r∈t.returns,∃ e,r.entry=some e ∧ r.handle=some e.handle ∧ e.view ≤ r.view := by
  cases h with
  | silent _ _ _ hr | push _ _ _ _ _ _ hr | claim _ _ _ _ _ hr => exact hr ▸ hs
  | give e v hv _ _ _ _ hr | steal e v hv _ _ _ hr =>
    intro r hmem
    rw [hr] at hmem
    rcases List.mem_append.mp hmem with hmem | hmem
    · exact hs r hmem
    · rw [List.mem_singleton.mp hmem]
      exact ⟨e,rfl,rfl,hv⟩

theorem stolen_subset (s : State ι η) : stolen s ⊆ returned s :=
  List.filterMap_subset _ (List.filter_sublist.subset)

theorem Books.ticket_lt (h : Books s) {e : Entry (Option ι) η}
    (he : e∈stolen s++s.items++s.held.toList) : e.ticket < s.pushed.length := by
  have hmem : e∈returned s++s.items++s.held.toList := by
    simp only [List.mem_append] at he ⊢
    exact he.imp_left fun he => he.imp_left fun he => stolen_subset s he
  exact (List.getElem?_eq_some_iff.mp (h.handles e hmem)).1

theorem Books.next (h : Books s) (he : Effect s t) : Books t where
  counted := by
    rcases he.elements with ⟨hp,hperm⟩ | ⟨e,hticket,hp,hconcat⟩
    · rw [hp]
      exact (hperm.map _).trans h.counted
    · rw [hp,hconcat,List.map_append,List.length_append,List.length_singleton,
        List.range_succ,List.map_singleton,hticket]
      exact h.counted.append_right _
  handles e hmem := by
    rcases he.elements with ⟨hp,hperm⟩ | ⟨e',hticket,hp,hconcat⟩
    · rw [hp]
      exact h.handles e (hperm.mem_iff.mp hmem)
    · rw [hp]
      rw [hconcat] at hmem
      rcases List.mem_append.mp hmem with hmem | hmem
      · exact getElem?_concat_of_some (h.handles e hmem) _
      · rw [List.mem_singleton.mp hmem,hticket]
        exact List.getElem?_concat_length
  ordered := by
    rcases he.line with hpre | ⟨e,hticket,hconcat⟩
    · exact h.ordered.sublist (hpre.map _).sublist
    · rw [hconcat,List.map_append,List.pairwise_append]
      refine ⟨h.ordered,List.pairwise_singleton _ _,?_⟩
      intro a ha b hb
      obtain ⟨e',he',rfl⟩ := List.mem_map.mp ha
      rw [List.mem_singleton.mp hb]
      exact (h.ticket_lt he').trans_eq hticket.symm
  handed := he.handed h.handed

theorem popped_running {q : Deque (Option ι) η} {v : OwnerView (Option ι)} {pc : PopPc η} :
    (popped s (q,v,.running pc)).owner=.pop pc := by
  cases pc with
  | loadSlot | restoreLast =>
    simp only [popped]
    split_ifs <;> rfl
  | loadBottom | storeBottom | fence | loadTop | compareExchange | restoreEmpty => rfl

/-- A `pop` that comes back without an element leaves none. -/
theorem Inv.pop_empty {T n : Nat} (h : Inv s T) {pc : PopPc η} (hpc : s.owner=.pop pc)
    (hn : own s n s.owner=some t) (hidle : t.owner=.idle) (hr : t.returns=s.returns) :
    t.items=[] := by
  have hok := h.owner
  rw [hpc] at hok hn
  obtain ⟨r,hp,rfl⟩ := Option.map_eq_some_iff.mp hn
  cases pc with
  | loadBottom | storeBottom | compareExchange =>
    obtain ⟨r,-,rfl⟩ := Option.map_eq_some_iff.mp hp
    cases popped_running.symm.trans hidle
  | fence =>
    obtain rfl := Option.some.inj hp
    cases popped_running.symm.trans hidle
  | loadTop bt =>
    obtain ⟨r,-,rfl⟩ := Option.map_eq_some_iff.mp hp
    dsimp only at hidle
    split_ifs at hidle <;> cases popped_running.symm.trans hidle
  | loadSlot bt tp =>
    obtain ⟨r,hl,rfl⟩ := Option.map_eq_some_iff.mp hp
    obtain ⟨w,hw,ht,rfl⟩ := load_cases hl
    dsimp only at hidle hr ⊢
    split_ifs at hidle hr with he
    · cases popped_running.symm.trans hidle
    · obtain ⟨-,e,u,-,hu,hue⟩ := hok.2 he
      obtain rfl := Option.some.inj (((h.core.slots _).load_last hw ht).symm.trans hu)
      simp [hue,taken,popped] at hr
  | restoreLast bt ptr =>
    obtain ⟨r,-,rfl⟩ := Option.map_eq_some_iff.mp hp
    simp only [popped]
    split <;> simp_all [OwnerOk]
  | restoreEmpty bt =>
    obtain ⟨r,-,rfl⟩ := Option.map_eq_some_iff.mp hp
    exact hok.1

end Books

variable [DecidableEq ι]

theorem reachable_inv {s : State ι η} (h : (machine ι η).ReachableBy InRange s) :
    (∃ T,Inv s T) ∧ Books s := by
  refine h.invariant (I := fun s => (∃ T,Inv s T) ∧ Books s) (fun s hs => ?_)
    fun s a t ⟨⟨T,hinv⟩,hbooks⟩ hn hr => ?_
  · obtain ⟨k,-,rfl⟩ := hs
    exact ⟨⟨0,init_inv⟩,by simp [returned,init],by simp [returned,init],
      by simp [stolen,init],by simp [init]⟩
  · obtain ⟨hinv',heff⟩ := next_inv hinv hn hr
    exact ⟨hinv',hbooks.next heff⟩

/-- The fences and orders of `WorkStealingQueue` suffice. Whatever stale counters the threads
read, no push is returned twice or lost; every success returns the handle of one push to a thread
that knows what the owner knew at that push; thieves get the elements in the order of their
pushes and the owner takes the newest; and a `pop` reports an empty deque only if it is. -/
theorem deque_release_acquire {s : State ι η} (h : (machine ι η).ReachableBy InRange s) :
    ((returned s++s.items++s.held.toList).map (·.ticket)).Perm (List.range s.pushed.length) ∧
    (∀ r∈s.returns,∃ e,r.entry=some e ∧ r.handle=s.pushed[e.ticket]? ∧ r.handle=some e.handle ∧
      e.view ≤ r.view) ∧
    ((stolen s++s.items++s.held.toList).map (·.ticket)).Pairwise (· < ·) ∧
    (∀ pc n t,s.owner=.pop pc → next s (.own n)=some t → t.owner=.idle →
      t.returns=s.returns → t.items=[]) := by
  obtain ⟨⟨T,hinv⟩,hbooks⟩ := reachable_inv h
  refine ⟨hbooks.counted,fun r hr => ?_,hbooks.ordered,fun pc n t hpc hn => hinv.pop_empty hpc hn⟩
  obtain ⟨e,he,hhandle,hview⟩ := hbooks.handed r hr
  have hmem : e∈returned s++s.items++s.held.toList := by
    refine List.mem_append_left _ (List.mem_append_left _ ?_)
    exact List.mem_filterMap.mpr ⟨r,hr,he⟩
  exact ⟨e,he,hhandle.trans (hbooks.handles e hmem).symm,hhandle,hview⟩

/-- A thief that reads an old `bottom_` steals the first of three elements; the owner, which still
reads the `top_` from before, pops the last one. -/
theorem deque_release_acquire_stale : ∃ s : State (Fin 1) Nat,
    (machine (Fin 1) Nat).ReachableBy InRange s ∧
    s.pushed=[7,8,9] ∧ s.returns.map (·.handle)=[some 7,some 9] ∧
      s.items.map (·.ticket)=[1] ∧
      ∀ r∈s.returns,∃ e,r.entry=some e ∧ r.handle=some e.handle ∧ e.view ≤ r.view := by
  obtain ⟨s,hs,hp⟩ := Machine.exists_reachableBy (machine (Fin 1) Nat) InRange
    [.work none,.push 7,.own 0,.own 0,.own 1,.own 0,.own 1,
      .push 8,.own 1,.own 0,.own 1,.own 0,.own 2,
      .push 9,.own 2,.own 0,.own 1,.own 0,.own 3,
      .steal 0,.thieve 0 0,.thieve 0 0,.thieve 0 1,.thieve 0 1,.thieve 0 0,
      .pop,.own 3,.own 4,.own 0,.own 0,.own 1]
    (fun s => s.pushed=[7,8,9] ∧ s.returns.map (·.handle)=[some 7,some 9] ∧
      s.items.map (·.ticket)=[1])
    ⟨2,by decide,rfl⟩ (by decide +kernel)
  have hv : s.pushed=[7,8,9] ∧ s.returns.map (·.handle)=[some 7,some 9] ∧
      s.items.map (·.ticket)=[1] := by simpa using hp
  refine ⟨s,hs,hv.1,hv.2.1,hv.2.2,fun r hr => ?_⟩
  obtain ⟨e,he,-,hhandle,hview⟩ := (deque_release_acquire hs).2.1 r hr
  exact ⟨e,he,hhandle,hview⟩

end Acnet.DequeMemory
