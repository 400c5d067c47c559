import Acnet.Manager.Library

/-!
The owners of a `LoadedModule` against its count: what every copy, move and destruction of a
`shared_ptr` does to both.
-/

namespace Acnet.Manager.Library

open HotReload

/-- How many children, frames and creators in transit refer to an object. -/
def owners (m : Manager.State) (ended : Finset Nat) (transit : List Nat) (n : Nat) : Nat :=
  m.creators.countP (·.handle=n)+
    m.modules.zipIdx.countP (fun x => x.1.handle=n && x.2∉ended)+transit.count n

section Owners

variable {m t : Manager.State} {ended : Finset Nat} {transit : List Nat}

/-- A frame that ends takes its own reference along. -/
theorem countP_zipIdx_insert {α : Type} (p : α → Bool) (l : List α) (ended : Finset Nat)
    (start i : Nat) {a : α} (hi : l[i]?=some a) (hend : start+i∉ended) :
    (l.zipIdx start).countP (fun x => p x.1 && x.2∉ended)=
      (l.zipIdx start).countP (fun x => p x.1 && x.2∉insert (start+i) ended)+
        (p a).toNat := by
  induction l generalizing start i with
  | nil => cases hi
  | cons b l ih =>
    cases i with
    | zero =>
      obtain rfl : b=a := Option.some.inj hi
      have hrest : (l.zipIdx (start+1)).countP (fun x => p x.1 && x.2∉ended)=
          (l.zipIdx (start+1)).countP (fun x => p x.1 && x.2∉insert (start+0) ended) := by
        apply List.countP_congr
        intro x hx
        have hle := (List.mem_zipIdx hx).1
        have hne : x.2≠start := by omega
        simp [hne]
      have hend' : start∉ended := hend
      rw [List.zipIdx_cons,List.countP_cons,List.countP_cons,hrest]
      cases p b <;> simp [hend']
    | succ i =>
      have hstart : start+1+i=start+(i+1) := by omega
      have hne : start≠start+(i+1) := by omega
      have hih := ih (start+1) i hi (hstart ▸ hend)
      rw [hstart] at hih
      rw [List.zipIdx_cons,List.countP_cons,List.countP_cons,hih]
      have hhead : (decide (start∉ended))=decide (start∉insert (start+(i+1)) ended) := by
        simp
      simp only [hhead]
      omega

theorem owners_transit (m : Manager.State) (ended : Finset Nat) (transit : List Nat) (n i : Nat) :
    owners m ended (n::transit) i=owners m ended transit i+if i=n then 1 else 0 := by
  simp only [owners,List.count_cons,beq_iff_eq,eq_comm (a := n)]
  omega

theorem owners_perm {transit' : List Nat} (h : transit'.Perm transit) (i : Nat) :
    owners m ended transit' i=owners m ended transit i := by
  rw [owners,owners,h.count_eq]

theorem countP_creator (x : Manager.LoadedModule) (n : Nat) :
    [x].countP (·.handle=n)=if n=x.handle then 1 else 0 := by
  simp [List.countP_singleton,eq_comm]

theorem countP_frame {k : Nat} (hk : k∉ended) (x : Manager.LoadedModule) (n : Nat) :
    ([x].zipIdx k).countP (fun y => y.1.handle=n && y.2∉ended)=if n=x.handle then 1 else 0 := by
  simp [hk,List.countP_singleton,eq_comm]

theorem owners_ended {serial : Nat} {c : Coroutine} (hc : m.coroutines[serial]?=some c)
    (hend : serial∉ended) (n : Nat) :
    owners m ended transit n=
      owners m (insert serial ended) transit n+if n=c.module.handle then 1 else 0 := by
  have hm : m.modules[serial]?=some c.module := by simp [State.modules,hc]
  have hcount := countP_zipIdx_insert (fun x : Manager.LoadedModule => x.handle=n) m.modules ended
    0 serial hm (by simpa using hend)
  have hone : (decide (c.module.handle=n)).toNat=if n=c.module.handle then 1 else 0 := by
    by_cases hn : n=c.module.handle
    · simp [hn]
    · simp [hn,Ne.symm hn]
  simp only [Nat.zero_add,hone] at hcount
  unfold owners
  omega

/-- A new launch holds its library. -/
theorem owners_launch (hend : m.modules.length∉ended) {module : Manager.LoadedModule}
    (hc : t.creators=m.creators) (ht : t.modules=m.modules++[module]) (n : Nat) :
    owners t ended transit n=owners m ended transit n+if n=module.handle then 1 else 0 := by
  unfold owners
  rw [hc,ht,List.zipIdx_append,List.countP_append,Nat.zero_add,countP_frame hend]
  omega

/-- The child that is found is the only one with its id. -/
theorem find_split {id : Nat} {c : ActorMetaData} (hnd : m.keys.Nodup) (h : m.find id=some c) :
    ∃ l r,m.childrens=l++c::r ∧ c.actorId=id ∧ (∀ d∈l,d.actorId≠id) ∧ ∀ d∈r,d.actorId≠id := by
  obtain ⟨hmem,rfl⟩ := find_mem h
  obtain ⟨l,r,hlr⟩ := List.append_of_mem hmem
  have hkeys : (l.map (·.actorId)++c.actorId::r.map (·.actorId)).Nodup := by
    have hk : m.keys=l.map (·.actorId)++c.actorId::r.map (·.actorId) := by
      simp [State.keys,hlr]
    exact hk ▸ hnd
  obtain ⟨-,hr,hdis⟩ := List.nodup_append'.mp hkeys
  refine ⟨l,r,hlr,rfl,?_,?_⟩
  · intro d hd heq
    exact hdis (List.mem_map_of_mem hd) (heq ▸ List.mem_cons_self ..)
  · intro d hd heq
    exact (List.nodup_cons.mp hr).1 (heq ▸ List.mem_map_of_mem hd)

theorem owners_erase {id : Nat} {c : ActorMetaData} (hnd : m.keys.Nodup) (h : m.find id=some c)
    (n : Nat) :
    owners m ended transit n=
      owners (m.erase id) ended transit n+if n=c.creator.handle then 1 else 0 := by
  obtain ⟨l,r,hlr,hid,hl,hr⟩ := find_split hnd h
  have hfilter : (m.erase id).childrens=l++r := by
    simp only [State.erase,hlr,List.filter_append,List.filter_cons]
    rw [List.filter_eq_self.mpr (by simpa using hl),List.filter_eq_self.mpr (by simpa using hr)]
    simp [hid]
  have hbefore : m.creators=l.map (·.creator)++([c.creator]++r.map (·.creator)) := by
    simp [State.creators,hlr]
  have hafter : (m.erase id).creators=l.map (·.creator)++r.map (·.creator) := by
    simp [State.creators,hfilter]
  have hmodules : (m.erase id).modules=m.modules := rfl
  unfold owners
  rw [hmodules,hbefore,hafter]
  simp only [List.countP_append,countP_creator]
  omega

/-- A child's new creator drives out the old one, and the frame shares it. -/
theorem owners_relaunch {id n : Nat} {c : ActorMetaData} {path : String} (hnd : m.keys.Nodup)
    (h : m.find id=some c) (hend : m.modules.length∉ended) (i : Nat) :
    owners (m.relaunch id ⟨path,n⟩) ended transit i+(if i=c.creator.handle then 1 else 0)=
      owners m ended (n::transit) i+if i=n then 1 else 0 := by
  obtain ⟨l,r,hlr,hid,hl,hr⟩ := find_split hnd h
  have hsame {l : List ActorMetaData} (hl : ∀ d∈l,d.actorId≠id) :
      l.map (fun d => if d.actorId=id then {d with creator := ⟨path,n⟩} else d)=l := by
    conv_rhs => rw [← List.map_id' l]
    exact List.map_congr_left fun d hd => if_neg (hl d hd)
  have hbefore : m.creators=l.map (·.creator)++([c.creator]++r.map (·.creator)) := by
    simp [State.creators,hlr]
  have hafter : (m.relaunch id ⟨path,n⟩).creators=
      l.map (·.creator)++([⟨path,n⟩]++r.map (·.creator)) := by
    simp only [State.creators,State.relaunch,State.launch,hlr,List.map_append,List.map_cons,
      hsame hl,hsame hr,if_pos hid]
    rfl
  have hmodules : (m.relaunch id ⟨path,n⟩).modules=m.modules++[⟨path,n⟩] := by
    simp [State.modules,State.relaunch,State.launch]
  rw [owners_transit]
  unfold owners
  rw [hmodules,hbefore,hafter,List.zipIdx_append,Nat.zero_add]
  simp only [List.countP_append,countP_creator,countP_frame hend]
  omega

theorem owners_emplace {n : Nat} {path : String} (name : String)
    (hend : m.modules.length∉ended) (i : Nat) :
    owners (m.emplace name ⟨path,n⟩) ended transit i=
      owners m ended (n::transit) i+if i=n then 1 else 0 := by
  have hcreators : (m.emplace name ⟨path,n⟩).creators=m.creators++[⟨path,n⟩] := by
    simp [State.creators,State.emplace,State.launch]
  have hmodules : (m.emplace name ⟨path,n⟩).modules=m.modules++[⟨path,n⟩] := by
    simp [State.modules,State.emplace,State.launch]
  rw [owners_transit]
  unfold owners
  rw [hcreators,hmodules,List.zipIdx_append,Nat.zero_add]
  simp only [List.countP_append,countP_creator,countP_frame hend]
  omega

theorem owners_congr (hc : t.creators=m.creators) (hm : t.modules=m.modules) (i : Nat) :
    owners t ended transit i=owners m ended transit i := by
  unfold owners
  rw [hc,hm]

theorem creator_counted {c : ActorMetaData} (hc : c∈m.childrens) :
    0 < m.creators.countP (·.handle=c.creator.handle) :=
  List.countP_pos_iff.mpr ⟨c.creator,List.mem_map_of_mem hc,by simp⟩

theorem owners_creator {c : ActorMetaData} (hc : c∈m.childrens) :
    0 < owners m ended transit c.creator.handle := by
  have h := creator_counted hc
  unfold owners
  omega

/-- A frame is an owner until it ends. -/
theorem owners_frame {serial n : Nat} (hm : m.modules[serial]?.map (·.handle)=some n)
    (hend : serial∉ended) : 0 < owners m ended transit n := by
  obtain ⟨module,hmodule,rfl⟩ := Option.map_eq_some_iff.mp hm
  have h : 0 < m.modules.zipIdx.countP (fun x => x.1.handle=module.handle && x.2∉ended) :=
    List.countP_pos_iff.mpr
      ⟨(module,serial),List.mem_zipIdx_iff_getElem?.mpr hmodule,by simp [hend]⟩
  unfold owners
  omega

end Owners

/-- Every object is counted by its owners, and open as long as it has one. -/
structure Owns (heap : Heap) (holders : Nat → Nat) : Prop where
  balanced : Cell.Balanced heap holders
  kept : Cell.Kept LoadedModule.IsOpen LoadedModule.IsClosed heap

namespace Owns

variable {heap : Heap} {holders holders' : Nat → Nat} {n : Nat}

theorem congr (h : Owns heap holders) (hh : ∀ i,holders' i=holders i) : Owns heap holders' :=
  ⟨h.balanced.congr hh,h.kept⟩

theorem share (h : Owns heap holders) (hn : 0 < holders n)
    (hh : ∀ i,holders' i=holders i+if i=n then 1 else 0) : Owns (heap.share n) holders' :=
  ⟨h.balanced.retain hn hh,h.kept.retain n⟩

theorem drop (h : Owns heap holders) (hh : ∀ i,holders i=holders' i+if i=n then 1 else 0) :
    Owns (heap.drop n) holders' :=
  ⟨h.balanced.drop _ hh,h.kept.drop (fun _ hm => hm.close) (fun _ hm => hm.close) n⟩

theorem generateCreator (h : Owns heap holders) (path : String) (l : Loader) :
    match Library.generateCreator heap path l with
    | (heap',some n) => Owns heap' fun i => holders i+if i=n then 1 else 0
    | (heap',none) => Owns heap' holders ∧
        ∃ c : Cell LoadedModule,heap'=heap++[c] ∧ c.content.IsClosed := by
  have hopen := LoadedModule.tryOpen_construct path l
  unfold Library.generateCreator
  cases hok : ((LoadedModule.construct path).tryOpen l).2 with
  | true =>
    rw [if_pos hok] at hopen
    simp only [hok,if_true]
    exact ⟨h.balanced.alloc Nat.zero_lt_one fun _ => rfl,
      h.kept.append (fun _ => hopen) fun hdel => absurd rfl hdel⟩
  | false =>
    rw [if_neg (by simp [hok])] at hopen
    simp only [hok,Bool.false_eq_true,if_false]
    let m := ((LoadedModule.construct path).tryOpen l).1
    have hbalanced : Cell.Balanced (Heap.drop (Cell.alloc heap m 1) heap.length) holders :=
      (h.balanced.alloc Nat.zero_lt_one fun _ => rfl).drop _ fun _ => rfl
    have hheap : Heap.drop (Cell.alloc heap m 1) heap.length=heap++[⟨m.close,0,1⟩] :=
      Cell.drop_alloc ..
    refine ⟨⟨hbalanced,?_⟩,_,hheap,hopen.close⟩
    change Cell.Kept _ _ (Heap.drop (Cell.alloc heap m 1) heap.length)
    rw [hheap]
    exact h.kept.append (fun hdel => absurd hdel Nat.one_ne_zero) fun _ => hopen.close

/-- Whoever holds an object finds it open. -/
theorem isOpen (h : Owns heap holders) (hn : 0 < holders n) :
    ∃ c,heap[n]?=some c ∧ c.content.IsOpen := by
  obtain ⟨c,hc,hdel,-⟩ := h.balanced.alive hn
  exact ⟨c,hc,(h.kept n c hc).1 hdel⟩

/-- An object that was opened is closed, once, exactly if nobody holds it. -/
theorem closed_iff (h : Owns heap holders) {c : Cell LoadedModule} (hc : heap[n]?=some c)
    (hopened : 0 < c.content.opened) :
    c.content.opened=1 ∧ c.content.closed=if holders n=0 then 1 else 0 := by
  have hdel := h.balanced.deletes n c hc
  obtain ⟨hlive,hdead⟩ := h.kept n c hc
  split_ifs at hdel ⊢ with hn
  · obtain ⟨-,heq,hle⟩ := hdead (by omega)
    omega
  · exact (hlive hdel).2

theorem foldl_drop (l : List Nat) {rest : Nat → Nat}
    (h : Owns heap fun i => l.count i+rest i) : Owns (l.foldl Heap.drop heap) rest := by
  induction l generalizing heap with
  | nil => exact h.congr fun i => by simp
  | cons n l ih =>
    apply ih
    apply h.drop
    intro i
    rw [List.count_cons]
    by_cases hi : i=n
    · simp [hi]
      omega
    · simp [hi,Ne.symm hi]

end Owns

end Acnet.Manager.Library
