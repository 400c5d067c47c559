import Acnet.MailBox.Memory

namespace Acnet.BoxMemory

open MailBox MailQueue MailMemory History Wakeup Mpsc

variable {ι κ μ : Type}

/-- The sender as a producer of the queue. -/
def producing : Option (SendPc μ) → Option (μ×EnqueuePc)
  | some (.tryEnqueue m pc) => some (m,pc)
  | _ => none

/-- The worker as the queue's consumer. -/
def consuming : WorkerPc μ → ConsumerPc μ
  | .receive (.tryDequeue pc) => .dequeue pc
  | .awaitReady pc => .check pc
  | _ => .idle

/-- Where the right to run the coroutine is. -/
inductive Place (ι κ : Type) where
  | running (k : κ)
  | returning (k : κ)
  | owed (i : ι)
  | queued (v : View Loc (ι⊕κ))
  | clear

namespace Place

/-- What is known at the place. -/
def view (senderView : ι → View Loc (ι⊕κ)) (workerView : κ → View Loc (ι⊕κ))
    (flag : View Loc (ι⊕κ)) : Place ι κ → View Loc (ι⊕κ)
  | .running k | .returning k => workerView k
  | .owed i => senderView i
  | .queued v => v
  | .clear => flag

def pc (workers : κ → WorkerPc μ) : Place ι κ → ConsumerPc μ
  | .running k => consuming (workers k)
  | _ => .idle

def entries (handle : Handle) : Place ι κ → List (Handle×View Loc (ι⊕κ))
  | .queued v => [(handle,v)]
  | _ => []

end Place

/-- The queue as the coroutine at `place` consumes it. -/
def project (s : State ι κ μ) (c : ConsumerPc μ) (v : View Loc (ι⊕κ)) :
    MailMemory.State ι (ι⊕κ) μ :=
  ⟨s.queue,fun i => producing (s.senders i),s.senderView,c,v,s.claimed,s.returned⟩

/-- The right to run the coroutine is at one place only. -/
structure Placed (handle : Handle) (workers : κ → WorkerPc μ) (senders : ι → Option (SendPc μ))
    (scheduler : List (Handle×View Loc (ι⊕κ))) (flag : Bool) (place : Place ι κ) : Prop where
  running : ∀ k,(workers k).executes=true ↔ place=.running k
  returning : ∀ k,(workers k).returnsFalse=true ↔ place=.returning k
  owed : ∀ i,owesEnqueue (senders i)=true ↔ place=.owed i
  queued : scheduler=place.entries handle
  clear : flag=false ↔ place=.clear

/-- `MarkRunning` is the first thing that the coroutine does; until its store the flag stays
set. -/
structure Started (s : State ι κ μ) (place : Place ι κ) : Prop where
  fresh : s.frame.value=false → s.marked=none
  first : s.marked=none → s.frame.value=false ∧ (∃ v,place=.queued v) ∨
    s.frame.value=true ∧ ∃ k,s.workers k=.markRunning
  marking : ∀ k,s.workers k=.markRunning → s.marked=none
  early : ∀ w∈s.scheduled,(∀ T,s.marked=some T → w.time < T) → w.value=true

/-- The worker has cleared the flag and its second `can_dequeue` has found or will find the
head `r`. -/
def SeesHead (r : Nat) : WorkerPc μ → Prop
  | .suspend (.recheck .loadIndex) => True
  | .suspend (.recheck (.loadSequence r')) => r'=r
  | .suspend .exchange => True
  | _ => False

/-- What is known of the coroutine's frame where the right to run is. -/
structure Held (frame : Plain (ι⊕κ) Bool) (awaiter : Plain (ι⊕κ) Unit) (v : View Loc (ι⊕κ)) :
    Prop where
  writable : frame.Writable v
  constructed : awaiter.Readable v

theorem Held.mono {frame : Plain (ι⊕κ) Bool} {awaiter : Plain (ι⊕κ) Unit}
    {u v : View Loc (ι⊕κ)} (h : Held frame awaiter u) (hv : u ≤ v) : Held frame awaiter v :=
  ⟨⟨h.writable.1.trans hv.2,h.writable.2.trans hv.2⟩,le_trans h.constructed hv.2⟩

/-- `last` is the last write of the flag. -/
structure Inv (handle : Handle) (s : State ι κ μ) (st : Nat → Stage) (place : Place ι κ)
    (last : Write Loc (ι⊕κ) Bool) : Prop where
  queue : MailMemory.Inv (project s (place.pc s.workers)
    (place.view s.senderView s.workerView last.view)) st
  placed : Placed handle s.workers s.senders s.scheduler last.value place
  flag : Tail s.scheduled (s.marked.getD 0) last
  start : Started s place
  known : ∀ T,s.marked=some T →
    T ≤ (place.view s.senderView s.workerView last.view).1 .scheduled
  frame : Held s.frame s.awaiter (place.view s.senderView s.workerView last.view)
  consumer : ∀ w∈s.consumer,w.value=some handle
  loaded : ∀ i handle',s.senders i=some (.enqueue handle') → handle'=handle
  told : ∀ i t,(i,t)∈s.exchanged → t ≤ last.time ∧ s.marked≠some t ∧
    ∀ T,s.marked=some T → T < t → Covered s.queue i last.view
  telling : ∀ i,s.senders i=some .exchange → Covered s.queue (s.published i) (s.senderView i)
  noted : ∀ i,s.returned.length ≤ i → st i=.published →
    (∃ p,s.senders p=some .exchange ∧ s.published p=i) ∨ ∃ t,(i,t)∈s.exchanged
  wake : ∀ T t,last.value=false → s.marked=some T → (s.returned.length,t)∈s.exchanged → T < t →
    ∃ k,SeesHead s.returned.length (s.workers k) ∧ last.view ≤ s.workerView k ∧
      last.time ≤ (s.workerView k).1 .scheduled
  late : ∀ k,s.cleared=some k → place=.clear ∧ s.awaiter.Readable (s.workerView k)

variable {handle : Handle} {s t : State ι κ μ} {st : Nat → Stage} {place : Place ι κ}
  {last : Write Loc (ι⊕κ) Bool}

section Places

variable {senderView : ι → View Loc (ι⊕κ)} {workerView : κ → View Loc (ι⊕κ)}
  {flag u : View Loc (ι⊕κ)} {workers : κ → WorkerPc μ} {senders : ι → Option (SendPc μ)}
  {scheduler : List (Handle×View Loc (ι⊕κ))} {b : Bool} {i : ι} {k : κ}

theorem Place.view_mono {senderView' : ι → View Loc (ι⊕κ)} {workerView' : κ → View Loc (ι⊕κ)}
    (hs : senderView ≤ senderView') (hw : workerView ≤ workerView') (place : Place ι κ) :
    place.view senderView workerView flag ≤ place.view senderView' workerView' flag := by
  cases place with
  | running k | returning k => exact hw k
  | owed i => exact hs i
  | queued v | clear => exact le_rfl

section Sender

variable [DecidableEq ι]

theorem Place.view_sender (h : place≠.owed i) :
    place.view (Function.update senderView i u) workerView flag=
      place.view senderView workerView flag := by
  cases place with
  | owed j =>
    have hj : j≠i := fun e => h (e ▸ rfl)
    exact Function.update_of_ne hj _ _
  | running k | returning k | queued v | clear => rfl

/-- A sender moves and keeps the right to run or its lack of it. -/
theorem Placed.set_sender (h : Placed handle workers senders scheduler b place)
    {x : Option (SendPc μ)} (hx : owesEnqueue x=owesEnqueue (senders i)) :
    Placed handle workers (Function.update senders i x) scheduler b place := by
  refine {h with owed := fun j => ?_}
  by_cases hj : j=i
  · subst j
    rw [Function.update_self,hx]
    exact h.owed i
  · rw [Function.update_of_ne hj]
    exact h.owed j

/-- A sender has found the flag clear. -/
theorem Placed.clear_owed (h : Placed handle workers senders scheduler b .clear)
    {x : Option (SendPc μ)} (hx : owesEnqueue x=true) :
    Placed handle workers (Function.update senders i x) scheduler true (.owed i) := by
  refine ⟨fun k => ?_,fun k => ?_,fun j => ?_,h.queued,by simp⟩
  · rw [h.running k]
    simp
  · rw [h.returning k]
    simp
  · by_cases hj : j=i
    · subst j
      simp [hx]
    · rw [Function.update_of_ne hj,h.owed j]
      simp [Ne.symm hj]

/-- A sender has paid what it owed. -/
theorem Placed.owed_queued (h : Placed handle workers senders scheduler b (.owed i))
    {x : Option (SendPc μ)} (hx : owesEnqueue x=false) (v : View Loc (ι⊕κ)) :
    Placed handle workers (Function.update senders i x) (scheduler++[(handle,v)]) b
      (.queued v) := by
  refine ⟨fun k => ?_,fun k => ?_,fun j => ?_,?_,?_⟩
  · rw [h.running k]
    simp
  · rw [h.returning k]
    simp
  · by_cases hj : j=i
    · subst j
      simp [hx]
    · rw [Function.update_of_ne hj,h.owed j]
      simp [Ne.symm hj]
  · rw [h.queued]
    rfl
  · rw [h.clear]
    simp

end Sender

section Worker

variable [DecidableEq κ]

theorem Place.view_worker (hr : place≠.running k) (hb : place≠.returning k) :
    place.view senderView (Function.update workerView k u) flag=
      place.view senderView workerView flag := by
  cases place with
  | running j =>
    have hj : j≠k := fun e => hr (e ▸ rfl)
    exact Function.update_of_ne hj _ _
  | returning j =>
    have hj : j≠k := fun e => hb (e ▸ rfl)
    exact Function.update_of_ne hj _ _
  | owed i | queued v | clear => rfl

theorem Place.pc_worker (h : place≠.running k) (pc : WorkerPc μ) :
    place.pc (Function.update workers k pc)=place.pc workers := by
  cases place with
  | running j =>
    have hj : j≠k := fun e => h (e ▸ rfl)
    exact congrArg consuming (Function.update_of_ne hj _ _)
  | returning j | owed i | queued v | clear => rfl

/-- The same for a worker. -/
theorem Placed.set_worker (h : Placed handle workers senders scheduler b place)
    {pc : WorkerPc μ} (he : pc.executes=(workers k).executes)
    (hr : pc.returnsFalse=(workers k).returnsFalse) :
    Placed handle (Function.update workers k pc) senders scheduler b place := by
  refine {h with running := fun j => ?_,returning := fun j => ?_}
  · by_cases hj : j=k
    · subst j
      rw [Function.update_self,he]
      exact h.running k
    · rw [Function.update_of_ne hj]
      exact h.running j
  · by_cases hj : j=k
    · subst j
      rw [Function.update_self,hr]
      exact h.returning k
    · rw [Function.update_of_ne hj]
      exact h.returning j

/-- The right to run moves between the workers and what is outside of them. -/
theorem Placed.move_worker (h : Placed handle workers senders scheduler b place) {b' : Bool}
    {pc : WorkerPc μ} {place' : Place ι κ} {scheduler' : List (Handle×View Loc (ι⊕κ))}
    (hold : ∀ j,j≠k → place≠.running j ∧ place≠.returning j)
    (hnew : ∀ j,j≠k → place'≠.running j ∧ place'≠.returning j)
    (hs : ∀ i,place≠.owed i ∧ place'≠.owed i)
    (hrun : pc.executes=true ↔ place'=.running k)
    (hret : pc.returnsFalse=true ↔ place'=.returning k)
    (hq : scheduler'=place'.entries handle) (hb : b'=false ↔ place'=.clear) :
    Placed handle (Function.update workers k pc) senders scheduler' b' place' := by
  refine ⟨fun j => ?_,fun j => ?_,fun i => ?_,hq,hb⟩
  · by_cases hj : j=k
    · subst j
      rw [Function.update_self]
      exact hrun
    · rw [Function.update_of_ne hj,h.running j]
      exact iff_of_false (hold j hj).1 (hnew j hj).1
  · by_cases hj : j=k
    · subst j
      rw [Function.update_self]
      exact hret
    · rw [Function.update_of_ne hj,h.returning j]
      exact iff_of_false (hold j hj).2 (hnew j hj).2
  · rw [h.owed i]
    exact iff_of_false (hs i).1 (hs i).2

end Worker

end Places

/-- Once the flag is set again, nobody counts as having cleared it. -/
theorem Inv.not_cleared (h : Inv handle s st place last) (hp : place≠.clear) (k : κ) :
    s.cleared≠some k :=
  fun hk => hp (h.late k hk).1

theorem Inv.scheduled_of_place (h : Inv handle s st place last) (hp : place≠.clear) :
    last.value=true := by
  by_contra hn
  exact hp (h.placed.clear.mp (by simpa using hn))

/-- Only the first run of the coroutine is unmarked. -/
theorem Inv.marked_of_place (h : Inv handle s st place last)
    (hp : ∀ v,place≠.queued v) (hk : ∀ k,place=.running k → s.workers k≠.markRunning) :
    ∃ T,s.marked=some T := by
  cases hm : s.marked with
  | some T => exact ⟨T,rfl⟩
  | none =>
    rcases h.start.first hm with ⟨-,v,hv⟩ | ⟨-,j,hj⟩
    · exact absurd hv (hp v)
    · exact absurd hj (hk j ((h.placed.running j).mp (by simp [hj,WorkerPc.executes])))

theorem Inv.learn (h : Inv handle s st place last) {senderView : ι → View Loc (ι⊕κ)}
    {workerView : κ → View Loc (ι⊕κ)} (hs : s.senderView ≤ senderView)
    (hw : s.workerView ≤ workerView) :
    Inv handle {s with senderView := senderView,workerView := workerView} st place last := by
  have hv : place.view s.senderView s.workerView last.view ≤
      place.view senderView workerView last.view := Place.view_mono hs hw place
  refine ⟨h.queue.learn hs hv,h.placed,h.flag,⟨h.start.fresh,h.start.first,h.start.marking,
    h.start.early⟩,fun T hT => (h.known T hT).trans (hv.1 _),h.frame.mono hv,h.consumer,h.loaded,
    h.told,fun i hi => (h.telling i hi).mono (.refl _) (hs i),h.noted,?_,?_⟩
  · intro T time hclear hT hmem hlt
    obtain ⟨k,hk,hkv,hkt⟩ := h.wake T time hclear hT hmem hlt
    exact ⟨k,hk,hkv.trans (hw k),hkt.trans ((hw k).1 _)⟩
  · intro k hk
    obtain ⟨hp,hread⟩ := h.late k hk
    exact ⟨hp,le_trans hread (hw k).2⟩

theorem Started.early_concat (h : Started s place) {u : Write Loc (ι⊕κ) Bool}
    (hu : (∀ T,s.marked=some T → u.time < T) → u.value=true) :
    ∀ w∈s.scheduled++[u],(∀ T,s.marked=some T → w.time < T) → w.value=true := by
  intro w hw
  rcases List.mem_append.mp hw with hw | hw
  · exact h.early w hw
  · rw [List.mem_singleton.mp hw]
    exact hu

/-- What is told in the release sequence stays told when it grows. -/
theorem Inv.told_mono (h : Inv handle s st place last) {u : View Loc (ι⊕κ)} {time : Nat}
    (ht : last.time ≤ time) (hv : last.view ≤ u) :
    ∀ j t,(j,t)∈s.exchanged → t ≤ time ∧ s.marked≠some t ∧
      ∀ T,s.marked=some T → T < t → Covered s.queue j u := by
  intro j t hj
  obtain ⟨hle,hm,hc⟩ := h.told j t hj
  exact ⟨hle.trans ht,hm,fun T hT hlt => (hc T hT hlt).mono (.refl _) hv⟩

/-- A sender that joins the release sequence tells of its message. -/
theorem Inv.told_join (h : Inv handle s st place last) {i : ι} {v : View Loc (ι⊕κ)}
    (hi : s.senders i=some .exchange) (hv : s.senderView i ≤ v) :
    ∀ j t,(j,t)∈s.exchanged++[(s.published i,last.time+1)] → t ≤ last.time+1 ∧
      s.marked≠some t ∧ ∀ T,s.marked=some T → T < t → Covered s.queue j (last.view ⊔ v) := by
  intro j t hj
  rcases List.mem_append.mp hj with hj | hj
  · exact h.told_mono (Nat.le_succ _) le_sup_left j t hj
  · cases List.mem_singleton.mp hj
    refine ⟨le_rfl,fun hm => ?_,fun _ _ _ => ?_⟩
    · have hbase := h.flag.base_le
      simp only [hm,Option.getD_some] at hbase
      omega
    · exact (h.telling i hi).mono (.refl _) (hv.trans le_sup_right)

/-- A read-modify-write that finds the flag set joins the release sequence. -/
theorem Inv.join (h : Inv handle s st place last) (hset : last.value=true)
    {v : View Loc (ι⊕κ)} :
    Inv handle {s with scheduled := s.scheduled++[⟨last.time+1,true,last.view ⊔ v⟩]} st place
      ⟨last.time+1,true,last.view ⊔ v⟩ := by
  have hclear : place≠.clear := fun e => by simp [h.placed.clear.mpr e] at hset
  have hview : place.view s.senderView s.workerView (last.view ⊔ v)=
      place.view s.senderView s.workerView last.view := by
    cases place <;> first | rfl | exact absurd rfl hclear
  have hpl := h.placed
  rw [hset] at hpl
  refine ⟨?_,hpl,h.flag.concat_last rfl le_sup_left,⟨h.start.fresh,h.start.first,h.start.marking,
    h.start.early_concat fun _ => rfl⟩,?_,?_,h.consumer,h.loaded,
    h.told_mono (Nat.le_succ _) le_sup_left,h.telling,h.noted,by simp,h.late⟩
  · rw [hview]
    exact h.queue
  · rw [hview]
    exact h.known
  · rw [hview]
    exact h.frame

/-- A write before the store of `MarkRunning` changes nothing. -/
theorem Inv.write_early (h : Inv handle s st place last) {T : Nat} {y : Write Loc (ι⊕κ) Bool}
    (hT : s.marked=some T) (hy : y.time < T) (hset : y.value=true)
    (hfresh : ∀ w∈s.scheduled,w.time≠y.time) :
    Inv handle {s with scheduled := s.scheduled++[y]} st place last :=
  {h with
    flag := h.flag.concat_old (by simpa [hT] using hy) hfresh
    start := ⟨h.start.fresh,h.start.first,h.start.marking,h.start.early_concat fun _ => hset⟩}

section Senders

variable [DecidableEq ι] {i : ι} {v : View Loc (ι⊕κ)}

theorem producing_update (senders : ι → Option (SendPc μ)) (i : ι)
    (x : Option (SendPc μ)) :
    (fun j => producing (Function.update senders i x j))=
      Function.update (fun j => producing (senders j)) i (producing x) :=
  funext fun j => Function.apply_update (fun _ => producing) senders i x j

theorem Inv.loaded_update (h : Inv handle s st place last) {i : ι} {x : Option (SendPc μ)}
    (hx : ∀ handle',x=some (.enqueue handle') → handle'=handle) :
    ∀ j handle',Function.update s.senders i x j=some (.enqueue handle') → handle'=handle := by
  intro j handle' hj
  by_cases he : j=i
  · subst j
    exact hx handle' (by simpa using hj)
  · exact h.loaded j handle' (by simpa [he] using hj)

/-- A sender that is not at the exchange any more has told what it had to. -/
theorem Inv.telling_update (h : Inv handle s st place last) {i : ι} {x : Option (SendPc μ)}
    {u : View Loc (ι⊕κ)} (hx : x≠some .exchange) :
    ∀ j,Function.update s.senders i x j=some .exchange →
      Covered s.queue (s.published j) (Function.update s.senderView i u j) := by
  intro j hj
  have he : j≠i := by
    rintro rfl
    exact hx (by simpa using hj)
  rw [Function.update_of_ne he] at hj ⊢
  exact h.telling j hj

theorem Inv.noted_update (h : Inv handle s st place last) {i : ι} {x : Option (SendPc μ)}
    {exchanged : List (Nat×Nat)} (hsub : s.exchanged ⊆ exchanged)
    (hi : s.senders i=some .exchange → ∃ time,(s.published i,time)∈exchanged) :
    ∀ n,s.returned.length ≤ n → st n=.published →
      (∃ p,Function.update s.senders i x p=some .exchange ∧ s.published p=n) ∨
        ∃ time,(n,time)∈exchanged := by
  intro n hn hpub
  rcases h.noted n hn hpub with ⟨p,hp,rfl⟩ | ⟨time,ht⟩
  · by_cases he : p=i
    · subst p
      exact Or.inr (hi hp)
    · exact Or.inl ⟨p,by simpa [he] using hp,rfl⟩
  · exact Or.inr ⟨time,hsub ht⟩

/-- A sender moves without touching the flag; the right to run stays where it is. -/
theorem Inv.set_sender (h : Inv handle s st place last) (i : ι) {x : Option (SendPc μ)}
    {u : View Loc (ι⊕κ)} {q : Queue (ι⊕κ) μ} {claimed : List μ} {published : ι → Nat}
    {discardedNr : History Loc (ι⊕κ) Nat} {st' : Nat → Stage}
    (ho : owesEnqueue (s.senders i)=false) (hx : owesEnqueue x=false)
    (hne : s.senders i≠some .exchange)
    (hq : MailMemory.Inv ⟨q,fun j => producing (Function.update s.senders i x j),
      Function.update s.senderView i u,place.pc s.workers,
      place.view s.senderView s.workerView last.view,claimed,s.returned⟩ st')
    (hg : Grows s.queue q) (hp : ∀ j,j≠i → published j=s.published j)
    (hcov : x=some .exchange → Covered q (published i) u)
    (hst : ∀ n,st' n=.published → st n=.published ∨ x=some .exchange ∧ published i=n) :
    Inv handle {s with
      queue := q
      senders := Function.update s.senders i x
      senderView := Function.update s.senderView i u
      claimed := claimed
      published := published
      discardedNr := discardedNr} st' place last := by
  have hplace : place≠.owed i := fun e => by simp [(h.placed.owed i).mpr e] at ho
  have hview : place.view (Function.update s.senderView i u) s.workerView last.view=
      place.view s.senderView s.workerView last.view := Place.view_sender hplace
  have hother {j : ι} (hj : s.senders j=some .exchange) : j≠i := fun e => hne (e ▸ hj)
  refine ⟨?_,h.placed.set_sender (hx.trans ho.symm),h.flag,⟨h.start.fresh,h.start.first,
    h.start.marking,h.start.early⟩,?_,?_,h.consumer,?_,?_,?_,?_,h.wake,h.late⟩
  · rw [hview]
    exact hq
  · rw [hview]
    exact h.known
  · rw [hview]
    exact h.frame
  · refine h.loaded_update ?_
    rintro handle' rfl
    simp [owesEnqueue] at hx
  · intro j time hj
    obtain ⟨hle,hm,hc⟩ := h.told j time hj
    exact ⟨hle,hm,fun T hT hlt => (hc T hT hlt).mono hg le_rfl⟩
  · intro j hj
    by_cases he : j=i
    · subst j
      simp only [Function.update_self] at hj ⊢
      exact hcov hj
    · simp only [Function.update_of_ne he] at hj ⊢
      rw [hp j he]
      exact (h.telling j hj).mono hg le_rfl
  · intro n hn hpub
    rcases hst n hpub with hpub | ⟨rfl,hpi⟩
    · rcases h.noted n hn hpub with ⟨j,hj,he⟩ | htold
      · refine Or.inl ⟨j,?_,(hp j (hother hj)).trans he⟩
        simp only [Function.update_of_ne (hother hj)]
        exact hj
      · exact Or.inr htold
    · exact Or.inl ⟨i,by simp,hpi⟩

/-- A sender that is not producing goes on, and may learn something. -/
theorem project_set_sender {c : ConsumerPc μ} {v : View Loc (ι⊕κ)}
    (hq : MailMemory.Inv (project s c v) st) (i : ι) {x : Option (SendPc μ)}
    {u : View Loc (ι⊕κ)} (hi : producing (s.senders i)=none) (hx : producing x=none) :
    MailMemory.Inv ⟨s.queue,fun j => producing (Function.update s.senders i x j),
      Function.update s.senderView i u,c,v,s.claimed,s.returned⟩ st := by
  have hset := hq.set_producer i (x := producing x) (v := u) ?_ ?_
  · rw [producing_update]
    exact hset
  · intro m pc he
    simp [project,hi] at he
  · simp [hx]

/-- The exchange of a sender finds the flag set and joins the release sequence. -/
theorem Inv.exchange_set (h : Inv handle s st place last) (hi : s.senders i=some .exchange)
    (hv : s.senderView i ≤ v) (hset : last.value=true) :
    Inv handle {s with
      senders := Function.update s.senders i none
      senderView := Function.update s.senderView i v
      scheduled := s.scheduled++[⟨last.time+1,true,last.view ⊔ v⟩]
      exchanged := s.exchanged++[(s.published i,last.time+1)]} st place
      ⟨last.time+1,true,last.view ⊔ v⟩ := by
  have ho : owesEnqueue (s.senders i)=false := by simp [hi,owesEnqueue]
  have hplace : place≠.owed i := fun e => by simp [(h.placed.owed i).mpr e] at ho
  have hclear : place≠.clear := fun e => by simp [h.placed.clear.mpr e] at hset
  have hview : place.view (Function.update s.senderView i v) s.workerView (last.view ⊔ v)=
      place.view s.senderView s.workerView last.view := by
    rw [Place.view_sender hplace]
    cases place <;> first | rfl | exact absurd rfl hclear
  have hpl := h.placed.set_sender (i := i) (x := none) ho.symm
  rw [hset] at hpl
  refine ⟨?_,hpl,h.flag.concat_last rfl le_sup_left,⟨h.start.fresh,h.start.first,h.start.marking,
    h.start.early_concat fun _ => rfl⟩,?_,?_,h.consumer,h.loaded_update (by simp),
    h.told_join hi hv,h.telling_update (by simp),?_,by simp,h.late⟩
  · rw [hview]
    exact project_set_sender h.queue i (by simp [hi,producing]) rfl
  · rw [hview]
    exact h.known
  · rw [hview]
    exact h.frame
  · exact h.noted_update (List.subset_append_left _ _) fun _ => ⟨last.time+1,by simp⟩

/-- The exchange of a sender finds the flag clear: the right to run is now with the sender. -/
theorem Inv.exchange_clear (h : Inv handle s st .clear last) (hi : s.senders i=some .exchange)
    (hv : s.senderView i ≤ v) (hlast : last.view ≤ v) :
    Inv handle {s with
      senders := Function.update s.senders i (some .loadConsumer)
      senderView := Function.update s.senderView i v
      scheduled := s.scheduled++[⟨last.time+1,true,last.view ⊔ v⟩]
      exchanged := s.exchanged++[(s.published i,last.time+1)]
      cleared := none} st (.owed i)
      ⟨last.time+1,true,last.view ⊔ v⟩ := by
  have hview : (Place.owed i : Place ι κ).view (Function.update s.senderView i v) s.workerView
      (last.view ⊔ v)=v := Function.update_self ..
  refine ⟨?_,h.placed.clear_owed rfl,h.flag.concat_last rfl le_sup_left,⟨h.start.fresh,?_,
    h.start.marking,h.start.early_concat fun _ => rfl⟩,?_,?_,h.consumer,h.loaded_update (by simp),
    h.told_join hi hv,h.telling_update (by simp),?_,by simp,by simp⟩
  · rw [hview]
    exact project_set_sender (h.queue.grow hlast) i (by simp [hi,producing]) rfl
  · intro hm
    rcases h.start.first hm with ⟨-,u,hu⟩ | hk
    · cases hu
    · exact Or.inr hk
  · rw [hview]
    exact fun T hT => (h.known T hT).trans (hlast.1 _)
  · rw [hview]
    exact h.frame.mono hlast
  · exact h.noted_update (List.subset_append_left _ _) fun _ => ⟨last.time+1,by simp⟩

/-- The exchange of a sender comes before the store of `MarkRunning`. -/
theorem Inv.exchange_early (h : Inv handle s st place last) {T : Nat}
    {u : Write Loc (ι⊕κ) Bool} (hi : s.senders i=some .exchange) (hT : s.marked=some T)
    (hu : u.time < T) (hset : u.value=true) (hfresh : ∀ w∈s.scheduled,w.time≠u.time) :
    Inv handle {s with
      senders := Function.update s.senders i none
      senderView := Function.update s.senderView i v
      scheduled := s.scheduled++[u]
      exchanged := s.exchanged++[(s.published i,u.time)]} st place last := by
  have ho : owesEnqueue (s.senders i)=false := by simp [hi,owesEnqueue]
  have hplace : place≠.owed i := fun e => by simp [(h.placed.owed i).mpr e] at ho
  have hview : place.view (Function.update s.senderView i v) s.workerView last.view=
      place.view s.senderView s.workerView last.view := Place.view_sender hplace
  have hold : u.time < s.marked.getD 0 := by simpa [hT] using hu
  have hbase := h.flag.base_le
  refine ⟨?_,h.placed.set_sender ho.symm,h.flag.concat_old hold hfresh,
    ⟨h.start.fresh,h.start.first,h.start.marking,h.start.early_concat fun _ => hset⟩,?_,?_,
    h.consumer,h.loaded_update (by simp),?_,h.telling_update (by simp),?_,?_,h.late⟩
  · rw [hview]
    exact project_set_sender h.queue i (by simp [hi,producing]) rfl
  · rw [hview]
    exact h.known
  · rw [hview]
    exact h.frame
  · intro j time hj
    rcases List.mem_append.mp hj with hj | hj
    · exact h.told j time hj
    · cases List.mem_singleton.mp hj
      refine ⟨by omega,fun hm => ?_,fun T' hT' hlt => ?_⟩
      · cases hT.symm.trans hm
        omega
      · cases hT.symm.trans hT'
        omega
  · exact h.noted_update (List.subset_append_left _ _) fun _ => ⟨u.time,by simp⟩
  · intro T' time hclear hT' hmem hlt
    rcases List.mem_append.mp hmem with hmem | hmem
    · exact h.wake T' time hclear hT' hmem hlt
    · cases hT.symm.trans hT'
      obtain ⟨-,rfl⟩ := Prod.mk.inj (List.mem_singleton.mp hmem)
      omega

theorem Inv.enqueue_step (h : Inv handle s st place last) {i : ι} {handle' : Handle}
    (hi : s.senders i=some (.enqueue handle')) :
    Inv handle {s with
      senders := Function.update s.senders i none
      senderView := Function.update s.senderView i (s.senderView i)
      scheduler := s.scheduler++[(handle',s.senderView i)]} st (.queued (s.senderView i)) last := by
  obtain rfl := h.loaded i handle' hi
  obtain rfl : place=.owed i := (h.placed.owed i).mp (by simp [hi,owesEnqueue])
  refine ⟨project_set_sender h.queue i (by simp [hi,producing]) rfl,
    h.placed.owed_queued rfl _,h.flag,⟨h.start.fresh,?_,h.start.marking,h.start.early⟩,h.known,
    h.frame,h.consumer,h.loaded_update (by simp),h.told,h.telling_update (by simp),
    h.noted_update (fun _ => id) (by simp [hi]),h.wake,?_⟩
  · intro hm
    rcases h.start.first hm with ⟨-,u,hu⟩ | hk
    · cases hu
    · exact Or.inr hk
  · exact fun k hk => absurd hk (h.not_cleared (by simp) k)

variable [DecidableEq κ]

theorem Inv.tryEnqueue_step (h : Inv handle s st place last) (hr : s.queue.InRange) {i : ι}
    {m : μ} {pc : EnqueuePc} {spurious : Bool} {n : Nat}
    (hi : s.senders i=some (.tryEnqueue m pc))
    (hn : send s i spurious n (.tryEnqueue m pc)=some t) : ∃ st',Inv handle t st' place last := by
  obtain ⟨⟨q,v,control⟩,hq,rfl⟩ := Option.map_eq_some_iff.mp hn
  have hp : (project s (place.pc s.workers)
      (place.view s.senderView s.workerView last.view)).producers i=some (m,pc) := by
    simp [project,hi,producing]
  obtain ⟨st',hinv,hst⟩ := h.queue.produce_step hr hp hq
  obtain ⟨hg,-,hret⟩ := tryEnqueue_grows hq
  have ho : owesEnqueue (s.senders i)=false := by simp [hi,owesEnqueue]
  have hne : s.senders i≠some .exchange := by simp [hi]
  cases control with
  | running pc' =>
    refine ⟨st',h.set_sender i ho rfl hne ?_ hg (fun _ _ => rfl) (by simp) ?_⟩
    · rw [producing_update]
      exact hinv
    · intro j hj
      refine (hst j hj).imp_right ?_
      rintro rfl
      -- the publishing store is the last access
      simp only [Queue.tryEnqueue,Option.map_eq_some_iff,Prod.mk.injEq] at hq
      obtain ⟨_,_,_,_,hc⟩ := hq
      cases hc
  | returned b =>
    cases b with
    | true =>
      obtain ⟨w,rfl,hcov⟩ := hret rfl
      refine ⟨st',h.set_sender i ho rfl hne ?_ hg ?_ ?_ ?_⟩
      · rw [producing_update]
        exact hinv
      · exact fun j hj => Function.update_of_ne hj _ _
      · intro _
        simp only [Function.update_self]
        exact hcov
      · intro j hj
        refine (hst j hj).imp_right fun he => ⟨rfl,?_⟩
        cases he
        simp [owned]
    | false =>
      refine ⟨st',h.set_sender i ho rfl hne ?_ hg (fun _ _ => rfl) (by simp) ?_⟩
      · rw [producing_update]
        exact hinv
      · intro j hj
        refine (hst j hj).imp_right ?_
        rintro rfl
        simp only [Queue.tryEnqueue,Option.map_eq_some_iff,Prod.mk.injEq] at hq
        obtain ⟨_,_,_,_,hc⟩ := hq
        cases hc

/-- `scheduled_.exchange(true)` of a sender. -/
theorem Inv.exchange_step (h : Inv handle s st place last) {spurious : Bool} {n : Nat}
    (hi : s.senders i=some .exchange) (hn : send s i spurious n .exchange=some t) :
    ∃ place' last',Inv handle t st place' last' := by
  obtain ⟨x,hup,rfl⟩ := Option.map_eq_some_iff.mp hn
  obtain ⟨w,hw,-,hfresh,rfl⟩ := update_cases hup
  have hmem := List.mem_of_getElem? hw
  have hv : s.senderView i ≤ (History.read .scheduled .acqRel w (s.senderView i)).observe
    .scheduled (w.time+1) := (le_read w).trans View.le_observe
  have hwv : w.view ≤ (History.read .scheduled .acqRel w (s.senderView i)).observe
    .scheduled (w.time+1) := (view_le_read rfl w).trans View.le_observe
  have hissued (y : Write Loc (ι⊕κ) Bool) : issued (s.scheduled++[y])=y.time := by simp [issued]
  simp only [hissued]
  rcases h.flag.reads hmem hfresh with rfl | hold
  · cases hset : w.value with
    | true => exact ⟨place,_,h.exchange_set hi hv hset⟩
    | false =>
      obtain rfl := h.placed.clear.mp hset
      exact ⟨.owed i,_,h.exchange_clear hi hv hwv⟩
  · obtain ⟨T,hT⟩ : ∃ T,s.marked=some T := by
      cases hm : s.marked with
      | none => simp [hm] at hold
      | some T => exact ⟨T,rfl⟩
    have hlt : w.time+1 < T := by simpa [hT] using hold
    have hset : w.value=true := by
      refine h.start.early w hmem fun T' hT' => ?_
      cases hT.symm.trans hT'
      omega
    rw [hset]
    exact ⟨place,last,h.exchange_early hi hT hlt rfl hfresh⟩

/-- A sender that owes the scheduler the handle has loaded it and asks whether it is done. -/
theorem Inv.done_step (h : Inv handle s st place last) {i : ι} {v : View Loc (ι⊕κ)}
    (hi : s.senders i=some .loadConsumer) (hv : s.senderView i ≤ v) :
    Inv handle {s with
      senders := Function.update s.senders i (some (.enqueue handle))
      senderView := Function.update s.senderView i v
      frame := s.frame.noteRead (.inl i) v} st place last := by
  obtain rfl : place=.owed i := (h.placed.owed i).mp (by simp [hi,owesEnqueue])
  have hview : (Place.owed i : Place ι κ).view (Function.update s.senderView i v) s.workerView
      last.view=v := Function.update_self ..
  refine ⟨?_,h.placed.set_sender (by simp [hi,owesEnqueue]),h.flag,⟨h.start.fresh,h.start.first,
    h.start.marking,h.start.early⟩,?_,?_,h.consumer,h.loaded_update ?_,h.told,
    h.telling_update (by simp),h.noted_update (fun _ => id) (by simp [hi]),h.wake,h.late⟩
  · rw [hview]
    exact project_set_sender (h.queue.grow hv) i (by simp [hi,producing]) rfl
  · rw [hview]
    exact fun T hT => (h.known T hT).trans (hv.1 _)
  · rw [hview]
    have hframe := h.frame.mono hv
    exact ⟨⟨hframe.writable.1,Plain.noteRead_le hframe.writable.2⟩,hframe.constructed⟩
  · intro handle' he
    cases he
    rfl

theorem Inv.send_step (h : Inv handle s st place last) (hr : s.queue.InRange) {i : ι}
    {pc : SendPc μ} {spurious : Bool} {n : Nat} (hi : s.senders i=some pc)
    (hn : send s i spurious n pc=some t) :
    ∃ st' place' last',Inv handle t st' place' last' := by
  cases pc with
  | tryEnqueue m pc =>
    obtain ⟨st',h'⟩ := h.tryEnqueue_step hr hi hn
    exact ⟨st',place,last,h'⟩
  | exchange => exact ⟨st,h.exchange_step hi hn⟩
  | loadConsumer =>
    obtain ⟨x,hl,rfl⟩ := Option.map_eq_some_iff.mp hn
    obtain ⟨w,hw,-,rfl⟩ := load_cases hl
    rw [h.consumer w (List.mem_of_getElem? hw)]
    exact ⟨st,place,last,h.done_step hi ((le_read w).trans View.le_tick)⟩
  | enqueue handle' =>
    cases hn
    exact ⟨st,_,last,h.enqueue_step hi⟩
  | release m =>
    cases hn
    refine ⟨st,place,last,h.set_sender i (by simp [hi,owesEnqueue]) rfl (by simp [hi])
      (project_set_sender h.queue i (by simp [hi,producing]) rfl) (.refl _) (fun _ _ => rfl)
      (by simp) fun n hn => Or.inl hn⟩
  | countDiscarded =>
    obtain ⟨x,hup,rfl⟩ := Option.map_eq_some_iff.mp hn
    refine ⟨st,place,last,h.set_sender i (by simp [hi,owesEnqueue]) rfl (by simp [hi])
      (project_set_sender h.queue i (by simp [hi,producing]) rfl) (.refl _) (fun _ _ => rfl)
      (by simp) fun n hn => Or.inl hn⟩

end Senders

section Workers

variable [DecidableEq κ] {k : κ} {u v : View Loc (ι⊕κ)}

/-- The worker that runs the coroutine uses the frame. -/
theorem Inv.touch_frame (h : Inv handle s st place last)
    (hp : place=.running k ∨ place=.returning k) {frame : Plain (ι⊕κ) Bool}
    {awaiter : Plain (ι⊕κ) Unit} (hv : s.workerView k ≤ v) (hvalue : frame.value=s.frame.value)
    (hf : Held s.frame s.awaiter v → Held frame awaiter v) :
    Inv handle {s with
      frame := frame
      awaiter := awaiter
      workerView := Function.update s.workerView k v} st place last := by
  have h' := h.learn le_rfl (le_update_iff.mpr ⟨hv,fun _ _ => le_rfl⟩)
  have hview : place.view s.senderView (Function.update s.workerView k v) last.view=v := by
    rcases hp with rfl | rfl <;> exact Function.update_self ..
  have hframe := h'.frame
  simp only [hview] at hframe
  refine {h' with
    start := ⟨?_,?_,h.start.marking,h.start.early⟩
    frame := ?_
    late := fun j hj => absurd hj (h.not_cleared ?_ j)}
  · simpa [hvalue] using h.start.fresh
  · simpa [hvalue] using h.start.first
  · simp only [hview]
    exact hf hframe
  · rcases hp with rfl | rfl <;> simp

/-- The coroutine runs on where it is. -/
theorem Inv.set_running (h : Inv handle s st (.running k) last) {pc : WorkerPc μ}
    {q : Queue (ι⊕κ) μ} {returned : List (Option μ)} {solvedNr : History Loc (ι⊕κ) Nat}
    {consumer : History Loc (ι⊕κ) (Option Handle)} (he : pc.executes=true)
    (hpc : pc≠.markRunning) (hk : s.workers k≠.markRunning) (hv : s.workerView k ≤ u)
    (hq : MailMemory.Inv ⟨q,fun j => producing (s.senders j),s.senderView,consuming pc,u,
      s.claimed,returned⟩ st)
    (hg : Grows s.queue q) (hret : s.returned.length ≤ returned.length)
    (hcons : ∀ w∈consumer,w.value=some handle) :
    Inv handle {s with
      queue := q
      consumer := consumer
      solvedNr := solvedNr
      workers := Function.update s.workers k pc
      workerView := Function.update s.workerView k u
      returned := returned} st (.running k) last := by
  have hview : (Place.running k : Place ι κ).view s.senderView
      (Function.update s.workerView k u) last.view=u := Function.update_self ..
  have hpcEq : (Place.running k : Place ι κ).pc (Function.update s.workers k pc)=consuming pc :=
    congrArg consuming (Function.update_self ..)
  have hset := h.scheduled_of_place (by simp)
  have hrun : (s.workers k).executes=true := (h.placed.running k).mpr rfl
  have hret' : (s.workers k).returnsFalse=false := by
    simpa using (h.placed.returning k).not.mpr (by simp)
  obtain ⟨T,hT⟩ := h.marked_of_place (by simp) (by rintro j ⟨⟩; exact hk)
  refine ⟨?_,?_,h.flag,⟨h.start.fresh,by simp [hT],?_,h.start.early⟩,?_,?_,hcons,h.loaded,?_,?_,
    ?_,by simp [hset],fun j hj => absurd hj (h.not_cleared (by simp) j)⟩
  · simp only [hview,hpcEq]
    exact hq
  · refine h.placed.set_worker (he.trans hrun.symm) ?_
    rw [hret']
    cases pc <;> first | rfl | cases he
  · intro j hj
    by_cases hjk : j=k
    · subst j
      exact absurd (by simpa using hj) hpc
    · exact h.start.marking j (by simpa [hjk] using hj)
  · rw [hview]
    exact fun T hT => (h.known T hT).trans (hv.1 _)
  · rw [hview]
    exact h.frame.mono hv
  · intro j time hj
    obtain ⟨hle,hm,hc⟩ := h.told j time hj
    exact ⟨hle,hm,fun T hT hlt => (hc T hT hlt).mono hg le_rfl⟩
  · exact fun j hj => (h.telling j hj).mono hg le_rfl
  · exact fun n hn => h.noted n (hret.trans hn)

/-- `MarkRunning` starts a new release sequence. -/
theorem Inv.mark_step (h : Inv handle s st (.running k) last) {n : Nat}
    (hk : s.workers k=.markRunning) (hfresh : ∀ w∈s.scheduled,w.time≠n) :
    Inv handle {s with
      scheduled := s.scheduled++[⟨n,true,(s.workerView k).observe .scheduled n⟩]
      workers := Function.update s.workers k (.receive .start)
      workerView := Function.update s.workerView k ((s.workerView k).observe .scheduled n)
      marked := some n} st (.running k)
      ⟨n,true,(s.workerView k).observe .scheduled n⟩ := by
  have hm := h.start.marking k hk
  have hflag := h.flag
  rw [hm] at hflag
  obtain ⟨hlt,hflag'⟩ := hflag.concat_store
    (u := ⟨n,true,(s.workerView k).observe .scheduled n⟩) hfresh
  replace hlt : last.time < n := hlt
  have hle : s.workerView k ≤ (s.workerView k).observe .scheduled n := View.le_observe
  have hview (f : View Loc (ι⊕κ)) : (Place.running k : Place ι κ).view s.senderView
      (Function.update s.workerView k ((s.workerView k).observe .scheduled n)) f=
        (s.workerView k).observe .scheduled n := Function.update_self ..
  have hpcEq : (Place.running k : Place ι κ).pc
      (Function.update s.workers k (.receive .start))=.dequeue .loadIndex := by
    simp [Place.pc,consuming,ReceivePc.start]
  have hpl : Placed handle (Function.update s.workers k (.receive .start)) s.senders s.scheduler
      last.value (.running k) :=
    h.placed.set_worker (by simp [hk,WorkerPc.executes]) (by simp [hk,WorkerPc.returnsFalse])
  rw [h.scheduled_of_place (by simp)] at hpl
  refine ⟨?_,hpl,hflag',⟨?_,by simp,?_,?_⟩,?_,?_,h.consumer,h.loaded,?_,h.telling,h.noted,by simp,
    fun j hj => absurd hj (h.not_cleared (by simp) j)⟩
  · simp only [hview,hpcEq]
    refine h.queue.restart hle ?_ rfl
    simp [project,Place.pc,hk,consuming,ready]
  · intro hf
    rcases h.start.first hm with ⟨-,v,hv⟩ | ⟨hf',-⟩
    · cases hv
    · cases hf.symm.trans hf'
  · intro j hj
    by_cases hjk : j=k
    · subst j
      simp at hj
    · simp only [Function.update_of_ne hjk] at hj
      have := (h.placed.running j).mp (by simp [hj,WorkerPc.executes])
      cases this
      exact absurd rfl hjk
  · intro w hw _
    rcases List.mem_append.mp hw with hw | hw
    · exact h.start.early w hw (by simp [hm])
    · rw [List.mem_singleton.mp hw]
  · intro T hT
    cases hT
    rw [hview,View.observe_self]
    exact le_max_right _ _
  · rw [hview]
    exact h.frame.mono hle
  · intro j time hj
    have ht := (h.told j time hj).1
    refine ⟨ht.trans hlt.le,fun he => ?_,fun T hT hlt' => ?_⟩
    · cases he
      omega
    · cases hT
      omega

/-- `await_suspend` clears the flag: the right to run is with whoever sets it next. -/
theorem Inv.clear_step (h : Inv handle s st (.running k) last)
    (hk : s.workers k=.suspend .clearScheduled) (hv : s.workerView k ≤ v)
    (hlast : last.view ≤ v) (htime : last.time+1 ≤ v.1 .scheduled) :
    Inv handle {s with
      scheduled := s.scheduled++[⟨last.time+1,false,last.view ⊔ v⟩]
      workers := Function.update s.workers k (.suspend (.recheck .loadIndex))
      workerView := Function.update s.workerView k v
      cleared := some k} st .clear
      ⟨last.time+1,false,last.view ⊔ v⟩ := by
  obtain ⟨T,hT⟩ := h.marked_of_place (by simp) (by rintro j ⟨⟩; simp [hk])
  have hbase := h.flag.base_le
  rw [hT] at hbase
  have hle : s.workerView k ≤ last.view ⊔ v := hv.trans le_sup_right
  refine ⟨h.queue.restart hle ?_ rfl,?_,h.flag.concat_last rfl le_sup_left,
    ⟨h.start.fresh,by simp [hT],?_,h.start.early_concat fun hlt => ?_⟩,?_,?_,h.consumer,h.loaded,
    h.told_mono (Nat.le_succ _) le_sup_left,h.telling,h.noted,?_,?_⟩
  · simp [project,Place.pc,hk,consuming,ready]
  · refine h.placed.move_worker ?_ ?_ ?_ ?_ ?_ h.placed.queued ?_
    · exact fun j hj => ⟨by simpa using Ne.symm hj,by simp⟩
    all_goals simp [WorkerPc.executes,WorkerPc.returnsFalse]
  · intro j hj
    by_cases hjk : j=k
    · subst j
      simp at hj
    · exact h.start.marking j (by simpa [hjk] using hj)
  · have := hlt T hT
    simp only [Option.getD_some] at hbase
    simp only at this
    omega
  · exact fun T hT => (h.known T hT).trans (hle.1 _)
  · exact h.frame.mono hle
  · intro _ _ _ _ _ _
    refine ⟨k,by simp [SeesHead],?_,?_⟩
    · simp only [Function.update_self]
      exact sup_le hlast le_rfl
    · simp only [Function.update_self]
      exact htime
  · intro j hj
    cases hj
    refine ⟨rfl,?_⟩
    simp only [Function.update_self]
    exact le_trans h.frame.constructed hv.2

/-- A worker without the right to run goes on with a stale `await_suspend`. -/
theorem Inv.set_worker (h : Inv handle s st place last) {pc : WorkerPc μ}
    (hk : (s.workers k).executes=false) (hk' : (s.workers k).returnsFalse=false)
    (hpc : pc.executes=false) (hpc' : pc.returnsFalse=false) (hv : s.workerView k ≤ v)
    (hwake : ∀ T t,place=.clear → s.marked=some T → (s.returned.length,t)∈s.exchanged → T < t →
      SeesHead s.returned.length (s.workers k) → last.view ≤ s.workerView k →
      last.time ≤ (s.workerView k).1 .scheduled → SeesHead s.returned.length pc) :
    Inv handle {s with
      workers := Function.update s.workers k pc
      workerView := Function.update s.workerView k v} st place last := by
  have hrun : place≠.running k := fun e => by simp [(h.placed.running k).mpr e] at hk
  have hback : place≠.returning k := fun e => by simp [(h.placed.returning k).mpr e] at hk'
  have hview : place.view s.senderView (Function.update s.workerView k v) last.view=
      place.view s.senderView s.workerView last.view := Place.view_worker hrun hback
  have hpcEq : place.pc (Function.update s.workers k pc)=place.pc s.workers :=
    Place.pc_worker hrun pc
  refine ⟨?_,h.placed.set_worker (hpc.trans hk.symm) (hpc'.trans hk'.symm),h.flag,
    ⟨h.start.fresh,?_,?_,h.start.early⟩,?_,?_,h.consumer,h.loaded,h.told,h.telling,h.noted,?_,?_⟩
  · simp only [hview,hpcEq]
    exact h.queue
  · intro hm
    refine (h.start.first hm).imp_right ?_
    rintro ⟨hf,j,hj⟩
    have hjk : j≠k := by
      rintro rfl
      simp [hj,WorkerPc.executes] at hk
    exact ⟨hf,j,by simpa [hjk] using hj⟩
  · intro j hj
    by_cases hjk : j=k
    · subst j
      obtain rfl : pc=.markRunning := by simpa using hj
      cases hpc
    · exact h.start.marking j (by simpa [hjk] using hj)
  · rw [hview]
    exact h.known
  · rw [hview]
    exact h.frame
  · intro T time hclear hT hmem hlt
    obtain ⟨j,hj,hjv,hjt⟩ := h.wake T time hclear hT hmem hlt
    by_cases hjk : j=k
    · subst j
      refine ⟨k,?_,?_,?_⟩
      · simp only [Function.update_self]
        exact hwake T time (h.placed.clear.mp hclear) hT hmem hlt hj hjv hjt
      · simp only [Function.update_self]
        exact hjv.trans hv
      · simp only [Function.update_self]
        exact hjt.trans (hv.1 _)
    · exact ⟨j,by simpa [hjk] using hj,by simpa [hjk] using hjv,by simpa [hjk] using hjt⟩
  · intro j hj
    obtain ⟨hp,hread⟩ := h.late j hj
    refine ⟨hp,?_⟩
    by_cases hjk : j=k
    · subst j
      simp only [Function.update_self]
      exact le_trans hread hv.2
    · simpa [hjk] using hread

/-- Where the second `can_dequeue` of `await_suspend` leads to. -/
def rechecked : Control CanDequeuePc Bool → WorkerPc μ
  | .running pc => .suspend (.recheck pc)
  | .returned true => .suspend .exchange
  | .returned false => .idle

/-- A second `can_dequeue` that knows what the flag's last write carries finds a head of which
it was told. -/
theorem Inv.recheck_step (h : Inv handle s st place last) (hr : s.queue.InRange) {n : Nat}
    {pc : CanDequeuePc} {control : Control CanDequeuePc Bool}
    (hk : s.workers k=.suspend (.recheck pc))
    (hn : s.queue.canDequeue n (s.workerView k) pc=some (v,control)) :
    Inv handle {s with
      workers := Function.update s.workers k (rechecked control)
      workerView := Function.update s.workerView k v} st place last := by
  refine h.set_worker (by simp [hk,WorkerPc.executes]) (by simp [hk,WorkerPc.returnsFalse])
    ?_ ?_ (canDequeue_le hn) ?_
  · rcases control with _ | _ | _ <;> rfl
  · rcases control with _ | _ | _ <;> rfl
  · rintro T time rfl hT hmem hlt hsee hkv -
    have hq := h.queue
    have hbound := hq.bound hr
    have h2 := hq.two
    simp only [project] at hbound h2
    cases pc with
    | loadIndex =>
      obtain ⟨x,hl,he⟩ := Option.map_eq_some_iff.mp hn
      obtain ⟨w,hw,ht,rfl⟩ := load_cases hl
      cases he
      have hseen : Seen .readIndex s.queue.readIndex (s.workerView k) :=
        fun y hy => (hq.seen y hy).trans (hkv.1 _)
      have hlen : s.queue.readIndex.length=s.returned.length+1 := hq.consumer
      have hlast : n+1=s.queue.readIndex.length := hq.read.last_of_load hseen hw ht
      change w.value=s.returned.length
      rw [hq.reads n w hw,wrap_of_lt (by omega)]
      omega
    | loadSequence r =>
      rw [hk] at hsee
      obtain rfl : r=s.returned.length := hsee
      obtain ⟨x,hl,he⟩ := Option.map_eq_some_iff.mp hn
      obtain ⟨w,hw,ht,rfl⟩ := load_cases hl
      cases he
      by_cases hpos : 0 ≤ signedSub w.value (wrap (s.returned.length+1))
      · rw [decide_eq_true hpos]
        trivial
      · obtain ⟨y,hy,hval,hyt⟩ := (h.told _ time hmem).2.2 T hT hlt
        have hland : s.returned.length &&& s.queue.mask=s.returned.length%s.queue.size :=
          hq.land _
        rw [hland] at hw ht hy hyt
        rw [wrap_of_lt (by omega)] at hval
        have hmiss := hq.missed hr hw (not_le.mp hpos) hy hval
        have := hyt.trans (hkv.1 _)
        omega

/-- The exchange that ends `await_suspend` finds the flag clear: the coroutine goes on here. -/
theorem Inv.regain_step (h : Inv handle s st .clear last)
    (hv : last.view ≤ v) :
    Inv handle {s with
      scheduled := s.scheduled++[⟨last.time+1,true,last.view ⊔ v⟩]
      workers := Function.update s.workers k .resume
      workerView := Function.update s.workerView k v
      cleared := none} st (.returning k)
      ⟨last.time+1,true,last.view ⊔ v⟩ := by
  have hview : (Place.returning k : Place ι κ).view s.senderView
      (Function.update s.workerView k v) (last.view ⊔ v)=v := Function.update_self ..
  obtain ⟨T,hT⟩ := h.marked_of_place (by simp) (by simp)
  refine ⟨?_,?_,h.flag.concat_last rfl le_sup_left,⟨h.start.fresh,by simp [hT],?_,
    h.start.early_concat fun _ => rfl⟩,?_,?_,h.consumer,h.loaded,
    h.told_mono (Nat.le_succ _) le_sup_left,h.telling,h.noted,by simp,by simp⟩
  · rw [hview]
    exact h.queue.grow hv
  · refine h.placed.move_worker ?_ ?_ ?_ ?_ ?_ h.placed.queued ?_
    · simp
    · exact fun j hj => ⟨by simp,by simpa using Ne.symm hj⟩
    all_goals simp [WorkerPc.executes,WorkerPc.returnsFalse]
  · intro j hj
    by_cases hjk : j=k
    · subst j
      simp at hj
    · exact h.start.marking j (by simpa [hjk] using hj)
  · rw [hview]
    exact fun T hT => (h.known T hT).trans (hv.1 _)
  · rw [hview]
    exact h.frame.mono hv

/-- The coroutine comes to worker `k`, from an `await_suspend` there or from the scheduler. -/
theorem Inv.arrive (h : Inv handle s st place last) {pc : WorkerPc μ} (started : Bool)
    {scheduler : List (Handle×View Loc (ι⊕κ))} {frame : Plain (ι⊕κ) Bool}
    (hp : place=.returning k ∨ ∃ e,place=.queued e)
    (hv : place.view s.senderView s.workerView last.view ≤ v) (hq : scheduler=[])
    (hpc : pc=if started then .receive .start else .markRunning)
    (hs : started=s.frame.value) (hf : frame.value=true) (hw : Held frame s.awaiter v) :
    Inv handle {s with
      frame := frame
      workers := Function.update s.workers k pc
      workerView := Function.update s.workerView k v
      scheduler := scheduler} st (.running k) last := by
  have hview : (Place.running k : Place ι κ).view s.senderView
      (Function.update s.workerView k v) last.view=v := Function.update_self ..
  have hpcEq : (Place.running k : Place ι κ).pc (Function.update s.workers k pc)=consuming pc :=
    congrArg consuming (Function.update_self ..)
  have hclear : place≠.clear := by rcases hp with rfl | ⟨e,rfl⟩ <;> simp
  have hset := h.scheduled_of_place hclear
  have hidle : place.pc s.workers=.idle := by rcases hp with rfl | ⟨e,rfl⟩ <;> rfl
  have hnorun (j : κ) : place≠.running j := by rcases hp with rfl | ⟨e,rfl⟩ <;> simp
  have hnomark (j : κ) : s.workers j≠.markRunning := by
    intro hj
    exact hnorun j ((h.placed.running j).mp (by simp [hj,WorkerPc.executes]))
  have hmarked : s.marked=none ↔ s.frame.value=false := by
    refine ⟨fun hm => ?_,h.start.fresh⟩
    rcases h.start.first hm with ⟨hf,-⟩ | ⟨-,j,hj⟩
    · exact hf
    · exact absurd hj (hnomark j)
  refine ⟨?_,?_,h.flag,⟨by simp [hf],?_,?_,h.start.early⟩,?_,?_,h.consumer,h.loaded,h.told,
    h.telling,h.noted,by simp [hset],fun j hj => absurd hj (h.not_cleared hclear j)⟩
  · rw [hview,hpcEq]
    refine h.queue.restart hv ?_ ?_
    · simp [project,hidle,ready]
    · cases started <;> simp [hpc,consuming,ReceivePc.start,ready]
  · refine h.placed.move_worker ?_ ?_ ?_ ?_ ?_ hq ?_
    · rcases hp with rfl | ⟨e,rfl⟩
      · exact fun j hj => ⟨by simp,by simpa using Ne.symm hj⟩
      · simp
    · exact fun j hj => ⟨by simpa using Ne.symm hj,by simp⟩
    · rcases hp with rfl | ⟨e,rfl⟩ <;> simp
    · cases started <;> simp [hpc,WorkerPc.executes]
    · cases started <;> simp [hpc,WorkerPc.returnsFalse]
    · simp [hset]
  · intro hm
    refine Or.inr ⟨hf,k,?_⟩
    simp [hpc,hs,hmarked.mp hm]
  · intro j hj
    by_cases hjk : j=k
    · subst j
      rw [hmarked,← hs]
      cases started
      · rfl
      · simp [hpc] at hj
    · exact absurd (by simpa [hjk] using hj) (hnomark j)
  · rw [hview]
    exact fun T hT => (h.known T hT).trans (hv.1 _)
  · rw [hview]
    exact hw

variable [DecidableEq ι]

theorem touch_workers (s : State ι κ μ) (k : κ) : (touch s k).workers=s.workers := by
  unfold touch
  split_ifs <;> rfl

theorem touch_queue (s : State ι κ μ) (k : κ) : (touch s k).queue=s.queue := by
  unfold touch
  split_ifs <;> rfl

/-- The uses of the frame keep the invariant. -/
theorem Inv.touch_step (h : Inv handle s st place last) (k : κ) :
    Inv handle (touch s k) st place last := by
  have hv : s.workerView k ≤ (s.workerView k).tick (.inr k) := View.le_tick
  have hp (ht : touches (s.workers k)=true) : place=.running k ∨ place=.returning k :=
    (Bool.or_eq_true_iff.mp ht).imp (h.placed.running k).mp (h.placed.returning k).mp
  unfold touch
  split_ifs with ht hc hr
  · exact h.touch_frame (hp ht) hv rfl fun hf =>
      ⟨⟨Plain.set_le hf.writable.1 _,hf.writable.2⟩,Plain.set_le hf.constructed _⟩
  · exact h.touch_frame (hp ht) hv rfl fun hf =>
      ⟨⟨Plain.set_le hf.writable.1 _,hf.writable.2⟩,hf.constructed⟩
  · -- a late read changes nothing that is known of the constructions
    have h' := h.learn le_rfl (le_update_iff.mpr ⟨hv,fun _ _ => le_rfl⟩)
    exact ⟨h'.queue,h'.placed,h'.flag,⟨h.start.fresh,h.start.first,h.start.marking,h.start.early⟩,
      h'.known,⟨h'.frame.writable,h'.frame.constructed⟩,h'.consumer,h'.loaded,h'.told,h'.telling,
      h'.noted,h'.wake,h'.late⟩
  · exact h

/-- The exchange that ends `await_suspend`. -/
theorem Inv.regain (h : Inv handle s st place last) {n : Nat}
    (hk : s.workers k=.suspend .exchange) (hn : step handle s k n (.suspend .exchange)=some t) :
    ∃ place' last',Inv handle t st place' last' := by
  obtain ⟨x,hup,rfl⟩ := Option.map_eq_some_iff.mp hn
  obtain ⟨w,hw,ht,hfresh,rfl⟩ := update_cases hup
  have hmem := List.mem_of_getElem? hw
  have hv : s.workerView k ≤ (History.read .scheduled .acqRel w (s.workerView k)).observe
    .scheduled (w.time+1) := (le_read w).trans View.le_observe
  have hwv : w.view ≤ (History.read .scheduled .acqRel w (s.workerView k)).observe
    .scheduled (w.time+1) := (view_le_read rfl w).trans View.le_observe
  have he : (s.workers k).executes=false := by simp [hk,WorkerPc.executes]
  have hf : (s.workers k).returnsFalse=false := by simp [hk,WorkerPc.returnsFalse]
  rcases h.flag.reads hmem hfresh with rfl | hold
  · cases hset : w.value with
    | true =>
      refine ⟨place,_,(h.join hset).set_worker he hf rfl rfl hv ?_⟩
      rintro _ _ rfl
      simp [h.placed.clear.mpr rfl] at hset
    | false =>
      obtain rfl := h.placed.clear.mp hset
      exact ⟨.returning k,_,h.regain_step hwv⟩
  · obtain ⟨T,hT⟩ : ∃ T,s.marked=some T := by
      cases hm : s.marked with
      | none => simp [hm] at hold
      | some T => exact ⟨T,rfl⟩
    have hlt : w.time+1 < T := by simpa [hT] using hold
    have hset : w.value=true := by
      refine h.start.early w hmem fun T' hT' => ?_
      cases hT.symm.trans hT'
      omega
    rw [hset]
    refine ⟨place,last,(h.write_early hT hlt rfl hfresh).set_worker he hf rfl rfl hv ?_⟩
    -- whoever cleared the flag last has seen its own write
    intro _ _ _ _ _ _ _ _ hle
    have hbase := h.flag.base_le
    simp only [hT,Option.getD_some] at hbase
    exact absurd (hle.trans ht) (by omega)

theorem Inv.receive_step (h : Inv handle s st (.running k) last) (hr : s.queue.InRange) {n : Nat}
    {pc : DequeuePc μ} (hk : s.workers k=.receive (.tryDequeue pc))
    (hn : step handle s k n (.receive (.tryDequeue pc))=some t) :
    Inv handle t st (.running k) last := by
  obtain ⟨⟨q,v,control⟩,hq,rfl⟩ := Option.map_eq_some_iff.mp hn
  have hc : (project s ((Place.running k : Place ι κ).pc s.workers) (s.workerView k)).consumer=
      .dequeue pc := by
    simp [project,Place.pc,hk,consuming]
  have hinv := h.queue.consume_step hr hc hq
  obtain ⟨hg,hv⟩ := tryDequeue_grows hq
  have hne : s.workers k≠.markRunning := by simp [hk]
  rcases control with pc' | _ | m
  · exact h.set_running rfl (by simp) hne hv hinv hg le_rfl h.consumer
  · exact h.set_running rfl (by simp) hne hv (hinv.restart le_rfl rfl rfl) hg le_rfl h.consumer
  · exact h.set_running rfl (by simp) hne hv hinv hg (by simp) h.consumer

theorem Inv.awaitReady_step (h : Inv handle s st (.running k) last) {n : Nat}
    {pc : CanDequeuePc} (hk : s.workers k=.awaitReady pc)
    (hn : step handle s k n (.awaitReady pc)=some t) : Inv handle t st (.running k) last := by
  obtain ⟨⟨v,control⟩,hq,rfl⟩ := Option.map_eq_some_iff.mp hn
  have hc : ready (project s ((Place.running k : Place ι κ).pc s.workers)
      (s.workerView k)).consumer=true := by
    simp [project,Place.pc,hk,consuming,ready]
  have hv : s.workerView k ≤ v := canDequeue_le hq
  have hne : s.workers k≠.markRunning := by simp [hk]
  rcases control with pc' | _ | _
  all_goals
    exact h.set_running rfl (by simp) hne hv (h.queue.restart hv hc rfl) (.refl _) le_rfl h.consumer

/-- One access of a worker that runs the coroutine. -/
theorem Inv.running_step (h : Inv handle s st (.running k) last) (hr : s.queue.InRange) {n : Nat}
    (hn : step handle s k n (s.workers k)=some t) :
    ∃ place' last',Inv handle t st place' last' := by
  have hrun : (s.workers k).executes=true := (h.placed.running k).mpr rfl
  have hready (hc : consuming (s.workers k)=.idle) : ready (project s
      ((Place.running k : Place ι κ).pc s.workers) (s.workerView k)).consumer=true := by
    simp [project,Place.pc,hc,ready]
  cases hk : s.workers k with
  | idle | resume => simp [hk,WorkerPc.executes] at hrun
  | markRunning =>
    rw [hk] at hn
    obtain ⟨x,hs,rfl⟩ := Option.map_eq_some_iff.mp hn
    obtain ⟨-,hfresh,rfl⟩ := store_cases hs
    exact ⟨_,_,h.mark_step hk hfresh⟩
  | receive pc =>
    rw [hk] at hn
    cases pc with
    | tryDequeue pc => exact ⟨_,_,h.receive_step hr hk hn⟩
    | countSolved m =>
      obtain ⟨x,hup,rfl⟩ := Option.map_eq_some_iff.mp hn
      obtain ⟨w,-,-,-,rfl⟩ := update_cases hup
      have hv : s.workerView k ≤
          (read .solvedNr .relaxed w (s.workerView k)).observe .solvedNr (w.time+1) :=
        (le_read w).trans View.le_observe
      exact ⟨_,_,h.set_running rfl (by simp) (by simp [hk]) hv
        (h.queue.restart hv (hready (by simp [hk,consuming])) rfl) (.refl _) le_rfl h.consumer⟩
  | awaitReady pc =>
    rw [hk] at hn
    exact ⟨_,_,h.awaitReady_step hk hn⟩
  | suspend pc =>
    cases pc with
    | storeConsumer =>
      rw [hk] at hn
      obtain ⟨x,hs,rfl⟩ := Option.map_eq_some_iff.mp hn
      obtain ⟨-,-,rfl⟩ := store_cases hs
      have hv : s.workerView k ≤ (s.workerView k).observe .consumer n := View.le_observe
      refine ⟨_,_,h.set_running rfl (by simp) (by simp [hk]) hv
        (h.queue.restart hv (hready (by simp [hk,consuming])) rfl) (.refl _) le_rfl ?_⟩
      intro w hw
      rcases List.mem_append.mp hw with hw | hw
      · exact h.consumer w hw
      · rw [List.mem_singleton.mp hw]
    | clearScheduled =>
      rw [hk] at hn
      obtain ⟨x,hup,rfl⟩ := Option.map_eq_some_iff.mp hn
      obtain ⟨w,hw,ht,hfresh,rfl⟩ := update_cases hup
      obtain ⟨T,hT⟩ := h.marked_of_place (by simp) (by rintro j ⟨⟩; simp [hk])
      have hknown : T ≤ (s.workerView k).1 .scheduled := h.known T hT
      rcases h.flag.reads (List.mem_of_getElem? hw) hfresh with rfl | hold
      · refine ⟨.clear,_,h.clear_step hk ((le_read w).trans View.le_observe)
          ((view_le_read rfl w).trans View.le_observe) ?_⟩
        exact (le_max_right _ _).trans_eq View.observe_self.symm
      · -- the coroutine has seen the store of `MarkRunning`
        simp only [hT,Option.getD_some] at hold
        omega
    | recheck pc => simp [hk,WorkerPc.executes] at hrun
    | exchange => simp [hk,WorkerPc.executes] at hrun

/-- One access of a worker, wherever the right to run is. -/
theorem Inv.worker_step (h : Inv handle s st place last) (hr : s.queue.InRange) {n : Nat}
    (hn : step handle s k n (s.workers k)=some t) :
    ∃ place' last',Inv handle t st place' last' := by
  have hrunning (he : (s.workers k).executes=true) :
      ∃ place' last',Inv handle t st place' last' := by
    obtain rfl := (h.placed.running k).mp he
    exact h.running_step hr hn
  cases hk : s.workers k with
  | idle =>
    rw [hk] at hn
    cases hn
  | resume =>
    obtain rfl := (h.placed.returning k).mp (by simp [hk,WorkerPc.returnsFalse])
    obtain ⟨T,hT⟩ := h.marked_of_place (by simp) (by simp)
    have hstarted : s.frame.value=true := by
      by_contra hf
      simp [h.start.fresh (by simpa using hf)] at hT
    rw [hk] at hn
    cases hn
    exact ⟨.running k,last,h.arrive true (Or.inl rfl) le_rfl h.placed.queued rfl
      hstarted.symm hstarted h.frame⟩
  | markRunning | receive pc | awaitReady pc => exact hrunning (by simp [hk,WorkerPc.executes])
  | suspend pc =>
    cases pc with
    | storeConsumer | clearScheduled => exact hrunning (by simp [hk,WorkerPc.executes])
    | recheck pc =>
      rw [hk] at hn
      obtain ⟨⟨v,control⟩,hq,rfl⟩ := Option.map_eq_some_iff.mp hn
      refine ⟨place,last,?_⟩
      rcases control with pc' | _ | _ <;> exact h.recheck_step hr hk hq
    | exchange =>
      rw [hk] at hn
      exact h.regain hk hn

theorem Inv.work_step (h : Inv handle s st place last) (hr : s.queue.InRange) {n : Nat}
    (hn : next handle s (.work k n)=some t) : ∃ place' last',Inv handle t st place' last' := by
  refine (h.touch_step k).worker_step (k := k) (by rwa [touch_queue]) (n := n) ?_
  rwa [touch_workers]

theorem Inv.take_step (h : Inv handle s st place last) {position : Nat}
    (hn : next handle s (.take k position)=some t) : Inv handle t st (.running k) last := by
  simp only [next] at hn
  split at hn
  · rename_i hk hp
    cases hn
    obtain ⟨u,rfl⟩ : ∃ u,place=.queued u := by
      have hq := h.placed.queued
      cases place with
      | queued u => exact ⟨u,rfl⟩
      | running j | returning j | owed j | clear =>
        rw [hq] at hp
        simp [Place.entries] at hp
    have hq := h.placed.queued
    rw [hq] at hp ⊢
    obtain rfl : position=0 := by
      have := (List.getElem?_eq_some_iff.mp hp).1
      simp only [Place.entries,List.length_singleton] at this
      omega
    obtain ⟨rfl,rfl⟩ := Prod.mk.inj (Option.some.inj hp)
    have hle : u ≤ (s.workerView k ⊔ u).tick (.inr k) := le_sup_right.trans View.le_tick
    have hframe := h.frame.mono hle
    exact h.arrive _ (Or.inr ⟨u,rfl⟩) hle rfl rfl rfl rfl
      ⟨⟨Plain.set_le hframe.writable.1 _,hframe.writable.2⟩,hframe.constructed⟩
  · cases hn

end Workers

section Run

theorem init_inv (size : Nat) (handle : Handle) (h2 : 2 ≤ bitCeil size) :
    Inv handle (init size handle : State ι κ μ) (fun _ => .free) (.queued ⊥) ⟨0,true,⊥⟩ where
  queue := MailMemory.init_inv size h2
  placed := by
    refine ⟨fun k => ?_,fun k => ?_,fun i => ?_,rfl,by simp⟩
    all_goals simp [init,WorkerPc.executes,WorkerPc.returnsFalse,owesEnqueue]
  flag := Tail.initial true
  start := by
    refine ⟨fun _ => rfl,fun _ => Or.inl ⟨rfl,⊥,rfl⟩,fun _ _ => rfl,fun w hw _ => ?_⟩
    rw [List.mem_singleton.mp hw]
  known := nofun
  frame := ⟨⟨le_rfl,le_rfl⟩,le_rfl⟩
  consumer w hw := by rw [List.mem_singleton.mp hw]
  loaded i handle' hi := by simp [init] at hi
  told i t ht := by simp [init] at ht
  telling i hi := by simp [init] at hi
  noted i _ hi := by simp at hi
  wake := nofun
  late k hk := by cases hk

variable [DecidableEq ι] [DecidableEq κ]

theorem next_inv {a : Action ι κ μ} (hr : s.queue.InRange)
    (h : ∃ st place last,Inv handle s st place last) (hn : next handle s a=some t) :
    ∃ st place last,Inv handle t st place last := by
  obtain ⟨st,place,last,h⟩ := h
  cases a with
  | call i m =>
    simp only [next] at hn
    split at hn
    · rename_i hi
      cases hn
      have hq := h.queue.set_producer i (x := some (m,.loadIndex)) (v := s.senderView i)
        (by simp [project,hi,producing]) (by
          intro m' pc he
          cases he
          exact ⟨trivial,rfl⟩)
      refine ⟨st,place,last,h.set_sender i (by simp [hi,owesEnqueue]) rfl (by simp [hi]) ?_
        (.refl _) (fun _ _ => rfl) (by simp [SendPc.start]) fun n hn => Or.inl hn⟩
      rw [producing_update]
      exact hq
    · cases hn
  | send i spurious n =>
    simp only [next] at hn
    split at hn
    · cases hn
    · rename_i pc hi
      exact h.send_step hr hi hn
  | take k position => exact ⟨st,_,last,h.take_step hn⟩
  | work k n => exact ⟨st,h.work_step hr hn⟩
  | sync a b =>
    refine ⟨st,place,last,?_⟩
    cases a with
    | inl i =>
      cases hn
      exact h.learn (le_update_iff.mpr ⟨le_sup_left,fun _ _ => le_rfl⟩) le_rfl
    | inr k =>
      cases hn
      exact h.learn le_rfl (le_update_iff.mpr ⟨le_sup_left,fun _ _ => le_rfl⟩)

theorem reachable_inv (h : (machine ι κ μ handle).ReachableBy InRange s) :
    s.queue.InRange ∧ ∃ st place last,Inv handle s st place last := by
  apply h.invariant
  · rintro x ⟨size,h2,hle,rfl⟩
    exact ⟨MailMemory.init_inRange (ι := ι) size hle,_,_,_,init_inv size handle h2⟩
  · rintro x a y ⟨hr,hi⟩ hn ho
    exact ⟨ho,next_inv hr hi hn⟩

end Run

section Results

theorem Inv.frame_ordered (h : Inv handle s st place last) : ¬FrameRaces s := by
  have hframe := h.frame.writable
  rintro (⟨k,hk,hr⟩ | ⟨e,he,hr⟩ | ⟨i,hi,hr⟩)
  · rcases Bool.or_eq_true_iff.mp hk with hk | hk
    · obtain rfl := (h.placed.running k).mp hk
      exact hr hframe
    · obtain rfl := (h.placed.returning k).mp hk
      exact hr hframe
  · have hq := h.placed.queued
    cases place with
    | queued u =>
      rw [hq] at he
      obtain rfl := List.mem_singleton.mp he
      exact hr hframe
    | running j | returning j | owed j | clear =>
      rw [hq] at he
      cases he
  · obtain rfl := (h.placed.owed i).mp (by simp [hi,owesEnqueue])
    exact hr hframe.1

/-- Whoever has cleared the flag may read the awaiter until the flag is set again. -/
theorem Inv.reread_ordered (h : Inv handle s st place last) {k : κ} (hrace : RereadRaces s k) :
    s.cleared≠some k :=
  fun hk => hrace.2 (h.late k hk).2

/-- The constructions of the awaiter are ordered among themselves. -/
theorem Inv.wait_ordered (h : Inv handle s st place last) {k : κ} (hrace : WaitRaces s k) :
    s.awaiter.Readable (s.workerView k) := by
  have hk : (s.workers k).executes=true := by
    have hc := hrace.1
    cases hpc : s.workers k <;> simp [hpc,constructs,WorkerPc.executes] at hc ⊢
  obtain rfl := (h.placed.running k).mp hk
  exact h.frame.constructed

/-- A message is left behind only if its sender was too early for the release sequence. -/
theorem Inv.left_behind (h : Inv handle s st place last) (hquiet : Quiet s)
    (hlt : s.returned.length < s.claimed.length) :
    ∃ T time,s.marked=some T ∧ (s.returned.length,time)∈s.exchanged ∧ time < T := by
  obtain ⟨hsend,hwork,hlist⟩ := hquiet
  have hclear : place=.clear := by
    cases place with
    | clear => rfl
    | running k =>
      have := (h.placed.running k).mpr rfl
      simp [hwork,WorkerPc.executes] at this
    | returning k =>
      have := (h.placed.returning k).mpr rfl
      simp [hwork,WorkerPc.returnsFalse] at this
    | owed i =>
      have := (h.placed.owed i).mpr rfl
      simp [hsend,owesEnqueue] at this
    | queued u =>
      have := h.placed.queued
      simp [hlist,Place.entries] at this
  subst hclear
  obtain ⟨T,hT⟩ := h.marked_of_place (by simp) (by simp)
  have hpub : st s.returned.length=.published := by
    by_contra hne
    have hfree : st s.returned.length≠.free := fun hf =>
      absurd ((h.queue.free _).mp hf) (not_le.mpr hlt)
    obtain ⟨p,m,pc,hp,-⟩ := h.queue.owners _ hfree hne
    simp [project,hsend,producing] at hp
  rcases h.noted _ le_rfl hpub with ⟨p,hp,-⟩ | ⟨time,ht⟩
  · simp [hsend] at hp
  · refine ⟨T,time,hT,ht,?_⟩
    rcases Nat.lt_trichotomy time T with hl | he | hg
    · exact hl
    · exact absurd (hT.trans (congrArg some he.symm)) (h.told _ time ht).2.1
    · obtain ⟨k,hk,-⟩ := h.wake T time (h.placed.clear.mpr rfl) hT ht hg
      simp [hwork,SeesHead] at hk

variable [DecidableEq ι] [DecidableEq κ]

/-- The memory orders of `MailBox` hand the coroutine over. Wherever it runs, it has the right
to run alone, and neither a use of its frame nor one of a message slot is a data race; it
receives the messages in the order in which their slots were claimed. The reads of the awaiter that
`await_suspend` makes after it has cleared the flag are no data races either until the flag is set
again, and nothing but such a read races with the construction of the next awaiter. Once nobody
sends and the coroutine sleeps, a message can only be left behind if its sender set the flag before
the plain store of `MarkRunning`, which starts a new release sequence. -/
theorem mailBox_release_acquire {s : State ι κ μ}
    (h : (machine ι κ μ handle).ReachableBy InRange s) :
    s.returned <+: s.claimed.map some ∧
    (∀ k k',(s.workers k).executes=true → (s.workers k').executes=true → k=k') ∧
    ¬FrameRaces s ∧ (∀ i,¬SenderRaces s i) ∧ (∀ k,¬WorkerRaces s k) ∧
    (∀ k,RereadRaces s k → s.cleared≠some k) ∧
    (∀ k,WaitRaces s k → s.awaiter.Readable (s.workerView k)) ∧
    (Quiet s → s.returned.length < s.claimed.length →
      ∃ T time,s.marked=some T ∧ (s.returned.length,time)∈s.exchanged ∧ time < T) := by
  obtain ⟨hr,st,place,last,hi⟩ := reachable_inv h
  refine ⟨?_,?_,hi.frame_ordered,?_,?_,fun _ => hi.reread_ordered,fun _ => hi.wait_ordered,
    fun hq hlt => hi.left_behind hq hlt⟩
  · have hfifo : s.returned=(s.claimed.take s.returned.length).map some := hi.queue.fifo
    rw [hfifo]
    exact (List.take_prefix _ _).map some
  · intro k k' hk hk'
    have he := ((hi.placed.running k).mp hk).symm.trans ((hi.placed.running k').mp hk')
    cases he
    rfl
  · rintro i ⟨m,w,hs,hrace⟩
    refine hi.queue.producer_ordered i ⟨m,w,?_,hrace⟩
    simp [project,hs,producing]
  · intro k hrace
    have hk : (s.workers k).executes=true := by
      rcases hrace with ⟨r,hk,-⟩ | ⟨r,m,hk,-⟩ <;> simp [hk,WorkerPc.executes]
    obtain rfl := (hi.placed.running k).mp hk
    refine hi.queue.consumer_ordered ?_
    rcases hrace with ⟨r,hk,hrace⟩ | ⟨r,m,hk,hrace⟩
    · exact Or.inl ⟨r,by simp [project,Place.pc,hk,consuming],hrace⟩
    · exact Or.inr ⟨r,m,by simp [project,Place.pc,hk,consuming],hrace⟩

end Results

/-- A sender sets the flag right before `MarkRunning` stores it. The coroutine has not heard of
the message, finds the queue empty three times and goes to sleep on it. -/
theorem mailBox_release_acquire_early : ∃ s : State (Fin 1) (Fin 1) Nat,
    (machine (Fin 1) (Fin 1) Nat 9).ReachableBy InRange s ∧
    Quiet s ∧ s.claimed=[7] ∧ s.returned=[] ∧
      ∃ T time,s.marked=some T ∧ (0,time)∈s.exchanged ∧ time < T := by
  obtain ⟨s,hs,hp⟩ := Machine.exists_reachableBy (machine (Fin 1) (Fin 1) Nat 9) InRange
    [.take 0 0,.call 0 7,.send 0 false 0,.send 0 false 0,.send 0 false 0,.send 0 false 0,
      .send 0 false 1,.send 0 false 0,.work 0 2,.work 0 0,.work 0 0,.work 0 0,.work 0 0,
      .work 0 1,.work 0 2,.work 0 0,.work 0 0]
    (fun s => (s.senders 0).isNone ∧ s.workers 0=.idle ∧ s.scheduler.isEmpty ∧ s.claimed=[7] ∧
      s.returned=[]) ⟨2,by decide,by decide,rfl⟩ (by decide +kernel)
  have hv := of_decide_eq_true hp
  simp only [Option.isNone_iff_eq_none,List.isEmpty_iff] at hv
  obtain ⟨hsend,hwork,hlist,hc,hr⟩ := hv
  have hquiet : Quiet s := by
    refine ⟨fun i => ?_,fun k => ?_,hlist⟩
    · rw [Subsingleton.elim i 0,hsend]
    · rw [Subsingleton.elim k 0,hwork]
  have hleft := (mailBox_release_acquire hs).2.2.2.2.2.2.2 hquiet (by simp [hc,hr])
  rw [hr] at hleft
  exact ⟨s,hs,hquiet,hc,hr,hleft⟩

/-- Worker 0 has cleared the flag, a message wakes the coroutine on worker 1, and there it waits
again: the read of the old awaiter's `mail_` races with the construction of the new one. -/
theorem mailBox_reread_races : ∃ s : State (Fin 1) (Fin 2) Nat,
    (machine (Fin 1) (Fin 2) Nat 9).ReachableBy InRange s ∧ RereadRaces s 0 := by
  obtain ⟨s,hs,hp⟩ := Machine.exists_reachableBy (machine (Fin 1) (Fin 2) Nat 9) InRange
    [.take 0 0,.work 0 1,.work 0 0,.work 0 0,.work 0 0,.work 0 0,.work 0 1,.work 0 1,
      .call 0 7,.send 0 false 0,.send 0 false 0,.send 0 false 0,.send 0 false 0,
      .send 0 false 1,.send 0 false 2,.send 0 false 1,.send 0 false 0,
      .take 1 0,.work 1 0,.work 1 1,.work 1 0,.work 1 0,.work 1 1,.work 1 2,.work 1 0,
      .work 1 1,.work 1 0,.work 1 1]
    (fun s => rereads (s.workers 0)=true ∧ (s.workerView 0).2 (.inr 1) < s.awaiter.write (.inr 1))
    ⟨2,by decide,by decide,rfl⟩ (by decide +kernel)
  obtain ⟨hk,hlt⟩ := of_decide_eq_true hp
  exact ⟨s,hs,hk,fun hr => absurd (hr (.inr 1)) (not_le.mpr hlt)⟩

end Acnet.BoxMemory
