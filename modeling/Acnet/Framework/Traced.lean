namespace Acnet

/-- How a computation ends that may return, throw, or be left waiting for its environment. -/
inductive Ending (χ α : Type) where
  | value (a : α)
  | thrown (e : χ)
  | waiting
  deriving DecidableEq

/-- A computation by what it did, in order, and how it ended. -/
structure Traced (ε χ α : Type) where
  trace : List ε
  ending : Ending χ α
  deriving DecidableEq

namespace Traced

variable {ε χ χ' α β : Type}

protected def bind (x : Traced ε χ α) (f : α → Traced ε χ β) : Traced ε χ β :=
  match x.ending with
  | .value a => ⟨x.trace++(f a).trace,(f a).ending⟩
  | .thrown e => ⟨x.trace,.thrown e⟩
  | .waiting => ⟨x.trace,.waiting⟩

instance : Monad (Traced ε χ) where
  pure a := ⟨[],.value a⟩
  bind := Traced.bind

def emit (e : ε) : Traced ε χ Unit := ⟨[e],.value ()⟩

def raise (e : χ) : Traced ε χ α := ⟨[],.thrown e⟩

def wait : Traced ε χ α := ⟨[],.waiting⟩

/-- A call of foreign code that is seen as `e` and may throw. -/
def call (e : ε) : Option χ → Traced ε χ Unit
  | none => ⟨[e],.value ()⟩
  | some x => ⟨[e],.thrown x⟩

/-- A handler around a computation; it may itself throw. -/
def handle (x : Traced ε χ α) (f : χ → Traced ε χ' α) : Traced ε χ' α :=
  match x.ending with
  | .value a => ⟨x.trace,.value a⟩
  | .thrown e => ⟨x.trace++(f e).trace,(f e).ending⟩
  | .waiting => ⟨x.trace,.waiting⟩

theorem eq_mk {x : Traced ε χ α} {y : Ending χ α} (h : x.ending=y) : x=⟨x.trace,y⟩ := by
  rw [← h]

section Run

variable (t : List ε) (e : ε) (f : α → Traced ε χ β) (g : Unit → Traced ε χ β)

@[simp]
theorem pure_eq (a : α) : (pure a : Traced ε χ α)=⟨[],.value a⟩ := rfl

@[simp]
theorem value_bind (a : α) : ((⟨t,.value a⟩ : Traced ε χ α)>>=f)=⟨t++(f a).trace,(f a).ending⟩ :=
  rfl

@[simp]
theorem thrown_bind (x : χ) : ((⟨t,.thrown x⟩ : Traced ε χ α)>>=f)=⟨t,.thrown x⟩ := rfl

@[simp]
theorem waiting_bind : ((⟨t,.waiting⟩ : Traced ε χ α)>>=f)=⟨t,.waiting⟩ := rfl

@[simp]
theorem emit_bind : (emit e>>=g)=⟨e::(g ()).trace,(g ()).ending⟩ := rfl

@[simp]
theorem call_none_bind : (call e none>>=g)=⟨e::(g ()).trace,(g ()).ending⟩ := rfl

@[simp]
theorem call_some_bind (x : χ) : (call e (some x)>>=g)=⟨[e],.thrown x⟩ := rfl

end Run

section Handle

variable (t : List ε) (f : χ → Traced ε χ' α)

@[simp]
theorem handle_value (a : α) : handle ⟨t,.value a⟩ f=⟨t,.value a⟩ := rfl

@[simp]
theorem handle_thrown (e : χ) : handle ⟨t,.thrown e⟩ f=⟨t++(f e).trace,(f e).ending⟩ := rfl

@[simp]
theorem handle_waiting : handle ⟨t,.waiting⟩ f=⟨t,.waiting⟩ := rfl

end Handle

/-- Everything that the computation does has the property `p`. -/
def Only (p : ε → Bool) (x : Traced ε χ α) : Prop := ∀ e∈x.trace,p e=true

namespace Only

variable {p : ε → Bool}

theorem pure (a : α) : Only p (Pure.pure a : Traced ε χ α) := by simp [Only]

theorem wait : Only p (wait : Traced ε χ α) := by simp [Only,Traced.wait]

theorem emit {e : ε} (h : p e=true) : Only p (emit e : Traced ε χ Unit) := by
  simpa [Only,Traced.emit] using h

theorem call {e : ε} (o : Option χ) (h : p e=true) : Only p (call e o) := by
  cases o <;> simpa [Only,Traced.call] using h

theorem bind {x : Traced ε χ α} {f : α → Traced ε χ β} (hx : Only p x) (hf : ∀ a,Only p (f a)) :
    Only p (x>>=f) := by
  obtain ⟨t,a | e | _⟩ := x
  · intro e he
    rcases List.mem_append.mp he with he | he
    · exact hx e he
    · exact hf a e he
  · exact hx
  · exact hx

end Only

end Traced

end Acnet
