import Mathlib.Data.List.TakeWhile

namespace Acnet

/-- A C string: bytes up to, and without, the terminating NUL. -/
@[ext] structure CString where
  bytes : List UInt8
  noNul : 0∉bytes
  deriving DecidableEq

/-- The bytes of a literal. -/
def ascii (s : String) : List UInt8 := s.toList.map fun c => UInt8.ofNat c.toNat

namespace CString

/-- The string that a buffer holds. -/
def ofBuffer (buffer : List UInt8) : CString where
  bytes := buffer.takeWhile (·≠0)
  noNul h := by simpa using List.mem_takeWhile_imp h

theorem ofBuffer_eq {buffer : List UInt8} (h : 0∉buffer) : ofBuffer buffer=⟨buffer,h⟩ := by
  ext1
  refine List.takeWhile_eq_self_iff.mpr ?_
  intro b hb
  have hne : b≠0 := fun he => h (he ▸ hb)
  simpa using hne

/-- The parts before and after the first `c`, as `strchr` finds it. -/
def split (s : CString) (c : UInt8) : Option (CString×CString) :=
  if c∈s.bytes then
    some (⟨s.bytes.takeWhile (·≠c),fun h => s.noNul
        ((List.takeWhile_sublist _).subset h)⟩,
      ⟨(s.bytes.dropWhile (·≠c)).tail,fun h => s.noNul
        ((List.dropWhile_sublist _).subset (List.mem_of_mem_tail h))⟩)
  else none

theorem split_append {word rest : List UInt8} {c : UInt8} (hw : c∉word)
    (h0 : 0∉word) (hr : 0∉rest) (h : 0∉word++c::rest) :
    (⟨word++c::rest,h⟩ : CString).split c=some (⟨word,h0⟩,⟨rest,hr⟩) := by
  have hne : ∀ b∈word,decide (b≠c)=true := by
    intro b hb
    exact decide_eq_true fun he => hw (he ▸ hb)
  simp only [split,List.mem_append,List.mem_cons,true_or,or_true,if_true,
    List.takeWhile_append_of_pos hne,List.dropWhile_append_of_pos hne]
  simp

end CString

/-- What `fgets` stores of the rest of a file: at most `n` bytes, none of them after a
newline. -/
def line : Nat → List UInt8 → List UInt8
  | 0,_ => []
  | _,[] => []
  | n+1,b::rest => if b=10 then [b] else b::line n rest

/-- `fgets` into a buffer of `size` bytes; at the end of the file it returns NULL. -/
def fgets (size : Nat) (file : List UInt8) : Option (List UInt8) :=
  if file.isEmpty then none else some (line (size-1) file)

theorem line_append {xs : List UInt8} (h : 10∉xs) (n : Nat) (ys : List UInt8) :
    line (xs.length+n) (xs++ys)=xs++line n ys := by
  induction xs with
  | nil => simp
  | cons x xs ih =>
    obtain ⟨hx,hxs⟩ : x≠10 ∧ 10∉xs := by simpa [eq_comm] using h
    rw [List.length_cons,Nat.add_right_comm]
    simp [line,hx,ih hxs]

theorem mem_of_mem_line {n : Nat} {bs : List UInt8} {b : UInt8} (h : b∈line n bs) : b∈bs := by
  induction bs generalizing n with
  | nil =>
    cases n <;> simp [line] at h
  | cons x bs ih =>
    cases n with
    | zero => simp [line] at h
    | succ n =>
      simp only [line] at h
      split_ifs at h
      · simp_all
      · rcases List.mem_cons.mp h with rfl | h
        · simp
        · exact List.mem_cons_of_mem _ (ih h)

/-- A line that fits is stored whole if a newline can only end it. -/
theorem line_eq_self_iff (n : Nat) (bs : List UInt8) :
    line n bs=bs ↔ bs.length ≤ n ∧ 10∉bs.dropLast := by
  induction bs generalizing n with
  | nil => cases n <;> simp [line]
  | cons b bs ih =>
    cases n with
    | zero => simp [line]
    | succ n =>
      by_cases hb : b=10
      · cases bs <;> simp [line,hb]
      · have hdrop : 10∉(b::bs).dropLast ↔ 10∉bs.dropLast := by
          cases bs <;> simp [Ne.symm hb]
        rw [hdrop,List.length_cons,Nat.succ_le_succ_iff,← ih n]
        simp [line,hb]

end Acnet
