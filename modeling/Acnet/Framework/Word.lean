import Mathlib.Data.Nat.Bitwise
import Mathlib.Data.Nat.ModEq

namespace Acnet

/-- Unsigned 64-bit words are naturals below `2^64`; every machine operation wraps. -/
def wrap (n : Nat) : Nat := n%2^64

def wrapSub (a b : Nat) : Nat := (a+2^64-b)%2^64

/-- Two's complement reading of a word: `static_cast` to a signed 64-bit type. -/
def signed (n : Nat) : Int := if n<2^63 then (n : Int) else (n : Int)-2^64

/-- The difference of the signed casts of two words, in 64-bit arithmetic. -/
def signedSub (a b : Nat) : Int := (signed a-signed b).bmod (2^64)

theorem wrap_of_lt {n : Nat} (h : n<2^64) : wrap n=n := Nat.mod_eq_of_lt h

theorem wrap_add (a b : Nat) : wrap (wrap a+b)=wrap (a+b) := by
  simp [wrap]

theorem signed_of_lt {n : Nat} (h : n<2^63) : signed n=n := if_pos h

theorem signed_le (n : Nat) : signed n ≤ n := by
  unfold signed
  split_ifs <;> omega

/-- A signed comparison of two words at most `2^62` apart goes wrong only across `2^63`. -/
theorem signed_le_wrap_iff {a n : Nat} (ha : a<2^64) (hn : n ≤ 2^62) :
    signed a ≤ signed (wrap (a+n)) ↔ ¬(a<2^63 ∧ 2^63 ≤ a+n) := by
  unfold signed wrap
  split_ifs <;> omega

theorem signed_lt_wrap_iff {a n : Nat} (ha : a<2^64) (hn : n ≤ 2^62) :
    signed a<signed (wrap (a+n)) ↔ 0<n ∧ ¬(a<2^63 ∧ 2^63 ≤ a+n) := by
  unfold signed wrap
  split_ifs <;> omega

theorem signed_wrap_sub {a n : Nat} (ha : a<2^64) (hn : n ≤ 2^62)
    (h : ¬(a<2^63 ∧ 2^63 ≤ a+n)) : signed (wrap (a+n))-signed a=n := by
  unfold signed wrap
  split_ifs <;> omega

theorem signed_pred_le_iff {a : Nat} (ha : a<2^64) :
    signed a ≤ signed (wrapSub a 1) ↔ a=2^63 := by
  unfold signed wrapSub
  split_ifs <;> omega

theorem wrapSub_of_le {a b : Nat} (h : b ≤ a) (ha : a<2^64) : wrapSub a b=a-b := by
  unfold wrapSub
  omega

theorem wrapSub_self (a : Nat) : wrapSub a a=0 := by
  unfold wrapSub
  omega

theorem signedSub_self (a : Nat) : signedSub a a=0 := by
  rw [signedSub,Int.sub_self,Int.zero_bmod]

theorem signedSub_of_lt {a b : Nat} (ha : a<2^63) (hb : b<2^63) : signedSub a b=a-b := by
  rw [signedSub,signed_of_lt ha,signed_of_lt hb]
  exact Int.bmod_eq_of_le (by omega) (by omega)

/-- Words at most `2^62` apart are told apart wherever they lie. -/
theorem signedSub_wrap (a : Nat) {n : Nat} (hn : n ≤ 2^62) :
    signedSub a (wrap (a+n))=-n := by
  simp only [signedSub,signed,wrap,Int.bmod]
  split_ifs <;> omega

/-- The smallest power of two that is not below `n`, computed from the bit length of `n-1`. -/
def bitCeil (n : Nat) : Nat := if n ≤ 1 then 1 else 2^(Nat.log2 (n-1)+1)

theorem bitCeil_isPow (n : Nat) : ∃ k,bitCeil n=2^k := by
  unfold bitCeil
  split_ifs
  · exact ⟨0,rfl⟩
  · exact ⟨_,rfl⟩

theorem bitCeil_le {n k : Nat} (h : n ≤ 2^k) : bitCeil n ≤ 2^k := by
  unfold bitCeil
  split_ifs with h1
  · exact Nat.one_le_two_pow
  · have hl : Nat.log2 (n-1)<k := (Nat.log2_lt (by omega)).mpr (by omega)
    exact Nat.pow_le_pow_right (by decide) hl

/-- Masking with a power of two less one selects the ring slot of a counter. -/
theorem land_mask {size k : Nat} (h : size=2^k) (i : Nat) : i &&& (size-1)=i%size := by
  subst h
  exact Nat.and_two_pow_sub_one_eq_mod i k

/-- A masked 64-bit index selects the slot of the counter that it is the image of. -/
theorem wrap_land {size k : Nat} (hk : k ≤ 64) (h : size=2^k) (i : Nat) :
    (wrap i &&& (size-1))=i%size := by
  rw [land_mask h]
  subst h
  exact Nat.mod_mod_of_dvd i (pow_dvd_pow 2 hk)

/-- Counters of one window of the ring's length lie in different slots. -/
theorem slot_inj {n a i j : Nat} (hi : a ≤ i) (hi' : i<a+n) (hj : a ≤ j) (hj' : j<a+n)
    (h : i%n=j%n) : i=j := by
  rcases Nat.le_total i j with hle | hle
  · have hd : n ∣ j-i := (Nat.modEq_iff_dvd' hle).mp h
    have hz := Nat.eq_zero_of_dvd_of_lt hd (by omega)
    omega
  · have hd : n ∣ i-j := (Nat.modEq_iff_dvd' hle).mp h.symm
    have hz := Nat.eq_zero_of_dvd_of_lt hd (by omega)
    omega

/-- Every counter has a representative of its slot in any window of the ring's length. -/
theorem slot_window {n : Nat} (hn : 0<n) (a i : Nat) : ∃ j,a ≤ j ∧ j<a+n ∧ j%n=i%n := by
  refine ⟨a+((i%n+n-a%n)%n),by omega,?_,?_⟩
  · have := Nat.mod_lt (i%n+n-a%n) hn
    omega
  · have ha := Nat.mod_lt a hn
    have hsum : a%n+(i%n+n-a%n)=i%n+n := by omega
    rw [Nat.add_mod,Nat.mod_mod,← Nat.add_mod_mod (a%n)]
    simp only [Nat.mod_mod,Nat.add_mod_mod,hsum,Nat.add_mod_right]

/-- A counter outside a window lies at least one lap away from its slot's member of it. -/
theorem slot_lap {n i j : Nat} (hlt : i<j) (h : i%n=j%n) : i+n ≤ j := by
  have hd : n ∣ j-i := (Nat.modEq_iff_dvd' hlt.le).mp h
  have := Nat.le_of_dvd (by omega) hd
  omega

end Acnet
