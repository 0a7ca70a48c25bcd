import Mathlib.Tactic.NormNum

namespace MiyaCore

/-! Overlay addresses are five bytes; they are written here as the natural number
they spell big-endian. -/

/-- An overlay address as it is stored. -/
abbrev OptrAddr := Fin (2 ^ 40)

instance OptrAddr.neZero : NeZero (2 ^ 40) := ⟨by decide⟩

/-- `_addr[i]` of an overlay pointer. -/
def addrByte (a i : Nat) : Nat := a / 2 ^ (32 - 8 * i) % 256

/-- The unsigned long into which `operator +` and `freeBlockSize` collect the
five bytes. The weights are those of the source's `exponentialList`: the second
byte counts 2^32 and the first 2^64, which leaves the 64 bits. -/
def ulongOptr (a : Nat) : Nat :=
  (addrByte a 0 * 2 ^ 64 + addrByte a 1 * 2 ^ 32 + addrByte a 2 * 2 ^ 16 + addrByte a 3 * 2 ^ 8 +
  addrByte a 4) % 2 ^ 64

/-- The sum of `operator +` for an address whose first byte is zero: its low five bytes are written back. -/
def optrAdd (a addend : Nat) : Nat := (ulongOptr a + addend) % 2 ^ 64 % 2 ^ 40

theorem addrByte_zero_iff {a : Nat} (inside : a < 2 ^ 40) : addrByte a 0 = 0 ↔ a < 2 ^ 32 := by
  simp only [addrByte, Nat.mul_zero, Nat.sub_zero]
  omega

/-- Below 2^24 only the three low bytes are in use, and their weights are right. -/
theorem ulongOptr_of_lt {a : Nat} (low : a < 2 ^ 24) : ulongOptr a = a := by
  have first : addrByte a 0 = 0 := by
    simp only [addrByte, Nat.mul_zero, Nat.sub_zero]
    omega
  have second : addrByte a 1 = 0 := by
    simp only [addrByte, Nat.mul_one, Nat.reduceSub]
    omega
  have third : addrByte a 2 = a / 65536 := by
    simp only [addrByte, Nat.reduceMul, Nat.reduceSub]
    omega
  have fourth : addrByte a 3 = a / 256 % 256 := rfl
  have fifth : addrByte a 4 = a % 256 := by
    simp only [addrByte, Nat.reduceMul, Nat.reduceSub, pow_zero, Nat.div_one]
  rw [ulongOptr, first, second, third, fourth, fifth]
  omega

theorem optrAdd_of_lt {a n : Nat} (low : a < 2 ^ 24) (room : a + n < 2 ^ 40) : optrAdd a n = a + n := by
  rw [optrAdd, ulongOptr_of_lt low]
  omega

/-- `ret += byte * pow(2, exponent)` on an unsigned integer of `width` bits. A sum that it does not hold is
not defined. -/
def addPower (width ret byte exponent : Nat) : Option Nat :=
  let sum := ret + byte * 2 ^ exponent
  if sum < 2 ^ width then some sum else none

/-- Some bytes of an address with their exponents, added up. -/
def collect (width a : Nat) (weights : List (Nat × Nat)) : Option Nat :=
  weights.foldlM (fun ret weight => addPower width ret (addrByte a weight.1) weight.2) 0

namespace Optr

/-- The five bytes with the exponents of `exponentialList`. -/
def ulong (a : Nat) : Option Nat := collect 64 a [(0, 64), (1, 32), (2, 16), (3, 8), (4, 0)]

/-- `optr::addr` from an unsigned long: its low five bytes. -/
def ofUlong (ulongOptr : Nat) : Nat := ulongOptr % 2 ^ 40

/-- `optr::operator +`. -/
def plus (a addend : Nat) : Option Nat := (ulong a).map fun ulongOptr => ofUlong ((ulongOptr + addend) % 2 ^ 64)

end Optr

/-- Adding up is exact as long as the whole sum fits. -/
theorem foldlM_addPower {width a ret : Nat} {weights : List (Nat × Nat)}
    (fits : ret + (weights.map fun weight => addrByte a weight.1 * 2 ^ weight.2).sum < 2 ^ width) :
    weights.foldlM (fun ret weight => addPower width ret (addrByte a weight.1) weight.2) ret =
      some (ret + (weights.map fun weight => addrByte a weight.1 * 2 ^ weight.2).sum) := by
  induction weights generalizing ret with
  | nil => rfl
  | cons weight rest ih =>
    rw [List.map_cons, List.sum_cons, ← Nat.add_assoc] at fits ⊢
    rw [List.foldlM_cons, addPower, if_pos (by omega), Option.bind_eq_bind, Option.bind_some, ih fits]

theorem collect_eq {width a total : Nat} {weights : List (Nat × Nat)}
    (sum : (weights.map fun weight => addrByte a weight.1 * 2 ^ weight.2).sum = total)
    (fits : total < 2 ^ width) : collect width a weights = some total := by
  rw [collect, foldlM_addPower (by omega), Nat.zero_add, sum]

/-- A byte of zero counts nothing, whatever its exponent. -/
theorem collect_cons_zero {width a i exponent : Nat} {weights : List (Nat × Nat)} (zero : addrByte a i = 0) :
    collect width a ((i, exponent) :: weights) = collect width a weights := by
  rw [collect, List.foldlM_cons, zero, addPower, Nat.zero_mul, Nat.zero_add, if_pos (Nat.two_pow_pos width)]
  rfl

/-- Any other byte counts too much, if its exponent is that of the width. -/
theorem collect_cons_over {width a i : Nat} {weights : List (Nat × Nat)} (nonzero : addrByte a i ≠ 0) :
    collect width a ((i, width) :: weights) = none := by
  have large := Nat.le_mul_of_pos_left (2 ^ width) (Nat.pos_of_ne_zero nonzero)
  rw [collect, List.foldlM_cons, addPower, Nat.zero_add, if_neg (Nat.not_lt.mpr large)]
  rfl

/-- The bytes of an address: the first, the second, and the three that are weighed rightly. -/
theorem addrByte_parts (a : Nat) :
    addrByte a 0 = a / 2 ^ 32 % 256 ∧ addrByte a 1 = a / 2 ^ 24 % 256 ∧
      addrByte a 2 * 2 ^ 16 + addrByte a 3 * 2 ^ 8 + addrByte a 4 = a % 2 ^ 24 := by
  refine ⟨rfl, rfl, ?_⟩
  simp only [addrByte, Nat.reduceMul, Nat.reduceSub, pow_zero, Nat.div_one]
  omega

theorem addrByte_lt (a i : Nat) : addrByte a i < 256 := Nat.mod_lt _ (by decide)

namespace Optr

/-- The number collected, if the first byte is zero: the second byte counts 2^32. -/
theorem ulong_eq (a : Nat) :
    ulong a = if addrByte a 0 = 0 then some (addrByte a 1 * 2 ^ 32 + a % 2 ^ 24) else none := by
  obtain ⟨-, -, low⟩ := addrByte_parts a
  have second := addrByte_lt a 1
  rw [ulong]
  split_ifs with first
  · rw [collect_cons_zero first]
    refine collect_eq ?_ (by omega)
    rw [← low]
    simp only [List.map_cons, List.map_nil, List.sum_cons, List.sum_nil, pow_zero, Nat.mul_one, Nat.add_zero,
      Nat.add_assoc]
  · exact collect_cons_over first

/-- The sum of an address and an offset, if the first byte of the address is zero. -/
theorem plus_eq (a addend : Nat) : plus a addend =
    if addrByte a 0 = 0 then some ((addrByte a 1 * 2 ^ 32 + a % 2 ^ 24 + addend) % 2 ^ 40) else none := by
  rw [plus, ulong_eq]
  split_ifs with first
  · rw [Option.map_some, ofUlong, Nat.mod_mod_of_dvd _ (pow_dvd_pow 2 (by decide))]
  · rfl

/-- The sum is that of the whole numbers, if the first byte is zero. -/
theorem plus_eq_optrAdd (a addend : Nat) :
    plus a addend = if addrByte a 0 = 0 then some (optrAdd a addend) else none := by
  have second := addrByte_lt a 1
  obtain ⟨-, -, low⟩ := addrByte_parts a
  rw [plus_eq]
  split_ifs with first
  · have bytes : ulongOptr a = addrByte a 1 * 2 ^ 32 + a % 2 ^ 24 := by
      rw [ulongOptr, first, Nat.zero_mul, Nat.zero_add, ← low, Nat.mod_eq_of_lt (by omega)]
      simp only [Nat.add_assoc]
    rw [optrAdd, bytes, Nat.mod_mod_of_dvd _ (pow_dvd_pow 2 (by decide))]
  · rfl

theorem plus_four_iff (a : Nat) : plus a 4 = some (a + 4) ↔ a < 2 ^ 24 := by
  rw [plus_eq_optrAdd]
  constructor
  · intro sum
    split_ifs at sum with first
    have value : optrAdd a 4 = a + 4 := Option.some.inj sum
    have inside : a < 2 ^ 40 := by
      rw [optrAdd] at value
      omega
    have low := (addrByte_zero_iff inside).mp first
    simp only [optrAdd, ulongOptr, addrByte, Nat.mul_zero, Nat.sub_zero, Nat.mul_one, Nat.reduceSub,
      Nat.reduceMul] at value
    omega
  · intro low
    rw [if_pos ((addrByte_zero_iff (by omega)).mpr (by omega)), optrAdd_of_lt low (by omega)]

end Optr

end MiyaCore
