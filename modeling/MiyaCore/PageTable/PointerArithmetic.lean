import Mathlib
import MiyaCore.PageTable.CacheTable
import MiyaCore.PageTable.ControlFile

/-!
# Arithmetic on overlay pointers

Four functions collect the five bytes of an address into an unsigned integer, each byte with a power of
two from the same table of exponents. The sums are doubles, which an integer takes over if it holds them.
-/

namespace MiyaCore

namespace Optr

/-- `optr::frame`. -/
def frame (a : Nat) : Option Nat := collect 16 a [(0, 16), (1, 8), (2, 0)]

/-- `optr::offset`. -/
def offset (a : Nat) : Option Nat := collect 16 a [(3, 8), (4, 0)]

end Optr

/-- `ControlBlock::freeBlockSize`. The mapping address is collected before the end is looked at. -/
def ControlBlock.freeBlockSize (b : ControlBlock) : Option Nat := do
  let ulControlBlockOptr ← Optr.ulong b.mappingOptr
  if b.freeBlockEnd = 0 then return 0
  let ulFreeBlockEndOptr ← Optr.ulong b.freeBlockEnd
  return (ulFreeBlockEndOptr + 2 ^ 64 - ulControlBlockOptr) % 2 ^ 64

/-- The frame and the offset of the address are there, and no other address has both. -/
def Optr.Determined (a : OptrAddr) : Prop :=
  ∃ frame offset, Optr.frame a = some frame ∧ Optr.offset a = some offset ∧
    ∀ b : OptrAddr, Optr.frame b = some frame → Optr.offset b = some offset → b = a

/-- What is expected of the address `a` with the offsets `n` and `m`, of the parts of the address `b`, and
of a control block for the addresses from `mappingOptr` to `freeBlockEnd`. -/
structure ExactArithmetic (a : OptrAddr) (n m : UInt64) (b mappingOptr freeBlockEnd : OptrAddr) : Prop where
  sum : Optr.plus a n.toNat = some ((a + n.toNat) % 2 ^ 40)
  twice : ∃ total, (Optr.plus a n.toNat).bind (Optr.plus · m.toNat) = some total ∧
    Optr.plus a (n + m).toNat = some total
  parts : Optr.Determined b
  size : ∀ block : ControlBlock, block.mappingOptr = mappingOptr → block.freeBlockEnd = freeBlockEnd →
    freeBlockEnd ≠ 0 → mappingOptr ≤ freeBlockEnd →
    block.freeBlockSize = some (freeBlockEnd - mappingOptr : Nat)

namespace Optr

theorem frame_eq (a : Nat) :
    frame a = if addrByte a 0 = 0 then some (addrByte a 1 * 2 ^ 8 + addrByte a 2) else none := by
  have second := addrByte_lt a 1
  have third := addrByte_lt a 2
  rw [frame]
  split_ifs with first
  · rw [collect_cons_zero first]
    refine collect_eq ?_ (by omega)
    simp only [List.map_cons, List.map_nil, List.sum_cons, List.sum_nil, pow_zero, Nat.mul_one, Nat.add_zero]
  · exact collect_cons_over first

theorem offset_eq (a : Nat) : offset a = some (a % 2 ^ 16) := by
  have sum : ([(3, 8), (4, 0)].map fun weight : Nat × Nat => addrByte a weight.1 * 2 ^ weight.2).sum =
      a % 2 ^ 16 := by
    simp only [List.map_cons, List.map_nil, List.sum_cons, List.sum_nil, addrByte, Nat.reduceMul, Nat.reduceSub,
      pow_zero, Nat.div_one, Nat.mul_one]
    omega
  exact collect_eq sum (by omega)

/-- Adding is right just where the two bytes with a wrong weight are zero. -/
theorem plus_eq_iff (a : OptrAddr) (n : Nat) : plus a n = some ((a + n) % 2 ^ 40) ↔ (a : Nat) < 2 ^ 24 := by
  have inside := a.isLt
  have first := addrByte_zero_iff inside
  obtain ⟨-, second, -⟩ := addrByte_parts a
  rw [plus_eq]
  by_cases low : (a : Nat) < 2 ^ 32
  · rw [if_pos (first.mpr low), Option.some_inj]
    omega
  · rw [if_neg (mt first.mp low)]
    exact ⟨nofun, fun low => by omega⟩

/-- Below 2^32 the two bytes of the frame are all there is above the offset. -/
theorem frame_of_lt {a : Nat} (low : a < 2 ^ 32) : frame a = some (a / 2 ^ 16) := by
  rw [frame_eq, if_pos ((addrByte_zero_iff (by omega)).mpr low)]
  refine congrArg some ?_
  simp only [addrByte, Nat.reduceMul, Nat.reduceSub]
  omega

/-- The frame and the offset are those of one address, as long as the frame is there. -/
theorem determined_iff (b : OptrAddr) : Determined b ↔ (b : Nat) < 2 ^ 32 := by
  have defined : ∀ {c : OptrAddr} {frame : Nat}, Optr.frame c = some frame → (c : Nat) < 2 ^ 32 := by
    intro c frame found
    by_contra high
    rw [frame_eq, if_neg (mt (addrByte_zero_iff c.isLt).mp high)] at found
    contradiction
  constructor
  · rintro ⟨frame, offset, found, -⟩
    exact defined found
  · intro low
    refine ⟨b / 2 ^ 16, b % 2 ^ 16, frame_of_lt low, offset_eq b, fun c frame offset => ?_⟩
    have frames := Option.some_inj.mp ((frame_of_lt (defined frame)).symm.trans frame)
    have offsets := Option.some_inj.mp ((offset_eq c).symm.trans offset)
    refine Fin.ext ?_
    rw [← Nat.div_add_mod (c : Nat) (2 ^ 16), frames, offsets, Nat.div_add_mod]

end Optr

/-- The size of a control block is right just where its ends have the same upper bytes, the first zero. -/
theorem ControlBlock.freeBlockSize_eq_iff (b : ControlBlock) (mapped : b.mappingOptr < 2 ^ 40)
    (ended : b.freeBlockEnd < 2 ^ 40) (set : b.freeBlockEnd ≠ 0) (ordered : b.mappingOptr ≤ b.freeBlockEnd) :
    b.freeBlockSize = some (b.freeBlockEnd - b.mappingOptr) ↔
      b.freeBlockEnd / 2 ^ 24 = b.mappingOptr / 2 ^ 24 ∧ b.freeBlockEnd < 2 ^ 32 := by
  have mapping := addrByte_zero_iff mapped
  have blockEnd := addrByte_zero_iff ended
  obtain ⟨-, second, -⟩ := addrByte_parts b.mappingOptr
  obtain ⟨-, second', -⟩ := addrByte_parts b.freeBlockEnd
  simp only [freeBlockSize, Optr.ulong_eq, if_neg set]
  by_cases low : b.freeBlockEnd < 2 ^ 32
  · rw [if_pos (mapping.mpr (by omega)), if_pos (blockEnd.mpr low)]
    simp only [Option.bind_eq_bind, Option.bind_some, Option.pure_def, Option.some_inj]
    omega
  · rw [if_neg (mt blockEnd.mp low)]
    refine ⟨fun found => ?_, fun exact => absurd exact.2 low⟩
    split_ifs at found
    · contradiction
    · contradiction

section Exact
variable (a : OptrAddr) (n m : UInt64) (b mappingOptr freeBlockEnd : OptrAddr)

/-- Adding twice is adding the sum of the offsets, just where the address in between is weighed rightly. -/
theorem plus_plus_iff (low : (a : Nat) < 2 ^ 24) :
    (∃ total, (Optr.plus a n.toNat).bind (Optr.plus · m.toNat) = some total ∧
      Optr.plus a (n + m).toNat = some total) ↔ (a + n.toNat) % 2 ^ 40 < 2 ^ 24 := by
  let between : OptrAddr := ⟨(a + n.toNat) % 2 ^ 40, Nat.mod_lt _ (Nat.two_pow_pos 40)⟩
  have total : (a + (n + m).toNat) % 2 ^ 40 = (between + m.toNat) % 2 ^ 40 := by
    rw [UInt64.toNat_add]
    change _ = ((a + n.toNat) % 2 ^ 40 + m.toNat) % 2 ^ 40
    omega
  rw [(Optr.plus_eq_iff a n.toNat).mpr low, (Optr.plus_eq_iff a (n + m).toNat).mpr low, Option.bind_some, total]
  refine Iff.trans ⟨?_, fun sum => ⟨_, sum, rfl⟩⟩ (Optr.plus_eq_iff between m.toNat)
  rintro ⟨_, sum, equal⟩
  exact sum.trans equal.symm

/-- The arithmetic is exact just where no byte with a wrong weight takes part: the address and the sum are
below 2^24, the address taken apart is below 2^32, and the block lies within one stretch of 2^24 there. -/
theorem exactArithmetic_iff : ExactArithmetic a n m b mappingOptr freeBlockEnd ↔
    (a : Nat) < 2 ^ 24 ∧ (a + n.toNat) % 2 ^ 40 < 2 ^ 24 ∧ (b : Nat) < 2 ^ 32 ∧
      ((freeBlockEnd : Nat) = 0 ∨ (freeBlockEnd : Nat) < mappingOptr ∨
        ((freeBlockEnd : Nat) / 2 ^ 24 = mappingOptr / 2 ^ 24 ∧ (freeBlockEnd : Nat) < 2 ^ 32)) := by
  constructor
  · intro exact
    have low := (Optr.plus_eq_iff a n.toNat).mp exact.sum
    refine ⟨low, (plus_plus_iff a n m low).mp exact.twice, (Optr.determined_iff b).mp exact.parts, ?_⟩
    by_cases set : (freeBlockEnd : Nat) = 0
    · exact Or.inl set
    · by_cases ordered : (mappingOptr : Nat) ≤ freeBlockEnd
      · let block : ControlBlock := { mappingOptr := mappingOptr, freeBlockEnd := freeBlockEnd }
        have size := exact.size block rfl rfl (fun zero => set (congrArg Fin.val zero)) ordered
        exact Or.inr (Or.inr ((block.freeBlockSize_eq_iff mappingOptr.isLt freeBlockEnd.isLt set ordered).mp size))
      · exact Or.inr (Or.inl (Nat.not_le.mp ordered))
  · rintro ⟨low, between, inside, ends⟩
    refine ⟨(Optr.plus_eq_iff a n.toNat).mpr low, (plus_plus_iff a n m low).mpr between,
      (Optr.determined_iff b).mpr inside, fun block mapping blockEnd set ordered => ?_⟩
    have set' : (freeBlockEnd : Nat) ≠ 0 := fun zero => set (Fin.ext zero)
    have size := block.freeBlockSize_eq_iff (mapping ▸ mappingOptr.isLt) (blockEnd ▸ freeBlockEnd.isLt)
      (blockEnd ▸ set') (mapping ▸ blockEnd ▸ ordered)
    rw [mapping, blockEnd] at size
    rw [size]
    obtain zero | below | same := ends
    · exact absurd zero set'
    · exact absurd ordered (Nat.not_le.mpr below)
    · exact same

end Exact

/-- From the address 16 MiB the sum with 0 is not that address, and a block from 0 to 16 MiB is said to be of
4 GiB. -/
theorem exactArithmetic_fails : ¬ExactArithmetic (2 ^ 24) 0 0 0 0 (2 ^ 24) ∧
    Optr.plus (2 ^ 24) 0 = some (2 ^ 32) ∧
    ControlBlock.freeBlockSize { mappingOptr := 0, freeBlockEnd := 2 ^ 24 } = some (2 ^ 32) := by
  refine ⟨fun exact => absurd exact.sum ?_, ?_, ?_⟩ <;> decide +kernel

end MiyaCore
