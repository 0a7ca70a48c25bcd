import MiyaCore.Lockstep
import MiyaCore.PageTable.AllocatorRuns
import Mathlib.Data.Set.Insert

/-!
# Clearing the allocator

`clear` formats the control file again without emptying it first. The allocator only looks at blocks it
comes to from a head, and only at regions it has set, so that two control files that agree there act alike.
-/

namespace MiyaCore

namespace ControlFile
open Lockstep

/-- `OverlayMemoryAllocator::clear`. -/
def clear (f : ControlFile) : ControlFile := f.init

section Fields
variable (f : ControlFile) (c d : Chain) (t x : Nat)

theorem setHead_head : (setHead c f (some t)).head d = if d = c then t else f.head d := by
  simp only [setHead]
  split <;> simp

theorem setHead_next : (setHead c f (some t)).next x =
    if f.head c = 0 then if x = t then t else f.next x
    else if x = f.prev (f.head c) then t else if x = t then f.head c else f.next x := by
  by_cases empty : f.head c = 0 <;> simp [setHead, empty]

theorem setHead_prev : (setHead c f (some t)).prev x =
    if f.head c = 0 then if x = t then t else f.prev x
    else if x = f.head c then t else if x = t then f.prev (f.head c) else f.prev x := by
  by_cases empty : f.head c = 0 <;> simp [setHead, empty]

end Fields

/-- The two stores that take a block out from between its neighbours. -/
def unlink (f : ControlFile) (x : Nat) : ControlFile :=
  let f := f.setPrev (f.next x) (f.prev x)
  f.setNext (f.prev x) (f.next x)

theorem useUnUsed_eq (f : ControlFile) : f.useUnUsedControlBlockHead =
    if f.head .unUsed = 0 then (none, f)
    else if f.next (f.head .unUsed) = f.head .unUsed then (some (f.head .unUsed), setHead .unUsed f none)
    else (some (f.head .unUsed), setHead .unUsed (f.unlink (f.head .unUsed))
      (some ((f.unlink (f.head .unUsed)).next (f.head .unUsed)))) :=
  rfl

/-- Off its chain, as far as the heads and the neighbours go. -/
def detach (f : ControlFile) (x : Nat) : ControlFile :=
  unlink (if f.head .free = x then setHead .free f (some (f.next x))
    else if f.head .allocated = x then setHead .allocated f (some (f.next x))
    else if f.head .unUsed = x then setHead .unUsed f (some (f.next x))
    else f) x

theorem toUnUsed_eq (f : ControlFile) (x : Nat) : f.toUnUsedControlBlock x =
    if f.prev x = x ∨ f.next x = x then
      if f.head .free = 0 then .error .nullBlock
      else if f.head .free = x then .ok (setHead .unUsed (setHead .free f none) (some x))
      else if f.head .allocated = 0 then .error .nullBlock
      else if f.head .allocated = x then .ok (setHead .unUsed (setHead .allocated f none) (some x))
      else if f.head .unUsed = 0 then .error .nullBlock
      else if f.head .unUsed = x then .ok (setHead .unUsed (setHead .unUsed f none) (some x))
      else .ok (setHead .unUsed f (some x))
    else .ok (setHead .unUsed (f.detach x) (some x)) :=
  rfl

/-- The end of `allocate`: what the new region leaves of the target is put back. -/
def cutTarget (f : ControlFile) (newAllocated target allocateSize : Nat) :
    Except AllocError (Nat × ControlFile) := do
  if f.freeBlockSize target = 0 ∨ allocateSize < f.freeBlockSize target then
    let (newFree, f) := f.takeControlBlock
    let f := f.setMapping newFree (optrAdd (f.mapping newAllocated) allocateSize)
    let f := f.setEnd newFree (f.blockEnd target)
    let f ← f.toUnUsedControlBlock target
    let f := f.freeBlockHead (some newFree)
    return (f.mapping newAllocated, f)
  else
    let f ← f.toUnUsedControlBlock target
    return (f.mapping newAllocated, f)

theorem allocate_eq (f : ControlFile) (allocateSize : Nat) : f.allocate allocateSize =
    if f.head .free = 0 then .error .nullBlock
    else f.findFreeBlock (f.head .free) allocateSize >>= fun target =>
      let (newAllocated, f) := f.takeControlBlock
      (((f.setMapping newAllocated (f.mapping target)).setEnd newAllocated
        (optrAdd ((f.setMapping newAllocated (f.mapping target)).mapping newAllocated) allocateSize)).allocatedBlockHead
        (some newAllocated)).cutTarget newAllocated target allocateSize := by
  rw [allocate]
  split <;> rfl

/-- The control files agree on the heads and the tail, on the links of the blocks of `K` and on the regions of
those of `D`. The heads and the links of `K` stay in `K`. -/
structure Agree (K D : Set Nat) (f g : ControlFile) : Prop where
  head : ∀ c, f.head c = g.head c
  tail : f.controlBlockTail = g.controlBlockTail
  next : ∀ b ∈ K, f.next b = g.next b
  prev : ∀ b ∈ K, f.prev b = g.prev b
  mapping : ∀ b ∈ D, f.mapping b = g.mapping b
  blockEnd : ∀ b ∈ D, f.blockEnd b = g.blockEnd b
  known : K ⊆ D
  head_mem : ∀ c, g.head c ≠ 0 → g.head c ∈ K
  next_mem : ∀ b ∈ K, g.next b ∈ K
  prev_mem : ∀ b ∈ K, g.prev b ∈ K

namespace Agree
variable {K D : Set Nat} {f g : ControlFile} {b v t : Nat}

theorem setNext (agree : Agree K D f g) (inK : v ∈ K) : Agree K D (f.setNext b v) (g.setNext b v) where
  head := agree.head
  tail := agree.tail
  next x member := by rw [setNext_next, setNext_next, agree.next x member]
  prev x member := by rw [setNext_prev, setNext_prev, agree.prev x member]
  mapping x member := by rw [setNext_mapping, setNext_mapping, agree.mapping x member]
  blockEnd x member := by rw [setNext_blockEnd, setNext_blockEnd, agree.blockEnd x member]
  known := agree.known
  head_mem := agree.head_mem
  next_mem x member := by
    rw [setNext_next]
    split
    · exact inK
    · exact agree.next_mem x member
  prev_mem x member := by
    rw [setNext_prev]
    exact agree.prev_mem x member

theorem setPrev (agree : Agree K D f g) (inK : v ∈ K) : Agree K D (f.setPrev b v) (g.setPrev b v) where
  head := agree.head
  tail := agree.tail
  next x member := by rw [setPrev_next, setPrev_next, agree.next x member]
  prev x member := by rw [setPrev_prev, setPrev_prev, agree.prev x member]
  mapping x member := by rw [setPrev_mapping, setPrev_mapping, agree.mapping x member]
  blockEnd x member := by rw [setPrev_blockEnd, setPrev_blockEnd, agree.blockEnd x member]
  known := agree.known
  head_mem := agree.head_mem
  next_mem x member := by
    rw [setPrev_next]
    exact agree.next_mem x member
  prev_mem x member := by
    rw [setPrev_prev]
    split
    · exact inK
    · exact agree.prev_mem x member

theorem setTail (agree : Agree K D f g) (v : Nat) : Agree K D (f.setTail v) (g.setTail v) :=
  { agree with tail := rfl }

theorem setEnd (agree : Agree K D f g) : Agree K D (f.setEnd b v) (g.setEnd b v) where
  head := agree.head
  tail := agree.tail
  next x member := by rw [setEnd_next, setEnd_next, agree.next x member]
  prev x member := by rw [setEnd_prev, setEnd_prev, agree.prev x member]
  mapping x member := by rw [setEnd_mapping, setEnd_mapping, agree.mapping x member]
  blockEnd x member := by rw [setEnd_blockEnd, setEnd_blockEnd, agree.blockEnd x member]
  known := agree.known
  head_mem := agree.head_mem
  next_mem x member := by
    rw [setEnd_next]
    exact agree.next_mem x member
  prev_mem x member := by
    rw [setEnd_prev]
    exact agree.prev_mem x member

/-- A block whose region is set is known from then on. -/
theorem setRegion (agree : Agree K D f g) (b m e : Nat) :
    Agree K (insert b D) ((f.setMapping b m).setEnd b e) ((g.setMapping b m).setEnd b e) where
  head := agree.head
  tail := agree.tail
  next x member := by simp [agree.next x member]
  prev x member := by simp [agree.prev x member]
  mapping x member := by
    rw [setEnd_mapping, setMapping_mapping, setEnd_mapping, setMapping_mapping]
    split
    · rfl
    · exact agree.mapping x (member.resolve_left ‹_›)
  blockEnd x member := by
    rw [setEnd_blockEnd, setMapping_blockEnd, setEnd_blockEnd, setMapping_blockEnd]
    split
    · rfl
    · exact agree.blockEnd x (member.resolve_left ‹_›)
  known := agree.known.trans (Set.subset_insert b D)
  head_mem := agree.head_mem
  next_mem x member := by simpa using agree.next_mem x member
  prev_mem x member := by simpa using agree.prev_mem x member

theorem clearHead (agree : Agree K D f g) (c : Chain) : Agree K D (setHead c f none) (setHead c g none) :=
  { agree with
    head := fun d => by simp only [setHead, putHead_head, agree.head d]
    head_mem := fun d => by
      simp only [setHead, putHead_head]
      split
      · exact fun nonzero => absurd rfl nonzero
      · exact agree.head_mem d }

/-- A head setter links a block whose region is known. -/
theorem setHead (agree : Agree K D f g) (c : Chain) (inD : t ∈ D) :
    Agree (insert t K) D (setHead c f (some t)) (setHead c g (some t)) := by
  have data := setHead_sameData c f (some t)
  have data' := setHead_sameData c g (some t)
  -- the block before the head, which is written through, is in `K`
  have front : g.head c ≠ 0 → f.prev (g.head c) = g.prev (g.head c) :=
    fun nonzero => agree.prev _ (agree.head_mem c nonzero)
  refine ⟨fun d => ?_, ?_, fun x member => ?_, fun x member => ?_, fun x member => ?_, fun x member => ?_,
    Set.insert_subset inD agree.known, fun d => ?_, fun x member => ?_, fun x member => ?_⟩
  · rw [setHead_head, setHead_head, agree.head d]
  · rw [data.2.2, data'.2.2, agree.tail]
  · rw [setHead_next, setHead_next, agree.head c]
    rcases member with rfl | member
    · grind
    · rw [agree.next x member]
      grind
  · rw [setHead_prev, setHead_prev, agree.head c]
    rcases member with rfl | member
    · grind
    · rw [agree.prev x member]
      grind
  · rw [data.1, data'.1, agree.mapping x member]
  · rw [data.2.1, data'.2.1, agree.blockEnd x member]
  · rw [setHead_head]
    split
    · exact fun _ => Set.mem_insert t K
    · exact fun nonzero => Or.inr (agree.head_mem d nonzero)
  · rw [setHead_next]
    have inK : x ≠ t → g.next x ∈ insert t K := fun different =>
      Or.inr (agree.next_mem x (member.resolve_left different))
    split_ifs with empty
    · exact Set.mem_insert t K
    · exact inK ‹_›
    · exact Set.mem_insert t K
    · exact Or.inr (agree.head_mem c empty)
    · exact inK ‹_›
  · rw [setHead_prev]
    have inK : x ≠ t → g.prev x ∈ insert t K := fun different =>
      Or.inr (agree.prev_mem x (member.resolve_left different))
    split_ifs with empty
    · exact Set.mem_insert t K
    · exact inK ‹_›
    · exact Set.mem_insert t K
    · exact Or.inr (agree.prev_mem _ (agree.head_mem c empty))
    · exact inK ‹_›

/-- A head moved to a block of `K`. -/
theorem moveHead (agree : Agree K D f g) (c : Chain) (inK : t ∈ K) :
    Agree K D (ControlFile.setHead c f (some t)) (ControlFile.setHead c g (some t)) := by
  have moved := agree.setHead c (agree.known inK)
  rwa [Set.insert_eq_of_mem inK] at moved

theorem unlink (agree : Agree K D f g) {x : Nat} (inK : x ∈ K) : Agree K D (f.unlink x) (g.unlink x) := by
  have first : Agree K D (f.setPrev (f.next x) (f.prev x)) (g.setPrev (g.next x) (g.prev x)) := by
    rw [agree.next x inK, agree.prev x inK]
    exact agree.setPrev (agree.prev_mem x inK)
  simp only [ControlFile.unlink]
  rw [first.next x inK, first.prev x inK]
  exact first.setNext (first.next_mem x inK)

theorem useUnUsed (agree : Agree K D f g) :
    f.useUnUsedControlBlockHead.1 = g.useUnUsedControlBlockHead.1 ∧
      Agree K D f.useUnUsedControlBlockHead.2 g.useUnUsedControlBlockHead.2 := by
  rw [useUnUsed_eq f, useUnUsed_eq g, agree.head]
  by_cases empty : g.head .unUsed = 0
  · rw [if_pos empty, if_pos empty]
    exact ⟨rfl, agree⟩
  have inK := agree.head_mem .unUsed empty
  have unlinked := agree.unlink inK
  rw [if_neg empty, if_neg empty, agree.next _ inK, unlinked.next _ inK]
  split
  · exact ⟨rfl, agree.clearHead .unUsed⟩
  · exact ⟨rfl, unlinked.moveHead .unUsed (unlinked.next_mem _ inK)⟩

theorem take (agree : Agree K D f g) :
    f.takeControlBlock.1 = g.takeControlBlock.1 ∧ Agree K D f.takeControlBlock.2 g.takeControlBlock.2 := by
  have used := agree.useUnUsed
  simp only [takeControlBlock]
  generalize f.useUnUsedControlBlockHead = u, g.useUnUsedControlBlockHead = u' at used
  obtain ⟨r, f'⟩ := u
  obtain ⟨r', g'⟩ := u'
  obtain ⟨rfl, after⟩ : r = r' ∧ Agree K D f' g' := used
  cases r with
  | some b => exact ⟨rfl, after⟩
  | none =>
    simp only [newControlBlock, after.tail]
    exact ⟨trivial, after.setTail _⟩

theorem detach (agree : Agree K D f g) {x : Nat} (inK : x ∈ K) : Agree K D (f.detach x) (g.detach x) := by
  simp only [ControlFile.detach, agree.head, agree.next x inK]
  have moved := fun c => agree.moveHead c (agree.next_mem x inK)
  split
  · exact (moved .free).unlink inK
  split
  · exact (moved .allocated).unlink inK
  split
  · exact (moved .unUsed).unlink inK
  · exact agree.unlink inK

theorem toUnUsed (agree : Agree K D f g) {x : Nat} (inK : x ∈ K) :
    Results (Agree K D) (f.toUnUsedControlBlock x) (g.toUnUsedControlBlock x) := by
  have cleared := fun c => (agree.clearHead c).moveHead .unUsed inK
  rw [toUnUsed_eq f, toUnUsed_eq g]
  simp only [agree.head, agree.next x inK, agree.prev x inK]
  by_cases single : g.prev x = x ∨ g.next x = x
  · rw [if_pos single, if_pos single]
    split
    · exact .error _
    split
    · exact .ok (cleared .free)
    split
    · exact .error _
    split
    · exact .ok (cleared .allocated)
    split
    · exact .error _
    split
    · exact .ok (cleared .unUsed)
    · exact .ok (agree.moveHead .unUsed inK)
  · rw [if_neg single, if_neg single]
    exact .ok ((agree.detach inK).moveHead .unUsed inK)

theorem freeBlockSize (agree : Agree K D f g) {x : Nat} (inK : x ∈ K) : f.freeBlockSize x = g.freeBlockSize x :=
  freeBlockSize_congr ⟨agree.mapping x (agree.known inK), agree.blockEnd x (agree.known inK)⟩

theorem findMapped (agree : Agree K D f g) (c : Chain) (target : Nat) :
    Results (fun r r' => r = r' ∧ ∀ b ∈ r', b ∈ K) (f.findMapped c target) (g.findMapped c target) := by
  have walk : ∀ n, ∀ b ∈ K, Results (fun r r' => r = r' ∧ ∀ b ∈ r', b ∈ K) (findMappedFuel c f target n b)
      (findMappedFuel c g target n b) := by
    intro n
    induction n with
    | zero => exact fun b inK => .error _
    | succ n ih =>
      intro b inK
      simp only [findMappedFuel, agree.mapping b (agree.known inK), agree.next b inK, agree.head]
      split
      · exact .ok ⟨rfl, by simpa using inK⟩
      split
      · exact .ok ⟨rfl, by simp⟩
      · exact ih _ (agree.next_mem b inK)
  simp only [ControlFile.findMapped, agree.head, blockCount, agree.tail]
  split
  · exact .ok ⟨rfl, by simp⟩
  · exact walk _ _ (agree.head_mem c ‹_›)

theorem findFreeBlock (agree : Agree K D f g) {b : Nat} (inK : b ∈ K) (size : Nat) :
    Results (fun t t' => t = t' ∧ t' ∈ K) (f.findFreeBlock b size) (g.findFreeBlock b size) := by
  simp only [ControlFile.findFreeBlock, blockCount, agree.tail]
  generalize (g.controlBlockTail - 100) / 20 + 1 = n
  induction n generalizing b with
  | zero => exact .error _
  | succ n ih =>
    simp only [findFreeBlockFuel, agree.freeBlockSize inK, agree.next b inK]
    split
    · exact .ok ⟨rfl, inK⟩
    split
    · exact ih (agree.next_mem b inK)
    · exact .ok ⟨rfl, inK⟩

theorem mergeControlBlock (agree : Agree K D f g) {b : Nat} (inK : b ∈ K) :
    Results (Agree K D) (f.mergeControlBlock b) (g.mergeControlBlock b) := by
  simp only [ControlFile.mergeControlBlock, blockCount, agree.tail]
  generalize (g.controlBlockTail - 100) / 20 + 1 = n
  induction n generalizing f g with
  | zero => exact .error _
  | succ n ih =>
    simp only [mergeControlBlockFuel, agree.blockEnd b (agree.known inK)]
    split
    · exact .ok agree
    refine (agree.findMapped .free _).bind ?_
    rintro r _ ⟨rfl, found⟩
    cases r with
    | none => exact .ok agree
    | some merged =>
      have inK' : merged ∈ K := found merged rfl
      dsimp only
      rw [agree.blockEnd merged (agree.known inK')]
      refine (agree.setEnd.toUnUsed inK').bind ?_
      exact fun f' g' agree' => ih agree'

end Agree

/-- The control files agree on all that the allocator can come to. -/
def Together (f g : ControlFile) : Prop := ∃ K D, Agree K D f g

theorem Agree.cutTarget {K D : Set Nat} {f g : ControlFile} (agree : Agree K D f g) {a t : Nat}
    (inK : t ∈ K) (inD : a ∈ D) (size : Nat) :
    Results (fun x y => x.1 = y.1 ∧ Together x.2 y.2) (f.cutTarget a t size) (g.cutTarget a t size) := by
  simp only [ControlFile.cutTarget, agree.freeBlockSize inK]
  split
  · have taken := agree.take
    generalize f.takeControlBlock = u, g.takeControlBlock = u' at taken
    obtain ⟨n, f₁⟩ := u
    obtain ⟨n', g₁⟩ := u'
    obtain ⟨rfl, taken⟩ : n = n' ∧ Agree K D f₁ g₁ := taken
    dsimp only
    rw [setMapping_blockEnd, setMapping_blockEnd, taken.mapping a inD, taken.blockEnd t (taken.known inK)]
    have region := taken.setRegion n (optrAdd (g₁.mapping a) size) (g₁.blockEnd t)
    refine (region.toUnUsed inK).bind fun f₂ g₂ retired => ?_
    have last := retired.setHead .free (Set.mem_insert n D)
    exact .ok ⟨last.mapping a (Or.inr inD), _, _, last⟩
  · refine (agree.toUnUsed inK).bind fun f₂ g₂ retired => ?_
    exact .ok ⟨retired.mapping a inD, _, _, retired⟩

theorem Together.allocate {f g : ControlFile} (together : Together f g) (size : Nat) :
    Results (fun x y => x.1 = y.1 ∧ Together x.2 y.2) (f.allocate size) (g.allocate size) := by
  obtain ⟨K, D, agree⟩ := together
  rw [allocate_eq f, allocate_eq g, agree.head]
  split
  · exact .error _
  refine (agree.findFreeBlock (agree.head_mem .free ‹_›) size).bind ?_
  rintro t _ ⟨rfl, inK⟩
  have taken := agree.take
  generalize f.takeControlBlock = u, g.takeControlBlock = u' at taken
  obtain ⟨n, f₁⟩ := u
  obtain ⟨n', g₁⟩ := u'
  obtain ⟨rfl, taken⟩ : n = n' ∧ Agree K D f₁ g₁ := taken
  dsimp only
  rw [taken.mapping t (taken.known inK), setMapping_mapping, setMapping_mapping, if_pos rfl, if_pos rfl]
  have region := taken.setRegion n (g₁.mapping t) (optrAdd (g₁.mapping t) size)
  exact (region.setHead .allocated (Set.mem_insert n D)).cutTarget (Or.inr inK) (Set.mem_insert n D) size

theorem Together.deallocate {f g : ControlFile} (together : Together f g) (target : Nat) :
    Results Together (f.deallocate target) (g.deallocate target) := by
  obtain ⟨K, D, agree⟩ := together
  refine (agree.findMapped .allocated target).bind ?_
  rintro r _ ⟨rfl, found⟩
  cases r with
  | none => exact .error _
  | some allocated =>
    have inK : allocated ∈ K := found allocated rfl
    have taken := agree.take
    dsimp only
    generalize f.takeControlBlock = u, g.takeControlBlock = u' at taken
    obtain ⟨n, f₁⟩ := u
    obtain ⟨n', g₁⟩ := u'
    obtain ⟨rfl, taken⟩ : n = n' ∧ Agree K D f₁ g₁ := taken
    dsimp only
    rw [setMapping_blockEnd, setMapping_blockEnd, taken.blockEnd allocated (taken.known inK)]
    have region := taken.setRegion n target (g₁.blockEnd allocated)
    have linked := region.setHead .free (Set.mem_insert n D)
    refine (linked.toUnUsed (Or.inr inK)).bind fun f₂ g₂ retired => ?_
    exact (retired.mergeControlBlock (Set.mem_insert n K)).mono fun f₃ g₃ merged => ⟨_, _, merged⟩

/-- A call, with the address that `allocate` returns. -/
def answer (f : ControlFile) : AllocOp → Except AllocError (Option Nat × ControlFile)
  | .allocate size => do
    let (p, f) ← f.allocate size
    return (some p, f)
  | .deallocate p => do
    let f ← f.deallocate p
    return (none, f)

/-- The answers of an allocator to a list of calls. `deallocate` throws before it writes anything; a null
block or a walk without end is the end of the run. -/
def replies : ControlFile → List AllocOp → List (Except AllocError (Option Nat)) :=
  Lockstep.answers answer fun e => decide (e = .unallocated)

theorem Together.answer {f g : ControlFile} (together : Together f g) (op : AllocOp) :
    Results (fun x y => x.1 = y.1 ∧ Together x.2 y.2) (f.answer op) (g.answer op) := by
  cases op with
  | allocate size =>
    refine (together.allocate size).bind ?_
    rintro ⟨p, f'⟩ ⟨q, g'⟩ ⟨same, together'⟩
    exact .ok ⟨congrArg some same, together'⟩
  | deallocate p => exact (together.deallocate p).bind fun f' g' together' => .ok ⟨rfl, together'⟩

/-- Control files that agree reply alike, however long they are used. -/
theorem Together.replies {f g : ControlFile} (together : Together f g) (ops : List AllocOp) :
    f.replies ops = g.replies ops :=
  answers_eq (fun _ _ op together => together.answer op) together ops

/-- The block is on the chain. -/
def OnChain (f : ControlFile) (c : Chain) (b : Nat) : Prop := f.head c ≠ 0 ∧ ∃ n, f.next^[n] (f.head c) = b

theorem Agree.onChain {K D : Set Nat} {f g : ControlFile} (agree : Agree K D f g) (c : Chain) (b : Nat) :
    f.OnChain c b ↔ g.OnChain c b := by
  have walk : ∀ n, ∀ x ∈ K, f.next^[n] x = g.next^[n] x := by
    intro n
    induction n with
    | zero => exact fun x _ => rfl
    | succ n ih =>
      intro x inK
      rw [Function.iterate_succ_apply, Function.iterate_succ_apply, agree.next x inK]
      exact ih _ (agree.next_mem x inK)
  rw [OnChain, OnChain, agree.head]
  exact and_congr_right fun nonzero => exists_congr fun n => by rw [walk n _ (agree.head_mem c nonzero)]

/-- The blocks on the chains are those of a new control file, and every later call is answered as there. -/
structure LikeFormatted (f : ControlFile) : Prop where
  chains : ∀ c b, f.OnChain c b ↔ formatted.OnChain c b
  replies : ∀ ops, f.replies ops = formatted.replies ops

/-- No block is allocated, and the free chain is empty or has block 100 as its head or at its end. -/
def NothingKept (f : ControlFile) : Prop :=
  f.head .allocated = 0 ∧ (f.head .free = 0 ∨ f.head .free = 100 ∨ f.prev (f.head .free) = 100)

instance (f : ControlFile) : Decidable f.NothingKept := inferInstanceAs (Decidable (_ ∧ _))

section Clear
variable (f : ControlFile)

theorem clear_head (c : Chain) : f.clear.head c = match c with
    | .free => 100
    | .allocated => f.head .allocated
    | .unUsed => 0 := by
  cases c <;> simp [clear, init, freeBlockHead, unUsedControlBlockHead, setHead] <;> split <;> rfl

/-- Block 100 is linked to itself and then put before the free head that is there. -/
theorem clear_next : f.clear.next 100 =
    if f.head .free = 0 ∨ f.head .free = 100 ∨ f.prev (f.head .free) = 100 then 100 else f.head .free := by
  change (setHead .free (((f.setPrev 100 100).setNext 100 100).setMapping 100 0 |>.setEnd 100 0)
    (some 100)).next 100 = _
  rw [setHead_next]
  simp only [setEnd_head, setMapping_head, setNext_head, setPrev_head, setEnd_prev, setMapping_prev,
    setNext_prev, setPrev_prev, if_true]
  grind

theorem clear_prev : f.clear.prev 100 =
    if f.head .free = 0 ∨ f.head .free = 100 then 100 else f.prev (f.head .free) := by
  change (setHead .free (((f.setPrev 100 100).setNext 100 100).setMapping 100 0 |>.setEnd 100 0)
    (some 100)).prev 100 = _
  rw [setHead_prev]
  simp only [setEnd_head, setMapping_head, setNext_head, setPrev_head, setEnd_prev, setMapping_prev,
    setNext_prev, setPrev_prev, if_true]
  grind

theorem clear_region : f.clear.mapping 100 = 0 ∧ f.clear.blockEnd 100 = 0 := by
  have data := setHead_sameData .free (((f.setPrev 100 100).setNext 100 100).setMapping 100 0 |>.setEnd 100 0) (some 100)
  exact ⟨(data.1 100).trans (by simp), (data.2.1 100).trans (by simp)⟩

variable {f} {g : ControlFile}

theorem NothingKept.clear_links (kept : f.NothingKept) : f.clear.next 100 = 100 ∧ f.clear.prev 100 = 100 := by
  obtain ⟨-, empty | first | last⟩ := kept
  · simp [clear_next, clear_prev, empty]
  · simp [clear_next, clear_prev, first]
  · simp [clear_next, clear_prev, last]

/-- When nothing is kept, block 100 is all that clearing leaves to come to. -/
theorem NothingKept.agree (kept : f.NothingKept) (kept' : g.NothingKept) :
    Agree {100} {100} f.clear g.clear := by
  have links := kept.clear_links
  have links' := kept'.clear_links
  have region := f.clear_region
  have region' := g.clear_region
  refine ⟨fun c => ?_, rfl, ?_, ?_, ?_, ?_, subset_rfl, fun c nonzero => ?_, ?_, ?_⟩
  · cases c <;> simp [clear_head, kept.1, kept'.1]
  · rintro _ rfl
    rw [links.1, links'.1]
  · rintro _ rfl
    rw [links.2, links'.2]
  · rintro _ rfl
    rw [region.1, region'.1]
  · rintro _ rfl
    rw [region.2, region'.2]
  · cases c <;> simp_all [clear_head, kept'.1]
  · rintro _ rfl
    exact links'.1
  · rintro _ rfl
    exact links'.2

theorem nothingKept_empty : NothingKept {} := by decide

theorem formatted_onChain {c : Chain} {b : Nat} (on : formatted.OnChain c b) : c = .free ∧ b = 100 := by
  obtain ⟨nonzero, n, walk⟩ := on
  cases c with
  | free =>
    have fixed : formatted.next 100 = 100 := nothingKept_empty.clear_links.1
    rw [show formatted.head .free = 100 from rfl, Function.iterate_fixed fixed] at walk
    exact ⟨rfl, walk.symm⟩
  | allocated => exact absurd rfl nonzero
  | unUsed => exact absurd rfl nonzero

/-- The setter of the free head links block 100 in before the old head, and nothing clears the allocated
head. -/
theorem clear_likeFormatted_iff (f : ControlFile) : f.clear.LikeFormatted ↔ f.NothingKept := by
  constructor
  · intro like
    constructor
    · by_contra used
      have on : f.clear.OnChain .allocated (f.head .allocated) :=
        ⟨by rwa [clear_head], 0, clear_head f .allocated⟩
      cases (formatted_onChain ((like.chains _ _).mp on)).1
    · by_contra left
      have second : f.clear.OnChain .free (f.clear.next 100) :=
        ⟨by simp [clear_head], 1, by rw [clear_head]; rfl⟩
      have alone := (formatted_onChain ((like.chains _ _).mp second)).2
      rw [clear_next, if_neg left] at alone
      exact left (Or.inr (Or.inl alone))
  · intro kept
    have agree : Agree {100} {100} f.clear formatted := kept.agree nothingKept_empty
    exact ⟨agree.onChain, Together.replies ⟨_, _, agree⟩⟩

end Clear

end ControlFile

namespace AllocState

/-- A region in use is still in use after `clear`: giving it back does not throw. -/
theorem clear_likeFormatted_fails :
    ¬∀ ops st, start.run ops = .ok st → ∀ calls,
      st.file.clear.replies calls = ControlFile.formatted.replies calls := by
  intro alike
  have reached : ∃ st ∈ (start.run [.allocate 10]).toOption,
      st.file.clear.replies [.deallocate 0] = [.ok none] ∧
        ControlFile.formatted.replies [.deallocate 0] = [.error .unallocated] := by decide +kernel
  obtain ⟨st, ran, cleared, fresh⟩ := reached
  have same := alike _ _ (run_eq_ok ran) [.deallocate 0]
  rw [cleared, fresh] at same
  cases same

end AllocState

end MiyaCore
