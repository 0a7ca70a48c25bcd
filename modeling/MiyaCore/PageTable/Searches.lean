import MiyaCore.PageTable.AllocatorRuns

/-!
# The walks of the allocator

No walk over a chain counts its steps. The search for room goes on until a block is large enough, the
searches by address until the head is met again, and the merging until no free block starts at the end of
the target.
-/

namespace MiyaCore

namespace ControlFile

/-- The search for room does not end among blocks that are too small and lead to each other only. -/
theorem findFreeBlockFuel_endless {f : ControlFile} {size : Nat} (trap : Nat → Prop)
    (small : ∀ b, trap b → f.freeBlockSize b ≠ 0 ∧ f.freeBlockSize b < size)
    (closed : ∀ b, trap b → trap (f.next b)) (n : Nat) {b : Nat} (inside : trap b) :
    findFreeBlockFuel f size n b = .error .endless := by
  induction n generalizing b with
  | zero => rfl
  | succ n ih =>
    obtain ⟨bounded, less⟩ := small b inside
    rw [findFreeBlockFuel, if_neg bounded, if_pos less]
    exact ih (closed b inside)

/-- Merging at the free head ends: each round takes a block off the free chain. -/
theorem Sound.merge_ok {f : ControlFile} {R : Chain → List Nat} {live : List (Nat × Nat)}
    (sound : Sound f R live) : ∃ g, f.mergeControlBlock (f.head .free) = .ok g := by
  have bound := sound.linked.length_le sound.accounted .free
  have headIs := sound.linked.head .free
  cases atFree : R .free with
  | nil =>
    obtain ⟨b, member, -⟩ := sound.placed.endless
    rw [atFree] at member
    contradiction
  | cons h t =>
    rw [atFree] at bound headIs
    obtain ⟨g, -, merged, -, -⟩ := sound.mergeFuel atFree (n := f.blockCount) bound
    refine ⟨g, ?_⟩
    rw [mergeControlBlock, headIs]
    exact merged

end ControlFile

namespace AllocState

/-- Every search of the allocator comes to an end: the one for room at a free block that has it, the two by
address, and the merging, which `deallocate` ends with and which starts at the free head. -/
structure SearchesEnd (st : AllocState) : Prop where
  room : ∀ size : UInt32, ∃ b ∈ st.file.chain .free,
    st.file.findFreeBlock (st.file.head .free) size.toNat = .ok b ∧
      (st.file.blockEnd b = 0 ∨ st.file.mapping b + size.toNat ≤ st.file.blockEnd b)
  free : ∀ targetOptr, ∃ found, st.file.findFreeBlockAt targetOptr = .ok found
  allocated : ∀ targetOptr, ∃ found, st.file.findAllocatedBlock targetOptr = .ok found
  merge : ∃ g, st.file.mergeControlBlock (st.file.head .free) = .ok g
  release : ∀ p, st.Legal (.deallocate p) → st.HeadsStay (.deallocate p) → ∃ g, st.file.deallocate p = .ok g

theorem searchesEnd_of_sound {st : AllocState} {R : Chain → List Nat}
    (sound : ControlFile.Sound st.file R st.live) : st.SearchesEnd := by
  have chain : st.file.chain .free = R .free :=
    sound.linked.chain_eq (sound.linked.length_le sound.accounted .free)
  have search := fun c targetOptr => sound.linked.findMapped_eq sound.accounted c targetOptr
  refine ⟨fun size => ?_, fun p => ⟨_, search .free p⟩, fun p => ⟨_, search .allocated p⟩, sound.merge_ok,
    fun p legal stay => ?_⟩
  · obtain ⟨b, member, found, fits⟩ :=
      sound.linked.findFreeBlock_ok sound.accounted sound.placed size.toNat
    rw [Nat.mod_eq_of_lt size.toNat_lt] at fits
    exact ⟨b, chain ▸ member, found, fits⟩
  · obtain ⟨st', S, -, -, run, -⟩ := step_sound sound legal stay
    exact ⟨st'.file, run⟩

/-- In a run of legal calls in which no chain of three or more blocks loses its head, every search ends in
every state reached. -/
theorem searchesEnd_of_headsStay (ops : List AllocOp)
    (along : Along (fun st op => st.Legal op ∧ st.HeadsStay op) start ops) :
    ∃ st, start.run ops = .ok st ∧ st.SearchesEnd := by
  obtain ⟨st, R, ran, sound⟩ := run_sound sound_formatted along
  exact ⟨st, ran, searchesEnd_of_sound sound⟩

theorem searchesEnd_of_headsStay_run :
    ∃ st, start.run [.allocate 10, .allocate 20, .deallocate 10, .allocate 5] = .ok st ∧ st.SearchesEnd :=
  searchesEnd_of_headsStay _ (by decide +kernel)

/-- With the free block without end off its chain, one block of ten bytes is left in it, and the search for
eleven goes round it however long it is let. -/
theorem searchesEnd_fails :
    Along Legal start [.allocate 10, .allocate 10, .allocate 10, .deallocate 0, .deallocate 10, .allocate 10] ∧
    ∃ st, start.run [.allocate 10, .allocate 10, .allocate 10, .deallocate 0, .deallocate 10,
      .allocate 10] = .ok st ∧ ¬st.SearchesEnd ∧
      ∀ n, st.file.findFreeBlockFuel 11 n (st.file.head .free) = .error .endless := by
  refine ⟨by decide +kernel, _, rfl, (and_iff_right_of_imp fun endless ends => ?_).mpr fun n => ?_⟩
  · obtain ⟨b, -, found, -⟩ := ends.room 11
    exact absurd ((endless _).symm.trans found) nofun
  · refine ControlFile.findFreeBlockFuel_endless (· = 160) ?_ ?_ n ?_
    · rintro b rfl
      decide +kernel
    · rintro b rfl
      decide +kernel
    · decide +kernel

end AllocState

end MiyaCore
