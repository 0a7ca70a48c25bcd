import MiyaCore.PageTable.AllocatorRuns
import Mathlib.Data.List.Pairwise

namespace MiyaCore

namespace ControlFile

/-- `deallocate` with the control file it leaves, also when it throws: the exception comes before
anything is written. A null block or a walk without end leaves nothing to look at. -/
def deallocateLeaving (f : ControlFile) (target : Nat) : Except AllocError Unit × ControlFile :=
  match f.findAllocatedBlock target with
  | .error e => (.error e, f)
  | .ok none => (.error .unallocated, f)
  | .ok (some allocated) =>
    let (newFree, f) := f.takeControlBlock
    let f := f.setMapping newFree target
    let f := f.setEnd newFree (f.blockEnd allocated)
    let f := f.freeBlockHead (some newFree)
    match f.toUnUsedControlBlock allocated with
    | .error e => (.error e, f)
    | .ok f =>
      match f.mergeControlBlock newFree with
      | .error e => (.error e, f)
      | .ok f => (.ok (), f)

theorem deallocate_eq (f : ControlFile) (target : Nat) :
    f.deallocate target = (f.deallocateLeaving target).1.map fun _ => (f.deallocateLeaving target).2 := by
  rw [deallocate, deallocateLeaving]
  cases f.findAllocatedBlock target with
  | error e => rfl
  | ok found =>
    cases found with
    | none => rfl
    | some allocated =>
      simp only [bind, Except.bind]
      cases retired : toUnUsedControlBlock _ allocated with
      | error e => rfl
      | ok g =>
        dsimp only
        cases merged : g.mergeControlBlock f.takeControlBlock.1 <;> simp [Except.map]

/-- Byte `x` is free. -/
def IsFree (f : ControlFile) (x : Nat) : Prop := ∃ b ∈ f.chain .free, f.Holds b x

end ControlFile

namespace AllocState

/-- Giving back region `r` throws nothing, makes its bytes free and no others, and the blocks still on
the allocated chain are those of the other live regions. -/
def Releases (st : AllocState) (r : Nat × Nat) : Prop :=
  ∃ g, st.file.deallocateLeaving r.1 = (.ok (), g) ∧ (∀ x, g.IsFree x ↔ st.file.IsFree x ∨ InRegion r x) ∧
    ∀ s, (∃ b ∈ g.chain .allocated, g.region b = s) ↔ s ∈ st.live ∧ s.1 ≠ r.1

/-- Giving back `p` throws and leaves the control file as it is. -/
def TurnsDown (st : AllocState) (p : Nat) : Prop :=
  st.file.deallocateLeaving p = (.error .unallocated, st.file)

theorem RegionSafe.isFree_iff {st : AllocState} (safe : st.RegionSafe) (x : Nat) :
    st.file.IsFree x ↔ ∀ r ∈ st.live, ¬InRegion r x := by
  constructor
  · rintro ⟨b, member, holds⟩ r isLive inside
    exact safe.free r isLive b member x ⟨inside, holds⟩
  · intro outside
    exact (safe.cover x).resolve_left fun ⟨r, isLive, inside⟩ => outside r isLive inside

/-- The live regions are the one that starts at `r.1` and what is left when it is forgotten. -/
theorem live_perm_cons {live : List (Nat × Nat)} (starts : live.Pairwise (fun r s => r.1 ≠ s.1)) {r : Nat × Nat}
    (isLive : r ∈ live) : live.Perm (r :: live.eraseP (fun s => decide (s.1 = r.1))) := by
  obtain ⟨s, before, after, _, atStart, split, erased⟩ :=
    List.exists_of_eraseP (p := fun s : Nat × Nat => decide (s.1 = r.1)) isLive (by simp)
  have same : s = r := by
    by_contra different
    have sLive : s ∈ live := by simp [split]
    have : Std.Symm (fun r s : Nat × Nat => r.1 ≠ s.1) := ⟨fun _ _ => Ne.symm⟩
    exact starts.forall sLive isLive different (by simpa using atStart)
  rw [erased, split, same]
  exact List.perm_middle

/-- A call that meets the condition gives back exactly the region it is about. -/
theorem releases_of_sound {st : AllocState} {R : Chain → List Nat} (sound : ControlFile.Sound st.file R st.live)
    {r : Nat × Nat} (isLive : r ∈ st.live) (legal : st.Legal (.deallocate r.1))
    (stay : st.HeadsStay (.deallocate r.1)) :
    st.Releases r := by
  obtain ⟨st', S, stepped, sound', freed, -⟩ := step_sound sound legal stay
  obtain ⟨g, live⟩ := st'
  obtain rfl : st.live.eraseP (fun s => decide (s.1 = r.1)) = live := by
    simpa [step, freed, bind, Except.bind, pure, Except.pure] using stepped
  have leaves : st.file.deallocateLeaving r.1 = (.ok (), g) := by
    rw [ControlFile.deallocate_eq] at freed
    cases ended : st.file.deallocateLeaving r.1 with
    | mk result left =>
      rw [ended] at freed
      cases result with
      | error e => simp [Except.map] at freed
      | ok u => simpa [Except.map] using freed
  have split := live_perm_cons sound.starts isLive
  have apart : ∀ s ∈ st.live.eraseP (fun s => decide (s.1 = r.1)), r.1 ≠ s.1 :=
    (List.pairwise_cons.mp (split.pairwise sound.starts fun ne => Ne.symm ne)).1
  have disjoint := (List.pairwise_cons.mp
    (split.pairwise (regionSafe_of_sound sound).apart fun ne x both => ne x both.symm)).1
  refine ⟨g, leaves, fun x => ?_, fun s => ?_⟩
  · rw [(regionSafe_of_sound sound').isFree_iff x, (regionSafe_of_sound sound).isFree_iff x]
    constructor
    · intro outside
      by_cases inside : InRegion r x
      · exact Or.inr inside
      · refine Or.inl fun s member => ?_
        rcases List.mem_cons.mp (split.mem_iff.mp member) with rfl | left
        · exact inside
        · exact outside s left
    · rintro (outside | inside) s member
      · exact outside s (List.mem_of_mem_eraseP member)
      · exact fun inS => disjoint s member x ⟨inside, inS⟩
  · rw [sound'.linked.chain_eq (sound'.linked.length_le sound'.accounted .allocated), ← mem_live_iff sound',
      split.mem_iff, List.mem_cons]
    constructor
    · exact fun left => ⟨Or.inr left, (apart s left).symm⟩
    · rintro ⟨rfl | left, different⟩
      · exact absurd rfl different
      · exact left

theorem turnsDown_of_sound {st : AllocState} {R : Chain → List Nat}
    (sound : ControlFile.Sound st.file R st.live) {p : Nat} (unknown : ∀ r ∈ st.live, r.1 ≠ p) :
    st.TurnsDown p := by
  have missing : (R .allocated).find? (fun b => decide (st.file.mapping b = p)) = none := by
    refine List.find?_eq_none.mpr fun b member => ?_
    simpa [ControlFile.region] using unknown _ ((mem_live_iff sound _).mpr ⟨b, member, rfl⟩)
  rw [TurnsDown, ControlFile.deallocateLeaving, ControlFile.findAllocatedBlock,
    sound.linked.findMapped_eq sound.accounted .allocated p, missing]

/-- In a run of legal calls in which no chain of three or more blocks loses its head, `deallocate` is
exact in the state reached: for a live pointer when its own call is such a one, and for any other. -/
theorem deallocate_exact_of_headsStay (ops : List AllocOp)
    (along : Along (fun st op => st.Legal op ∧ st.HeadsStay op) start ops) :
    ∃ st, start.run ops = .ok st ∧
      (∀ r ∈ st.live, st.Legal (.deallocate r.1) → st.HeadsStay (.deallocate r.1) → st.Releases r) ∧
      ∀ p, (∀ r ∈ st.live, r.1 ≠ p) → st.TurnsDown p := by
  obtain ⟨st, R, ran, sound⟩ := run_sound sound_formatted along
  exact ⟨st, ran, fun r isLive legal stay => releases_of_sound sound isLive legal stay,
    fun p unknown => turnsDown_of_sound sound unknown⟩

theorem deallocate_exact_of_headsStay_run :
    ∃ st, start.run [.allocate 10, .allocate 20, .deallocate 10, .allocate 5] = .ok st ∧
      (∀ r ∈ st.live, st.Legal (.deallocate r.1) → st.HeadsStay (.deallocate r.1) → st.Releases r) ∧
      ∀ p, (∀ r ∈ st.live, r.1 ≠ p) → st.TurnsDown p :=
  deallocate_exact_of_headsStay _ (by decide +kernel)

/-- Giving back the newest of three blocks drops the oldest one from the allocated chain. Its region is
still live, and giving it back throws. -/
theorem deallocate_exact_fails :
    Along Legal start [.allocate 10, .allocate 10, .allocate 10, .deallocate 20] ∧
    ∃ st, start.run [.allocate 10, .allocate 10, .allocate 10, .deallocate 20] = .ok st ∧
      (0, 10) ∈ st.live ∧ st.Legal (.deallocate 0) ∧ ¬st.Releases (0, 10) := by
  have reached : ∃ st ∈ (start.run [.allocate 10, .allocate 10, .allocate 10, .deallocate 20]).toOption,
      (0, 10) ∈ st.live ∧ st.Legal (.deallocate 0) ∧ (st.file.deallocateLeaving 0).1.isOk = false := by
    decide +kernel
  obtain ⟨st, ran, isLive, legal, throws⟩ := reached
  refine ⟨by decide +kernel, st, run_eq_ok ran, isLive, legal, fun ⟨g, freed, _⟩ => ?_⟩
  simp [freed, Except.isOk, Except.toBool] at throws

end AllocState

end MiyaCore
