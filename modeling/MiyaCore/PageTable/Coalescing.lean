import MiyaCore.PageTable.AllocatorRuns

/-!
# Coalescing of free blocks

`mergeControlBlock` joins the block that is given back with the free blocks behind it. Nothing looks
for a free block in front of it.
-/

namespace MiyaCore

namespace ControlFile

/-- No free block starts where another one ends. -/
def Separate (f : ControlFile) (l : List Nat) : Prop :=
  ∀ b ∈ l, ∀ c ∈ l, f.blockEnd b ≠ 0 → f.blockEnd b ≠ f.mapping c

instance (f : ControlFile) (l : List Nat) : Decidable (f.Separate l) :=
  inferInstanceAs (Decidable (∀ b ∈ l, ∀ c ∈ l, f.blockEnd b ≠ 0 → f.blockEnd b ≠ f.mapping c))

section Placement
variable {f g : ControlFile} {R S : Chain → List Nat}

/-- Free blocks that stand for the same byte are the same. -/
theorem Placed.free_eq (placed : Placed f R) {b c x : Nat} (inB : b ∈ R .free) (inC : c ∈ R .free)
    (holdsB : f.Holds b x) (holdsC : f.Holds c x) : b = c := by
  by_contra different
  have once := placed.once x
  have left : c ∈ (R .free).erase b := (List.mem_erase_of_ne (Ne.symm different)).mpr inC
  have counted := owners_pos.mpr ⟨c, left, holdsC⟩
  rw [f.owners_erase inB x, if_pos holdsB] at once
  omega

/-- The rest of a block that is cut touches no other free block. -/
theorem Cut.separate {t size : Nat} (cut : Cut f g R S t size) (placed : Placed f R) (placed' : Placed g S)
    (separate : f.Separate (R .free)) (member : t ∈ R .free) (positive : 0 < size)
    (fits : f.blockEnd t = 0 ∨ f.mapping t + size ≤ f.blockEnd t) (distinct : (R .free).Nodup) :
    g.Separate (S .free) := by
  have onRest : g.Separate ((R .free).erase t) := by
    intro b inB c inC
    rw [(cut.same b inB).2, (cut.same c inC).1]
    exact separate b (List.mem_of_mem_erase inB) c (List.mem_of_mem_erase inC)
  rcases cut.free with rest | ⟨n, free, start, ends⟩
  · rw [rest]
    exact onRest
  · rw [free]
    intro b inB c inC bounded
    rcases List.mem_cons.mp inB with rfl | inRestB <;> rcases List.mem_cons.mp inC with rfl | inRestC
    · have shape := (placed'.free c (by simp [free])).2.2
      omega
    · rw [ends] at bounded ⊢
      rw [(cut.same c inRestC).1]
      exact separate t member c (List.mem_of_mem_erase inRestC) bounded
    · -- a block that ends where the cut is made would share the last byte before it with the block cut
      rw [(cut.same b inRestB).2] at bounded ⊢
      rw [start]
      intro touching
      have shape := placed.free b (List.mem_of_mem_erase inRestB)
      have same := placed.free_eq (x := f.mapping t + size - 1) (List.mem_of_mem_erase inRestB) member
        ⟨by omega, Or.inr (by omega)⟩ ⟨by omega, by omega⟩
      rw [same] at inRestB
      exact (List.Nodup.not_mem_erase distinct) inRestB
    · exact onRest b inRestB c inRestC bounded

/-- A block that is given back touches no free block, when none ends where it starts. -/
theorem Released.separate {p : Nat} (released : Released f g R S p) (separate : f.Separate (R .free))
    (alone : ∀ b ∈ R .free, f.blockEnd b ≠ 0 → f.blockEnd b ≠ p) : g.Separate (S .free) := by
  obtain ⟨n, rest, free, start, done, same⟩ := released
  intro b inB c inC bounded
  rw [free] at inB
  rcases List.mem_cons.mp inB with rfl | inRestB
  · exact (done.resolve_left bounded c inC).symm
  · obtain ⟨oldB, -, endB⟩ := same b inRestB
    rw [endB] at bounded ⊢
    rw [free] at inC
    rcases List.mem_cons.mp inC with rfl | inRestC
    · rw [start]
      exact alone b oldB bounded
    · obtain ⟨oldC, startC, -⟩ := same c inRestC
      rw [startC]
      exact separate b oldB c oldC bounded

/-- With nothing allocated, separate free blocks are one block from 0 on. -/
theorem Placed.eq_singleton (placed : Placed f R) (separate : f.Separate (R .free)) (distinct : (R .free).Nodup)
    (none : R .allocated = []) : ∃ b, R .free = [b] ∧ f.mapping b = 0 ∧ f.blockEnd b = 0 := by
  have owned : ∀ x, ∃ b ∈ R .free, f.Holds b x := by
    intro x
    have once := placed.once x
    rw [none, owners, owners, List.countP_nil] at once
    exact owners_pos.mp (by rw [owners]; omega)
  obtain ⟨b, inB, holdsB⟩ := owned 0
  have start : f.mapping b = 0 := Nat.le_zero.mp holdsB.1
  have ends : f.blockEnd b = 0 := by
    by_contra bounded
    obtain ⟨c, inC, holdsC⟩ := owned (f.blockEnd b)
    have apart := separate b inB c inC bounded
    have before := holdsC.1
    have same := placed.free_eq (x := f.blockEnd b - 1) inB inC ⟨by omega, Or.inr (by omega)⟩
      ⟨by omega, holdsC.2.imp_right fun inside => by omega⟩
    rw [← same] at holdsC
    have inside := holdsC.2.resolve_left bounded
    omega
  have only : ∀ c ∈ R .free, c = b := fun c inC =>
    placed.free_eq (x := f.mapping c) inC inB ⟨le_rfl, (placed.free c inC).2.2⟩ ⟨by omega, Or.inl ends⟩
  obtain ⟨rest, perm⟩ : ∃ rest, (R .free).Perm (b :: rest) := ⟨_, List.perm_cons_erase inB⟩
  have noMore : rest = [] := by
    refine List.eq_nil_iff_forall_not_mem.mpr fun c inRest => ?_
    have isB := only c (perm.mem_iff.mpr (List.mem_cons_of_mem b inRest))
    exact (List.nodup_cons.mp (perm.nodup_iff.mp distinct)).1 (isB ▸ inRest)
  rw [noMore] at perm
  exact ⟨b, List.perm_singleton.mp perm, start, ends⟩

end Placement

end ControlFile

namespace AllocState

/-- The region given back does not start where a free block ends. -/
def NoFreeBefore (st : AllocState) : AllocOp → Prop
  | .allocate _ => True
  | .deallocate p => ∀ b ∈ st.file.chain .free, st.file.blockEnd b ≠ 0 → st.file.blockEnd b ≠ p

instance (st : AllocState) (op : AllocOp) : Decidable (st.NoFreeBefore op) :=
  match op with
  | .allocate _ => inferInstanceAs (Decidable True)
  | .deallocate p => inferInstanceAs (Decidable (∀ b ∈ st.file.chain .free, st.file.blockEnd b ≠ 0 →
  st.file.blockEnd b ≠ p))

/-- Free blocks do not touch; when nothing is live there is one of them for the whole address space, and the
next call of `allocate` hands out the address 0. -/
structure Coalesced (st : AllocState) : Prop where
  separate : st.file.Separate (st.file.chain .free)
  whole : st.live = [] → ∃ b, st.file.chain .free = [b] ∧ st.file.mapping b = 0 ∧ st.file.blockEnd b = 0
  next : st.live = [] → ∀ size, st.Legal (.allocate size) → st.HeadsStay (.allocate size) →
    ∃ g, st.file.allocate size = .ok (0, g)

theorem coalesced_of_sound {st : AllocState} {R : Chain → List Nat}
    (sound : ControlFile.Sound st.file R st.live) (separate : st.file.Separate (R .free)) : st.Coalesced := by
  have chain : st.file.chain .free = R .free :=
    sound.linked.chain_eq (sound.linked.length_le sound.accounted .free)
  have single : st.live = [] → ∃ b, R .free = [b] ∧ st.file.mapping b = 0 ∧ st.file.blockEnd b = 0 := by
    intro noneLive
    have perm := sound.live
    rw [noneLive] at perm
    exact sound.placed.eq_singleton separate (sound.linked.ring .free).nodup
      (List.map_eq_nil_iff.mp perm.nil_eq.symm)
  refine ⟨chain ▸ separate, chain ▸ single, fun noneLive size legal stay => ?_⟩
  obtain ⟨b, only, start, -⟩ := single noneLive
  obtain ⟨st', S, -, -, t, member, -, run, -⟩ := step_sound sound legal stay
  rw [only] at member
  rw [List.mem_singleton.mp member, start] at run
  exact ⟨_, run⟩

/-- In a run of legal calls in which no chain of three or more blocks loses its head and no region is given
back that starts where a free block ends, the free blocks are coalesced in the state reached. -/
theorem coalesced_of_noFreeBefore (ops : List AllocOp)
    (along : Along (fun st op => st.Legal op ∧ st.HeadsStay op ∧ st.NoFreeBefore op) start ops) :
    ∃ st, start.run ops = .ok st ∧ st.Coalesced := by
  obtain ⟨st, R, ran, sound, separate⟩ := run_keeps (P := fun f R => f.Separate (R .free)) (Q := NoFreeBefore)
    (fun {st g R S live op} sound separate legal alone effect sound' => by
      cases op with
      | allocate size =>
        obtain ⟨t, member, fits, -, cut⟩ := effect
        exact cut.separate sound.placed sound'.placed separate member legal.1 fits
          (sound.linked.ring .free).nodup
      | deallocate p =>
        have chain : st.file.chain .free = R .free :=
          sound.linked.chain_eq (sound.linked.length_le sound.accounted .free)
        exact effect.2.separate separate (chain ▸ alone))
    sound_formatted (by decide) along
  exact ⟨st, ran, coalesced_of_sound sound separate⟩

theorem coalesced_of_noFreeBefore_run : ∃ st,
    start.run [.allocate 10, .allocate 20, .deallocate 10, .deallocate 0] = .ok st ∧ st.Coalesced :=
  coalesced_of_noFreeBefore _ (by decide +kernel)

/-- Two regions given back from the first to the last stay two free blocks, and the next call of `allocate`
hands out the address 10. -/
theorem coalesced_fails :
    Along (fun st op => st.Legal op ∧ st.HeadsStay op) start
      [.allocate 10, .allocate 10, .deallocate 0, .deallocate 10] ∧
    ∃ st, start.run [.allocate 10, .allocate 10, .deallocate 0, .deallocate 10] = .ok st ∧ st.live = [] ∧
      ((st.file.allocate 5).map Prod.fst).toOption = some 10 ∧ ¬st.Coalesced := by
  have reached : ∃ st ∈ (start.run [.allocate 10, .allocate 10, .deallocate 0, .deallocate 10]).toOption,
      st.live = [] ∧ ((st.file.allocate 5).map Prod.fst).toOption = some 10 ∧
      ¬st.file.Separate (st.file.chain .free) := by
    decide +kernel
  obtain ⟨st, ran, noneLive, next, touching⟩ := reached
  exact ⟨by decide +kernel, st, run_eq_ok ran, noneLive, next, fun coalesced => touching coalesced.separate⟩

end AllocState

end MiyaCore
