import MiyaCore.PageTable.AllocatorSteps

/-!
# Runs of the overlay memory allocator

The head setters of the meta block are used both to put a new block on a chain
and to move a head to a block that is on it already. The second use is right
for chains of one or two blocks only. The runs in which no longer chain loses
its head keep the regions and the chains in order.
-/

namespace MiyaCore
open LinkRing

inductive AllocOp
  | allocate (size : Nat)
  | deallocate (target : Nat)
deriving Repr, DecidableEq

/-- The control file, and the regions handed out and not yet given back. -/
structure AllocState where
  file : ControlFile
  live : List (Nat × Nat)

namespace AllocState

def start : AllocState := ⟨ControlFile.formatted, []⟩

def step (st : AllocState) : AllocOp → Except AllocError AllocState
  | .allocate size => do
    let (p, f) ← st.file.allocate size
    return ⟨f, (p, size) :: st.live⟩
  | .deallocate p => do
    let f ← st.file.deallocate p
    return ⟨f, st.live.eraseP (fun r => decide (r.1 = p))⟩

def run (st : AllocState) : List AllocOp → Except AllocError AllocState
  | [] => .ok st
  | op :: ops => do
    let st' ← st.step op
    st'.run ops

theorem run_eq_ok {st st' : AllocState} {ops : List AllocOp} (ran : st' ∈ (st.run ops).toOption) :
    st.run ops = .ok st' := by
  cases ended : st.run ops with
  | error e => simp [ended, Except.toOption] at ran
  | ok last =>
    rw [ended] at ran
    exact congrArg Except.ok (Option.mem_some_iff.mp ran)

/-- The free block `allocate` cuts from. -/
def target (f : ControlFile) (size : Nat) : Option Nat := (f.findFreeBlock (f.head .free) size).toOption

/-- The calls in question: sizes are positive, a pointer given back is live, and
the addresses written stay below 2^24. -/
def Legal (st : AllocState) : AllocOp → Prop
  | .allocate size => 0 < size ∧ st.file.controlBlockTail + 20 * (2 - (st.file.chain .unUsed).length) < 2 ^ 24 ∧
      ∀ t ∈ target st.file size, st.file.mapping t + size < 2 ^ 24
  | .deallocate p => (∃ r ∈ st.live, r.1 = p) ∧
      st.file.controlBlockTail + 20 * (1 - (st.file.chain .unUsed).length) < 2 ^ 24

/-- No chain of three or more blocks loses its head in the call. -/
def HeadsStay (st : AllocState) : AllocOp → Prop
  | .allocate size => (st.file.chain .unUsed).length ≤ 2 ∧
      ∀ t ∈ target st.file size, st.file.head .free = t → (st.file.chain .free).length ≤ 2
  | .deallocate p => (st.file.chain .unUsed).length ≤ 2 ∧
      (st.file.mapping (st.file.head .allocated) = p → (st.file.chain .allocated).length ≤ 2)

instance (st : AllocState) (op : AllocOp) : Decidable (st.Legal op) :=
  match op with
  | .allocate _ => inferInstanceAs (Decidable (_ ∧ _ ∧ _))
  | .deallocate _ => inferInstanceAs (Decidable (_ ∧ _))

instance (st : AllocState) (op : AllocOp) : Decidable (st.HeadsStay op) :=
  match op with
  | .allocate _ => inferInstanceAs (Decidable (_ ∧ _))
  | .deallocate _ => inferInstanceAs (Decidable (_ ∧ _))

/-- `P` holds of each call of a run in the state before it. -/
def Along (P : AllocState → AllocOp → Prop) (st : AllocState) : List AllocOp → Prop
  | [] => True
  | op :: ops => P st op ∧ ∀ st' ∈ (st.step op).toOption, Along P st' ops

instance Along.decidable (P : AllocState → AllocOp → Prop) [∀ st op, Decidable (P st op)] (st : AllocState) :
    (ops : List AllocOp) → Decidable (Along P st ops)
  | [] => .isTrue trivial
  | _ :: ops =>
    have := fun st' => Along.decidable P st' ops
    inferInstanceAs (Decidable (_ ∧ _))

theorem Along.imp {P Q : AllocState → AllocOp → Prop} (weaker : ∀ st op, P st op → Q st op) {st : AllocState}
    {ops : List AllocOp} (along : Along P st ops) : Along Q st ops := by
  induction ops generalizing st with
  | nil => trivial
  | cons op ops ih => exact ⟨weaker st op along.1, fun st' reached => ih (along.2 st' reached)⟩

def InRegion (r : Nat × Nat) (x : Nat) : Prop := r.1 ≤ x ∧ x < r.1 + r.2

instance (r : Nat × Nat) (x : Nat) : Decidable (InRegion r x) := inferInstanceAs (Decidable (_ ∧ _))

/-- Live regions are apart from each other and from the free ones, and no byte is
outside both. -/
structure RegionSafe (st : AllocState) : Prop where
  apart : st.live.Pairwise (fun r s => ∀ x, ¬(InRegion r x ∧ InRegion s x))
  free : ∀ r ∈ st.live, ∀ b ∈ st.file.chain .free, ∀ x, ¬(InRegion r x ∧ st.file.Holds b x)
  cover : ∀ x, (∃ r ∈ st.live, InRegion r x) ∨ ∃ b ∈ st.file.chain .free, st.file.Holds b x

/-- Each chain is empty or a circular list; no block is on two of them, and the
blocks on them are those from the first one to the tail. The unused head, when
it is taken off a chain of at most two, is gone from it. -/
structure ChainsInOrder (f : ControlFile) : Prop where
  circular : ∀ c, f.head c = 0 ∨ (f.chain c).head? = some (f.head c) ∧ (f.chain c).Nodup ∧ ∀ b ∈ f.chain c,
    f.next b ∈ f.chain c ∧ f.prev b ∈ f.chain c ∧ f.next (f.prev b) = b ∧ f.prev (f.next b) = b
  apart : ∀ c d, c ≠ d → ∀ b ∈ f.chain c, b ∉ f.chain d
  complete : ∀ b, (∃ c, b ∈ f.chain c) ↔ b ≤ f.controlBlockTail ∧ ∃ i, b = 100 + 20 * i
  handedOut : (f.chain .unUsed).length ≤ 2 → ∀ b g, f.useUnUsedControlBlockHead = (some b, g) →
    b ∈ f.chain .unUsed ∧ g.chain .unUsed = (f.chain .unUsed).tail ∧ b ∉ g.chain .unUsed

theorem sound_formatted : ControlFile.Sound ControlFile.formatted
    (fun c => if c = .free then [100] else []) [] := by
  refine ⟨⟨fun c => ?_, fun c => ?_, fun c b member => ?_, fun c d different b member => ?_⟩,
    ⟨0, rfl, fun b => ?_⟩, by decide, ⟨fun b member => ?_, fun b member => ?_,
    ⟨100, by simp, by decide⟩, fun x => ?_⟩, by simp⟩
  · cases c with
    | free => exact isRing_singleton (by decide) (by decide)
    | allocated => trivial
    | unUsed => trivial
  · cases c <;> decide
  · cases c <;> simp at member
    omega
  · cases c <;> cases d <;> simp at member different ⊢
  · constructor
    · rintro ⟨c, member⟩
      cases c <;> simp at member
      exact ⟨0, le_rfl, member⟩
    · rintro ⟨i, bound, value⟩
      exact ⟨.free, by simp; omega⟩
  · obtain rfl : b = 100 := by simpa using member
    decide
  · simp at member
  · have holds : ControlFile.formatted.Holds 100 x := ⟨Nat.zero_le x, Or.inl (by decide)⟩
    simp [ControlFile.owners, holds]

/-- What a call does to the free chain. -/
def Effect (f g : ControlFile) (R S : Chain → List Nat) : AllocOp → Prop
  | .allocate size => ∃ t ∈ R .free, (f.blockEnd t = 0 ∨ f.mapping t + size ≤ f.blockEnd t) ∧
      f.allocate size = .ok (f.mapping t, g) ∧ ControlFile.Cut f g R S t size
  | .deallocate p => f.deallocate p = .ok g ∧ ControlFile.Released f g R S p

/-- One call keeps the file sound. -/
theorem step_sound {st : AllocState} {R : Chain → List Nat}
    (sound : ControlFile.Sound st.file R st.live) {op : AllocOp} (legal : st.Legal op)
    (stay : st.HeadsStay op) :
    ∃ st' S, st.step op = .ok st' ∧ ControlFile.Sound st'.file S st'.live ∧ Effect st.file st'.file R S op := by
  have chains : ∀ c, st.file.chain c = R c := fun c =>
    sound.linked.chain_eq (sound.linked.length_le sound.accounted c)
  cases op with
  | allocate size =>
    simp only [Legal, HeadsStay, chains] at legal stay
    obtain ⟨t, g, S, member, fits, run, sound', cut⟩ :=
      sound.allocate legal.1 stay.1 legal.2.1 fun t found => by
      have isTarget : t ∈ target st.file size := by simp [target, found, Except.toOption]
      exact ⟨legal.2.2 t isTarget, stay.2 t isTarget⟩
    exact ⟨⟨g, (st.file.mapping t, size) :: st.live⟩, S,
      by simp only [step, run]; rfl, sound', t, member, fits, run, cut⟩
  | deallocate p =>
    simp only [Legal, HeadsStay, chains] at legal stay
    obtain ⟨⟨⟨q, size⟩, isLive, rfl⟩, room⟩ := legal
    obtain ⟨g, S, run, sound', released⟩ := sound.deallocate ⟨size, isLive⟩ stay.1 room stay.2
    exact ⟨⟨g, _⟩, S, by simp only [step, run]; rfl, sound', run, released⟩

/-- What every call keeps on sound files holds at the end of a run. -/
theorem run_keeps {P : ControlFile → (Chain → List Nat) → Prop} {Q : AllocState → AllocOp → Prop}
    (keeps : ∀ {st : AllocState} {g : ControlFile} {R S : Chain → List Nat} {live : List (Nat × Nat)}
    {op : AllocOp},
      ControlFile.Sound st.file R st.live → P st.file R → st.Legal op → Q st op → Effect st.file g R S op →
        ControlFile.Sound g S live → P g S)
    {st : AllocState} {R : Chain → List Nat} (sound : ControlFile.Sound st.file R st.live) (holds : P st.file R)
    {ops : List AllocOp} (along : Along (fun st op => st.Legal op ∧ st.HeadsStay op ∧ Q st op) st ops) :
    ∃ st' S, st.run ops = .ok st' ∧ ControlFile.Sound st'.file S st'.live ∧ P st'.file S := by
  induction ops generalizing st R with
  | nil => exact ⟨st, R, rfl, sound, holds⟩
  | cons op ops ih =>
    obtain ⟨⟨legal, stay, extra⟩, rest⟩ := along
    obtain ⟨next, S, stepped, soundNext, effect⟩ := step_sound sound legal stay
    obtain ⟨last, T, runRest, result⟩ := ih soundNext (keeps sound holds legal extra effect soundNext)
      (rest next (by simp [stepped, Except.toOption]))
    exact ⟨last, T, by simp only [run, stepped]; exact runRest, result⟩

theorem run_sound {st : AllocState} {R : Chain → List Nat} (sound : ControlFile.Sound st.file R st.live)
    {ops : List AllocOp} (along : Along (fun st op => st.Legal op ∧ st.HeadsStay op) st ops) :
    ∃ st' S, st.run ops = .ok st' ∧ ControlFile.Sound st'.file S st'.live := by
  have along' : Along (fun st op => st.Legal op ∧ st.HeadsStay op ∧ True) st ops :=
    along.imp fun _ _ legal => ⟨legal.1, legal.2, trivial⟩
  obtain ⟨st', S, ran, sound', -⟩ :=
    run_keeps (P := fun _ _ => True) (Q := fun _ _ => True) (fun _ _ _ _ _ _ => trivial) sound trivial along'
  exact ⟨st', S, ran, sound'⟩

theorem inRegion_region_iff {f : ControlFile} {R : Chain → List Nat} (placed : ControlFile.Placed f R) {b : Nat}
    (member : b ∈ R .allocated) (x : Nat) : InRegion (f.region b) x ↔ f.Holds b x := by
  have shape := placed.used b member
  simp only [InRegion, ControlFile.region, ControlFile.holds_iff]
  omega

/-- Which live region a byte is in is read off the allocated blocks. -/
theorem mem_live_iff {f : ControlFile} {R : Chain → List Nat} {live : List (Nat × Nat)}
    (sound : ControlFile.Sound f R live) (r : Nat × Nat) : r ∈ live ↔ ∃ b ∈ R .allocated, f.region b = r := by
  rw [sound.live.mem_iff, List.mem_map]

theorem regionSafe_of_sound {st : AllocState} {R : Chain → List Nat}
    (sound : ControlFile.Sound st.file R st.live) : st.RegionSafe := by
  have chains : st.file.chain .free = R .free :=
    sound.linked.chain_eq (sound.linked.length_le sound.accounted .free)
  have asHolds := fun {b} member => inRegion_region_iff (b := b) sound.placed member
  refine ⟨?_, fun r inLive b inFree x both => ?_, fun x => ?_⟩
  · have onBlocks : ((R .allocated).map st.file.region).Pairwise
      (fun r s => ∀ x, ¬(InRegion r x ∧ InRegion s x)) := by
      refine List.pairwise_map.mpr (sound.placed.used_apart.imp_of_mem fun inB inC apart x both => ?_)
      exact apart x ⟨(asHolds inB x).mp both.1, (asHolds inC x).mp both.2⟩
    exact sound.live.symm.pairwise onBlocks fun apart x both => apart x both.symm
  · obtain ⟨c, inUsed, rfl⟩ := (mem_live_iff sound r).mp inLive
    have used := ControlFile.owners_pos.mpr ⟨c, inUsed, (asHolds inUsed x).mp both.1⟩
    have free := ControlFile.owners_pos.mpr ⟨b, chains ▸ inFree, both.2⟩
    have := sound.placed.once x
    omega
  · rw [chains]
    have := sound.placed.once x
    by_cases used : 0 < st.file.owners (R .allocated) x
    · obtain ⟨b, inUsed, holds⟩ := ControlFile.owners_pos.mp used
      exact Or.inl ⟨st.file.region b, (mem_live_iff sound _).mpr ⟨b, inUsed, rfl⟩, (asHolds inUsed x).mpr holds⟩
    · exact Or.inr (ControlFile.owners_pos.mp (by omega))

theorem chainsInOrder_of_sound {f : ControlFile} {R : Chain → List Nat} {live : List (Nat × Nat)}
    (sound : ControlFile.Sound f R live) : ChainsInOrder f := by
  have chains : ∀ c, f.chain c = R c := fun c => sound.linked.chain_eq
    (sound.linked.length_le sound.accounted c)
  refine ⟨fun c => ?_, fun c d different b member => ?_, fun b => ?_, fun short b g handed => ?_⟩
  · rw [chains c, sound.linked.head_eq_zero_iff]
    by_cases empty : R c = []
    · exact Or.inl empty
    · obtain ⟨h, t, atChain⟩ := List.exists_cons_of_ne_nil empty
      refine Or.inr ⟨?_, (sound.linked.ring c).nodup, fun b member => (sound.linked.ring c).neighbours member⟩
      rw [sound.linked.head, atChain]
      rfl
  · rw [chains] at member ⊢
    exact sound.linked.apart c d different b member
  · obtain ⟨n, tail, members⟩ := sound.accounted
    simp only [chains, members b, tail]
    constructor
    · rintro ⟨i, bound, value⟩
      exact ⟨by omega, i, value⟩
    · rintro ⟨bound, i, value⟩
      exact ⟨i, by omega, value⟩
  · rw [chains] at short ⊢
    cases atChain : R .unUsed with
    | nil => simp [sound.linked.useUnUsed_empty atChain] at handed
    | cons u t =>
      obtain ⟨k, took, linked, data⟩ := sound.linked.useUnUsed atChain (by simpa [atChain] using short)
      obtain ⟨rfl, rfl⟩ : u = b ∧ k = g := by simpa [took] using handed
      have count : k.blockCount = f.blockCount := by simp only [ControlFile.blockCount, data.2.2]
      have bound := sound.linked.length_le sound.accounted .unUsed
      have chainK := linked.chain_eq (c := .unUsed) (by simp [atChain, count] at bound ⊢; omega)
      rw [chainK]
      have distinct := (sound.linked.ring .unUsed).nodup
      rw [atChain] at distinct
      exact ⟨by simp, by simp, by simpa using (List.nodup_cons.mp distinct).1⟩

/-- In a run of legal calls in which no chain of three or more blocks loses its
head, every state reached is region safe. -/
theorem regionSafe_of_headsStay (ops : List AllocOp)
    (along : Along (fun st op => st.Legal op ∧ st.HeadsStay op) start ops) :
    ∃ st, start.run ops = .ok st ∧ st.RegionSafe := by
  obtain ⟨st, R, ran, sound⟩ := run_sound sound_formatted along
  exact ⟨st, ran, regionSafe_of_sound sound⟩

/-- Two blocks given back and merged, and one handed out again. -/
theorem regionSafe_of_headsStay_run :
    ∃ st, start.run [.allocate 10, .allocate 20, .deallocate 10, .allocate 5] = .ok st ∧ st.RegionSafe :=
  regionSafe_of_headsStay _ (by decide +kernel)

/-- Giving back two of three blocks makes a free chain of three. Handing out its
head again cuts the free block without end off the chain. -/
theorem regionSafe_fails :
    Along Legal start [.allocate 10, .allocate 10, .allocate 10, .deallocate 0, .deallocate 10, .allocate 10] ∧
    ∃ st, start.run [.allocate 10, .allocate 10, .allocate 10, .deallocate 0, .deallocate 10,
      .allocate 10] = .ok st ∧
      ¬st.RegionSafe := by
  refine ⟨by decide +kernel, _, rfl, fun safe => ?_⟩
  have lost := safe.cover 1000
  revert lost
  decide +kernel

/-- In a run of legal calls in which no chain of three or more blocks loses its
head, the chains are in order in every state reached. -/
theorem chainsInOrder_of_headsStay (ops : List AllocOp)
    (along : Along (fun st op => st.Legal op ∧ st.HeadsStay op) start ops) :
    ∃ st, start.run ops = .ok st ∧ ChainsInOrder st.file := by
  obtain ⟨st, R, ran, sound⟩ := run_sound sound_formatted along
  exact ⟨st, ran, chainsInOrder_of_sound sound⟩

theorem chainsInOrder_of_headsStay_run :
    ∃ st, start.run [.allocate 10, .allocate 20, .deallocate 10, .allocate 5] = .ok st ∧
      ChainsInOrder st.file :=
  chainsInOrder_of_headsStay _ (by decide +kernel)

/-- Giving back the newest of three blocks moves the allocated head to its
successor, which drops the third block from every chain. -/
theorem chainsInOrder_fails :
    Along Legal start [.allocate 10, .allocate 10, .allocate 10, .deallocate 20] ∧
    ∃ st, start.run [.allocate 10, .allocate 10, .allocate 10, .deallocate 20] = .ok st ∧
      ¬ChainsInOrder st.file := by
  refine ⟨by decide +kernel, _, rfl, fun inOrder => ?_⟩
  obtain ⟨c, member⟩ := (inOrder.complete 120).mpr ⟨by decide +kernel, 1, rfl⟩
  revert member
  cases c <;> decide +kernel

end AllocState

end MiyaCore
