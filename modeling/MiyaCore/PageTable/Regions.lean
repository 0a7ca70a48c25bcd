import MiyaCore.PageTable.ChainMoves

namespace MiyaCore.ControlFile
open LinkRing

/-- The bytes a control block stands for: up to its end, or without end when
that is null. -/
def Holds (f : ControlFile) (b x : Nat) : Prop := f.mapping b ≤ x ∧ (f.blockEnd b = 0 ∨ x < f.blockEnd b)

instance (f : ControlFile) (b x : Nat) : Decidable (f.Holds b x) :=
  inferInstanceAs (Decidable (_ ∧ _))

theorem holds_iff {f : ControlFile} {b x : Nat} :
    f.Holds b x ↔ f.mapping b ≤ x ∧ (f.blockEnd b = 0 ∨ x < f.blockEnd b) :=
  Iff.rfl

/-- The members of a chain, as a walk along `next` from the head meets them. -/
def chain (f : ControlFile) (c : Chain) : List Nat :=
  if f.head c = 0 then [] else walk f.next (f.head c) f.blockCount (f.head c)

/-- How many of the listed blocks stand for byte `x`. -/
def owners (f : ControlFile) (l : List Nat) (x : Nat) : Nat := l.countP (fun b => decide (f.Holds b x))

theorem owners_cons (f : ControlFile) (b : Nat) (l : List Nat) (x : Nat) :
    f.owners (b :: l) x = f.owners l x + if f.Holds b x then 1 else 0 := by
  simp [owners, List.countP_cons]

theorem owners_erase (f : ControlFile) {b : Nat} {l : List Nat} (member : b ∈ l) (x : Nat) :
    f.owners l x = f.owners (l.erase b) x + if f.Holds b x then 1 else 0 := by
  rw [← owners_cons]
  exact (List.perm_cons_erase member).countP_eq _

theorem owners_congr {f g : ControlFile} {l : List Nat} (x : Nat)
    (mapping : ∀ b ∈ l, g.mapping b = f.mapping b) (ends : ∀ b ∈ l, g.blockEnd b = f.blockEnd b) :
    g.owners l x = f.owners l x := by
  refine List.countP_congr fun b member => ?_
  simp only [holds_iff, mapping b member, ends b member, decide_eq_true_eq]

theorem owners_pos {f : ControlFile} {l : List Nat} {x : Nat} : 0 < f.owners l x ↔ ∃ b ∈ l, f.Holds b x := by
  simp [owners, List.countP_pos_iff]

/-- Every byte belongs to exactly one block of the free and allocated chains, all
addresses are in the range where their arithmetic is exact, and the last free
block has no end. -/
structure Placed (f : ControlFile) (R : Chain → List Nat) : Prop where
  free : ∀ b ∈ R .free, f.mapping b < 2 ^ 24 ∧ f.blockEnd b < 2 ^ 24 ∧
    (f.blockEnd b = 0 ∨ f.mapping b < f.blockEnd b)
  used : ∀ b ∈ R .allocated, f.mapping b < f.blockEnd b ∧ f.blockEnd b < 2 ^ 24
  endless : ∃ b ∈ R .free, f.blockEnd b = 0
  once : ∀ x, f.owners (R .free) x + f.owners (R .allocated) x = 1

theorem Placed.congr {f g : ControlFile} {R S : Chain → List Nat} (placed : Placed f R)
    (free : S .free = R .free) (used : S .allocated = R .allocated)
    (mapping : ∀ b, b ∈ R .free ∨ b ∈ R .allocated → g.mapping b = f.mapping b)
    (ends : ∀ b, b ∈ R .free ∨ b ∈ R .allocated → g.blockEnd b = f.blockEnd b) : Placed g S where
  free b member := by
    rw [free] at member
    rw [mapping b (Or.inl member), ends b (Or.inl member)]
    exact placed.free b member
  used b member := by
    rw [used] at member
    rw [mapping b (Or.inr member), ends b (Or.inr member)]
    exact placed.used b member
  endless := by
    obtain ⟨b, member, null⟩ := placed.endless
    exact ⟨b, free ▸ member, (ends b (Or.inl member)).trans null⟩
  once x := by
    rw [free, used, owners_congr x (fun b m => mapping b (Or.inl m)) (fun b m => ends b (Or.inl m)),
      owners_congr x (fun b m => mapping b (Or.inr m)) (fun b m => ends b (Or.inr m))]
    exact placed.once x

theorem freeBlockSize_eq {f : ControlFile} {b : Nat} (low : f.mapping b < 2 ^ 24 ∧ f.blockEnd b < 2 ^ 24)
    (shape : f.blockEnd b = 0 ∨ f.mapping b < f.blockEnd b) :
    f.freeBlockSize b = f.blockEnd b - f.mapping b := by
  rcases shape with null | above
  · simp [freeBlockSize, null]
  · have : f.blockEnd b ≠ 0 := by omega
    rw [freeBlockSize, if_neg this, ulongOptr_of_lt low.1, ulongOptr_of_lt low.2]
    omega

theorem blockCount_of_tail {f : ControlFile} {n : Nat} (tail : f.controlBlockTail = 100 + 20 * n) :
    f.blockCount = n + 1 := by
  rw [blockCount, tail]
  omega

/-- A chain has no more members than there are control blocks. -/
theorem Linked.length_le {f : ControlFile} {R : Chain → List Nat} (linked : Linked f R)
    (accounted : Accounted f R) (c : Chain) : (R c).length ≤ f.blockCount := by
  obtain ⟨n, tail, members⟩ := accounted
  have sub : R c ⊆ (List.range (n + 1)).map (fun i => 100 + 20 * i) := by
    intro b member
    obtain ⟨i, bound, value⟩ := (members b).mp ⟨c, member⟩
    exact List.mem_map.mpr ⟨i, List.mem_range.mpr (by omega), value.symm⟩
  have := (List.subperm_of_subset (linked.ring c).nodup sub).length_le
  rw [blockCount_of_tail tail]
  simpa using this

theorem Linked.chain_eq {f : ControlFile} {R : Chain → List Nat} (linked : Linked f R) {c : Chain}
    (bound : (R c).length ≤ f.blockCount) : f.chain c = R c := by
  cases atChain : R c with
  | nil => simp [chain, (linked.head_eq_zero_iff c).mpr atChain]
  | cons h t =>
    have headIs : f.head c = h := by rw [linked.head c, atChain]; rfl
    have nonzero : h ≠ 0 := linked.nonzero c h (by simp [atChain])
    have ring : IsRing f.next f.prev (h :: t) := atChain ▸ linked.ring c
    rw [chain, headIs, if_neg nonzero]
    exact ring.walk_eq (by rw [atChain] at bound; exact bound)

theorem findMappedFuel_eq {c : Chain} {f : ControlFile} {target a : Nat} {l : List Nat}
    (links : Links f.next f.prev a l (f.head c)) (outside : f.head c ∉ l) {n : Nat} (enough : l.length < n) :
    findMappedFuel c f target n a = .ok ((a :: l).find? (fun b => decide (f.mapping b = target))) := by
  induction l generalizing a n with
  | nil =>
    obtain ⟨m, rfl⟩ : ∃ m, n = m + 1 := ⟨n - 1, by simp at enough; omega⟩
    by_cases found : f.mapping a = target <;> simp [findMappedFuel, links.1, found]
  | cons y l ih =>
    obtain ⟨m, rfl⟩ : ∃ m, n = m + 1 := ⟨n - 1, by simp at enough; omega⟩
    obtain ⟨⟨out, _⟩, rest⟩ := links
    by_cases found : f.mapping a = target
    · simp [findMappedFuel, found]
    · have inner : y ≠ f.head c := fun same => outside (same ▸ List.mem_cons_self ..)
      rw [findMappedFuel, if_neg found, out, if_neg inner,
        ih rest (fun member => outside (List.mem_cons_of_mem _ member)) (by simpa using enough)]
      conv_rhs => rw [List.find?_cons_of_neg (by simpa using found)]

/-- The search of a chain by mapped address finds its first block with that address. -/
theorem Linked.findMapped_eq {f : ControlFile} {R : Chain → List Nat} (linked : Linked f R)
    (accounted : Accounted f R) (c : Chain) (target : Nat) :
    findMapped c f target = .ok ((R c).find? (fun b => decide (f.mapping b = target))) := by
  have bound := linked.length_le accounted c
  cases atChain : R c with
  | nil => simp [findMapped, (linked.head_eq_zero_iff c).mpr atChain]
  | cons h t =>
    have headIs : f.head c = h := by rw [linked.head c, atChain]; rfl
    have nonzero : h ≠ 0 := linked.nonzero c h (by simp [atChain])
    have ring : IsRing f.next f.prev (h :: t) := atChain ▸ linked.ring c
    rw [findMapped, headIs, if_neg nonzero]
    refine findMappedFuel_eq ?_ ?_ (by rw [atChain] at bound; exact bound)
    · rw [headIs]
      exact ring.1
    · rw [headIs]
      exact (List.nodup_cons.mp ring.2).1

/-- The search for room ends at a block without end or of at least the size asked for. -/
theorem findFreeBlockFuel_ok {f : ControlFile} {size a b : Nat} {l : List Nat}
    (links : Links f.next f.prev a l b) (low : ∀ y ∈ a :: l, f.mapping y < 2 ^ 24 ∧
    f.blockEnd y < 2 ^ 24 ∧ (f.blockEnd y = 0 ∨ f.mapping y < f.blockEnd y))
    (endless : ∃ y ∈ a :: l, f.blockEnd y = 0) {n : Nat} (enough : l.length < n) :
    ∃ target ∈ a :: l, findFreeBlockFuel f size n a = .ok target ∧
      (f.blockEnd target = 0 ∨ f.mapping target + size ≤ f.blockEnd target) := by
  induction l generalizing a n with
  | nil =>
    obtain ⟨m, rfl⟩ : ∃ m, n = m + 1 := ⟨n - 1, by omega⟩
    obtain ⟨y, member, null⟩ := endless
    obtain rfl := List.mem_singleton.mp member
    exact ⟨y, member, by simp [findFreeBlockFuel, freeBlockSize, null], Or.inl null⟩
  | cons z l ih =>
    obtain ⟨m, rfl⟩ : ∃ m, n = m + 1 := ⟨n - 1, by omega⟩
    obtain ⟨⟨out, _⟩, rest⟩ := links
    obtain ⟨lowStart, lowEnd, shape⟩ := low a (List.mem_cons_self ..)
    have sizeIs := freeBlockSize_eq ⟨lowStart, lowEnd⟩ shape
    by_cases null : f.blockEnd a = 0
    · exact ⟨a, List.mem_cons_self .., by simp [findFreeBlockFuel, freeBlockSize, null], Or.inl null⟩
    · have positive : f.freeBlockSize a ≠ 0 := by omega
      by_cases small : f.freeBlockSize a < size
      · have restEndless : ∃ y ∈ z :: l, f.blockEnd y = 0 := by
          obtain ⟨y, member, atEnd⟩ := endless
          rcases List.mem_cons.mp member with rfl | inner
          · exact absurd atEnd null
          · exact ⟨y, inner, atEnd⟩
        obtain ⟨target, member, found, fits⟩ := ih rest (fun y inner => low y (List.mem_cons_of_mem _ inner))
          restEndless (n := m) (by simpa using enough)
        exact ⟨target, List.mem_cons_of_mem _ member,
          by simp [findFreeBlockFuel, positive, small, out, found], fits⟩
      · exact ⟨a, List.mem_cons_self .., by simp [findFreeBlockFuel, positive, small], Or.inr (by omega)⟩

theorem Linked.findFreeBlock_ok {f : ControlFile} {R : Chain → List Nat} (linked : Linked f R)
    (accounted : Accounted f R) (placed : Placed f R) (size : Nat) :
    ∃ target ∈ R .free, f.findFreeBlock (f.head .free) size = .ok target ∧
      (f.blockEnd target = 0 ∨ f.mapping target + size % 2 ^ 32 ≤ f.blockEnd target) := by
  have bound := linked.length_le accounted .free
  have low := placed.free
  have endless := placed.endless
  have headIs := linked.head .free
  have ring := linked.ring .free
  cases atChain : R .free with
  | nil =>
    rw [atChain] at endless
    simp at endless
  | cons h t =>
    rw [atChain] at bound low endless headIs ring
    rw [findFreeBlock, headIs]
    exact findFreeBlockFuel_ok ring.1 low endless bound

end MiyaCore.ControlFile
