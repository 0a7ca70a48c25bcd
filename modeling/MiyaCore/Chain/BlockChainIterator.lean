import MiyaCore.Chain.HeaderSync

/-!
# The block chain iterator

An iterator steps back in place, or hands out an iterator of the block before its own. It keeps the hash and
the height of a block beside the block itself.
-/

namespace MiyaCore.Chain

variable {PKey : Type}

/-- What `BlockLocalStrage::readBlock` finds for a block hash. -/
abbrev StoredBlocks (PKey : Type) := List UInt8 → Option (Block PKey)

/-- `BlockChainIterator`, with its cache. -/
structure BlockChainIterator (PKey : Type) where
  body : Option (Block PKey) := none
  localStrageManager : Option (StoredBlocks PKey) := none
  cachedBlockHash : Buffer := none
  cachedHeigth : Int := -1

def Block.blockHash (c : Crypto PKey) (b : Block PKey) : List UInt8 := b.header.headerHash c

namespace BlockChainIterator

section Operations
variable (c : Crypto PKey) (height : Block PKey → UInt32)

/-- `setupFromBlockHash`: whether a block was found. It is not defined without a storage, or for a null hash,
of which the storage copies the key. -/
def setupFromBlockHash (it : BlockChainIterator PKey) (source : Buffer) :
    Option (Bool × BlockChainIterator PKey) := do
  let storage ← it.localStrageManager
  let blockHash ← source
  match storage blockHash with
  | none => return (false, it)
  | some thisBlock => return (true, { it with body := some thisBlock })

/-- The part of the constructors that fills the cache. -/
def fillCache (it : BlockChainIterator PKey) : BlockChainIterator PKey :=
  match it.body with
  | none => it
  | some body => { it with cachedBlockHash := some (body.blockHash c), cachedHeigth := (height body).toNat }

/-- The constructor from a block hash. -/
def ofBlockHash (localStrageManager : Option (StoredBlocks PKey)) (blockHash : Buffer) :
    Option (BlockChainIterator PKey) :=
  if localStrageManager.isNone ∨ blockHash.isNone then some {}
  else (setupFromBlockHash { localStrageManager } blockHash).map fun r => r.2.fillCache c height

/-- `operator--`. -/
def decrement (it : BlockChainIterator PKey) : Option (BlockChainIterator PKey) := do
  let body ← it.body
  let r ← it.setupFromBlockHash body.header.prevBlockHash
  return r.2

/-- `prev`: a null pointer before the first block. -/
def prev (it : BlockChainIterator PKey) : Option (Option (BlockChainIterator PKey)) := do
  let body ← it.body
  match body.header.prevBlockHash with
  | none => return none
  | some prevBlockHash =>
    let ret ← ofBlockHash c height it.localStrageManager (some prevBlockHash)
    return some ret

def blockHash (it : BlockChainIterator PKey) : Buffer := it.cachedBlockHash

/-- `operator--` again and again. -/
def decrements : Nat → BlockChainIterator PKey → Option (BlockChainIterator PKey)
  | 0, it => some it
  | k + 1, it => do
    let it ← it.decrement
    decrements k it

/-- `prev` again and again, as long as there is an iterator. -/
def prevs : Nat → BlockChainIterator PKey → Option (Option (BlockChainIterator PKey))
  | 0, it => some (some it)
  | k + 1, it => do
    match ← it.prev c height with
    | none => return none
    | some it => prevs k it

end Operations

section Walks
variable (c : Crypto PKey) (height : Block PKey → UInt32)

/-- `b 0`, …, `b n` is a stored chain. -/
structure Stored (storage : StoredBlocks PKey) (b : Nat → Block PKey) (n : Nat) : Prop where
  read : ∀ i ≤ n, storage ((b i).blockHash c) = some (b i)
  first : (b 0).header.prevBlockHash = none
  link : ∀ i < n, (b (i + 1)).header.prevBlockHash = some ((b i).blockHash c)

/-- The iterator shows the block, its hash and its height. -/
structure Shows (it : BlockChainIterator PKey) (b : Block PKey) : Prop where
  body : it.body = some b
  blockHash : it.blockHash = some (b.blockHash c)
  height : it.cachedHeigth = (height b).toNat

/-- Both ways of going back `k` blocks end in an iterator of the block `b`. -/
def BothShow (k : Nat) (it : BlockChainIterator PKey) (b : Block PKey) : Prop :=
  ∃ stepped followed, decrements k it = some stepped ∧ prevs c height k it = some (some followed) ∧
    Shows c height stepped b ∧ Shows c height followed b

/-- Both ways agree on the chain, and going back from the first block fails in neither. -/
structure WalksAgree (b : Nat → Block PKey) (n : Nat) (it : BlockChainIterator PKey) : Prop where
  blocks : ∀ k ≤ n, BothShow c height k it (b (n - k))
  decremented : (decrements (n + 1) it).isSome
  followed : prevs c height (n + 1) it = some none

end Walks

section Chain
variable {c : Crypto PKey} {height : Block PKey → UInt32} {storage : StoredBlocks PKey} {b : Nat → Block PKey}
  {n : Nat} {it : BlockChainIterator PKey}

/-- A stored chain has no block twice in a row: the first one names no other. -/
theorem Stored.blockHash_ne (stored : Stored c storage b n) {i : Nat} (inside : i < n) :
    (b (i + 1)).blockHash c ≠ (b i).blockHash c := by
  induction i with
  | zero =>
    intro same
    have equal := (stored.read 1 inside).symm.trans ((congrArg storage same).trans (stored.read 0 (by omega)))
    have link := stored.link 0 inside
    rw [Option.some.inj equal, stored.first] at link
    contradiction
  | succ i ih =>
    intro same
    have equal := (stored.read (i + 2) inside).symm.trans ((congrArg storage same).trans
      (stored.read (i + 1) (by omega)))
    have link := stored.link (i + 1) inside
    rw [Option.some.inj equal, stored.link i (by omega)] at link
    exact ih (by omega) (Option.some.inj link).symm

/-- One step back in place: the block changes, the cache stays. -/
theorem Stored.decrement_eq (stored : Stored c storage b n) {i : Nat} (inside : i < n)
    (body : it.body = some (b (i + 1))) (manager : it.localStrageManager = some storage) :
    it.decrement = some { it with body := some (b i) } := by
  simp only [decrement, body, setupFromBlockHash, manager, stored.link i inside, stored.read i (by omega),
    Option.bind_eq_bind, Option.bind_some, Option.pure_def]

theorem Stored.decrements_eq (stored : Stored c storage b n) {k : Nat} (inside : k ≤ n)
    (body : it.body = some (b n)) (manager : it.localStrageManager = some storage) :
    decrements k it = some { it with body := some (b (n - k)) } := by
  induction k generalizing n it with
  | zero =>
    rw [decrements, Nat.sub_zero, ← body]
  | succ k ih =>
    obtain ⟨m, rfl⟩ : ∃ m, n = m + 1 := ⟨n - 1, by omega⟩
    have rest : Stored c storage b m :=
      ⟨fun i inside => stored.read i (by omega), stored.first, fun i inside => stored.link i (by omega)⟩
    rw [decrements, stored.decrement_eq (Nat.lt_succ_self m) body manager, Option.bind_eq_bind, Option.bind_some,
      Nat.succ_sub_succ]
    exact ih rest (by omega) rfl manager

/-- In front of the first block there is nothing to step back to. -/
theorem Stored.decrement_first (stored : Stored c storage b n) (body : it.body = some (b 0)) :
    it.decrement = none := by
  simp only [decrement, body, setupFromBlockHash, stored.first, Option.bind_eq_bind, Option.bind_some,
    Option.bind_none, Option.bind_fun_none]

theorem decrements_succ (k : Nat) (it : BlockChainIterator PKey) :
    decrements (k + 1) it = (decrements k it).bind decrement := by
  induction k generalizing it with
  | zero =>
    simp only [decrements, Option.bind_eq_bind, Option.bind_some, Option.bind_fun_some]
  | succ k ih =>
    rw [decrements]
    cases stepped : it.decrement with
    | none => rw [decrements, stepped]; rfl
    | some it' =>
      rw [Option.bind_eq_bind, Option.bind_some, ih it', decrements, stepped, Option.bind_eq_bind,
        Option.bind_some]

/-- No way of going back passes the first block in place, whether the iterator has a storage or not. -/
theorem Stored.decrements_first (stored : Stored c storage b n) (body : it.body = some (b n))
    (manager : it.localStrageManager = some storage ∨ it.localStrageManager = none) :
    decrements (n + 1) it = none := by
  obtain manager | manager := manager
  · rw [decrements_succ, stored.decrements_eq le_rfl body manager, Option.bind_some, Nat.sub_self]
    exact stored.decrement_first rfl
  · simp [decrements, decrement, body, setupFromBlockHash, manager]

/-- The two ways of walking agree on no stored chain. In place, the walk fails at the first block; before
that, it shows the right blocks with the hash and the height of the last one. -/
theorem walksAgree_never (stored : Stored c storage b n) (shows : Shows c height it (b n))
    (manager : it.localStrageManager = some storage ∨ it.localStrageManager = none) :
    ¬WalksAgree c height b n it ∧ ((∀ k ≤ n, BothShow c height k it (b (n - k))) ↔ n = 0) := by
  refine ⟨fun agree => ?_, fun both => ?_, fun zero k inside => ?_⟩
  · have decremented := agree.decremented
    rw [stored.decrements_first shows.body manager] at decremented
    contradiction
  · by_contra some
    obtain ⟨m, rfl⟩ : ∃ m, n = m + 1 := ⟨n - 1, by omega⟩
    obtain ⟨stepped, -, step, -, shown, -⟩ := both 1 (by omega)
    obtain manager | manager := manager
    · rw [stored.decrements_eq (by omega) shows.body manager] at step
      have hash : it.blockHash = Option.some ((b m).blockHash c) := by
        rw [← Option.some.inj step] at shown
        exact shown.blockHash
      exact stored.blockHash_ne (Nat.lt_succ_self m) (Option.some.inj (shows.blockHash.symm.trans hash))
    · simp [decrements, decrement, shows.body, setupFromBlockHash, manager] at step
  · obtain rfl : k = 0 := by omega
    exact ⟨it, it, rfl, rfl, shows, shows⟩

end Chain

open VirtualHeaderSyncManager (digests genesis child)

/-- Two blocks, and a storage that has them. -/
def twoBlocks (i : Nat) : Block Unit where
  header := if i = 0 then genesis else child genesis 1

def twoStored : StoredBlocks Unit := fun blockHash =>
  if blockHash = (twoBlocks 0).blockHash digests then some (twoBlocks 0)
  else if blockHash = (twoBlocks 1).blockHash digests then some (twoBlocks 1) else none

def atSecond : BlockChainIterator Unit where
  body := some (twoBlocks 1)
  localStrageManager := some twoStored
  cachedBlockHash := some ((twoBlocks 1).blockHash digests)
  cachedHeigth := 1

theorem stored_twoBlocks : Stored digests twoStored twoBlocks 1 := by
  have apart : (twoBlocks 1).blockHash digests ≠ (twoBlocks 0).blockHash digests := by decide +kernel
  refine ⟨fun i inside => ?_, by decide +kernel, fun i inside => ?_⟩
  · obtain rfl | rfl : i = 0 ∨ i = 1 := by omega
    · exact if_pos rfl
    · rw [twoStored, if_neg apart, if_pos rfl]
  · obtain rfl : i = 0 := by omega
    decide +kernel

theorem walksAgree_never_two :
    ¬WalksAgree digests (fun b => b.header.nonce) twoBlocks 1 atSecond ∧
      ((∀ k ≤ 1, BothShow digests (fun b => b.header.nonce) k atSecond (twoBlocks (1 - k))) ↔ 1 = 0) :=
  walksAgree_never stored_twoBlocks ⟨rfl, rfl, rfl⟩ (Or.inl rfl)

/-- One step back from the second of two blocks in place: the block is the first, the hash is still that of
the second; one step more is not defined. -/
theorem walksAgree_fails :
    ofBlockHash digests (fun b => b.header.nonce) (some twoStored) (some ((twoBlocks 1).blockHash digests)) =
      some atSecond ∧ ¬WalksAgree digests (fun b => b.header.nonce) twoBlocks 1 atSecond ∧
      (decrements 2 atSecond).isNone := by
  refine ⟨?_, fun agree => ?_, by decide +kernel⟩
  · have read : twoStored ((twoBlocks 1).blockHash digests) = some (twoBlocks 1) := stored_twoBlocks.read 1 le_rfl
    simp only [ofBlockHash, setupFromBlockHash, read, Option.isNone_some, Bool.false_eq_true, or_self, if_false,
      Option.bind_eq_bind, Option.bind_some, Option.map_some, Option.pure_def]
    rfl
  · obtain ⟨stepped, -, step, -, shown, -⟩ := agree.blocks 1 le_rfl
    have stale : (decrements 1 atSecond).map blockHash = some (some ((twoBlocks 1).blockHash digests)) := by
      decide +kernel
    rw [step, Option.map_some, shown.blockHash] at stale
    revert stale
    decide +kernel

end BlockChainIterator

end MiyaCore.Chain
