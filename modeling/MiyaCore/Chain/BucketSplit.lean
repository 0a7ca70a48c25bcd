import Mathlib.Tactic.FinCases
import MiyaCore.Chain.PoolRuns

/-!
# Scaling up a bucket

A bucket is replaced by a table one layer down, and its ring is taken apart member by member. What comes out
is a tree whose buckets hold the members of the ring and no others.
-/

namespace MiyaCore.Chain

variable {T : Type} [DecidableEq T] (txID : T → List.Vector UInt8 32)

/-- `TxCBBucket::autoScaleUp` for a bucket of a table of the layer `parent`: the links, and the table that
takes the place of the bucket. -/
def TxCBBucket.autoScaleUp (fuel parent : Nat) (h : TxCBLinks T) (txcbHead : T) :
    Option (TxCBLinks T × TxCBContainer T) :=
  autoScaleUpFrom (TxCBContainer.add txID fuel parent) txcbHead fuel h (.new (parent + 1)) txcbHead

/-- The members of a container in the order of its buckets. Each bucket is the head of the ring of its
members, and each member lies in the slot of its own symbol at every table on the way. -/
def TxCBContainer.Shelves (h : TxCBLinks T) : TxCBContainer T → Nat → List T → Prop
  | .bucket b, _, members => h.Ring members ∧ b.txcbHead = members.head?
  | .table layer containerArray, depth, members =>
    layer = depth ∧ ∃ parts : Fin 16 → List T, members = (List.finRange 16).flatMap parts ∧
      ∀ i, (containerArray i).Shelves h (depth + 1) (parts i) ∧ ∀ x ∈ parts i, targetIndex layer (txID x) = some i

/-- The container has the blocks of `members`, each of them once, and finds each of them. -/
structure TxCBContainer.Keeps (h : TxCBLinks T) (c : TxCBContainer T) (depth : Nat) (members : List T) :
    Prop where
  shelved : ∃ shelves, c.Shelves txID h depth shelves ∧ shelves.Perm members
  found : ∀ x ∈ members, ∀ fuel, 2 ≤ fuel → c.find txID fuel h x = some (some x)

variable {txID}

/-- A container that holds `S` has its members on shelves. -/
theorem TxCBContainer.Holds.shelves {counts : Prop} {h : TxCBLinks T} {c : TxCBContainer T} {depth : Nat}
    {S : Finset T} (holds : c.Holds txID counts h depth S) :
    ∃ members, c.Shelves txID h depth members ∧ members.Nodup ∧ members.toFinset = S := by
  induction c generalizing depth S with
  | bucket b =>
    obtain ⟨-, l, inBucket, rfl⟩ := holds
    exact ⟨l, ⟨inBucket.ring, inBucket.head⟩, inBucket.ring.nodup, rfl⟩
  | table layer containerArray ih =>
    obtain ⟨rfl, bound, children⟩ := holds
    choose parts shelved distinct exact using fun i => ih i (children i)
    have located : ∀ i, ∀ x ∈ parts i, x ∈ S ∧ targetIndex layer (txID x) = some i := by
      intro i x member
      rw [← List.mem_toFinset, exact i] at member
      exact mem_slot.mp member
    refine ⟨(List.finRange 16).flatMap parts,
      ⟨rfl, parts, rfl, fun i => ⟨shelved i, fun x member => (located i x member).2⟩⟩, ?_, ?_⟩
    · refine List.nodup_flatMap.mpr ⟨fun i _ => distinct i, (List.nodup_finRange 16).imp fun {i j} different => ?_⟩
      intro x inI inJ
      exact different (Option.some.inj ((located i x inI).2.symm.trans (located j x inJ).2))
    · ext x
      rw [List.mem_toFinset, List.mem_flatMap]
      constructor
      · rintro ⟨i, -, member⟩
        exact (located i x member).1
      · intro member
        obtain ⟨i, atIndex⟩ := targetIndex_isSome (show layer < 64 by omega) (txID x)
        refine ⟨i, List.mem_finRange i, ?_⟩
        rw [← List.mem_toFinset, exact i]
        exact mem_slot.mpr ⟨member, atIndex⟩

theorem TxCBContainer.Holds.keeps {counts : Prop} {h : TxCBLinks T} {c : TxCBContainer T} {depth : Nat}
    {members : List T} (holds : c.Holds txID counts h depth members.toFinset) (distinct : members.Nodup)
    (keyed : Keyed txID members.toFinset) : c.Keeps txID h depth members := by
  obtain ⟨shelves, shelved, distinct', same⟩ := holds.shelves
  refine ⟨⟨shelves, shelved, List.perm_of_nodup_nodup_toFinset_eq distinct' distinct same⟩,
    fun x member fuel enough => ?_⟩
  have inside : x ∈ members.toFinset := List.mem_toFinset.mpr member
  obtain ⟨r, run, found⟩ := c.find_run holds x enough
  cases r with
  | none => exact absurd rfl (found x inside)
  | some y =>
    obtain ⟨inY, same⟩ := found
    rw [run, keyed y inY x inside same]

/-- A single member moves into an empty bucket of the new table, at any layer that an ID reaches. -/
theorem TxCBBucket.autoScaleUp_singleton {h : TxCBLinks T} {parent fuel : Nat} {x : T} (ring : h.Ring [x])
    (inside : parent + 1 < 64) (enough : 3 ≤ fuel) :
    ∃ h' c', TxCBBucket.autoScaleUp txID fuel parent h x = some (h', c') ∧ c'.Keeps txID h' (parent + 1) [x] := by
  obtain ⟨n, rfl⟩ : ∃ n, fuel = n + 2 := ⟨fuel - 2, by omega⟩
  obtain ⟨i, located⟩ := targetIndex_isSome inside (txID x)
  have next : h.next x = some x := ring.1.1
  let b : TxCBBucket T := { txcbHead := some x, txCount := 1 }
  refine ⟨(h.setPrev x (some x)).setNext x (some x),
    .table (parent + 1) (Function.update (fun _ => .bucket {}) i (.bucket b)), ?_, ?_, ?_⟩
  · simp [autoScaleUp, autoScaleUpFrom, next, TxCBContainer.add, TxCBContainer.new, located, find, b]
  · refine ⟨[x], ⟨rfl, fun j => if j = i then [x] else [], ?_, fun j => ?_⟩, List.Perm.refl _⟩
    · fin_cases i <;> rfl
    · beta_reduce
      by_cases same : j = i
      · subst same
        rw [Function.update_self, if_pos rfl]
        refine ⟨⟨TxCBLinks.ring_singleton ?_ ?_, rfl⟩, fun y member => List.mem_singleton.mp member ▸ located⟩
        · simp [TxCBLinks.setNext]
        · simp [TxCBLinks.setNext, TxCBLinks.setPrev]
      · rw [Function.update_of_ne same, if_neg same]
        exact ⟨⟨trivial, rfl⟩, by simp⟩
  · intro y member fuel enough
    obtain rfl := List.mem_singleton.mp member
    obtain ⟨m, rfl⟩ : ∃ m, fuel = m + 1 := ⟨fuel - 1, by omega⟩
    simp [TxCBContainer.find, located, find, findFrom, b]

/-- Scaling up a bucket keeps its ring: whatever members it has that `find` tells apart and whose symbols are
those of the bucket's way, they end up on the shelves of the new table. A ring of one is moved as long as its ID
has a symbol for the new layer; longer rings have one always. -/
theorem TxCBBucket.autoScaleUp_keeps {h : TxCBLinks T} {parent fuel : Nat} {head : T} {t : List T}
    (ring : h.Ring (head :: t)) (keyed : Keyed txID (head :: t).toFinset)
    (agree : Agree txID (parent + 1) (head :: t).toFinset) (layered : t ≠ [] ∨ parent + 1 < 64)
    (enough : t.length + 90 ≤ fuel) :
    ∃ h' c', TxCBBucket.autoScaleUp txID fuel parent h head = some (h', c') ∧
      c'.Keeps txID h' (parent + 1) (head :: t) := by
  have distinct := List.nodup_cons.mp ring.nodup
  cases t with
  | nil => exact autoScaleUp_singleton ring (layered.resolve_left (not_not_intro rfl)) (by omega)
  | cons y rest =>
    have shallow : parent + 1 < 40 := by
      refine agree.depth_lt (y := head) (z := y) (by simp) (by simp) fun same => distinct.1 ?_
      rw [keyed head (by simp) y (by simp) same]
      exact List.mem_cons_self ..
    have chain := TxCBLinks.isChain_of_links (show LinkRing.Links h.nextPtr h.prevPtr (some head)
      ((y :: rest).map some) (some head) from ring.1)
    have steps : (TxCBContainer.new (parent + 1) : TxCBContainer T).steps (parent + 1) ≤ fuel := by
      simp only [TxCBContainer.steps, TxCBContainer.new]
      omega
    rw [← Finset.empty_union (head :: y :: rest).toFinset] at keyed agree
    have empty : (TxCBContainer.new (parent + 1)).Holds txID True h (parent + 1) ∅ := holds_new shallow
    obtain ⟨h', c', moved, holds, -, -⟩ := autoScaleUpFrom_run
      (fun h c S x holds small keyed agree absent => TxCBContainer.add_absent holds keyed agree absent small)
      empty steps chain distinct.1 ring.nodup (fun _ _ => Finset.notMem_empty _) keyed agree
      (show (y :: rest).length < fuel by omega)
    rw [Finset.empty_union] at holds keyed
    exact ⟨h', c', moved, holds.keeps ring.nodup keyed⟩

instance (S : Finset T) : Decidable (Keyed txID S) :=
  inferInstanceAs (Decidable (∀ y ∈ S, ∀ z ∈ S, comparedBytes (txID y) = comparedBytes (txID z) → y = z))

instance (depth : Nat) (S : Finset T) : Decidable (Agree txID depth S) :=
  inferInstanceAs (Decidable
    (∀ y ∈ S, ∀ z ∈ S, ∀ layer < depth, targetIndex layer (txID y) = targetIndex layer (txID z)))

/-- The links of the ring of 0, 1 and 16. -/
def threeLinks : TxCBLinks Nat where
  next x := some (if x = 0 then 1 else if x = 1 then 16 else 0)
  prev x := some (if x = 0 then 16 else if x = 1 then 0 else 1)

/-- IDs that part in their third and fourth symbol: the new table is scaled up itself. -/
theorem TxCBBucket.autoScaleUp_keeps_three :
    ∃ h' c', TxCBBucket.autoScaleUp sampleID 100 0 threeLinks 0 = some (h', c') ∧
      c'.Keeps sampleID h' 1 [0, 1, 16] :=
  TxCBBucket.autoScaleUp_keeps ⟨⟨⟨rfl, rfl⟩, ⟨rfl, rfl⟩, rfl, rfl⟩, by decide⟩ (by decide +kernel)
    (by decide +kernel) (Or.inl (by decide)) (by decide)

end MiyaCore.Chain
