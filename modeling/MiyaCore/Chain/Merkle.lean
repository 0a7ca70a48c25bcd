import MiyaCore.Chain.Acceptance
import MiyaCore.MerkleTree

namespace MiyaCore.Chain

open MerkleTree

variable {PKey : Type} {c : Crypto PKey}

/-- Every second member with itself: the pairs that `calcRoot` joins. -/
def doubled {δ : Type} : List δ → List (δ × δ)
  | [] => []
  | [x] => [(x, x)]
  | x :: _ :: l => (x, x) :: doubled l

theorem length_doubled {δ : Type} (l : List δ) : (doubled l).length = (l.length + 1) / 2 := by
  induction l using doubled.induct with
  | case1 => simp [doubled]
  | case2 x => simp [doubled]
  | case3 x y l ih =>
    simp only [doubled, List.length_cons, ih]
    omega

theorem doubled_cons {δ : Type} (x : δ) (l : List δ) : ∃ rest, doubled (x :: l) = (x, x) :: rest := by
  obtain _ | ⟨y, l⟩ := l
  · exact ⟨[], rfl⟩
  · exact ⟨doubled l, rfl⟩

section Climbs

variable {δ : Type} {node : δ × δ → δ}

/-- Doubling, the last level depends on the first node alone; it is that of the true tree when
every node is the first one. -/
theorem climb_doubled_iff {fuel : Nat} {x : δ} {l r : List δ} (length : l.length + 1 = r.length)
    (enough : r.length ≤ fuel + 1)
    (apart : Set.InjOn node {p | p ∈ joined doubled node fuel (x :: l) ∨ p ∈ joined adjacent node fuel r}) :
    climb doubled node fuel (x :: l) = climb adjacent node fuel r ↔ ∀ y ∈ r, y = x := by
  induction fuel generalizing x l r with
  | zero =>
    obtain ⟨y, rfl⟩ := List.length_eq_one_iff.mp (show r.length = 1 by omega)
    obtain rfl : l = [] := List.length_eq_zero_iff.mp (by simpa using length)
    simp [climb, eq_comm]
  | succ fuel ih =>
    rw [climb, climb, List.length_cons, length]
    simp only [joined, List.length_cons, length] at apart
    split_ifs at apart ⊢ with short
    · obtain ⟨y, rfl⟩ := List.length_eq_one_iff.mp (show r.length = 1 by omega)
      obtain rfl : l = [] := List.length_eq_zero_iff.mp (by simpa using length)
      simp [eq_comm]
    · obtain ⟨rest, pairs⟩ := doubled_cons x l
      have half : rest.length + 1 = (r.length + 1) / 2 := by
        have total := length_doubled (x :: l)
        rw [pairs] at total
        simpa [length] using total
      rw [pairs] at apart ⊢
      rw [List.map_cons, ih (by simpa [length_adjacent] using half)
        (by simp only [List.length_map, length_adjacent]; omega)
        (apart.mono fun p => Or.imp (List.mem_append_right _) (List.mem_append_right _)),
        List.forall_mem_map, ← forall_mem_adjacent]
      refine forall_congr' fun p => imp_congr_right fun member => ⟨fun same => ?_, fun same => by rw [same]⟩
      exact apart (Or.inr (List.mem_append_left _ member))
        (Or.inl (List.mem_append_left _ (List.mem_cons_self ..))) same

/-- Doubling, the last level tells apart the first nodes and nothing else. -/
theorem climb_doubled_same_iff {fuel : Nat} {x y : δ} {l r : List δ} (length : l.length = r.length)
    (enough : l.length ≤ fuel)
    (apart : Set.InjOn node {p | p ∈ joined doubled node fuel (x :: l) ∨ p ∈ joined doubled node fuel (y :: r)}) :
    climb doubled node fuel (x :: l) = climb doubled node fuel (y :: r) ↔ x = y := by
  induction fuel generalizing x y l r with
  | zero =>
    obtain rfl : l = [] := List.length_eq_zero_iff.mp (by omega)
    obtain rfl : r = [] := List.length_eq_zero_iff.mp (by simpa using length.symm)
    simp [climb]
  | succ fuel ih =>
    rw [climb, climb, List.length_cons, List.length_cons, ← length]
    simp only [joined, List.length_cons, ← length] at apart
    split_ifs at apart ⊢ with short
    · obtain rfl : l = [] := List.length_eq_zero_iff.mp (by omega)
      obtain rfl : r = [] := List.length_eq_zero_iff.mp (by simpa using length.symm)
      simp
    · obtain ⟨left, pairsL⟩ := doubled_cons x l
      obtain ⟨right, pairsR⟩ := doubled_cons y r
      have totalL := length_doubled (x :: l)
      have totalR := length_doubled (y :: r)
      rw [pairsL] at totalL apart ⊢
      rw [pairsR] at totalR apart ⊢
      simp only [List.length_cons] at totalL totalR
      rw [List.map_cons, List.map_cons, ih (by simp only [List.length_map]; omega)
        (by simp only [List.length_map]; omega)
        (apart.mono fun p => Or.imp (List.mem_append_right _) (List.mem_append_right _))]
      refine ⟨fun same => ?_, fun same => by rw [same]⟩
      exact (Prod.mk.inj (apart (Or.inl (List.mem_append_left _ (List.mem_cons_self ..)))
        (Or.inr (List.mem_append_left _ (List.mem_cons_self ..))) same)).1

end Climbs

/-- The id of a parent: the hash of the left child followed by the right child. -/
def parentHash (c : Crypto PKey) (p : List UInt8 × List UInt8) : List UInt8 := c.sha256 (p.1 ++ p.2)

/-- `calcRoot` joins every second id to itself. -/
theorem calcRoot_eq (fuel : Nat) (ids : List (List UInt8)) :
    calcRoot c fuel ids = climb doubled (parentHash c) fuel ids := by
  have level : ∀ l : List (List UInt8),
      (evens l).map (fun x => c.sha256 (x ++ x)) = (doubled l).map (parentHash c) := by
    intro l
    induction l using evens.induct with
    | case1 => rfl
    | case2 x => rfl
    | case3 x y l ih => simp only [evens, doubled, List.map_cons, ih, parentHash]
  induction fuel generalizing ids with
  | zero => rfl
  | succ fuel ih => rw [calcRoot, climb, level, ih]

/-- The root of the hash tree over these ids. -/
def treeRoot (c : Crypto PKey) (ids : List (List UInt8)) : Buffer := (root adjacent (parentHash c) ids).head?

/-- What is hashed on the way up from these ids, in the tree and in `calcRoot`. -/
def hashedPairs (c : Crypto PKey) (ids : List (List UInt8)) : List (List UInt8 × List UInt8) :=
  joined doubled (parentHash c) (pad ids).length (pad ids) ++ joined adjacent (parentHash c)
  (pad ids).length (pad ids)

/-- SHA-256 has no collision among what is hashed. -/
def CollisionFree (c : Crypto PKey) (pairs : List (List UInt8 × List UInt8)) : Prop :=
  ∀ p ∈ pairs, ∀ q ∈ pairs, parentHash c p = parentHash c q → p = q

instance (pairs : List (List UInt8 × List UInt8)) : Decidable (CollisionFree c pairs) :=
  inferInstanceAs (Decidable (∀ p ∈ pairs, ∀ q ∈ pairs, parentHash c p = parentHash c q → p = q))

/-- What the root is for: without collisions the tree commits to all its ids. -/
theorem treeRoot_injective {ids ids' : List (List UInt8)} (length : ids.length = ids'.length)
    (apart : CollisionFree c (hashedPairs c ids ++ hashedPairs c ids'))
    (same : treeRoot c ids = treeRoot c ids') :
    ids = ids' := by
  obtain _ | ⟨id, rest⟩ := ids
  · exact (List.length_eq_zero_iff.mp length.symm).symm
  obtain _ | ⟨id', rest'⟩ := ids'
  · cases length
  obtain ⟨top, single⟩ : ∃ top, root adjacent (parentHash c) (id :: rest) = [top] :=
    root_singleton length_adjacent id rest
  obtain ⟨top', single'⟩ : ∃ top, root adjacent (parentHash c) (id' :: rest') = [top] :=
    root_singleton length_adjacent id' rest'
  obtain rfl : top = top' := by simpa [treeRoot, single, single'] using same
  have roots := single.trans single'.symm
  have sizes : (pad (id :: rest)).length = (pad (id' :: rest')).length := by rw [length_pad, length_pad, length]
  simp only [hashedPairs, List.mem_append, CollisionFree] at apart
  rw [root, root, ← sizes] at roots
  rw [← sizes] at apart
  refine pad_injective length (climb_adjacent_injective sizes (fun p member q member' => ?_) roots)
  exact apart p (Or.imp Or.inr Or.inr member) q (Or.imp Or.inr Or.inr member')

namespace Block

/-- The ids the tree is over: that of the coinbase, then those of the transactions. -/
def txIDs (c : Crypto PKey) (b : Block PKey) : Option (List (List UInt8)) := do
  let coinbase ← b.coinbase
  let (id, _) ← coinbase.calcTxID c
  let (ids, _) ← runAll (P2PKH.calcTxID c) b.txVector
  return id :: ids

/-- The root that `calcMerkleRoot` hands out. -/
def merkleRoot (c : Crypto PKey) (b : Block PKey) : Option Buffer := (b.calcMerkleRoot c).map Prod.fst

theorem txIDs_eq_some {b : Block PKey} {ids : List (List UInt8)} (known : b.txIDs c = some ids) :
    ∃ id rest, ids = id :: rest ∧ rest.length = b.txVector.length ∧
      b.merkleRoot c = some (root doubled (parentHash c) ids).head? := by
  cases has : b.coinbase with
  | none => simp [txIDs, has] at known
  | some coinbase =>
    simp only [txIDs, has, Option.bind_eq_bind, Option.bind_some, Option.bind_eq_some_iff] at known
    obtain ⟨⟨id, coinbase'⟩, first, ⟨rest, txVector⟩, others, result⟩ := known
    obtain rfl := Option.some.inj result
    have length : rest.length = b.txVector.length := by
      simp only [runAll, Option.bind_eq_bind, Option.bind_eq_some_iff] at others
      obtain ⟨parts, runs, pair⟩ := others
      obtain ⟨rfl, -⟩ := Prod.mk.inj (Option.some.inj pair)
      rw [List.length_map, length_of_mapM runs]
    refine ⟨id, rest, rfl, length, ?_⟩
    obtain ⟨top, single⟩ : ∃ top, root doubled (parentHash c) (id :: rest) = [top] :=
      root_singleton length_doubled id rest
    have climbs : calcRoot c (pad (id :: rest)).length (pad (id :: rest)) = [top] := by
      rw [calcRoot_eq, ← single, root]
    rw [pad] at climbs
    simp only [merkleRoot, calcMerkleRoot, has, first, others, Option.bind_eq_bind, Option.bind_some,
      climbs, single, Option.pure_def, Option.map_some, List.head?_cons]

/-- `calcMerkleRoot` is the root of the hash tree just for the blocks whose ids are all that of the
coinbase, which is the only id the root depends on. -/
theorem merkleRoot_commits_iff (c : Crypto PKey) (b b' : Block PKey) (ids ids' : List (List UInt8))
    (known : b.txIDs c = some ids) (known' : b'.txIDs c = some ids')
    (apart : CollisionFree c (hashedPairs c ids ++ hashedPairs c ids')) :
    (b.merkleRoot c = some (treeRoot c ids) ↔ ∀ id ∈ ids, ids.head? = some id) ∧
    (b.txVector.length = b'.txVector.length →
      ((b.merkleRoot c = b'.merkleRoot c → ids = ids') ↔ (ids.head? = ids'.head? → ids = ids'))) := by
  obtain ⟨id, rest, rfl, length, left⟩ := txIDs_eq_some known
  obtain ⟨id', rest', rfl, length', right⟩ := txIDs_eq_some known'
  obtain ⟨top, single⟩ : ∃ top, root doubled (parentHash c) (id :: rest) = [top] :=
    root_singleton length_doubled id rest
  obtain ⟨top', single'⟩ : ∃ top, root doubled (parentHash c) (id' :: rest') = [top] :=
    root_singleton length_doubled id' rest'
  obtain ⟨topTree, singleTree⟩ : ∃ top, root adjacent (parentHash c) (id :: rest) = [top] :=
    root_singleton length_adjacent id rest
  obtain ⟨more, padded⟩ := pad_cons id rest
  obtain ⟨more', padded'⟩ := pad_cons id' rest'
  have size := congrArg List.length padded
  have size' := congrArg List.length padded'
  simp only [length_pad, List.length_cons] at size size'
  simp only [hashedPairs, List.mem_append, CollisionFree] at apart
  refine ⟨?_, fun count => ?_⟩
  · have tops : b.merkleRoot c = some (treeRoot c (id :: rest)) ↔
        root doubled (parentHash c) (id :: rest) = root adjacent (parentHash c) (id :: rest) := by
      rw [left, treeRoot, single, singleTree]
      simp
    have all : (∀ x ∈ id :: rest, (id :: rest).head? = some x) ↔ ∀ x ∈ pad (id :: rest), x = id := by
      simp only [mem_pad, List.head?_cons, Option.some.injEq, eq_comm]
    rw [padded] at apart
    rw [tops, all, root, root, padded]
    exact climb_doubled_iff rfl (by simp) fun p member q member' => apart p (Or.inl member) q (Or.inl member')
  · have tops : b.merkleRoot c = b'.merkleRoot c ↔
        root doubled (parentHash c) (id :: rest) = root doubled (parentHash c) (id' :: rest') := by
      rw [left, right, single, single']
      simp
    have sizes : more.length = more'.length := by omega
    have heads : root doubled (parentHash c) (id :: rest) = root doubled (parentHash c) (id' :: rest') ↔
      id = id' := by
      rw [root, root, padded, padded', List.length_cons, List.length_cons, ← sizes]
      rw [padded, padded', List.length_cons, List.length_cons, ← sizes] at apart
      refine climb_doubled_same_iff sizes (by omega) fun p member q member' => ?_
      exact apart p (Or.imp Or.inl Or.inl member) q (Or.imp Or.inl Or.inl member')
    rw [tops, heads]
    simp

/-- The digest of a polynomial in the bytes, with one key. -/
def mixing : Crypto Unit where
  sha1 _ := List.replicate 20 0
  sha256 l := Bytes.be 32 (l.foldl (fun h a => h * 16777619 + a.toNat + 1) 0)
  toPkey _ := some ()
  toRawPubKey _ := List.replicate 88 1
  verify _ _ _ := true
  length_sha1 := length_zeros20
  length_sha256 := by exact length_mixed

/-- A transaction that spends another output than the sample does. -/
def otherOut : PrevOut := ⟨List.Vector.replicate 32 8, 0⟩

/-- The ids of the sample block that spends these outputs. -/
def sampleIDs (ins : List PrevOut) : List (List UInt8) := ((sampleBlock ins).txIDs mixing).getD []

theorem merkleRoot_commits_iff_sample :
    ((sampleBlock [sampleOut]).merkleRoot mixing = some (treeRoot mixing (sampleIDs [sampleOut])) ↔
      ∀ id ∈ sampleIDs [sampleOut], (sampleIDs [sampleOut]).head? = some id) ∧
    ((sampleBlock [sampleOut]).txVector.length = (sampleBlock [otherOut]).txVector.length →
      (((sampleBlock [sampleOut]).merkleRoot mixing = (sampleBlock [otherOut]).merkleRoot mixing →
          sampleIDs [sampleOut] = sampleIDs [otherOut]) ↔
        ((sampleIDs [sampleOut]).head? = (sampleIDs [otherOut]).head? →
        sampleIDs [sampleOut] = sampleIDs [otherOut]))) :=
  merkleRoot_commits_iff mixing _ _ _ _ (by decide +kernel) (by decide +kernel) (by decide +kernel)

/-- Two blocks with other transactions and one root, which is the root of neither tree. -/
theorem merkleRoot_not_committing :
    (sampleBlock [sampleOut]).txIDs mixing ≠ (sampleBlock [otherOut]).txIDs mixing ∧
    (sampleBlock [sampleOut]).merkleRoot mixing = (sampleBlock [otherOut]).merkleRoot mixing ∧
    (sampleBlock [sampleOut]).merkleRoot mixing ≠ ((sampleBlock [sampleOut]).txIDs mixing).map
      (treeRoot mixing) := by
  decide +kernel

end Block

end MiyaCore.Chain
