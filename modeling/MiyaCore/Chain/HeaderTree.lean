import Mathlib.Data.List.Flatten
import MiyaCore.Chain.HeaderSync

/-!
# Trees of headers

Where the subchains of a manager without a stop hash end, once a tree of headers has been delivered.
-/

namespace MiyaCore.Chain
open Relation BlockHeaderPool

variable {PKey : Type} {c : Crypto PKey} {startBlockHeader : BlockHeader} {headers : List BlockHeader}

/-- Headers that make up a tree with the start header at its root. -/
structure HeaderTree (c : Crypto PKey) (startBlockHeader : BlockHeader)
    (headers : List BlockHeader) : Prop where
  apart : startBlockHeader ∉ headers
  connected : ∀ h ∈ headers, ReflTransGen (Links c headers) startBlockHeader h

/-- A header of the tree that no other is on top of. -/
def IsLeaf (c : Crypto PKey) (startBlockHeader : BlockHeader) (headers : List BlockHeader)
    (x : BlockHeader) : Prop :=
  x ∈ startBlockHeader :: headers ∧ ∀ b ∈ headers, b.previousBlockHeaderHash.toList ≠ x.headerHash c

/-- The digests tell the headers of the tree apart. -/
structure Distinguishes (c : Crypto PKey) (startBlockHeader : BlockHeader)
    (headers : List BlockHeader) : Prop where
  headerHash : ∀ a ∈ startBlockHeader :: headers, ∀ b ∈ startBlockHeader :: headers,
    a.headerHash c = b.headerHash c → a = b
  chainDigest : ∀ a ∈ startBlockHeader :: headers, ∀ b ∈ startBlockHeader :: headers,
    c.sha1 (startBlockHeader.headerHash c ++ a.headerHash c) = c.sha1
    (startBlockHeader.headerHash c ++ b.headerHash c) → a = b

/-- What the pool has of the headers delivered: those without a previous block are not taken. -/
def pooled (delivered : List BlockHeader) : List BlockHeader := delivered.filter fun h => h.prevBlockHash.isSome

/-- The headers of a batch that come second for their previous block, after the batches before. -/
def seconds (before : List (List BlockHeader)) (batch : List BlockHeader) : List BlockHeader :=
  (VirtualHeaderSyncManager.pushAll (pooled before.flatten) batch).2

/-- Where single entries of the pool lead to in the end. -/
def Settles (c : Crypto PKey) (pool : List BlockHeader) (a b : BlockHeader) : Prop :=
  ReflTransGen (Extends c pool) a b ∧ ∀ x, ¬Extends c pool b x

/-- Where batches leave one who moves on from the start header after each of them. -/
inductive Front (c : Crypto PKey) (startBlockHeader : BlockHeader) :
    List (List BlockHeader) → BlockHeader → Prop
  | start : Front c startBlockHeader [] startBlockHeader
  | add {batches : List (List BlockHeader)} {batch : List BlockHeader} {a b : BlockHeader} :
    Front c startBlockHeader batches a → Settles c (pooled (batches ++ [batch]).flatten) a b →
    Front c startBlockHeader (batches ++ [batch]) b

/-- A delivery of a tree that ends with a subchain on each leaf. A header that comes second is a leaf, or the
front stands at it; the front ends on a leaf; and every leaf but this one comes second. -/
structure Orderly (c : Crypto PKey) (startBlockHeader : BlockHeader) (headers : List BlockHeader)
    (batches : List (List BlockHeader)) : Prop where
  seconds : ∀ before batch after front h, batches = before ++ batch :: after →
    Front c startBlockHeader before front → h ∈ seconds before batch → h = front ∨
    IsLeaf c startBlockHeader headers h
  front : ∃ front, Front c startBlockHeader batches front ∧ IsLeaf c startBlockHeader headers front
  leaves : ∀ x, IsLeaf c startBlockHeader headers x → Front c startBlockHeader batches x ∨
    ∃ before batch after, batches = before ++ batch :: after ∧ x ∈ Chain.seconds before batch

theorem Extends.unique {pool : List BlockHeader} : Relator.RightUnique (Extends c pool) := by
  intro a b b' left right
  exact (List.cons.inj (left.symm.trans right)).1

theorem Settles.unique {pool : List BlockHeader} {a b b' : BlockHeader} (left : Settles c pool a b)
    (right : Settles c pool a b') :
    b = b' := by
  rcases ReflTransGen.total_of_right_unique Extends.unique left.1 right.1 with path | path
  · rcases path.cases_head with same | ⟨x, step, -⟩
    · exact same
    · exact absurd step (left.2 x)
  · rcases path.cases_head with same | ⟨x, step, -⟩
    · exact same.symm
    · exact absurd step (right.2 x)

theorem Front.unique {batches : List (List BlockHeader)} {a b : BlockHeader}
    (left : Front c startBlockHeader batches a) (right : Front c startBlockHeader batches b) : a = b := by
  induction left generalizing b with
  | start =>
    generalize none : ([] : List (List BlockHeader)) = batches at right
    cases right with
    | start => rfl
    | add before settles => simp at none
  | @add batches batch a' a before settles ih =>
    generalize same : batches ++ [batch] = all at right
    cases right with
    | start => simp at same
    | add before' settles' =>
      obtain ⟨rfl, last⟩ := List.append_inj' same rfl
      obtain rfl := List.singleton_inj.mp last
      obtain rfl := ih before'
      exact settles.unique settles'

theorem pooled_append (l l' : List BlockHeader) : pooled (l ++ l') = pooled l ++ pooled l' :=
  List.filter_append ..

theorem pooled_subset (l : List BlockHeader) : pooled l ⊆ l := List.filter_subset_self l

/-- Moving on with the front follows links of the tree. -/
theorem Settles.links {delivered : List BlockHeader} {a b : BlockHeader}
    (settles : Settles c (pooled delivered) a b) (within : delivered ⊆ headers) :
    ReflTransGen (Links c headers) a b :=
  ReflTransGen.mono (fun _ _ step => (Extends.links step).mono
    (List.Subset.trans (pooled_subset delivered) within)) _ _ settles.1

theorem flatten_subset {before after : List (List BlockHeader)} (within : (before ++ after).flatten ⊆ headers) :
    before.flatten ⊆ headers := by
  rw [List.flatten_append] at within
  exact List.Subset.trans (List.subset_append_left _ _) within

/-- The front after some of the batches, and the way it goes from there. -/
theorem Front.before {before after : List (List BlockHeader)} {b : BlockHeader}
    (front : Front c startBlockHeader (before ++ after) b) (within : (before ++ after).flatten ⊆ headers) :
    ∃ a, Front c startBlockHeader before a ∧ ReflTransGen (Links c headers) a b := by
  induction after using List.reverseRecOn generalizing b with
  | nil => exact ⟨b, by simpa using front, .refl⟩
  | append_singleton after batch ih =>
    rw [← List.append_assoc] at front within
    generalize all : before ++ after ++ [batch] = batches at front
    cases front with
    | start => simp at all
    | add earlier settles =>
      obtain ⟨rfl, last⟩ := List.append_inj' all rfl
      obtain rfl := List.singleton_inj.mp last
      obtain ⟨a, first, path⟩ := ih earlier (flatten_subset within)
      exact ⟨a, first, path.trans (settles.links within)⟩

/-- There is no way on from a leaf. -/
theorem IsLeaf.stays {x y : BlockHeader} (leaf : IsLeaf c startBlockHeader headers x)
    (path : ReflTransGen (Links c headers) x y) :
    x = y := by
  rcases path.cases_head with same | ⟨z, step, -⟩
  · exact same
  · exact absurd step.2 (leaf.2 z step.1)

/-- Headers as many links away from the start. -/
inductive Depth (c : Crypto PKey) (startBlockHeader : BlockHeader) (headers : List BlockHeader) :
    Nat → BlockHeader → Prop
  | start : Depth c startBlockHeader headers 0 startBlockHeader
  | link {n : Nat} {a b : BlockHeader} : Depth c startBlockHeader headers n a → Links c headers a b →
    Depth c startBlockHeader headers (n + 1) b

theorem Depth.mem {n : Nat} {x : BlockHeader} (depth : Depth c startBlockHeader headers n x) :
    x ∈ startBlockHeader :: headers := by
  cases depth with
  | start => exact List.mem_cons_self
  | link before links => exact List.mem_cons_of_mem _ links.1

/-- In a tree a header has one depth only: its previous block is one header. -/
theorem Depth.unique (tree : HeaderTree c startBlockHeader headers)
    (tells : Distinguishes c startBlockHeader headers) {n n' : Nat} {x : BlockHeader}
    (left : Depth c startBlockHeader headers n x) (right : Depth c startBlockHeader headers n' x) : n = n' := by
  induction left generalizing n' with
  | start =>
    cases right with
    | start => rfl
    | link before links => exact absurd links.1 tree.apart
  | link before links ih =>
    cases right with
    | start => exact absurd links.1 tree.apart
    | link before' links' =>
      obtain rfl := tells.headerHash _ before.mem _ before'.mem (links.2.symm.trans links'.2)
      rw [ih before']

theorem HeaderTree.depth (tree : HeaderTree c startBlockHeader headers) {x : BlockHeader}
    (member : x ∈ startBlockHeader :: headers) :
    ∃ n, Depth c startBlockHeader headers n x := by
  have path : ReflTransGen (Links c headers) startBlockHeader x := by
    rcases List.mem_cons.mp member with rfl | inside
    · exact .refl
    · exact tree.connected x inside
  induction path with
  | refl => exact ⟨0, .start⟩
  | tail before links ih =>
    obtain ⟨n, depth⟩ := ih (by
      rcases before.cases_tail with rfl | ⟨y, -, last⟩
      · exact List.mem_cons_self
      · exact List.mem_cons_of_mem _ last.1)
    exact ⟨n + 1, depth.link links⟩

/-- The tree has a height. -/
theorem HeaderTree.height (tree : HeaderTree c startBlockHeader headers)
    (tells : Distinguishes c startBlockHeader headers) :
    ∃ height, ∀ n x, Depth c startBlockHeader headers n x → n ≤ height := by
  have bounded : ∀ l : List BlockHeader, ∃ height, ∀ x ∈ l, ∀ n, Depth c startBlockHeader headers n x →
    n ≤ height := by
    intro l
    induction l with
    | nil => exact ⟨0, nofun⟩
    | cons x rest ih =>
      obtain ⟨height, bound⟩ := ih
      by_cases placed : ∃ n, Depth c startBlockHeader headers n x
      · obtain ⟨n, depth⟩ := placed
        refine ⟨max height n, List.forall_mem_cons.mpr ⟨fun n' depth' => ?_, fun y member n' depth' => ?_⟩⟩
        · rw [depth'.unique tree tells depth]
          exact Nat.le_max_right _ _
        · exact (bound y member n' depth').trans (Nat.le_max_left _ _)
      · exact ⟨height, List.forall_mem_cons.mpr ⟨fun n depth => absurd ⟨n, depth⟩ placed, bound⟩⟩
  obtain ⟨height, bound⟩ := bounded (startBlockHeader :: headers)
  exact ⟨height, fun n x depth => bound x depth.mem n depth⟩

/-- A subchain without a stop hash comes to its end within the height of the tree. -/
theorem VirtualHeaderSubChain.extend_ends {pool : List BlockHeader} {height : Nat} (within : pool ⊆ headers)
    (bound : ∀ n x, Depth c startBlockHeader headers n x → n ≤ height) :
    ∀ {fuel n : Nat} {s : VirtualHeaderSubChain},
    Depth c startBlockHeader headers n s.latestBlockHeader → s.stopHash = none → height < n + fuel →
      ∃ r, s.extend c pool fuel = some r
  | 0, n, s, depth, _, enough => by
    have := bound n _ depth
    omega
  | fuel + 1, n, s, depth, endless, enough => by
    rw [extend, if_neg (by simp [endless])]
    split
    next none => exact ⟨_, rfl⟩
    next next found =>
      have links : Links c headers s.latestBlockHeader next := (Extends.links found).mono within
      exact extend_ends within bound (depth.link links) endless (by omega)
    next => exact ⟨_, rfl⟩

/-- A header that comes second has another one beside it in the pool. -/
theorem second_count {pool batch : List BlockHeader} {h : BlockHeader}
    (second : h ∈ (VirtualHeaderSyncManager.pushAll pool batch).2) :
    h ∈ batch ∧
      2 ≤ (findByPrevBlockHash (VirtualHeaderSyncManager.pushAll pool batch).1
      h.previousBlockHeaderHash.toList).length := by
  induction batch generalizing pool with
  | nil => cases second
  | cons target rest ih =>
    rw [VirtualHeaderSyncManager.pushAll] at second ⊢
    by_cases later : h ∈ (VirtualHeaderSyncManager.pushAll (push pool target).2 rest).2
    · exact ⟨List.mem_cons_of_mem _ (ih later).1, (ih later).2⟩
    · dsimp only at second ⊢
      split_ifs at second with counted
      · obtain rfl := (List.mem_cons.mp second).resolve_right later
        refine ⟨List.mem_cons_self, ?_⟩
        rw [VirtualHeaderSyncManager.pushAll_pool]
        cases null : h.prevBlockHash with
        | none => simp [push, null] at counted
        | some prevBlockHash =>
          obtain rfl : h.previousBlockHeaderHash.toList = prevBlockHash := by
            rw [BlockHeader.prevBlockHash] at null
            split_ifs at null
            exact Option.some.inj null
          have one : 1 ≤ (findByPrevBlockHash pool h.previousBlockHeaderHash.toList).length := by
            by_contra none
            have zero : (findByPrevBlockHash pool h.previousBlockHeaderHash.toList).length = 0 := by omega
            simp [push, null, zero, toShort] at counted
          simp only [push, null, findByPrevBlockHash, List.filter_append, List.length_append] at one ⊢
          simp
          omega
      · exact absurd second later

namespace VirtualHeaderSyncManager

variable {set subchains : List VirtualHeaderSubChain}

/-- What was inserted has a digest the set did not have. -/
theorem mem_insertAll {x : VirtualHeaderSubChain} (member : x ∈ subchains.foldl (insert c) set) :
    x ∈ set ∨ x ∈ subchains ∧ ∀ other ∈ set, other.chainDigest c ≠ x.chainDigest c := by
  induction subchains generalizing set with
  | nil => exact Or.inl member
  | cons s rest ih =>
    by_cases there : ∃ other ∈ set, other.chainDigest c = s.chainDigest c
    · obtain ⟨other, inSet, same⟩ := there
      rw [List.foldl_cons, insert_present inSet same] at member
      exact (ih member).imp_right fun new => ⟨List.mem_cons_of_mem _ new.1, new.2⟩
    · push Not at there
      rw [List.foldl_cons, insert_absent there] at member
      rcases ih member with old | ⟨later, absent⟩
      · rcases List.mem_append.mp old with old | new
        · exact Or.inl old
        · obtain rfl := List.mem_singleton.mp new
          exact Or.inr ⟨List.mem_cons_self, there⟩
      · exact Or.inr ⟨List.mem_cons_of_mem _ later,
          fun other inSet => absent other (List.mem_append_left _ inSet)⟩

theorem subset_insertAll : set ⊆ subchains.foldl (insert c) set := by
  induction subchains generalizing set with
  | nil => exact List.Subset.refl _
  | cons s rest ih => exact List.Subset.trans (subset_insert s) ih

/-- Each digest is there in the end. -/
theorem exists_insertAll {x : VirtualHeaderSubChain} (member : x ∈ subchains) :
    ∃ y ∈ subchains.foldl (insert c) set, y.chainDigest c = x.chainDigest c := by
  induction subchains generalizing set with
  | nil => cases member
  | cons s rest ih =>
    rcases List.mem_cons.mp member with rfl | later
    · rw [List.foldl_cons]
      by_cases there : ∃ other ∈ set, other.chainDigest c = x.chainDigest c
      · obtain ⟨other, inSet, same⟩ := there
        exact ⟨other, subset_insertAll (subset_insert _ inSet), same⟩
      · push Not at there
        rw [insert_absent there]
        exact ⟨x, subset_insertAll (List.mem_append_right _ (List.mem_singleton_self _)), rfl⟩
    · exact ih later

end VirtualHeaderSyncManager

/-- A header that got a subchain: one that came second, with the front elsewhere. -/
def Built (c : Crypto PKey) (startBlockHeader : BlockHeader) (batches : List (List BlockHeader))
    (h : BlockHeader) : Prop :=
  ∃ before batch after front, batches = before ++ batch :: after ∧ Front c startBlockHeader before front ∧
    h ∈ seconds before batch ∧ h ≠ front

theorem built_append {batches : List (List BlockHeader)} {batch : List BlockHeader} {h front : BlockHeader}
    (stands : Front c startBlockHeader batches front) :
    Built c startBlockHeader (batches ++ [batch]) h ↔ Built c startBlockHeader batches h ∨
      h ∈ seconds batches batch ∧ h ≠ front := by
  constructor
  · rintro ⟨before, b, after, front', all, stood, second, apart⟩
    induction after using List.reverseRecOn with
    | nil =>
      obtain ⟨rfl, last⟩ := List.append_inj' all rfl
      obtain rfl := List.singleton_inj.mp last
      obtain rfl := stood.unique stands
      exact Or.inr ⟨second, apart⟩
    | append_singleton after last =>
      rw [← List.cons_append, ← List.append_assoc] at all
      obtain ⟨rfl, -⟩ := List.append_inj' all rfl
      exact Or.inl ⟨before, b, after, front', rfl, stood, second, apart⟩
  · rintro (⟨before, b, after, front', rfl, rest⟩ | ⟨second, apart⟩)
    · exact ⟨before, b, after ++ [batch], front', by simp, rest⟩
    · exact ⟨batches, batch, [], front, rfl, stands, second, apart⟩

theorem pushAll_pooled (before : List (List BlockHeader)) (batch : List BlockHeader) :
    (VirtualHeaderSyncManager.pushAll (pooled before.flatten) batch).1 = pooled
      (before ++ [batch]).flatten := by
  rw [VirtualHeaderSyncManager.pushAll_pool, List.flatten_append, pooled_append]
  simp [pooled]

/-- A header that got a subchain is one of the delivered, beside another one in the pool. -/
theorem Built.second {batches : List (List BlockHeader)} {h : BlockHeader}
    (built : Built c startBlockHeader batches h) :
    h ∈ batches.flatten ∧
      2 ≤ (findByPrevBlockHash (pooled batches.flatten) h.previousBlockHeaderHash.toList).length := by
  obtain ⟨before, batch, after, front, rfl, -, second, -⟩ := built
  obtain ⟨member, count⟩ := second_count second
  rw [pushAll_pooled] at count
  refine ⟨by simp [member], ?_⟩
  have split : (before ++ batch :: after).flatten = (before ++ [batch]).flatten ++ after.flatten := by simp
  rw [split, pooled_append, findByPrevBlockHash, List.filter_append, List.length_append]
  exact Nat.le_add_right_of_le count

/-- The front never comes to a header that has a subchain already. -/
theorem Front.not_built {batches : List (List BlockHeader)} {front : BlockHeader}
    (stands : Front c startBlockHeader batches front) :
    ¬Built c startBlockHeader batches front := by
  induction stands with
  | start =>
    rintro ⟨before, batch, after, front, none, -⟩
    simp at none
  | @add batches batch a b before settles ih =>
    intro built
    rcases settles.1.cases_tail with rfl | ⟨x, -, last⟩
    · rcases (built_append before).mp built with old | ⟨-, apart⟩
      · exact ih old
      · exact apart rfl
    · have count := built.second.2
      rw [last.links.2, last] at count
      simp at count

namespace VirtualHeaderSyncManager

variable {m : VirtualHeaderSyncManager} {batches : List (List BlockHeader)} {front : BlockHeader}

/-- The subchain at the front, or one of those that stand at other headers. -/
def IsSubchain (c : Crypto PKey) (startBlockHeader front : BlockHeader) (others : BlockHeader → Prop)
    (s : VirtualHeaderSubChain) : Prop :=
  s = ⟨startBlockHeader, front, none, false⟩ ∨ ∃ h, others h ∧
  s = ⟨startBlockHeader, h, some (h.headerHash c), true⟩

/-- Subchains with one digest are the same. -/
theorem IsSubchain.eq {others : BlockHeader → Prop} {s s' : VirtualHeaderSubChain}
    (tells : Distinguishes c startBlockHeader headers) (inside : front ∈ startBlockHeader :: headers)
    (within : ∀ h, others h → h ∈ startBlockHeader :: headers) (apart : ¬others front)
    (left : IsSubchain c startBlockHeader front others s)
    (right : IsSubchain c startBlockHeader front others s')
    (same : s.chainDigest c = s'.chainDigest c) : s = s' := by
  rcases left with rfl | ⟨h, isOther, rfl⟩
  · rcases right with rfl | ⟨h', isOther', rfl⟩
    · rfl
    · obtain rfl := tells.chainDigest _ inside _ (within h' isOther') same
      exact absurd isOther' apart
  · rcases right with rfl | ⟨h', isOther', rfl⟩
    · obtain rfl := tells.chainDigest _ (within h isOther) _ inside same
      exact absurd isOther apart
    · obtain rfl := tells.chainDigest _ (within h isOther) _ (within h' isOther') same
      rfl

/-- The manager after some batches: a subchain at the front, and one on each header that came second
elsewhere. -/
structure Managed (c : Crypto PKey) (startBlockHeader : BlockHeader) (batches : List (List BlockHeader))
    (m : VirtualHeaderSyncManager) (front : BlockHeader) : Prop where
  stands : Front c startBlockHeader batches front
  start : m.startBlockHeader = startBlockHeader
  pool : m.blockHeaderPool = pooled batches.flatten
  set : ∀ s, s ∈ m.headerSubchainSet ↔ IsSubchain c startBlockHeader front (Built c startBlockHeader batches) s

theorem create_managed : Managed c startBlockHeader [] (create startBlockHeader none) startBlockHeader := by
  refine ⟨.start, rfl, rfl, fun s => ?_⟩
  simp [create, Built, IsSubchain]

/-- The front and the headers with a subchain are headers of the tree. -/
theorem front_mem (stands : Front c startBlockHeader batches front) (within : batches.flatten ⊆ headers) :
    front ∈ startBlockHeader :: headers := by
  have first : ([] ++ batches : List (List BlockHeader)) = batches := rfl
  obtain ⟨a, beginning, path⟩ := Front.before (first ▸ stands) within
  obtain rfl := beginning.unique .start
  rcases path.cases_tail with rfl | ⟨x, -, last⟩
  · exact List.mem_cons_self
  · exact List.mem_cons_of_mem _ last.1

theorem built_mem {h : BlockHeader} (built : Built c startBlockHeader batches h)
    (within : batches.flatten ⊆ headers) :
    h ∈ startBlockHeader :: headers := List.mem_cons_of_mem _ (within built.second.1)

variable {batch : List BlockHeader}

/-- The set with the subchains of the new headers that came second. -/
theorem Managed.mem_forked (managed : Managed c startBlockHeader batches m front)
    (tells : Distinguishes c startBlockHeader headers) (within : (batches ++ [batch]).flatten ⊆ headers)
    (s : VirtualHeaderSubChain) :
    s ∈ forked c m (pushAll m.blockHeaderPool batch).2 ↔
      IsSubchain c startBlockHeader front (Built c startBlockHeader (batches ++ [batch])) s := by
  have news : forked c m (pushAll m.blockHeaderPool batch).2 =
      ((seconds batches batch).map fun h => (⟨startBlockHeader, h, some (h.headerHash c),
      true⟩ : VirtualHeaderSubChain)).foldl
        (insert c) m.headerSubchainSet := by
    rw [List.foldl_map, forked, managed.pool, ← managed.start]
    rfl
  have sub := flatten_subset within
  have old : ∀ s, s ∈ m.headerSubchainSet → IsSubchain c startBlockHeader front
    (Built c startBlockHeader (batches ++ [batch])) s := by
    intro s member
    rcases (managed.set s).mp member with isFront | ⟨h, built, same⟩
    · exact Or.inl isFront
    · exact Or.inr ⟨h, (built_append managed.stands).mpr (Or.inl built), same⟩
  have forward : ∀ s, s ∈ forked c m (pushAll m.blockHeaderPool batch).2 →
      IsSubchain c startBlockHeader front (Built c startBlockHeader (batches ++ [batch])) s := by
    intro s member
    rw [news] at member
    rcases mem_insertAll member with there | ⟨new, absent⟩
    · exact old s there
    · obtain ⟨h, second, rfl⟩ := List.mem_map.mp new
      refine Or.inr ⟨h, (built_append managed.stands).mpr (Or.inr ⟨second, ?_⟩), rfl⟩
      rintro rfl
      exact absent _ ((managed.set _).mpr (Or.inl rfl)) rfl
  refine ⟨forward s, fun is => ?_⟩
  have apart : ¬Built c startBlockHeader (batches ++ [batch]) front := by
    rw [built_append managed.stands]
    rintro (built | ⟨-, apart⟩)
    · exact managed.stands.not_built built
    · exact apart rfl
  rw [news]
  rcases is with rfl | ⟨h, built, rfl⟩
  · exact subset_insertAll ((managed.set _).mpr (Or.inl rfl))
  · rcases (built_append managed.stands).mp built with before | ⟨second, -⟩
    · exact subset_insertAll ((managed.set _).mpr (Or.inr ⟨h, before, rfl⟩))
    · have new : (⟨startBlockHeader, h, some (h.headerHash c), true⟩ : VirtualHeaderSubChain) ∈
          (seconds batches batch).map fun h => ⟨startBlockHeader, h, some (h.headerHash c),
          true⟩ := List.mem_map.mpr ⟨h, second, rfl⟩
      obtain ⟨y, member, same⟩ : ∃ y ∈ forked c m (pushAll m.blockHeaderPool batch).2, y.chainDigest c = _ := by
        rw [news]
        exact exists_insertAll new
      have equal := (forward y member).eq tells (front_mem managed.stands sub)
        (fun h built => built_mem built within) apart (Or.inr ⟨h, built, rfl⟩) same
      rwa [← news, ← equal]

/-- A subchain without a stop hash that is extended comes to where the pool leads it, and is not at its stop. -/
theorem settles_of_extend {pool : List BlockHeader} {fuel : Nat} {a : BlockHeader}
    {r : Bool × VirtualHeaderSubChain}
    (run : VirtualHeaderSubChain.extend c pool fuel ⟨startBlockHeader, a, none, false⟩ = some r) :
    ∃ b, Settles c pool a b ∧ r = (false, ⟨startBlockHeader, b, none, false⟩) := by
  obtain ⟨flag, s⟩ := r
  have moved := VirtualHeaderSubChain.extend_run run
  have same := moved.stopHash
  cases flag with
  | true => exact absurd (same.symm.trans (moved.stoped rfl).2) nofun
  | false =>
    obtain ⟨going, -, ends⟩ := moved.held rfl
    obtain ⟨start, latest, stopHash, isStoped⟩ := s
    obtain rfl : start = startBlockHeader := moved.start
    obtain rfl : stopHash = none := same
    obtain rfl : isStoped = false := going
    exact ⟨latest, ⟨moved.path, ends⟩, rfl⟩

/-- An `add` with as many steps as the tree is high comes to its end, with the subchains that are to be
there. -/
theorem Managed.add {height fuel : Nat} (managed : Managed c startBlockHeader batches m front)
    (tree : HeaderTree c startBlockHeader headers) (tells : Distinguishes c startBlockHeader headers)
    (bound : ∀ n x, Depth c startBlockHeader headers n x → n ≤ height) (enough : height ≤ fuel)
    (within : (batches ++ [batch]).flatten ⊆ headers) (enumeration : Enumeration) :
    ∃ m' front', m.add c (fuel + 1) enumeration batch = some m' ∧
      Managed c startBlockHeader (batches ++ [batch]) m' front' := by
  have poolEq : (pushAll m.blockHeaderPool batch).1 = pooled (batches ++ [batch]).flatten := by
    rw [managed.pool, pushAll_pooled]
  have poolSub := List.Subset.trans (pooled_subset (batches ++ [batch]).flatten) within
  have sub := flatten_subset within
  obtain ⟨n, depth⟩ := tree.depth (front_mem managed.stands sub)
  obtain ⟨r, headRun⟩ : ∃ r, VirtualHeaderSubChain.extend c (pooled (batches ++ [batch]).flatten) (fuel + 1)
      ⟨startBlockHeader, front, none, false⟩ = some r :=
    VirtualHeaderSubChain.extend_ends poolSub bound depth rfl (by omega)
  obtain ⟨front', settles, rfl⟩ := settles_of_extend headRun
  have each : ∀ s, s ∈ forked c m (pushAll m.blockHeaderPool batch).2 →
      ∃ r, s.extend c (pushAll m.blockHeaderPool batch).1 (fuel + 1) = some r := by
    intro s member
    rcases (managed.mem_forked tells within s).mp member with rfl | ⟨h, -, rfl⟩
    · exact ⟨_, poolEq ▸ headRun⟩
    · exact ⟨_, VirtualHeaderSubChain.extend_stop fuel rfl⟩
  obtain ⟨extended, ran⟩ := exists_mapM fun s listed => each s ((enumeration.perm _).mem_iff.mp listed)
  obtain ⟨m', added⟩ : ∃ m', Added c (fuel + 1) enumeration m batch extended m' :=
    ⟨⟨m.startBlockHeader, m.stopHash, (pushAll m.blockHeaderPool batch).1,
      (extended.map Prod.snd).foldl (insert c) [],
      if extended.any Prod.fst then .finished else m.status⟩, ran, rfl, rfl, rfl, rfl, rfl⟩
  have stands' : Front c startBlockHeader (batches ++ [batch]) front' := managed.stands.add settles
  have members : ∀ s, s ∈ extended.map Prod.snd ↔
    IsSubchain c startBlockHeader front' (Built c startBlockHeader (batches ++ [batch])) s := by
    intro s
    simp only [List.mem_map, added.mem_extended, managed.mem_forked tells within, poolEq]
    constructor
    · rintro ⟨r, ⟨s₀, rfl | ⟨h, built, rfl⟩, going⟩, rfl⟩
      · rw [headRun] at going
        exact Or.inl (by rw [← Option.some.inj going])
      · rw [VirtualHeaderSubChain.extend_stop fuel rfl] at going
        exact Or.inr ⟨h, built, by rw [← Option.some.inj going]⟩
    · rintro (rfl | ⟨h, built, rfl⟩)
      · exact ⟨_, ⟨_, Or.inl rfl, headRun⟩, rfl⟩
      · exact ⟨_, ⟨_, Or.inr ⟨h, built, rfl⟩, VirtualHeaderSubChain.extend_stop fuel rfl⟩, rfl⟩
  refine ⟨m', front', add_succ_iff.mpr ⟨extended, added⟩, stands', added.start.trans managed.start,
    added.pool.trans poolEq, fun s => ?_⟩
  rw [added.set]
  constructor
  · intro member
    exact (members s).mp ((mem_insertAll member).resolve_left nofun).1
  · intro is
    obtain ⟨y, member, same⟩ : ∃ y ∈ (extended.map Prod.snd).foldl (insert c) [],
      y.chainDigest c = s.chainDigest c :=
      exists_insertAll ((members s).mpr is)
    have isToo := (members y).mp ((mem_insertAll member).resolve_left nofun).1
    rwa [← isToo.eq tells (front_mem stands' within)
      (fun h built => built_mem built within) stands'.not_built is same]

theorem Managed.addAll {height fuel : Nat} {calls : List (Enumeration × List BlockHeader)}
    (managed : Managed c startBlockHeader batches m front) (tree : HeaderTree c startBlockHeader headers)
    (tells : Distinguishes c startBlockHeader headers)
    (bound : ∀ n x, Depth c startBlockHeader headers n x → n ≤ height) (enough : height ≤ fuel)
    (within : (batches ++ calls.map Prod.snd).flatten ⊆ headers) :
    ∃ m' front', m.addAll c (fuel + 1) calls = some m' ∧
      Managed c startBlockHeader (batches ++ calls.map Prod.snd) m' front' := by
  induction calls generalizing m batches front with
  | nil => exact ⟨m, front, rfl, by simpa using managed⟩
  | cons call rest ih =>
    have split : batches ++ (call :: rest).map Prod.snd = batches ++ [call.2] ++ rest.map Prod.snd := by simp
    rw [split] at within ⊢
    obtain ⟨next, front', run, nextManaged⟩ :=
      managed.add tree tells bound enough (flatten_subset within) call.1
    obtain ⟨m', front'', more, ends⟩ := ih nextManaged within
    exact ⟨m', front'', addAll_cons.mpr ⟨next, run, more⟩, ends⟩

/-- The latest headers of the managed subchains. -/
def latestHeaders (m : VirtualHeaderSyncManager) : List BlockHeader :=
  m.headerSubchainSet.map VirtualHeaderSubChain.latestBlockHeader

theorem Managed.mem_latestHeaders (managed : Managed c startBlockHeader batches m front) (x : BlockHeader) :
    x ∈ m.latestHeaders ↔ x = front ∨ Built c startBlockHeader batches x := by
  simp only [latestHeaders, List.mem_map, managed.set, IsSubchain]
  constructor
  · rintro ⟨s, rfl | ⟨h, built, rfl⟩, rfl⟩
    · exact Or.inl rfl
    · exact Or.inr built
  · rintro (rfl | built)
    · exact ⟨_, Or.inl rfl, rfl⟩
    · exact ⟨_, Or.inr ⟨x, built, rfl⟩, rfl⟩

/-- The subchains are on the leaves just when the delivery is orderly. -/
theorem orderly_iff (stands : Front c startBlockHeader batches front) (within : batches.flatten ⊆ headers) :
    (∀ x, x = front ∨ Built c startBlockHeader batches x ↔ IsLeaf c startBlockHeader headers x) ↔
      Orderly c startBlockHeader headers batches := by
  constructor
  · intro same
    refine ⟨fun before batch after front' h all stood second => ?_,
      ⟨front, stands, (same front).mp (Or.inl rfl)⟩, fun x leaf => ?_⟩
    · by_cases here : h = front'
      · exact Or.inl here
      · exact Or.inr ((same h).mp (Or.inr ⟨before, batch, after, front', all, stood, second, here⟩))
    · rcases (same x).mpr leaf with rfl | ⟨before, batch, after, front', all, -, second, -⟩
      · exact Or.inl stands
      · exact Or.inr ⟨before, batch, after, all, second⟩
  · intro orderly x
    constructor
    · rintro (rfl | ⟨before, batch, after, front', all, stood, second, apart⟩)
      · obtain ⟨front', stands', leaf⟩ := orderly.front
        rwa [stands.unique stands']
      · exact (orderly.seconds before batch after front' x all stood second).resolve_left apart
    · intro leaf
      rcases orderly.leaves x leaf with last | ⟨before, batch, after, rfl, second⟩
      · exact Or.inl (last.unique stands)
      · obtain ⟨front', stood, path⟩ := stands.before within
        by_cases here : x = front'
        · subst here
          exact Or.inl (leaf.stays path)
        · exact Or.inr ⟨before, batch, after, front', rfl, stood, second, here⟩

/-- However a tree of headers is delivered, with enough steps every `add` comes to its end, and the subchains
end on the leaves of the tree just when the delivery is orderly. -/
theorem latestHeaders_iff (c : Crypto PKey) (startBlockHeader : BlockHeader) (headers : List BlockHeader)
    (calls : List (Enumeration × List BlockHeader)) (tree : HeaderTree c startBlockHeader headers)
    (tells : Distinguishes c startBlockHeader headers) (delivers : ∀ h, h ∈ calls.flatMap Prod.snd ↔
    h ∈ headers) :
    ∃ height, ∀ fuel, height < fuel → ∃ m, (create startBlockHeader none).addAll c fuel calls = some m ∧
      ((∀ x, x ∈ m.latestHeaders ↔ IsLeaf c startBlockHeader headers x) ↔
      Orderly c startBlockHeader headers (calls.map Prod.snd)) := by
  obtain ⟨height, bound⟩ := tree.height tells
  refine ⟨height, fun fuel enough => ?_⟩
  have within : (calls.map Prod.snd).flatten ⊆ headers := by
    intro h member
    exact (delivers h).mp (by rwa [List.flatMap_def])
  obtain ⟨fuel, rfl⟩ : ∃ n, fuel = n + 1 := ⟨fuel - 1, by omega⟩
  obtain ⟨m, front, run, managed⟩ := create_managed.addAll tree tells bound (Nat.lt_succ_iff.mp enough) within
  refine ⟨m, run, ?_⟩
  rw [List.nil_append] at managed
  rw [← orderly_iff managed.stands within]
  exact forall_congr' fun x => by rw [managed.mem_latestHeaders]

/-- Two headers on top of the start. -/
def twoHeaders : List BlockHeader := [child genesis 1, child genesis 2]

theorem twoHeaders_tree : HeaderTree digests genesis twoHeaders ∧ Distinguishes digests genesis twoHeaders := by
  refine ⟨⟨by decide +kernel, fun h member => .single ⟨member, ?_⟩⟩, by decide +kernel, by decide +kernel⟩
  revert h
  decide +kernel

theorem latestHeaders_iff_twoHeaders :
    ∃ height, ∀ fuel, height < fuel →
      ∃ m, (create genesis none).addAll digests fuel
      [(inOrder, [child genesis 1]), (inOrder, [child genesis 2])] = some m ∧
    ((∀ x, x ∈ m.latestHeaders ↔ IsLeaf digests genesis twoHeaders x) ↔
          Orderly digests genesis twoHeaders [[child genesis 1], [child genesis 2]]) :=
  latestHeaders_iff digests genesis twoHeaders
    [(inOrder, [child genesis 1]), (inOrder, [child genesis 2])] twoHeaders_tree.1 twoHeaders_tree.2
    fun h => by simp [twoHeaders]

/-- In one batch, the subchain from the start stays where two headers lead on. -/
theorem latestHeaders_fails : HeaderTree digests genesis twoHeaders ∧ Distinguishes digests genesis twoHeaders ∧
    ∃ m, (create genesis none).addAll digests 2 [(inOrder, twoHeaders)] = some m ∧
      genesis ∈ m.latestHeaders ∧ ¬(∀ x, x ∈ m.latestHeaders ↔ IsLeaf digests genesis twoHeaders x) := by
  refine ⟨twoHeaders_tree.1, twoHeaders_tree.2, ?_⟩
  have ends : ((create genesis none).addAll digests 2 [(inOrder, twoHeaders)]).map latestHeaders =
    some [genesis, child genesis 2] := by
    decide +kernel
  obtain ⟨m, run, latest⟩ := Option.map_eq_some_iff.mp ends
  have stuck : genesis ∈ m.latestHeaders := by simp [latest]
  refine ⟨m, run, stuck, fun same => ?_⟩
  exact ((same genesis).mp stuck).2 (child genesis 1) List.mem_cons_self rfl

end VirtualHeaderSyncManager

end MiyaCore.Chain
