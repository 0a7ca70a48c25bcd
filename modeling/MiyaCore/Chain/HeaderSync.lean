import Mathlib
import MiyaCore.Chain.Acceptance

/-!
# Header sync

A sync manager collects headers in a pool and follows them with subchains: one from the start header,
and one for each header that comes second for its previous block.
-/

namespace MiyaCore.Chain
open Relation

variable {PKey : Type} (c : Crypto PKey)

/-- `prevBlockHash`; zeros are a null pointer. -/
def BlockHeader.prevBlockHash (h : BlockHeader) : Buffer :=
  if h.previousBlockHeaderHash.toList = List.replicate 32 0 then none else some h.previousBlockHeaderHash.toList

/-- A count kept in a `short`. -/
def toShort (n : Int) : Int := (n + 2 ^ 15) % 2 ^ 16 - 2 ^ 15

namespace BlockHeaderPool

/-- `findByPrevBlockHash` on `_pool_prevBlockHash`, a multimap that keeps what is pushed twice. -/
def findByPrevBlockHash (pool : List BlockHeader) (prevBlockHash : List UInt8) : List BlockHeader :=
  pool.filter fun h => h.previousBlockHeaderHash.toList = prevBlockHash

/-- `push`: whether the header went in, and how many there are now of its previous block. -/
def push (pool : List BlockHeader) (target : BlockHeader) : (Bool × Int) × List BlockHeader :=
  match target.prevBlockHash with
  | none => ((false, 0), pool)
  | some prevBlockHash =>
    let duplicateCount := toShort (findByPrevBlockHash pool prevBlockHash).length
    ((true, toShort (duplicateCount + 1)), pool ++ [target])

end BlockHeaderPool
open BlockHeaderPool

/-- `VirtualHeaderSubChain` with its `Context`, within its lifetime. -/
structure VirtualHeaderSubChain where
  startBlockHeader : BlockHeader
  latestBlockHeader : BlockHeader
  stopHash : Buffer
  isStoped : Bool := false
deriving DecidableEq

namespace VirtualHeaderSubChain

def latestBlockHash (s : VirtualHeaderSubChain) : List UInt8 := s.latestBlockHeader.headerHash c

def chainDigest (s : VirtualHeaderSubChain) : List UInt8 :=
  c.sha1 (s.startBlockHeader.headerHash c ++ s.latestBlockHash c)

/-- `extend` with the default action on a collision. -/
def extend (pool : List BlockHeader) : Nat → VirtualHeaderSubChain → Option (Bool × VirtualHeaderSubChain)
  | 0, _ => none
  | fuel + 1, s =>
    if s.stopHash = some (s.latestBlockHash c) then some (true, { s with isStoped := true })
    else
      match findByPrevBlockHash pool (s.latestBlockHash c) with
      | [] => some (false, s)
      | [next] => extend pool fuel { s with latestBlockHeader := next }
      | _ => some (false, s)

end VirtualHeaderSubChain

/-- `VirtualHeaderSyncManagerState`. -/
inductive VirtualHeaderSyncManagerState where
  | working
  | pending
  | finished
  | timeout
  | error
deriving DecidableEq

/-- `VirtualHeaderSyncManager`. -/
structure VirtualHeaderSyncManager where
  startBlockHeader : BlockHeader
  stopHash : Buffer
  blockHeaderPool : List BlockHeader := []
  headerSubchainSet : List VirtualHeaderSubChain
  status : VirtualHeaderSyncManagerState
deriving DecidableEq

/-- An order in which an `unordered_set` is gone through. -/
structure Enumeration where
  order : List VirtualHeaderSubChain → List VirtualHeaderSubChain
  perm : ∀ l, (order l).Perm l

namespace VirtualHeaderSyncManager

/-- `insert` into the set, which compares digests. -/
def insert (set : List VirtualHeaderSubChain) (s : VirtualHeaderSubChain) : List VirtualHeaderSubChain :=
  if set.any fun other => other.chainDigest c = s.chainDigest c then set else set ++ [s]

/-- The manager as it is constructed. -/
def create (startBlockHeader : BlockHeader) (stopHash : Buffer) : VirtualHeaderSyncManager where
  startBlockHeader := startBlockHeader
  stopHash := stopHash
  headerSubchainSet := [{ startBlockHeader, latestBlockHeader := startBlockHeader, stopHash }]
  status := .pending

/-- The subchain that `build` sets up on a header. -/
def newSubchain (m : VirtualHeaderSyncManager) (stopHeader : BlockHeader) : VirtualHeaderSubChain where
  startBlockHeader := m.startBlockHeader
  latestBlockHeader := stopHeader
  stopHash := some (stopHeader.headerHash c)

def build (fuel : Nat) (m : VirtualHeaderSyncManager) (stopHeader : BlockHeader) :
    Option VirtualHeaderSyncManager :=
  ((m.newSubchain c stopHeader).extend c m.blockHeaderPool fuel).map fun r =>
    { m with headerSubchainSet := insert c m.headerSubchainSet r.2 }

def extend (fuel : Nat) (enumeration : Enumeration) (m : VirtualHeaderSyncManager) :
    Option (Bool × VirtualHeaderSyncManager) :=
  ((enumeration.order m.headerSubchainSet).mapM
  (VirtualHeaderSubChain.extend c m.blockHeaderPool fuel)).map fun extended =>
    let chainStopFlag := extended.any Prod.fst
    (chainStopFlag,
      { m with
        headerSubchainSet := (extended.map Prod.snd).foldl (insert c) []
        status := if chainStopFlag then .finished else m.status })

/-- The loop of `add` over the headers: the pool, and the headers that came second. -/
def pushAll (pool : List BlockHeader) : List BlockHeader → List BlockHeader × List BlockHeader
  | [] => (pool, [])
  | target :: rest =>
    let (poolCtx, pool) := push pool target
    let (pool, duplicateHeaders) := pushAll pool rest
    (pool, if poolCtx.1 ∧ 1 < poolCtx.2 then target :: duplicateHeaders else duplicateHeaders)

def add (fuel : Nat) (enumeration : Enumeration) (m : VirtualHeaderSyncManager)
    (targetVector : List BlockHeader) :
    Option VirtualHeaderSyncManager :=
  let (pool, duplicateHeaders) := pushAll m.blockHeaderPool targetVector
  (duplicateHeaders.foldlM (build c fuel) { m with blockHeaderPool := pool }).bind fun m =>
    (m.extend c fuel enumeration).map fun r => if r.1 then { r.2 with status := .finished } else r.2

/-- `stopedHeaderSubchain`. -/
def stopedHeaderSubchain (enumeration : Enumeration) (m : VirtualHeaderSyncManager) :
    Option VirtualHeaderSubChain :=
  (enumeration.order m.headerSubchainSet).find? VirtualHeaderSubChain.isStoped

/-- A sequence of calls of `add`, each with the order the set has in it. -/
def addAll (fuel : Nat) (m : VirtualHeaderSyncManager) (calls : List (Enumeration × List BlockHeader)) :
    Option VirtualHeaderSyncManager :=
  calls.foldlM (fun m call => m.add c fuel call.1 call.2) m

end VirtualHeaderSyncManager

/-- A header that is there, on top of another. -/
def Links (added : List BlockHeader) (a b : BlockHeader) : Prop :=
  b ∈ added ∧ b.previousBlockHeaderHash.toList = a.headerHash c

/-- The only entry of the pool on top of a header. -/
def Extends (pool : List BlockHeader) (a b : BlockHeader) : Prop :=
  findByPrevBlockHash pool (a.headerHash c) = [b]

variable {c} {pool added : List BlockHeader}

theorem mem_findByPrevBlockHash {h : BlockHeader} {prevBlockHash : List UInt8} :
    h ∈ findByPrevBlockHash pool prevBlockHash ↔
      h ∈ pool ∧ h.previousBlockHeaderHash.toList = prevBlockHash := by
  simp [findByPrevBlockHash]

theorem Extends.links {a b : BlockHeader} (extend : Extends c pool a b) : Links c pool a b := by
  have member : b ∈ findByPrevBlockHash pool (a.headerHash c) := by rw [extend]; exact List.mem_singleton_self b
  exact mem_findByPrevBlockHash.mp member

theorem Links.mono {a b : BlockHeader} (links : Links c pool a b) (sub : pool ⊆ added) : Links c added a b :=
  ⟨sub links.1, links.2⟩

namespace VirtualHeaderSubChain

/-- What an extension leaves behind: the subchain further on, at its stop hash or where no single entry
leads on. -/
structure Extended (c : Crypto PKey) (pool : List BlockHeader) (s s' : VirtualHeaderSubChain)
    (flag : Bool) : Prop where
  path : ReflTransGen (Extends c pool) s.latestBlockHeader s'.latestBlockHeader
  start : s'.startBlockHeader = s.startBlockHeader
  stopHash : s'.stopHash = s.stopHash
  stoped : flag = true → s'.isStoped = true ∧ s'.stopHash = some (s'.latestBlockHash c)
  held : flag = false → s'.isStoped = s.isStoped ∧ s'.stopHash ≠ some (s'.latestBlockHash c) ∧
    ∀ b, ¬Extends c pool s'.latestBlockHeader b

theorem extend_run : ∀ {fuel : Nat} {s s' : VirtualHeaderSubChain} {flag : Bool},
    s.extend c pool fuel = some (flag, s') → Extended c pool s s' flag
  | fuel + 1, s, s', flag, run => by
    rw [extend] at run
    split_ifs at run with stop
    · obtain ⟨rfl, rfl⟩ := Prod.mk.inj (Option.some.inj run)
      exact ⟨.refl, rfl, rfl, fun _ => ⟨rfl, stop⟩, nofun⟩
    · split at run
      next none =>
        obtain ⟨rfl, rfl⟩ := Prod.mk.inj (Option.some.inj run)
        refine ⟨.refl, rfl, rfl, nofun, fun _ => ⟨rfl, stop, fun b extend => ?_⟩⟩
        exact absurd (none.symm.trans extend) nofun
      next next found =>
        have rest := extend_run run
        exact ⟨.head found rest.path, rest.start, rest.stopHash, rest.stoped, rest.held⟩
      next none one =>
        obtain ⟨rfl, rfl⟩ := Prod.mk.inj (Option.some.inj run)
        exact ⟨.refl, rfl, rfl, nofun, fun _ => ⟨rfl, stop, fun b extend => one b extend⟩⟩

/-- A subchain at its stop hash stays where it is. -/
theorem extend_stop {s : VirtualHeaderSubChain} (fuel : Nat) (stop : s.stopHash = some (s.latestBlockHash c)) :
    s.extend c pool (fuel + 1) = some (true, { s with isStoped := true }) := by rw [extend, if_pos stop]

end VirtualHeaderSubChain

namespace VirtualHeaderSyncManager

variable {m m' : VirtualHeaderSyncManager} {fuel : Nat} {enumeration : Enumeration} {batch : List BlockHeader}

theorem pushAll_pool : (pushAll pool batch).1 = pool ++ batch.filter fun h => h.prevBlockHash.isSome := by
  induction batch generalizing pool with
  | nil => simp [pushAll]
  | cons target rest ih =>
    simp only [pushAll, ih]
    cases null : target.prevBlockHash with
    | none => simp [push, null]
    | some prevBlockHash => simp [push, null]

theorem pushAll_subset (within : pool ⊆ added) : (pushAll pool batch).1 ⊆ added ++ batch := by
  rw [pushAll_pool]
  exact List.append_subset.mpr ⟨List.subset_append_of_subset_left _ within,
    List.subset_append_of_subset_right _ (List.filter_subset_self _)⟩

/-- The subchain of a header that came second, at its stop hash from the start. -/
def standing (c : Crypto PKey) (m : VirtualHeaderSyncManager) (h : BlockHeader) : VirtualHeaderSubChain :=
  { m.newSubchain c h with isStoped := true }

/-- The set after the headers that came second have their subchains. -/
def forked (c : Crypto PKey) (m : VirtualHeaderSyncManager) (duplicateHeaders : List BlockHeader) :
    List VirtualHeaderSubChain :=
  duplicateHeaders.foldl (fun set h => insert c set (standing c m h)) m.headerSubchainSet

theorem build_eq (h : BlockHeader) :
    build c (fuel + 1) m h = some { m with headerSubchainSet := insert c m.headerSubchainSet (standing c m h) } := by
  rw [build, VirtualHeaderSubChain.extend_stop fuel rfl]
  rfl

theorem buildAll_eq (duplicateHeaders : List BlockHeader) :
    duplicateHeaders.foldlM (build c (fuel + 1)) m =
      some { m with headerSubchainSet := forked c m duplicateHeaders } := by
  induction duplicateHeaders generalizing m with
  | nil => rfl
  | cons h rest ih =>
    rw [List.foldlM_cons, build_eq, Option.bind_eq_bind, Option.bind_some, ih]
    rfl

/-- What an `add` does that comes to its end: the pool has the new headers, those that came second have
their subchains, and every subchain is extended. -/
structure Added (c : Crypto PKey) (fuel : Nat) (enumeration : Enumeration)
    (m : VirtualHeaderSyncManager) (batch : List BlockHeader)
    (extended : List (Bool × VirtualHeaderSubChain)) (m' : VirtualHeaderSyncManager) : Prop where
  ran : (enumeration.order (forked c m (pushAll m.blockHeaderPool batch).2)).mapM
    (VirtualHeaderSubChain.extend c (pushAll m.blockHeaderPool batch).1 fuel) = some extended
  start : m'.startBlockHeader = m.startBlockHeader
  stopHash : m'.stopHash = m.stopHash
  pool : m'.blockHeaderPool = (pushAll m.blockHeaderPool batch).1
  set : m'.headerSubchainSet = (extended.map Prod.snd).foldl (insert c) []
  status : m'.status = if extended.any Prod.fst then .finished else m.status

theorem add_succ_iff : m.add c (fuel + 1) enumeration batch = some m' ↔
    ∃ extended, Added c (fuel + 1) enumeration m batch extended m' := by
  rw [add]
  simp only [buildAll_eq, Option.bind_some, extend, Option.map_map, Option.map_eq_some_iff]
  refine exists_congr fun extended => ⟨fun run => ?_, fun added => ⟨added.ran, ?_⟩⟩
  · obtain ⟨ran, rfl⟩ := run
    refine ⟨ran, ?_, ?_, ?_, ?_, ?_⟩
    all_goals cases stop : extended.any Prod.fst <;> simp [stop]
  · cases m'
    obtain ⟨-, rfl, rfl, rfl, rfl, rfl⟩ := added
    cases stop : extended.any Prod.fst <;> simp [stop]

variable {set : List VirtualHeaderSubChain}

theorem insert_present {s other : VirtualHeaderSubChain} (member : other ∈ set)
    (same : other.chainDigest c = s.chainDigest c) :
    insert c set s = set := by
  rw [insert, if_pos]
  exact List.any_eq_true.mpr ⟨other, member, by simpa using same⟩

theorem insert_absent {s : VirtualHeaderSubChain}
    (absent : ∀ other ∈ set, other.chainDigest c ≠ s.chainDigest c) :
    insert c set s = set ++ [s] := by
  rw [insert, if_neg]
  simpa using absent

theorem subset_insert (s : VirtualHeaderSubChain) : set ⊆ insert c set s := by
  rw [insert]
  split_ifs
  · exact List.Subset.refl _
  · exact List.subset_append_left _ _

/-- A header that came second, when no managed subchain ends with it. -/
def Forks (c : Crypto PKey) (m : VirtualHeaderSyncManager) (batch : List BlockHeader) : Prop :=
  ∃ h ∈ (pushAll m.blockHeaderPool batch).2, ∀ s ∈ m.headerSubchainSet,
  s.chainDigest c ≠ (standing c m h).chainDigest c

theorem subset_forked (duplicateHeaders : List BlockHeader) :
    set ⊆ duplicateHeaders.foldl (fun set h => insert c set (standing c m h)) set := by
  induction duplicateHeaders generalizing set with
  | nil => exact List.Subset.refl _
  | cons h rest ih => exact List.Subset.trans (subset_insert _) ih

/-- The subchain of a header that forks is among the managed ones. -/
theorem standing_mem {h : BlockHeader} : ∀ {duplicateHeaders : List BlockHeader}
    {set : List VirtualHeaderSubChain},
    h ∈ duplicateHeaders → (∀ s ∈ set, s.chainDigest c ≠ (standing c m h).chainDigest c) →
    ∃ h', standing c m h' ∈ duplicateHeaders.foldl (fun set h => insert c set (standing c m h)) set
  | x :: rest, set, member, absent => by
    by_cases there : ∃ other ∈ set, other.chainDigest c = (standing c m x).chainDigest c
    · obtain ⟨other, inSet, same⟩ := there
      rw [List.foldl_cons, insert_present inSet same]
      refine standing_mem ((List.mem_cons.mp member).resolve_left fun eq => ?_) absent
      exact absent other inSet (eq ▸ same)
    · push Not at there
      refine ⟨x, subset_forked rest ?_⟩
      show _ ∈ insert c set (standing c m x)
      rw [insert_absent there]
      exact List.mem_append_right _ (List.mem_singleton_self _)

/-- Without a fork the set stays as it is. -/
theorem forked_of_not_forks (steady : ¬Forks c m batch) :
    forked c m (pushAll m.blockHeaderPool batch).2 = m.headerSubchainSet := by
  simp only [Forks, not_exists, not_and, not_forall, not_not] at steady
  rw [forked]
  generalize (pushAll m.blockHeaderPool batch).2 = duplicateHeaders at steady
  induction duplicateHeaders with
  | nil => rfl
  | cons h rest ih =>
    obtain ⟨other, member, same⟩ := steady h List.mem_cons_self
    rw [List.foldl_cons, insert_present member same]
    exact ih fun h' inRest => steady h' (List.mem_cons_of_mem _ inRest)

variable {extended : List (Bool × VirtualHeaderSubChain)}

/-- Each subchain is extended on its own. -/
theorem Added.mem_extended (run : Added c fuel enumeration m batch extended m')
    {r : Bool × VirtualHeaderSubChain} :
    r ∈ extended ↔ ∃ s ∈ forked c m (pushAll m.blockHeaderPool batch).2,
      s.extend c (pushAll m.blockHeaderPool batch).1 fuel = some r := by
  rw [mem_mapM run.ran r]
  simp only [(enumeration.perm _).mem_iff]

/-- Once finished, a manager stays so; and it is after a fork. -/
theorem Added.finished (run : Added c (fuel + 1) enumeration m batch extended m')
    (stop : m.status = .finished ∨ Forks c m batch) : m'.status = .finished := by
  rw [run.status]
  split_ifs with flag
  · rfl
  · refine stop.resolve_right fun forks => flag ?_
    obtain ⟨h, second, absent⟩ := forks
    obtain ⟨h', member⟩ := standing_mem second absent
    exact List.any_eq_true.mpr ⟨_, run.mem_extended.mpr
      ⟨_, member, (standing c m h').extend_stop fuel rfl⟩, rfl⟩

/-- A manager with the one subchain from the start, which tells that it has come to its stop hash only
where it has. -/
structure Following (c : Crypto PKey) (m : VirtualHeaderSyncManager) (added : List BlockHeader)
    (s : VirtualHeaderSubChain) : Prop where
  single : m.headerSubchainSet = [s]
  stopHash : s.stopHash = m.stopHash
  connected : ReflTransGen (Links c added) m.startBlockHeader s.latestBlockHeader
  pool : m.blockHeaderPool ⊆ added
  stop : s.isStoped = true ∨ m.status = .finished → s.stopHash = some (s.latestBlockHash c)

theorem create_following (startBlockHeader : BlockHeader) (stopHash : Buffer) :
    Following c (create startBlockHeader stopHash) [] ⟨startBlockHeader, startBlockHeader, stopHash, false⟩ :=
  ⟨rfl, rfl, .refl, List.nil_subset _, nofun⟩

/-- Without a fork there is one subchain still, further on. -/
theorem Following.add {s : VirtualHeaderSubChain} (following : Following c m added s)
    (run : Added c fuel enumeration m batch extended m') (steady : ¬Forks c m batch) :
    ∃ s', Following c m' (added ++ batch) s' := by
  have alone : enumeration.order (forked c m (pushAll m.blockHeaderPool batch).2) = [s] := by
    rw [forked_of_not_forks steady, following.single]
    exact List.perm_singleton.mp (enumeration.perm _)
  have ran := run.ran
  rw [alone, mapM_cons_eq_some] at ran
  obtain ⟨⟨flag, s'⟩, rest, ends, nothing, rfl⟩ := ran
  obtain rfl : rest = [] := by simpa using nothing.symm
  have moved := VirtualHeaderSubChain.extend_run ends
  have within : (pushAll m.blockHeaderPool batch).1 ⊆ added ++ batch := pushAll_subset following.pool
  have path : ReflTransGen (Links c (added ++ batch)) m.startBlockHeader s'.latestBlockHeader := by
    have old := ReflTransGen.mono (fun a b links => Links.mono links
      (List.subset_append_left added batch)) _ _ following.connected
    exact old.trans (ReflTransGen.mono (fun a b step => (Extends.links step).mono within) _ _ moved.path)
  refine ⟨s', by rw [run.set]; rfl, moved.stopHash.trans (following.stopHash.trans run.stopHash.symm), by rwa [run.start],
    by rwa [run.pool], fun stop => ?_⟩
  cases flag with
  | true => exact (moved.stoped rfl).2
  | false =>
    obtain ⟨sameFlag, -⟩ := moved.held rfl
    have before : s.stopHash = some (s.latestBlockHash c) :=
      following.stop (by simpa [sameFlag, run.status] using stop)
    cases fuel with
    | zero => cases ends
    | succ fuel => simp [VirtualHeaderSubChain.extend_stop fuel before] at ends

variable {calls : List (Enumeration × List BlockHeader)}

/-- No call of `add` forks, in the state it comes in. -/
def Steady (c : Crypto PKey) (fuel : Nat) : VirtualHeaderSyncManager →
    List (Enumeration × List BlockHeader) → Prop
  | _, [] => True
  | m, call :: rest => ¬Forks c m call.2 ∧ ∀ m', m.add c fuel call.1 call.2 = some m' → Steady c fuel m' rest

/-- A managed subchain ends with the target, and added headers link it to the start. -/
def ReachesTarget (c : Crypto PKey) (m : VirtualHeaderSyncManager) (added : List BlockHeader) : Prop :=
  ∃ target, m.stopHash = some target ∧ ∃ s ∈ m.headerSubchainSet, s.latestBlockHash c = target ∧
    ReflTransGen (Links c added) m.startBlockHeader s.latestBlockHeader

/-- The manager tells that it has finished only at its target. -/
def FinishesAtTarget (c : Crypto PKey) (m : VirtualHeaderSyncManager) (added : List BlockHeader) : Prop :=
  m.status = .finished ∨ (∃ enumeration, (m.stopedHeaderSubchain enumeration).isSome) → ReachesTarget c m added

theorem addAll_cons {call : Enumeration × List BlockHeader} {m'' : VirtualHeaderSyncManager} :
    addAll c fuel m (call :: calls) = some m'' ↔ ∃ m', m.add c fuel call.1 call.2 = some m' ∧
      addAll c fuel m' calls = some m'' := by
  rw [addAll, List.foldlM_cons]
  exact Option.bind_eq_some_iff

theorem Following.finishesAtTarget {s : VirtualHeaderSubChain} (following : Following c m added s) :
    FinishesAtTarget c m added := by
  rintro finished
  have stop : s.isStoped = true ∨ m.status = .finished := by
    refine finished.symm.imp_left fun ⟨enumeration, found⟩ => ?_
    simpa [stopedHeaderSubchain, following.single, List.perm_singleton.mp (enumeration.perm [s])] using found
  have target := following.stop stop
  exact ⟨_, following.stopHash ▸ target, s, by simp [following.single], rfl, following.connected⟩

theorem Following.addAll {s : VirtualHeaderSubChain} (following : Following c m added s)
    (steady : Steady c (fuel + 1) m calls) (run : m.addAll c (fuel + 1) calls = some m') :
    ∃ s', Following c m' (added ++ calls.flatMap Prod.snd) s' := by
  induction calls generalizing m added s with
  | nil =>
    obtain rfl : m = m' := Option.some.inj run
    exact ⟨s, by simpa using following⟩
  | cons call rest ih =>
    obtain ⟨next, first, more⟩ := addAll_cons.mp run
    obtain ⟨extended, ran⟩ := add_succ_iff.mp first
    obtain ⟨s', follows⟩ := following.add ran steady.1
    obtain ⟨s'', ends⟩ := ih follows (steady.2 next first) more
    exact ⟨s'', by simpa using ends⟩

/-- A fork leaves the manager finished for good. -/
theorem finished_of_forks (stop : m.status = .finished ∨ ¬Steady c (fuel + 1) m calls)
    (run : m.addAll c (fuel + 1) calls = some m') : m'.status = .finished := by
  induction calls generalizing m with
  | nil =>
    obtain rfl : m = m' := Option.some.inj run
    exact stop.resolve_right fun forks => forks trivial
  | cons call rest ih =>
    obtain ⟨next, first, more⟩ := addAll_cons.mp run
    obtain ⟨extended, ran⟩ := add_succ_iff.mp first
    by_cases forks : m.status = .finished ∨ Forks c m call.2
    · exact ih (Or.inl (ran.finished forks)) more
    · obtain ⟨going, single⟩ := not_or.mp forks
      refine ih (Or.inr fun steady => stop.resolve_left going ⟨single, fun other added => ?_⟩) more
      obtain rfl : next = other := Option.some.inj (first.symm.trans added)
      exact steady

/-- Without a step to make, no `add` comes to its end. -/
theorem add_zero {s : VirtualHeaderSubChain} (member : s ∈ m.headerSubchainSet) :
    m.add c 0 enumeration batch = none := by
  rw [add, Option.bind_eq_none_iff]
  intro next run
  cases second : (pushAll m.blockHeaderPool batch).2 with
  | cons h rest => simp [second, build, VirtualHeaderSubChain.extend] at run
  | nil =>
    obtain rfl : { m with blockHeaderPool := (pushAll m.blockHeaderPool batch).1 } = next := by
      simpa [second] using run
    cases ran : (enumeration.order m.headerSubchainSet).mapM
      (VirtualHeaderSubChain.extend c (pushAll m.blockHeaderPool batch).1 0) with
    | none => simp [extend, ran]
    | some extended =>
      have listed : s ∈ enumeration.order m.headerSubchainSet := (enumeration.perm _).mem_iff.mpr member
      have sizes := length_of_mapM ran
      obtain ⟨r, first⟩ : ∃ r, r ∈ extended :=
        List.exists_mem_of_length_pos (by rw [sizes]; exact List.length_pos_of_mem listed)
      obtain ⟨x, -, ends⟩ := (mem_mapM ran r).mp first
      cases ends

/-- Over any calls of `add` from the start, a manager tells only at its target that it has finished just when
no call forks or the target is reached all the same. -/
theorem finishesAtTarget_iff (c : Crypto PKey) (fuel : Nat) (startBlockHeader : BlockHeader) (stopHash : Buffer)
    (calls : List (Enumeration × List BlockHeader)) (m : VirtualHeaderSyncManager)
    (run : (create startBlockHeader stopHash).addAll c fuel calls = some m) :
    FinishesAtTarget c m (calls.flatMap Prod.snd) ↔
      Steady c fuel (create startBlockHeader stopHash) calls ∨ ReachesTarget c m (calls.flatMap Prod.snd) := by
  have following := create_following (c := c) startBlockHeader stopHash
  cases fuel with
  | zero =>
    cases calls with
    | nil =>
      obtain rfl := Option.some.inj run
      exact iff_of_true following.finishesAtTarget (Or.inl trivial)
    | cons call rest =>
      obtain ⟨next, first, -⟩ := addAll_cons.mp run
      cases (add_zero (by rw [following.single]; exact List.mem_singleton_self _)).symm.trans first
  | succ fuel =>
    constructor
    · intro tells
      by_cases steady : Steady c (fuel + 1) (create startBlockHeader stopHash) calls
      · exact Or.inl steady
      · exact Or.inr (tells (Or.inl (finished_of_forks (Or.inr steady) run)))
    · rintro (steady | reaches)
      · obtain ⟨s, follows⟩ := following.addAll steady run
        exact follows.finishesAtTarget
      · exact fun _ => reaches

/-- Digests that are numbers made of all the bytes. -/
def digests : Crypto Unit where
  sha1 l := Bytes.be 20 (l.foldl (fun h a => h * 16777619 + a.toNat + 1) 0)
  sha256 l := Bytes.be 32 (l.foldl (fun h a => h * 16777619 + a.toNat + 1) 0)
  toPkey _ := some ()
  toRawPubKey _ := List.replicate 88 1
  verify _ _ _ := true
  length_sha1 _ := Bytes.length_be ..
  length_sha256 := by exact length_mixed

/-- A header on top of another. -/
def child (h : BlockHeader) (nonce : UInt32) : BlockHeader where
  previousBlockHeaderHash := ⟨h.headerHash digests, digests.length_sha256 _⟩
  merkleRoot := List.Vector.replicate 32 0
  time := 0
  nBits := 0
  nonce := nonce

def genesis : BlockHeader where
  previousBlockHeaderHash := List.Vector.replicate 32 0
  merkleRoot := List.Vector.replicate 32 0
  time := 0
  nBits := 0
  nonce := 0

def inOrder : Enumeration := ⟨id, fun l => .refl l⟩

/-- A manager at its stop hash, after one header. -/
def arrived : VirtualHeaderSyncManager where
  startBlockHeader := genesis
  stopHash := some ((child genesis 1).headerHash digests)
  blockHeaderPool := [child genesis 1]
  headerSubchainSet := [⟨genesis, child genesis 1, some ((child genesis 1).headerHash digests), true⟩]
  status := .finished

theorem finishesAtTarget_iff_arrived :
    (create genesis arrived.stopHash).addAll digests 2 [(inOrder, [child genesis 1])] = some arrived ∧
    (FinishesAtTarget digests arrived [child genesis 1] ↔
      Steady digests 2 (create genesis arrived.stopHash) [(inOrder, [child genesis 1])] ∨
        ReachesTarget digests arrived [child genesis 1]) :=
  have run : (create genesis arrived.stopHash).addAll digests 2
    [(inOrder, [child genesis 1])] = some arrived := by
    decide +kernel
  ⟨run, finishesAtTarget_iff digests 2 genesis arrived.stopHash [(inOrder, [child genesis 1])] arrived run⟩

/-- Two headers on top of the start, and no stop hash: the subchain of the second one is at its own hash. -/
theorem finishesAtTarget_fails : ∃ m, (create genesis none).addAll digests 2
    [(inOrder, [child genesis 1, child genesis 2])] = some m ∧
    m.status = .finished ∧ ¬FinishesAtTarget digests m [child genesis 1, child genesis 2] := by
  have ends : ((create genesis none).addAll digests 2 [(inOrder, [child genesis 1, child genesis 2])]).map
      (fun m => (m.status, m.stopHash)) = some (.finished, none) := by decide +kernel
  obtain ⟨m, run, told⟩ := Option.map_eq_some_iff.mp ends
  obtain ⟨finished, never⟩ := Prod.mk.inj told
  refine ⟨m, run, finished, fun tells => ?_⟩
  obtain ⟨target, stop, -⟩ := tells (Or.inl finished)
  rw [never] at stop
  cases stop

end VirtualHeaderSyncManager

end MiyaCore.Chain
