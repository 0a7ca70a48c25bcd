import MiyaCore.Chain.HeaderSync

/-!
# The age of subchains

A subchain lives for seven seconds after its last header, and an older one is not extended any more. As long as
all its subchains are alive, a sync manager does what one without a clock does.
-/

namespace MiyaCore.Chain

section Options
variable {α α' β β' : Type} {φ : α → α'}

/-- A fold seen through a map, when each of its steps can be. -/
theorem foldlM_map {f : α → β → Option α} {g : α' → β → Option α'} (each : ∀ a x, (f a x).map φ = g (φ a) x)
    (l : List β) (a : α) : (l.foldlM f a).map φ = l.foldlM g (φ a) := by
  induction l generalizing a with
  | nil => rfl
  | cons x rest ih =>
    rw [List.foldlM_cons, List.foldlM_cons, ← each]
    cases f a x with
    | none => rfl
    | some next => exact ih next

theorem mapM_map {f : α → Option β} {g : α' → Option β'} {ψ : β → β'} {l : List α}
    (each : ∀ x ∈ l, (f x).map ψ = g (φ x)) : (l.mapM f).map (List.map ψ) = (l.map φ).mapM g := by
  induction l with
  | nil => rfl
  | cons x rest ih =>
    rw [List.forall_mem_cons] at each
    rw [List.map_cons, List.mapM_cons, List.mapM_cons, ← each.1, ← ih each.2]
    cases f x with
    | none => rfl
    | some y => cases rest.mapM f <;> rfl

end Options

open Relation BlockHeaderPool
open VirtualHeaderSyncManager (pushAll pushAll_subset)

variable {PKey : Type} (c : Crypto PKey)

/-- `SUBCHAIN_LIFETIME`, in seconds. -/
def SUBCHAIN_LIFETIME : UInt32 := 7

/-- `VirtualHeaderSubChain` with the time of its last update. -/
structure AgingSubChain extends VirtualHeaderSubChain where
  updatedAt : UInt32
deriving DecidableEq

namespace AgingSubChain

/-- `isActive`. The seconds are unsigned, and so is their difference. -/
def isActive (now : UInt32) (s : AgingSubChain) : Bool := now - s.updatedAt < SUBCHAIN_LIFETIME

/-- `extend` with the default action on a collision, within one second. -/
def extend (now : UInt32) (pool : List BlockHeader) : Nat → AgingSubChain → Option (Bool × AgingSubChain)
  | 0, _ => none
  | fuel + 1, s =>
    if !s.isActive now then some (false, s)
    else if s.stopHash = some (s.latestBlockHash c) then some (true, { s with isStoped := true })
    else
      match findByPrevBlockHash pool (s.latestBlockHash c) with
      | [] => some (false, s)
      | [next] => extend now pool fuel { s with latestBlockHeader := next, updatedAt := now }
      | _ => some (false, s)

end AgingSubChain

/-- `VirtualHeaderSyncManager` with the times of its subchains. -/
structure AgingSyncManager where
  startBlockHeader : BlockHeader
  stopHash : Buffer
  blockHeaderPool : List BlockHeader := []
  headerSubchainSet : List AgingSubChain
  status : VirtualHeaderSyncManagerState
deriving DecidableEq

/-- An order in which an `unordered_set` of subchains with times is gone through. -/
structure AgingEnumeration where
  order : List AgingSubChain → List AgingSubChain
  perm : ∀ l, (order l).Perm l

namespace AgingSyncManager

/-- `insert` into the set, which compares digests. -/
def insert (set : List AgingSubChain) (s : AgingSubChain) : List AgingSubChain :=
  if set.any fun other => other.chainDigest c = s.chainDigest c then set else set ++ [s]

/-- The manager as it is constructed. -/
def create (now : UInt32) (startBlockHeader : BlockHeader) (stopHash : Buffer) : AgingSyncManager where
  startBlockHeader := startBlockHeader
  stopHash := stopHash
  headerSubchainSet := [⟨{ startBlockHeader, latestBlockHeader := startBlockHeader, stopHash }, now⟩]
  status := .pending

/-- The subchain that `build` sets up on a header. -/
def newSubchain (now : UInt32) (m : AgingSyncManager) (stopHeader : BlockHeader) : AgingSubChain where
  startBlockHeader := m.startBlockHeader
  latestBlockHeader := stopHeader
  stopHash := some (stopHeader.headerHash c)
  updatedAt := now

def build (now : UInt32) (fuel : Nat) (m : AgingSyncManager) (stopHeader : BlockHeader) : Option AgingSyncManager :=
  ((m.newSubchain c now stopHeader).extend c now m.blockHeaderPool fuel).map fun r =>
    { m with headerSubchainSet := insert c m.headerSubchainSet r.2 }

def extend (now : UInt32) (fuel : Nat) (enumeration : AgingEnumeration) (m : AgingSyncManager) :
    Option (Bool × AgingSyncManager) :=
  ((enumeration.order m.headerSubchainSet).mapM
  (AgingSubChain.extend c now m.blockHeaderPool fuel)).map fun extended =>
    let chainStopFlag := extended.any Prod.fst
    (chainStopFlag,
      { m with
        headerSubchainSet := (extended.map Prod.snd).foldl (insert c) []
        status := if chainStopFlag then .finished else m.status })

def add (now : UInt32) (fuel : Nat) (enumeration : AgingEnumeration) (m : AgingSyncManager)
    (targetVector : List BlockHeader) :
    Option AgingSyncManager :=
  let (pool, duplicateHeaders) := pushAll m.blockHeaderPool targetVector
  (duplicateHeaders.foldlM (build c now fuel) { m with blockHeaderPool := pool }).bind fun m =>
    (m.extend c now fuel enumeration).map fun r => if r.1 then { r.2 with status := .finished } else r.2

def activeSubchainCount (now : UInt32) (m : AgingSyncManager) : Nat :=
  m.headerSubchainSet.countP (AgingSubChain.isActive now)

/-- A call of `add`: the time, the order the set has in it, and the headers. -/
structure Call where
  now : UInt32
  enumeration : AgingEnumeration
  targetVector : List BlockHeader

/-- A sequence of calls of `add`. -/
def addAll (fuel : Nat) (m : AgingSyncManager) (calls : List Call) : Option AgingSyncManager :=
  calls.foldlM (fun m call => m.add c call.now fuel call.enumeration call.targetVector) m

/-- The manager without its clock. -/
def forget (m : AgingSyncManager) : VirtualHeaderSyncManager where
  startBlockHeader := m.startBlockHeader
  stopHash := m.stopHash
  blockHeaderPool := m.blockHeaderPool
  headerSubchainSet := m.headerSubchainSet.map AgingSubChain.toVirtualHeaderSubChain
  status := m.status

/-- Each call finds all the subchains alive. -/
def Alive (fuel : Nat) : AgingSyncManager → List Call → Prop
  | _, [] => True
  | m, call :: rest => (∀ s ∈ m.headerSubchainSet, s.isActive call.now) ∧
    ∀ m', m.add c call.now fuel call.enumeration call.targetVector = some m' → Alive fuel m' rest

end AgingSyncManager

variable {c} {pool added : List BlockHeader} {now : UInt32} {fuel : Nat}

namespace AgingSubChain

variable {s s' : AgingSubChain} {flag : Bool}

theorem isActive_now (updated : s.updatedAt = now) : s.isActive now := by
  rw [isActive, updated, UInt32.sub_self]
  rfl

/-- A subchain that is alive is extended as one without a clock. -/
theorem extend_forget (active : s.isActive now) :
    (s.extend c now pool fuel).map (Prod.map id toVirtualHeaderSubChain) =
      s.toVirtualHeaderSubChain.extend c pool fuel := by
  induction fuel generalizing s with
  | zero => rfl
  | succ fuel ih =>
    rw [extend, VirtualHeaderSubChain.extend, active]
    simp only [Bool.not_true, Bool.false_eq_true, if_false]
    split_ifs with stop
    · rfl
    · rcases findByPrevBlockHash pool (s.latestBlockHash c) with _ | ⟨next, _ | ⟨other, rest⟩⟩
      · rfl
      · exact ih (isActive_now rfl)
      · rfl

theorem extend_inactive (aged : ¬s.isActive now) : s.extend c now pool (fuel + 1) = some (false, s) := by
  rw [extend, if_pos (by simpa using aged)]

/-- A subchain at its stop hash stays where it is. -/
theorem extend_stop (active : s.isActive now) (stop : s.stopHash = some (s.latestBlockHash c)) :
    s.extend c now pool (fuel + 1) = some (true, { s with isStoped := true }) := by
  rw [extend, active, if_neg (by decide), if_pos stop]

theorem extend_active (active : s.isActive now) (run : s.extend c now pool fuel = some (flag, s')) :
    s'.isActive now := by
  induction fuel generalizing s with
  | zero => cases run
  | succ fuel ih =>
    rw [extend, active, if_neg (by decide)] at run
    split_ifs at run with stop
    · obtain ⟨-, rfl⟩ := Prod.mk.inj (Option.some.inj run)
      exact active
    · split at run
      · obtain ⟨-, rfl⟩ := Prod.mk.inj (Option.some.inj run)
        exact active
      · exact ih (isActive_now rfl) run
      · obtain ⟨-, rfl⟩ := Prod.mk.inj (Option.some.inj run)
        exact active

/-- Whether alive or not, a subchain goes on over the pool, and tells only at its stop hash that it has come to
it. -/
structure Extended (c : Crypto PKey) (pool : List BlockHeader) (s s' : AgingSubChain) (flag : Bool) : Prop where
  path : ReflTransGen (Links c pool) s.latestBlockHeader s'.latestBlockHeader
  start : s'.startBlockHeader = s.startBlockHeader
  stopHash : s'.stopHash = s.stopHash
  stoped : flag = true → s'.stopHash = some (s'.latestBlockHash c)

theorem extend_run (run : s.extend c now pool fuel = some (flag, s')) : Extended c pool s s' flag := by
  by_cases active : s.isActive now
  · have plain : (s.extend c now pool fuel).map _ = _ := extend_forget active
    rw [run] at plain
    have moved := VirtualHeaderSubChain.extend_run plain.symm
    exact ⟨ReflTransGen.mono (fun a b step => Extends.links step) _ _ moved.path, moved.start, moved.stopHash,
      fun told => (moved.stoped told).2⟩
  · cases fuel with
    | zero => cases run
    | succ fuel =>
      rw [extend_inactive active] at run
      obtain ⟨rfl, rfl⟩ := Prod.mk.inj (Option.some.inj run)
      exact ⟨.refl, rfl, rfl, nofun⟩

end AgingSubChain

namespace AgingSyncManager

variable {m m' : AgingSyncManager} {enumeration : AgingEnumeration} {batch : List BlockHeader}
  {set : List AgingSubChain}

section Plain

theorem insert_forget (s : AgingSubChain) : (insert c set s).map AgingSubChain.toVirtualHeaderSubChain =
    VirtualHeaderSyncManager.insert c (set.map AgingSubChain.toVirtualHeaderSubChain) s.toVirtualHeaderSubChain := by
  rw [insert, VirtualHeaderSyncManager.insert, List.any_map, Function.comp_def]
  split_ifs
  · rfl
  · rw [List.map_append, List.map_singleton]

theorem insertAll_forget (l : List AgingSubChain) :
    (l.foldl (insert c) set).map AgingSubChain.toVirtualHeaderSubChain =
      (l.map AgingSubChain.toVirtualHeaderSubChain).foldl (VirtualHeaderSyncManager.insert c)
        (set.map AgingSubChain.toVirtualHeaderSubChain) := by
  induction l generalizing set with
  | nil => rfl
  | cons s rest ih => rw [List.foldl_cons, ih, insert_forget, List.map_cons, List.foldl_cons]

theorem mem_insert {s x : AgingSubChain} (member : x ∈ insert c set s) : x ∈ set ∨ x = s := by
  rw [insert] at member
  split_ifs at member
  · exact Or.inl member
  · simpa using member

/-- The order of the set without times in which a given order goes through the one with times. -/
def plainOrder (enumeration : AgingEnumeration) (set : List AgingSubChain) : Enumeration where
  order l :=
    if l = set.map AgingSubChain.toVirtualHeaderSubChain then
      (enumeration.order set).map AgingSubChain.toVirtualHeaderSubChain
    else l
  perm l := by
    split_ifs with same
    · rw [same]
      exact (enumeration.perm set).map _
    · exact .refl l

theorem build_forget (h : BlockHeader) :
    (m.build c now fuel h).map forget = m.forget.build c fuel h := by
  have active : (m.newSubchain c now h).isActive now := AgingSubChain.isActive_now rfl
  have plain : ((m.newSubchain c now h).extend c now m.blockHeaderPool fuel).map _ = _ :=
    AgingSubChain.extend_forget active
  have same : (m.newSubchain c now h).toVirtualHeaderSubChain = m.forget.newSubchain c h := rfl
  have pool : m.forget.blockHeaderPool = m.blockHeaderPool := rfl
  rw [build, VirtualHeaderSyncManager.build, pool, ← same, ← plain, Option.map_map, Option.map_map]
  refine congrArg (Option.map · _) (funext fun r => ?_)
  simp only [Function.comp_apply, forget, insert_forget, Prod.map_snd]

theorem buildAll_forget (duplicateHeaders : List BlockHeader) :
    (duplicateHeaders.foldlM (build c now fuel) m).map forget =
      duplicateHeaders.foldlM (VirtualHeaderSyncManager.build c fuel) m.forget :=
  foldlM_map (fun _ h => build_forget h) duplicateHeaders m

/-- The subchains set up in a call are alive in it. -/
theorem buildAll_alive (alive : ∀ s ∈ m.headerSubchainSet, s.isActive now) (duplicateHeaders : List BlockHeader)
    (run : duplicateHeaders.foldlM (build c now fuel) m = some m') :
    ∀ s ∈ m'.headerSubchainSet, s.isActive now := by
  induction duplicateHeaders generalizing m with
  | nil =>
    obtain rfl := Option.some.inj run
    exact alive
  | cons h rest ih =>
    rw [List.foldlM_cons, Option.bind_eq_bind, Option.bind_eq_some_iff] at run
    obtain ⟨next, built, run⟩ := run
    rw [build, Option.map_eq_some_iff] at built
    obtain ⟨⟨flag, s⟩, extended, rfl⟩ := built
    refine ih (fun x member => ?_) run
    obtain old | rfl := mem_insert member
    · exact alive x old
    · exact AgingSubChain.extend_active (AgingSubChain.isActive_now rfl) extended

theorem extend_forget (alive : ∀ s ∈ m.headerSubchainSet, s.isActive now) :
    (m.extend c now fuel enumeration).map (Prod.map id forget) =
      m.forget.extend c fuel (plainOrder enumeration m.headerSubchainSet) := by
  have order : (plainOrder enumeration m.headerSubchainSet).order m.forget.headerSubchainSet =
      (enumeration.order m.headerSubchainSet).map AgingSubChain.toVirtualHeaderSubChain := if_pos rfl
  have pool : m.forget.blockHeaderPool = m.blockHeaderPool := rfl
  have each : ∀ s ∈ enumeration.order m.headerSubchainSet, (s.extend c now m.blockHeaderPool fuel).map _ = _ :=
    fun s member => AgingSubChain.extend_forget (alive s ((enumeration.perm _).mem_iff.mp member))
  rw [extend, VirtualHeaderSyncManager.extend, order, pool, ← mapM_map each, Option.map_map, Option.map_map]
  refine congrArg (Option.map · _) (funext fun extended => ?_)
  have flags : (extended.map (Prod.map id AgingSubChain.toVirtualHeaderSubChain)).any Prod.fst =
      extended.any Prod.fst := by rw [List.any_map]; rfl
  simp only [Function.comp_apply, Prod.map_apply, forget, insertAll_forget, flags, List.map_map]
  rfl

/-- A call that finds all subchains alive does what it does without a clock. -/
theorem add_forget (alive : ∀ s ∈ m.headerSubchainSet, s.isActive now) :
    ∃ plain, (m.add c now fuel enumeration batch).map forget = m.forget.add c fuel plain batch := by
  have built : ((pushAll m.blockHeaderPool batch).2.foldlM (build c now fuel)
      { m with blockHeaderPool := (pushAll m.blockHeaderPool batch).1 }).map forget = _ := buildAll_forget _
  cases run : (pushAll m.blockHeaderPool batch).2.foldlM (build c now fuel)
      { m with blockHeaderPool := (pushAll m.blockHeaderPool batch).1 } with
  | none =>
    have plain := (run ▸ built).symm
    refine ⟨⟨id, fun l => .refl l⟩, ?_⟩
    simp only [add, run, VirtualHeaderSyncManager.add]
    exact Eq.trans rfl (congrArg (Option.bind · _) plain).symm
  | some next =>
    have plain := (run ▸ built).symm
    have alive' := buildAll_alive (m := { m with blockHeaderPool := (pushAll m.blockHeaderPool batch).1 }) alive _ run
    refine ⟨plainOrder enumeration next.headerSubchainSet, ?_⟩
    simp only [add, run, VirtualHeaderSyncManager.add, Option.bind_some]
    refine Eq.trans ?_ (congrArg (Option.bind · _) plain).symm
    rw [Option.map_some, Option.bind_some, ← extend_forget alive', Option.map_map, Option.map_map]
    refine congrArg (Option.map · _) (funext fun r => ?_)
    simp only [Function.comp_apply, Prod.map_fst, Prod.map_snd, id_eq]
    split_ifs <;> rfl

/-- As long as each call finds all subchains alive, a manager goes through the states of one without a clock. -/
theorem addAll_forget (calls : List Call) (alive : Alive c fuel m calls) (run : m.addAll c fuel calls = some m') :
    ∃ plain : List (Enumeration × List BlockHeader), plain.map Prod.snd = calls.map Call.targetVector ∧
      m.forget.addAll c fuel plain = some m'.forget := by
  induction calls generalizing m with
  | nil =>
    obtain rfl := Option.some.inj run
    exact ⟨[], rfl, rfl⟩
  | cons call rest ih =>
    rw [addAll, List.foldlM_cons, Option.bind_eq_bind, Option.bind_eq_some_iff] at run
    obtain ⟨next, added, run⟩ := run
    obtain ⟨enumeration, plain⟩ : ∃ enumeration,
        (m.add c call.now fuel call.enumeration call.targetVector).map forget =
          m.forget.add c fuel enumeration call.targetVector := add_forget alive.1
    rw [added, Option.map_some] at plain
    obtain ⟨later, same, run'⟩ := ih (alive.2 next added) run
    refine ⟨(enumeration, call.targetVector) :: later, by simp [same], ?_⟩
    exact VirtualHeaderSyncManager.addAll_cons.mpr ⟨next.forget, plain.symm, run'⟩

open VirtualHeaderSyncManager (digests child genesis)

def fifo : AgingEnumeration := ⟨id, fun l => .refl l⟩

/-- A manager that has followed a header for six seconds. -/
def sixth : AgingSyncManager where
  startBlockHeader := genesis
  stopHash := none
  blockHeaderPool := [child genesis 1]
  headerSubchainSet := [⟨⟨genesis, child genesis 1, none, false⟩, 6⟩]
  status := .pending

/-- Two headers, each six seconds after what was there before. -/
def sixSecondsEach : List Call := [⟨6, fifo, [child genesis 1]⟩, ⟨12, fifo, [child (child genesis 1) 2]⟩]

theorem addAll_forget_twelve : ∃ m' plain, (create 0 genesis none).addAll digests 3 sixSecondsEach = some m' ∧
    plain.map Prod.snd = [[child genesis 1], [child (child genesis 1) 2]] ∧
    (create 0 genesis none).forget.addAll digests 3 plain = some m'.forget := by
  have first : (create 0 genesis none).add digests 6 3 fifo [child genesis 1] = some sixth := by decide +kernel
  have alive : Alive digests 3 (create 0 genesis none) sixSecondsEach := by
    refine ⟨by decide, fun m added => ?_⟩
    obtain rfl := Option.some.inj (first.symm.trans added)
    exact ⟨by decide, fun _ _ => trivial⟩
  have ends : ((create 0 genesis none).addAll digests 3 sixSecondsEach).isSome := by decide +kernel
  obtain ⟨m', run⟩ := Option.isSome_iff_exists.mp ends
  obtain ⟨plain, same, plainRun⟩ := addAll_forget sixSecondsEach alive run
  exact ⟨m', plain, run, same, plainRun⟩

end Plain

section Forks
open VirtualHeaderSyncManager (Forks pushAll_pool)

/-- The subchain of a header that came second, at its stop hash from the start. -/
def standing (c : Crypto PKey) (now : UInt32) (m : AgingSyncManager) (h : BlockHeader) : AgingSubChain :=
  { m.newSubchain c now h with isStoped := true }

/-- The set after the headers that came second have their subchains. -/
def forked (c : Crypto PKey) (now : UInt32) (m : AgingSyncManager) (duplicateHeaders : List BlockHeader) :
    List AgingSubChain :=
  duplicateHeaders.foldl (fun set h => insert c set (standing c now m h)) m.headerSubchainSet

theorem buildAll_eq (duplicateHeaders : List BlockHeader) :
    duplicateHeaders.foldlM (build c now (fuel + 1)) m =
      some { m with headerSubchainSet := forked c now m duplicateHeaders } := by
  induction duplicateHeaders generalizing m with
  | nil => rfl
  | cons h rest ih =>
    have built : build c now (fuel + 1) m h =
        some { m with headerSubchainSet := insert c m.headerSubchainSet (standing c now m h) } := by
      have active : (m.newSubchain c now h).isActive now := AgingSubChain.isActive_now rfl
      rw [build, AgingSubChain.extend_stop active rfl]
      rfl
    rw [List.foldlM_cons, built, Option.bind_eq_bind, Option.bind_some, ih]
    rfl

theorem add_eq : m.add c now (fuel + 1) enumeration batch =
    ((enumeration.order (forked c now m (pushAll m.blockHeaderPool batch).2)).mapM
      (AgingSubChain.extend c now (pushAll m.blockHeaderPool batch).1 (fuel + 1))).map fun extended =>
        { m with
          blockHeaderPool := (pushAll m.blockHeaderPool batch).1
          headerSubchainSet := (extended.map Prod.snd).foldl (insert c) []
          status := if extended.any Prod.fst then .finished else m.status } := by
  simp only [add, buildAll_eq, Option.bind_some, extend, Option.map_map]
  refine congrArg (Option.map · _) (funext fun extended => ?_)
  cases stop : extended.any Prod.fst <;> simp [stop]

theorem insert_present {s other : AgingSubChain} (member : other ∈ set)
    (same : other.chainDigest c = s.chainDigest c) : insert c set s = set := by
  rw [insert, if_pos]
  exact List.any_eq_true.mpr ⟨other, member, by simpa using same⟩

theorem subset_insert (s : AgingSubChain) : set ⊆ insert c set s := by
  rw [insert]
  split_ifs
  · exact List.Subset.refl _
  · exact List.subset_append_left _ _

theorem subset_forked (duplicateHeaders : List BlockHeader) :
    set ⊆ duplicateHeaders.foldl (fun set h => insert c set (standing c now m h)) set := by
  induction duplicateHeaders generalizing set with
  | nil => exact List.Subset.refl _
  | cons h rest ih => exact List.Subset.trans (subset_insert _) ih

/-- The subchain of a header that forks is among the managed ones. -/
theorem standing_mem {h : BlockHeader} {duplicateHeaders : List BlockHeader} (second : h ∈ duplicateHeaders)
    (absent : ∀ s ∈ set, s.chainDigest c ≠ (standing c now m h).chainDigest c) :
    ∃ h', standing c now m h' ∈ duplicateHeaders.foldl (fun set h => insert c set (standing c now m h)) set := by
  induction duplicateHeaders generalizing set with
  | nil => contradiction
  | cons x rest ih =>
    by_cases there : ∃ other ∈ set, other.chainDigest c = (standing c now m x).chainDigest c
    · obtain ⟨other, inSet, same⟩ := there
      rw [List.foldl_cons, insert_present inSet same]
      exact ih ((List.mem_cons.mp second).resolve_left fun eq => absent other inSet (eq ▸ same)) absent
    · refine ⟨x, subset_forked rest ?_⟩
      have inserted : insert c set (standing c now m x) = set ++ [standing c now m x] :=
        if_neg (by simpa using there)
      show _ ∈ insert c set (standing c now m x)
      rw [inserted]
      exact List.mem_append_right _ (List.mem_singleton_self _)

/-- Without a step to make, only a call that has nothing to do comes to its end. -/
theorem add_zero (run : m.add c now 0 enumeration batch = some m') :
    (pushAll m.blockHeaderPool batch).2 = [] ∧ m.headerSubchainSet = [] ∧
      m' = { m with blockHeaderPool := (pushAll m.blockHeaderPool batch).1, headerSubchainSet := [] } := by
  cases second : (pushAll m.blockHeaderPool batch).2 with
  | cons h rest => simp [add, second, build, AgingSubChain.extend] at run
  | nil =>
    simp only [add, second, List.foldlM_nil, Option.pure_def, Option.bind_some, extend, Option.map_map,
      Option.map_eq_some_iff] at run
    obtain ⟨extended, ran, rfl⟩ := run
    cases set : enumeration.order m.headerSubchainSet with
    | cons s rest =>
      obtain ⟨_, _, stuck, -⟩ := mapM_cons_eq_some.mp (set ▸ ran)
      cases stuck
    | nil =>
      obtain rfl := Option.some.inj (set ▸ ran)
      exact ⟨rfl, List.nil_perm.mp (set ▸ enumeration.perm _), rfl⟩

theorem add_keeps (run : m.add c now fuel enumeration batch = some m') :
    m'.startBlockHeader = m.startBlockHeader ∧ m'.blockHeaderPool = (pushAll m.blockHeaderPool batch).1 := by
  cases fuel with
  | zero =>
    obtain ⟨-, -, rfl⟩ := add_zero run
    exact ⟨rfl, rfl⟩
  | succ fuel =>
    rw [add_eq, Option.map_eq_some_iff] at run
    obtain ⟨extended, -, rfl⟩ := run
    exact ⟨rfl, rfl⟩

/-- A subchain that comes to its stop hash in a call finishes the manager, and so it stays. -/
theorem add_finished (run : m.add c now fuel enumeration batch = some m')
    (stop : m.status = .finished ∨ Forks c m.forget batch) : m'.status = .finished := by
  cases fuel with
  | zero =>
    obtain ⟨none, -, rfl⟩ := add_zero run
    refine stop.resolve_right fun ⟨h, second, _⟩ => ?_
    exact absurd (none ▸ second : h ∈ []) List.not_mem_nil
  | succ fuel =>
    rw [add_eq, Option.map_eq_some_iff] at run
    obtain ⟨extended, ran, rfl⟩ := run
    refine ite_eq_left_iff.mpr fun flag => stop.resolve_right fun ⟨h, second, absent⟩ => flag ?_
    obtain ⟨h', member⟩ : ∃ h', standing c now m h' ∈ forked c now m (pushAll m.blockHeaderPool batch).2 :=
      standing_mem second fun s inSet => absent _ (List.mem_map_of_mem inSet)
    have active : (standing c now m h').isActive now := AgingSubChain.isActive_now rfl
    exact List.any_eq_true.mpr ⟨_, (mem_mapM ran _).mpr
      ⟨_, (enumeration.perm _).mem_iff.mpr member, AgingSubChain.extend_stop active rfl⟩, rfl⟩

/-- A manager without a stop hash and with the one subchain from its start, which arrived headers link to the
start. -/
structure Single (c : Crypto PKey) (m : AgingSyncManager) (added : List BlockHeader) (s : AgingSubChain) :
    Prop where
  single : m.headerSubchainSet = [s]
  stopHash : s.stopHash = none
  connected : ReflTransGen (Links c added) m.startBlockHeader s.latestBlockHeader
  pool : m.blockHeaderPool ⊆ added
  named : ∀ h ∈ m.blockHeaderPool, h.prevBlockHash.isSome

theorem create_single (c : Crypto PKey) (added : List BlockHeader) (now : UInt32) (startBlockHeader : BlockHeader) :
    Single c (create now startBlockHeader none) added ⟨⟨startBlockHeader, startBlockHeader, none, false⟩, now⟩ :=
  ⟨rfl, rfl, .refl, List.nil_subset _, nofun⟩

theorem Single.mono {s : AgingSubChain} {more : List BlockHeader} (alone : Single c m added s)
    (within : added ⊆ more) : Single c m more s :=
  { alone with
    connected := ReflTransGen.mono (fun _ _ links => Links.mono links within) _ _ alone.connected
    pool := List.Subset.trans alone.pool within }

/-- Without a fork the set stays as it is. -/
theorem forked_of_not_forks (steady : ¬Forks c m.forget batch) :
    forked c now m (pushAll m.blockHeaderPool batch).2 = m.headerSubchainSet := by
  have present : ∀ h ∈ (pushAll m.blockHeaderPool batch).2, ∃ s ∈ m.headerSubchainSet,
      s.chainDigest c = (standing c now m h).chainDigest c := by
    intro h second
    by_contra absent
    push Not at absent
    refine steady ⟨h, second, fun s member => ?_⟩
    obtain ⟨s, inSet, rfl⟩ := List.mem_map.mp member
    exact absent s inSet
  rw [forked]
  generalize (pushAll m.blockHeaderPool batch).2 = duplicateHeaders at present
  induction duplicateHeaders with
  | nil => rfl
  | cons h rest ih =>
    obtain ⟨other, member, same⟩ := present h List.mem_cons_self
    rw [List.foldl_cons, insert_present member same]
    exact ih fun h' inRest => present h' (List.mem_cons_of_mem _ inRest)

/-- Without a fork the one subchain goes on, and nothing finishes. -/
theorem Single.add {s : AgingSubChain} (alone : Single c m added s)
    (run : m.add c now fuel enumeration batch = some m') (steady : ¬Forks c m.forget batch) :
    m'.status = m.status ∧ ∃ s', Single c m' (added ++ batch) s' := by
  cases fuel with
  | zero => exact nomatch alone.single.symm.trans (add_zero run).2.1
  | succ fuel =>
    have order : enumeration.order [s] = [s] := List.perm_singleton.mp (enumeration.perm _)
    rw [add_eq, forked_of_not_forks steady, alone.single, order, Option.map_eq_some_iff] at run
    obtain ⟨extended, ran, rfl⟩ := run
    obtain ⟨⟨flag, s'⟩, rest, ends, nothing, rfl⟩ := mapM_cons_eq_some.mp ran
    obtain rfl : rest = [] := by simpa using nothing.symm
    have moved := AgingSubChain.extend_run ends
    have never : s'.stopHash = none := moved.stopHash.trans alone.stopHash
    obtain rfl : flag = false := by
      by_contra told
      exact nomatch never.symm.trans (moved.stoped (by simpa using told))
    have within : (pushAll m.blockHeaderPool batch).1 ⊆ added ++ batch := pushAll_subset alone.pool
    refine ⟨rfl, s', rfl, never, ?_, within, ?_⟩
    · have old := (alone.mono (List.subset_append_left added batch)).connected
      exact old.trans (ReflTransGen.mono (fun a b links => Links.mono links within) _ _ moved.path)
    · simp only [pushAll_pool, List.forall_mem_append]
      exact ⟨alone.named, fun h member => (List.mem_filter.mp member).2⟩

/-- A header with the same previous block as one of the pool is second, if not so many came that a `short`
overflows. -/
theorem second_of_pool {pool batch : List BlockHeader} {h : BlockHeader} {prevBlockHash : List UInt8}
    (prev : h.prevBlockHash = some prevBlockHash) (inBatch : h ∈ batch)
    (before : 0 < (findByPrevBlockHash pool prevBlockHash).length)
    (few : (findByPrevBlockHash (pool ++ batch) prevBlockHash).length < 2 ^ 15) : h ∈ (pushAll pool batch).2 := by
  induction batch generalizing pool with
  | nil => cases inBatch
  | cons target rest ih =>
    rw [pushAll]
    rcases List.mem_cons.mp inBatch with rfl | later
    · have own : h.previousBlockHeaderHash.toList = prevBlockHash := by
        rw [BlockHeader.prevBlockHash] at prev
        split_ifs at prev
        exact Option.some.inj prev
      have count : 1 < toShort (toShort (findByPrevBlockHash pool prevBlockHash).length + 1) := by
        simp only [findByPrevBlockHash, List.filter_append, List.length_append, own, List.filter_cons, decide_true,
          if_true, List.length_cons] at few before
        simp only [findByPrevBlockHash, toShort]
        omega
      simp only [push, prev, count, and_self, if_true]
      exact List.mem_cons_self
    · have pushed : (push pool target).2 = pool ∨ (push pool target).2 = pool ++ [target] := by
        unfold push
        split
        · exact Or.inl rfl
        · exact Or.inr rfl
      have among : h ∈ (pushAll (push pool target).2 rest).2 := by
        refine ih later ?_ ?_
        · rcases pushed with same | more
          · rwa [same]
          · rw [more]
            exact before.trans_le ((List.sublist_append_left pool [target]).filter _).length_le
        · refine lt_of_le_of_lt ((List.Sublist.filter _ ?_).length_le) few
          rcases pushed with same | more
          · rw [same]
            exact (List.sublist_cons_self target rest).append_left pool
          · rw [more, List.append_assoc]
            exact List.Sublist.refl _
      dsimp only
      split_ifs
      · exact List.mem_cons_of_mem _ among
      · exact among

/-- A header of the pool that comes again forks, when no subchain ends with it. -/
theorem forks_again {batch : List BlockHeader} {h : BlockHeader} (member : h ∈ m.blockHeaderPool)
    (inBatch : h ∈ batch) (named : h.prevBlockHash.isSome)
    (few : (findByPrevBlockHash (m.blockHeaderPool ++ batch) h.previousBlockHeaderHash.toList).length < 2 ^ 15)
    (absent : ∀ s ∈ m.headerSubchainSet,
      s.chainDigest c ≠ c.sha1 (m.startBlockHeader.headerHash c ++ h.headerHash c)) :
    Forks c m.forget batch := by
  have prev : h.prevBlockHash = some h.previousBlockHeaderHash.toList := by
    rw [BlockHeader.prevBlockHash] at named ⊢
    split_ifs at named ⊢ with zeros
    · cases named
    · rfl
  have before : 0 < (findByPrevBlockHash m.blockHeaderPool h.previousBlockHeaderHash.toList).length :=
    List.length_pos_of_mem (mem_findByPrevBlockHash.mpr ⟨member, rfl⟩)
  refine ⟨h, second_of_pool prev inBatch before few, fun plain inSet => ?_⟩
  obtain ⟨s, managed, rfl⟩ := List.mem_map.mp inSet
  exact absent s managed

end Forks

end AgingSyncManager

end MiyaCore.Chain
