import MiyaCore.Chain.BlockSync
import MiyaCore.Chain.HeaderAging
import MiyaCore.Chain.HeaderExport

/-!
# Chain sync

`forward` starts a builder that collects headers on top of its fork point, or of the blocks before it, and then
downloads their blocks. Headers and blocks of other nodes come while the builder sleeps. A filter keeps a control
block for each of their hashes.
-/

namespace MiyaCore.Chain
open Relation

variable {PKey : Type} (c : Crypto PKey)

/-- `BDState`. -/
inductive BDState where
  | blockHashReceived
  | blockHeaderReceived
  | blockHeaderValidated
  | blockBodyReceived
  | blockBodyValidated
  | blockStored
  | error
  | empty
deriving DecidableEq

def BDState.toInt : BDState → Int
  | .blockHashReceived => 1
  | .blockHeaderReceived => 2
  | .blockHeaderValidated => 3
  | .blockBodyReceived => 4
  | .blockBodyValidated => 5
  | .blockStored => 6
  | .error => -2
  | .empty => 0

/-- `BDBCB`: the status, and the hash in its cache. -/
structure BDBCB where
  blockHash : List UInt8
  status : BDState
deriving DecidableEq

/-- `BDFilter`: a map from hashes to control blocks, here a list of them. -/
abbrev BDFilter := List BDBCB

namespace BDFilter

/-- The search and the insertion that the three variants of `filter` share. -/
def lookup (filter : BDFilter) (newValue : BDBCB) (isReject : Bool) : Option BDBCB × BDFilter :=
  match filter.find? fun cb => cb.blockHash = newValue.blockHash with
  | some cb => (some cb, filter)
  | none => if isReject then (none, filter) else (some newValue, filter ++ [newValue])

/-- `filter` for a block. -/
def filterBlock (filter : BDFilter) (target : Block PKey) (isReject : Bool) : Option BDBCB × BDFilter :=
  filter.lookup ⟨target.blockHash c, .blockBodyReceived⟩ isReject

/-- `filter` for a header. -/
def filterHeader (filter : BDFilter) (target : BlockHeader) (isReject : Bool) : Option BDBCB × BDFilter :=
  filter.lookup ⟨target.headerHash c, .blockHeaderReceived⟩ isReject

/-- `status` of a control block that the filter holds. -/
def setStatus (filter : BDFilter) (blockHash : List UInt8) (target : BDState) : BDFilter :=
  filter.map fun cb => if cb.blockHash = blockHash then { cb with status := target } else cb

/-- The headers of a vector that the loop of `add` passes on. -/
def pass (filter : BDFilter) : List BlockHeader → List BlockHeader × BDFilter
  | [] => ([], filter)
  | target :: rest =>
    match filter.filterHeader c target false with
    | (none, filter) => pass filter rest
    | (some filterCtx, filter) =>
      if BDState.blockHeaderReceived.toInt < filterCtx.status.toInt then pass filter rest
      else
        let (passed, filter) := pass (filter.setStatus filterCtx.blockHash .blockHeaderReceived) rest
        (target :: passed, filter)

end BDFilter

namespace BlockChainIterator

/-- `isHead` compares the cached hash with zeros. -/
def isHead (it : BlockChainIterator PKey) : Option Bool := do
  let blockHash ← it.blockHash
  return blockHash = List.replicate 32 0

def header (it : BlockChainIterator PKey) : Option BlockHeader := it.body.map Block.header

end BlockChainIterator

/-- `ChainSyncManagerState`. -/
inductive ChainSyncManagerState where
  | working
  | pending
  | finished
  | headerSyncManagerWorking
  | headerSyncManagerDone
  | headerSyncManagerFailed
  | blockSyncManagerWorking
  | blockSyncManagerFailed
  | blockSyncManagerDone
  | timeout
  | error
deriving DecidableEq

/-- Where the thread that `forward` starts is: it sleeps in the header sync, in the loop of the window download
or after it, each with the count that it keeps, or it has ended. -/
inductive VchainBuilder where
  | unstarted
  | inHeaders (forkPointDecrimentsCount : Nat)
  | inWindow (retransmissionCount : Nat)
  | afterWindow
  | ended
deriving DecidableEq

/-- `ALLOWED_FORKPOINT_DECREMENTS`. -/
def ALLOWED_FORKPOINT_DECREMENTS : Nat := 4

/-- `ChainSyncManager`, with the blocks in its storage and the builder. -/
structure ChainSyncManager (PKey : Type) where
  forkPoint : BlockChainIterator PKey
  stored : List (Block PKey)
  status : ChainSyncManagerState := .pending
  filter : BDFilter
  headerSyncManager : Option AgingSyncManager := none
  blockSyncManager : Option (VirtualBlockSyncManager PKey) := none
  vchainBuilder : VchainBuilder := .unstarted

namespace ChainSyncManager

/-- The constructor. Without a block at the fork point it returns before the status is set. -/
def create (initialForkPoint : BlockChainIterator PKey) (stored : List (Block PKey)) :
    Option (ChainSyncManager PKey) := do
  let forkPointBlock ← initialForkPoint.body
  return { forkPoint := initialForkPoint, stored, filter := (BDFilter.filterBlock c [] forkPointBlock false).2 }

variable (m : ChainSyncManager PKey)

/-- One turn of the loop of `forward`, up to the sleep in the header sync. -/
def syncHeaders (now : UInt32) (forkPointDecrimentsCount : Nat) : Option (ChainSyncManager PKey) := do
  if ← m.forkPoint.isHead then
    return { m with status := .headerSyncManagerFailed, vchainBuilder := .ended }
  let header ← m.forkPoint.header
  return { m with
    headerSyncManager := some (AgingSyncManager.create now header none)
    status := .headerSyncManagerWorking
    vchainBuilder := .inHeaders forkPointDecrimentsCount }

/-- The end of `forward`, with what `start` of the block sync manager returned. -/
def endBlockSync (blockSyncCompleteFlag : Bool) (b : VirtualBlockSyncManager PKey) : ChainSyncManager PKey :=
  { m with
    blockSyncManager := some b
    status := if blockSyncCompleteFlag then .blockSyncManagerDone else .blockSyncManagerFailed
    vchainBuilder := .ended }

/-- The condition of the loop of `downloadWindow`, and the sleep that follows. -/
def awaitWindow (retransmissionCount : Nat) (b : VirtualBlockSyncManager PKey) : ChainSyncManager PKey :=
  { m with
    blockSyncManager := some b
    vchainBuilder :=
      if !b.unChaindedWindow.isComplete ∧ retransmissionCount ≤ ALLOWED_RETRANSMISSION_COUNT then
        .inWindow (retransmissionCount + 1)
      else .afterWindow }

/-- What `forward` does after its header sync, up to a sleep in `start` of the block sync manager or to its own
last line. -/
def syncBlocks (fuel : Nat) (longestHeaderChain : List BlockHeader) : Option (ChainSyncManager PKey) := do
  let m := { m with status := ChainSyncManagerState.headerSyncManagerDone }
  let b := VirtualBlockSyncManager.create longestHeaderChain m.stored
  if 0 < b.chain.length then
    let (windowTargetVBVector, _) ← VirtualBlockSyncManager.collect b.chain fuel b.verifiedIndex []
    if windowTargetVBVector = [] then return m.endBlockSync true b
    return m.awaitWindow 1 (b.setupWindow c windowTargetVBVector)
  else return m.endBlockSync true b

/-- The first of the longest chains. -/
def longest (headerChains : List (List BlockHeader)) : List BlockHeader :=
  headerChains.foldl (fun longestHeaderChain headerChain =>
    if longestHeaderChain.length < headerChain.length then headerChain else longestHeaderChain) []

/-- What the builder does when a sleep is over, up to the next one. The keys that an export makes of null pointers
have what was there. -/
def wake (now : UInt32) (fuel : Nat) (enumeration : AgingEnumeration) (uninitialised : List UInt8) :
    Option (ChainSyncManager PKey) :=
  match m.vchainBuilder with
  | .unstarted | .ended => none
  | .inHeaders forkPointDecrimentsCount => do
    let h ← m.headerSyncManager
    if 0 < h.activeSubchainCount now ∨ h.status = .finished then return m
    let headerChains ← (enumeration.order h.headerSubchainSet).mapM fun s =>
      s.exportChainVector c h.blockHeaderPool uninitialised fuel
    let longestHeaderChain := longest headerChains
    if 1 < longestHeaderChain.length then m.syncBlocks c fuel longestHeaderChain
    else
      let forkPoint ← m.forkPoint.decrement
      let m := { m with forkPoint }
      if forkPointDecrimentsCount + 1 < ALLOWED_FORKPOINT_DECREMENTS then
        m.syncHeaders now (forkPointDecrimentsCount + 1)
      else
        -- the status tells of a failure only until `syncBlocks` sets it again
        m.syncBlocks c fuel []
  | .inWindow retransmissionCount => do
    let b ← m.blockSyncManager
    return m.awaitWindow retransmissionCount b
  | .afterWindow => do
    let b ← m.blockSyncManager
    if b.unChaindedWindow.isComplete then
      let b ← VirtualBlockSyncManager.writeFrom b.unChaindedWindow.windowSize 0 b
      return m.endBlockSync true b
    else return m.endBlockSync true b

/-- `add` for headers. -/
def addHeaders (now : UInt32) (fuel : Nat) (enumeration : AgingEnumeration) (targetVector : List BlockHeader) :
    Option (ChainSyncManager PKey) :=
  if m.status ≠ .headerSyncManagerWorking then some m
  else do
    let (passedHeaderVector, filter) := m.filter.pass c targetVector
    let h ← m.headerSyncManager
    let h ← h.add c now fuel enumeration passedHeaderVector
    return { m with filter, headerSyncManager := some h }

/-- `add` for a block. -/
def addBlock (targetBlock : Block PKey) : Option (ChainSyncManager PKey) :=
  if m.status ≠ .blockSyncManagerWorking then some m
  else
    match m.filter.filterBlock c targetBlock false with
    | (none, filter) => some { m with filter }
    | (some filterCtx, filter) =>
      if BDState.blockBodyReceived.toInt < filterCtx.status.toInt then some { m with filter }
      else do
        let b ← m.blockSyncManager
        return { m with
          filter
          blockSyncManager := some { b with unChaindedWindow := b.unChaindedWindow.add c targetBlock } }

/-- What happens to a manager: a call, or the end of a sleep of its builder. Only one builder is started. -/
inductive Event (PKey : Type) where
  | forward (now : UInt32)
  | headers (now : UInt32) (enumeration : AgingEnumeration) (targetVector : List BlockHeader)
  | block (targetBlock : Block PKey)
  | wake (now : UInt32) (enumeration : AgingEnumeration) (uninitialised : List UInt8)

/-- One event. There is no next state where the code has no defined behaviour, where it does not get to a sleep within
the fuel, and for a sleep that nobody sleeps. -/
def step (fuel : Nat) : Event PKey → Option (ChainSyncManager PKey)
  | .forward now => if m.vchainBuilder = .unstarted then m.syncHeaders now 0 else none
  | .headers now enumeration targetVector => m.addHeaders c now fuel enumeration targetVector
  | .block targetBlock => m.addBlock c targetBlock
  | .wake now enumeration uninitialised => m.wake c now fuel enumeration uninitialised

def run (fuel : Nat) (events : List (Event PKey)) : Option (ChainSyncManager PKey) :=
  events.foldlM (fun m event => m.step c fuel event) m

/-- The headers that arrive with an event. -/
def Event.delivered : Event PKey → List BlockHeader
  | .headers _ _ targetVector => targetVector
  | .forward _ | .block _ | .wake _ _ _ => []

end ChainSyncManager

variable {c} {delivered : List BlockHeader}

namespace VirtualBlockSyncManager

variable {headers : List BlockHeader} {stored : List (Block PKey)} {m m' : VirtualBlockSyncManager PKey}

/-- A window as it was set up is complete only with blocks from the storage, and of it nothing is written. -/
theorem writeFrom_setup {n i : Nat}
    (complete : ((create headers stored).setupWindow c headers).unChaindedWindow.isComplete)
    (run : writeFrom n i ((create headers stored).setupWindow c headers) = some m') :
    m' = (create headers stored).setupWindow c headers := by
  induction n generalizing i with
  | zero => exact (Option.some.inj run).symm
  | succ n ih =>
    rw [writeFrom, UnChaindedWindow.segmentAt] at run
    cases found : ((create headers stored).setupWindow c headers).unChaindedWindow.segmentVector[i]? with
    | none => simp [found] at run
    | some segment =>
      have member := List.mem_of_getElem? found
      have there : segment.body.isSome := List.all_eq_true.mp complete segment member
      obtain ⟨h, -, rfl⟩ := List.mem_map.mp member
      have isLocal : ((create headers stored).segmentOf c h).isLocal = true := there
      simp only [found, isLocal, if_true] at run
      exact ih run

theorem downloadWindow_alone (allowed : Nat) (w : UnChaindedWindow PKey) :
    w.downloadWindow c allowed [] = (w.isComplete, w) := by
  obtain ⟨waits, -, run, -⟩ := UnChaindedWindow.downloadWindow_run (c := c) allowed w []
  simpa [UnChaindedWindow.receive] using run

/-- Without arrivals, `start` leaves its window as it set it up, when nothing is to write. -/
theorem start_alone (short : headers.length < 2 ^ 32) (nonempty : headers ≠ [])
    (set : m = (create headers stored).setupWindow c headers)
    (wrote : m.unChaindedWindow.isComplete → writeFrom m.unChaindedWindow.windowSize 0 m = some m) :
    (create headers stored).start c (headers.length + 2) [] = some (true, m) := by
  have chain : (create headers stored).chain = headers := List.take_of_length_le short.le
  have kept : m.chain = headers := by rw [set]; exact chain
  have first : (create headers stored).verifiedIndex = 0 := rfl
  have room : headers.length - 0 < headers.length + 1 := by omega
  have collected := collect_eq short (Nat.zero_le _) (headers.length + 1) []
  rw [if_pos room, List.nil_append, List.drop_zero] at collected
  rw [start, startFrom, chain, if_pos (List.length_pos_of_ne_nil nonempty), first, collected]
  simp only [Option.bind_eq_bind, Option.bind_some, if_neg nonempty, ← set, downloadWindow_alone]
  cases complete : m.unChaindedWindow.isComplete with
  | false => rfl
  | true =>
    simp only [Bool.not_true, Bool.false_eq_true, if_false, wrote complete, Option.bind_some]
    rw [startFrom, kept, if_neg (lt_irrefl _)]
    rfl

end VirtualBlockSyncManager

namespace BDFilter

theorem pass_subset (filter : BDFilter) (targetVector : List BlockHeader) :
    (filter.pass c targetVector).1 ⊆ targetVector := by
  induction targetVector generalizing filter with
  | nil => exact List.Subset.refl _
  | cons target rest ih =>
    rw [pass]
    split
    · exact List.subset_cons_of_subset _ (ih _)
    · split_ifs
      · exact List.subset_cons_of_subset _ (ih _)
      · exact List.cons_subset_cons _ (ih _)

end BDFilter

/-- An exported chain goes back from its first header over the pool, hash by hash. -/
theorem exportFrom_linked {pool : List BlockHeader} {uninitialised : List UInt8} {fuel : Nat} {h : BlockHeader}
    {chain : List BlockHeader}
    (run : VirtualHeaderSubChain.exportFrom c pool uninitialised fuel (some h) = some chain) :
    ∃ rest, chain = h :: rest ∧ rest ⊆ pool ∧
      chain.IsChain fun later earlier => ∀ hash ∈ later.prevBlockHash, earlier.headerHash c = hash := by
  induction fuel generalizing h chain with
  | zero => cases run
  | succ fuel ih =>
    rw [VirtualHeaderSubChain.exportFrom, Option.map_eq_some_iff] at run
    obtain ⟨rest, more, rfl⟩ := run
    cases found : BlockHeaderPool.findByBlockHash c pool uninitialised h.prevBlockHash with
    | none =>
      rw [found] at more
      obtain rfl : [] = rest := by cases fuel <;> exact Option.some.inj more
      exact ⟨[], rfl, List.nil_subset _, List.isChain_singleton _⟩
    | some next =>
      rw [found] at more
      obtain ⟨tail, rfl, within, linked⟩ := ih more
      obtain ⟨member, hash⟩ := findByBlockHash_mem found
      refine ⟨next :: tail, rfl, List.cons_subset.mpr ⟨member, within⟩, List.isChain_cons_cons.mpr ⟨?_, linked⟩⟩
      exact fun named previous => hash.trans (congrArg (Option.getD · uninitialised) (Option.mem_def.mp previous))

namespace ChainSyncManager
open VirtualBlockSyncManager (setupWindow collect_eq collect_endless writeFrom_setup start_alone)

variable {forkPoint : BlockChainIterator PKey} {stored : List (Block PKey)} {m m' : ChainSyncManager PKey}
  {fuel : Nat} {headers : List BlockHeader}

/-- A chain of two headers or more that goes back, wherever a header names its previous block, by its hashes, and
begins with a header that those delivered link to the start. -/
structure OnTopOf (c : Crypto PKey) (delivered : List BlockHeader) (start : BlockHeader)
    (headers : List BlockHeader) : Prop where
  latest : ∃ latest rest, headers = latest :: rest ∧ rest ⊆ delivered ∧ ReflTransGen (Links c delivered) start latest
  long : 1 < headers.length
  linked : headers.IsChain fun later earlier => ∀ hash ∈ later.prevBlockHash, earlier.headerHash c = hash

/-- The headers whose blocks are downloaded: none, or a chain on top of the fork point or of one of the three
blocks before it. -/
def Asked (c : Crypto PKey) (forkPoint : BlockChainIterator PKey) (delivered headers : List BlockHeader) : Prop :=
  headers = [] ∨ ∃ k < ALLOWED_FORKPOINT_DECREMENTS, ∃ it start, forkPoint.decrements k = some it ∧
    it.header = some start ∧ OnTopOf c delivered start headers

theorem Asked.mono {more : List BlockHeader} (asked : Asked c forkPoint delivered headers)
    (within : delivered ⊆ more) : Asked c forkPoint more headers := by
  refine asked.imp_right fun ⟨k, bound, it, start, back, header, ⟨latest, rest, eq, old, path⟩, long, linked⟩ => ?_
  exact ⟨k, bound, it, start, back, header, ⟨latest, rest, eq, List.Subset.trans old within,
    ReflTransGen.mono (fun _ _ links => Links.mono links within) _ _ path⟩, long, linked⟩

/-- How far a run has come. -/
inductive Stage (c : Crypto PKey) (forkPoint : BlockChainIterator PKey) (stored : List (Block PKey))
    (delivered : List BlockHeader) (m : ChainSyncManager PKey) : Prop
  | unstarted (place : m.vchainBuilder = .unstarted) (status : m.status = .pending)
      (fresh : m.forkPoint = forkPoint) (none : m.blockSyncManager = none)
  | collecting (count : Nat) (h : AgingSyncManager) (place : m.vchainBuilder = .inHeaders count)
      (status : m.status = .headerSyncManagerWorking) (bound : count < ALLOWED_FORKPOINT_DECREMENTS)
      (back : forkPoint.decrements count = some m.forkPoint) (none : m.blockSyncManager = none)
      (manager : m.headerSyncManager = some h) (start : m.forkPoint.header = some h.startBlockHeader)
      (grows : h.status = .finished ∨ ∃ s, AgingSyncManager.Single c h delivered s)
  | downloading (headers : List BlockHeader)
      (place : (∃ count, m.vchainBuilder = .inWindow count) ∨ m.vchainBuilder = .afterWindow)
      (status : m.status = .headerSyncManagerDone) (asked : Asked c forkPoint delivered headers)
      (short : headers.length < 2 ^ 32) (nonempty : headers ≠ [])
      (manager : m.blockSyncManager = some ((VirtualBlockSyncManager.create headers stored).setupWindow c headers))
  | failed (place : m.vchainBuilder = .ended) (status : m.status = .headerSyncManagerFailed)
      (head : m.forkPoint.isHead = some true) (none : m.blockSyncManager = none)
  | done (b : VirtualBlockSyncManager PKey) (fuel : Nat) (place : m.vchainBuilder = .ended)
      (status : m.status = .blockSyncManagerDone) (manager : m.blockSyncManager = some b)
      (asked : Asked c forkPoint delivered b.chain) (written : b.written = [])
      (ran : (VirtualBlockSyncManager.create b.chain stored).start c fuel [] = some (true, b))

theorem Stage.mono {more : List BlockHeader} (stage : Stage c forkPoint stored delivered m)
    (within : delivered ⊆ more) : Stage c forkPoint stored more m := by
  cases stage with
  | unstarted place status fresh none => exact .unstarted place status fresh none
  | collecting count h place status bound back none manager start grows =>
    exact .collecting count h place status bound back none manager start
      (grows.imp_right fun ⟨s, alone⟩ => ⟨s, alone.mono within⟩)
  | downloading headers place status asked short nonempty manager =>
    exact .downloading headers place status (asked.mono within) short nonempty manager
  | failed place status head none => exact .failed place status head none
  | done b fuel place status manager asked written ran =>
    exact .done b fuel place status manager (asked.mono within) written ran

theorem syncHeaders_stage {now : UInt32} {count : Nat} (bound : count < ALLOWED_FORKPOINT_DECREMENTS)
    (back : forkPoint.decrements count = some m.forkPoint) (none : m.blockSyncManager = none)
    (run : m.syncHeaders now count = some m') :
    m'.stored = m.stored ∧ Stage c forkPoint stored delivered m' := by
  rw [syncHeaders, Option.bind_eq_bind, Option.bind_eq_some_iff] at run
  obtain ⟨isHead, head, run⟩ := run
  cases isHead with
  | true =>
    obtain rfl := Option.some.inj run
    exact ⟨rfl, .failed rfl rfl head none⟩
  | false =>
    simp only [Bool.false_eq_true, if_false, Option.bind_eq_bind, Option.bind_eq_some_iff] at run
    obtain ⟨header, start, done⟩ := run
    obtain rfl := Option.some.inj done
    exact ⟨rfl, .collecting count _ rfl rfl bound back none rfl start
      (Or.inr ⟨_, AgingSyncManager.create_single c delivered now header⟩)⟩

theorem awaitWindow_stage {count : Nat} (status : m.status = .headerSyncManagerDone)
    (asked : Asked c forkPoint delivered headers) (short : headers.length < 2 ^ 32) (nonempty : headers ≠ []) :
    Stage c forkPoint stored delivered
      (m.awaitWindow count ((VirtualBlockSyncManager.create headers stored).setupWindow c headers)) := by
  refine .downloading headers ?_ status asked short nonempty rfl
  simp only [awaitWindow]
  split_ifs
  · exact Or.inl ⟨_, rfl⟩
  · exact Or.inr rfl

theorem syncBlocks_stage (storage : m.stored = stored) (asked : Asked c forkPoint delivered headers)
    (run : m.syncBlocks c fuel headers = some m') : m'.stored = stored ∧ Stage c forkPoint stored delivered m' := by
  have first : (VirtualBlockSyncManager.create headers stored).verifiedIndex = 0 := rfl
  simp only [syncBlocks, storage] at run
  split_ifs at run with some
  · rw [first, Option.bind_eq_bind, Option.bind_eq_some_iff] at run
    obtain ⟨⟨collected, index⟩, collecting, run⟩ := run
    have short : headers.length < 2 ^ 32 := by
      by_contra long
      have full : (VirtualBlockSyncManager.create headers stored).chain.length = 2 ^ 32 :=
        List.length_take_of_le (not_lt.mp long)
      exact nomatch (collect_endless full fuel (by decide) []).symm.trans collecting
    have chain : (VirtualBlockSyncManager.create headers stored).chain = headers := List.take_of_length_le short.le
    rw [chain] at some collecting
    have nonempty : headers ≠ [] := List.ne_nil_of_length_pos some
    rw [collect_eq short (Nat.zero_le _), List.nil_append, List.drop_zero] at collecting
    obtain ⟨-, same⟩ := Option.ite_none_right_eq_some.mp collecting
    obtain ⟨rfl, -⟩ := Prod.mk.inj (Option.some.inj same)
    rw [if_neg nonempty] at run
    obtain rfl := Option.some.inj run
    exact ⟨rfl, awaitWindow_stage rfl asked short nonempty⟩
  · have empty : headers = [] := by
      have size : min (2 ^ 32) headers.length = 0 := (List.length_take ..).symm.trans (Nat.eq_zero_of_not_pos some)
      exact List.eq_nil_of_length_eq_zero (by omega)
    subst empty
    obtain rfl := Option.some.inj run
    exact ⟨rfl, .done _ 1 rfl rfl rfl (Or.inl rfl) rfl rfl⟩

/-- The chain of a manager with one subchain is the longest. -/
theorem longest_singleton (chain : List BlockHeader) : longest [chain] = chain := by
  cases chain <;> rfl

/-- Without a fork there is one chain to choose from, and it is on top of the start. -/
theorem onTopOf {h : AgingSyncManager} {s : AgingSubChain} {enumeration : AgingEnumeration}
    {uninitialised : List UInt8} {headerChains : List (List BlockHeader)}
    (alone : AgingSyncManager.Single c h delivered s)
    (exports : (enumeration.order h.headerSubchainSet).mapM
      (fun s => s.exportChainVector c h.blockHeaderPool uninitialised fuel) = some headerChains)
    (long : 1 < (longest headerChains).length) :
    OnTopOf c delivered h.startBlockHeader (longest headerChains) := by
  have order : enumeration.order [s] = [s] := List.perm_singleton.mp (enumeration.perm _)
  rw [alone.single, order] at exports
  obtain ⟨chain, rest, exported, nothing, rfl⟩ := mapM_cons_eq_some.mp exports
  obtain rfl : rest = [] := by simpa using nothing.symm
  rw [longest_singleton] at long ⊢
  obtain ⟨rest, eq, within, linked⟩ := exportFrom_linked exported
  exact ⟨⟨_, rest, eq, List.Subset.trans within alone.pool, alone.connected⟩, long, linked⟩

/-- What the builder does after a sleep. -/
inductive Woken (c : Crypto PKey) (now : UInt32) (fuel : Nat) (enumeration : AgingEnumeration)
    (uninitialised : List UInt8) (m m' : ChainSyncManager PKey) : Prop
  | asleep (count : Nat) (h : AgingSyncManager) (place : m.vchainBuilder = .inHeaders count)
      (manager : m.headerSyncManager = some h)
      (waits : 0 < h.activeSubchainCount now ∨ h.status = .finished) (same : m' = m)
  | collected (count : Nat) (h : AgingSyncManager) (headerChains : List (List BlockHeader))
      (place : m.vchainBuilder = .inHeaders count) (manager : m.headerSyncManager = some h)
      (going : h.status ≠ .finished)
      (exports : (enumeration.order h.headerSubchainSet).mapM
        (fun s => s.exportChainVector c h.blockHeaderPool uninitialised fuel) = some headerChains)
      (long : 1 < (longest headerChains).length) (next : m.syncBlocks c fuel (longest headerChains) = some m')
  | back (count : Nat) (it : BlockChainIterator PKey) (place : m.vchainBuilder = .inHeaders count)
      (stepped : m.forkPoint.decrement = some it) (again : count + 1 < ALLOWED_FORKPOINT_DECREMENTS)
      (next : { m with forkPoint := it }.syncHeaders now (count + 1) = some m')
  | givenUp (count : Nat) (it : BlockChainIterator PKey) (place : m.vchainBuilder = .inHeaders count)
      (next : { m with forkPoint := it }.syncBlocks c fuel [] = some m')
  | waited (count : Nat) (b : VirtualBlockSyncManager PKey) (place : m.vchainBuilder = .inWindow count)
      (manager : m.blockSyncManager = some b) (next : m' = m.awaitWindow count b)
  | ended (b b' : VirtualBlockSyncManager PKey) (place : m.vchainBuilder = .afterWindow)
      (manager : m.blockSyncManager = some b)
      (wrote : if b.unChaindedWindow.isComplete then
        VirtualBlockSyncManager.writeFrom b.unChaindedWindow.windowSize 0 b = some b' else b' = b)
      (next : m' = m.endBlockSync true b')

theorem woken {now : UInt32} {enumeration : AgingEnumeration} {uninitialised : List UInt8}
    (run : m.wake c now fuel enumeration uninitialised = some m') :
    Woken c now fuel enumeration uninitialised m m' := by
  rw [wake] at run
  split at run
  next => contradiction
  next => contradiction
  next count place =>
    simp only [Option.bind_eq_bind, Option.bind_eq_some_iff] at run
    obtain ⟨h, manager, run⟩ := run
    by_cases waits : 0 < h.activeSubchainCount now ∨ h.status = .finished
    · rw [if_pos waits] at run
      exact .asleep count h place manager waits (Option.some.inj run).symm
    · rw [if_neg waits, Option.bind_eq_some_iff] at run
      obtain ⟨headerChains, exports, run⟩ := run
      by_cases long : 1 < (longest headerChains).length
      · rw [if_pos long] at run
        exact .collected count h headerChains place manager (not_or.mp waits).2 exports long run
      · rw [if_neg long, Option.bind_eq_some_iff] at run
        obtain ⟨it, stepped, run⟩ := run
        split_ifs at run with again
        · exact .back count it place stepped again run
        · exact .givenUp count it place run
  next count place =>
    simp only [Option.bind_eq_bind, Option.bind_eq_some_iff] at run
    obtain ⟨b, manager, done⟩ := run
    exact .waited count b place manager (Option.some.inj done).symm
  next place =>
    simp only [Option.bind_eq_bind, Option.bind_eq_some_iff] at run
    obtain ⟨b, manager, run⟩ := run
    split_ifs at run with complete
    · rw [Option.bind_eq_some_iff] at run
      obtain ⟨b', wrote, done⟩ := run
      exact .ended b b' place manager (by rwa [if_pos complete]) (Option.some.inj done).symm
    · exact .ended b b place manager (by rw [if_neg complete]) (Option.some.inj run).symm

theorem Stage.inHeaders {count : Nat} (stage : Stage c forkPoint stored delivered m)
    (place : m.vchainBuilder = .inHeaders count) :
    m.status = .headerSyncManagerWorking ∧ count < ALLOWED_FORKPOINT_DECREMENTS ∧
      forkPoint.decrements count = some m.forkPoint ∧ m.blockSyncManager = none ∧
      ∃ h, m.headerSyncManager = some h ∧ m.forkPoint.header = some h.startBlockHeader ∧
        (h.status = .finished ∨ ∃ s, AgingSyncManager.Single c h delivered s) := by
  cases stage with
  | collecting count' h place' status bound back none manager start grows =>
    obtain rfl : count = count' := by simpa [place] using place'
    exact ⟨status, bound, back, none, h, manager, start, grows⟩
  | unstarted place' => simp [place] at place'
  | downloading headers place' => simp [place] at place'
  | failed place' => simp [place] at place'
  | done b fuel place' => simp [place] at place'

theorem Stage.inBlocks (stage : Stage c forkPoint stored delivered m)
    (place : (∃ count, m.vchainBuilder = .inWindow count) ∨ m.vchainBuilder = .afterWindow) :
    m.status = .headerSyncManagerDone ∧ ∃ headers, Asked c forkPoint delivered headers ∧
      headers.length < 2 ^ 32 ∧ headers ≠ [] ∧
      m.blockSyncManager = some ((VirtualBlockSyncManager.create headers stored).setupWindow c headers) := by
  cases stage with
  | downloading headers place' status asked short nonempty manager =>
    exact ⟨status, headers, asked, short, nonempty, manager⟩
  | unstarted place' => simp [place'] at place
  | collecting count h place' => simp [place'] at place
  | failed place' => simp [place'] at place
  | done b fuel place' => simp [place'] at place

theorem Stage.wake {now : UInt32} {enumeration : AgingEnumeration} {uninitialised : List UInt8}
    (storage : m.stored = stored) (stage : Stage c forkPoint stored delivered m)
    (run : m.wake c now fuel enumeration uninitialised = some m') :
    m'.stored = stored ∧ Stage c forkPoint stored delivered m' := by
  cases woken run with
  | asleep count h place manager waits same =>
    subst same
    exact ⟨storage, stage⟩
  | collected count h headerChains place manager going exports long next =>
    obtain ⟨status, bound, back, none, h', manager', start, grows⟩ := stage.inHeaders place
    obtain rfl := Option.some.inj (manager.symm.trans manager')
    obtain ⟨s, alone⟩ := grows.resolve_left going
    exact syncBlocks_stage storage (Or.inr ⟨count, bound, _, _, back, start, onTopOf alone exports long⟩) next
  | back count it place stepped again next =>
    obtain ⟨status, bound, back, none, -⟩ := stage.inHeaders place
    have further : forkPoint.decrements (count + 1) = some it := by
      rw [BlockChainIterator.decrements_succ, back, Option.bind_some, stepped]
    obtain ⟨kept, stage⟩ := syncHeaders_stage (m := { m with forkPoint := it }) again further none next
    exact ⟨kept.trans storage, stage⟩
  | givenUp count it place next =>
    exact syncBlocks_stage (m := { m with forkPoint := it }) storage (Or.inl rfl) next
  | waited count b place manager next =>
    obtain ⟨status, headers, asked, short, nonempty, manager'⟩ := stage.inBlocks (Or.inl ⟨count, place⟩)
    obtain rfl := Option.some.inj (manager.symm.trans manager')
    subst next
    exact ⟨storage, awaitWindow_stage status asked short nonempty⟩
  | ended b b' place manager wrote next =>
    obtain ⟨status, headers, asked, short, nonempty, manager'⟩ := stage.inBlocks (Or.inr place)
    obtain rfl := Option.some.inj (manager.symm.trans manager')
    have kept : b' = (VirtualBlockSyncManager.create headers stored).setupWindow c headers := by
      split_ifs at wrote with complete
      · exact writeFrom_setup complete wrote
      · exact wrote
    have chain : b'.chain = headers := by rw [kept]; exact List.take_of_length_le short.le
    have ran := start_alone short nonempty kept fun complete => by rwa [← kept, if_pos complete] at wrote
    rw [← chain] at ran asked
    subst next
    exact ⟨storage, .done b' _ rfl rfl rfl asked (by rw [kept]; rfl) ran⟩

theorem Stage.addHeaders {now : UInt32} {enumeration : AgingEnumeration} {targetVector : List BlockHeader}
    (storage : m.stored = stored) (stage : Stage c forkPoint stored delivered m)
    (run : m.addHeaders c now fuel enumeration targetVector = some m') :
    m'.stored = stored ∧ Stage c forkPoint stored (delivered ++ targetVector) m' := by
  have grown := stage.mono (List.subset_append_left delivered targetVector)
  rw [ChainSyncManager.addHeaders] at run
  split_ifs at run with working
  · obtain rfl := Option.some.inj run
    exact ⟨storage, grown⟩
  · rw [not_not] at working
    cases stage with
    | unstarted place status => exact nomatch working.symm.trans status
    | downloading headers place status => exact nomatch working.symm.trans status
    | failed place status => exact nomatch working.symm.trans status
    | done b fuel place status => exact nomatch working.symm.trans status
    | collecting count h place status bound back none manager start grows =>
      simp only [manager, Option.bind_eq_bind, Option.bind_some, Option.bind_eq_some_iff] at run
      obtain ⟨h', added, done⟩ := run
      obtain rfl := Option.some.inj done
      refine ⟨storage, .collecting count h' place status bound back none rfl ?_ ?_⟩
      · rw [(AgingSyncManager.add_keeps added).1]
        exact start
      · by_cases stop : h.status = .finished ∨
          VirtualHeaderSyncManager.Forks c h.forget (m.filter.pass c targetVector).1
        · exact Or.inl (AgingSyncManager.add_finished added stop)
        · obtain ⟨going, steady⟩ := not_or.mp stop
          obtain ⟨s, alone⟩ := grows.resolve_left going
          obtain ⟨-, s', alone'⟩ := alone.add added steady
          have within : delivered ++ (m.filter.pass c targetVector).1 ⊆ delivered ++ targetVector :=
            List.append_subset.mpr ⟨List.subset_append_left _ _,
              List.subset_append_of_subset_right _ (m.filter.pass_subset targetVector)⟩
          exact Or.inr ⟨s', alone'.mono within⟩

theorem Stage.status_ne (stage : Stage c forkPoint stored delivered m) :
    m.status ≠ .blockSyncManagerWorking := by
  cases stage with
  | unstarted place status => simp [status]
  | collecting count h place status => simp [status]
  | downloading headers place status => simp [status]
  | failed place status => simp [status]
  | done b fuel place status => simp [status]

/-- An event leaves the storage as it is, and a run at one of its stages. -/
theorem Stage.step {event : Event PKey} (storage : m.stored = stored)
    (stage : Stage c forkPoint stored delivered m) (run : m.step c fuel event = some m') :
    m'.stored = stored ∧ Stage c forkPoint stored (delivered ++ event.delivered) m' := by
  cases event with
  | headers now enumeration targetVector => exact stage.addHeaders storage run
  | wake now enumeration uninitialised =>
    rw [Event.delivered, List.append_nil]
    exact stage.wake storage run
  | block targetBlock =>
    rw [Event.delivered, List.append_nil]
    rw [ChainSyncManager.step, addBlock, if_pos stage.status_ne] at run
    obtain rfl := Option.some.inj run
    exact ⟨storage, stage⟩
  | forward now =>
    rw [Event.delivered, List.append_nil]
    rw [ChainSyncManager.step] at run
    split_ifs at run with place
    cases stage with
    | unstarted _ status fresh none =>
      obtain ⟨kept, stage⟩ := syncHeaders_stage (by decide) (by rw [fresh]; rfl) none run
      exact ⟨kept.trans storage, stage⟩
    | collecting count h started => exact nomatch place.symm.trans started
    | downloading headers started => exact (by simp [place] at started)
    | failed started => exact nomatch place.symm.trans started
    | done b fuel started => exact nomatch place.symm.trans started

theorem run_cons {event : Event PKey} {events : List (Event PKey)} :
    m.run c fuel (event :: events) = some m' ↔
      ∃ next, m.step c fuel event = some next ∧ next.run c fuel events = some m' := by
  rw [run, List.foldlM_cons]
  exact Option.bind_eq_some_iff

theorem Stage.run {events : List (Event PKey)} (storage : m.stored = stored)
    (stage : Stage c forkPoint stored delivered m) (run : m.run c fuel events = some m') :
    m'.stored = stored ∧ Stage c forkPoint stored (delivered ++ events.flatMap Event.delivered) m' := by
  induction events generalizing m delivered with
  | nil =>
    obtain rfl := Option.some.inj run
    exact ⟨storage, by simpa using stage⟩
  | cons event rest ih =>
    obtain ⟨next, stepped, more⟩ := run_cons.mp run
    obtain ⟨kept, stage⟩ := stage.step storage stepped
    rw [List.flatMap_cons, ← List.append_assoc]
    exact ih kept stage more

theorem create_stage (created : create c forkPoint stored = some m) :
    m.stored = stored ∧ Stage c forkPoint stored [] m := by
  rw [create, Option.bind_eq_bind, Option.bind_eq_some_iff] at created
  obtain ⟨block, -, done⟩ := created
  obtain rfl := Option.some.inj done
  exact ⟨rfl, .unstarted rfl rfl rfl rfl⟩

/-- A manager as it is constructed, after any events. -/
theorem stage_of_run {events : List (Event PKey)} {m₀ : ChainSyncManager PKey}
    (created : create c forkPoint stored = some m₀) (run : m₀.run c fuel events = some m) :
    m.stored = stored ∧ Stage c forkPoint stored (events.flatMap Event.delivered) m := by
  obtain ⟨storage, start⟩ := create_stage created
  exact start.run storage run

open VirtualHeaderSyncManager (digests child)
open BlockChainIterator (twoBlocks atSecond)
open AgingSyncManager (fifo)

/-- Two headers on top of the second of two blocks. -/
def third : BlockHeader := child (twoBlocks 1).header 2

def fourth : BlockHeader := child third 3

/-- Two headers and one of their blocks come in time, but the block finds no one. -/
def twoArrive : List (Event Unit) :=
  [.forward 0, .headers 1 fifo [third, fourth], .wake 3 fifo [], .wake 9 fifo [], .block { header := third },
    .wake 12 fifo [], .wake 15 fifo [], .wake 18 fifo [], .wake 21 fifo [], .wake 22 fifo []]

/-- No run writes a block, whatever comes in, and one that ends says that it has synced the blocks, unless its
fork point was taken for the head of the chain. -/
theorem run_writesNothing (c : Crypto PKey) (fuel : Nat) (forkPoint : BlockChainIterator PKey)
    (stored : List (Block PKey)) (events : List (Event PKey)) (m₀ m : ChainSyncManager PKey)
    (created : create c forkPoint stored = some m₀) (run : m₀.run c fuel events = some m) :
    m.stored = stored ∧ m.status ≠ .blockSyncManagerWorking ∧
      (∀ b, m.blockSyncManager = some b → b.written = []) ∧
      (m.vchainBuilder = .ended →
        m.status = .headerSyncManagerFailed ∧ m.forkPoint.isHead = some true ∧ m.blockSyncManager = none ∨
        m.status = .blockSyncManagerDone ∧ ∃ b fuel, m.blockSyncManager = some b ∧
          (VirtualBlockSyncManager.create b.chain stored).start c fuel [] = some (true, b)) := by
  obtain ⟨storage, stage⟩ := stage_of_run created run
  refine ⟨storage, stage.status_ne, ?_⟩
  cases stage with
  | unstarted place status fresh none => exact ⟨fun b manager => (by simp [none] at manager), by simp [place]⟩
  | collecting count h place status bound back none =>
    exact ⟨fun b manager => (by simp [none] at manager), by simp [place]⟩
  | downloading headers place status asked short nonempty manager =>
    refine ⟨fun b same => ?_, fun ended => ?_⟩
    · obtain rfl := Option.some.inj (manager.symm.trans same)
      rfl
    · simp [ended] at place
  | failed place status head none =>
    exact ⟨fun b manager => (by simp [none] at manager), fun _ => Or.inl ⟨status, head, none⟩⟩
  | done b fuel place status manager asked written ran =>
    refine ⟨fun b' same => ?_, fun _ => Or.inr ⟨status, b, fuel, manager, ran⟩⟩
    obtain rfl := Option.some.inj (manager.symm.trans same)
    exact written

theorem run_writesNothing_two : ∃ m₀ m, create digests atSecond [] = some m₀ ∧
    m₀.run digests 4 twoArrive = some m ∧ m.vchainBuilder = .ended ∧ m.status = .blockSyncManagerDone ∧
    ∀ b, m.blockSyncManager = some b → b.written = [] := by
  obtain ⟨m₀, created⟩ : ∃ m₀, create digests atSecond [] = some m₀ := ⟨_, rfl⟩
  have ends : ((create digests atSecond []).bind fun m₀ => m₀.run digests 4 twoArrive).map
      (fun m => (m.vchainBuilder, m.status)) = some (.ended, .blockSyncManagerDone) := by decide +kernel
  obtain ⟨m, run, told⟩ := Option.map_eq_some_iff.mp ends
  rw [created, Option.bind_some] at run
  obtain ⟨place, status⟩ := Prod.mk.inj told
  exact ⟨m₀, m, created, run, place, status,
    (run_writesNothing digests 4 atSecond [] twoArrive m₀ m created run).2.2.1⟩

/-- What a run asks the block sync for is a chain on top of the fork point or of one of the three blocks before
it, or nothing. -/
theorem run_asked (c : Crypto PKey) (fuel : Nat) (forkPoint : BlockChainIterator PKey)
    (stored : List (Block PKey)) (events : List (Event PKey)) (m₀ m : ChainSyncManager PKey)
    (b : VirtualBlockSyncManager PKey) (created : create c forkPoint stored = some m₀)
    (run : m₀.run c fuel events = some m) (manager : m.blockSyncManager = some b) :
    Asked c forkPoint (events.flatMap Event.delivered) b.chain := by
  obtain ⟨-, stage⟩ := stage_of_run created run
  cases stage with
  | unstarted place status fresh none => exact nomatch none.symm.trans manager
  | collecting count h place status bound back none => exact nomatch none.symm.trans manager
  | failed place status head none => exact nomatch none.symm.trans manager
  | downloading headers place status asked short nonempty window =>
    obtain rfl := Option.some.inj (window.symm.trans manager)
    have chain : ((VirtualBlockSyncManager.create headers stored).setupWindow c headers).chain = headers :=
      List.take_of_length_le short.le
    rw [chain]
    exact asked
  | done b' fuel place status same asked =>
    obtain rfl := Option.some.inj (same.symm.trans manager)
    exact asked

theorem run_asked_two : ∃ m b, ((create digests atSecond []).bind fun m₀ => m₀.run digests 4 twoArrive) = some m ∧
    m.blockSyncManager = some b ∧ b.chain = [fourth, third] ∧
    Asked digests atSecond [third, fourth] b.chain := by
  obtain ⟨m₀, created⟩ : ∃ m₀, create digests atSecond [] = some m₀ := ⟨_, rfl⟩
  have ends : ((create digests atSecond []).bind fun m₀ => m₀.run digests 4 twoArrive).map
      (fun m => m.blockSyncManager.map VirtualBlockSyncManager.chain) = some (some [fourth, third]) := by
    decide +kernel
  obtain ⟨m, run, told⟩ := Option.map_eq_some_iff.mp ends
  obtain ⟨b, manager, chain⟩ := Option.map_eq_some_iff.mp told
  refine ⟨m, b, run, manager, chain, ?_⟩
  rw [created, Option.bind_some] at run
  exact run_asked digests 4 atSecond [] twoArrive m₀ m b created run manager

end ChainSyncManager

end MiyaCore.Chain
