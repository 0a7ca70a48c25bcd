import MiyaCore.Chain.ChainSync

/-!
# Headers that come again

The filter of a chain sync holds back the header of the fork point and no other. A header that comes a second time
counts as a fork, and after a fork the builder does not leave the header sync.
-/

namespace MiyaCore.Chain

variable {PKey : Type} {c : Crypto PKey}

namespace BDFilter

/-- One control block for a block that was there from the beginning, and others for headers. -/
structure OneBody (filter : BDFilter) (body : List UInt8) : Prop where
  there : ⟨body, .blockBodyReceived⟩ ∈ filter
  headers : ∀ cb ∈ filter, cb = ⟨body, .blockBodyReceived⟩ ∨ cb.blockHash ≠ body ∧ cb.status = .blockHeaderReceived

theorem OneBody.setStatus {filter : BDFilter} {body blockHash : List UInt8} (one : OneBody filter body)
    (other : blockHash ≠ body) : OneBody (filter.setStatus blockHash .blockHeaderReceived) body := by
  refine ⟨List.mem_map.mpr ⟨_, one.there, if_neg (Ne.symm other)⟩, fun cb member => ?_⟩
  obtain ⟨old, inFilter, rfl⟩ := List.mem_map.mp member
  split_ifs with same
  · exact Or.inr ⟨same ▸ other, rfl⟩
  · exact one.headers old inFilter

theorem OneBody.filterHeader {filter : BDFilter} {body : List UInt8} (one : OneBody filter body)
    (target : BlockHeader) : ∃ cb filter', filter.filterHeader c target false = (some cb, filter') ∧
      cb.blockHash = target.headerHash c ∧ cb ∈ filter' ∧ OneBody filter' body := by
  rw [BDFilter.filterHeader, lookup]
  cases found : filter.find? fun cb => cb.blockHash = target.headerHash c with
  | some cb =>
    exact ⟨cb, filter, rfl, by simpa using List.find?_some found, List.mem_of_find?_eq_some found, one⟩
  | none =>
    have absent : ∀ cb ∈ filter, cb.blockHash ≠ target.headerHash c := by simpa using found
    refine ⟨⟨target.headerHash c, .blockHeaderReceived⟩, _, rfl, rfl, by simp, List.mem_append_left _ one.there, ?_⟩
    intro cb member
    obtain old | rfl := (List.mem_append.mp member).imp_right List.mem_singleton.mp
    · exact one.headers cb old
    · exact Or.inr ⟨(absent _ one.there).symm, rfl⟩

/-- All headers pass but that of the one block; also those that passed before. -/
theorem OneBody.pass {filter : BDFilter} {body : List UInt8} (one : OneBody filter body)
    (targetVector : List BlockHeader) :
    (filter.pass c targetVector).1 = targetVector.filter (fun h => h.headerHash c ≠ body) ∧
      OneBody (filter.pass c targetVector).2 body := by
  induction targetVector generalizing filter with
  | nil => exact ⟨rfl, one⟩
  | cons target rest ih =>
    obtain ⟨cb, filter', searched, hash, member, one'⟩ := one.filterHeader (c := c) target
    rw [BDFilter.pass, searched]
    obtain rfl | ⟨other, status⟩ := one'.headers cb member
    · have stopped : ¬target.headerHash c ≠ body := not_not.mpr hash.symm
      rw [List.filter_cons_of_neg (by simpa using stopped)]
      exact ih one'
    · rw [hash] at other
      rw [List.filter_cons_of_pos (by simpa using other)]
      obtain ⟨passed, kept⟩ := ih (one'.setStatus (hash ▸ other))
      simp only [status]
      exact ⟨congrArg (target :: ·) passed, kept⟩

end BDFilter

namespace ChainSyncManager
open VirtualHeaderSyncManager (digests)
open BlockChainIterator (twoBlocks atSecond)
open AgingSyncManager (fifo)

variable {forkPoint : BlockChainIterator PKey} {stored : List (Block PKey)} {m m' : ChainSyncManager PKey}
  {fuel : Nat} {headers delivered : List BlockHeader}
  {body : List UInt8} {event : Event PKey} {events : List (Event PKey)}

/-- The filter holds the fork point back, and so the pool does not have it. -/
structure Screened (c : Crypto PKey) (body : List UInt8) (m : ChainSyncManager PKey) : Prop where
  filter : BDFilter.OneBody m.filter body
  pool : ∀ h, m.headerSyncManager = some h → ∀ x ∈ h.blockHeaderPool, x.headerHash c ≠ body

theorem Screened.addHeaders {now : UInt32} {enumeration : AgingEnumeration} {targetVector : List BlockHeader}
    (screened : Screened c body m) (run : m.addHeaders c now fuel enumeration targetVector = some m') :
    Screened c body m' := by
  rw [ChainSyncManager.addHeaders] at run
  split_ifs at run with working
  · obtain rfl := Option.some.inj run
    exact screened
  · obtain ⟨passed, kept⟩ := screened.filter.pass (c := c) targetVector
    simp only [Option.bind_eq_bind, Option.bind_eq_some_iff] at run
    obtain ⟨h, manager, h', added, done⟩ := run
    obtain rfl := Option.some.inj done
    refine ⟨kept, fun h'' same x member => ?_⟩
    obtain rfl := Option.some.inj same
    rw [(AgingSyncManager.add_keeps added).2, passed] at member
    obtain old | new := List.mem_append.mp (VirtualHeaderSyncManager.pushAll_subset (List.Subset.refl _) member)
    · exact screened.pool h manager x old
    · exact of_decide_eq_true (List.mem_filter.mp new).2

theorem Screened.syncHeaders {now : UInt32} {count : Nat} (screened : Screened c body m)
    (run : m.syncHeaders now count = some m') : Screened c body m' := by
  rw [ChainSyncManager.syncHeaders, Option.bind_eq_bind, Option.bind_eq_some_iff] at run
  obtain ⟨isHead, -, run⟩ := run
  cases isHead with
  | true =>
    obtain rfl := Option.some.inj run
    exact ⟨screened.filter, screened.pool⟩
  | false =>
    simp only [Bool.false_eq_true, if_false, Option.bind_eq_bind, Option.bind_eq_some_iff] at run
    obtain ⟨header, -, done⟩ := run
    obtain rfl := Option.some.inj done
    refine ⟨screened.filter, fun h same x member => ?_⟩
    obtain rfl := Option.some.inj same
    cases member

theorem syncBlocks_keeps (run : m.syncBlocks c fuel headers = some m') :
    m'.filter = m.filter ∧ m'.headerSyncManager = m.headerSyncManager := by
  simp only [syncBlocks] at run
  split_ifs at run
  · rw [Option.bind_eq_bind, Option.bind_eq_some_iff] at run
    obtain ⟨collected, -, run⟩ := run
    split_ifs at run
    · obtain rfl := Option.some.inj run
      exact ⟨rfl, rfl⟩
    · obtain rfl := Option.some.inj run
      exact ⟨rfl, rfl⟩
  · obtain rfl := Option.some.inj run
    exact ⟨rfl, rfl⟩

theorem Screened.congr (screened : Screened c body m)
    (kept : m'.filter = m.filter ∧ m'.headerSyncManager = m.headerSyncManager) : Screened c body m' :=
  ⟨kept.1 ▸ screened.filter, fun h manager => screened.pool h (kept.2 ▸ manager)⟩

theorem Screened.wake {now : UInt32} {enumeration : AgingEnumeration} {uninitialised : List UInt8}
    (screened : Screened c body m) (run : m.wake c now fuel enumeration uninitialised = some m') :
    Screened c body m' := by
  cases woken run with
  | asleep count h place manager waits same => exact same ▸ screened
  | collected count h headerChains place manager going exports long next =>
    exact screened.congr (syncBlocks_keeps next)
  | back count it place stepped again next =>
    have moved : Screened c body { m with forkPoint := it } := screened.congr ⟨rfl, rfl⟩
    exact moved.syncHeaders next
  | givenUp count it place next =>
    have moved : Screened c body { m with forkPoint := it } := screened.congr ⟨rfl, rfl⟩
    exact moved.congr (syncBlocks_keeps next)
  | waited count b place manager next => exact screened.congr (next ▸ ⟨rfl, rfl⟩)
  | ended b b' place manager wrote next => exact screened.congr (next ▸ ⟨rfl, rfl⟩)

theorem Screened.step (screened : Screened c body m) (blocksOff : m.status ≠ .blockSyncManagerWorking)
    (run : m.step c fuel event = some m') : Screened c body m' := by
  cases event with
  | headers now enumeration targetVector => exact screened.addHeaders run
  | wake now enumeration uninitialised => exact screened.wake run
  | block targetBlock =>
    rw [ChainSyncManager.step, addBlock, if_pos blocksOff] at run
    exact Option.some.inj run ▸ screened
  | forward now =>
    rw [ChainSyncManager.step] at run
    split_ifs at run
    exact screened.syncHeaders run

theorem create_screened (created : create c forkPoint stored = some m) :
    ∃ block, forkPoint.body = some block ∧ Screened c (block.blockHash c) m := by
  rw [create, Option.bind_eq_bind, Option.bind_eq_some_iff] at created
  obtain ⟨block, body, done⟩ := created
  obtain rfl := Option.some.inj done
  have first : (BDFilter.filterBlock c [] block false).2 = [⟨block.blockHash c, .blockBodyReceived⟩] := rfl
  refine ⟨block, body, ⟨?_, fun cb member => ?_⟩, fun h manager => by cases manager⟩
  · exact List.mem_singleton_self _
  · exact Or.inl (List.mem_singleton.mp (first ▸ member))

theorem Screened.run (screened : Screened c body m) (storage : m.stored = stored)
    (stage : Stage c forkPoint stored delivered m) (run : m.run c fuel events = some m') : Screened c body m' := by
  induction events generalizing m delivered with
  | nil => exact Option.some.inj run ▸ screened
  | cons event rest ih =>
    obtain ⟨next, stepped, more⟩ := run_cons.mp run
    obtain ⟨kept, stage'⟩ := stage.step storage stepped
    exact ih (screened.step stage.status_ne stepped) kept stage' more

/-- The builder sleeps in the header sync, and its manager says that it has finished. -/
structure Stuck (count : Nat) (m : ChainSyncManager PKey) : Prop where
  place : m.vchainBuilder = .inHeaders count
  status : m.status = .headerSyncManagerWorking
  finished : ∃ h, m.headerSyncManager = some h ∧ h.status = .finished

/-- The loop of the header sync goes on as long as its manager says so, which nothing takes back. -/
theorem Stuck.step {count : Nat} (stuck : Stuck count m) (run : m.step c fuel event = some m') :
    Stuck count m' := by
  obtain ⟨h, manager, finished⟩ := stuck.finished
  cases event with
  | forward now => simp [ChainSyncManager.step, stuck.place] at run
  | block targetBlock =>
    rw [ChainSyncManager.step, addBlock, if_pos (by simp [stuck.status])] at run
    exact Option.some.inj run ▸ stuck
  | wake now enumeration uninitialised =>
    simp only [ChainSyncManager.step, ChainSyncManager.wake, stuck.place, manager, finished, or_true, if_true,
      Option.bind_eq_bind, Option.bind_some] at run
    obtain rfl := Option.some.inj run
    exact stuck
  | headers now enumeration targetVector =>
    simp only [ChainSyncManager.step, ChainSyncManager.addHeaders, stuck.status, ne_eq, not_true_eq_false, if_false,
      manager, Option.bind_eq_bind, Option.bind_some, Option.bind_eq_some_iff] at run
    obtain ⟨h', added, done⟩ := run
    obtain rfl := Option.some.inj done
    exact ⟨stuck.place, rfl, h', rfl, AgingSyncManager.add_finished added (Or.inl finished)⟩

theorem Stuck.run {count : Nat} (stuck : Stuck count m) (run : m.run c fuel events = some m') : Stuck count m' := by
  induction events generalizing m with
  | nil => exact Option.some.inj run ▸ stuck
  | cons event rest ih =>
    obtain ⟨next, stepped, more⟩ := run_cons.mp run
    exact ih (stuck.step stepped) more

/-- A header that the pool has and that no subchain ends with keeps the builder in the header sync for good when
it comes again, alone or among others. -/
theorem replay_stops (c : Crypto PKey) (fuel : Nat) (forkPoint : BlockChainIterator PKey)
    (stored : List (Block PKey)) (before after : List (Event PKey)) (now : UInt32) (enumeration : AgingEnumeration)
    (m₀ m m' : ChainSyncManager PKey) (h : AgingSyncManager) (count : Nat) (x : BlockHeader) (batch : List BlockHeader)
    (created : create c forkPoint stored = some m₀) (run : m₀.run c fuel before = some m)
    (place : m.vchainBuilder = .inHeaders count) (manager : m.headerSyncManager = some h)
    (member : x ∈ h.blockHeaderPool) (inBatch : x ∈ batch)
    (few : (BlockHeaderPool.findByPrevBlockHash (h.blockHeaderPool ++ batch)
      x.previousBlockHeaderHash.toList).length < 2 ^ 15)
    (passed : ∀ s ∈ h.headerSubchainSet,
      s.chainDigest c ≠ c.sha1 (h.startBlockHeader.headerHash c ++ x.headerHash c))
    (later : m.run c fuel (.headers now enumeration batch :: after) = some m') :
    m'.vchainBuilder = .inHeaders count ∧ m'.status = .headerSyncManagerWorking := by
  obtain ⟨storage, start⟩ := create_stage created
  obtain ⟨block, -, fresh⟩ := create_screened created
  have screened := fresh.run storage start run
  obtain ⟨-, stage⟩ := start.run storage run
  obtain ⟨status, -, -, -, h', manager', -, grows⟩ := stage.inHeaders place
  obtain rfl := Option.some.inj (manager.symm.trans manager')
  obtain ⟨next, stepped, more⟩ := run_cons.mp later
  have again : x ∈ (m.filter.pass c batch).1 := by
    rw [(screened.filter.pass batch).1]
    exact List.mem_filter.mpr ⟨inBatch, by simpa using screened.pool h manager x member⟩
  have fewer : (BlockHeaderPool.findByPrevBlockHash (h.blockHeaderPool ++ (m.filter.pass c batch).1)
      x.previousBlockHeaderHash.toList).length < 2 ^ 15 := by
    refine lt_of_le_of_lt (List.Sublist.filter _ (List.Sublist.append_left ?_ _)).length_le few
    rw [(screened.filter.pass batch).1]
    exact List.filter_sublist
  have stop : h.status = .finished ∨ VirtualHeaderSyncManager.Forks c h.forget (m.filter.pass c batch).1 := by
    refine grows.imp_right fun ⟨s, alone⟩ => ?_
    exact AgingSyncManager.forks_again member again (alone.named x member) fewer passed
  have stuck : Stuck count next := by
    simp only [ChainSyncManager.step, ChainSyncManager.addHeaders, status, ne_eq, not_true_eq_false, if_false,
      manager, Option.bind_eq_bind, Option.bind_some, Option.bind_eq_some_iff] at stepped
    obtain ⟨h', added, done⟩ := stepped
    obtain rfl := Option.some.inj done
    exact ⟨place, rfl, h', rfl, AgingSyncManager.add_finished added stop⟩
  exact ⟨(stuck.run more).place, (stuck.run more).status⟩

/-- The header sync after two headers. -/
def followed : AgingSyncManager where
  startBlockHeader := (twoBlocks 1).header
  stopHash := none
  blockHeaderPool := [third, fourth]
  headerSubchainSet := [⟨⟨(twoBlocks 1).header, fourth, none, false⟩, 1⟩]
  status := .pending

/-- The first of the two headers comes once more, with the second. -/
theorem replay_stops_third : ∃ m m', ((create digests atSecond []).bind fun m₀ => m₀.run digests 4
      [.forward 0, .headers 1 fifo [third, fourth]]) = some m ∧
    m.run digests 4 [.headers 2 fifo [fourth, third], .wake 3 fifo [], .wake 99 fifo []] = some m' ∧
    m'.vchainBuilder = .inHeaders 0 ∧ m'.status = .headerSyncManagerWorking := by
  obtain ⟨m₀, created⟩ : ∃ m₀, create digests atSecond [] = some m₀ := ⟨_, rfl⟩
  have met : ((create digests atSecond []).bind fun m₀ => m₀.run digests 4
      [.forward 0, .headers 1 fifo [third, fourth]]).map (fun m => (m.vchainBuilder, m.headerSyncManager)) =
        some (.inHeaders 0, some followed) := by decide +kernel
  have goesOn : ((create digests atSecond []).bind fun m₀ => (m₀.run digests 4
      [.forward 0, .headers 1 fifo [third, fourth]]).bind fun m => m.run digests 4
        [.headers 2 fifo [fourth, third], .wake 3 fifo [], .wake 99 fifo []]).isSome := by decide +kernel
  obtain ⟨m, run, told⟩ := Option.map_eq_some_iff.mp met
  obtain ⟨place, manager⟩ := Prod.mk.inj told
  obtain ⟨m', later⟩ := Option.isSome_iff_exists.mp goesOn
  have run₀ := run
  rw [created, Option.bind_some] at run₀ later
  rw [run₀, Option.bind_some] at later
  refine ⟨m, m', run, later, replay_stops digests 4 atSecond [] _ _ 2 fifo m₀ m m' followed 0 third [fourth, third]
    created run₀ place manager List.mem_cons_self (by simp) (by decide +kernel) (by decide +kernel) later⟩

end ChainSyncManager

end MiyaCore.Chain
