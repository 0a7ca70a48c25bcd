import Mathlib.Data.List.Chain
import MiyaCore.Chain.HeaderTree

/-!
# Exported header chains

A subchain is exported by going back from its latest header for as long as the pool has the previous block.
Nothing on the way looks at the start header.
-/

namespace MiyaCore.Chain
open Relation BlockHeaderPool

variable {PKey : Type} (c : Crypto PKey)

/-- `findByBlockHash` on `_pool_blockHsah`, which keeps the first header of a hash. The key of a null pointer
is never written, so it holds what was there. -/
def BlockHeaderPool.findByBlockHash (pool : List BlockHeader) (uninitialised : List UInt8)
    (blockHash : Buffer) : Option BlockHeader :=
  pool.find? fun h => h.headerHash c = blockHash.getD uninitialised

namespace VirtualHeaderSubChain

/-- The loop of `exportChainVector`. -/
def exportFrom (pool : List BlockHeader) (uninitialised : List UInt8) :
    Nat → Option BlockHeader → Option (List BlockHeader)
  | _, none => some []
  | 0, some _ => none
  | fuel + 1, some blockHeader =>
    (exportFrom pool uninitialised fuel
      (findByBlockHash c pool uninitialised blockHeader.prevBlockHash)).map (blockHeader :: ·)

def exportChainVector (pool : List BlockHeader) (uninitialised : List UInt8) (fuel : Nat)
    (s : VirtualHeaderSubChain) : Option (List BlockHeader) :=
  exportFrom c pool uninitialised fuel (some s.latestBlockHeader)

/-- A chain from the latest header back to the start header, or to the one on top of it, and no further. -/
structure EndsAtStart (startBlockHeader latestBlockHeader : BlockHeader) (chain : List BlockHeader) : Prop where
  head : chain.head? = some latestBlockHeader
  linked : chain.IsChain fun a b => a.prevBlockHash = some (b.headerHash c)
  last : ∃ h, chain.getLast? = some h ∧
    (h = startBlockHeader ∨ h.prevBlockHash = some (startBlockHeader.headerHash c))
  past : startBlockHeader ∉ chain.dropLast

/-- The export comes to its end, with a chain down to the start header. -/
def ExportsToStart (pool : List BlockHeader) (uninitialised : List UInt8) (s : VirtualHeaderSubChain) : Prop :=
  ∃ fuel chain, s.exportChainVector c pool uninitialised fuel = some chain ∧
  EndsAtStart c s.startBlockHeader s.latestBlockHeader chain

end VirtualHeaderSubChain

/-- The digests tell the start header and the pooled headers apart. -/
def HashesApart (startBlockHeader : BlockHeader) (pool : List BlockHeader) : Prop :=
  ∀ a ∈ startBlockHeader :: pool, ∀ b ∈ startBlockHeader :: pool, a.headerHash c = b.headerHash c → a = b

/-- The pool connects a subchain to its start header, and where the export comes to the start header itself it
finds nothing before it. -/
structure Anchored (pool : List BlockHeader) (uninitialised : List UInt8) (s : VirtualHeaderSubChain) : Prop where
  connected : ReflTransGen (Links c pool) s.startBlockHeader s.latestBlockHeader
  bottom : s.latestBlockHeader = s.startBlockHeader ∨ s.startBlockHeader ∈ pool →
    ∀ h ∈ pool, h.headerHash c ≠ s.startBlockHeader.prevBlockHash.getD uninitialised

/-- A subchain as a manager keeps it: it is at its start header or at a pooled one. -/
structure Kept (startBlockHeader : BlockHeader) (pool : List BlockHeader) (s : VirtualHeaderSubChain) : Prop where
  start : s.startBlockHeader = startBlockHeader
  latest : s.latestBlockHeader = startBlockHeader ∨ s.latestBlockHeader ∈ pool

variable {c} {pool : List BlockHeader} {uninitialised : List UInt8} {startBlockHeader : BlockHeader}

theorem prevBlockHash_toList {h : BlockHeader} {prevBlockHash : List UInt8}
    (some : h.prevBlockHash = some prevBlockHash) : h.previousBlockHeaderHash.toList = prevBlockHash := by
  unfold BlockHeader.prevBlockHash at some
  split_ifs at some
  exact Option.some.inj some

theorem findByBlockHash_mem {blockHash : Buffer} {h : BlockHeader}
    (found : findByBlockHash c pool uninitialised blockHash = some h) :
    h ∈ pool ∧ h.headerHash c = blockHash.getD uninitialised := by
  unfold findByBlockHash at found
  exact ⟨List.mem_of_find?_eq_some found, by simpa using List.find?_some found⟩

theorem findByBlockHash_none {blockHash : Buffer} :
    findByBlockHash c pool uninitialised blockHash = none ↔
      ∀ h ∈ pool, h.headerHash c ≠ blockHash.getD uninitialised := by
  simp [findByBlockHash]

/-- A pooled header is found under its own hash. -/
theorem findByBlockHash_headerHash (apart : HashesApart c startBlockHeader pool) {h : BlockHeader}
    (member : h ∈ pool) : findByBlockHash c pool uninitialised (some (h.headerHash c)) = some h := by
  cases found : findByBlockHash c pool uninitialised (some (h.headerHash c)) with
  | none => exact absurd rfl (findByBlockHash_none.mp found h member)
  | some other =>
    obtain ⟨inside, same⟩ := findByBlockHash_mem found
    rw [apart other (List.mem_cons_of_mem _ inside) h (List.mem_cons_of_mem _ member) same]

namespace VirtualHeaderSubChain

/-- What an export has gone through: pooled headers after the first, the previous block of each found in turn,
and none for the last. -/
theorem exportFrom_run : ∀ {fuel : Nat} {blockHeader : BlockHeader} {chain : List BlockHeader},
    exportFrom c pool uninitialised fuel (some blockHeader) = some chain →
    ∃ rest, chain = blockHeader :: rest ∧ rest ⊆ pool ∧ ∃ last, chain.getLast? = some last ∧
      findByBlockHash c pool uninitialised last.prevBlockHash = none
  | fuel + 1, blockHeader, chain, run => by
    rw [exportFrom, Option.map_eq_some_iff] at run
    obtain ⟨rest, more, rfl⟩ := run
    refine ⟨rest, rfl, ?_⟩
    cases found : findByBlockHash c pool uninitialised blockHeader.prevBlockHash with
    | none =>
      rw [found] at more
      obtain rfl : rest = [] := by
        cases fuel <;> exact (Option.some.inj more).symm
      exact ⟨List.nil_subset _, blockHeader, rfl, found⟩
    | some next =>
      rw [found] at more
      obtain ⟨tail, rfl, within, last, atEnd, nothing⟩ := exportFrom_run more
      refine ⟨List.cons_subset.mpr ⟨(findByBlockHash_mem found).1, within⟩, last, ?_, nothing⟩
      rwa [List.getLast?_cons_cons]

/-- A linked chain of pooled headers connects its last header to its first. -/
theorem connected_of_chain {blockHeader last : BlockHeader} {rest : List BlockHeader}
    (linked : (blockHeader :: rest).IsChain fun a b => a.prevBlockHash = some (b.headerHash c))
    (atEnd : (blockHeader :: rest).getLast? = some last) (within : (blockHeader :: rest).dropLast ⊆ pool) :
    ReflTransGen (Links c pool) last blockHeader := by
  induction rest generalizing blockHeader with
  | nil =>
    obtain rfl : blockHeader = last := by simpa using atEnd
    exact .refl
  | cons next rest ih =>
    obtain ⟨link, linked⟩ := List.isChain_cons_cons.mp linked
    rw [List.getLast?_cons_cons] at atEnd
    rw [List.dropLast_cons_cons, List.cons_subset] at within
    exact (ih linked atEnd within.2).tail ⟨within.1, prevBlockHash_toList link⟩

/-- An export that ends at the start header tells that the pool anchors the subchain. -/
theorem anchored_of_exports {s : VirtualHeaderSubChain} (kept : Kept startBlockHeader pool s)
    (exports : ExportsToStart c pool uninitialised s) : Anchored c pool uninitialised s := by
  obtain ⟨rfl, latest⟩ := kept
  obtain ⟨fuel, chain, run, head, linked, ⟨last, atEnd, stops⟩, past⟩ := exports
  obtain ⟨rest, rfl, within, last', atEnd', nothing⟩ := exportFrom_run run
  obtain rfl : last = last' := Option.some.inj (atEnd.symm.trans atEnd')
  have pooled : ∀ next tail, rest = next :: tail → s.latestBlockHeader ∈ pool := by
    rintro next tail rfl
    exact latest.resolve_left fun atStart => past (by simp [atStart])
  have inside : (s.latestBlockHeader :: rest).dropLast ⊆ pool := by
    cases rest with
    | nil => exact List.nil_subset _
    | cons next tail =>
      rw [List.dropLast_cons_cons, List.cons_subset]
      exact ⟨pooled next tail rfl, List.Subset.trans (List.dropLast_subset _) within⟩
  have path := connected_of_chain linked atEnd inside
  have lastMem : last = s.latestBlockHeader ∨ last ∈ pool := by
    rcases List.mem_cons.mp (List.mem_of_getLast? atEnd) with same | there
    · exact Or.inl same
    · exact Or.inr (within there)
  constructor
  · rcases stops with rfl | onTop
    · exact path
    · rcases latest with atStart | there
      · rw [atStart]
      · refine .head ⟨?_, prevBlockHash_toList onTop⟩ path
        exact lastMem.elim (fun same => same ▸ there) id
  · intro visited
    have atStart : last = s.startBlockHeader := by
      rcases stops with same | onTop
      · exact same
      · rw [onTop] at nothing
        rcases visited with same | there
        · cases rest with
          | nil =>
            obtain rfl : s.latestBlockHeader = last := by simpa using atEnd
            exact same
          | cons next tail => exact absurd (by simp [same]) past
        · exact absurd rfl (findByBlockHash_none.mp nothing _ there)
    rw [← atStart]
    exact findByBlockHash_none.mp nothing

/-- A header whose previous block is not in the pool is exported alone. -/
theorem exportFrom_single {h : BlockHeader}
    (nothing : findByBlockHash c pool uninitialised h.prevBlockHash = none) :
    exportFrom c pool uninitialised 1 (some h) = some [h] := by
  rw [exportFrom, nothing, exportFrom]
  rfl

/-- From each header the start leads to, the export comes down to the start. -/
theorem exports_of_connected (apart : HashesApart c startBlockHeader pool)
    (known : ∀ h ∈ pool, h.prevBlockHash.isSome) {x : BlockHeader}
    (connected : ReflTransGen (Links c pool) startBlockHeader x)
    (bottom : x = startBlockHeader ∨ startBlockHeader ∈ pool →
      ∀ h ∈ pool, h.headerHash c ≠ startBlockHeader.prevBlockHash.getD uninitialised) :
    ∃ fuel chain, exportFrom c pool uninitialised fuel (some x) = some chain ∧
      EndsAtStart c startBlockHeader x chain := by
  have atStart : (∀ h ∈ pool, h.headerHash c ≠ startBlockHeader.prevBlockHash.getD uninitialised) →
      ∃ fuel chain, exportFrom c pool uninitialised fuel (some startBlockHeader) = some chain ∧
        EndsAtStart c startBlockHeader startBlockHeader chain := by
    intro nothing
    refine ⟨1, [startBlockHeader], exportFrom_single (findByBlockHash_none.mpr nothing), rfl, .singleton _, ?_, ?_⟩
    · exact ⟨startBlockHeader, rfl, Or.inl rfl⟩
    · exact List.not_mem_nil
  induction connected with
  | refl => exact atStart (bottom (Or.inl rfl))
  | @tail q p before links ih =>
    by_cases same : p = startBlockHeader
    · subst same
      exact atStart (bottom (Or.inl rfl))
    · obtain ⟨member, onTop⟩ := links
      obtain ⟨prevBlockHash, previous⟩ := Option.isSome_iff_exists.mp (known p member)
      rw [← prevBlockHash_toList previous, onTop] at previous
      by_cases inside : q ∈ pool
      · obtain ⟨fuel, chain, run, head, linked, ⟨last, atEnd, stops⟩, past⟩ :=
          ih fun visited => bottom (Or.inr (visited.elim (fun same => same ▸ inside) id))
        obtain ⟨rest, rfl, -⟩ := exportFrom_run run
        refine ⟨fuel + 1, p :: q :: rest, ?_, rfl, ?_, ⟨last, ?_, stops⟩, ?_⟩
        · rw [exportFrom, previous, findByBlockHash_headerHash apart inside, run]
          rfl
        · exact List.isChain_cons_cons.mpr ⟨previous, linked⟩
        · rwa [List.getLast?_cons_cons]
        · rw [List.dropLast_cons_cons]
          exact fun there => (List.mem_cons.mp there).elim (fun eq => same eq.symm) past
      · -- nothing but the start is below a header of the pool without being in the pool
        obtain rfl : q = startBlockHeader := by
          rcases before.cases_tail with eq | ⟨z, -, last⟩
          · exact eq
          · exact absurd last.1 inside
        have nothing : findByBlockHash c pool uninitialised p.prevBlockHash = none := by
          rw [previous, findByBlockHash_none]
          intro h there equal
          have : h = q := apart h (List.mem_cons_of_mem _ there) q List.mem_cons_self equal
          exact inside (this ▸ there)
        refine ⟨1, [p], exportFrom_single nothing, rfl, .singleton _, ⟨p, rfl, Or.inr previous⟩, ?_⟩
        exact List.not_mem_nil

end VirtualHeaderSubChain

namespace VirtualHeaderSyncManager

variable {m m' : VirtualHeaderSyncManager} {fuel : Nat} {calls : List (Enumeration × List BlockHeader)}

/-- A manager whose subchains are all kept, over a pool of headers with a previous block. -/
structure Keeps (startBlockHeader : BlockHeader) (m : VirtualHeaderSyncManager) : Prop where
  start : m.startBlockHeader = startBlockHeader
  known : ∀ h ∈ m.blockHeaderPool, h.prevBlockHash.isSome
  kept : ∀ s ∈ m.headerSubchainSet, Kept startBlockHeader m.blockHeaderPool s

theorem create_keeps (stopHash : Buffer) : Keeps startBlockHeader (create startBlockHeader stopHash) := by
  refine ⟨rfl, nofun, fun s member => ?_⟩
  obtain rfl := List.mem_singleton.mp member
  exact ⟨rfl, Or.inl rfl⟩

theorem subset_pushAll {batch : List BlockHeader} : pool ⊆ (pushAll pool batch).1 := by
  rw [pushAll_pool]
  exact List.subset_append_left _ _

/-- A header that came second is in the pool. -/
theorem second_mem {batch : List BlockHeader} {h : BlockHeader} (second : h ∈ (pushAll pool batch).2) :
    h ∈ (pushAll pool batch).1 := by
  induction batch generalizing pool with
  | nil => cases second
  | cons target rest ih =>
    unfold pushAll at second ⊢
    dsimp only at second ⊢
    split_ifs at second with counted
    · rcases List.mem_cons.mp second with rfl | later
      · refine subset_pushAll ?_
        unfold push at counted ⊢
        split at counted
        · exact absurd counted.1 Bool.false_ne_true
        · exact List.mem_append_right _ (List.mem_singleton_self _)
      · exact ih later
    · exact ih second

/-- The subchains of headers that came second are kept beside the others. -/
theorem Keeps.forked {batch : List BlockHeader} (keeps : Keeps startBlockHeader m) {s : VirtualHeaderSubChain}
    (member : s ∈ forked c m (pushAll m.blockHeaderPool batch).2) :
    Kept startBlockHeader (pushAll m.blockHeaderPool batch).1 s := by
  unfold VirtualHeaderSyncManager.forked at member
  rw [← List.foldl_map] at member
  rcases mem_insertAll member with old | ⟨new, -⟩
  · obtain ⟨start, latest⟩ := keeps.kept s old
    exact ⟨start, latest.imp_right fun there => subset_pushAll there⟩
  · obtain ⟨h, second, rfl⟩ := List.mem_map.mp new
    exact ⟨keeps.start, Or.inr (second_mem second)⟩

/-- A subchain that is extended stays kept. -/
theorem kept_of_extend {s s' : VirtualHeaderSubChain} {flag : Bool} (kept : Kept startBlockHeader pool s)
    (run : s.extend c pool fuel = some (flag, s')) : Kept startBlockHeader pool s' := by
  have moved := VirtualHeaderSubChain.extend_run run
  refine ⟨moved.start.trans kept.start, ?_⟩
  rcases moved.path.cases_tail with same | ⟨x, -, last⟩
  · rw [same]
    exact kept.latest
  · exact Or.inr last.links.1

theorem Keeps.add {enumeration : Enumeration} {batch : List BlockHeader}
    {extended : List (Bool × VirtualHeaderSubChain)} (keeps : Keeps startBlockHeader m)
    (run : Added c fuel enumeration m batch extended m') : Keeps startBlockHeader m' := by
  refine ⟨run.start.trans keeps.start, ?_, fun s member => ?_⟩
  · rw [run.pool, pushAll_pool]
    intro h member
    rcases List.mem_append.mp member with old | new
    · exact keeps.known h old
    · exact (List.mem_filter.mp new).2
  · rw [run.set] at member
    obtain ⟨r, listed, rfl⟩ := List.mem_map.mp ((mem_insertAll member).resolve_left nofun).1
    obtain ⟨s, there, going⟩ := run.mem_extended.mp listed
    rw [run.pool]
    exact kept_of_extend (keeps.forked there) going

theorem Keeps.addAll (keeps : Keeps startBlockHeader m) (run : m.addAll c (fuel + 1) calls = some m') :
    Keeps startBlockHeader m' := by
  induction calls generalizing m with
  | nil =>
    obtain rfl : m = m' := Option.some.inj run
    exact keeps
  | cons call rest ih =>
    obtain ⟨next, first, more⟩ := addAll_cons.mp run
    obtain ⟨extended, added⟩ := add_succ_iff.mp first
    exact ih (keeps.add added) more

/-- Any calls of `add` leave a manager that keeps its subchains. -/
theorem keeps_of_run {stopHash : Buffer} (run : (create startBlockHeader stopHash).addAll c fuel calls = some m) :
    Keeps startBlockHeader m := by
  cases fuel with
  | succ fuel => exact (create_keeps stopHash).addAll run
  | zero =>
    cases calls with
    | nil =>
      obtain rfl := Option.some.inj run
      exact create_keeps stopHash
    | cons call rest =>
      obtain ⟨next, first, -⟩ := addAll_cons.mp run
      cases (add_zero (List.mem_singleton_self _)).symm.trans first

/-- After any calls of `add`, a managed subchain is exported down to its start header just when the pool
anchors it there. -/
theorem exportsToStart_iff (c : Crypto PKey) (fuel : Nat) (startBlockHeader : BlockHeader) (stopHash : Buffer)
    (calls : List (Enumeration × List BlockHeader)) (uninitialised : List UInt8) (m : VirtualHeaderSyncManager)
    (s : VirtualHeaderSubChain) (run : (create startBlockHeader stopHash).addAll c fuel calls = some m)
    (apart : HashesApart c startBlockHeader m.blockHeaderPool) (managed : s ∈ m.headerSubchainSet) :
    s.ExportsToStart c m.blockHeaderPool uninitialised ↔ Anchored c m.blockHeaderPool uninitialised s := by
  have keeps := keeps_of_run run
  have kept := keeps.kept s managed
  refine ⟨VirtualHeaderSubChain.anchored_of_exports kept, fun anchored => ?_⟩
  obtain ⟨rfl, -⟩ := kept
  exact VirtualHeaderSubChain.exports_of_connected apart keeps.known anchored.connected anchored.bottom

/-- Headers one on top of the other, from the start. -/
def three : List BlockHeader :=
  [child genesis 1, child (child genesis 1) 2, child (child (child genesis 1) 2) 3]

/-- A manager that followed them to the last. -/
def followed : VirtualHeaderSyncManager :=
  let last := child (child (child genesis 1) 2) 3
  let stopHash := some (last.headerHash digests)
  { startBlockHeader := genesis
    stopHash
    blockHeaderPool := three
    headerSubchainSet := [⟨genesis, last, stopHash, true⟩]
    status := .finished }

theorem exportsToStart_iff_followed :
    ∃ s ∈ followed.headerSubchainSet, (s.ExportsToStart digests followed.blockHeaderPool [] ↔
      Anchored digests followed.blockHeaderPool [] s) := by
  have run : (create genesis followed.stopHash).addAll digests 4
      [(inOrder, three.take 2), (inOrder, three.drop 2)] = some followed := by
    decide +kernel
  have apart : HashesApart digests genesis followed.blockHeaderPool := by
    unfold HashesApart
    decide +kernel
  exact ⟨_, List.mem_singleton_self _,
    exportsToStart_iff digests 4 genesis followed.stopHash _ [] followed _ run apart (List.mem_singleton_self _)⟩

/-- Two headers on top of one that is not there: the second gets a subchain from the start header, which the
pool does not lead to. -/
theorem exportsToStart_fails : ∃ m s,
    (create genesis none).addAll digests 2
      [(inOrder, [child (child genesis 9) 1, child (child genesis 9) 2])] = some m ∧
    HashesApart digests genesis m.blockHeaderPool ∧ s ∈ m.headerSubchainSet ∧
    ∀ uninitialised, ¬s.ExportsToStart digests m.blockHeaderPool uninitialised := by
  let strays := [child (child genesis 9) 1, child (child genesis 9) 2]
  let s : VirtualHeaderSubChain := ⟨genesis, child (child genesis 9) 2,
    some ((child (child genesis 9) 2).headerHash digests), true⟩
  have ends : ((create genesis none).addAll digests 2 [(inOrder, strays)]).map
      (fun m => (m.blockHeaderPool, decide (s ∈ m.headerSubchainSet))) = some (strays, true) := by
    decide +kernel
  obtain ⟨m, run, final⟩ := Option.map_eq_some_iff.mp ends
  obtain ⟨pool, managed⟩ := Prod.mk.inj final
  refine ⟨m, s, run, ?_, of_decide_eq_true managed, fun uninitialised exports => ?_⟩
  · rw [pool]
    unfold HashesApart
    decide +kernel
  · have kept : Kept genesis m.blockHeaderPool s := by
      rw [pool]
      exact ⟨rfl, Or.inr (List.mem_cons_of_mem _ (List.mem_singleton_self _))⟩
    have path := (VirtualHeaderSubChain.anchored_of_exports kept exports).connected
    rw [pool] at path
    rcases path.cases_head with same | ⟨z, ⟨member, onTop⟩, -⟩
    · exact absurd same (by decide +kernel)
    · have none : ∀ z ∈ strays, z.previousBlockHeaderHash.toList ≠ genesis.headerHash digests := by
        decide +kernel
      exact none z member onTop

end VirtualHeaderSyncManager

end MiyaCore.Chain
