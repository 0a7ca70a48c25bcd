import MiyaCore.Chain.BlockChainIterator

/-!
# Block sync

A sync manager downloads the blocks of a header vector in one window. Each segment of the window has the hash of
a block, and the block once it has arrived; a block that the storage has is there from the beginning. When no
segment is empty, the blocks that came from outside are written.
-/

namespace MiyaCore.Chain

variable {PKey : Type} (c : Crypto PKey)

/-- A segment of the window: the hash, whether the block is from the storage, and the block. -/
structure WindowSegment (PKey : Type) where
  blockHash : List UInt8
  isLocal : Bool
  body : Option (Block PKey)

/-- `UnChaindedWindow`. The size is an `unsigned short`. -/
structure UnChaindedWindow (PKey : Type) where
  windowSize : Nat := 50
  segmentVector : List (WindowSegment PKey) := []

/-- `ALLOWED_RETRANSMISSION_COUNT`. -/
def ALLOWED_RETRANSMISSION_COUNT : Nat := 4

namespace UnChaindedWindow

/-- What the arrival of a block does to a segment. -/
def arrive (segment : WindowSegment PKey) (target : Block PKey) : WindowSegment PKey :=
  if segment.blockHash = target.blockHash c then { segment with body := some target } else segment

/-- `add`, to which the manager passes every block that arrives: each segment with its hash gets it. -/
def add (w : UnChaindedWindow PKey) (target : Block PKey) : UnChaindedWindow PKey :=
  { w with segmentVector := w.segmentVector.map fun segment => arrive c segment target }

/-- `at`. -/
def segmentAt (w : UnChaindedWindow PKey) (index : Nat) : Bool × Option (Block PKey) :=
  match w.segmentVector[index]? with
  | none => (false, none)
  | some segment => (segment.isLocal, segment.body)

def isComplete (w : UnChaindedWindow PKey) : Bool := w.segmentVector.all fun segment => segment.body.isSome

/-- The blocks that arrive during one wait. -/
def receive (w : UnChaindedWindow PKey) (arrived : List (Block PKey)) : UnChaindedWindow PKey :=
  arrived.foldl (add c) w

/-- `downloadWindow` with so many waits left before the last one; `arrivals` has the blocks of each wait. -/
def downloadWindow : Nat → UnChaindedWindow PKey → List (List (Block PKey)) → Bool × UnChaindedWindow PKey
  | 0, w, arrivals =>
    let w := w.receive c (arrivals.headD [])
    (w.isComplete, w)
  | allowed + 1, w, arrivals =>
    if w.isComplete then
      let w := w.receive c (arrivals.headD [])
      (w.isComplete, w)
    else downloadWindow allowed (w.receive c (arrivals.headD [])) arrivals.tail

end UnChaindedWindow

/-- `VirtualBlockSyncManager`, with what its storage has: the blocks that were there, and those written since. -/
structure VirtualBlockSyncManager (PKey : Type) where
  chain : List BlockHeader
  verifiedIndex : Nat := 0
  unChaindedWindow : UnChaindedWindow PKey := {}
  stored : List (Block PKey)
  written : List (Block PKey) := []

namespace VirtualBlockSyncManager

/-- The constructor. The chain is a map from unsigned integers, in which a header past the last index finds its
place taken. -/
def create (virtualHeaderChainVector : List BlockHeader) (stored : List (Block PKey)) :
    VirtualBlockSyncManager PKey where
  chain := virtualHeaderChainVector.take (2 ^ 32)
  stored := stored

variable (m : VirtualBlockSyncManager PKey)

/-- `readBlock`: a block that was there or was written, by its hash. -/
def readBlock (blockHash : List UInt8) : Option (Block PKey) :=
  (m.stored ++ m.written).find? fun b => b.blockHash c = blockHash

def writeBlock (targetBlock : Block PKey) : VirtualBlockSyncManager PKey :=
  { m with written := m.written ++ [targetBlock] }

/-- The segment that `setupWindow` makes for a header. -/
def segmentOf (vb : BlockHeader) : WindowSegment PKey :=
  let readedBlock := m.readBlock c (vb.headerHash c)
  ⟨vb.headerHash c, readedBlock.isSome, readedBlock⟩

def setupWindow (fromVBVector : List BlockHeader) : VirtualBlockSyncManager PKey :=
  { m with
    unChaindedWindow :=
      { windowSize := fromVBVector.length % 2 ^ 16
        segmentVector := fromVBVector.map (m.segmentOf c) } }

/-- The loop that collects the window, from an index on. The index is an unsigned integer. -/
def collect (chain : List BlockHeader) : Nat → Nat → List BlockHeader → Option (List BlockHeader × Nat)
  | 0, _, _ => none
  | fuel + 1, vbIndex, windowTargetVBVector =>
    match chain[vbIndex]? with
    | none => some (windowTargetVBVector, vbIndex)
    | some vb => collect chain fuel ((vbIndex + 1) % 2 ^ 32) (windowTargetVBVector ++ [vb])

/-- The loop that writes the window, with `n` segments to go from `i` on. A segment without a block would be
written as a null pointer. -/
def writeFrom : Nat → Nat → VirtualBlockSyncManager PKey → Option (VirtualBlockSyncManager PKey)
  | 0, _, m => some m
  | n + 1, i, m => do
    let (blockIsInLocal, targetBlock) := m.unChaindedWindow.segmentAt i
    if blockIsInLocal then writeFrom n (i + 1) m
    else
      let targetBlock ← targetBlock
      writeFrom n (i + 1) (m.writeBlock targetBlock)

/-- The loop of `start`. A window that does not get complete ends it. -/
def startFrom : Nat → Nat → VirtualBlockSyncManager PKey → List (List (Block PKey)) →
    Option (VirtualBlockSyncManager PKey)
  | 0, _, _, _ => none
  | fuel + 1, vbIndex, m, arrivals =>
    if vbIndex < m.chain.length then do
      let (windowTargetVBVector, vbIndex) ← collect m.chain fuel m.verifiedIndex []
      if windowTargetVBVector = [] then return m
      let m := m.setupWindow c windowTargetVBVector
      let (done, w) := m.unChaindedWindow.downloadWindow c ALLOWED_RETRANSMISSION_COUNT arrivals
      let m := { m with unChaindedWindow := w }
      if !done then return m
      let m ← writeFrom w.windowSize 0 m
      startFrom fuel vbIndex m arrivals
    else some m

/-- `start`: whatever came of the windows, it returns true. -/
def start (fuel : Nat) (arrivals : List (List (Block PKey))) : Option (Bool × VirtualBlockSyncManager PKey) :=
  (startFrom c fuel 0 m arrivals).map fun m => (true, m)

end VirtualBlockSyncManager

/-- The blocks of these headers are looked up in these. -/
def HasBlock (blocks : List (Block PKey)) (h : BlockHeader) : Prop := ∃ b ∈ blocks, b.blockHash c = h.headerHash c

/-- What a download with the result `flag` has to come to: true if and only if all blocks of the headers are in
the storage, and no block is written that was there, that nobody asked for, or for a second time. -/
structure DownloadedHonestly (headers : List BlockHeader) (stored : List (Block PKey)) (flag : Bool)
    (written : List (Block PKey)) : Prop where
  reported : flag = true ↔ ∀ h ∈ headers, HasBlock c (stored ++ written) h
  once : ∀ h ∈ headers, ¬HasBlock c stored h → written.countP (fun b => b.blockHash c = h.headerHash c) = 1
  notAgain : ∀ b ∈ written, ∀ b' ∈ stored, b'.blockHash c ≠ b.blockHash c
  wanted : ∀ b ∈ written, ∃ h ∈ headers, b.blockHash c = h.headerHash c

/-- `start` comes to an end, and honestly. -/
def EndsHonestly (headers : List BlockHeader) (stored : List (Block PKey)) (arrivals : List (List (Block PKey))) :
    Prop :=
  ∃ fuel flag m, (VirtualBlockSyncManager.create headers stored).start c fuel arrivals = some (flag, m) ∧
    DownloadedHonestly c headers stored flag m.written

variable {c}

namespace UnChaindedWindow

/-- What the arrival of several blocks does to a segment. -/
def fill (c : Crypto PKey) (arrived : List (Block PKey)) (segment : WindowSegment PKey) : WindowSegment PKey :=
  arrived.foldl (arrive c) segment

theorem receive_eq (w : UnChaindedWindow PKey) (arrived : List (Block PKey)) :
    w.receive c arrived = { w with segmentVector := w.segmentVector.map (fill c arrived) } := by
  induction arrived generalizing w with
  | nil =>
    have none : fill c [] = id := rfl
    rw [receive, List.foldl_nil, none, List.map_id]
  | cons b rest ih =>
    have step : w.receive c (b :: rest) = (w.add c b).receive c rest := rfl
    rw [step, ih, add, List.map_map]
    rfl

theorem receive_append (w : UnChaindedWindow PKey) (arrived later : List (Block PKey)) :
    w.receive c (arrived ++ later) = (w.receive c arrived).receive c later :=
  List.foldl_append

/-- An arrival leaves the hash and the flag of a segment, and a block that is there has its hash. -/
theorem fill_keeps (arrived : List (Block PKey)) (segment : WindowSegment PKey) :
    (fill c arrived segment).blockHash = segment.blockHash ∧ (fill c arrived segment).isLocal = segment.isLocal ∧
      ((∀ b ∈ segment.body, b.blockHash c = segment.blockHash) →
        ∀ b ∈ (fill c arrived segment).body, b.blockHash c = segment.blockHash) := by
  induction arrived generalizing segment with
  | nil => exact ⟨rfl, rfl, id⟩
  | cons b rest ih =>
    have step : fill c (b :: rest) segment = fill c rest (arrive c segment b) := rfl
    obtain ⟨hash, flag, named⟩ := ih (arrive c segment b)
    rw [step, hash, flag]
    unfold arrive at named ⊢
    split_ifs at named ⊢ with same
    · refine ⟨rfl, rfl, fun _ => named fun b' member => ?_⟩
      obtain rfl := Option.some.inj member
      exact same.symm
    · exact ⟨rfl, rfl, named⟩

/-- A segment has a block if it had one, or if a block with its hash arrives. -/
theorem fill_body_isSome (arrived : List (Block PKey)) (segment : WindowSegment PKey) :
    (fill c arrived segment).body.isSome ↔
      segment.body.isSome ∨ ∃ b ∈ arrived, b.blockHash c = segment.blockHash := by
  induction arrived generalizing segment with
  | nil => simp [fill]
  | cons b rest ih =>
    have step : fill c (b :: rest) segment = fill c rest (arrive c segment b) := rfl
    rw [step, ih, arrive]
    split_ifs with same
    · simp [same]
    · simp [Ne.symm same]

/-- A download takes the blocks of at most so many waits and the last one; it takes fewer only if the window is
complete then. -/
theorem downloadWindow_run (allowed : Nat) (w : UnChaindedWindow PKey) (arrivals : List (List (Block PKey))) :
    ∃ waits ≤ allowed + 1, w.downloadWindow c allowed arrivals =
      ((w.receive c (arrivals.take waits).flatten).isComplete, w.receive c (arrivals.take waits).flatten) ∧
      (waits = allowed + 1 ∨ (w.receive c (arrivals.take waits).flatten).isComplete) := by
  have last : (arrivals.take 1).flatten = arrivals.headD [] := by cases arrivals <;> simp
  induction allowed generalizing w arrivals with
  | zero => exact ⟨1, le_rfl, by rw [downloadWindow, last], Or.inl rfl⟩
  | succ allowed ih =>
    rw [downloadWindow]
    split_ifs with complete
    · refine ⟨1, by omega, by rw [last], Or.inr ?_⟩
      rw [receive_eq, isComplete, List.all_map]
      refine List.all_eq_true.mpr fun segment member => (fill_body_isSome _ segment).mpr (Or.inl ?_)
      exact List.all_eq_true.mp complete segment member
    · obtain ⟨waits, bound, run, ended⟩ := ih (w.receive c (arrivals.headD [])) arrivals.tail (by
        cases arrivals.tail <;> simp)
      have joined : (w.receive c (arrivals.headD [])).receive c (arrivals.tail.take waits).flatten =
          w.receive c (arrivals.take (waits + 1)).flatten := by
        rw [← receive_append]
        cases arrivals <;> simp
      rw [joined] at run ended
      exact ⟨waits + 1, by omega, run, ended.imp_left fun all => by rw [all]⟩

/-- The window is complete in the end if and only if each segment had its block or gets it in one of the five
waits. -/
theorem downloadWindow_complete_iff (w : UnChaindedWindow PKey) (arrivals : List (List (Block PKey))) :
    (w.downloadWindow c ALLOWED_RETRANSMISSION_COUNT arrivals).1 ↔
      ∀ segment ∈ w.segmentVector, segment.body.isSome ∨
        ∃ b ∈ (arrivals.take 5).flatten, b.blockHash c = segment.blockHash := by
  obtain ⟨waits, bound, run, ended⟩ := downloadWindow_run (c := c) ALLOWED_RETRANSMISSION_COUNT w arrivals
  have complete_iff : ∀ arrived, (w.receive c arrived).isComplete ↔ ∀ segment ∈ w.segmentVector,
      segment.body.isSome ∨ ∃ b ∈ arrived, b.blockHash c = segment.blockHash := by
    intro arrived
    simp only [receive_eq, isComplete, List.all_map, List.all_eq_true, Function.comp_apply, fill_body_isSome]
  rw [run]
  constructor
  · intro complete segment member
    obtain there | ⟨b, arrived, same⟩ := (complete_iff _).mp complete segment member
    · exact Or.inl there
    · obtain ⟨batch, inWaits, inBatch⟩ := List.mem_flatten.mp arrived
      exact Or.inr ⟨b, List.mem_flatten.mpr ⟨batch, List.take_subset_take_left _ bound inWaits, inBatch⟩, same⟩
  · intro delivered
    obtain rfl | complete := ended
    · exact (complete_iff _).mpr delivered
    · exact complete

end UnChaindedWindow

namespace VirtualBlockSyncManager

/-- The collecting loop comes to the end of the chain, which has an index for it. -/
theorem collect_eq {chain : List BlockHeader} (short : chain.length < 2 ^ 32) {vbIndex : Nat}
    (inside : vbIndex ≤ chain.length) (fuel : Nat) (collected : List BlockHeader) :
    collect chain fuel vbIndex collected =
      if chain.length - vbIndex < fuel then some (collected ++ chain.drop vbIndex, chain.length) else none := by
  induction fuel generalizing vbIndex collected with
  | zero => rfl
  | succ fuel ih =>
    rw [collect]
    by_cases last : vbIndex = chain.length
    · rw [List.getElem?_eq_none last.ge, if_pos (by omega), List.drop_of_length_le last.ge, List.append_nil, last]
    · have below : vbIndex < chain.length := by omega
      rw [List.getElem?_eq_getElem below, Nat.mod_eq_of_lt (by omega)]
      dsimp only
      rw [ih (by omega), List.append_assoc, List.singleton_append, List.getElem_cons_drop]
      refine if_congr ?_ rfl rfl
      omega

/-- The collecting loop of a chain with all the unsigned integers in it does not end: the index starts anew. -/
theorem collect_endless {chain : List BlockHeader} (full : chain.length = 2 ^ 32) (fuel : Nat) {vbIndex : Nat}
    (inside : vbIndex < 2 ^ 32) (collected : List BlockHeader) : collect chain fuel vbIndex collected = none := by
  induction fuel generalizing vbIndex collected with
  | zero => rfl
  | succ fuel ih =>
    rw [collect, List.getElem?_eq_getElem (by omega)]
    exact ih (Nat.mod_lt _ (by decide)) _

/-- The blocks of the segments that did not come from the storage. -/
def arrivedBlocks (segments : List (WindowSegment PKey)) : List (Block PKey) :=
  segments.filterMap fun segment => if segment.isLocal then none else segment.body

/-- The writing loop writes what arrived, in order. -/
theorem writeFrom_eq {n i : Nat} {m : VirtualBlockSyncManager PKey}
    (inside : i + n ≤ m.unChaindedWindow.segmentVector.length)
    (complete : ∀ segment ∈ m.unChaindedWindow.segmentVector, segment.body.isSome) :
    writeFrom n i m = some { m with
      written := m.written ++ arrivedBlocks ((m.unChaindedWindow.segmentVector.drop i).take n) } := by
  induction n generalizing i m with
  | zero => simp [writeFrom, arrivedBlocks]
  | succ n ih =>
    have below : i < m.unChaindedWindow.segmentVector.length := by omega
    obtain ⟨b, body⟩ := Option.isSome_iff_exists.mp (complete _ (List.getElem_mem below))
    rw [← List.getElem_cons_drop below, List.take_succ_cons, writeFrom, UnChaindedWindow.segmentAt,
      List.getElem?_eq_getElem below]
    by_cases there : m.unChaindedWindow.segmentVector[i].isLocal
    · have rest := ih (i := i + 1) (m := m) (by omega) complete
      simp only [there, if_true, rest, arrivedBlocks, List.filterMap_cons]
    · have rest := ih (i := i + 1) (m := m.writeBlock b)
        (show i + 1 + n ≤ m.unChaindedWindow.segmentVector.length by omega) complete
      simp only [there, body, Option.bind_eq_bind, Option.bind_some, rest, arrivedBlocks, List.filterMap_cons]
      simp [writeBlock]

section Download
variable (c) (headers : List BlockHeader) (stored : List (Block PKey)) (arrivals : List (List (Block PKey)))

/-- What becomes of the window of all headers: whether it gets complete, and how it looks then. -/
def afterDownload : Bool × UnChaindedWindow PKey :=
  ((create headers stored).setupWindow c headers).unChaindedWindow.downloadWindow c ALLOWED_RETRANSMISSION_COUNT
    arrivals

/-- The blocks that a download writes: nothing of a window that is not complete, and of a complete one as many
segments as its size says. -/
def outcome : List (Block PKey) :=
  if (afterDownload c headers stored arrivals).1 then
    arrivedBlocks ((afterDownload c headers stored arrivals).2.segmentVector.take (headers.length % 2 ^ 16))
  else []

variable {c headers stored arrivals}

/-- How a header's segment looks after the waits: the hash is that of the header, the flag says whether the
storage has its block, and a block in it is its block. -/
theorem afterDownload_segments : ∃ g : BlockHeader → WindowSegment PKey,
    (afterDownload c headers stored arrivals).2.segmentVector = headers.map g ∧
      (afterDownload c headers stored arrivals).2.windowSize = headers.length % 2 ^ 16 ∧
      (afterDownload c headers stored arrivals).1 = (afterDownload c headers stored arrivals).2.isComplete ∧
      ∀ h, ((g h).isLocal ↔ HasBlock c stored h) ∧ ∀ b ∈ (g h).body, b.blockHash c = h.headerHash c := by
  obtain ⟨waits, -, run, -⟩ := UnChaindedWindow.downloadWindow_run (c := c) ALLOWED_RETRANSMISSION_COUNT
    ((create headers stored).setupWindow c headers).unChaindedWindow arrivals
  rw [← afterDownload] at run
  refine ⟨fun h => UnChaindedWindow.fill c (arrivals.take waits).flatten ((create headers stored).segmentOf c h),
    ?_, ?_, ?_, fun h => ?_⟩
  · rw [run, UnChaindedWindow.receive_eq, setupWindow, List.map_map]
    rfl
  · rw [run, UnChaindedWindow.receive_eq]
    rfl
  · rw [run]
  · obtain ⟨-, flag, named⟩ := UnChaindedWindow.fill_keeps (c := c) (arrivals.take waits).flatten
      ((create headers stored).segmentOf c h)
    refine ⟨?_, named fun b found => ?_⟩
    · rw [flag]
      simp [segmentOf, readBlock, create, HasBlock]
    · have hit := List.find?_some (Option.mem_def.mp found)
      exact of_decide_eq_true hit

/-- The run of `start`, once its loops have enough room: it returns true, whatever it has written. -/
theorem start_eq (short : headers.length < 2 ^ 32) (fuel : Nat) :
    ((create headers stored).start c fuel arrivals).map (fun r => (r.1, r.2.written)) =
      if headers.length = 0 ∧ 0 < fuel ∨ headers.length + 1 < fuel then some (true, outcome c headers stored arrivals)
      else none := by
  have chain : (create headers stored).chain = headers := List.take_of_length_le short.le
  cases fuel with
  | zero => simp [start, startFrom]
  | succ fuel =>
    rw [start, startFrom, chain]
    by_cases empty : headers.length = 0
    · obtain rfl := List.eq_nil_of_length_eq_zero empty
      simp [outcome, afterDownload, setupWindow, arrivedBlocks, create]
    · have nonempty : headers ≠ [] := fun none => empty (by rw [none, List.length_nil])
      have collected := collect_eq short (Nat.zero_le _) fuel []
      rw [List.drop_zero, List.nil_append, Nat.sub_zero] at collected
      have same : UnChaindedWindow.downloadWindow c ALLOWED_RETRANSMISSION_COUNT
        ((create headers stored).setupWindow c headers).unChaindedWindow arrivals =
          afterDownload c headers stored arrivals := rfl
      have start : (create headers stored).verifiedIndex = 0 := rfl
      rw [if_pos (Nat.pos_of_ne_zero empty), start, collected]
      by_cases room : headers.length < fuel
      · obtain ⟨fuel, rfl⟩ : ∃ n, fuel = n + 1 := ⟨fuel - 1, by omega⟩
        rw [if_pos room, if_pos (Or.inr (by omega)), Option.bind_eq_bind, Option.bind_some]
        simp only [if_neg nonempty, same]
        obtain ⟨g, segments, size, complete, -⟩ := @afterDownload_segments PKey c headers stored arrivals
        cases done : (afterDownload c headers stored arrivals).1 with
        | false => simp [outcome, done, create, setupWindow]
        | true =>
          have full := List.all_eq_true.mp (complete.symm.trans done)
          have wrote := writeFrom_eq (n := headers.length % 2 ^ 16) (i := 0)
            (m := { (create headers stored).setupWindow c headers with
                    unChaindedWindow := (afterDownload c headers stored arrivals).2 })
            (by rw [segments, List.length_map, Nat.zero_add]; exact Nat.mod_le _ _) full
          dsimp only at wrote
          have chain' : ((create headers stored).setupWindow c headers).chain = headers := chain
          simp only [size, Bool.not_true, Bool.false_eq_true, if_false]
          rw [wrote, Option.bind_eq_bind, Option.bind_some, startFrom, chain', if_neg (lt_irrefl _), outcome, done,
            if_pos rfl]
          rfl
      · rw [if_neg room, if_neg (by omega)]
        rfl

/-- A chain with a header for each unsigned integer is not collected in any number of steps. -/
theorem start_endless (long : 2 ^ 32 ≤ headers.length) (fuel : Nat) :
    (create headers stored).start c fuel arrivals = none := by
  have full : (create headers stored).chain.length = 2 ^ 32 := List.length_take_of_le long
  have start : (create headers stored).verifiedIndex = 0 := rfl
  cases fuel with
  | zero => rfl
  | succ fuel =>
    rw [VirtualBlockSyncManager.start, startFrom, if_pos (by rw [full]; decide), start,
      collect_endless full fuel (by decide)]
    rfl

/-- The window gets complete if and only if each block that the storage does not have arrives in time. -/
theorem afterDownload_complete_iff : (afterDownload c headers stored arrivals).1 ↔
    ∀ h ∈ headers, HasBlock c stored h ∨ HasBlock c (arrivals.take 5).flatten h := by
  rw [afterDownload, UnChaindedWindow.downloadWindow_complete_iff, setupWindow]
  simp [segmentOf, readBlock, create, HasBlock]

/-- What is written has the hash of a header whose block the storage does not have. -/
theorem mem_outcome {b : Block PKey} (written : b ∈ outcome c headers stored arrivals) :
    ∃ h ∈ headers, b.blockHash c = h.headerHash c ∧ ¬HasBlock c stored h := by
  obtain ⟨g, segments, -, -, named⟩ := @afterDownload_segments PKey c headers stored arrivals
  rw [outcome] at written
  split_ifs at written
  · rw [segments, ← List.map_take, arrivedBlocks, List.filterMap_map] at written
    obtain ⟨h, member, found⟩ := List.mem_filterMap.mp written
    obtain ⟨there, body⟩ := named h
    rw [Function.comp_apply] at found
    split_ifs at found with flag
    exact ⟨h, List.mem_of_mem_take member, body b found, fun has => flag (there.mpr has)⟩
  · contradiction

/-- A complete window writes the block of a header as often as the header is among those that the window's size
covers, if the storage does not have it. -/
theorem countP_outcome (complete : (afterDownload c headers stored arrivals).1) {h : BlockHeader}
    (absent : ¬HasBlock c stored h) :
    (outcome c headers stored arrivals).countP (fun b => b.blockHash c = h.headerHash c) =
      (headers.take (headers.length % 2 ^ 16)).countP (fun x => x.headerHash c = h.headerHash c) := by
  obtain ⟨g, segments, -, full, named⟩ := @afterDownload_segments PKey c headers stored arrivals
  rw [outcome, if_pos complete, segments, ← List.map_take, arrivedBlocks, List.filterMap_map, List.countP_filterMap]
  refine List.countP_congr fun x member => ?_
  obtain ⟨there, body⟩ := named x
  have inWindow : g x ∈ (afterDownload c headers stored arrivals).2.segmentVector :=
    segments ▸ List.mem_map_of_mem (List.mem_of_mem_take member)
  obtain ⟨b, arrived⟩ := Option.isSome_iff_exists.mp (List.all_eq_true.mp (full ▸ complete) (g x) inWindow)
  have hash := body b arrived
  by_cases flag : (g x).isLocal
  · have other : x.headerHash c ≠ h.headerHash c := by
      intro same
      obtain ⟨b', stored, hash'⟩ := there.mp flag
      exact absent ⟨b', stored, hash'.trans same⟩
    simp [flag, other]
  · simp [flag, arrived, hash]

end Download

end VirtualBlockSyncManager

section Honesty
open VirtualBlockSyncManager
variable (headers : List BlockHeader) (stored : List (Block PKey)) (arrivals : List (List (Block PKey)))

variable (c) in
/-- Every block is there or arrives in one of the five waits, and one that is not there is asked for once, among
the headers that the size of the window covers. -/
def InTimeOnce : Prop :=
  headers.length < 2 ^ 32 ∧ ∀ h ∈ headers, HasBlock c stored h ∨ HasBlock c (arrivals.take 5).flatten h ∧
    (headers.take (headers.length % 2 ^ 16)).countP (fun x => x.headerHash c = h.headerHash c) = 1

theorem downloadedHonestly_iff : DownloadedHonestly c headers stored true (outcome c headers stored arrivals) ↔
    ∀ h ∈ headers, HasBlock c stored h ∨ HasBlock c (arrivals.take 5).flatten h ∧
      (headers.take (headers.length % 2 ^ 16)).countP (fun x => x.headerHash c = h.headerHash c) = 1 := by
  constructor
  · intro honest h member
    have complete : (afterDownload c headers stored arrivals).1 := by
      by_contra failed
      have nothing : outcome c headers stored arrivals = [] := if_neg failed
      have all := honest.reported.mp rfl
      rw [nothing, List.append_nil] at all
      exact failed (afterDownload_complete_iff.mpr fun h member => Or.inl (all h member))
    by_cases there : HasBlock c stored h
    · exact Or.inl there
    · have delivered := (afterDownload_complete_iff.mp complete h member).resolve_left there
      have once := honest.once h member there
      rw [countP_outcome complete there] at once
      exact Or.inr ⟨delivered, once⟩
  · intro inTime
    have complete : (afterDownload c headers stored arrivals).1 :=
      afterDownload_complete_iff.mpr fun h member => (inTime h member).imp_right And.left
    have once : ∀ h ∈ headers, ¬HasBlock c stored h →
        (outcome c headers stored arrivals).countP (fun b => b.blockHash c = h.headerHash c) = 1 := by
      intro h member absent
      rw [countP_outcome complete absent]
      exact ((inTime h member).resolve_left absent).2
    refine ⟨⟨fun _ h member => ?_, fun _ => rfl⟩, once, fun b written b' there same => ?_, fun b written => ?_⟩
    · by_cases there : HasBlock c stored h
      · obtain ⟨b, inStored, hash⟩ := there
        exact ⟨b, List.mem_append_left _ inStored, hash⟩
      · obtain ⟨b, written, hash⟩ := List.countP_pos_iff.mp (show 0 < _ by rw [once h member there]; decide)
        exact ⟨b, List.mem_append_right _ written, of_decide_eq_true hash⟩
    · obtain ⟨h, -, hash, absent⟩ := mem_outcome written
      exact absent ⟨b', there, same.trans hash⟩
    · obtain ⟨h, member, hash, -⟩ := mem_outcome written
      exact ⟨h, member, hash⟩

/-- A download ends honestly just where every block comes in time and is asked for once: it says true also when
it has written nothing, and writes a block for each of its headers. -/
theorem endsHonestly_iff : EndsHonestly c headers stored arrivals ↔ InTimeOnce c headers stored arrivals := by
  rw [InTimeOnce]
  by_cases short : headers.length < 2 ^ 32
  · rw [and_iff_right short, ← downloadedHonestly_iff]
    constructor
    · rintro ⟨fuel, flag, m, run, honest⟩
      have result := @start_eq PKey c headers stored arrivals short fuel
      rw [run, Option.map_some] at result
      obtain ⟨-, same⟩ := Option.ite_none_right_eq_some.mp result.symm
      obtain ⟨rfl, written⟩ := Prod.mk.inj (Option.some.inj same)
      exact written ▸ honest
    · intro honest
      have result := @start_eq PKey c headers stored arrivals short (headers.length + 2)
      rw [if_pos (Or.inr (by omega))] at result
      obtain ⟨⟨flag, m⟩, run, same⟩ := Option.map_eq_some_iff.mp result
      obtain ⟨rfl, written⟩ := Prod.mk.inj same
      exact ⟨_, true, m, run, written ▸ honest⟩
  · refine ⟨?_, fun inTime => absurd inTime.1 short⟩
    rintro ⟨fuel, flag, m, run, -⟩
    rw [start_endless (Nat.not_lt.mp short)] at run
    contradiction

open VirtualHeaderSyncManager (digests genesis) in
/-- A header whose block never comes: nothing is written, and true is returned. -/
theorem endsHonestly_fails : ¬EndsHonestly digests [genesis] ([] : List (Block Unit)) [] := by
  rintro ⟨fuel, flag, m, run, honest⟩
  have failed : ¬(afterDownload digests [genesis] ([] : List (Block Unit)) []).1 := by decide +kernel
  have result := @start_eq Unit digests [genesis] [] [] (by decide) fuel
  rw [run, Option.map_some] at result
  obtain ⟨-, same⟩ := Option.ite_none_right_eq_some.mp result.symm
  obtain ⟨rfl, written⟩ := Prod.mk.inj (Option.some.inj same)
  rw [← written, outcome, if_neg failed] at honest
  obtain ⟨b, member, -⟩ := honest.reported.mp rfl genesis (List.mem_singleton_self _)
  contradiction

end Honesty

end MiyaCore.Chain
