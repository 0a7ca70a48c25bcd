import MiyaCore.Chain.BlockContainer

namespace MiyaCore.Chain

variable {PKey : Type} {c : Crypto PKey}

/-- `DEFAULT_BLK_REV_MAX_BYTES`. -/
def maxBytes : Nat := 128 * 1024 * 1024

/-- A blk or rev file: what follows its meta block of 100 bytes. -/
structure DataFile where
  body : List UInt8 := []

namespace DataFile

/-- The end of the data, as the meta block keeps it. -/
def actualDataSize (f : DataFile) : Nat := 100 + f.body.length

/-- `LocalFileController::write`: the offset of the data, or -1 for a file that is full. -/
def write (f : DataFile) (data : List UInt8) : Option Nat × DataFile :=
  if f.actualDataSize + data.length ≥ maxBytes then (none, f) else (some f.actualDataSize, ⟨f.body ++ data⟩)

/-- `LocalFileController::read`. Outside the data there is nothing to read. -/
def read (f : DataFile) (size offset : Nat) : Option (List UInt8) :=
  if 100 ≤ offset ∧ offset + size ≤ f.actualDataSize
  then some ((f.body.drop (offset - 100)).take size) else none

/-- `BlkFileManager::read` and `RevFileManager::read`: the meta area of a container, then as
much as its size says. -/
def readContainer (f : DataFile) (offset : Nat) : Option (List UInt8) := do
  let head ← f.read 12 offset
  let rest ← f.read (Bytes.ofLe ((head.drop 4).take 4) - 12) (offset + 12)
  return head ++ rest

end DataFile

/-- `BlockIndex`. -/
structure BlockIndex where
  fileIndex : UInt16
  blockOffset : UInt32
  reversalOffset : UInt32
deriving DecidableEq

/-- `BlockLocalStrage`: the files by number, the files the cached managers have open, and the
index database as a map. A manager that was made with an empty path has no file. -/
structure BlockLocalStrage where
  blk : Nat → DataFile := fun _ => {}
  rev : Nat → DataFile := fun _ => {}
  blkFileManager : Option Nat := none
  revFileManager : Option Nat := none
  lastIndex : Nat := 0
  index : List.Vector UInt8 20 → Option BlockIndex := fun _ => none

/-- A container with its own length in its size field. -/
def Sized (raw : List UInt8) : Prop := 12 ≤ raw.length ∧ Bytes.ofLe ((raw.drop 4).take 4) = raw.length

/-- What is written for a block: the key of its hash and the bytes of its two containers, each
of which fits into a file of its own. -/
structure Entry where
  key : List.Vector UInt8 20
  blk : List UInt8
  rev : List UInt8
  sizedBlk : Sized blk
  sizedRev : Sized rev
  fitsBlk : 100 + blk.length < maxBytes
  fitsRev : 100 + rev.length < maxBytes

/-- `UndoContainer`: the outputs of a block with the id of their transaction and an index. -/
structure UndoContainer where
  magicBytes : List.Vector UInt8 4
  utxoVector : List (TxOut × List UInt8 × Nat)

namespace UndoContainer

/-- The outputs of a list of transactions, numbered on from `i`. -/
def outputs (c : Crypto PKey) : Nat → List (P2PKH PKey) → Option (List (TxOut × List UInt8 × Nat))
  | _, [] => some []
  | i, t :: rest => do
    let (txID, t) ← t.calcTxID c
    let later ← outputs c (i + t.outs.length) rest
    return t.outs.mapIdx (fun j x => (x, txID, i + j)) ++ later

/-- The constructor from a block; the index runs on from one transaction to the next. -/
def ofBlock (c : Crypto PKey) (magicBytes : List.Vector UInt8 4) (b : Block PKey) : Option UndoContainer := do
  let (txID, coinbase) ← (← b.coinbase).calcTxID c
  let later ← outputs c 0 b.txVector
  return ⟨magicBytes, (coinbase.txOut, txID, 0) :: later⟩

/-- `UndoContainer::exportRawFormated` around the BSON document of the outputs. -/
def exportRawFormated (bson : List (TxOut × List UInt8 × Nat) → List UInt8) (x : UndoContainer) : List UInt8 :=
  x.magicBytes.toList ++ Bytes.le 4 (12 + (bson x.utxoVector).length) ++
  Bytes.le 4 x.utxoVector.length ++ bson x.utxoVector

end UndoContainer

theorem sized_framed (front : List.Vector UInt8 4) {middle body : List UInt8} (four : middle.length = 4)
    (small : 12 + body.length < maxBytes) : Sized
    (front.toList ++ Bytes.le 4 (12 + body.length) ++ middle ++ body) := by
  have length : (front.toList ++ Bytes.le 4 (12 + body.length) ++ middle ++ body).length =
    12 + body.length := by
    simp [four]
    omega
  have field : ((front.toList ++ Bytes.le 4 (12 + body.length) ++ middle ++ body).drop 4).take 4 =
      Bytes.le 4 (12 + body.length) := by
    rw [List.append_assoc, List.append_assoc, List.drop_left' (by simp), List.take_left' (by simp)]
  refine ⟨by omega, ?_⟩
  rw [field, Bytes.ofLe_le, length]
  exact Nat.mod_eq_of_lt (by rw [maxBytes] at small; omega)

theorem BlockContainer.sized_frame {x : BlockContainer PKey} {header coinbase txs : List UInt8}
    (small : (x.frame header coinbase txs).length < maxBytes) : Sized (x.frame header coinbase txs) := by
  have split : x.frame header coinbase txs = x.magicBytes.toList ++ Bytes.le 4
    (12 + (header ++ coinbase ++ txs).length) ++
      Bytes.le 4 x.block.txVector.length ++ (header ++ coinbase ++ txs) := by
    have total : 12 + header.length + txs.length + coinbase.length =
      12 + (header ++ coinbase ++ txs).length := by
      simp; omega
    simp only [frame, total, List.append_assoc]
  rw [split] at small ⊢
  refine sized_framed _ (by simp) ?_
  simp only [List.length_append, Bytes.length_le, List.Vector.toList_length] at small ⊢
  omega

/-- Both containers of a block are written with their own size. -/
theorem exists_entry {x after : BlockContainer PKey} {undo : UndoContainer} {raw : List UInt8}
    (key : List.Vector UInt8 20) (bson : List (TxOut × List UInt8 × Nat) → List UInt8)
    (run : x.exportRawFormated c = some (raw, after)) (fits : 100 + raw.length < maxBytes)
    (fitsUndo : 100 + (undo.exportRawFormated bson).length < maxBytes) :
    ∃ e : Entry, e.key = key ∧ e.blk = raw ∧ e.rev = undo.exportRawFormated bson := by
  have sizedBlk : Sized raw := by
    simp only [BlockContainer.exportRawFormated, Option.bind_eq_bind, Option.bind_eq_some_iff] at run
    obtain ⟨_, -, _, -, _, -, result⟩ := run
    obtain ⟨rfl, -⟩ := Prod.mk.inj (Option.some.inj result)
    exact BlockContainer.sized_frame (by omega)
  have sizedRev : Sized (undo.exportRawFormated bson) := by
    refine sized_framed _ (by simp) ?_
    simp only [UndoContainer.exportRawFormated, List.length_append, Bytes.length_le,
      List.Vector.toList_length] at fitsUndo
    omega
  exact ⟨⟨key, raw, _, sizedBlk, sizedRev, fits, fitsUndo⟩, rfl, rfl, rfl⟩

namespace BlockLocalStrage

/-- An offset as the index keeps it; -1 becomes the greatest number. -/
def offsetField (offset : Option Nat) : UInt32 := UInt32.ofNat (offset.getD (2 ^ 32 - 1))

/-- Both writes of `writeBlock`, each to the file its manager has open. -/
def writeBoth (s : BlockLocalStrage) (e : Entry) : Option ((Option Nat × Option Nat) × BlockLocalStrage) := do
  let i ← s.blkFileManager
  let j ← s.revFileManager
  let (blkOffset, blkFile) := (s.blk i).write e.blk
  let (revOffset, revFile) := (s.rev j).write e.rev
  return ((blkOffset, revOffset), { s with blk := Function.update s.blk i blkFile, rev := Function.update s.rev j revFile })

/-- `BlockLocalStrage::writeBlock`. The managers are kept if the cached blk file is the last one.
If either file is full, both are opened anew under the next number. -/
def writeBlock (s : BlockLocalStrage) (e : Entry) : Option BlockLocalStrage := do
  let s :=
    if s.blkFileManager = some s.lastIndex then s
    else { s with blkFileManager := some s.lastIndex, revFileManager := some s.lastIndex }
  let (offsets, s) ← s.writeBoth e
  let (offsets, s) ←
    if offsets.1 = none ∨ offsets.2 = none then
      let next := s.lastIndex + 1
      { s with lastIndex := next, blkFileManager := some next, revFileManager := some next }.writeBoth e
    else some (offsets, s)
  let blockIndex : BlockIndex := ⟨0, offsetField offsets.1, offsetField offsets.2⟩
  return { s with index := Function.update s.index e.key (some blockIndex) }

/-- `BlockLocalStrage::readBlock`: the bytes read for the key, null without an index entry. -/
def readBlock (s : BlockLocalStrage) (key : List.Vector UInt8 20) : Option (Buffer × BlockLocalStrage) :=
  match s.index key with
  | none => some (none, s)
  | some blockIndex => do
    let i := blockIndex.fileIndex.toNat
    let s := if s.blkFileManager = some i then s else
      { s with blkFileManager := some i, revFileManager := some i }
    let raw ← (s.blk i).readContainer blockIndex.blockOffset.toNat
    return (some raw, s)

/-- `BlockLocalStrage::readUndo`. -/
def readUndo (s : BlockLocalStrage) (key : List.Vector UInt8 20) : Option (Buffer × BlockLocalStrage) :=
  match s.index key with
  | none => some (none, s)
  | some blockIndex => do
    let i := blockIndex.fileIndex.toNat
    let s := if s.revFileManager = some i then s else { s with revFileManager := some i }
    let raw ← (s.rev i).readContainer blockIndex.reversalOffset.toNat
    return (some raw, s)

/-- A call on the store. -/
inductive Call where
  | writeBlock (e : Entry)
  | readBlock (key : List.Vector UInt8 20)
  | readUndo (key : List.Vector UInt8 20)

def step (s : BlockLocalStrage) : Call → Option BlockLocalStrage
  | .writeBlock e => s.writeBlock e
  | .readBlock key => (s.readBlock key).map Prod.snd
  | .readUndo key => (s.readUndo key).map Prod.snd

def run (s : BlockLocalStrage) : List Call → Option BlockLocalStrage
  | [] => some s
  | call :: calls => do (← s.step call).run calls

/-- The blocks that a run writes. -/
def written (calls : List Call) : List Entry :=
  calls.filterMap fun
    | .writeBlock e => some e
    | _ => none

/-- A block is read back as it was written, both its containers. -/
def ReadsBack (s : BlockLocalStrage) (e : Entry) : Prop :=
  (s.readBlock e.key).map Prod.fst = some (some e.blk) ∧ (s.readUndo e.key).map Prod.fst = some (some e.rev)

/-- The containers of the block still fit into the last pair of files. -/
def HasRoom (s : BlockLocalStrage) : Call → Prop
  | .writeBlock e => (s.blk s.lastIndex).actualDataSize + e.blk.length < maxBytes ∧
      (s.rev s.lastIndex).actualDataSize + e.rev.length < maxBytes
  | _ => True

/-- No call of the run has to roll over to the next pair of files. -/
def NoRollover (s : BlockLocalStrage) : List Call → Prop
  | [] => True
  | call :: calls => s.HasRoom call ∧ ∀ s', s.step call = some s' → s'.NoRollover calls

end BlockLocalStrage

namespace DataFile

/-- The bytes are in the file, at this offset. -/
def Holds (f : DataFile) (offset : Nat) (raw : List UInt8) : Prop :=
  ∃ before after, f.body = before ++ raw ++ after ∧ offset = 100 + before.length

theorem Holds.append {f : DataFile} {offset : Nat} {raw : List UInt8} (holds : f.Holds offset raw)
    (data : List UInt8) :
    Holds ⟨f.body ++ data⟩ offset raw := by
  obtain ⟨before, after, body, place⟩ := holds
  exact ⟨before, after ++ data, by simp [body], place⟩

theorem holds_end (f : DataFile) (data : List UInt8) : Holds ⟨f.body ++ data⟩ f.actualDataSize data :=
  ⟨f.body, [], by simp, rfl⟩

/-- Reading a part of the bytes. -/
theorem Holds.read {f : DataFile} {offset : Nat} {front back : List UInt8}
    (holds : f.Holds offset (front ++ back)) :
    f.read front.length offset = some front ∧ f.read back.length (offset + front.length) = some back := by
  obtain ⟨before, after, body, rfl⟩ := holds
  have size : f.body.length = before.length + front.length + back.length + after.length := by
    rw [body]; simp; omega
  constructor
  · rw [DataFile.read, if_pos ⟨by omega, by rw [actualDataSize]; omega⟩, body]
    simp
  · rw [DataFile.read, if_pos ⟨by omega, by rw [actualDataSize]; omega⟩, body]
    have skip : 100 + before.length + front.length - 100 = (before ++ front).length := by simp; omega
    rw [skip, show before ++ (front ++ back) ++ after = (before ++ front) ++
      (back ++ after) by simp, List.drop_left, List.take_left]

theorem Holds.readContainer {f : DataFile} {offset : Nat} {raw : List UInt8}
    (holds : f.Holds offset raw) (sized : Sized raw) :
    f.readContainer offset = some raw := by
  obtain ⟨long, size⟩ := sized
  obtain ⟨front, back, rfl, length⟩ : ∃ front back, raw = front ++ back ∧ front.length = 12 :=
    ⟨raw.take 12, raw.drop 12, by simp, by simp; omega⟩
  obtain ⟨readFront, readBack⟩ := holds.read
  have field : Bytes.ofLe ((front.drop 4).take 4) = (front ++ back).length := by
    rw [← size, List.drop_append_of_le_length (by omega), List.take_append_of_le_length (by simp; omega)]
  have rest : Bytes.ofLe ((front.drop 4).take 4) - 12 = back.length := by
    rw [field, List.length_append, length]; omega
  rw [length] at readFront readBack
  simp [DataFile.readContainer, readFront, rest, readBack]

end DataFile

namespace BlockLocalStrage

/-- The store while it has not rolled over: everything is in the first pair of files, and the
index says where. -/
structure Kept (s : BlockLocalStrage) (entries : List Entry) : Prop where
  lastIndex : s.lastIndex = 0
  managers : s.blkFileManager = none ∨ s.blkFileManager = some 0 ∧ s.revFileManager = some 0
  onlyWritten : ∀ key, s.index key ≠ none → ∃ e ∈ entries, e.key = key
  located : ∀ e ∈ entries, ∃ i j, s.index e.key = some ⟨0, UInt32.ofNat i, UInt32.ofNat j⟩ ∧
    i < maxBytes ∧ j < maxBytes ∧ (s.blk 0).Holds i e.blk ∧ (s.rev 0).Holds j e.rev

theorem kept_empty : Kept {} [] where
  lastIndex := rfl
  managers := Or.inl rfl
  onlyWritten := by simp
  located := by simp

theorem toNat_offset {i : Nat} (small : i < maxBytes) : (UInt32.ofNat i).toNat = i := by
  rw [UInt32.toNat_ofNat']
  exact Nat.mod_eq_of_lt (by rw [maxBytes] at small; omega)

variable {s : BlockLocalStrage} {entries : List Entry}

theorem Kept.readBlock_eq (kept : s.Kept entries) {e : Entry} (member : e ∈ entries) :
    ∃ s', s.readBlock e.key = some (some e.blk, s') ∧ s'.Kept entries := by
  obtain ⟨i, j, entry, smallI, -, holds, -⟩ := kept.located e member
  have raw := holds.readContainer e.sizedBlk
  by_cases cached : s.blkFileManager = some 0
  · exact ⟨s, by simp [readBlock, entry, cached, toNat_offset smallI, raw], kept⟩
  · refine ⟨{ s with blkFileManager := some 0, revFileManager := some 0 },
      by simp [readBlock, entry, cached, toNat_offset smallI, raw], ?_⟩
    exact ⟨kept.lastIndex, Or.inr ⟨rfl, rfl⟩, kept.onlyWritten, kept.located⟩

theorem Kept.readUndo_eq (kept : s.Kept entries) {e : Entry} (member : e ∈ entries) :
    ∃ s', s.readUndo e.key = some (some e.rev, s') ∧ s'.Kept entries := by
  obtain ⟨i, j, entry, -, smallJ, -, holds⟩ := kept.located e member
  have raw := holds.readContainer e.sizedRev
  by_cases cached : s.revFileManager = some 0
  · exact ⟨s, by simp [readUndo, entry, cached, toNat_offset smallJ, raw], kept⟩
  · refine ⟨{ s with revFileManager := some 0 },
      by simp [readUndo, entry, cached, toNat_offset smallJ, raw], ?_⟩
    refine ⟨kept.lastIndex, ?_, kept.onlyWritten, kept.located⟩
    exact kept.managers.imp_right fun both => ⟨both.1, rfl⟩

/-- A write that has room goes to the first pair of files. -/
theorem Kept.writeBlock_run (kept : s.Kept entries) {e : Entry} (room : s.HasRoom (.writeBlock e)) :
    s.writeBlock e = some { s with
      blk := Function.update s.blk 0 ⟨(s.blk 0).body ++ e.blk⟩
      rev := Function.update s.rev 0 ⟨(s.rev 0).body ++ e.rev⟩
      blkFileManager := some 0
      revFileManager := some 0
      index := Function.update s.index e.key
        (some ⟨0, UInt32.ofNat (s.blk 0).actualDataSize, UInt32.ofNat (s.rev 0).actualDataSize⟩) } := by
  obtain ⟨roomBlk, roomRev⟩ := room
  rw [kept.lastIndex] at roomBlk roomRev
  have writesBlk : (s.blk 0).write e.blk = (some (s.blk 0).actualDataSize, ⟨(s.blk 0).body ++ e.blk⟩) :=
    if_neg (by omega)
  have writesRev : (s.rev 0).write e.rev = (some (s.rev 0).actualDataSize, ⟨(s.rev 0).body ++ e.rev⟩) :=
    if_neg (by omega)
  rcases kept.managers with none | ⟨blk, rev⟩
  · simp [writeBlock, kept.lastIndex, none, writeBoth, writesBlk, writesRev, offsetField]
  · simp [writeBlock, kept.lastIndex, blk, rev, writeBoth, writesBlk, writesRev, offsetField]

/-- A write that has room keeps what was written before it. -/
theorem Kept.writeBlock_eq (kept : s.Kept entries) {e : Entry} (fresh : ∀ x ∈ entries, x.key ≠ e.key)
    (room : s.HasRoom (.writeBlock e)) : ∃ s', s.writeBlock e = some s' ∧ s'.Kept (entries ++ [e]) := by
  refine ⟨_, kept.writeBlock_run room, kept.lastIndex, Or.inr ⟨rfl, rfl⟩, fun key => ?_, fun x member => ?_⟩
  · by_cases same : key = e.key
    · exact fun _ => ⟨e, by simp, same.symm⟩
    · simp only [Function.update_of_ne same, List.mem_append]
      exact fun entry => (kept.onlyWritten key entry).imp fun x both => ⟨Or.inl both.1, both.2⟩
  · simp only [Function.update_self]
    rcases List.mem_append.mp member with old | new
    · obtain ⟨i, j, entry, smallI, smallJ, holdsBlk, holdsRev⟩ := kept.located x old
      exact ⟨i, j, by rw [Function.update_of_ne (fresh x old), entry], smallI, smallJ,
        holdsBlk.append _, holdsRev.append _⟩
    · obtain rfl := List.mem_singleton.mp new
      obtain ⟨roomBlk, roomRev⟩ := room
      rw [kept.lastIndex] at roomBlk roomRev
      exact ⟨_, _, Function.update_self .., by omega, by omega, DataFile.holds_end _ _, DataFile.holds_end _ _⟩

/-- A call that does not roll over leaves the store in order. -/
theorem Kept.step_eq (kept : s.Kept entries) {call : Call}
    (fresh : ∀ x ∈ entries, ∀ e ∈ written [call], x.key ≠ e.key) (room : s.HasRoom call) :
    ∃ s', s.step call = some s' ∧ s'.Kept (entries ++ written [call]) := by
  cases call with
  | writeBlock e => exact kept.writeBlock_eq (fun x member => fresh x member e (by simp [written])) room
  | readBlock key =>
    simp only [step, written, List.filterMap_cons_none, List.filterMap_nil, List.append_nil]
    by_cases entry : s.index key = none
    · exact ⟨s, by simp [readBlock, entry], kept⟩
    · obtain ⟨e, member, rfl⟩ := kept.onlyWritten key entry
      obtain ⟨s', run, kept'⟩ := kept.readBlock_eq member
      exact ⟨s', by simp [run], kept'⟩
  | readUndo key =>
    simp only [step, written, List.filterMap_cons_none, List.filterMap_nil, List.append_nil]
    by_cases entry : s.index key = none
    · exact ⟨s, by simp [readUndo, entry], kept⟩
    · obtain ⟨e, member, rfl⟩ := kept.onlyWritten key entry
      obtain ⟨s', run, kept'⟩ := kept.readUndo_eq member
      exact ⟨s', by simp [run], kept'⟩

theorem written_cons (call : Call) (calls : List Call) :
    written (call :: calls) = written [call] ++ written calls := by
  simp only [written]
  rw [← List.filterMap_append]
  rfl

theorem Kept.run_eq (kept : s.Kept entries) {calls : List Call}
    (distinct : ((entries ++ written calls).map Entry.key).Nodup) (room : s.NoRollover calls) :
    ∃ s', s.run calls = some s' ∧ s'.Kept (entries ++ written calls) := by
  induction calls generalizing s entries with
  | nil => exact ⟨s, rfl, by simpa [written] using kept⟩
  | cons call calls ih =>
    rw [written_cons, ← List.append_assoc] at distinct ⊢
    obtain ⟨here, later⟩ := room
    have apart : ∀ x ∈ entries, ∀ e ∈ written [call], x.key ≠ e.key := by
      rw [List.map_append, List.map_append] at distinct
      intro x old e new
      exact (List.nodup_append.mp (List.nodup_append.mp distinct).1).2.2 _ (List.mem_map_of_mem old) _
        (List.mem_map_of_mem new)
    obtain ⟨s₁, run, kept₁⟩ := kept.step_eq apart here
    obtain ⟨s', rest, kept'⟩ := ih kept₁ distinct (later s₁ run)
    exact ⟨s', by simp [BlockLocalStrage.run, run, rest], kept'⟩

/-- In a run that never rolls over, every block written so far is read back as written. -/
theorem readsBack_of_noRollover (calls : List Call) (distinct : ((written calls).map Entry.key).Nodup)
    (room : NoRollover {} calls) :
    ∃ s, run {} calls = some s ∧ ∀ e ∈ written calls, s.ReadsBack e := by
  obtain ⟨s, ran, kept⟩ := kept_empty.run_eq (by simpa using distinct) room
  refine ⟨s, ran, fun e member => ?_⟩
  obtain ⟨_, block, -⟩ := kept.readBlock_eq (e := e) (by simpa using member)
  obtain ⟨_, undo, -⟩ := kept.readUndo_eq (e := e) (by simpa using member)
  exact ⟨by simp [block], by simp [undo]⟩

/-- A container of `12 + n` bytes that starts with `b`. -/
def sampleRaw (b : UInt8) (n : Nat) : List UInt8 :=
  [b, 0, 0, 0] ++ Bytes.le 4 (12 + n) ++ Bytes.le 4 0 ++ List.replicate n 0

theorem length_sampleRaw (b : UInt8) (n : Nat) : (sampleRaw b n).length = 12 + n := by simp [sampleRaw]; omega

theorem sized_sampleRaw (b : UInt8) {n : Nat} (small : 100 + (12 + n) < maxBytes) : Sized (sampleRaw b n) := by
  refine ⟨by rw [length_sampleRaw]; omega, ?_⟩
  rw [length_sampleRaw]
  have field : ((sampleRaw b n).drop 4).take 4 = Bytes.le 4 (12 + n) := by simp [sampleRaw, Bytes.le]
  rw [field, Bytes.ofLe_le]
  exact Nat.mod_eq_of_lt (by rw [maxBytes] at small; omega)

/-- The block of key `b b b ..` with a container of `12 + n` bytes. -/
def sampleEntry (b : UInt8) (n : Nat) (small : 100 + (12 + n) < maxBytes) : Entry where
  key := List.Vector.replicate 20 b
  blk := sampleRaw b n
  rev := sampleRaw b 0
  sizedBlk := sized_sampleRaw b small
  sizedRev := sized_sampleRaw b (by decide)
  fitsBlk := by rw [length_sampleRaw]; exact small
  fitsRev := by rw [length_sampleRaw]; decide

theorem readsBack_of_noRollover_two :
    ∃ s, run {} [.writeBlock (sampleEntry 1 3 (by decide)), .readUndo (List.Vector.replicate 20 1),
        .writeBlock (sampleEntry 2 0 (by decide))] = some s ∧
      ∀ e ∈ [sampleEntry 1 3 (by decide), sampleEntry 2 0 (by decide)], s.ReadsBack e := by
  refine readsBack_of_noRollover [.writeBlock (sampleEntry 1 3 (by decide)),
    .readUndo (List.Vector.replicate 20 1),
        .writeBlock (sampleEntry 2 0 (by decide))] (by decide) ?_
  refine ⟨⟨by decide, by decide⟩, fun s₁ first => ⟨trivial, fun s₂ second => ⟨?_, fun _ _ => trivial⟩⟩⟩
  obtain rfl := Option.some.inj first
  obtain rfl := Option.some.inj second
  exact ⟨by decide, by decide⟩

/-- Two blocks that do not fit into one file: the second goes to the next pair of files, but its
index entry names the first. -/
theorem rollover_misreads {n : Nat} (small : 100 + (12 + n) < maxBytes)
    (large : maxBytes ≤ 100 + (12 + n) + (12 + n)) :
    ∃ s, run {} [.writeBlock (sampleEntry 1 n small), .writeBlock (sampleEntry 2 n small)] = some s ∧
      ¬s.ReadsBack (sampleEntry 2 n small) := by
  have limit : 200 < maxBytes := by decide
  have first : ∀ b, DataFile.write {} (sampleRaw b n) = (some 100, ⟨sampleRaw b n⟩) := fun b =>
    if_neg (by rw [length_sampleRaw, DataFile.actualDataSize, List.length_nil]; omega)
  have full : DataFile.write ⟨sampleRaw 1 n⟩ (sampleRaw 2 n) = (none, ⟨sampleRaw 1 n⟩) :=
    if_pos (by rw [DataFile.actualDataSize, length_sampleRaw, length_sampleRaw]; omega)
  have undo : ∀ b, DataFile.write {} (sampleRaw b 0) = (some 100, ⟨sampleRaw b 0⟩) := fun b =>
    if_neg (by rw [length_sampleRaw, DataFile.actualDataSize, List.length_nil]; omega)
  have undoNext : DataFile.write ⟨sampleRaw 1 0⟩
    (sampleRaw 2 0) = (some 112, ⟨sampleRaw 1 0 ++ sampleRaw 2 0⟩) := by
    rw [DataFile.write, if_neg (by rw [DataFile.actualDataSize, length_sampleRaw, length_sampleRaw]; omega),
      DataFile.actualDataSize, length_sampleRaw]
  refine ⟨_, by simp [run, step, writeBlock, writeBoth, sampleEntry, first, full, undo, undoNext]; rfl, fun back => ?_⟩
  have holds : DataFile.Holds ⟨sampleRaw 1 n⟩ 100 (sampleRaw 1 n) := ⟨[], [], by simp, rfl⟩
  have read := holds.readContainer (sized_sampleRaw 1 small)
  have found := back.1
  simp [readBlock, sampleEntry, offsetField, read] at found
  simp [sampleRaw] at found

/-- Two blocks of 64 MiB. -/
theorem readsBack_fails : ∃ s,
    run {} [.writeBlock (sampleEntry 1 (2 ^ 26) (by decide)),
      .writeBlock (sampleEntry 2 (2 ^ 26) (by decide))] = some s ∧
      ¬s.ReadsBack (sampleEntry 2 (2 ^ 26) (by decide)) :=
  rollover_misreads (by decide) (by decide)

end BlockLocalStrage

end MiyaCore.Chain
