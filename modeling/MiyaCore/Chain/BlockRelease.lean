import MiyaCore.Chain.BlockLocalStrage

/-!
# Releasing blocks

A block that is released goes out of the index, while its bytes stay in the files. By the hashes of the blocks
the store is a map.
-/

namespace MiyaCore.Chain
namespace BlockLocalStrage

/-- `BlockLocalStrage::releaseBlock`: what `readUndo` gives, and the index without the key. -/
def releaseBlock (s : BlockLocalStrage) (key : List.Vector UInt8 20) : Option (Buffer × BlockLocalStrage) := do
  let (utxoVector, s) ← s.readUndo key
  return (utxoVector, { s with index := Function.update s.index key none })

/-- A call on the store, or a release. -/
inductive Request where
  | call (call : Call)
  | releaseBlock (key : List.Vector UInt8 20)

/-- A request and the bytes it returns. -/
def serve (s : BlockLocalStrage) : Request → Option (Buffer × BlockLocalStrage)
  | .call (.writeBlock e) => (s.writeBlock e).map fun s => (none, s)
  | .call (.readBlock key) => s.readBlock key
  | .call (.readUndo key) => s.readUndo key
  | .releaseBlock key => s.releaseBlock key

def serveAll (s : BlockLocalStrage) : List Request → Option (List Buffer × BlockLocalStrage)
  | [] => some ([], s)
  | request :: rest => do
    let (buffer, s) ← s.serve request
    let (buffers, s) ← s.serveAll rest
    return (buffer :: buffers, s)

end BlockLocalStrage

/-- The blocks of a store by their keys. -/
abbrev Blocks := List.Vector UInt8 20 → Option Entry

namespace Blocks
open BlockLocalStrage

def serve (M : Blocks) : Request → Buffer × Blocks
  | .call (.writeBlock e) => (none, Function.update M e.key (some e))
  | .call (.readBlock key) => ((M key).map Entry.blk, M)
  | .call (.readUndo key) => ((M key).map Entry.rev, M)
  | .releaseBlock key => ((M key).map Entry.rev, Function.update M key none)

def serveAll (M : Blocks) : List Request → List Buffer × Blocks
  | [] => ([], M)
  | request :: rest => ((M.serve request).1 :: ((M.serve request).2.serveAll rest).1, ((M.serve request).2.serveAll rest).2)

/-- No block is written while one has its key. -/
def Fresh (M : Blocks) : List Request → Prop
  | [] => True
  | request :: rest => (∀ e, request = .call (.writeBlock e) → M e.key = none) ∧ (M.serve request).2.Fresh rest

end Blocks

namespace BlockLocalStrage

/-- The blocks that are written, released or not. -/
def writes : List Request → List Entry := List.filterMap fun
  | .call (.writeBlock e) => some e
  | _ => none

/-- The store keeps just the blocks of the map. -/
def Shows (s : BlockLocalStrage) (M : Blocks) : Prop :=
  ∃ entries, s.Kept entries ∧ ∀ key, M key = entries.find? fun e => e.key = key

variable {s s' : BlockLocalStrage} {M : Blocks} {key : List.Vector UInt8 20}

theorem Shows.index_eq_none (shows : s.Shows M) (missing : M key = none) : s.index key = none := by
  obtain ⟨entries, kept, same⟩ := shows
  by_contra there
  obtain ⟨e, member, rfl⟩ := kept.onlyWritten key there
  rw [same, List.find?_eq_none] at missing
  exact missing e member (by simp)

theorem Shows.kept_of_found (shows : s.Shows M) {e : Entry} (found : M key = some e) :
    e.key = key ∧ ∃ entries, s.Kept entries ∧ e ∈ entries ∧
      ∀ key, M key = entries.find? fun e => e.key = key := by
  obtain ⟨entries, kept, same⟩ := shows
  have first := (same key).symm.trans found
  exact ⟨by simpa using List.find?_some first, entries, kept, List.mem_of_find?_eq_some first, same⟩

theorem Shows.readBlock (shows : s.Shows M) (key : List.Vector UInt8 20) :
    ∃ s', s.readBlock key = some ((M key).map Entry.blk, s') ∧ s'.Shows M := by
  cases found : M key with
  | none => exact ⟨s, by simp [BlockLocalStrage.readBlock, shows.index_eq_none found], shows⟩
  | some e =>
    obtain ⟨rfl, entries, kept, member, same⟩ := shows.kept_of_found found
    obtain ⟨s', run, kept'⟩ := kept.readBlock_eq member
    exact ⟨s', run, entries, kept', same⟩

theorem Shows.readUndo (shows : s.Shows M) (key : List.Vector UInt8 20) :
    ∃ s', s.readUndo key = some ((M key).map Entry.rev, s') ∧ s'.Shows M := by
  cases found : M key with
  | none => exact ⟨s, by simp [BlockLocalStrage.readUndo, shows.index_eq_none found], shows⟩
  | some e =>
    obtain ⟨rfl, entries, kept, member, same⟩ := shows.kept_of_found found
    obtain ⟨s', run, kept'⟩ := kept.readUndo_eq member
    exact ⟨s', run, entries, kept', same⟩

/-- A release takes the key out of the map. -/
theorem Shows.release (shows : s.Shows M) :
    ({ s with index := Function.update s.index key none } : BlockLocalStrage).Shows (Function.update M key none) := by
  obtain ⟨entries, kept, same⟩ := shows
  refine ⟨entries.filter fun e => e.key ≠ key, ⟨kept.lastIndex, kept.managers, fun k there => ?_,
    fun e member => ?_⟩, fun k => ?_⟩
  · dsimp only at there
    by_cases released : k = key
    · simp [released] at there
    · rw [Function.update_of_ne released] at there
      obtain ⟨e, member, rfl⟩ := kept.onlyWritten k there
      exact ⟨e, by simpa [member] using released, rfl⟩
  · obtain ⟨old, apart⟩ := List.mem_filter.mp member
    obtain ⟨i, j, entry, rest⟩ := kept.located e old
    refine ⟨i, j, ?_, rest⟩
    dsimp only
    rw [Function.update_of_ne (by simpa using apart), entry]
  · rw [List.find?_filter]
    by_cases released : k = key
    · subst released
      rw [Function.update_self, eq_comm, List.find?_eq_none]
      simp
    · rw [Function.update_of_ne released, same]
      refine congrArg (List.find? · entries) (funext fun e => ?_)
      by_cases hit : e.key = k <;> simp [hit, released]

/-- A write with room puts the block into the map. -/
theorem Shows.write (shows : s.Shows M) {e : Entry} (fresh : M e.key = none) (room : s.HasRoom (.writeBlock e)) :
    ∃ s', s.writeBlock e = some s' ∧ s'.Shows (Function.update M e.key (some e)) := by
  obtain ⟨entries, kept, same⟩ := shows
  rw [same, List.find?_eq_none] at fresh
  obtain ⟨s', run, kept'⟩ := kept.writeBlock_eq (fun x member => by simpa using fresh x member) room
  refine ⟨s', run, entries ++ [e], kept', fun k => ?_⟩
  rw [List.find?_append]
  by_cases here : k = e.key
  · subst here
    rw [Function.update_self, List.find?_eq_none.mpr fresh]
    simp
  · rw [Function.update_of_ne here, same, List.find?_singleton, if_neg (by simpa using Ne.symm here), Option.or_none]

/-- The sizes of the files of the first pair, and of what is to be written there. -/
def Room (s : BlockLocalStrage) (requests : List Request) : Prop :=
  (s.blk 0).actualDataSize + ((writes requests).map fun e => e.blk.length).sum < maxBytes ∧
    (s.rev 0).actualDataSize + ((writes requests).map fun e => e.rev.length).sum < maxBytes

instance (s : BlockLocalStrage) (requests : List Request) : Decidable (s.Room requests) :=
  inferInstanceAs (Decidable (_ ∧ _))

theorem files_readUndo {buffer : Buffer} (run : s.readUndo key = some (buffer, s')) :
    s'.blk = s.blk ∧ s'.rev = s.rev := by
  unfold readUndo at run
  cases entry : s.index key with
  | none =>
    rw [entry] at run
    cases run
    exact ⟨rfl, rfl⟩
  | some blockIndex =>
    rw [entry] at run
    obtain ⟨raw, -, done⟩ := Option.bind_eq_some_iff.mp run
    cases done
    split_ifs <;> exact ⟨rfl, rfl⟩

theorem files_readBlock {buffer : Buffer} (run : s.readBlock key = some (buffer, s')) :
    s'.blk = s.blk ∧ s'.rev = s.rev := by
  unfold readBlock at run
  cases entry : s.index key with
  | none =>
    rw [entry] at run
    cases run
    exact ⟨rfl, rfl⟩
  | some blockIndex =>
    rw [entry] at run
    obtain ⟨raw, -, done⟩ := Option.bind_eq_some_iff.mp run
    cases done
    split_ifs <;> exact ⟨rfl, rfl⟩

/-- A write with room makes the files of the first pair longer by its containers. -/
theorem Shows.sizes_write (shows : s.Shows M) {e : Entry} (room : s.HasRoom (.writeBlock e))
    (run : s.writeBlock e = some s') :
    (s'.blk 0).actualDataSize = (s.blk 0).actualDataSize + e.blk.length ∧
      (s'.rev 0).actualDataSize = (s.rev 0).actualDataSize + e.rev.length := by
  obtain ⟨entries, kept, -⟩ := shows
  rw [kept.writeBlock_run room, Option.some.injEq] at run
  rw [← run]
  simp [DataFile.actualDataSize, Nat.add_assoc]

/-- The store serves a request as the map does, and what is left to be written still has room. -/
theorem Shows.serve (shows : s.Shows M) {request : Request} {rest : List Request}
    (fresh : ∀ e, request = .call (.writeBlock e) → M e.key = none) (room : s.Room (request :: rest)) :
    ∃ s', s.serve request = some ((M.serve request).1, s') ∧ s'.Shows (M.serve request).2 ∧ s'.Room rest := by
  cases request with
  | call call =>
    cases call with
    | writeBlock e =>
      obtain ⟨roomBlk, roomRev⟩ := room
      have cut : writes (.call (.writeBlock e) :: rest) = e :: writes rest := rfl
      rw [cut, List.map_cons, List.sum_cons] at roomBlk roomRev
      have first : s.lastIndex = 0 := shows.choose_spec.1.lastIndex
      have here : s.HasRoom (.writeBlock e) := by
        unfold HasRoom
        rw [first]
        omega
      obtain ⟨s', run, shows'⟩ := shows.write (fresh e rfl) here
      obtain ⟨blk, rev⟩ := shows.sizes_write here run
      refine ⟨s', by rw [BlockLocalStrage.serve, run]; rfl, shows', ?_, ?_⟩
      · rw [blk]
        omega
      · rw [rev]
        omega
    | readBlock key =>
      obtain ⟨s', run, shows'⟩ := shows.readBlock key
      obtain ⟨blk, rev⟩ := files_readBlock run
      exact ⟨s', run, shows', by unfold Room; rw [blk, rev]; exact room⟩
    | readUndo key =>
      obtain ⟨s', run, shows'⟩ := shows.readUndo key
      obtain ⟨blk, rev⟩ := files_readUndo run
      exact ⟨s', run, shows', by unfold Room; rw [blk, rev]; exact room⟩
  | releaseBlock key =>
    obtain ⟨s', run, shows'⟩ := shows.readUndo key
    obtain ⟨blk, rev⟩ := files_readUndo run
    refine ⟨_, ?_, shows'.release, by unfold Room; dsimp only; rw [blk, rev]; exact room⟩
    rw [BlockLocalStrage.serve, releaseBlock, run]
    rfl

theorem Shows.serveAll {requests : List Request} (shows : s.Shows M) (fresh : M.Fresh requests)
    (room : s.Room requests) :
    ∃ s', s.serveAll requests = some ((M.serveAll requests).1, s') ∧ s'.Shows (M.serveAll requests).2 := by
  induction requests generalizing s M with
  | nil => exact ⟨s, rfl, shows⟩
  | cons request rest ih =>
    obtain ⟨s₁, first, shows₁, room₁⟩ := shows.serve fresh.1 room
    obtain ⟨s', others, shows'⟩ := ih shows₁ fresh.2 room₁
    refine ⟨s', ?_, shows'⟩
    rw [BlockLocalStrage.serveAll, first]
    simp only [Option.bind_eq_bind, Option.bind_some, others]
    rfl

/-- The bytes of a block's two exported containers are what is written for it, if each fits into a file. -/
def Writable (c : Crypto PKey) (x : BlockContainer PKey) (undo : UndoContainer)
    (bson : List (TxOut × List UInt8 × Nat) → List UInt8) : Prop :=
  ∀ raw after, x.exportRawFormated c = some (raw, after) → 100 + raw.length < maxBytes →
    100 + (undo.exportRawFormated bson).length < maxBytes →
    ∀ key, ∃ e : Entry, e.key = key ∧ e.blk = raw ∧ e.rev = undo.exportRawFormated bson

/-- While all that is ever written fits into the first pair of files and no block is written under a key that is
taken, the store is a map: writes, reads and releases in any order return what the map returns. What is written may
be the containers of any block. -/
theorem serveAll_refines (c : Crypto PKey) (requests : List Request) (fresh : Blocks.Fresh (fun _ => none) requests)
    (room : Room {} requests) :
    (∃ s, serveAll {} requests = some ((Blocks.serveAll (fun _ => none) requests).1, s) ∧
      ∀ key, (s.readBlock key).map Prod.fst = some (((Blocks.serveAll (fun _ => none) requests).2 key).map Entry.blk) ∧
        (s.readUndo key).map Prod.fst = some (((Blocks.serveAll (fun _ => none) requests).2 key).map Entry.rev)) ∧
    ∀ (x : BlockContainer PKey) undo bson, Writable c x undo bson := by
  refine ⟨?_, fun x undo bson raw after exported fits fitsUndo key => exists_entry key bson exported fits fitsUndo⟩
  have start : Shows {} fun _ => none := ⟨[], kept_empty, fun _ => rfl⟩
  obtain ⟨s, run, shows⟩ := start.serveAll fresh room
  refine ⟨s, run, fun key => ?_⟩
  obtain ⟨_, block, -⟩ := shows.readBlock key
  obtain ⟨_, undo, -⟩ := shows.readUndo key
  rw [block, undo]
  exact ⟨rfl, rfl⟩

/-- A block that is released, and written once more. -/
theorem serveAll_refines_twice :
    ∃ s, serveAll {} [.call (.writeBlock (sampleEntry 1 3 (by decide))), .releaseBlock (List.Vector.replicate 20 1),
        .call (.readBlock (List.Vector.replicate 20 1)), .call (.writeBlock (sampleEntry 1 5 (by decide)))] =
        some ([none, some (sampleRaw 1 0), none, none], s) ∧
      (s.readBlock (List.Vector.replicate 20 1)).map Prod.fst = some (some (sampleRaw 1 5)) := by
  obtain ⟨⟨s, run, reads⟩, -⟩ := serveAll_refines (Block.sample true)
    [.call (.writeBlock (sampleEntry 1 3 (by decide))), .releaseBlock (List.Vector.replicate 20 1),
      .call (.readBlock (List.Vector.replicate 20 1)), .call (.writeBlock (sampleEntry 1 5 (by decide)))]
    (by simp [Blocks.Fresh, Blocks.serve, sampleEntry]) (by decide)
  refine ⟨s, run, ?_⟩
  rw [(reads (List.Vector.replicate 20 1)).1]
  simp [Blocks.serveAll, Blocks.serve, sampleEntry]

end BlockLocalStrage

end MiyaCore.Chain
