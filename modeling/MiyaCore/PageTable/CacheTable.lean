import Mathlib.Logic.Function.Basic
import Mathlib.Data.Fin.Basic
import MiyaCore.FlatMemory
import MiyaCore.PageTable.OverlayPtr

/-!
# The page cache

Bytes of the file are reached through a few mapped frames. A mapping is a window onto the file:
what is written through it is what the file holds, and what a later mapping of the frame shows.
-/

namespace MiyaCore

abbrev CACHE_BLOCK_COUNT : Nat := 3

/-- A slot of the cache. -/
abbrev CacheIndex := Fin CACHE_BLOCK_COUNT

instance CacheIndex.neZero : NeZero CACHE_BLOCK_COUNT := ⟨by decide⟩

/-- `DEFAULT_FRAME_CACHE_SIZE`. -/
def frameSize : Nat := 2 ^ 16

/-- `optr::frame`, an unsigned short. -/
def optrFrame (a : Nat) : Nat := (addrByte a 0 * 2 ^ 16 + addrByte a 1 * 2 ^ 8 + addrByte a 2) % 2 ^ 16

/-- `optr::offset`. -/
def optrOffset (a : Nat) : Nat := (addrByte a 3 * 2 ^ 8 + addrByte a 4) % 2 ^ 16

/-- The file behind the descriptor. -/
structure MappedFile where
  size : Nat
  bytes : Nat → UInt8

namespace MappedFile

/-- `ftruncate`: what lies past the old end is zero. -/
def extend (f : MappedFile) (n : Nat) : MappedFile where
  size := n
  bytes a := if a < f.size then f.bytes a else 0

/-- `Mapper::map`: the mapping of a frame, null when the frame does not start on a page of the system. -/
def map (pageSize : Nat) (f : MappedFile) (frame : Nat) : MappedFile × Option Nat :=
  let f := if (frame + 1) * frameSize > f.size then f.extend ((frame + 1) * frameSize) else f
  if frame * frameSize % pageSize ≠ 0 then (f, none) else (f, some frame)

/-- Reading through a mapping, which must lie inside the file. -/
def load (f : MappedFile) (mapped : Option Nat) (offset : Nat) : Option UInt8 := do
  let frame ← mapped
  if frame * frameSize + offset < f.size then some (f.bytes (frame * frameSize + offset)) else none

def store (f : MappedFile) (mapped : Option Nat) (offset : Nat) (v : UInt8) : Option MappedFile := do
  let frame ← mapped
  if frame * frameSize + offset < f.size then
    some { f with bytes := Function.update f.bytes (frame * frameSize + offset) v }
  else none

end MappedFile

/-- `LRU`. -/
structure LRU where
  invalidCacheList : CacheIndex → Bool := fun _ => false
  referencePtr : CacheIndex := 0

namespace LRU

def incrementReferencePtr (l : LRU) : LRU where
  invalidCacheList := Function.update l.invalidCacheList l.referencePtr false
  referencePtr := Fin.ofNat CACHE_BLOCK_COUNT (l.referencePtr + 1)

def reference (l : LRU) (idx : CacheIndex) : LRU :=
  { l with invalidCacheList := Function.update l.invalidCacheList idx true }

/-- The loop of `targetOutPage`. It compares the counter itself, not its remainder, with the slot
before the reference pointer. -/
def targetOutPageFrom (l : LRU) : Nat → Nat → Option CacheIndex
  | 0, _ => none
  | n + 1, i =>
    if l.invalidCacheList (Fin.ofNat CACHE_BLOCK_COUNT i) = false then some (Fin.ofNat CACHE_BLOCK_COUNT i)
    else if i + 1 ≠ (l.referencePtr + CACHE_BLOCK_COUNT - 1) % CACHE_BLOCK_COUNT
      then targetOutPageFrom l n (i + 1)
    else some l.referencePtr

def targetOutPage (fuel : Nat) (l : LRU) : Option CacheIndex := l.targetOutPageFrom fuel l.referencePtr

end LRU

/-- `CacheTable`, with the file that its mapper maps. A null mapping is `none`. -/
structure CacheTable where
  cacheingList : CacheIndex → Int := fun _ => -1
  mappingList : CacheIndex → Option Nat := fun _ => none
  lru : LRU := {}
  file : MappedFile

namespace CacheTable

/-- `cacheFind`; no value stands for `-1`. -/
def cacheFind (t : CacheTable) (frame : Nat) : Option CacheIndex :=
  (List.finRange CACHE_BLOCK_COUNT).find? fun i => t.cacheingList i = frame

def pageOut (t : CacheTable) (outIdx : CacheIndex) : CacheTable :=
  { t with
    mappingList := Function.update t.mappingList outIdx none
    cacheingList := Function.update t.cacheingList outIdx (-1)
    lru := { t.lru with invalidCacheList := Function.update t.lru.invalidCacheList outIdx false } }

/-- `pageIn`. The frame is kept as a short. -/
def pageIn (pageSize : Nat) (t : CacheTable) (outIdx : CacheIndex) (inFrame : Nat) : CacheTable :=
  let (file, mapped) := t.file.map pageSize inFrame
  { t with
    file
    mappingList := Function.update t.mappingList outIdx mapped
    cacheingList := Function.update t.cacheingList outIdx ((inFrame : Int).bmod (2 ^ 16))
    lru := { t.lru with invalidCacheList := Function.update t.lru.invalidCacheList outIdx true } }

def pageFault (pageSize fuel : Nat) (t : CacheTable) (frame : Nat) : Option (CacheIndex × CacheTable) := do
  let outPageIdx ← t.lru.targetOutPage fuel
  return (outPageIdx, (t.pageOut outPageIdx).pageIn pageSize outPageIdx frame)

/-- `convert`: the mapping and the offset in it. -/
def convert (pageSize fuel : Nat) (t : CacheTable) (src : Nat) : Option (Option Nat × Nat × CacheTable) := do
  let frame := optrFrame src
  let (idx, t) ← match t.cacheFind frame with
    | some idx => some (idx, t)
    | none => t.pageFault pageSize fuel frame
  return (t.mappingList idx, optrOffset src, { t with lru := (t.lru.reference idx).incrementReferencePtr })

/-- `optr::value`, the getter. -/
def value (pageSize fuel : Nat) (t : CacheTable) (a : Nat) : Option (UInt8 × CacheTable) := do
  let (mapped, offset, t) ← t.convert pageSize fuel a
  return (← t.file.load mapped offset, t)

/-- `optr::value`, the setter. -/
def setValue (pageSize fuel : Nat) (t : CacheTable) (a : Nat) (target : UInt8) : Option CacheTable := do
  let (mapped, offset, t) ← t.convert pageSize fuel a
  return { t with file := ← t.file.store mapped offset target }

/-- `omemcpy` between two overlay pointers; `i` counts up to `n`. -/
def omemcpy (pageSize fuel dest src : Nat) : (n i : Nat) → CacheTable → Option CacheTable
  | 0, _, t => some t
  | n + 1, i, t => do
    let (v, t) ← t.value pageSize fuel (optrAdd src i)
    let t ← t.setValue pageSize fuel (optrAdd dest i) v
    omemcpy pageSize fuel dest src n (i + 1) t

/-- `omemcpy` from memory. -/
def omemcpyIn (pageSize fuel dest : Nat) : (src : List UInt8) → (i : Nat) → CacheTable → Option CacheTable
  | [], _, t => some t
  | v :: src, i, t => do
    let t ← t.setValue pageSize fuel (optrAdd dest i) v
    omemcpyIn pageSize fuel dest src (i + 1) t

/-- `omemcpy` into memory. -/
def omemcpyOut (pageSize fuel src : Nat) : (n i : Nat) → CacheTable → Option (List UInt8 × CacheTable)
  | 0, _, t => some ([], t)
  | n + 1, i, t => do
    let (v, t) ← t.value pageSize fuel (optrAdd src i)
    let (rest, t) ← omemcpyOut pageSize fuel src n (i + 1) t
    return (v :: rest, t)

end CacheTable

/-- The calls that reach the file through the cache. The overloads of `omemcpy` for plain and for
shared pointers have the same bodies. -/
inductive Access where
  | read (a : Nat)
  | write (a : Nat) (v : UInt8)
  | copy (dest src n : Nat)
  | copyIn (dest : Nat) (src : List UInt8)
  | copyOut (src n : Nat)

/-- The bytes that the access hands out, and the table after it. -/
def CacheTable.access (pageSize fuel : Nat) (t : CacheTable) : Access → Option (List UInt8 × CacheTable)
  | .read a => do
    let (v, t) ← t.value pageSize fuel a
    return ([v], t)
  | .write a v => return ([], ← t.setValue pageSize fuel a v)
  | .copy dest src n => return ([], ← omemcpy pageSize fuel dest src n 0 t)
  | .copyIn dest src => return ([], ← omemcpyIn pageSize fuel dest src 0 t)
  | .copyOut src n => omemcpyOut pageSize fuel src n 0 t

def CacheTable.run (pageSize fuel : Nat) : CacheTable → List Access → Option (List (List UInt8) × CacheTable)
  | t, [] => some ([], t)
  | t, c :: accesses => do
    let (bytes, t) ← t.access pageSize fuel c
    let (rest, t) ← t.run pageSize fuel accesses
    return (bytes :: rest, t)

section Flat

/-- What the file would be as one byte array. -/
abbrev Memory := Nat → UInt8

/-- The access on a flat byte array. Copies go byte by byte, from the lowest address. -/
def Memory.access (m : Memory) : Access → List UInt8 × Memory
  | .read a => ([m a], m)
  | .write a v => ([], Function.update m a v)
  | .copy dest src n => ([], (List.range' 0 n).foldl (fun m i => Function.update m (dest + i) (m (src + i))) m)
  | .copyIn dest src => ([], (src.zipIdx 0).foldl (fun m entry => Function.update m (dest + entry.2) entry.1) m)
  | .copyOut src n => ((List.range' 0 n).map fun i => m (src + i), m)

def Memory.run : Memory → List Access → List (List UInt8) × Memory
  | m, [] => ([], m)
  | m, c :: accesses =>
    let (bytes, m) := m.access c
    let (rest, m) := Memory.run m accesses
    (bytes :: rest, m)

/-- The addresses that an access touches. -/
def Access.Below (limit : Nat) : Access → Prop
  | .read a | .write a _ => a < limit
  | .copy dest src n => ∀ i < n, dest + i < limit ∧ src + i < limit
  | .copyIn dest src => ∀ i < src.length, dest + i < limit
  | .copyOut src n => ∀ i < n, src + i < limit

instance decidableBelow (limit : Nat) : DecidablePred (Access.Below limit)
  | .read a | .write a _ => inferInstanceAs (Decidable (a < limit))
  | .copy dest src n => inferInstanceAs (Decidable (∀ i < n, dest + i < limit ∧ src + i < limit))
  | .copyIn dest src => inferInstanceAs (Decidable (∀ i < src.length, dest + i < limit))
  | .copyOut src n => inferInstanceAs (Decidable (∀ i < n, src + i < limit))

/-- The bytes of the file, 0 past its end. -/
def MappedFile.content (f : MappedFile) : Memory := fun a => if a < f.size then f.bytes a else 0

end Flat

section Addresses

variable {a : Nat}

theorem optrFrame_of_lt (low : a < 2 ^ 32) : optrFrame a = a / 2 ^ 16 := by
  simp only [optrFrame, addrByte, Nat.mul_zero, Nat.sub_zero, Nat.mul_one, Nat.reduceSub, Nat.reduceMul]
  omega

theorem optrOffset_eq (a : Nat) : optrOffset a = a % 2 ^ 16 := by
  simp only [optrOffset, addrByte, Nat.reduceMul, Nat.reduceSub, pow_zero, Nat.div_one]
  omega

end Addresses

namespace MappedFile

variable {f : MappedFile}

theorem content_extend {n : Nat} (grows : f.size ≤ n) : (f.extend n).content = f.content := by
  funext a
  by_cases old : a < f.size
  · simp [content, extend, old, old.trans_le grows]
  · simp [content, extend, old]

/-- Mapping a frame makes the file cover it, and changes no byte. -/
theorem map_run {pageSize : Nat} (aligned : pageSize ∣ frameSize) (f : MappedFile) (frame : Nat) :
    ∃ f', f.map pageSize frame = (f', some frame) ∧ f'.content = f.content ∧ f.size ≤ f'.size ∧
      (frame + 1) * frameSize ≤ f'.size := by
  have start : frame * frameSize % pageSize = 0 := Nat.mod_eq_zero_of_dvd (aligned.mul_left frame)
  by_cases short : (frame + 1) * frameSize > f.size
  · refine ⟨f.extend ((frame + 1) * frameSize),
      by simp [map, start, short], content_extend short.le, short.le, le_rfl⟩
  · exact ⟨f, by simp [map, start, short], rfl, le_rfl, Nat.not_lt.mp short⟩

theorem load_of_lt {frame offset : Nat} (inside : frame * frameSize + offset < f.size) :
    f.load (some frame) offset = some (f.content (frame * frameSize + offset)) := by
  rw [load, Option.bind_eq_bind, Option.bind_some, if_pos inside, content, if_pos inside]

theorem store_of_lt {frame offset : Nat} {v : UInt8} (inside : frame * frameSize + offset < f.size) :
    ∃ f', f.store (some frame) offset v = some f' ∧ f'.size = f.size ∧
      f'.content = Function.update f.content (frame * frameSize + offset) v := by
  refine ⟨{ f with bytes := Function.update f.bytes (frame * frameSize + offset) v }, ?_, rfl, ?_⟩
  · rw [store, Option.bind_eq_bind, Option.bind_some, if_pos inside]
  · funext a
    by_cases here : a = frame * frameSize + offset
    · rw [here, content, if_pos inside, Function.update_self]
      dsimp only
      rw [Function.update_self]
    · simp only [content, Function.update_of_ne here]

end MappedFile

namespace LRU

/-- The slot before the reference pointer is not marked as referenced. -/
def Spare (l : LRU) : Prop := l.invalidCacheList (l.referencePtr - 1) = false

theorem spare_increment (l : LRU) : l.incrementReferencePtr.Spare := by
  have back : Fin.ofNat CACHE_BLOCK_COUNT (l.referencePtr + 1) - 1 = l.referencePtr := by
    generalize l.referencePtr = r
    revert r
    decide
  simp only [Spare, incrementReferencePtr, back, Function.update_self]

/-- The search stops at the latest at the slot before the reference pointer. -/
theorem targetOutPage_run {l : LRU} (spare : l.Spare) {fuel : Nat} (enough : CACHE_BLOCK_COUNT ≤ fuel) :
    ∃ idx, l.targetOutPage fuel = some idx := by
  obtain ⟨n, rfl⟩ : ∃ n, fuel = n + 3 := ⟨fuel - 3, by simp only [CACHE_BLOCK_COUNT] at enough; omega⟩
  have last : Fin.ofNat CACHE_BLOCK_COUNT (l.referencePtr + 1 + 1) = l.referencePtr - 1 := by
    generalize l.referencePtr = r
    revert r
    decide
  have found : l.invalidCacheList (Fin.ofNat CACHE_BLOCK_COUNT (l.referencePtr + 1 + 1)) = false := last ▸ spare
  simp only [targetOutPage, targetOutPageFrom, found, if_true]
  split_ifs <;> exact ⟨_, rfl⟩

end LRU

namespace CacheTable

/-- The table shows the memory `m`: every cached frame is mapped at its slot, and lies inside the file. -/
structure Shows (t : CacheTable) (m : Memory) : Prop where
  content : t.file.content = m
  mapped : ∀ (i : CacheIndex) (frame : Nat), t.cacheingList i = frame →
    t.mappingList i = some frame ∧ (frame + 1) * frameSize ≤ t.file.size
  spare : t.lru.Spare

theorem shows_fresh (f : MappedFile) : ({ file := f } : CacheTable).Shows f.content where
  content := rfl
  mapped i frame cached := by
    have absent : (-1 : Int) = frame := cached
    omega
  spare := rfl

variable {t : CacheTable} {m : Memory} {pageSize fuel a : Nat}

/-- A frame takes the place of another one in a slot. -/
theorem pageIn_eq {frame : Nat} {f' : MappedFile} {mapped : Option Nat}
    (mapping : t.file.map pageSize frame = (f', mapped)) (idx : CacheIndex) :
    (t.pageOut idx).pageIn pageSize idx frame =
      { file := f'
        mappingList := Function.update t.mappingList idx mapped
        cacheingList := Function.update t.cacheingList idx ((frame : Int).bmod (2 ^ 16))
        lru := { t.lru with invalidCacheList := Function.update t.lru.invalidCacheList idx true } } := by
  have file : (t.pageOut idx).file = t.file := rfl
  rw [pageIn, file, mapping]
  dsimp only [pageOut]
  rw [Function.update_idem, Function.update_idem, Function.update_idem]

theorem pageFault_run (shows : t.Shows m) (aligned : pageSize ∣ frameSize) (enough : CACHE_BLOCK_COUNT ≤ fuel)
    {frame : Nat} (low : frame < 2 ^ 16) :
    ∃ idx t', t.pageFault pageSize fuel frame = some (idx, t') ∧ t'.file.content = m ∧
      t'.mappingList idx = some frame ∧ (frame + 1) * frameSize ≤ t'.file.size ∧
      ∀ (i : CacheIndex) (inFrame : Nat), t'.cacheingList i = inFrame →
        t'.mappingList i = some inFrame ∧ (inFrame + 1) * frameSize ≤ t'.file.size := by
  obtain ⟨idx, victim⟩ := LRU.targetOutPage_run shows.spare enough
  obtain ⟨f', mapping, same, grows, covers⟩ := t.file.map_run aligned frame
  refine ⟨idx, (t.pageOut idx).pageIn pageSize idx frame, by rw [pageFault, victim]; rfl, ?_⟩
  rw [pageIn_eq mapping]
  refine ⟨same.trans shows.content, Function.update_self .., covers, ?_⟩
  dsimp only
  intro i inFrame holds
  by_cases here : i = idx
  · subst here
    rw [Function.update_self] at holds ⊢
    -- a frame from 2^15 on is kept as a negative short, under which it is never found
    obtain rfl : frame = inFrame := by
      rw [Int.bmod_def] at holds
      split_ifs at holds <;> omega
    exact ⟨rfl, covers⟩
  · rw [Function.update_of_ne here] at holds ⊢
    obtain ⟨atSlot, inside⟩ := shows.mapped i inFrame holds
    exact ⟨atSlot, inside.trans grows⟩

/-- `convert` leads to the byte, whether or not its frame was cached. -/
theorem convert_run (shows : t.Shows m) (aligned : pageSize ∣ frameSize) (enough : CACHE_BLOCK_COUNT ≤ fuel)
    (low : a < 2 ^ 32) :
    ∃ t', t.convert pageSize fuel a = some (some (a / frameSize), a % frameSize, t') ∧ t'.Shows m ∧
      a / frameSize * frameSize + a % frameSize < t'.file.size := by
  have atFrame : optrFrame a = a / frameSize := optrFrame_of_lt low
  have atOffset : optrOffset a = a % frameSize := optrOffset_eq a
  have within : ∀ size, (a / frameSize + 1) * frameSize ≤ size →
    a / frameSize * frameSize + a % frameSize < size := by
    intro size covers
    have remainder : a % frameSize < frameSize := Nat.mod_lt _ (by decide)
    rw [Nat.add_one_mul] at covers
    omega
  cases find : t.cacheFind (a / frameSize) with
  | some idx =>
    have cached : t.cacheingList idx = ((a / frameSize : Nat) : Int) := by simpa using List.find?_some find
    obtain ⟨atSlot, covers⟩ := shows.mapped idx _ cached
    refine ⟨{ t with lru := (t.lru.reference idx).incrementReferencePtr }, ?_,
      ⟨shows.content, shows.mapped, LRU.spare_increment _⟩, within _ covers⟩
    simp [convert, atFrame, atOffset, find, atSlot]
  | none =>
    obtain ⟨idx, t₁, fault, content, atSlot, covers, mapped⟩ := pageFault_run shows aligned enough
      (show a / frameSize < 2 ^ 16 by simp only [frameSize]; omega)
    refine ⟨{ t₁ with lru := (t₁.lru.reference idx).incrementReferencePtr }, ?_,
      ⟨content, mapped, LRU.spare_increment _⟩, within _ covers⟩
    simp [convert, atFrame, atOffset, find, fault, atSlot]

theorem value_run (shows : t.Shows m) (aligned : pageSize ∣ frameSize) (enough : CACHE_BLOCK_COUNT ≤ fuel)
    (low : a < 2 ^ 32) : ∃ t', t.value pageSize fuel a = some (m a, t') ∧ t'.Shows m := by
  obtain ⟨t', run, shows', inside⟩ := convert_run shows aligned enough low
  have address : a / frameSize * frameSize + a % frameSize = a := Nat.div_add_mod' a frameSize
  refine ⟨t', ?_, shows'⟩
  rw [value, run, Option.bind_eq_bind, Option.bind_some]
  dsimp only
  rw [MappedFile.load_of_lt inside, address, shows'.content]
  rfl

theorem setValue_run (shows : t.Shows m) (aligned : pageSize ∣ frameSize) (enough : CACHE_BLOCK_COUNT ≤ fuel)
    (low : a < 2 ^ 32) (v : UInt8) :
    ∃ t', t.setValue pageSize fuel a v = some t' ∧ t'.Shows (Function.update m a v) := by
  obtain ⟨t', run, shows', inside⟩ := convert_run shows aligned enough low
  have address : a / frameSize * frameSize + a % frameSize = a := Nat.div_add_mod' a frameSize
  obtain ⟨f', stored, size, content⟩ := MappedFile.store_of_lt (v := v) inside
  refine ⟨{ t' with file := f' }, ?_, ?_, ?_, shows'.spare⟩
  · rw [setValue, run, Option.bind_eq_bind, Option.bind_some]
    dsimp only
    rw [stored]
    rfl
  · rw [content, address, shows'.content]
  · intro i frame cached
    simpa only [size] using shows'.mapped i frame cached

theorem omemcpy_run {dest src : Nat} {n i : Nat} (shows : t.Shows m) (aligned : pageSize ∣ frameSize)
    (enough : CACHE_BLOCK_COUNT ≤ fuel) (low : ∀ j < n, dest + (i + j) < 2 ^ 24 ∧ src + (i + j) < 2 ^ 24) :
    ∃ t', omemcpy pageSize fuel dest src n i t = some t' ∧
      t'.Shows ((List.range' i n).foldl (fun m i => Function.update m (dest + i) (m (src + i))) m) := by
  induction n generalizing i t m with
  | zero => exact ⟨t, rfl, shows⟩
  | succ n ih =>
    obtain ⟨lowDest, lowSrc⟩ := low 0 (Nat.succ_pos n)
    have atSrc : optrAdd src i = src + i := optrAdd_of_lt (by omega) (by omega)
    have atDest : optrAdd dest i = dest + i := optrAdd_of_lt (by omega) (by omega)
    obtain ⟨t₁, read, shows₁⟩ := value_run shows aligned enough (show src + i < 2 ^ 32 by omega)
    obtain ⟨t₂, written, shows₂⟩ := setValue_run shows₁ aligned enough (show dest + i < 2 ^ 32 by omega)
      (m (src + i))
    obtain ⟨t₃, rest, shows₃⟩ := ih (i := i + 1) shows₂ fun j below => by
      have := low (j + 1) (by omega)
      omega
    exact ⟨t₃, by simp [omemcpy, atSrc, read, atDest, written, rest], shows₃⟩

/-- Bytes are copied in from a low address on; the last of them may lie above 2^24. -/
theorem omemcpyIn_run {dest : Nat} {src : List UInt8} {i : Nat} (shows : t.Shows m)
    (aligned : pageSize ∣ frameSize) (enough : CACHE_BLOCK_COUNT ≤ fuel)
    (low : ∀ j < src.length, dest < 2 ^ 24 ∧ dest + (i + j) < 2 ^ 32) :
    ∃ t', omemcpyIn pageSize fuel dest src i t = some t' ∧ t'.Shows (FlatMemory.lay m (dest + i) src) := by
  induction src generalizing i t m with
  | nil => exact ⟨t, rfl, shows⟩
  | cons v src ih =>
    have first := low 0 (Nat.succ_pos _)
    have atDest : optrAdd dest i = dest + i := optrAdd_of_lt (by omega) (by omega)
    obtain ⟨t₁, written, shows₁⟩ := setValue_run shows aligned enough (show dest + i < 2 ^ 32 by omega) v
    obtain ⟨t₂, rest, shows₂⟩ := ih (i := i + 1) shows₁ fun j below => by
      have := low (j + 1) (by simpa using below)
      omega
    exact ⟨t₂, by simp [omemcpyIn, atDest, written, rest], shows₂⟩

theorem omemcpyOut_run {src : Nat} {n i : Nat} (shows : t.Shows m) (aligned : pageSize ∣ frameSize)
    (enough : CACHE_BLOCK_COUNT ≤ fuel) (low : ∀ j < n, src < 2 ^ 24 ∧ src + (i + j) < 2 ^ 32) :
    ∃ t', omemcpyOut pageSize fuel src n i t = some (FlatMemory.slice m (src + i) n, t') ∧ t'.Shows m := by
  induction n generalizing i t with
  | zero => exact ⟨t, rfl, shows⟩
  | succ n ih =>
    have first := low 0 (Nat.succ_pos n)
    have atSrc : optrAdd src i = src + i := optrAdd_of_lt (by omega) (by omega)
    obtain ⟨t₁, read, shows₁⟩ := value_run shows aligned enough (show src + i < 2 ^ 32 by omega)
    obtain ⟨t₂, rest, shows₂⟩ := ih (i := i + 1) shows₁ fun j below => by
      have := low (j + 1) (by omega)
      omega
    exact ⟨t₂, by simp [omemcpyOut, atSrc, read, rest, FlatMemory.slice_succ, Nat.add_assoc], shows₂⟩

/-- The copies of the flat memory, byte by byte, are runs of it. -/
theorem foldl_zipIdx_eq_lay (m : Memory) (dest i : Nat) (src : List UInt8) :
    (src.zipIdx i).foldl (fun m entry => Function.update m (dest + entry.2) entry.1) m =
      FlatMemory.lay m (dest + i) src := by
  induction src generalizing i m with
  | nil => rfl
  | cons v src ih => rw [List.zipIdx_cons, List.foldl_cons, ih, FlatMemory.lay, Nat.add_assoc]

theorem map_range'_eq_slice (m : Memory) (src n : Nat) :
    (List.range' 0 n).map (fun i => m (src + i)) = FlatMemory.slice m src n := by
  rw [FlatMemory.slice, List.range_eq_range']

theorem low_of_run {a n : Nat} (low : ∀ j < n, a + j < 2 ^ 24) :
    ∀ j < n, a < 2 ^ 24 ∧ a + (0 + j) < 2 ^ 32 := by
  intro j inside
  have := low j inside
  omega

/-- One access through the cache is one access to the flat memory. -/
theorem access_run {c : Access} (shows : t.Shows m) (aligned : pageSize ∣ frameSize)
    (enough : CACHE_BLOCK_COUNT ≤ fuel) (low : c.Below (2 ^ 24)) :
    ∃ t', t.access pageSize fuel c = some ((m.access c).1, t') ∧ t'.Shows (m.access c).2 := by
  cases c with
  | read a =>
    obtain ⟨t', run, shows'⟩ := value_run shows aligned enough (lt_trans low (by norm_num))
    exact ⟨t', by simp [access, run, Memory.access], shows'⟩
  | write a v =>
    obtain ⟨t', run, shows'⟩ := setValue_run shows aligned enough (lt_trans low (by norm_num)) v
    exact ⟨t', by simp [access, run, Memory.access], shows'⟩
  | copy dest src n =>
    obtain ⟨t', run, shows'⟩ := omemcpy_run (i := 0) shows aligned enough (by simpa [Access.Below] using low)
    exact ⟨t', by simp [access, run, Memory.access], shows'⟩
  | copyIn dest src =>
    obtain ⟨t', run, shows'⟩ := omemcpyIn_run (i := 0) shows aligned enough (low_of_run low)
    refine ⟨t', by simp [access, run, Memory.access], ?_⟩
    simpa only [Memory.access, foldl_zipIdx_eq_lay] using shows'
  | copyOut src n =>
    obtain ⟨t', run, shows'⟩ := omemcpyOut_run (i := 0) shows aligned enough (low_of_run low)
    refine ⟨t', ?_, shows'⟩
    simp [access, run, Memory.access, map_range'_eq_slice]

theorem run_run {accesses : List Access} (shows : t.Shows m) (aligned : pageSize ∣ frameSize)
    (enough : CACHE_BLOCK_COUNT ≤ fuel) (low : ∀ c ∈ accesses, c.Below (2 ^ 24)) :
    ∃ t', t.run pageSize fuel accesses = some ((m.run accesses).1, t') ∧ t'.Shows (m.run accesses).2 := by
  induction accesses generalizing t m with
  | nil => exact ⟨t, rfl, shows⟩
  | cons c accesses ih =>
    obtain ⟨t₁, first, shows₁⟩ := access_run shows aligned enough (low c (List.mem_cons_self ..))
    obtain ⟨t₂, rest, shows₂⟩ := ih shows₁ fun d member => low d (List.mem_cons_of_mem _ member)
    exact ⟨t₂, by simp [run, first, rest, Memory.run], shows₂⟩

/-- The page cache is transparent: from a fresh table every run of accesses below 2^24 returns, hands out
what the flat file would, and leaves the flat file's bytes behind. -/
theorem cache_transparent (pageSize fuel : Nat) (f : MappedFile) (accesses : List Access)
    (low : ∀ c ∈ accesses, c.Below (2 ^ 24)) (aligned : pageSize ∣ frameSize)
    (enough : CACHE_BLOCK_COUNT ≤ fuel) :
    ∃ t, run pageSize fuel { file := f } accesses = some ((Memory.run f.content accesses).1, t) ∧
      t.file.content = (Memory.run f.content accesses).2 := by
  obtain ⟨t, returns, shows⟩ := run_run (shows_fresh f) aligned enough low
  exact ⟨t, returns, shows.content⟩

/-- Five frames in three slots, with copies across a page boundary and onto itself. -/
theorem cache_transparent_crossing :
    ∃ t, run 4096 3 { file := ⟨0, fun _ => 0⟩ }
      [.copyIn 65534 [1, 2, 3, 4], .write 131072 5, .write 196608 6, .write 262144 7, .copy 65536 65534 4,
        .copyOut 65534 7, .read 262144] = some ([[], [], [], [], [], [1, 2, 1, 2, 1, 2, 0], [7]], t) := by
  have flat : (Memory.run (MappedFile.content ⟨0, fun _ => 0⟩)
      [.copyIn 65534 [1, 2, 3, 4], .write 131072 5, .write 196608 6, .write 262144 7, .copy 65536 65534 4,
        .copyOut 65534 7, .read 262144]).1 = [[], [], [], [], [], [1, 2, 1, 2, 1, 2, 0], [7]] := by
    decide +kernel
  obtain ⟨t, returns, -⟩ := cache_transparent 4096 3 ⟨0, fun _ => 0⟩
    [.copyIn 65534 [1, 2, 3, 4], .write 131072 5, .write 196608 6, .write 262144 7, .copy 65536 65534 4,
      .copyOut 65534 7, .read 262144] (by decide +kernel) (by decide) le_rfl
  exact ⟨t, flat ▸ returns⟩

end CacheTable

end MiyaCore
