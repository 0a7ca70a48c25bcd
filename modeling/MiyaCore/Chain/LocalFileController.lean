import Mathlib
import MiyaCore.Chain.BlockLocalStrage
import MiyaCore.PageTable.CacheTable

/-!
# The append-only files

A blk or rev file is written and read through mappings that begin on a page of the system. Its first
four bytes say where the data ends. To those who call it, the file is a list that grows at its end.
The destructor unmaps once more the pages where the last range was mapped, whatever is there by then.
-/

namespace MiyaCore
open FlatMemory

namespace MappedFile

/-- `mmap` of a range of the file. An empty range, or one that does not begin on a page, is refused. -/
def mmap (pageSize length fileOffset : Nat) : Option Nat :=
  if length = 0 ∨ fileOffset % pageSize ≠ 0 then none else some fileOffset

/-- `memcpy` into a mapping, which reaches no further than the file. -/
def copyTo (f : MappedFile) (mapped : Option Nat) (inOffset : Nat) (data : List UInt8) : Option MappedFile :=
  if data.length = 0 then some f
  else do
    let start ← mapped
    if start + inOffset + data.length ≤ f.size
      then some { f with bytes := lay f.bytes (start + inOffset) data } else none

/-- `memcpy` out of a mapping. -/
def copyFrom (f : MappedFile) (mapped : Option Nat) (inOffset n : Nat) : Option (List UInt8) :=
  if n = 0 then some []
  else do
    let start ← mapped
    if start + inOffset + n ≤ f.size then some (slice f.bytes (start + inOffset) n) else none

end MappedFile

/-- The pages that are mapped in the memory of the process. -/
abbrev Pages := Nat → Bool

/-- A range that begins on a page and reaches into page `p`; what was not mapped reaches into none. -/
def Covers (pageSize : Nat) (place : Option Nat) (size p : Nat) : Prop :=
  match place with
  | none => False
  | some first => first ≤ p ∧ p * pageSize < first * pageSize + size

instance (pageSize : Nat) (place : Option Nat) (size p : Nat) : Decidable (Covers pageSize place size p) :=
  match place with
  | none => inferInstanceAs (Decidable False)
  | some _ => inferInstanceAs (Decidable (_ ∧ _))

namespace Pages

def mmap (pageSize : Nat) (pages : Pages) (place : Option Nat) (size : Nat) : Pages :=
  fun p => pages p || Covers pageSize place size p

def munmap (pageSize : Nat) (pages : Pages) (place : Option Nat) (size : Nat) : Pages :=
  fun p => pages p && !Covers pageSize place size p

/-- No page of the range is mapped. -/
def Free (pageSize : Nat) (pages : Pages) (place : Option Nat) (size : Nat) : Prop :=
  ∀ p, Covers pageSize place size p → pages p = false

/-- The bytes can be read. -/
def Readable (pageSize : Nat) (pages : Pages) (address size : Nat) : Prop :=
  ∀ i < size, pages ((address + i) / pageSize) = true

instance (pageSize : Nat) (pages : Pages) (address size : Nat) : Decidable (Readable pageSize pages address size) :=
  inferInstanceAs (Decidable (∀ i < size, _))

variable {pageSize : Nat} {pages held : Pages} {place : Option Nat} {size p : Nat}

@[simp] theorem mmap_iff : pages.mmap pageSize place size p = true ↔ pages p = true ∨ Covers pageSize place size p := by
  simp [mmap]

@[simp] theorem munmap_iff :
    pages.munmap pageSize place size p = true ↔ pages p = true ∧ ¬Covers pageSize place size p := by
  simp [munmap]

/-- Nothing is mapped on the pages from `a` on that the range can reach. -/
theorem free_of_range {a n : Nat} (fits : size ≤ n * pageSize) (empty : ∀ i < n, pages (a + i) = false) :
    pages.Free pageSize (some a) size := by
  rintro p ⟨behind, covers⟩
  obtain ⟨i, rfl⟩ := Nat.exists_eq_add_of_le behind
  refine empty i ?_
  rw [Nat.add_mul] at covers
  exact Nat.lt_of_mul_lt_mul_right (a := pageSize) (by omega)

/-- A range that is mapped where nothing was and unmapped again leaves no trace. -/
theorem Free.munmap_mmap (free : pages.Free pageSize place size) :
    (pages.mmap pageSize place size).munmap pageSize place size = pages := by
  funext p
  rw [Bool.eq_iff_iff, munmap_iff, mmap_iff]
  constructor
  · rintro ⟨mapped | covers, apart⟩
    · exact mapped
    · exact absurd covers apart
  · intro mapped
    refine ⟨Or.inl mapped, fun covers => ?_⟩
    rw [free p covers] at mapped
    cases mapped

theorem Readable.mono {address : Nat} (readable : held.Readable pageSize address size)
    (within : ∀ p, held p = true → pages p = true) : pages.Readable pageSize address size :=
  fun i below => within _ (readable i below)

end Pages

namespace Chain

/-- A buffer in memory. No object is longer. -/
abbrev Data := { data : List UInt8 // data.length < 2 ^ 63 }

/-! The methods of `LocalFileController` work on the file that it has open. -/
namespace LocalFileController

/-- `BLK_REV_META_BLOCK_SIZE`. -/
def metaBlockSize : Nat := 100

/-- `Meta::actualDataSize`, through the mapping of the meta block. -/
def actualDataSize (f : MappedFile) : Nat := Bytes.ofLe (slice f.bytes 0 4)

def setActualDataSize (f : MappedFile) (target : Nat) : MappedFile :=
  { f with bytes := lay f.bytes 0 (Bytes.le 4 target) }

/-- The constructor. -/
def init (f : MappedFile) : MappedFile :=
  if f.size < metaBlockSize then setActualDataSize (f.extend metaBlockSize) metaBlockSize else f

/-- `write`: the offset of the data, or -1 for a file that is full. -/
def write (pageSize : Nat) (f : MappedFile) (data : Data) : Option (Int × MappedFile) := do
  let dataEnd := actualDataSize f
  if (dataEnd + data.1.length) % 2 ^ 64 ≥ maxBytes then return (-1, f)
  let f := f.extend (dataEnd + data.1.length)
  let offset := dataEnd / pageSize
  let mappingInOffset := dataEnd - pageSize * offset
  let mapped := MappedFile.mmap pageSize (mappingInOffset + data.1.length) (offset * pageSize)
  let f ← f.copyTo mapped mappingInOffset data.1
  return (dataEnd, setActualDataSize f (dataEnd + data.1.length))

/-- `read`. -/
def read (pageSize : Nat) (f : MappedFile) (size offset : Nat) : Option (List UInt8) :=
  let offsetByPageSize := offset / pageSize
  let mappingInOffset := offset - pageSize * offsetByPageSize
  let mapped := MappedFile.mmap pageSize (size + mappingInOffset) (offsetByPageSize * pageSize)
  f.copyFrom mapped mappingInOffset size

/-- `_mapping`: the page where a range of the file was mapped last, and its bytes. It outlives `munmap`. -/
structure Mapping where
  addr : Option Nat
  size : Nat

/-- The range that `write` and `read` map for the bytes behind an offset, at a page the system chooses. -/
def mapping (pageSize place offset size : Nat) : Mapping where
  addr := (MappedFile.mmap pageSize (offset - pageSize * (offset / pageSize) + size)
    (offset / pageSize * pageSize)).map fun _ => place
  size := offset - pageSize * (offset / pageSize) + size

/-- What goes on in the process. The rest of it maps memory or gives it back; data is written from a buffer; the
data of an accepted write is read; the file is closed and opened again. Wherever a range is mapped, the
system chooses the page, and a new controller finds any `_mapping._size`. -/
inductive Call
  | map (place size : Nat)
  | unmap (place size : Nat)
  | write (place buffer : Nat) (data : Data)
  | read (place index : Nat)
  | reopen (place size : Nat)

/-- An open file and the memory of the process: the page of the meta block, what else is held there, and
`_mapping`; with the data of the writes that were accepted and the offsets they returned. -/
structure Session where
  file : MappedFile
  pages : Pages
  held : Pages
  metaPage : Nat
  mapping : Mapping
  accepted : List (Nat × List UInt8) := []

namespace Session

/-- The constructor, in a process that holds these pages. -/
def opened (pageSize : Nat) (f : MappedFile) (held : Pages) (place size : Nat) : Session where
  file := init f
  pages := held.mmap pageSize (some place) metaBlockSize
  held := held
  metaPage := place
  mapping := ⟨some place, size⟩

/-- The destructor. -/
def closed (pageSize : Nat) (st : Session) : Pages :=
  (st.pages.munmap pageSize (some st.metaPage) metaBlockSize).munmap pageSize st.mapping.addr st.mapping.size

/-- A call returns unless it touches a page that is not mapped. -/
def step (pageSize : Nat) (st : Session) : Call → Option Session
  | .map place size => some { st with
      pages := st.pages.mmap pageSize (some place) size, held := st.held.mmap pageSize (some place) size }
  | .unmap place size => some { st with
      pages := st.pages.munmap pageSize (some place) size, held := st.held.munmap pageSize (some place) size }
  | .write place buffer data => do
    guard (st.pages st.metaPage)
    let (offset, file) ← LocalFileController.write pageSize st.file data
    if offset = -1 then return st
    let mapped := LocalFileController.mapping pageSize place offset.toNat data.1.length
    let pages := st.pages.mmap pageSize mapped.addr mapped.size
    guard (pages.Readable pageSize buffer data.1.length)
    let pages := pages.munmap pageSize mapped.addr mapped.size
    guard (pages st.metaPage)
    return { st with file, pages, mapping := mapped, accepted := (offset.toNat, data.1) :: st.accepted }
  | .read place index =>
    match st.accepted[index]? with
    | none => some st
    | some (offset, data) => do
      let _ ← LocalFileController.read pageSize st.file data.length offset
      let mapped := LocalFileController.mapping pageSize place offset data.length
      let pages := (st.pages.mmap pageSize mapped.addr mapped.size).munmap pageSize mapped.addr mapped.size
      return { st with pages, mapping := mapped }
  | .reopen place size => some { st with
      file := init st.file
      pages := (st.closed pageSize).mmap pageSize (some place) metaBlockSize
      metaPage := place
      mapping := ⟨some place, size⟩ }

def run (pageSize : Nat) : Session → List Call → Option Session
  | st, [] => some st
  | st, c :: calls => do
    let st ← st.step pageSize c
    st.run pageSize calls

/-- What the system and the callers keep to: a range is mapped where nothing is, what is given back was held,
and the data of a write is in memory that is held. -/
def Called (pageSize : Nat) (st : Session) : Call → Prop
  | .map place size => st.pages.Free pageSize (some place) size
  | .unmap place size => ∀ p, Covers pageSize (some place) size p → st.held p = true
  | .write place buffer data =>
    let mapped := LocalFileController.mapping pageSize place (actualDataSize st.file) data.1.length
    st.pages.Free pageSize mapped.addr mapped.size ∧ st.held.Readable pageSize buffer data.1.length
  | .read place index => ∀ x ∈ st.accepted[index]?,
    let mapped := LocalFileController.mapping pageSize place x.1 x.2.length
    st.pages.Free pageSize mapped.addr mapped.size
  | .reopen place _ => (st.closed pageSize).Free pageSize (some place) metaBlockSize

/-- If the file is closed, nothing that the process holds has come to lie where a range was mapped last. -/
def ClosesOwn (pageSize : Nat) (st : Session) : Call → Prop
  | .reopen _ _ => ∀ p, Covers pageSize st.mapping.addr st.mapping.size p → st.held p = false
  | _ => True

/-- Each call of a run, in the state that it is made in. -/
def Along (pageSize : Nat) (holds : Session → Call → Prop) : Session → List Call → Prop
  | _, [] => True
  | st, c :: calls => holds st c ∧ ∀ st', st.step pageSize c = some st' → st'.Along pageSize holds calls

end Session

/-- A file that the constructor formats, or one whose meta block names an end of the data inside it. -/
def Usable (f : MappedFile) : Prop :=
  f.size < metaBlockSize ∨ metaBlockSize ≤ actualDataSize f ∧ actualDataSize f ≤ f.size

instance (f : MappedFile) : Decidable (Usable f) := inferInstanceAs (Decidable (_ ∨ _ ∧ _))

/-- The file stands for the list of data behind its meta block. -/
structure Refines (f : MappedFile) (d : DataFile) : Prop where
  recorded : actualDataSize f = d.actualDataSize
  inside : d.actualDataSize ≤ f.size
  body : slice f.bytes metaBlockSize d.body.length = d.body

/-- The offset as the caller sees it. -/
def outcome : Option Nat → Int
  | none => -1
  | some offset => offset

variable (pageSize : Nat) {f : MappedFile} {d : DataFile}

theorem actualDataSize_set {n : Nat} (small : n < 2 ^ 32) : actualDataSize (setActualDataSize f n) = n := by
  have written : slice (lay f.bytes 0 (Bytes.le 4 n)) 0 4 = Bytes.le 4 n := by
    have read := slice_lay_self f.bytes 0 (Bytes.le 4 n)
    rwa [Bytes.length_le] at read
  rw [actualDataSize, setActualDataSize, written, Bytes.ofLe_le]
  exact Nat.mod_eq_of_lt small

/-- The end of the data is kept apart from the data. -/
theorem slice_set {n a size : Nat} (behind : metaBlockSize ≤ a) :
    slice (setActualDataSize f n).bytes a size = slice f.bytes a size :=
  slice_lay_of_disjoint f.bytes (Or.inr (by rw [Bytes.length_le]; exact le_trans (by decide) behind))

theorem slice_extend {n a size : Nat} (old : a + size ≤ f.size) :
    slice (f.extend n).bytes a size = slice f.bytes a size :=
  slice_congr fun i below => if_pos (show a + i < f.size by omega)

/-- The page and the offset in it make up the place in the file. -/
theorem page_add_inPage (pageSize place : Nat) :
    place / pageSize * pageSize + (place - pageSize * (place / pageSize)) = place := by
  have below := Nat.mul_div_le place pageSize
  rw [Nat.mul_comm]
  omega

theorem copyTo_mmap (place : Nat) (data : List UInt8) (inside : place + data.length ≤ f.size) :
    f.copyTo (MappedFile.mmap pageSize (place - pageSize * (place / pageSize) + data.length)
      (place / pageSize * pageSize))
      (place - pageSize * (place / pageSize)) data = some { f with bytes := lay f.bytes place data } := by
  by_cases empty : data.length = 0
  · rw [MappedFile.copyTo, if_pos empty, List.eq_nil_of_length_eq_zero empty]
    rfl
  · have mapped : MappedFile.mmap pageSize (place - pageSize * (place / pageSize) + data.length)
      (place / pageSize * pageSize) =
        some (place / pageSize * pageSize) := if_neg (by simp [empty])
    simp only [MappedFile.copyTo, if_neg empty, mapped, Option.bind_eq_bind, Option.bind_some,
      page_add_inPage, if_pos inside]

theorem read_run (size place : Nat) (inside : place + size ≤ f.size) :
    read pageSize f size place = some (slice f.bytes place size) := by
  by_cases empty : size = 0
  · subst empty
    rfl
  · have mapped : MappedFile.mmap pageSize (size + (place - pageSize * (place / pageSize)))
      (place / pageSize * pageSize) =
        some (place / pageSize * pageSize) := if_neg (by simp [empty])
    simp only [read, MappedFile.copyFrom, if_neg empty, mapped, Option.bind_eq_bind, Option.bind_some,
      page_add_inPage, if_pos inside]

/-- An open file stands for some list of data. -/
theorem exists_refines (usable : Usable f) : ∃ d, Refines (init f) d := by
  rcases usable with short | ⟨behind, inside⟩
  · rw [init, if_pos short]
    have formatted : actualDataSize (setActualDataSize (f.extend metaBlockSize) metaBlockSize) =
      metaBlockSize :=
      actualDataSize_set (by decide)
    exact ⟨{}, formatted, le_rfl, rfl⟩
  · rw [init, if_neg (by omega)]
    have size : (DataFile.mk (slice f.bytes metaBlockSize (actualDataSize f - metaBlockSize))).actualDataSize =
        actualDataSize f := by
      rw [DataFile.actualDataSize, length_slice]
      exact Nat.add_sub_cancel' behind
    exact ⟨⟨slice f.bytes metaBlockSize (actualDataSize f - metaBlockSize)⟩, size.symm, size.trans_le inside, by
      rw [length_slice]⟩

/-- A file that has been opened is not formatted again. -/
theorem Refines.init_eq (refines : Refines f d) : init f = f := by
  have inside := refines.inside
  rw [DataFile.actualDataSize] at inside
  exact if_neg (Nat.not_lt.mpr (le_trans (Nat.le_add_right ..) inside))

/-- `write` appends to the list, or leaves the file as it is. -/
theorem Refines.write (refines : Refines f d) (data : Data) :
    ∃ f', LocalFileController.write pageSize f data = some (outcome (d.write data.1).1, f') ∧
      Refines f' (d.write data.1).2 ∧
      ((d.write data.1).1 = none → f' = f) := by
  obtain ⟨data, small⟩ := data
  have inside := refines.inside
  have start : metaBlockSize ≤ d.actualDataSize := Nat.le_add_right ..
  have recorded : d.actualDataSize < 2 ^ 32 := by
    have low := Bytes.ofLe_lt (slice f.bytes 0 4)
    rw [length_slice] at low
    rw [← refines.recorded]
    exact low
  have sum : (d.actualDataSize + data.length) % 2 ^ 64 = d.actualDataSize + data.length :=
    Nat.mod_eq_of_lt (by omega)
  by_cases full : d.actualDataSize + data.length ≥ maxBytes
  · refine ⟨f, ?_, ?_, fun _ => rfl⟩
    · simp only [LocalFileController.write, refines.recorded, sum, if_pos full, DataFile.write, outcome]
      rfl
    · simpa only [DataFile.write, if_pos full] using refines
  · have below : d.actualDataSize + data.length < 2 ^ 32 := by
      rw [maxBytes] at full
      omega
    have copied := copyTo_mmap pageSize (f := f.extend (d.actualDataSize + data.length)) d.actualDataSize
      data le_rfl
    refine ⟨setActualDataSize { f.extend (d.actualDataSize + data.length) with
      bytes := lay (f.extend (d.actualDataSize + data.length)).bytes d.actualDataSize data } (d.actualDataSize + data.length),
      ?_, ?_, fun refused => ?_⟩
    · simp only [LocalFileController.write, refines.recorded, sum, if_neg full, copied, DataFile.write, outcome,
        Option.bind_eq_bind, Option.bind_some, Option.pure_def]
    · simp only [DataFile.write, if_neg full]
      have size : (DataFile.mk (d.body ++ data)).actualDataSize = d.actualDataSize + data.length := by
        simp only [DataFile.actualDataSize, List.length_append, Nat.add_assoc]
      refine ⟨(actualDataSize_set below).trans size.symm, size.le, ?_⟩
      rw [slice_set le_rfl]
      have old : slice (lay (f.extend (d.actualDataSize + data.length)).bytes d.actualDataSize data)
        metaBlockSize d.body.length =
          d.body := by
        have apart : metaBlockSize + d.body.length ≤ d.actualDataSize := le_rfl
        rw [slice_lay_of_disjoint _ (Or.inl apart), slice_extend (apart.trans inside)]
        exact refines.body
      have new : slice (lay (f.extend (d.actualDataSize + data.length)).bytes d.actualDataSize data)
          (metaBlockSize + d.body.length) data.length = data := slice_lay_self ..
      rw [List.length_append, slice_append, old, new]
    · simp only [DataFile.write, if_neg full] at refused
      cases refused

/-- `read` takes from the list. -/
theorem Refines.read (refines : Refines f d) {size offset : Nat} {l : List UInt8}
    (there : d.read size offset = some l) :
    LocalFileController.read pageSize f size offset = some l := by
  rw [DataFile.read, Option.ite_none_right_eq_some, Option.some_inj] at there
  obtain ⟨⟨behind, below⟩, rfl⟩ := there
  rw [read_run pageSize size offset (below.trans refines.inside)]
  have part : slice f.bytes (metaBlockSize + (offset - 100)) size =
      ((slice f.bytes metaBlockSize d.body.length).drop (offset - 100)).take size := by
    refine slice_add f.bytes ?_
    rw [DataFile.actualDataSize] at below
    omega
  have place : metaBlockSize + (offset - 100) = offset := Nat.add_sub_cancel' behind
  rw [place, refines.body] at part
  rw [part]

/-- What holds of an open file and of the memory after any number of calls. -/
structure Holds (st : Session) (d : DataFile) : Prop where
  refines : Refines st.file d
  accepted : ∀ p l, (p, l) ∈ st.accepted → d.Holds p l
  mapped : ∀ p, st.held p = true → st.pages p = true
  own : ∀ p, Covers pageSize (some st.metaPage) metaBlockSize p → st.pages p = true ∧ st.held p = false

theorem covers_first (place : Nat) : Covers pageSize (some place) metaBlockSize place :=
  ⟨le_rfl, Nat.lt_add_of_pos_right (by decide)⟩

variable {pageSize}

theorem Holds.read {st : Session} (holds : Holds pageSize st d) {p : Nat} {l : List UInt8}
    (member : (p, l) ∈ st.accepted) : LocalFileController.read pageSize st.file l.length p = some l := by
  have whole : d.Holds p (l ++ []) := by simpa using holds.accepted p l member
  exact holds.refines.read pageSize whole.read.1

theorem Holds.opened (refines : Refines (init f) d) {held : Pages} {place : Nat} (size : Nat)
    (free : held.Free pageSize (some place) metaBlockSize) :
    Holds pageSize (Session.opened pageSize f held place size) d where
  refines := refines
  accepted := nofun
  mapped _ isHeld := Pages.mmap_iff.mpr (Or.inl isHeld)
  own p covers := ⟨Pages.mmap_iff.mpr (Or.inr covers), free p covers⟩

theorem step_run {st : Session} (holds : Holds pageSize st d) (c : Call) (called : st.Called pageSize c)
    (closes : st.ClosesOwn pageSize c) : ∃ st' d', st.step pageSize c = some st' ∧ Holds pageSize st' d' := by
  have metaMapped := (holds.own _ (covers_first pageSize st.metaPage)).1
  cases c with
  | map place size =>
    refine ⟨_, d, rfl, holds.refines, holds.accepted, fun p isHeld => ?_, fun p covers => ?_⟩
    · exact Pages.mmap_iff.mpr ((Pages.mmap_iff.mp isHeld).imp_left (holds.mapped p))
    · obtain ⟨isMapped, notHeld⟩ := holds.own p covers
      refine ⟨Pages.mmap_iff.mpr (Or.inl isMapped), Bool.eq_false_iff.mpr fun isHeld => ?_⟩
      rcases Pages.mmap_iff.mp isHeld with old | new
      · exact absurd (notHeld.symm.trans old) nofun
      · exact absurd ((called p new).symm.trans isMapped) nofun
  | unmap place size =>
    refine ⟨_, d, rfl, holds.refines, holds.accepted, fun p isHeld => ?_, fun p covers => ?_⟩
    · exact Pages.munmap_iff.mpr ((Pages.munmap_iff.mp isHeld).imp_left (holds.mapped p))
    · obtain ⟨isMapped, notHeld⟩ := holds.own p covers
      refine ⟨Pages.munmap_iff.mpr ⟨isMapped, fun given => ?_⟩, Bool.eq_false_iff.mpr fun isHeld => ?_⟩
      · exact absurd (notHeld.symm.trans (called p given)) nofun
      · exact absurd (notHeld.symm.trans (Pages.munmap_iff.mp isHeld).1) nofun
  | write place buffer data =>
    obtain ⟨f', ran, refines', -⟩ := holds.refines.write pageSize data
    obtain ⟨free, readable⟩ := called
    by_cases full : d.actualDataSize + data.1.length ≥ maxBytes
    · refine ⟨st, d, ?_, holds⟩
      simp only [DataFile.write, if_pos full, outcome] at ran
      simp [Session.step, ran, metaMapped]
    · simp only [DataFile.write, if_neg full, outcome] at ran refines'
      rw [holds.refines.recorded] at free
      have there : (st.pages.mmap pageSize (mapping pageSize place d.actualDataSize data.1.length).addr
          (mapping pageSize place d.actualDataSize data.1.length).size).Readable pageSize buffer data.1.length :=
        readable.mono fun p isHeld => Pages.mmap_iff.mpr (Or.inl (holds.mapped p isHeld))
      refine ⟨{ st with
        file := f'
        mapping := mapping pageSize place d.actualDataSize data.1.length
        accepted := (d.actualDataSize, data.1) :: st.accepted }, _, ?_, refines', fun p l member => ?_,
        holds.mapped, holds.own⟩
      · have number : ((d.actualDataSize : Nat) : Int) ≠ -1 := by omega
        simp [Session.step, ran, metaMapped, number, there, free.munmap_mmap, -Pages.munmap_iff]
      · rcases List.mem_cons.mp member with new | old
        · obtain ⟨rfl, rfl⟩ := Prod.mk.inj new
          exact d.holds_end data.1
        · exact (holds.accepted p l old).append data.1
  | read place index =>
    cases found : st.accepted[index]? with
    | none => exact ⟨st, d, by rw [Session.step, found], holds⟩
    | some x =>
      have free := called x found
      refine ⟨{ st with mapping := mapping pageSize place x.1 x.2.length }, d, ?_, holds.refines, holds.accepted,
        holds.mapped, holds.own⟩
      have bytes := holds.read (List.mem_of_getElem? found)
      simp [Session.step, found, bytes, free.munmap_mmap]
  | reopen place size =>
    have kept : ∀ p, st.held p = true → st.closed pageSize p = true := by
      intro p isHeld
      rw [Session.closed, Pages.munmap_iff, Pages.munmap_iff]
      refine ⟨⟨holds.mapped p isHeld, fun covers => ?_⟩, fun covers => ?_⟩
      · exact absurd ((holds.own p covers).2.symm.trans isHeld) nofun
      · exact absurd ((closes p covers).symm.trans isHeld) nofun
    refine ⟨_, d, rfl, ?_, holds.accepted, fun p isHeld => ?_, fun p covers => ?_⟩
    · rw [holds.refines.init_eq]
      exact holds.refines
    · exact Pages.mmap_iff.mpr (Or.inl (kept p isHeld))
    · refine ⟨Pages.mmap_iff.mpr (Or.inr covers), Bool.eq_false_iff.mpr fun isHeld => ?_⟩
      exact absurd ((called p covers).symm.trans (kept p isHeld)) nofun

theorem run_run {st : Session} (holds : Holds pageSize st d) (calls : List Call)
    (called : st.Along pageSize (Session.Called pageSize) calls)
    (closes : st.Along pageSize (Session.ClosesOwn pageSize) calls) :
    ∃ st' d', st.run pageSize calls = some st' ∧ Holds pageSize st' d' := by
  induction calls generalizing st d with
  | nil => exact ⟨st, d, rfl, holds⟩
  | cons c calls ih =>
    obtain ⟨st₁, d₁, first, holds₁⟩ := step_run holds c called.1 closes.1
    obtain ⟨st₂, d₂, rest, holds₂⟩ := ih holds₁ (called.2 st₁ first) (closes.2 st₁ first)
    exact ⟨st₂, d₂, by simp only [Session.run, first, rest, Option.bind_eq_bind, Option.bind_some], holds₂⟩

/-- As long as nothing that the process holds lies where a range was mapped last when the file is closed, after any
number of writes, reads and reopenings what was accepted is read back from the offset that its write returned, and the
next write appends at the end of the data or, if that would bring it to the limit, changes nothing. -/
theorem append_only_of_closesOwn (pageSize : Nat) (f : MappedFile) (usable : Usable f) (held : Pages) (place size : Nat)
    (free : held.Free pageSize (some place) metaBlockSize) (calls : List Call)
    (called : (Session.opened pageSize f held place size).Along pageSize (Session.Called pageSize) calls)
    (closes : (Session.opened pageSize f held place size).Along pageSize (Session.ClosesOwn pageSize) calls) :
    ∃ st, (Session.opened pageSize f held place size).run pageSize calls = some st ∧
      (∀ p l, (p, l) ∈ st.accepted → read pageSize st.file l.length p = some l) ∧
      ∀ data : Data, ∃ offset f', write pageSize st.file data = some (offset, f') ∧
        if actualDataSize st.file + data.1.length ≥ maxBytes then offset = -1 ∧ f' = st.file
        else offset = actualDataSize st.file ∧ actualDataSize f' = actualDataSize st.file + data.1.length := by
  obtain ⟨d₀, refines₀⟩ := exists_refines usable
  obtain ⟨st, d, ran, holds⟩ := run_run (Holds.opened refines₀ size free) calls called closes
  refine ⟨st, ran, fun p l member => holds.read member, fun data => ?_⟩
  obtain ⟨f', wrote, refines', refused⟩ := holds.refines.write pageSize data
  refine ⟨_, f', wrote, ?_⟩
  rw [holds.refines.recorded]
  by_cases full : d.actualDataSize + data.1.length ≥ maxBytes
  · have result : d.write data.1 = (none, d) := if_pos full
    rw [if_pos full, result]
    exact ⟨rfl, refused (by rw [result])⟩
  · have result : d.write data.1 = (some d.actualDataSize, ⟨d.body ++ data.1⟩) := if_neg full
    rw [if_neg full, refines'.recorded, result]
    refine ⟨rfl, ?_⟩
    simp only [DataFile.actualDataSize, List.length_append, Nat.add_assoc]

theorem Session.along_of_run {holds : Session → Call → Prop} {st : Session} {calls : List Call}
    (each : ∀ n c, calls[n]? = some c → ∀ st', st.run pageSize (calls.take n) = some st' → holds st' c) :
    st.Along pageSize holds calls := by
  induction calls generalizing st with
  | nil => trivial
  | cons c calls ih =>
    refine ⟨each 0 c rfl st rfl, fun st' first => ih fun n c found st'' ran => each (n + 1) c found st'' ?_⟩
    simp only [List.take_succ_cons, Session.run, first, ran, Option.bind_eq_bind, Option.bind_some]

/-- What holds at the end of a run. -/
theorem Session.of_run {st st' : Session} {calls : List Call} {P : Session → Prop} [DecidablePred P]
    (ran : st.run pageSize calls = some st') (holds : (st.run pageSize calls).all (fun st => decide (P st)) = true) :
    P st' := by
  rw [ran, Option.all_some] at holds
  exact of_decide_eq_true holds

/-- A process that holds one page, and a new file whose meta block is mapped at another. -/
def sample (pageSize : Nat) : Session := Session.opened pageSize ⟨0, fun _ => 0⟩ (fun p => p = 1) 10 0

/-- Forty bytes are written across the boundary of two pages, memory is mapped elsewhere, and the file is closed and
opened again. -/
def sampleCalls : List Call :=
  [.write 20 128 ⟨List.replicate 40 7, by decide⟩, .map 30 5, .reopen 11 0]

theorem append_only_of_closesOwn_crossing :
    ∃ st, (sample 128).run 128 sampleCalls = some st ∧
      (∀ p l, (p, l) ∈ st.accepted → read 128 st.file l.length p = some l) ∧
      ∀ data : Data, ∃ offset f', write 128 st.file data = some (offset, f') ∧
        if actualDataSize st.file + data.1.length ≥ maxBytes then offset = -1 ∧ f' = st.file
        else offset = actualDataSize st.file ∧ actualDataSize f' = actualDataSize st.file + data.1.length := by
  refine append_only_of_closesOwn 128 ⟨0, fun _ => 0⟩ (by decide) (fun p => p = 1) 10 0
    (Pages.free_of_range (n := 1) (by decide) (by decide)) sampleCalls ?_ ?_
  · refine Session.along_of_run fun n c found st ran => ?_
    obtain _ | _ | _ | n := n
    · obtain rfl := Option.some.inj found
      obtain rfl := Option.some.inj ran
      exact ⟨Pages.free_of_range (n := 2) (by decide +kernel) (by decide +kernel), by decide +kernel⟩
    · obtain rfl := Option.some.inj found
      have empty : ∀ i < 1, st.pages (30 + i) = false :=
        Session.of_run (P := fun st => ∀ i < 1, st.pages (30 + i) = false) ran (by decide +kernel)
      exact Pages.free_of_range (by decide) empty
    · obtain rfl := Option.some.inj found
      have empty : ∀ i < 1, st.closed 128 (11 + i) = false :=
        Session.of_run (P := fun st => ∀ i < 1, st.closed 128 (11 + i) = false) ran (by decide +kernel)
      exact Pages.free_of_range (by decide) empty
    · cases found
  · refine Session.along_of_run fun n c found st ran => ?_
    obtain _ | _ | _ | n := n
    · obtain rfl := Option.some.inj found
      trivial
    · obtain rfl := Option.some.inj found
      trivial
    · obtain rfl := Option.some.inj found
      have addr : st.mapping.addr = some 20 :=
        Session.of_run (P := fun st => st.mapping.addr = some 20) ran (by decide +kernel)
      have size : st.mapping.size = 140 :=
        Session.of_run (P := fun st => st.mapping.size = 140) ran (by decide +kernel)
      have apart : ∀ i < 2, st.held (20 + i) = false :=
        Session.of_run (P := fun st => ∀ i < 2, st.held (20 + i) = false) ran (by decide +kernel)
      change st.held.Free 128 st.mapping.addr st.mapping.size
      rw [addr, size]
      exact Pages.free_of_range (by decide) apart
    · cases found

/-- Eight bytes are written to a new file; the page where they were mapped is given to the next buffer; the file is closed
and opened again, and the buffer cannot be read any more. -/
def lostBuffer : List Call :=
  [.write 20 4096 ⟨List.replicate 8 7, by decide⟩, .map 20 4096, .reopen 21 0, .write 22 (20 * 4096) ⟨[9], by decide⟩]

theorem append_only_fails :
    (sample 4096).Along 4096 (Session.Called 4096) lostBuffer ∧ ¬∃ st, (sample 4096).run 4096 lostBuffer = some st := by
  constructor
  · refine Session.along_of_run fun n c found st ran => ?_
    obtain _ | _ | _ | _ | n := n
    · obtain rfl := Option.some.inj found
      obtain rfl := Option.some.inj ran
      refine ⟨fun p covers => ?_, by decide +kernel⟩
      have empty : ∀ i < 1, (sample 4096).pages (20 + i) = false := by decide +kernel
      have low : 20 ≤ p := covers.1
      have high : p * 4096 < 20 * 4096 + 108 := covers.2
      exact Pages.free_of_range (by norm_num) empty p ⟨low, high⟩
    · obtain rfl := Option.some.inj found
      have empty : ∀ i < 1, st.pages (20 + i) = false :=
        Session.of_run (P := fun st => ∀ i < 1, st.pages (20 + i) = false) ran (by decide +kernel)
      exact Pages.free_of_range (by decide) empty
    · obtain rfl := Option.some.inj found
      have empty : ∀ i < 1, st.closed 4096 (21 + i) = false :=
        Session.of_run (P := fun st => ∀ i < 1, st.closed 4096 (21 + i) = false) ran (by decide +kernel)
      exact Pages.free_of_range (by decide) empty
    · obtain rfl := Option.some.inj found
      obtain ⟨size, free, isHeld⟩ := Session.of_run (P := fun st => actualDataSize st.file = 108 ∧
        (∀ i < 1, st.pages (22 + i) = false) ∧ st.held.Readable 4096 (20 * 4096) 1) ran (by decide +kernel)
      refine ⟨?_, isHeld⟩
      rw [size]
      exact Pages.free_of_range (by decide) free
    · cases found
  · rintro ⟨st, ran⟩
    have stops : ((sample 4096).run 4096 lostBuffer).isNone := by decide +kernel
    rw [ran] at stops
    cases stops

end LocalFileController

end Chain

end MiyaCore
