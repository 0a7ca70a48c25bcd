import MiyaCore.Bytes
import MiyaCore.PageTable.CacheTable

/-!
# Fragment headers

Each value of a value store stands behind a header. The neighbouring fragments are named by overlay
pointers, and what `exportBianry` copies for such a pointer is the five bytes stored where it points.
-/

namespace MiyaCore
open FlatMemory

/-- The `n` addresses from `a` on are defined, and so are the frames they lie in: `optr::frame` counts the
first byte 2^16, in a short. -/
def Reaches (a n : Nat) : Prop := ∀ i < n, addrByte a 0 = 0 ∧ addrByte (optrAdd a i) 0 = 0

instance (a n : Nat) : Decidable (Reaches a n) := inferInstanceAs (Decidable (∀ i < n, _ ∧ _))

/-- `omemcpy` from memory, where its addresses are defined. -/
def CacheTable.copyIn (pageSize fuel : Nat) (t : CacheTable) (dest : Nat) (src : List UInt8) :
    Option CacheTable :=
  if Reaches dest src.length then omemcpyIn pageSize fuel dest src 0 t else none

/-- `omemcpy` into memory, where its addresses are defined. -/
def CacheTable.copyOut (pageSize fuel : Nat) (t : CacheTable) (src n : Nat) :
    Option (List UInt8 × CacheTable) :=
  if Reaches src n then omemcpyOut pageSize fuel src n 0 t else none

def VALUE_FLAGMENT_ADDR_SIZE : Nat := 5

def DEFAULT_VALUE_FLAGMENT_HEADER_SIZE : Nat := 2 + VALUE_FLAGMENT_ADDR_SIZE + VALUE_FLAGMENT_ADDR_SIZE + 8 + 8

/-- The fields of `ValueFragmentHeader`, as its constructor leaves them for a time. The constructor does not
set the header length; `exportBianry` and `importBinary` do. -/
structure ValueFragmentHeader where
  headerLength : UInt16 := 0
  prevFlagment : OptrAddr := 0
  nextFlagment : OptrAddr := 0
  valueLength : UInt64 := 0
  timestamp : UInt64
deriving DecidableEq

namespace ValueFragmentHeader

/-- `exportBianry`, with the header that it leaves. -/
def exportBianry (pageSize fuel : Nat) (t : CacheTable) (h : ValueFragmentHeader) :
    Option (List UInt8 × ValueFragmentHeader × CacheTable) := do
  let h := { h with headerLength := UInt16.ofNat DEFAULT_VALUE_FLAGMENT_HEADER_SIZE }
  let (prev, t) ← t.copyOut pageSize fuel h.prevFlagment VALUE_FLAGMENT_ADDR_SIZE
  let (next, t) ← t.copyOut pageSize fuel h.nextFlagment VALUE_FLAGMENT_ADDR_SIZE
  return (Bytes.le 2 h.headerLength.toNat ++ prev ++ next ++ Bytes.le 8 h.valueLength.toNat ++
    Bytes.le 8 h.timestamp.toNat, h, t)

/-- `importBinary`. It sets every field. -/
def importBinary (pageSize fuel : Nat) (t : CacheTable) (startFlagmentOptr : Nat) :
    Option (ValueFragmentHeader × CacheTable) := do
  let (headerLength, t) ← t.copyOut pageSize fuel startFlagmentOptr 2
  let (prevOAddr, t) ← t.copyOut pageSize fuel (← Optr.plus startFlagmentOptr 2) VALUE_FLAGMENT_ADDR_SIZE
  let (nextOAddr, t) ← t.copyOut pageSize fuel (← Optr.plus startFlagmentOptr 7) VALUE_FLAGMENT_ADDR_SIZE
  let (valueLength, t) ← t.copyOut pageSize fuel (← Optr.plus startFlagmentOptr 12) 8
  let (timestamp, t) ← t.copyOut pageSize fuel (← Optr.plus startFlagmentOptr 20) 8
  return ({
    headerLength := UInt16.ofNat (Bytes.ofLe headerLength)
    prevFlagment := Fin.ofNat _ (Bytes.ofBe prevOAddr)
    nextFlagment := Fin.ofNat _ (Bytes.ofBe nextOAddr)
    valueLength := UInt64.ofNat (Bytes.ofLe valueLength)
    timestamp := UInt64.ofNat (Bytes.ofLe timestamp) }, t)

/-- The header is exported, the bytes are written at `start`, and a header is imported from there. -/
def reimport (pageSize fuel : Nat) (t : CacheTable) (start : OptrAddr) (h : ValueFragmentHeader) :
    Option (ValueFragmentHeader × CacheTable) := do
  let (bytes, _, t) ← h.exportBianry pageSize fuel t
  let t ← t.copyIn pageSize fuel start bytes
  importBinary pageSize fuel t start

def RoundTrips (pageSize fuel : Nat) (t : CacheTable) (start : OptrAddr) (h : ValueFragmentHeader) : Prop :=
  ∃ g t', h.reimport pageSize fuel t start = some (g, t') ∧ g.prevFlagment = h.prevFlagment ∧
    g.nextFlagment = h.nextFlagment ∧ g.valueLength = h.valueLength ∧ g.timestamp = h.timestamp

end ValueFragmentHeader

section Reach

variable {a n : Nat}

/-- Where the second byte counts, it becomes the first one of the sum. -/
theorem reaches_iff (inside : a < 2 ^ 40) (positive : 0 < n) (small : n ≤ 2 ^ 24) :
    Reaches a n ↔ a < 2 ^ 24 := by
  constructor
  · intro reaches
    obtain ⟨first, atStart⟩ := reaches 0 positive
    simp only [addrByte, Nat.mul_zero, Nat.sub_zero, optrAdd, ulongOptr, Nat.mul_one, Nat.reduceSub,
      Nat.reduceMul] at first atStart
    omega
  · intro low i below
    have sum : optrAdd a i = a + i := optrAdd_of_lt low (by omega)
    rw [sum]
    exact ⟨(addrByte_zero_iff inside).mpr (by omega), (addrByte_zero_iff (by omega)).mpr (by omega)⟩

theorem plus_of_lt (low : a < 2 ^ 24) (small : n < 2 ^ 24) : Optr.plus a n = some (a + n) := by
  rw [Optr.plus_eq_optrAdd, if_pos ((addrByte_zero_iff (by omega)).mpr (by omega)), optrAdd_of_lt low (by omega)]

/-- A sum from an address above 2^24 is not one from which bytes are reached. -/
theorem not_lt_of_plus {b : Nat} (inside : a < 2 ^ 40) (high : 2 ^ 24 ≤ a + n) (small : n < 2 ^ 24)
    (sum : Optr.plus a n = some b) : b < 2 ^ 40 ∧ 2 ^ 24 ≤ b := by
  simp only [Optr.plus_eq_optrAdd, addrByte_zero_iff inside, Option.ite_none_right_eq_some, Option.some_inj] at sum
  obtain ⟨low, rfl⟩ := sum
  by_cases below : a < 2 ^ 24
  · rw [optrAdd_of_lt below (by omega)]
    omega
  · simp only [optrAdd, ulongOptr, addrByte, Nat.mul_zero, Nat.sub_zero, Nat.mul_one, Nat.reduceSub,
      Nat.reduceMul]
    omega

end Reach

namespace CacheTable

variable {t : CacheTable} {m : Memory} {pageSize fuel : Nat}

theorem copyIn_run (shows : t.Shows m) (aligned : pageSize ∣ frameSize) (enough : CACHE_BLOCK_COUNT ≤ fuel)
    (dest : Nat) (src : List UInt8) (low : dest < 2 ^ 24) (small : src.length ≤ 2 ^ 24) :
    ∃ t', t.copyIn pageSize fuel dest src = some t' ∧ t'.Shows (lay m dest src) := by
  have reaches : Reaches dest src.length := by
    by_cases empty : src.length = 0
    · intro i below
      omega
    · exact (reaches_iff (by omega) (by omega) small).mpr low
  obtain ⟨t', run, shows'⟩ : ∃ t', omemcpyIn pageSize fuel dest src 0 t = some t' ∧
    t'.Shows (lay m (dest + 0) src) :=
    omemcpyIn_run shows aligned enough (by omega)
  exact ⟨t', by rw [copyIn, if_pos reaches, run], shows'⟩

theorem copyOut_run (shows : t.Shows m) (aligned : pageSize ∣ frameSize) (enough : CACHE_BLOCK_COUNT ≤ fuel)
    (src n : Nat) (low : src < 2 ^ 24) (small : n ≤ 2 ^ 24) :
    ∃ t', t.copyOut pageSize fuel src n = some (slice m src n, t') ∧ t'.Shows m := by
  have reaches : Reaches src n := by
    by_cases empty : n = 0
    · intro i below
      omega
    · exact (reaches_iff (by omega) (by omega) small).mpr low
  obtain ⟨t', run, shows'⟩ : ∃ t', omemcpyOut pageSize fuel src n 0 t = some (slice m (src + 0) n, t') ∧
    t'.Shows m :=
    omemcpyOut_run shows aligned enough (by omega)
  exact ⟨t', by rw [copyOut, if_pos reaches, run, Nat.add_zero], shows'⟩

/-- Nothing is defined to be read above 2^24. -/
theorem copyOut_high {src n : Nat} (inside : src < 2 ^ 40) (high : 2 ^ 24 ≤ src) (positive : 0 < n)
    (small : n ≤ 2 ^ 24) :
    t.copyOut pageSize fuel src n = none := by
  have unreached : ¬Reaches src n := by
    rw [reaches_iff inside positive small]
    omega
  rw [copyOut, if_neg unreached]

end CacheTable

namespace ValueFragmentHeader

variable {t : CacheTable} {m : Memory} {pageSize fuel : Nat}

/-- The bytes that `exportBianry` makes of a header, where the memory is `m`. -/
def exported (m : Memory) (h : ValueFragmentHeader) : List UInt8 :=
  Bytes.le 2 DEFAULT_VALUE_FLAGMENT_HEADER_SIZE ++ slice m h.prevFlagment 5 ++ slice m h.nextFlagment 5 ++
    Bytes.le 8 h.valueLength.toNat ++ Bytes.le 8 h.timestamp.toNat

@[simp] theorem length_exported (m : Memory) (h : ValueFragmentHeader) :
    (h.exported m).length = DEFAULT_VALUE_FLAGMENT_HEADER_SIZE := by
  simp [exported, DEFAULT_VALUE_FLAGMENT_HEADER_SIZE, VALUE_FLAGMENT_ADDR_SIZE]

/-- The header that `importBinary` reads at `a`, where the memory is `m`. -/
def imported (m : Memory) (a : Nat) : ValueFragmentHeader where
  headerLength := UInt16.ofNat (Bytes.ofLe (slice m a 2))
  prevFlagment := Fin.ofNat _ (Bytes.ofBe (slice m (a + 2) 5))
  nextFlagment := Fin.ofNat _ (Bytes.ofBe (slice m (a + 7) 5))
  valueLength := UInt64.ofNat (Bytes.ofLe (slice m (a + 12) 8))
  timestamp := UInt64.ofNat (Bytes.ofLe (slice m (a + 20) 8))

theorem exportBianry_run (shows : t.Shows m) (aligned : pageSize ∣ frameSize)
    (enough : CACHE_BLOCK_COUNT ≤ fuel) {h : ValueFragmentHeader}
    (lowPrev : h.prevFlagment.val < 2 ^ 24) (lowNext : h.nextFlagment.val < 2 ^ 24) :
    ∃ t', h.exportBianry pageSize fuel t = some (h.exported m,
      { h with headerLength := UInt16.ofNat DEFAULT_VALUE_FLAGMENT_HEADER_SIZE }, t') ∧ t'.Shows m := by
  obtain ⟨t₁, prev, shows₁⟩ := CacheTable.copyOut_run shows aligned enough h.prevFlagment 5 lowPrev
    (by norm_num)
  obtain ⟨t₂, next, shows₂⟩ := CacheTable.copyOut_run shows₁ aligned enough h.nextFlagment 5 lowNext
    (by norm_num)
  refine ⟨t₂, ?_, shows₂⟩
  simp only [exportBianry, VALUE_FLAGMENT_ADDR_SIZE, prev, next, Option.bind_eq_bind, Option.bind_some,
    Option.pure_def]
  rfl

theorem importBinary_run (shows : t.Shows m) (aligned : pageSize ∣ frameSize)
    (enough : CACHE_BLOCK_COUNT ≤ fuel) {a : Nat} (low : a + 20 < 2 ^ 24) :
    ∃ t', importBinary pageSize fuel t a = some (imported m a, t') ∧ t'.Shows m := by
  have plus : ∀ n ≤ 20, Optr.plus a n = some (a + n) := fun n below => plus_of_lt (by omega) (by omega)
  obtain ⟨t₁, read₁, shows₁⟩ := CacheTable.copyOut_run shows aligned enough a 2 (by omega) (by norm_num)
  obtain ⟨t₂, read₂, shows₂⟩ := CacheTable.copyOut_run shows₁ aligned enough (a + 2) 5 (by omega) (by norm_num)
  obtain ⟨t₃, read₃, shows₃⟩ := CacheTable.copyOut_run shows₂ aligned enough (a + 7) 5 (by omega) (by norm_num)
  obtain ⟨t₄, read₄, shows₄⟩ := CacheTable.copyOut_run shows₃ aligned enough (a + 12) 8 (by omega) (by norm_num)
  obtain ⟨t₅, read₅, shows₅⟩ := CacheTable.copyOut_run shows₄ aligned enough (a + 20) 8 (by omega) (by norm_num)
  refine ⟨t₅, ?_, shows₅⟩
  simp only [importBinary, VALUE_FLAGMENT_ADDR_SIZE, plus 2 (by norm_num), plus 7 (by norm_num),
    plus 12 (by norm_num), plus 20 le_rfl, read₁, read₂, read₃, read₄, read₅, Option.bind_eq_bind,
    Option.bind_some, Option.pure_def]
  rfl

/-- The last field of a header is read from below 2^24, or nothing is. -/
theorem low_of_importBinary {a : Nat} (inside : a < 2 ^ 40) {g : ValueFragmentHeader} {t' : CacheTable}
    (run : importBinary pageSize fuel t a = some (g, t')) : a + 20 < 2 ^ 24 := by
  by_contra high
  simp only [importBinary, Option.bind_eq_bind, Option.bind_eq_some_iff, Prod.exists] at run
  obtain ⟨_, _, -, _, -, _, _, -, _, -, _, _, -, _, -, _, _, -, b, sum, _, _, read, -⟩ := run
  obtain ⟨insideB, highB⟩ := not_lt_of_plus inside (by omega) (by norm_num) sum
  rw [CacheTable.copyOut_high insideB highB (by norm_num) (by norm_num)] at read
  cases read

/-- Both addresses are read through when a header is exported. -/
theorem low_of_exportBianry {h h' : ValueFragmentHeader} {bytes : List UInt8} {t' : CacheTable}
    (run : h.exportBianry pageSize fuel t = some (bytes, h', t')) :
    h.prevFlagment.val < 2 ^ 24 ∧ h.nextFlagment.val < 2 ^ 24 := by
  simp only [exportBianry, Option.bind_eq_bind, Option.bind_eq_some_iff, Prod.exists] at run
  obtain ⟨_, _, prev, _, _, next, -⟩ := run
  constructor
  · by_contra high
    rw [CacheTable.copyOut_high h.prevFlagment.isLt (by omega) (by decide) (by decide)] at prev
    cases prev
  · by_contra high
    rw [CacheTable.copyOut_high h.nextFlagment.isLt (by omega) (by decide) (by decide)] at next
    cases next

/-- A header reads back what was exported, but for its addresses. -/
theorem imported_lay (m m' : Memory) (a : Nat) (h : ValueFragmentHeader) :
    imported (lay m' a (h.exported m)) a = { h with
      headerLength := UInt16.ofNat DEFAULT_VALUE_FLAGMENT_HEADER_SIZE
      prevFlagment := Fin.ofNat _ (Bytes.ofBe (slice m h.prevFlagment 5))
      nextFlagment := Fin.ofNat _ (Bytes.ofBe (slice m h.nextFlagment 5)) } := by
  have whole : h.exported m = [] ++ Bytes.le 2 DEFAULT_VALUE_FLAGMENT_HEADER_SIZE ++
    (slice m h.prevFlagment 5 ++
      (slice m h.nextFlagment 5 ++ (Bytes.le 8 h.valueLength.toNat ++ Bytes.le 8 h.timestamp.toNat))) := by
    simp only [exported, List.append_assoc, List.nil_append]
  have field : ∀ l f r : List UInt8, h.exported m = l ++ f ++ r → ∀ k n, l.length = k → f.length = n →
      slice (lay m' a (h.exported m)) (a + k) n = f := by
    rintro l f r split _ _ rfl rfl
    rw [split, slice_lay_append]
  have atLength := field [] (Bytes.le 2 DEFAULT_VALUE_FLAGMENT_HEADER_SIZE) _ whole 0 2 rfl (by simp)
  have atPrev := field (Bytes.le 2 DEFAULT_VALUE_FLAGMENT_HEADER_SIZE) (slice m h.prevFlagment 5)
    (slice m h.nextFlagment 5 ++ (Bytes.le 8 h.valueLength.toNat ++ Bytes.le 8 h.timestamp.toNat))
    (by simp only [exported, List.append_assoc]) 2 5 (by simp) (by simp)
  have atNext := field (Bytes.le 2 DEFAULT_VALUE_FLAGMENT_HEADER_SIZE ++ slice m h.prevFlagment 5)
    (slice m h.nextFlagment 5) (Bytes.le 8 h.valueLength.toNat ++ Bytes.le 8 h.timestamp.toNat)
    (by simp only [exported, List.append_assoc]) 7 5 (by simp) (by simp)
  have atValue := field (Bytes.le 2 DEFAULT_VALUE_FLAGMENT_HEADER_SIZE ++ slice m h.prevFlagment 5 ++
    slice m h.nextFlagment 5) (Bytes.le 8 h.valueLength.toNat) (Bytes.le 8 h.timestamp.toNat) rfl 12 8
    (by simp) (by simp)
  have atTime := field (Bytes.le 2 DEFAULT_VALUE_FLAGMENT_HEADER_SIZE ++ slice m h.prevFlagment 5 ++
    slice m h.nextFlagment 5 ++ Bytes.le 8 h.valueLength.toNat) (Bytes.le 8 h.timestamp.toNat) []
    (by simp only [exported, List.append_nil]) 20 8 (by simp) (by simp)
  rw [Nat.add_zero] at atLength
  simp only [imported, atLength, atPrev, atNext, atValue, atTime, Bytes.ofNat_ofLe_le8]
  rfl

/-- A header is read from its own bytes only. -/
theorem imported_congr {m m' : Memory} {a : Nat}
    (same : ∀ i < DEFAULT_VALUE_FLAGMENT_HEADER_SIZE, m (a + i) = m' (a + i)) :
    imported m a = imported m' a := by
  have field : ∀ k n, k + n ≤ 28 → slice m (a + k) n = slice m' (a + k) n := by
    intro k n inside
    refine slice_congr fun i below => ?_
    rw [Nat.add_assoc]
    exact same (k + i) (lt_of_lt_of_le (Nat.add_lt_add_left below k) inside)
  have atLength := field 0 2 (by norm_num)
  rw [Nat.add_zero] at atLength
  simp only [imported, atLength, field 2 5 (by norm_num), field 7 5 (by norm_num), field 12 8 (by norm_num),
    field 20 8 (by norm_num)]

/-- Five bytes spell an address when they are its own. -/
theorem ofNat_ofBe_eq_iff {l : List UInt8} (length : l.length = 5) (a : OptrAddr) :
    Fin.ofNat (2 ^ 40) (Bytes.ofBe l) = a ↔ l = Bytes.be 5 a := by
  have width : 256 ^ 5 = 2 ^ 40 := by norm_num
  have low := Bytes.ofBe_lt l
  rw [length, width] at low
  constructor
  · rintro rfl
    rw [Fin.val_ofNat, Nat.mod_eq_of_lt low, ← length, Bytes.be_ofBe]
  · rintro rfl
    rw [Bytes.ofBe_be, width, Nat.mod_eq_of_lt a.isLt, Fin.ofNat_val_eq_self]

/-- A header survives when it is written where its last field is reached, and when each of its addresses is
reached and has itself stored at the place it names. -/
theorem roundTrips_iff (pageSize fuel : Nat) (aligned : pageSize ∣ frameSize)
    (enough : CACHE_BLOCK_COUNT ≤ fuel) (t : CacheTable) (m : Memory) (shows : t.Shows m)
    (start : OptrAddr) (h : ValueFragmentHeader) :
    h.RoundTrips pageSize fuel t start ↔ start.val + 20 < 2 ^ 24 ∧
      (h.prevFlagment.val < 2 ^ 24 ∧ slice m h.prevFlagment 5 = Bytes.be 5 h.prevFlagment) ∧
      (h.nextFlagment.val < 2 ^ 24 ∧ slice m h.nextFlagment 5 = Bytes.be 5 h.nextFlagment) := by
  constructor
  · rintro ⟨g, t', run, prev, next, -, -⟩
    simp only [reimport, Option.bind_eq_bind, Option.bind_eq_some_iff, Prod.exists] at run
    obtain ⟨bytes, h', t₁, exports, t₂, written, imports⟩ := run
    have low := low_of_importBinary start.isLt imports
    obtain ⟨lowPrev, lowNext⟩ := low_of_exportBianry exports
    obtain ⟨u₁, exports', shows₁⟩ := exportBianry_run shows aligned enough lowPrev lowNext
    obtain ⟨rfl, -, rfl⟩ : bytes = h.exported m ∧ _ ∧ t₁ = u₁ := by simpa [exports'] using exports.symm
    obtain ⟨u₂, written', shows₂⟩ := CacheTable.copyIn_run shows₁ aligned enough start (h.exported m)
      (by omega) (by simp [DEFAULT_VALUE_FLAGMENT_HEADER_SIZE, VALUE_FLAGMENT_ADDR_SIZE])
    obtain rfl : u₂ = t₂ := Option.some_inj.mp (written'.symm.trans written)
    obtain ⟨u₃, imports', -⟩ := importBinary_run shows₂ aligned enough low
    obtain ⟨rfl, -⟩ : imported (lay m start (h.exported m)) start = g ∧ u₃ = t' := by
      simpa [imports'] using imports
    rw [imported_lay, ofNat_ofBe_eq_iff (length_slice ..)] at prev next
    exact ⟨low, ⟨lowPrev, prev⟩, lowNext, next⟩
  · rintro ⟨low, ⟨lowPrev, prev⟩, lowNext, next⟩
    obtain ⟨t₁, exports, shows₁⟩ := exportBianry_run shows aligned enough lowPrev lowNext
    obtain ⟨t₂, written, shows₂⟩ := CacheTable.copyIn_run shows₁ aligned enough start (h.exported m)
      (by omega) (by simp [DEFAULT_VALUE_FLAGMENT_HEADER_SIZE, VALUE_FLAGMENT_ADDR_SIZE])
    obtain ⟨t₃, imports, -⟩ := importBinary_run shows₂ aligned enough low
    refine ⟨imported (lay m start (h.exported m)) start, t₃,
      by simp only [reimport, exports, written, imports, Option.bind_eq_bind, Option.bind_some], ?_⟩
    rw [imported_lay]
    exact ⟨(ofNat_ofBe_eq_iff (length_slice ..) _).mpr prev,
      (ofNat_ofBe_eq_iff (length_slice ..) _).mpr next, rfl, rfl⟩

/-- A file with the addresses 40 and 300 stored at 40 and at 300. -/
def selfStored : MappedFile where
  size := 4096
  bytes a := if a = 44 then 40 else if a = 303 then 1 else if a = 304 then 44 else 0

theorem roundTrips_selfStored : RoundTrips 4096 3 { file := selfStored } 65530
    { prevFlagment := 40, nextFlagment := 300, valueLength := 70000, timestamp := 1700000000 } := by
  refine (roundTrips_iff 4096 3 (by decide) le_rfl _ _ (CacheTable.shows_fresh _) _ _).mpr
    ⟨by decide, ?_, ?_⟩ <;>
    exact ⟨by decide, by decide⟩

/-- In a file of zeros the address of a fragment before is lost. -/
theorem roundTrips_fails : ¬RoundTrips 4096 3 { file := ⟨0, fun _ => 0⟩ } 100
    { prevFlagment := 28, nextFlagment := 0, valueLength := 5, timestamp := 1700000000 } := by
  have lost : ∀ r ∈ reimport 4096 3 { file := ⟨0, fun _ => 0⟩ } 100
      { prevFlagment := 28, nextFlagment := 0, valueLength := 5, timestamp := 1700000000 },
      r.1.prevFlagment = 0 := by
    decide +kernel
  rintro ⟨g, t', run, kept, -⟩
  have zero := lost (g, t') run
  rw [kept] at zero
  exact absurd zero (by decide)

end ValueFragmentHeader

end MiyaCore
