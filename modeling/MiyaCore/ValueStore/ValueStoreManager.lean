import MiyaCore.PageTable.AllocatorRuns
import MiyaCore.ValueStore.FragmentHeader

/-!
# The value store

A value is stored behind its header in a region that the allocator of the store hands out. Values are
only added here; the regions then lie one behind the other, and the free chain has one block.
-/

namespace MiyaCore
open FlatMemory

/-- `ValueStoreManager`: the control file of its allocator, and the cache of the value file. -/
structure ValueStoreManager where
  control : ControlFile
  data : CacheTable

namespace ValueStoreManager

/-- `add`, both overloads. The header takes the time from the clock. -/
def add (pageSize fuel : Nat) (s : ValueStoreManager) (now : UInt64) (data : List UInt8) :
    Option (Nat × ValueStoreManager) := do
  let flagmentHeader : ValueFragmentHeader := { valueLength := UInt64.ofNat data.length, timestamp := now }
  let (exportedFlagmentHeader, flagmentHeader, t) ← flagmentHeader.exportBianry pageSize fuel s.data
  let (storeTargetOptr, control) ←
    (s.control.allocate ((exportedFlagmentHeader.length + data.length) % 2 ^ 64)).toOption
  let t ← t.copyIn pageSize fuel storeTargetOptr (exportedFlagmentHeader.take flagmentHeader.headerLength.toNat)
  let t ← t.copyIn pageSize fuel (← Optr.plus storeTargetOptr flagmentHeader.headerLength.toNat) data
  return (storeTargetOptr, { control, data := t })

/-- `get`: the length, and as many bytes. -/
def get (pageSize fuel : Nat) (s : ValueStoreManager) (targetOptr : Nat) :
    Option (Nat × List UInt8 × ValueStoreManager) := do
  let (flagmentHeader, t) ← ValueFragmentHeader.importBinary pageSize fuel s.data targetOptr
  let valueLength := flagmentHeader.valueLength.toNat
  let (ret, t) ← t.copyOut pageSize fuel (← Optr.plus targetOptr flagmentHeader.headerLength.toNat) valueLength
  return (valueLength, ret, { s with data := t })

/-- A call on a store. `get i` asks for the pointer that the `i`-th latest `add` returned. -/
inductive Call
  | add (now : UInt64) (data : List UInt8)
  | get (i : Nat)

/-- A store in use, with the pointers it has returned and the values they stand for, the latest first. -/
structure Session where
  store : ValueStoreManager
  added : List (Nat × List UInt8) := []

namespace Session

/-- A store whose control file has just been formatted. -/
def start (f : MappedFile) : Session where
  store := { control := ControlFile.formatted, data := { file := f } }

def step (pageSize fuel : Nat) (st : Session) : Call → Option Session
  | .add now data => do
    let (p, store) ← st.store.add pageSize fuel now data
    return { store, added := (p, data) :: st.added }
  | .get i =>
    match st.added[i]? with
    | none => some st
    | some (p, _) => do
      let (_, _, store) ← st.store.get pageSize fuel p
      return { st with store }

def run (pageSize fuel : Nat) : Session → List Call → Option Session
  | st, [] => some st
  | st, c :: calls => do
    let st ← st.step pageSize fuel c
    st.run pageSize fuel calls

end Session

/-- The values that the calls add, the latest first. -/
def Call.values : List Call → List (List UInt8)
  | [] => []
  | .add _ data :: calls => Call.values calls ++ [data]
  | .get _ :: calls => Call.values calls

/-- How many bytes the values take with their headers. -/
def stored (values : List (List UInt8)) : Nat :=
  (values.map fun v => DEFAULT_VALUE_FLAGMENT_HEADER_SIZE + v.length).sum

/-- The value `v` stands behind its header at `p`. -/
structure Record (m : Memory) (p : Nat) (v : List UInt8) : Prop where
  header : (ValueFragmentHeader.imported m p).headerLength.toNat = DEFAULT_VALUE_FLAGMENT_HEADER_SIZE
  length : (ValueFragmentHeader.imported m p).valueLength.toNat = v.length
  bytes : slice m (p + DEFAULT_VALUE_FLAGMENT_HEADER_SIZE) v.length = v

/-- The regions in use are the first `total` bytes of the file, and the one free block begins behind them. The
chain of unused blocks has at most the block that the last call put on it. -/
def Filled (f : ControlFile) (total count : Nat) : Prop :=
  ∃ R live b, ControlFile.Sound f R live ∧ R .free = [b] ∧ f.mapping b = total ∧ f.blockEnd b = 0 ∧
    (R .unUsed).length ≤ 1 ∧ f.controlBlockTail + 20 * (1 - (R .unUsed).length) ≤ 120 + 20 * count

/-- What holds of a store after any number of calls. -/
structure Holds (st : Session) (m : Memory) : Prop where
  shows : st.store.data.Shows m
  filled : Filled st.store.control (stored (st.added.map Prod.snd)) st.added.length
  records : ∀ p v, (p, v) ∈ st.added → Record m p v ∧
    p + DEFAULT_VALUE_FLAGMENT_HEADER_SIZE + v.length ≤ stored (st.added.map Prod.snd)

theorem filled_formatted : Filled ControlFile.formatted 0 0 :=
  ⟨_, [], 100, AllocState.sound_formatted, by simp, by decide, by decide, by simp, by simp; decide⟩

/-- A region is cut off the front of the free block, and the rest of it is the free block of the next call. -/
theorem Filled.allocate {f : ControlFile} {total count : Nat} (filled : Filled f total count)
    (size : Nat) (positive : 0 < size) (room : total + size < 2 ^ 24) (few : 20 * count + 140 < 2 ^ 24) :
    ∃ g, f.allocate size = .ok (total, g) ∧ Filled g (total + size) (count + 1) := by
  obtain ⟨R, live, b, sound, atFree, start, endless, short, tail⟩ := filled
  have onlyTarget : ∀ t, f.findFreeBlock (f.head .free) size = .ok t → t = b := by
    intro t found
    obtain ⟨b', member, found', -⟩ := sound.linked.findFreeBlock_ok sound.accounted sound.placed size
    rw [atFree, List.mem_singleton] at member
    exact (Except.ok.inj (found.symm.trans found')).trans member
  obtain ⟨t, g, S, member, -, run, soundG, cut⟩ :=
    sound.allocate positive (by omega) (by omega) fun t found => by
    rw [onlyTarget t found, start, atFree]
    exact ⟨room, fun _ => by simp⟩
  obtain rfl : t = b := by simpa [atFree] using member
  rw [start] at run
  refine ⟨g, run, ?_⟩
  have rest : (R .free).erase t = [] := by simp [atFree]
  rcases cut.free with gone | ⟨n, atRest, startN, endN⟩
  · obtain ⟨b', inFree, -⟩ := soundG.placed.endless
    rw [gone, rest] at inFree
    cases inFree
  · have unUsed := cut.unUsed
    have moved := cut.tail
    exact ⟨S, _, n, soundG, by rw [atRest, rest], by rw [startN, start], endN.trans endless, by omega, by omega⟩

theorem length_header : (UInt16.ofNat DEFAULT_VALUE_FLAGMENT_HEADER_SIZE).toNat =
    DEFAULT_VALUE_FLAGMENT_HEADER_SIZE := by
  decide

/-- What `add` writes is a record. -/
theorem record_lay (m : Memory) (p : Nat) {v : List UInt8} (small : v.length < 2 ^ 64) (now : UInt64) :
    Record (lay (lay m p (ValueFragmentHeader.exported m { valueLength := UInt64.ofNat v.length, timestamp := now }))
      (p + DEFAULT_VALUE_FLAGMENT_HEADER_SIZE) v) p v := by
  have header := ValueFragmentHeader.imported_congr (a := p) (fun i below => lay_of_outside
    (lay m p (ValueFragmentHeader.exported m { valueLength := UInt64.ofNat v.length, timestamp := now })) (l := v)
    (a := p + DEFAULT_VALUE_FLAGMENT_HEADER_SIZE) (Or.inl (Nat.add_lt_add_left below p)))
  rw [ValueFragmentHeader.imported_lay] at header
  refine ⟨by rw [header, length_header], ?_, slice_lay_self ..⟩
  rw [header, UInt64.toNat_ofNat']
  exact Nat.mod_eq_of_lt small

/-- What is written behind a record leaves it. -/
theorem Record.lay_behind {m : Memory} {p a : Nat} {v l : List UInt8} (record : Record m p v)
    (behind : p + DEFAULT_VALUE_FLAGMENT_HEADER_SIZE + v.length ≤ a) : Record (lay m a l) p v := by
  have header : ValueFragmentHeader.imported (lay m a l) p = ValueFragmentHeader.imported m p :=
    ValueFragmentHeader.imported_congr fun i below => lay_of_outside m (by omega)
  refine ⟨header ▸ record.header, header ▸ record.length, ?_⟩
  rw [slice_lay_of_disjoint m (by omega)]
  exact record.bytes

section Calls

variable {pageSize fuel : Nat} {m : Memory} {st : Session}

theorem holds_start (f : MappedFile) : Holds (Session.start f) f.content where
  shows := CacheTable.shows_fresh f
  filled := filled_formatted
  records p v member := by cases member

theorem stored_cons (v : List UInt8) (values : List (List UInt8)) :
    stored (v :: values) = stored values + (DEFAULT_VALUE_FLAGMENT_HEADER_SIZE + v.length) := by
  simp [stored, Nat.add_comm]

theorem stored_append (values rest : List (List UInt8)) :
    stored (values ++ rest) = stored values + stored rest := by
  simp [stored]

theorem length_le_stored (values : List (List UInt8)) : 28 * values.length ≤ stored values := by
  induction values with
  | nil => exact le_rfl
  | cons v values ih =>
    rw [stored_cons, List.length_cons, show DEFAULT_VALUE_FLAGMENT_HEADER_SIZE = 28 from rfl]
    omega

/-- The record of a new value is put behind the others. -/
theorem add_run (holds : Holds st m) (aligned : pageSize ∣ frameSize)
    (enough : CACHE_BLOCK_COUNT ≤ fuel) (now : UInt64) (data : List UInt8)
    (small : stored (data :: st.added.map Prod.snd) < 2 ^ 24) :
    ∃ p st' m', st.step pageSize fuel (.add now data) = some st' ∧ Holds st' m' ∧
      st'.added = (p, data) :: st.added := by
  obtain ⟨total, atTotal⟩ : ∃ total, stored (st.added.map Prod.snd) = total := ⟨_, rfl⟩
  have count := length_le_stored (st.added.map Prod.snd)
  rw [stored_cons, atTotal] at small
  rw [atTotal, List.length_map] at count
  have header : DEFAULT_VALUE_FLAGMENT_HEADER_SIZE = 28 := rfl
  let h : ValueFragmentHeader := { valueLength := UInt64.ofNat data.length, timestamp := now }
  obtain ⟨t₁, exports, shows₁⟩ := ValueFragmentHeader.exportBianry_run (h := h) holds.shows aligned enough
    (show 0 < 2 ^ 24 by norm_num) (show 0 < 2 ^ 24 by norm_num)
  have filled := holds.filled
  rw [atTotal] at filled
  obtain ⟨g, allocated, filled'⟩ := filled.allocate
    (DEFAULT_VALUE_FLAGMENT_HEADER_SIZE + data.length) (by omega) (by omega) (by omega)
  obtain ⟨t₂, wroteHeader, shows₂⟩ := CacheTable.copyIn_run shows₁ aligned enough total (h.exported m)
    (by omega) (by rw [ValueFragmentHeader.length_exported]; decide)
  obtain ⟨t₃, wroteData, shows₃⟩ := CacheTable.copyIn_run shows₂ aligned enough
    (total + DEFAULT_VALUE_FLAGMENT_HEADER_SIZE) data (by omega) (by omega)
  refine ⟨total, ⟨⟨g, t₃⟩, (total, data) :: st.added⟩, _, ?_, ⟨shows₃, ?_, ?_⟩, rfl⟩
  · have size : (DEFAULT_VALUE_FLAGMENT_HEADER_SIZE + data.length) % 2 ^ 64 =
      DEFAULT_VALUE_FLAGMENT_HEADER_SIZE + data.length :=
      Nat.mod_eq_of_lt (by omega)
    have whole : (h.exported m).take DEFAULT_VALUE_FLAGMENT_HEADER_SIZE = h.exported m :=
      List.take_of_length_le (ValueFragmentHeader.length_exported m h).le
    have plus : Optr.plus total DEFAULT_VALUE_FLAGMENT_HEADER_SIZE =
      some (total + DEFAULT_VALUE_FLAGMENT_HEADER_SIZE) :=
      plus_of_lt (by omega) (by decide)
    have added : st.store.add pageSize fuel now data = some (total, ⟨g, t₃⟩) := by
      simp only [add, exports, ValueFragmentHeader.length_exported, size, allocated, length_header,
        whole, wroteHeader, plus, wroteData, Except.toOption, Option.bind_eq_bind, Option.bind_some,
        Option.pure_def, h]
    simp only [Session.step, added, Option.bind_eq_bind, Option.bind_some, Option.pure_def]
  · rw [List.map_cons, stored_cons, atTotal]
    exact filled'
  · intro p v member
    rw [List.map_cons, stored_cons, atTotal]
    rcases List.mem_cons.mp member with new | old
    · obtain ⟨rfl, rfl⟩ : p = total ∧ v = data := by simpa using new
      exact ⟨record_lay m p (by omega) now, (Nat.add_assoc ..).le⟩
    · obtain ⟨record, below⟩ := holds.records p v old
      rw [atTotal] at below
      exact ⟨(record.lay_behind below).lay_behind (by omega), by omega⟩

/-- A record is read whole. -/
theorem get_run (holds : Holds st m) (aligned : pageSize ∣ frameSize) (enough : CACHE_BLOCK_COUNT ≤ fuel)
    (small : stored (st.added.map Prod.snd) < 2 ^ 24) {p : Nat} {v : List UInt8} (member : (p, v) ∈ st.added) :
    ∃ t, st.store.get pageSize fuel p = some (v.length, v, { st.store with data := t }) ∧ t.Shows m := by
  obtain ⟨record, below⟩ := holds.records p v member
  have header : DEFAULT_VALUE_FLAGMENT_HEADER_SIZE = 28 := rfl
  obtain ⟨t₁, imports, shows₁⟩ := ValueFragmentHeader.importBinary_run holds.shows aligned enough
    (a := p) (by omega)
  obtain ⟨t₂, read, shows₂⟩ := CacheTable.copyOut_run shows₁ aligned enough
    (p + DEFAULT_VALUE_FLAGMENT_HEADER_SIZE) v.length (by omega) (by omega)
  have plus : Optr.plus p DEFAULT_VALUE_FLAGMENT_HEADER_SIZE = some (p + DEFAULT_VALUE_FLAGMENT_HEADER_SIZE) :=
    plus_of_lt (by omega) (by decide)
  rw [record.bytes] at read
  refine ⟨t₂, ?_, shows₂⟩
  rw [get, imports, Option.bind_eq_bind, Option.bind_some]
  dsimp only
  rw [record.header, record.length, plus, Option.bind_eq_bind, Option.bind_some, read, Option.bind_eq_bind,
    Option.bind_some, Option.pure_def]

/-- The store after a call holds the values of before and those that the call adds. -/
theorem step_run (holds : Holds st m) (aligned : pageSize ∣ frameSize)
    (enough : CACHE_BLOCK_COUNT ≤ fuel) (c : Call)
    (small : stored (Call.values [c] ++ st.added.map Prod.snd) < 2 ^ 24) :
    ∃ st' m' new, st.step pageSize fuel c = some st' ∧ Holds st' m' ∧ st'.added = new ++ st.added ∧
      new.map Prod.snd = Call.values [c] := by
  cases c with
  | add now data =>
    obtain ⟨p, st', m', ran, holds', added⟩ :=
      add_run holds aligned enough now data (by simpa [Call.values] using small)
    exact ⟨st', m', [(p, data)], ran, holds', added, rfl⟩
  | get i =>
    cases asked : st.added[i]? with
    | none => exact ⟨st, m, [], by simp only [Session.step, asked], holds, rfl, rfl⟩
    | some entry =>
      obtain ⟨p, v⟩ := entry
      have member : (p, v) ∈ st.added := List.mem_of_getElem? asked
      obtain ⟨t, ran, shows⟩ := get_run holds aligned enough (by simpa [Call.values] using small) member
      refine ⟨{ st with store := { st.store with data := t } }, m, [], ?_,
        ⟨shows, holds.filled, holds.records⟩, rfl, rfl⟩
      simp only [Session.step, asked, ran, Option.bind_eq_bind, Option.bind_some, Option.pure_def]

theorem values_cons (c : Call) (calls : List Call) :
    Call.values (c :: calls) = Call.values calls ++ Call.values [c] := by
  cases c <;> simp [Call.values]

theorem run_run (holds : Holds st m) (aligned : pageSize ∣ frameSize)
    (enough : CACHE_BLOCK_COUNT ≤ fuel) (calls : List Call)
    (small : stored (Call.values calls ++ st.added.map Prod.snd) < 2 ^ 24) :
    ∃ st' m', st.run pageSize fuel calls = some st' ∧ Holds st' m' ∧
      st'.added.map Prod.snd = Call.values calls ++ st.added.map Prod.snd := by
  induction calls generalizing st m with
  | nil => exact ⟨st, m, rfl, holds, rfl⟩
  | cons c calls ih =>
    rw [values_cons, List.append_assoc] at small ⊢
    have first : stored (Call.values [c] ++ st.added.map Prod.snd) < 2 ^ 24 := by
      rw [stored_append] at small
      omega
    obtain ⟨st₁, m₁, new, ran, holds₁, added, values⟩ := step_run holds aligned enough c first
    have now : st₁.added.map Prod.snd = Call.values [c] ++ st.added.map Prod.snd := by
      rw [added, List.map_append, values]
    obtain ⟨st₂, m₂, rest, holds₂, added₂⟩ := ih holds₁ (by rw [now]; exact small)
    refine ⟨st₂, m₂, ?_, holds₂, by rw [added₂, now]⟩
    simp only [Session.run, ran, rest, Option.bind_eq_bind, Option.bind_some]

end Calls

/-- The store returns what was added: whatever calls come between, `get` on the pointer that an `add`
returned has the value's length and its bytes, as long as the values and their headers stay below 2^24. -/
theorem get_of_added (pageSize fuel : Nat) (aligned : pageSize ∣ frameSize) (enough : CACHE_BLOCK_COUNT ≤ fuel)
    (f : MappedFile) (calls : List Call) (small : stored (Call.values calls) < 2 ^ 24) :
    ∃ st, (Session.start f).run pageSize fuel calls = some st ∧ st.added.map Prod.snd = Call.values calls ∧
      ∀ p v, (p, v) ∈ st.added → ∃ store, st.store.get pageSize fuel p = some (v.length, v, store) := by
  have nothing : (Session.start f).added.map Prod.snd = [] := rfl
  obtain ⟨st, m, ran, holds, added⟩ := run_run (holds_start f) aligned enough calls
    (by rw [nothing, List.append_nil]; exact small)
  rw [nothing, List.append_nil] at added
  refine ⟨st, ran, added, fun p v member => ?_⟩
  obtain ⟨t, got, -⟩ := get_run holds aligned enough (by rw [added]; exact small) member
  exact ⟨_, got⟩

/-- The second value begins in one frame and ends in the next. -/
theorem get_of_added_crossing :
    ∃ st, (Session.start ⟨0, fun _ => 0⟩).run 4096 3
        [.add 1700000000 (List.replicate 65470 7), .get 0, .add 1700000001 (List.replicate 40 9),
    .get 1] = some st ∧
      st.added.map Prod.snd = [List.replicate 40 9, List.replicate 65470 7] ∧
      ∀ p v, (p, v) ∈ st.added → ∃ store, st.store.get 4096 3 p = some (v.length, v, store) :=
  get_of_added 4096 3 (by decide) le_rfl _ _ (by
    simp only [Call.values, stored, List.nil_append, List.cons_append, List.map_cons, List.map_nil, List.length_replicate]
    decide)

end ValueStoreManager

end MiyaCore
