import MiyaCore.SafeMode.Table
import MiyaCore.ValueStore.ValueStoreManager

/-!
# The engine over pages

The values of the engine lie in a file of which three frames are mapped at a time, in regions that the
allocator hands out. In the normal mode this engine does what the one with a flat memory does.
-/

namespace MiyaCore
open FlatMemory Bytes OBtree Hoare

namespace ValueStore
variable {v : ValueStore}

theorem data_write (p : Nat) (l : List UInt8) : (v.write p l).data = lay v.data p l := by
  funext i
  by_cases inside : p ≤ i ∧ i < p + l.length
  · obtain ⟨j, rfl⟩ := Nat.exists_eq_add_of_le inside.1
    have below : j < l.length := by omega
    rw [write_data_inside below, lay_of_inside v.data p below, List.getD_eq_getElem _ _ below]
  · rw [lay_of_outside v.data (by omega)]
    exact if_neg inside

/-- The header of the flat store is the exported one. -/
theorem header_eq_exported (valueLength timestamp : Nat) : v.header valueLength timestamp =
    ValueFragmentHeader.exported v.data
      { valueLength := UInt64.ofNat valueLength, timestamp := UInt64.ofNat timestamp } := by
  have low : ∀ n, le 8 (UInt64.ofNat n).toNat = le 8 n := by
    intro n
    have same := le_ofLe (le 8 n)
    rw [length_le, ofLe_le] at same
    rw [UInt64.toNat_ofNat', show 2 ^ 64 = 256 ^ 8 by norm_num, same]
  unfold header ValueFragmentHeader.exported
  rw [low, low]
  rfl

end ValueStore

namespace ValueStoreManager
variable {s : ValueStoreManager} {v : ValueStore} {pageSize fuel : Nat}

/-- The store in its files has the bytes of the flat one, in regions that lie one behind the other. -/
structure Keeps (s : ValueStoreManager) (v : ValueStore) : Prop where
  shows : s.data.Shows v.data
  filled : ∃ count, Filled s.control v.top count ∧ 28 * count ≤ v.top

theorem Keeps.get (keeps : s.Keeps v) (aligned : pageSize ∣ frameSize) (enough : CACHE_BLOCK_COUNT ≤ fuel) {p : Nat}
    (stores : v.Stores p) (room : v.top < 2 ^ 24) :
    ∃ s' : ValueStoreManager, s.get pageSize fuel p = some ((v.get p).length, v.get p, s') ∧ s'.Keeps v := by
  obtain ⟨start, inside⟩ := stores
  obtain ⟨t₁, imports, shows₁⟩ := ValueFragmentHeader.importBinary_run keeps.shows aligned enough (a := p) (by omega)
  have headerLength : (ValueFragmentHeader.imported v.data p).headerLength.toNat = 28 :=
    (congrArg (fun n => (UInt16.ofNat n).toNat) start).trans rfl
  have valueLength : (ValueFragmentHeader.imported v.data p).valueLength.toNat = ofLe (v.bytes (p + 12) 8) := by
    have below := ofLe_lt (v.bytes (p + 12) 8)
    rw [ValueStore.length_bytes] at below
    refine (UInt64.toNat_ofNat' ..).trans (Nat.mod_eq_of_lt (below.trans_eq ?_))
    norm_num
  obtain ⟨t₂, read, shows₂⟩ := CacheTable.copyOut_run shows₁ aligned enough (p + 28) (ofLe (v.bytes (p + 12) 8))
    (by omega) (by omega)
  have plus : Optr.plus p 28 = some (p + 28) := plus_of_lt (by omega) (by decide)
  have value : v.get p = slice v.data (p + 28) (ofLe (v.bytes (p + 12) 8)) := by
    unfold ValueStore.get
    rw [start]
    rfl
  refine ⟨{ s with data := t₂ }, ?_, shows₂, keeps.filled⟩
  rw [value, length_slice]
  rw [ValueStoreManager.get, imports, Option.bind_eq_bind, Option.bind_some]
  dsimp only
  rw [headerLength, valueLength, plus, Option.bind_eq_bind, Option.bind_some, read, Option.bind_eq_bind,
    Option.bind_some, Option.pure_def]

theorem Keeps.add (keeps : s.Keeps v) (aligned : pageSize ∣ frameSize) (enough : CACHE_BLOCK_COUNT ≤ fuel)
    (value : List UInt8) (timestamp : Nat) (room : v.top + (28 + value.length) < 2 ^ 24) :
    ∃ s' : ValueStoreManager, s.add pageSize fuel (UInt64.ofNat timestamp) value =
      some ((v.add value timestamp).1, s') ∧ s'.Keeps (v.add value timestamp).2 := by
  obtain ⟨count, filled, few⟩ := keeps.filled
  have header := ValueStore.header_eq_exported (v := v) value.length timestamp
  obtain ⟨h, isHeader⟩ : ∃ h : ValueFragmentHeader,
      h = { valueLength := UInt64.ofNat value.length, timestamp := UInt64.ofNat timestamp } := ⟨_, rfl⟩
  rw [← isHeader] at header
  have length : (v.header value.length timestamp).length = 28 := by
    rw [header]
    exact ValueFragmentHeader.length_exported v.data h
  obtain ⟨t₁, exports, shows₁⟩ := ValueFragmentHeader.exportBianry_run (h := h) keeps.shows aligned enough
    (by rw [isHeader]; exact show 0 < 2 ^ 24 by norm_num) (by rw [isHeader]; exact show 0 < 2 ^ 24 by norm_num)
  obtain ⟨g, allocated, filled'⟩ := filled.allocate (28 + value.length) (by omega) room (by omega)
  obtain ⟨t₂, wroteHeader, shows₂⟩ := CacheTable.copyIn_run shows₁ aligned enough v.top
    (v.header value.length timestamp) (by omega) (by omega)
  obtain ⟨t₃, wroteValue, shows₃⟩ := CacheTable.copyIn_run shows₂ aligned enough (v.top + 28) value (by omega)
    (by omega)
  have size : (28 + value.length) % 2 ^ 64 = 28 + value.length := Nat.mod_eq_of_lt (by omega)
  have wide : (UInt16.ofNat DEFAULT_VALUE_FLAGMENT_HEADER_SIZE).toNat = 28 := by decide
  have plus : Optr.plus v.top 28 = some (v.top + 28) := plus_of_lt (by omega) (by decide)
  have whole : (v.header value.length timestamp).take 28 = v.header value.length timestamp :=
    List.take_of_length_le length.le
  rw [← header] at exports
  refine ⟨⟨g, t₃⟩, ?_, ?_, count + 1, filled', ?_⟩
  · rw [ValueStoreManager.add, ← isHeader]
    simp only [exports, length, size, allocated, wide, whole, wroteHeader, plus, wroteValue, Except.toOption,
      Option.bind_eq_bind, Option.bind_some, Option.pure_def]
    rfl
  · have laid := ValueStore.data_write (v := v) v.top (v.header value.length timestamp ++ value)
    rw [lay_append, length] at laid
    change t₃.Shows (v.write v.top (v.header value.length timestamp ++ value)).data
    rw [laid]
    exact shows₃
  · change 28 * (count + 1) ≤ v.top + (28 + value.length)
    omega

end ValueStoreManager

/-- The engine in the normal mode, with its values in the files of a store. -/
structure PagedEngine where
  normal : OBtree
  values : ValueStoreManager

/-- The bytes that the additions take with their headers. -/
def Query.written : List Query → Nat
  | [] => 0
  | .add _ _ value _ :: qs => 28 + value.length + written qs
  | _ :: qs => written qs

namespace PagedEngine

/-- A new index, and a store whose control file has just been formatted. -/
def start (f : MappedFile) : PagedEngine :=
  ⟨OBtree.create, { control := ControlFile.formatted, data := { file := f } }⟩

/-- `add`, `get` and `remove` of `MMyISAM` in the normal mode. -/
def handle (pageSize fuel depth : Nat) (e : PagedEngine) : Query → Option (PagedEngine × Reply)
  | .add _ k value timestamp => do
    let (storeTarget, values) ← e.values.add pageSize fuel (UInt64.ofNat timestamp) value
    let normal ← (e.normal.add depth k storeTarget).toOption
    return (⟨normal, values⟩, .status true)
  | .get _ k => do
    match ← (e.normal.find depth k).toOption with
    | none => return (e, .value none)
    | some dataOptr =>
      let (_, value, values) ← e.values.get pageSize fuel dataOptr
      return ({ e with values }, .value (some value))
  | .remove _ k => do
    let normal ← (e.normal.remove depth k).toOption
    return ({ e with normal }, .status true)
  | .migrate _ | .commit _ _ | .abort _ => none

def serve (pageSize fuel depth : Nat) (e : PagedEngine) : List Query → Option (PagedEngine × List (Query × Reply))
  | [] => some (e, [])
  | q :: qs => do
    let (e, reply) ← e.handle pageSize fuel depth q
    let (e, replies) ← serve pageSize fuel depth e qs
    return (e, (q, reply) :: replies)

/-- The engine over pages shows the one with a flat memory. -/
structure Shows (p : PagedEngine) (e : MMyISAM) : Prop where
  normal : p.normal = e.normal
  values : p.values.Keeps e.values

/-- A new engine with the bytes of a file. -/
def flat (f : MappedFile) : MMyISAM := { normal := OBtree.create, values := { data := f.content } }

theorem shows_start (f : MappedFile) : (start f).Shows (flat f) where
  normal := rfl
  values := ⟨CacheTable.shows_fresh f, 0, ValueStoreManager.filled_formatted, le_rfl⟩

theorem flat_showsTable (f : MappedFile) : (flat f).ShowsTable {} := by
  obtain ⟨wellFormed, pairs⟩ := create_wellFormed
  refine ⟨⟨0, wellFormed, ?_, ?_⟩, List.Pairwise.nil, fun _ _ => rfl⟩
  · exact (congrArg (List.map fun x => (x.1, (flat f).values.get x.2)) pairs).symm
  · exact fun x member => absurd (pairs ▸ member) List.not_mem_nil

variable {p : PagedEngine} {e : MMyISAM} {S : Table} {pageSize fuel depth : Nat}

/-- What a normal search finds is stored. -/
theorem stores_of_find (table : e.ShowsTable S) (enough : levels S.rows.length ≤ depth) {k : Key} {d : Nat}
    (found : e.normal.find depth k = .ok (some d)) : e.values.Stores d := by
  obtain ⟨h, wellFormed, rows, stored⟩ := table.tree
  rw [show S.rows.length = (e.normal.pairs h).length by rw [rows, List.length_map]] at enough
  rw [find_run wellFormed (wellFormed.lt_levels.trans_le enough), Except.ok.injEq, Option.map_eq_some_iff] at found
  obtain ⟨x, first, rfl⟩ := found
  obtain ⟨g, indexed⟩ := wellFormed_iff.mp wellFormed
  obtain ⟨j, -, atLevel⟩ := List.mem_flatMap.mp (List.mem_of_find?_eq_some first)
  exact stored x (indexed.labelled.mem_inorder_of_level indexed.labelled.top atLevel)

/-- A query does the same over pages as in the flat memory, in which the values of the queries before it and its
own end below 2^24. -/
theorem Shows.handle (shows : p.Shows e) (aligned : pageSize ∣ frameSize) (enough : CACHE_BLOCK_COUNT ≤ fuel)
    (table : e.ShowsTable S) {q : Query} (fits : S.Fits e depth q) (normal : q.Normal)
    (room : e.values.top + Query.written [q] < 2 ^ 24) :
    ∃ p' e' a, p.handle pageSize fuel depth q = some (p', a) ∧ e.handle depth q = .ok (e', a) ∧ p'.Shows e' ∧
      e'.values.top = e.values.top + Query.written [q] := by
  obtain ⟨e', a, run⟩ := table.returns fits normal
  have same := shows.normal
  cases q with
  | add r k value timestamp =>
    obtain ⟨s, added, keeps⟩ := shows.values.add aligned enough value timestamp room
    obtain ⟨⟨e₁, flag⟩, ran, done⟩ := bind_eq_ok.mp run
    cases done
    unfold MMyISAM.add at ran
    rw [if_neg (show ¬0 ≤ r from not_le.mpr normal)] at ran
    obtain ⟨t, inserted, done⟩ := bind_eq_ok.mp ran
    cases done
    have inserted : e.normal.add depth k (e.values.add value timestamp).1 = .ok t := inserted
    refine ⟨⟨t, s⟩, _, _, ?_, run, ⟨rfl, keeps⟩, rfl⟩
    simp only [PagedEngine.handle, added, same, inserted, Except.toOption, Option.bind_eq_bind, Option.bind_some,
      Option.pure_def]
  | get r k =>
    obtain ⟨value, ran, done⟩ := bind_eq_ok.mp run
    cases done
    unfold MMyISAM.get at ran
    rw [if_neg (show ¬0 ≤ r from not_le.mpr normal)] at ran
    obtain ⟨found, search, done⟩ := bind_eq_ok.mp ran
    cases done
    cases found with
    | none =>
      refine ⟨p, _, _, ?_, run, shows, rfl⟩
      simp only [PagedEngine.handle, same, search, Except.toOption, Option.bind_eq_bind, Option.bind_some]
      rfl
    | some d =>
      obtain ⟨s, read, keeps⟩ := shows.values.get aligned enough (stores_of_find table (fits normal) search)
        (show e.values.top < 2 ^ 24 from room)
      refine ⟨{ p with values := s }, _, _, ?_, run, ⟨same, keeps⟩, rfl⟩
      simp only [PagedEngine.handle, same, search, read, Except.toOption, Option.bind_eq_bind, Option.bind_some]
      rfl
  | remove r k =>
    obtain ⟨⟨e₁, flag⟩, ran, done⟩ := bind_eq_ok.mp run
    cases done
    unfold MMyISAM.remove at ran
    rw [if_neg (show ¬0 ≤ r from not_le.mpr normal)] at ran
    obtain ⟨t, removed, done⟩ := bind_eq_ok.mp ran
    cases done
    refine ⟨{ p with normal := t }, _, _, ?_, run, ⟨rfl, shows.values⟩, rfl⟩
    simp only [PagedEngine.handle, same, removed, Except.toOption, Option.bind_eq_bind, Option.bind_some,
      Option.pure_def]
  | migrate r | commit r timestamp | abort r => exact normal.elim

theorem written_cons (q : Query) (qs : List Query) :
    Query.written (q :: qs) = Query.written [q] + Query.written qs := by
  cases q <;> simp [Query.written]

/-- Two steps down: over pages, in a flat memory and in a table the normal queries have the same replies, as long
as each addition has room for its nodes and all values with their headers end below 2^24. -/
theorem serve_pages (pageSize fuel depth : Nat) (p : PagedEngine) (e : MMyISAM) (S : Table) (qs : List Query)
    (aligned : pageSize ∣ frameSize) (enough : CACHE_BLOCK_COUNT ≤ fuel) (shows : p.Shows e) (table : e.ShowsTable S)
    (normal : ∀ q ∈ qs, q.Normal) (fits : S.FitsRun e depth qs) (room : e.values.top + Query.written qs < 2 ^ 24) :
    ∃ p' e' replies, p.serve pageSize fuel depth qs = some (p', replies) ∧ e.serve depth qs = .ok (e', replies) ∧
      p'.Shows e' ∧ e'.ShowsTable (qs.foldl Table.step S) ∧ replies.map Prod.fst = qs ∧ S.AnswersAll replies := by
  induction qs generalizing p e S with
  | nil => exact ⟨p, e, [], rfl, rfl, shows, table, rfl, trivial⟩
  | cons q qs ih =>
    rw [written_cons] at room
    rw [List.forall_mem_cons] at normal
    obtain ⟨p₁, e₁, a, paged, flat, shows₁, top⟩ :=
      shows.handle aligned enough table fits.1 normal.1 (by omega)
    obtain ⟨table₁, answered⟩ := table.handle fits.1 flat
    obtain ⟨p', e', replies, rest, restFlat, shows', table', asked, later⟩ :=
      ih p₁ e₁ (S.step q) shows₁ table₁ normal.2 (fits.2 e₁ a flat) (by omega)
    refine ⟨p', e', (q, a) :: replies, ?_, ?_, shows', table', by rw [List.map_cons, asked], answered, later⟩
    · simp only [PagedEngine.serve, paged, rest, Option.bind_eq_bind, Option.bind_some, Option.pure_def]
    · simp only [MMyISAM.serve, flat, restFlat, ok_bind]
      rfl

/-- The value ends in the second frame of the file. -/
theorem serve_pages_crossing : ∃ p' replies, (start ⟨0, fun _ => 0⟩).serve 4096 3 1
      [.add (-1) 7 (List.replicate 65520 3) 9, .get (-1) 7,
        .get (-1) 1329227995784915872903807060280344576] = some (p', replies) ∧
    replies.length = 3 ∧ Table.AnswersAll {} replies := by
  have indexRoom : (flat ⟨0, fun _ => 0⟩).normal.HasRoom 1 7 := by decide +kernel
  obtain ⟨value, long, length⟩ : ∃ value : List UInt8, value = List.replicate 65520 3 ∧ value.length = 65520 :=
    ⟨_, rfl, List.length_replicate⟩
  rw [← long]
  obtain ⟨p', -, replies, run, -, -, -, asked, answered⟩ := serve_pages 4096 3 1 (start ⟨0, fun _ => 0⟩)
    (flat ⟨0, fun _ => 0⟩) {}
    [.add (-1) 7 value 9, .get (-1) 7, .get (-1) 1329227995784915872903807060280344576] (by decide) le_rfl
    (shows_start _) (flat_showsTable _) (by simp [Query.Normal])
    (by simp [Table.FitsRun, Table.Fits, Table.step, length, indexRoom, levels_of_lt_three])
    (by rw [Query.written, length]; decide)
  exact ⟨p', replies, run, by rw [← List.length_map, asked]; rfl, answered⟩

end PagedEngine

end MiyaCore
