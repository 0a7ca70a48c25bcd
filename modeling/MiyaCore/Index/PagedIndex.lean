import MiyaCore.Index.NodeBlock
import MiyaCore.Lockstep
import MiyaCore.SafeMode.Addresses
import MiyaCore.ValueStore.ValueStoreManager

/-!
# The index over pages

The node blocks of an index lie in a file of which three frames are mapped at a time, in regions that the
allocator hands out. Whatever a client does with nodes, it gets the answers of the file of node blocks.
-/

namespace MiyaCore
open FlatMemory Bytes Lockstep

def META_ROOT_NODE_OFFSET : Nat := 20

/-- `FORMAT_CODE`. -/
def FORMAT_CODE : List UInt8 := be 20 formatCode

/-- `ocmp` of bytes in the file, from the `i`th on, with bytes in memory. -/
def CacheTable.ocmp (pageSize fuel o1 : Nat) : (p2 : List UInt8) → (i : Nat) → CacheTable → Option (Int × CacheTable)
  | [], _, t => some (0, t)
  | v :: p2, i, t => do
    let (b, t) ← t.value pageSize fuel (← Optr.plus o1 i)
    if b = v then ocmp pageSize fuel o1 p2 (i + 1) t
    else
      let (b, t) ← t.value pageSize fuel (← Optr.plus o1 i)
      return (if b ≤ v then -1 else 1, t)

/-- The calls that reach the index file: those on a node, and those of `ONode` and `OBtree` that make nodes and
move the root. -/
inductive IndexCall
  | node (p : Nat) (call : NodeCall)
  | newONode
  | setMetaRoot (root : Nat)
  | openFile

/-- The index file with the control file of its allocator. -/
structure PagedIndex where
  control : ControlFile
  data : CacheTable

namespace PagedIndex
variable (pageSize fuel : Nat)

/-- The constructor of `ONode` without an address. -/
def newONode (x : PagedIndex) : Option (Nat × PagedIndex) := do
  let (baseOptr, control) ← (x.control.allocate O_NODE_ITEMSET_SIZE).toOption
  let data ← ONodeItemSet.clear pageSize fuel x.data baseOptr
  return (baseOptr, { control, data })

/-- What `rootONode` writes to the meta area. -/
def setMetaRoot (x : PagedIndex) (root : Nat) : Option PagedIndex := do
  let data ← x.data.copyIn pageSize fuel (← Optr.plus 0 META_ROOT_NODE_OFFSET) (be NODE_OPTR_SIZE root)
  return { x with data }

/-- The constructor of `OBtree`: the address of the root. -/
def openFile (x : PagedIndex) : Option (Nat × PagedIndex) := do
  let (order, data) ← CacheTable.ocmp pageSize fuel 0 FORMAT_CODE 0 x.data
  if order ≠ 0 then
    let (_, control) ← (x.control.allocate 100).toOption
    let (rootONode, x) ← newONode pageSize fuel { control, data }
    let x ← x.setMetaRoot pageSize fuel rootONode
    let data ← x.data.copyIn pageSize fuel 0 FORMAT_CODE
    return (rootONode, { x with data })
  else
    let (rootNodeOAddr, data) ← data.copyOut pageSize fuel (← Optr.plus 0 META_ROOT_NODE_OFFSET) 5
    return (ofBe rootNodeOAddr, { x with data })

/-- A call on the files. A tree is opened by a new process, with nothing mapped. -/
def serve (x : PagedIndex) : IndexCall → Option (Option Nat × PagedIndex)
  | .node p call => (x.data.node pageSize fuel p call).map fun r => (r.1, { x with data := r.2 })
  | .newONode => (x.newONode pageSize fuel).map fun r => (some r.1, r.2)
  | .setMetaRoot root => (x.setMetaRoot pageSize fuel root).map (none, ·)
  | .openFile => ({ x with data := { file := x.data.file } } : PagedIndex).openFile pageSize fuel |>.map fun r =>
    (some r.1, r.2)

/-- A control file that has just been formatted, and a data file. -/
def start (f : MappedFile) : PagedIndex := ⟨ControlFile.formatted, { file := f }⟩

end PagedIndex

namespace IndexFile

instance decidableIsNode (s : IndexFile) (q : Nat) : Decidable (s.IsNode q) :=
  inferInstanceAs (Decidable (100 ≤ q ∧ q < s.top ∧ (q - 100) % 103 = 0))

/-- A call on the file of node blocks, which stays inside the nodes and below 2^24. -/
def serve (s : IndexFile) : IndexCall → Option (Option Nat × IndexFile)
  | .node p call =>
    if s.IsNode p ∧ (s.node p).Within call then
      some (((s.node p).call call).1, s.edit p fun it => (it.call call).2)
    else none
  | .newONode => if 100 ≤ s.top ∧ s.top + 103 < 2 ^ 24 then some (some s.top, s.newONode.2) else none
  | .setMetaRoot root => if root < 2 ^ 40 then some (none, s.setMetaRoot root) else none
  | .openFile =>
    if s.head.formatCode = formatCode ∨ s.top = 0 then
      some (some (OBtree.openFile s).rootONode, (OBtree.openFile s).file)
    else none

/-- No node yet, and the meta area that the bytes of a file spell. -/
def unformatted (m : Memory) : IndexFile := { head := ⟨ofBe (slice m 0 20), ofBe (slice m 20 5)⟩ }

end IndexFile

namespace CacheTable
variable {t : CacheTable} {m : Memory} {pageSize fuel : Nat}

/-- Bytes that are the same compare as equal, others do not. -/
theorem ocmp_run (shows : t.Shows m) (aligned : pageSize ∣ frameSize) (enough : CACHE_BLOCK_COUNT ≤ fuel)
    (o1 : Nat) (p2 : List UInt8) (i : Nat) (low : o1 + (i + p2.length) ≤ 2 ^ 24) (small : i + p2.length < 2 ^ 24) :
    ∃ order t', ocmp pageSize fuel o1 p2 i t = some (order, t') ∧ t'.Shows m ∧
      (order = 0 ↔ slice m (o1 + i) p2.length = p2) := by
  induction p2 generalizing i t with
  | nil => exact ⟨0, t, rfl, shows, iff_of_true rfl rfl⟩
  | cons v p2 ih =>
    rw [List.length_cons] at low small
    have plus : Optr.plus o1 i = some (o1 + i) := plus_of_lt (by omega) (by omega)
    obtain ⟨t₁, read, shows₁⟩ := value_run shows aligned enough (a := o1 + i) (by omega)
    rw [List.length_cons, slice_succ]
    by_cases same : m (o1 + i) = v
    · obtain ⟨order, t', run, shows', equal⟩ := ih shows₁ (i + 1) (by omega) (by omega)
      refine ⟨order, t', ?_, shows', ?_⟩
      · simp only [ocmp, plus, read, same, if_true, run, Option.bind_eq_bind, Option.bind_some]
      · rw [equal, same, List.cons.injEq, and_iff_right rfl, Nat.add_assoc]
    · obtain ⟨t', again, shows'⟩ := value_run shows₁ aligned enough (a := o1 + i) (by omega)
      refine ⟨if m (o1 + i) ≤ v then -1 else 1, t', ?_, shows', iff_of_false ?_ ?_⟩
      · simp only [ocmp, plus, read, same, if_false, again, Option.bind_eq_bind, Option.bind_some, Option.pure_def]
      · split_ifs <;> decide
      · exact fun both => same (List.cons.inj both).1

/-- What a new process finds in the file. -/
theorem Shows.restart (shows : t.Shows m) : ({ file := t.file } : CacheTable).Shows m :=
  shows.content ▸ shows_fresh t.file

end CacheTable

namespace PagedIndex
variable {x : PagedIndex} {s : IndexFile} {m : Memory} {pageSize fuel : Nat}

/-- The memory has the meta area and the nodes of the file. -/
structure Spells (m : Memory) (s : IndexFile) : Prop where
  code : slice m 0 20 = be 20 s.head.formatCode ∧ s.head.formatCode < 256 ^ 20
  root : slice m 20 5 = be 5 s.head.root ∧ s.head.root < 256 ^ 5
  nodes : ∀ p, s.IsNode p → (s.node p).LiesAt m p

/-- Nothing but nodes lies behind the meta area, and the regions in use are these. -/
structure Regions (f : ControlFile) (s : IndexFile) : Prop where
  filled : ∃ count, ValueStoreManager.Filled f s.top count ∧ 100 * count ≤ s.top
  blocks : s.top = 0 ∨ 100 ≤ s.top ∧ (s.top - 100) % 103 = 0
  low : s.top < 2 ^ 24

/-- The files show the file of node blocks. -/
def Shows (x : PagedIndex) (s : IndexFile) : Prop := Regions x.control s ∧ ∃ m, x.data.Shows m ∧ Spells m s

theorem Regions.inside (regions : Regions x.control s) {p : Nat} (isNode : s.IsNode p) :
    100 ≤ p ∧ p + 103 ≤ s.top := by
  obtain ⟨above, below, block⟩ := isNode
  have blocks := regions.blocks
  omega

/-- Two nodes do not overlap. -/
theorem isNode_apart {p q : Nat} (isP : s.IsNode p) (isQ : s.IsNode q) (other : q ≠ p) :
    q + 103 ≤ p ∨ p + 103 ≤ q := by
  obtain ⟨aboveP, -, blockP⟩ := isP
  obtain ⟨aboveQ, -, blockQ⟩ := isQ
  omega

/-- The meta area stays when nothing is written in front. -/
theorem Spells.head_congr {m' : Memory} (spells : Spells m s) (same : ∀ x < 100, m' x = m x) :
    slice m' 0 20 = be 20 s.head.formatCode ∧ slice m' 20 5 = be 5 s.head.root := by
  rw [← spells.code.1, ← spells.root.1]
  exact ⟨slice_congr fun i below => same _ (by omega), slice_congr fun i below => same _ (by omega)⟩

/-- The format code in the file tells whether there is a tree. -/
theorem Spells.formatted_iff (spells : Spells m s) : slice m 0 20 = FORMAT_CODE ↔ s.head.formatCode = formatCode := by
  rw [spells.code.1, FORMAT_CODE]
  refine ⟨fun same => ?_, fun same => by rw [same]⟩
  have number := congrArg ofBe same
  rwa [ofBe_be, ofBe_be, Nat.mod_eq_of_lt spells.code.2, Nat.mod_eq_of_lt (by decide)] at number

section Steps
variable (aligned : pageSize ∣ frameSize) (enough : CACHE_BLOCK_COUNT ≤ fuel)
include aligned enough

theorem node_shows (shows : x.Shows s) {p : Nat} {call : NodeCall} (isNode : s.IsNode p)
    (within : (s.node p).Within call) :
    ∃ x', x.serve pageSize fuel (.node p call) = some (((s.node p).call call).1, x') ∧
      x'.Shows (s.edit p fun it => (it.call call).2) := by
  obtain ⟨regions, m, shown, spells⟩ := shows
  obtain ⟨above, below⟩ := regions.inside isNode
  have low := regions.low
  obtain ⟨t', run, m', shown', lies, beside⟩ :=
    ONodeItemSet.node_run shown aligned enough (by omega) (spells.nodes p isNode) within
  obtain ⟨code, root⟩ := spells.head_congr fun x front => beside x (by omega)
  refine ⟨{ x with data := t' }, by rw [serve, run]; rfl, ⟨regions.filled, regions.blocks, low⟩, m', shown',
    ⟨code, spells.code.2⟩, ⟨root, spells.root.2⟩, fun q isQ => ?_⟩
  have isQ : s.IsNode q := isQ
  by_cases here : q = p
  · rw [here, show (s.edit p fun it => (it.call call).2).node p = ((s.node p).call call).2 from if_pos rfl]
    exact lies
  · rw [show (s.edit p fun it => (it.call call).2).node q = s.node q from if_neg here]
    have apart := isNode_apart isNode isQ here
    exact (spells.nodes q isQ).beside fun i inside => beside _ (by omega)

theorem newONode_shows (shows : x.Shows s) (behind : 100 ≤ s.top) (room : s.top + 103 < 2 ^ 24) :
    ∃ x', x.newONode pageSize fuel = some (s.top, x') ∧ x'.Shows s.newONode.2 := by
  obtain ⟨regions, m, shown, spells⟩ := shows
  obtain ⟨count, filled, few⟩ := regions.filled
  obtain ⟨g, allocated, filled'⟩ := filled.allocate 103 (by decide) room (by omega)
  obtain ⟨t', run, m', shown', lies, beside⟩ := ONodeItemSet.clear_run shown aligned enough (p := s.top) (by omega)
  obtain ⟨code, root⟩ := spells.head_congr fun x front => beside x (by omega)
  have blocks := regions.blocks
  refine ⟨⟨g, t'⟩, ?_, ⟨⟨count + 1, filled', by simp only [IndexFile.newONode]; omega⟩, ?_, room⟩, m', shown',
    ⟨code, spells.code.2⟩, ⟨root, spells.root.2⟩, fun q isQ => ?_⟩
  · rw [newONode, show O_NODE_ITEMSET_SIZE = 103 from rfl, allocated]
    simp only [Except.toOption, run, Option.bind_eq_bind, Option.bind_some, Option.pure_def]
  · simp only [IndexFile.newONode]
    omega
  · obtain ⟨above, below, block⟩ := isQ
    simp only [IndexFile.newONode] at below ⊢
    by_cases new : q = s.top
    · rw [if_pos new, new]
      exact lies
    · rw [if_neg new]
      exact (spells.nodes q ⟨above, by omega, block⟩).beside fun i inside => beside _ (by omega)

theorem setMetaRoot_shows (shows : x.Shows s) {root : Nat} (small : root < 2 ^ 40) :
    ∃ x', x.setMetaRoot pageSize fuel root = some x' ∧ x'.Shows (s.setMetaRoot root) := by
  obtain ⟨regions, m, shown, spells⟩ := shows
  obtain ⟨t', run, shown'⟩ := CacheTable.copyIn_run shown aligned enough 20 (be 5 root) (by decide) (by simp)
  have plus : Optr.plus 0 META_ROOT_NODE_OFFSET = some 20 := by decide
  have back := slice_lay_self m 20 (be 5 root)
  rw [length_be] at back
  refine ⟨{ x with data := t' }, ?_, ⟨regions.filled, regions.blocks, regions.low⟩, _, shown', ⟨?_, spells.code.2⟩,
    ⟨back, small⟩, fun q isQ => (spells.nodes q isQ).beside fun i inside => lay_of_outside m ?_⟩
  · simp only [setMetaRoot, plus, show NODE_OPTR_SIZE = 5 from rfl, run, Option.bind_eq_bind, Option.bind_some,
      Option.pure_def]
  · rw [slice_lay_of_disjoint m (by omega)]
    exact spells.code.1
  · have above := isQ.1
    rw [length_be]
    omega

theorem setFormat_shows (shows : x.Shows s) :
    ∃ t', x.data.copyIn pageSize fuel 0 FORMAT_CODE = some t' ∧
      ({ x with data := t' } : PagedIndex).Shows { s with head := { s.head with formatCode := formatCode } } := by
  obtain ⟨regions, m, shown, spells⟩ := shows
  have length : FORMAT_CODE.length = 20 := length_be ..
  obtain ⟨t', run, shown'⟩ := CacheTable.copyIn_run shown aligned enough 0 FORMAT_CODE (by decide) (by omega)
  have back := slice_lay_self m 0 FORMAT_CODE
  rw [length] at back
  refine ⟨t', run, ⟨regions.filled, regions.blocks, regions.low⟩, _, shown',
    ⟨back, show formatCode < 256 ^ 20 by decide⟩, ⟨?_, spells.root.2⟩,
    fun q isQ => (spells.nodes q isQ).beside fun i inside => lay_of_outside m ?_⟩
  · rw [slice_lay_of_disjoint m (by omega)]
    exact spells.root.1
  · have above := isQ.1
    omega

theorem openFile_shows (shows : x.Shows s) (fit : s.head.formatCode = formatCode ∨ s.top = 0) :
    ∃ x', x.openFile pageSize fuel = some ((OBtree.openFile s).rootONode, x') ∧
      x'.Shows (OBtree.openFile s).file := by
  obtain ⟨regions, m, shown, spells⟩ := shows
  have length : FORMAT_CODE.length = 20 := length_be ..
  obtain ⟨order, t₁, compared, shown₁, equal⟩ :=
    CacheTable.ocmp_run shown aligned enough 0 FORMAT_CODE 0 (by omega) (by omega)
  rw [length, spells.formatted_iff] at equal
  by_cases formatted : s.head.formatCode = formatCode
  · obtain ⟨t', read, shown'⟩ := CacheTable.copyOut_run shown₁ aligned enough 20 5 (by decide) (by decide)
    have plus : Optr.plus 0 META_ROOT_NODE_OFFSET = some 20 := by decide
    have root : ofBe (slice m 20 5) = s.head.root := by
      rw [spells.root.1, ofBe_be, Nat.mod_eq_of_lt spells.root.2]
    rw [show OBtree.openFile s = ⟨s, s.head.root⟩ from if_pos formatted]
    refine ⟨{ x with data := t' }, ?_, regions, m, shown', spells⟩
    simp only [openFile, compared, equal.mpr formatted, ne_eq, not_true_eq_false, if_false, plus, read, root,
      Option.bind_eq_bind, Option.bind_some, Option.pure_def]
  · have empty : s.top = 0 := fit.resolve_left formatted
    obtain ⟨count, filled, few⟩ := regions.filled
    obtain ⟨g, allocated, filled'⟩ := filled.allocate 100 (by decide) (by omega) (by omega)
    have aside : (⟨g, t₁⟩ : PagedIndex).Shows { s with top := s.top + 100 } := by
      refine ⟨⟨⟨count + 1, filled', ?_⟩, ?_, ?_⟩, m, shown₁, spells.code, spells.root, fun q isQ => ?_⟩
      · dsimp only
        omega
      · dsimp only
        omega
      · dsimp only
        omega
      · obtain ⟨above, below, -⟩ := isQ
        dsimp only at below
        omega
    obtain ⟨x₂, made, shows₂⟩ := newONode_shows aligned enough aside (by dsimp only; omega) (by dsimp only; omega)
    obtain ⟨x₃, moved, shows₃⟩ := setMetaRoot_shows aligned enough shows₂ (show s.top + 100 < 2 ^ 40 by omega)
    obtain ⟨t', wrote, shows'⟩ := setFormat_shows aligned enough shows₃
    have open' : OBtree.openFile s = ⟨{ ({ s with top := s.top + 100 } : IndexFile).newONode.2 with
      head := ⟨formatCode, s.top + 100⟩ }, s.top + 100⟩ := if_neg formatted
    rw [open']
    refine ⟨{ x₃ with data := t' }, ?_, shows'⟩
    have different : order ≠ 0 := fun same => formatted (equal.mp same)
    simp only [openFile, compared, different, ne_eq, not_false_eq_true, if_true, allocated, Except.toOption, made,
      moved, wrote, Option.bind_eq_bind, Option.bind_some, Option.pure_def]

/-- Each call is served in the files as in the file of node blocks. -/
theorem serve_shows {call : IndexCall} {answer : Option Nat} {s' : IndexFile} (shows : x.Shows s)
    (served : s.serve call = some (answer, s')) :
    ∃ x', x.serve pageSize fuel call = some (answer, x') ∧ x'.Shows s' := by
  cases call with
  | node p call =>
    obtain ⟨⟨isNode, within⟩, same⟩ := Option.ite_none_right_eq_some.mp served
    cases same
    exact node_shows aligned enough shows isNode within
  | newONode =>
    obtain ⟨⟨behind, room⟩, same⟩ := Option.ite_none_right_eq_some.mp served
    cases same
    obtain ⟨x', run, shows'⟩ := newONode_shows aligned enough shows behind room
    exact ⟨x', by rw [serve, run]; rfl, shows'⟩
  | setMetaRoot root =>
    obtain ⟨small, same⟩ := Option.ite_none_right_eq_some.mp served
    cases same
    obtain ⟨x', run, shows'⟩ := setMetaRoot_shows aligned enough shows small
    exact ⟨x', by rw [serve, run]; rfl, shows'⟩
  | openFile =>
    obtain ⟨fit, same⟩ := Option.ite_none_right_eq_some.mp served
    cases same
    obtain ⟨regions, m, shown, spells⟩ := shows
    obtain ⟨x', run, shows'⟩ := openFile_shows aligned enough
      (x := { x with data := { file := x.data.file } }) ⟨regions, m, shown.restart, spells⟩ fit
    exact ⟨x', by rw [serve, run]; rfl, shows'⟩

/-- A client that the file of node blocks serves is served in the files. -/
theorem client_shows {α : Type} {client : Client IndexCall (Option Nat) α} {a : α} {s' : IndexFile}
    (shows : x.Shows s) (ran : client.run IndexFile.serve s = some (a, s')) :
    ∃ x', client.run (serve pageSize fuel) x = some (a, x') ∧ x'.Shows s' := by
  have serves : ∀ (s : IndexFile) (x : PagedIndex) call answer s', x.Shows s → s.serve call = some (answer, s') →
      ∃ x', serve pageSize fuel x call = some (answer, x') ∧ x'.Shows s' :=
    fun _ _ _ _ _ shows served => serve_shows aligned enough shows served
  exact Client.run_serves serves shows ran

end Steps

theorem start_shows (f : MappedFile) : (start f).Shows (.unformatted f.content) := by
  have code := ofBe_lt (slice f.content 0 20)
  have root := ofBe_lt (slice f.content 20 5)
  rw [length_slice] at code root
  refine ⟨⟨⟨0, ValueStoreManager.filled_formatted, le_rfl⟩, .inl rfl, show 0 < 2 ^ 24 by decide⟩, f.content,
    CacheTable.shows_fresh f, ⟨?_, code⟩, ⟨?_, root⟩, fun q isQ => absurd isQ.2.1 (Nat.not_lt_zero q)⟩
  · exact (be_of_spells (length_slice ..) rfl).symm
  · exact (be_of_spells (length_slice ..) rfl).symm

/-- Whatever a client of the index asks, each time in view of the answers before, it gets from three mapped frames
what it gets from the file of node blocks, from an empty file on and across every reopening, as long as it keeps to
the nodes it was handed out and to their slots, and they end below 2^24. -/
theorem run_pages {α : Type} (pageSize fuel : Nat) (f : MappedFile) (aligned : pageSize ∣ frameSize)
    (enough : CACHE_BLOCK_COUNT ≤ fuel) (client : Client IndexCall (Option Nat) α) (a : α) (s : IndexFile)
    (ran : client.run IndexFile.serve (.unformatted f.content) = some (a, s)) :
    ∃ x, client.run (serve pageSize fuel) (start f) = some (a, x) ∧ x.Shows s :=
  client_shows aligned enough (start_shows f) ran

/-- A second node becomes the root, and the tree is opened again. -/
def rootMoved : Client IndexCall (Option Nat) (Option Nat × Option Nat × Option Nat) := do
  let first ← Client.one .openFile
  let second ← Client.one .newONode
  let _ ← Client.one (.node (second.getD 0) (.setKeyCount 1))
  let _ ← Client.one (.node (second.getD 0) (.setKey 0 7))
  let _ ← Client.one (.setMetaRoot (second.getD 0))
  let root ← Client.one .openFile
  let key ← Client.one (.node (root.getD 0) (.rawKey 0))
  return (first, root, key)

theorem run_pages_rootMoved :
    ∃ x, rootMoved.run (serve 4096 3) (start ⟨0, fun _ => 0⟩) = some ((some 100, some 203, some 7), x) := by
  obtain ⟨s, ran⟩ : ∃ s, rootMoved.run IndexFile.serve (.unformatted (⟨0, fun _ => 0⟩ : MappedFile).content) =
    some ((some 100, some 203, some 7), s) := ⟨_, rfl⟩
  obtain ⟨x, run, -⟩ := run_pages 4096 3 ⟨0, fun _ => 0⟩ (by decide) le_rfl rootMoved _ s ran
  exact ⟨x, run⟩

end PagedIndex

end MiyaCore
