import MiyaCore.Chunks
import MiyaCore.Chain.Acceptance
import MiyaCore.Chain.Validation

namespace MiyaCore.Chain

open Chunks

/-- How many bytes of data follow an opcode byte in a raw script. -/
def dataSize (b : UInt8) : Nat := (OpCode.parse b).dataLength

theorem dataSize_le (b : UInt8) : dataSize b ≤ 255 := by
  rw [dataSize, OpCode.parse]
  split_ifs
  all_goals first | exact Nat.zero_le _ | exact Nat.le_of_lt_succ b.toNat_lt

theorem read_eq (b : Buffer) (n : Nat) : b.read n = Bytes.take? n (b.getD []) := by
  cases b <;> cases n <;> rfl

namespace Script

/-- What `Script::importRaw` makes of an opcode byte and its data. -/
def element (b : UInt8) (data : List UInt8) : OpCode × Buffer :=
  (OpCode.parse b, if data = [] then none else some data)

theorem getD_element (b : UInt8) (data : List UInt8) : (element b data).2.getD [] = data := by
  by_cases empty : data = [] <;> simp [element, empty]

theorem read_element {b : UInt8} {data : List UInt8} (whole : data.length = dataSize b) :
    (element b data).2.read (element b data).1.dataLength = some data := by
  rw [read_eq, getD_element]
  change Bytes.take? (dataSize b) data = some data
  simpa using Bytes.take?_append whole []

theorem parse_of_isData {b : UInt8} (isData : (OpCode.parse b).isData) : OpCode.parse b = .data b := by
  rw [OpCode.parse] at isData ⊢
  split_ifs at isData ⊢
  all_goals first | rfl | exact absurd isData Bool.false_ne_true

theorem parse_of_dataSize_pos {b : UInt8} (pos : 0 < dataSize b) : OpCode.parse b = .data b := by
  refine parse_of_isData ?_
  rw [dataSize] at pos
  cases code : OpCode.parse b with
  | data n => rfl
  | _ =>
    rw [code] at pos
    exact absurd pos (lt_irrefl 0)

theorem importLoop_zero (fuel : Nat) (raw : List UInt8) (s : Script) (i : Nat) :
    importLoop fuel raw 0 s i = some (s, i) := by
  cases fuel <;> rfl

/-- One round of the loop: the data is there, and the loop goes on behind it. -/
theorem importLoop_cons {fuel length : Nat} {b : UInt8} {rest : List UInt8} {s : Script} {i : Nat} :
    importLoop (fuel + 1) (b :: rest) (length + 1) s i = (Bytes.take? (dataSize b) rest).bind fun data =>
      importLoop fuel (rest.drop (dataSize b)) (length - dataSize b) (s ++ [element b data])
      (i + (1 + dataSize b)) := by
  rw [importLoop, if_neg (Nat.succ_ne_zero _)]
  change (if dataSize b = 0 then _ else _) = _
  split_ifs with none
  · simp [none, Bytes.take?, element, pushBack]
  · have is := parse_of_dataSize_pos (Nat.pos_of_ne_zero none)
    change (Bytes.take? (dataSize b) rest).bind _ = _
    cases taken : Bytes.take? (dataSize b) rest with
    | none => rfl
    | some data =>
      rw [Bytes.take?] at taken
      split_ifs at taken with there
      obtain rfl := Option.some.inj taken
      have some : rest.take (dataSize b) ≠ [] := by
        intro empty
        have length := List.length_take_of_le there
        rw [empty] at length
        exact none length.symm
      have less : length + 1 - (1 + dataSize b) = length - dataSize b := by omega
      have size : (OpCode.data b).dataLength = dataSize b := by rw [dataSize, is]
      simp only [Option.bind_some, pushBack, is, OpCode.isData, if_true, element, some, if_false, size,
        less, ← add_assoc]

/-- As many rounds as there are bytes are enough. -/
theorem importLoop_fuel {fuel fuel' length : Nat} {raw : List UInt8} {s : Script} {i : Nat}
    (enough : length ≤ fuel) (enough' : length ≤ fuel') :
    importLoop fuel raw length s i = importLoop fuel' raw length s i := by
  induction fuel generalizing fuel' length raw s i with
  | zero =>
    obtain rfl : length = 0 := by omega
    rw [importLoop_zero, importLoop_zero]
  | succ fuel ih =>
    obtain _ | length := length
    · rw [importLoop_zero, importLoop_zero]
    obtain _ | fuel' := fuel'
    · omega
    cases raw with
    | nil => rfl
    | cons b rest =>
      rw [importLoop_cons, importLoop_cons]
      refine congrArg _ (funext fun data => ih ?_ ?_) <;> omega

/-- What whole opcodes are read as. -/
def ofChunks (chunks : List (Chunk dataSize)) : Script := chunks.map fun x => element x.head x.body

/-- Whole opcodes are read one after the other. -/
theorem importLoop_join (chunks : List (Chunk dataSize)) (rest : List UInt8) (more : Nat)
    (s : Script) (i : Nat) :
    importLoop ((join chunks).length + more) (join chunks ++ rest) ((join chunks).length + more) s i =
      importLoop more rest more (s ++ ofChunks chunks) (i + (join chunks).length) := by
  induction chunks generalizing s i with
  | nil => simp [ofChunks]
  | cons x chunks ih =>
    have taken : Bytes.take? (dataSize x.head) (x.body ++ (join chunks ++ rest)) = some x.body := by
      simp [Bytes.take?, ← x.whole]
    have size : (join (x :: chunks)).length + more = dataSize x.head + ((join chunks).length + more) + 1 := by
      simp only [join_cons, List.length_cons, List.length_append, x.whole]
      omega
    rw [size, join_cons, List.cons_append, List.append_assoc, importLoop_cons, taken, Option.bind_some,
      Nat.add_sub_cancel_left, ← x.whole, List.drop_left, importLoop_fuel (by omega) le_rfl, ih,
      List.append_assoc]
    simp only [ofChunks, List.map_cons, List.singleton_append, List.length_cons, List.length_append]
    congr 1
    omega

/-- The loop only adds to the script. -/
theorem importLoop_prefix {fuel length : Nat} {raw : List UInt8} {s : Script} {i : Nat} {r : Script × Nat}
    (run : importLoop fuel raw length s i = some r) : s <+: r.1 := by
  induction fuel generalizing length raw s i with
  | zero =>
    obtain rfl := Option.some.inj run
    exact List.prefix_rfl
  | succ fuel ih =>
    obtain _ | length := length
    · rw [importLoop_zero] at run
      obtain rfl := Option.some.inj run
      exact List.prefix_rfl
    cases raw with
    | nil => simp [importLoop] at run
    | cons b rest =>
      rw [importLoop_cons, Option.bind_eq_some_iff] at run
      obtain ⟨data, -, next⟩ := run
      exact (List.prefix_append ..).trans (ih next)

theorem take?_eq_some {n : Nat} {l data : List UInt8} (taken : Bytes.take? n l = some data) :
    n ≤ l.length ∧ data = l.take n := by
  rw [Bytes.take?] at taken
  split_ifs at taken with there
  exact ⟨there, (Option.some.inj taken).symm⟩

/-- How far the loop gets: past the announced bytes by what the last opcode lacks in them, and
never past the end. -/
theorem importLoop_count {fuel length : Nat} {raw : List UInt8} {s : Script} {i : Nat} {r : Script × Nat}
    (run : importLoop fuel raw length s i = some r) (enough : length ≤ fuel) (there : length ≤ raw.length) :
    r.2 = i + length + overhang dataSize 0 (raw.take length) ∧ r.2 ≤ i + raw.length := by
  induction fuel generalizing length raw s i with
  | zero =>
    obtain rfl : length = 0 := by omega
    obtain rfl := Option.some.inj run
    simp [overhang]
  | succ fuel ih =>
    obtain _ | length := length
    · rw [importLoop_zero] at run
      obtain rfl := Option.some.inj run
      simp [overhang]
    cases raw with
    | nil => simp at there
    | cons b rest =>
      rw [List.length_cons] at there
      rw [importLoop_cons, Option.bind_eq_some_iff] at run
      obtain ⟨data, taken, next⟩ := run
      obtain ⟨fits, -⟩ := take?_eq_some taken
      obtain ⟨count, bound⟩ := ih next (by omega) (by rw [List.length_drop]; omega)
      rw [List.length_drop] at bound
      rw [count] at bound ⊢
      rw [List.take_succ_cons, overhang, List.length_cons]
      refine ⟨?_, by omega⟩
      rcases Nat.lt_or_ge length (dataSize b) with short | long
      · rw [Nat.sub_eq_zero_of_le (Nat.le_of_lt short), List.take_zero, overhang,
          overhang_of_length_le (by rw [List.length_take]; omega), List.length_take_of_le (by omega)]
        omega
      · have split : rest.take length = rest.take (dataSize b) ++ (rest.drop (dataSize b)).take
          (length - dataSize b) := by
          rw [← List.take_add, Nat.add_sub_cancel' long]
        rw [split, overhang_append (List.length_take_of_le fits)]
        omega

theorem importRaw_eq_some {s : Script} {raw : List UInt8} {length : Nat} {r : Script × Nat} :
    importRaw s raw length = some r ↔ importLoop length raw length s 0 = some r ∧ r.2 < 2 ^ 31 := by
  simp only [importRaw, Option.bind_eq_bind, Option.bind_eq_some_iff, Option.guard_eq_some',
    Option.pure_def, Option.some.injEq]
  constructor
  · rintro ⟨r', run, -, small, rfl⟩
    exact ⟨run, small⟩
  · rintro ⟨run, small⟩
    exact ⟨r, run, (), small, rfl⟩

theorem importRaw_join {chunks : List (Chunk dataSize)} (small : (join chunks).length < 2 ^ 31)
    (rest : List UInt8) (s : Script) :
    s.importRaw (join chunks ++ rest) (join chunks).length =
      some (s ++ ofChunks chunks, (join chunks).length) := by
  have whole := importLoop_join chunks rest 0 s 0
  rw [Nat.add_zero, importLoop_zero, Nat.zero_add] at whole
  exact importRaw_eq_some.mpr ⟨whole, small⟩

/-- What a script is built from: the four opcodes, and data of any length that a byte can tell. -/
inductive Item where
  | dup
  | hash160
  | equalVerify
  | checkSig
  | data (d : {l : List UInt8 // 1 ≤ l.length ∧ l.length ≤ 255})

namespace Item

def op : Item → OpCode
  | dup => .dup
  | hash160 => .hash160
  | equalVerify => .equalVerify
  | checkSig => .checkSig
  | data d => .data (UInt8.ofNat d.val.length)

def buffer : Item → Buffer
  | data d => some d.val
  | _ => none

def body (x : Item) : List UInt8 := x.buffer.getD []

/-- An item as it is exported. -/
def raw (x : Item) : List UInt8 := x.op.raw :: x.body

/-- The length of data does not spell one of the opcodes. -/
def Plain : Item → Prop
  | data d => d.val.length ∉ [0x76, 0x88, 0xa9, 0xac]
  | _ => True

theorem toNat_length (d : {l : List UInt8 // 1 ≤ l.length ∧ l.length ≤ 255}) :
    (UInt8.ofNat d.val.length).toNat = d.val.length := by
  rw [UInt8.toNat_ofNat', Nat.mod_eq_of_lt (Nat.lt_succ_of_le d.property.2)]

theorem parse_length_iff (d : {l : List UInt8 // 1 ≤ l.length ∧ l.length ≤ 255}) :
    OpCode.parse (UInt8.ofNat d.val.length) = .data (UInt8.ofNat d.val.length) ↔ (data d).Plain := by
  have spells : ∀ n : Nat, n < 256 → (UInt8.ofNat d.val.length = UInt8.ofNat n ↔ d.val.length = n) := by
    intro n small
    rw [← UInt8.toNat_inj, toNat_length, UInt8.toNat_ofNat', Nat.mod_eq_of_lt small]
  have dup := spells 0x76 (by norm_num)
  have hash160 := spells 0xa9 (by norm_num)
  have equalVerify := spells 0x88 (by norm_num)
  have checkSig := spells 0xac (by norm_num)
  simp only [OpCode.parse, Plain, List.mem_cons, List.not_mem_nil, or_false, not_or]
  split_ifs with a b c e
  · simp [← dup, a]
  · simp [← hash160, b]
  · simp [← equalVerify, c]
  · simp [← checkSig, e]
  · simp only [true_iff]
    exact ⟨mt dup.mpr a, mt equalVerify.mpr c, mt hash160.mpr b, mt checkSig.mpr e⟩

theorem length_body (x : Item) : x.body.length = x.op.dataLength := by
  cases x with
  | data d => exact (toNat_length d).symm
  | _ => rfl

theorem read_buffer (x : Item) : x.buffer.read x.op.dataLength = some x.body := by
  cases x with
  | data d => exact read_whole (toNat_length d).symm
  | _ => rfl

theorem exportElement_eq (x : Item) : exportElement (x.op, x.buffer) = some x.raw := by
  cases x with
  | data d =>
    change (Buffer.read _ _).bind _ = _
    rw [read_buffer (data d)]
    rfl
  | _ => rfl

/-- The opcode and the data of an item are read back just when it is plain. -/
theorem parse_raw_iff (x : Item) : OpCode.parse x.op.raw = x.op ↔ x.Plain := by
  cases x with
  | data d => exact parse_length_iff d
  | _ => exact iff_of_true rfl trivial

theorem element_raw {x : Item} (plain : x.Plain) : element x.op.raw x.body = (x.op, x.buffer) := by
  rw [element, (parse_raw_iff x).mpr plain]
  cases x with
  | data d =>
    have some : d.val ≠ [] := List.ne_nil_of_length_pos d.property.1
    simp [body, buffer, some]
  | _ => rfl

/-- A plain item as an opcode byte with its data. -/
def chunk (x : Item) (plain : x.Plain) : Chunk dataSize where
  head := x.op.raw
  body := x.body
  whole := by rw [dataSize, (parse_raw_iff x).mpr plain, length_body]

theorem injective_pair : Function.Injective fun x : Item => (x.op, x.buffer) := by
  intro x y same
  obtain ⟨op, buffer⟩ := Prod.mk.inj same
  cases x <;> cases y <;> first
    | rfl
    | exact congrArg data (Subtype.ext (Option.some.inj buffer))
    | exact OpCode.noConfusion op

end Item

/-- The script that `pushBack` builds. -/
def build (items : List Item) : Script := items.foldl (fun s x => s.pushBack x.op x.buffer) []

theorem build_eq (items : List Item) : build items = items.map fun x => (x.op, x.buffer) := by
  have push : ∀ (s : Script) (x : Item), s.pushBack x.op x.buffer = s ++ [(x.op, x.buffer)] := by
    intro s x
    cases x <;> rfl
  have grow : ∀ (items : List Item) (s : Script),
      items.foldl (fun s x => s.pushBack x.op x.buffer) s = s ++ items.map fun x => (x.op, x.buffer) := by
    intro items
    induction items with
    | nil => simp
    | cons x items ih =>
      intro s
      rw [List.foldl_cons, ih, push, List.map_cons, List.append_assoc, List.singleton_append]
  exact (grow items []).trans (List.nil_append _)

/-- How many bytes these items are exported to. -/
def rawSize (items : List Item) : Nat := (items.map fun x => 1 + x.op.dataLength).sum

theorem length_raw (items : List Item) : (items.flatMap Item.raw).length = rawSize items := by
  induction items with
  | nil => rfl
  | cons x items ih =>
    simp only [List.flatMap_cons, List.length_append, ih, Item.raw, List.length_cons, Item.length_body,
      rawSize, List.map_cons, List.sum_cons]
    omega

theorem exportRaw_build (items : List Item) {raw : List UInt8} :
    (build items).exportRaw = some raw ↔ rawSize items < 2 ^ 32 ∧ items.flatMap Item.raw = raw := by
  have parts : (items.map fun x => (x.op, x.buffer)).mapM exportElement = some (items.map Item.raw) := by
    induction items with
    | nil => rfl
    | cons x items ih =>
      exact mapM_cons_eq_some.mpr ⟨x.raw, _, x.exportElement_eq, ih, rfl⟩
  simp only [exportRaw, build_eq, parts, ← length_raw, List.flatMap_def, Option.bind_eq_bind, Option.bind_some,
    Option.bind_eq_some_iff, Option.guard_eq_some', exists_const, Option.pure_def, Option.some.injEq]

/-- The bytes of plain items are whole opcodes, read back as the items. -/
theorem exists_chunks {items : List Item} (plain : ∀ x ∈ items, x.Plain) : ∃ chunks : List (Chunk dataSize),
    join chunks = items.flatMap Item.raw ∧ ofChunks chunks = build items := by
  rw [build_eq]
  induction items with
  | nil => exact ⟨[], rfl, rfl⟩
  | cons x items ih =>
    obtain ⟨chunks, bytes, elements⟩ := ih fun y member => plain y (List.mem_cons_of_mem _ member)
    have first := plain x List.mem_cons_self
    refine ⟨x.chunk first :: chunks, ?_, ?_⟩
    · rw [join_cons, bytes]
      rfl
    · rw [ofChunks, List.map_cons, ← ofChunks, elements, List.map_cons]
      exact congrArg (· :: _) (Item.element_raw first)

theorem importLoop_plain {items : List Item} (plain : ∀ x ∈ items, x.Plain) :
    importLoop (rawSize items) (items.flatMap Item.raw) (rawSize items)
      [] 0 = some (build items, rawSize items) := by
  obtain ⟨chunks, bytes, elements⟩ := exists_chunks plain
  have whole := importLoop_join chunks [] 0 [] 0
  rw [List.append_nil, Nat.add_zero, bytes, length_raw, elements, importLoop_zero, List.nil_append,
    Nat.zero_add] at whole
  exact whole

/-- Items that are read back are plain: at the first that is not, an opcode stands in the
place of its data. -/
theorem plain_of_importLoop {items : List Item} {s : Script} {i j : Nat}
    (run : importLoop (rawSize items) (items.flatMap Item.raw)
    (rawSize items) s i = some (s ++ build items, j)) :
    ∀ x ∈ items, x.Plain := by
  rw [build_eq] at run
  induction items generalizing s i with
  | nil => simp
  | cons x items ih =>
    have size : rawSize (x :: items) = x.op.dataLength + rawSize items + 1 := by
      simp only [rawSize, List.map_cons, List.sum_cons]
      omega
    by_cases plain : x.Plain
    · have rest := importLoop_join [x.chunk plain] (items.flatMap Item.raw) (rawSize items) s i
      have first : (join [x.chunk plain]).length + rawSize items = rawSize (x :: items) := by
        rw [size, join_cons, join_nil, List.append_nil, List.length_cons]
        simp only [Item.chunk, Item.length_body]
        omega
      have bytes : join [x.chunk plain] ++ items.flatMap Item.raw = (x :: items).flatMap Item.raw := by
        rw [join_cons, join_nil, List.append_nil]
        rfl
      rw [first, bytes, run, List.map_cons, ofChunks, List.map_cons, List.map_nil] at rest
      simp only [Item.chunk, Item.element_raw plain] at rest
      refine List.forall_mem_cons.mpr ⟨plain, ih (rest.symm.trans ?_)⟩
      rw [List.append_assoc, List.singleton_append]
    · exfalso
      rw [size, List.flatMap_cons, Item.raw, List.cons_append, importLoop_cons, Option.bind_eq_some_iff] at run
      obtain ⟨data, -, next⟩ := run
      have same := importLoop_prefix next
      rw [List.map_cons, List.prefix_append_right_inj, List.cons_prefix_cons] at same
      exact plain ((Item.parse_raw_iff x).mp (congrArg Prod.fst same.1))

/-- Importing what a script is exported to gives the script back, and the size of the export. -/
def RoundTrip (s : Script) : Prop :=
  ∃ raw, s.exportRaw = some raw ∧ importRaw [] raw raw.length = some (s, s.exportRawSize.toNat)

/-- A script makes the round trip just when no data has a length that spells an opcode and an
`int` can count its bytes; such scripts are told apart by their bytes. -/
theorem importRaw_exportRaw_iff (items : List Item) :
    (RoundTrip (build items) ↔ (∀ x ∈ items, x.Plain) ∧ rawSize items < 2 ^ 31) ∧
    ∀ items' raw, (∀ x ∈ items, x.Plain) → (∀ x ∈ items', x.Plain) → (build items).exportRaw = some raw →
      (build items').exportRaw = some raw → items = items' := by
  constructor
  · have size : rawSize items < 2 ^ 32 → (build items).exportRawSize.toNat = rawSize items := by
      intro fits
      rw [exportRawSize, build_eq, UInt32.toNat_ofNat', List.map_map]
      exact Nat.mod_eq_of_lt fits
    constructor
    · rintro ⟨raw, exported, imported⟩
      obtain ⟨fits, rfl⟩ := (exportRaw_build items).mp exported
      obtain ⟨run, small⟩ := importRaw_eq_some.mp imported
      rw [length_raw] at run
      rw [size fits] at small
      exact ⟨plain_of_importLoop run, small⟩
    · rintro ⟨plain, small⟩
      have fits : rawSize items < 2 ^ 32 := by omega
      refine ⟨_, (exportRaw_build items).mpr ⟨fits, rfl⟩, importRaw_eq_some.mpr ?_⟩
      rw [length_raw, size fits]
      exact ⟨importLoop_plain plain, small⟩
  · intro items' raw plain plain' exported exported'
    obtain ⟨-, rfl⟩ := (exportRaw_build items).mp exported
    obtain ⟨-, bytes⟩ := (exportRaw_build items').mp exported'
    have sizes : rawSize items' = rawSize items := by rw [← length_raw, ← length_raw, bytes]
    have back := importLoop_plain plain'
    rw [bytes, sizes, importLoop_plain plain, Option.some.injEq, Prod.mk.injEq, build_eq, build_eq] at back
    exact List.map_injective_iff.mpr Item.injective_pair back.1

/-- Data of 118 bytes is read back as `OP_DUP` and the opcodes its bytes spell; another script
has the same bytes. -/
theorem importRaw_exportRaw_fails :
    ¬RoundTrip (build [.data ⟨List.replicate 118 0x76, by simp⟩]) ∧
    (build [.data ⟨List.replicate 118 0x76, by simp⟩]).exportRaw =
      (build (List.replicate 119 .dup)).exportRaw := by
  constructor
  · rintro ⟨raw, exported, imported⟩
    obtain ⟨-, rfl⟩ := (exportRaw_build _).mp exported
    rw [length_raw] at imported
    have plain := plain_of_importLoop (importRaw_eq_some.mp imported).1 _ (List.mem_singleton_self _)
    simp [Item.Plain] at plain
  · rw [(exportRaw_build _).mpr ⟨by decide +kernel, rfl⟩, (exportRaw_build _).mpr ⟨by decide +kernel, rfl⟩]
    decide +kernel

end Script

end MiyaCore.Chain
