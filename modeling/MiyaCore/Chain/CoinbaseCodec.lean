import MiyaCore.Chain.BlockContainer
import MiyaCore.Chain.TransactionCodec

namespace MiyaCore.Chain

open Chunks

variable {PKey : Type}

namespace CoinbaseTxIn

/-- The constructor of `coinbase_tx_in` for a height and a text. The length of the text is an
`unsigned int` and `sizeof(height)` a `size_t`, so their difference wraps around at 2^64. -/
def ofHeight (height : UInt32) (text : List UInt8) : CoinbaseTxIn :=
  let script := Script.pushBack [] (.data 0x04) (some (Bytes.be 4 height.toNat))
  { script := if (UInt32.ofNat text.length).toUInt64 - 4 ≤ 100 then script.pushBack (.data (UInt8.ofNat text.length)) (some text)
      else script }

/-- `coinbase_tx_in::height`: the data of the first opcode as an `int`, -1 if there is none. Less
than four bytes are read past their end. -/
def height (x : CoinbaseTxIn) : Option Int :=
  match x.script[0]? with
  | none => some (-1)
  | some (op, data) => do
    let rawHeigth ← data.read op.dataLength
    if rawHeigth.length ≤ 0 then return -1
    let ret ← Bytes.take? 4 rawHeigth
    return Int.bmod (Bytes.ofBe ret) (2 ^ 32)

/-- The data of the second opcode. -/
def text (x : CoinbaseTxIn) : List UInt8 := (x.script[1]?.bind Prod.snd).getD []

end CoinbaseTxIn

namespace Script

theorem raw_parse (b : UInt8) : (OpCode.parse b).raw = b := by
  rw [OpCode.parse]
  split_ifs <;> simp_all [OpCode.raw]

theorem exportElement_element {b : UInt8} {data : List UInt8} (whole : data.length = dataSize b) :
    exportElement (element b data) = some (b :: data) := by
  rw [exportElement]
  have code : (element b data).1 = OpCode.parse b := rfl
  split_ifs with isData
  · rw [read_element whole, code, raw_parse]
    rfl
  · have nothing : data = [] := by
      rw [code] at isData
      rw [dataSize] at whole
      cases op : OpCode.parse b <;> simp_all [OpCode.dataLength, OpCode.isData]
    rw [code, raw_parse, nothing]
    rfl

/-- The bytes of whole opcodes. -/
theorem exportRaw_ofChunks {chunks : List (Chunk dataSize)} (small : (join chunks).length < 2 ^ 32) :
    (ofChunks chunks).exportRaw = some (join chunks) := by
  have parts : (ofChunks chunks).mapM exportElement = some (chunks.map fun x => x.head :: x.body) := by
    clear small
    induction chunks with
    | nil => rfl
    | cons x chunks ih => exact mapM_cons_eq_some.mpr ⟨_, _, exportElement_element x.whole, ih, rfl⟩
  have bytes : (chunks.map fun x => x.head :: x.body).flatten = join chunks := (List.flatMap_def ..).symm
  simp only [exportRaw, parts, Option.bind_eq_bind, Option.bind_some, bytes, guard, if_pos small]
  rfl

end Script

namespace Coinbase

/-- The constructor of `coinbase`, which leaves the version as it is in memory. -/
def ofHeight (version height : UInt32) (text : List UInt8) (pubkeyHash : Buffer) : Coinbase where
  version := version
  txIn := .ofHeight height text
  txOut := {}
  pubkeyHash := pubkeyHash

/-- `coinbase::add`. -/
def add (x : Coinbase) (target : TxOut) : Coinbase := { x with txOut := target }

/-- `coinbase::height`. -/
def height (x : Coinbase) : Option Int := x.txIn.height

/-- The coinbase contains the height and the text. -/
structure Contains (x : Coinbase) (height : UInt32) (text : List UInt8) : Prop where
  height : x.height = some (height.toNat : Int)
  text : x.txIn.text = text

/-- The coinbase contains height and text, and what is read from its bytes contains them, too, and
has the same output. -/
def ReadsBack (version height : UInt32) (text : List UInt8) (value : UInt64)
    (pubkeyHash : List.Vector UInt8 20) : Prop :=
  let x := (ofHeight version height text (some pubkeyHash.toList)).add { value }
  x.Contains height text ∧ ∃ raw x', x.exportRaw = some (raw, x') ∧ ∀ rest, ∃ y,
    importRawSequentially (raw ++ rest) = some (y, raw.length) ∧ y.Contains height text ∧
    y.txOut.fields = (value, some pubkeyHash.toList)

/-- What is read from the bytes of the coinbase has the same bytes and the same ID. -/
def ExportsAgain (c : Crypto PKey) (x : Coinbase) : Prop :=
  ∀ raw x', x.exportRaw = some (raw, x') → ∀ rest y n, importRawSequentially (raw ++ rest) = some (y, n) →
    y.exportRaw.map Prod.fst = some raw ∧ (y.calcTxID c).map Prod.fst = (x.calcTxID c).map Prod.fst

def RoundTrip (c : Crypto PKey) (version height : UInt32) (text : List UInt8) (value : UInt64)
    (pubkeyHash : List.Vector UInt8 20) : Prop :=
  ReadsBack version height text value pubkeyHash ∧
  ExportsAgain c ((ofHeight version height text (some pubkeyHash.toList)).add { value })

/-- Heights that an `int` can hold. -/
abbrev Height := {height : UInt32 // height.toNat < 2 ^ 31}

/-- Texts that fit with the height in 100 bytes. -/
abbrev Text := {text : List UInt8 // text.length + 4 ≤ 100}

/-- The text is pushed unless its length makes the subtraction wrap around. -/
theorem pushed_iff (text : Text) : (UInt32.ofNat text.val.length).toUInt64 - 4 ≤ 100 ↔ 4 ≤ text.val.length := by
  have small := text.property
  rw [UInt64.le_iff_toNat_le, UInt64.toNat_sub, UInt32.toNat_toUInt64, UInt32.toNat_ofNat']
  change (2 ^ 64 - 4 + _) % 2 ^ 64 ≤ 100 ↔ _
  omega

/-- The opcode that pushes the height. -/
def heightChunk (height : Height) : Chunk dataSize := ⟨4, Bytes.be 4 height.val.toNat, Bytes.length_be ..⟩

theorem parse_length (text : Text) : OpCode.parse (UInt8.ofNat text.val.length) = .data (UInt8.ofNat text.val.length) := by
  have small := text.property
  have other : ∀ b : UInt8, 100 < b.toNat → UInt8.ofNat text.val.length ≠ b := by
    rintro b large rfl
    rw [UInt8.toNat_ofNat'] at large
    omega
  rw [OpCode.parse, if_neg (other _ (by decide)), if_neg (other _ (by decide)), if_neg (other _ (by decide)),
    if_neg (other _ (by decide))]

/-- The opcode that pushes the text. -/
def textChunk (text : Text) : Chunk dataSize := ⟨UInt8.ofNat text.val.length, text.val, by
  have small := text.property
  rw [dataSize, parse_length, OpCode.dataLength, UInt8.toNat_ofNat', Nat.mod_eq_of_lt (by omega)]⟩

/-- The opcodes of the script of a coinbase. -/
def chunks (height : Height) (text : Text) : List (Chunk dataSize) :=
  if 4 ≤ text.val.length then [heightChunk height, textChunk text] else [heightChunk height]

theorem length_chunks (height : Height) (text : Text) : (join (chunks height text)).length ≤ 106 := by
  have small := text.property
  rw [chunks]
  split_ifs
  all_goals
    simp only [heightChunk, textChunk, join_cons, join_nil, List.length_cons, List.length_append,
    Bytes.length_be, List.length_nil]
    omega

theorem script_ofHeight (height : Height) (text : Text) :
    (CoinbaseTxIn.ofHeight height.val text.val).script = Script.ofChunks (chunks height text) := by
  have head : Script.element 4 (Bytes.be 4 height.val.toNat) =
    (.data 4, some (Bytes.be 4 height.val.toNat)) := by
    rw [Script.element, if_neg (List.ne_nil_of_length_pos (by simp))]
    rfl
  simp only [CoinbaseTxIn.ofHeight, pushed_iff, chunks]
  split_ifs with long
  · have nonempty : text.val ≠ [] := List.ne_nil_of_length_pos (by omega)
    have next : Script.element (UInt8.ofNat text.val.length) text.val =
      (.data (UInt8.ofNat text.val.length), some text.val) := by
      rw [Script.element, parse_length, if_neg nonempty]
    simp [Script.ofChunks, heightChunk, textChunk, head, next, Script.pushBack, OpCode.isData]
  · simp [Script.ofChunks, heightChunk, head, Script.pushBack, OpCode.isData]

/-- The bytes of a coinbase with this script and this output. -/
def raw (version : UInt32) (chunks : List (Chunk dataSize)) (value : UInt64)
    (pubkeyHash : List.Vector UInt8 20) : List UInt8 :=
  Bytes.le 4 version.toNat ++ (Bytes.be 4 1 ++
  (({} : CoinbaseTxIn).prevOut.exportRaw ++ (Bytes.be 4 (join chunks).length ++
    (join chunks ++ (Bytes.le 4 0 ++ (Bytes.be 4 1 ++ TxOut.raw value pubkeyHash))))))

/-- What is read from these bytes. -/
def imported (version : UInt32) (chunks : List (Chunk dataSize)) (value : UInt64)
    (pubkeyHash : List.Vector UInt8 20) : Coinbase where
  version := version
  txIn := { scriptBytes := UInt32.ofNat (join chunks).length, script := Script.ofChunks chunks }
  txOut := TxOut.imported value pubkeyHash
  pubkeyHash := none

theorem exportRaw_chunks {x : Coinbase} {chunks : List (Chunk dataSize)} (small : (join chunks).length < 2 ^ 16)
    (prevOut : x.txIn.prevOut = ({} : CoinbaseTxIn).prevOut) (sequence : x.txIn.sequence = 0)
    (script : x.txIn.script = Script.ofChunks chunks) (pubkeyHash : List.Vector UInt8 20)
    (has : x.pubkeyHash = some pubkeyHash.toList) :
    ∃ x', x.exportRaw = some (raw x.version chunks x.txOut.value pubkeyHash, x') := by
  obtain ⟨txOut, written⟩ := TxOut.exportRaw_locked
    (x := { x.txOut with pubKeyHash := some pubkeyHash.toList }) rfl
  simp [exportRaw, CoinbaseTxIn.exportRaw, script, Script.exportRaw_ofChunks
    (show (join chunks).length < 2 ^ 32 by omega), guard, show (join chunks).length < 65536 from small,
    has, written, prevOut, sequence, raw]

theorem importRawSequentially_raw {chunks : List (Chunk dataSize)}
    (small : (join chunks).length < 2 ^ 16) (version : UInt32) (value : UInt64)
    (pubkeyHash : List.Vector UInt8 20) (rest : List UInt8) :
    importRawSequentially (raw version chunks value pubkeyHash ++ rest) =
      some (imported version chunks value pubkeyHash, (raw version chunks value pubkeyHash).length) := by
  have size : (raw version chunks value pubkeyHash).length = 8 + (36 + 4 + (join chunks).length + 4) +
    4 + 41 := by
    simp only [raw, List.length_append, Bytes.length_le, Bytes.length_be, PrevOut.length_exportRaw,
      TxOut.length_raw]
    omega
  have txIn : ∀ tail : List UInt8, (Bytes.le 4 version.toNat ++ (Bytes.be 4 1 ++ tail)).drop 8 = tail := by
    intro tail
    rw [← List.append_assoc]
    exact List.drop_left' (by simp)
  have outCount : ∀ tail : List UInt8, (({} : CoinbaseTxIn).prevOut.exportRaw ++
    (Bytes.be 4 (join chunks).length ++
      (join chunks ++ (Bytes.le 4 0 ++ tail)))).drop (36 + 4 + (join chunks).length + 4) = tail := by
    intro tail
    rw [← List.append_assoc, ← List.append_assoc, ← List.append_assoc]
    exact List.drop_left' (by simp only [List.length_append, PrevOut.length_exportRaw, Bytes.length_be, Bytes.length_le])
  have readIn := CoinbaseTxIn.importRaw_join small ({} : CoinbaseTxIn).prevOut 0
  rw [UInt32.toNat_zero] at readIn
  have readOut := TxOut.importRaw_raw value pubkeyHash rest
  rw [size, raw]
  simp only [importRawSequentially, List.append_assoc, Bytes.take?_append (Bytes.length_le 4 _),
    Bytes.take?_append (Bytes.length_be 4 _), List.drop_left' (Bytes.length_le 4 _),
    List.drop_left' (Bytes.length_be 4 _), ← List.drop_drop, txIn, readIn, outCount, readOut,
    Option.bind_eq_bind, Option.bind_some, Bytes.ofNat_ofLe_le, TxOut.length_raw, Option.pure_def, imported]

theorem height_ofChunks (height : Height) (text : Text) {x : CoinbaseTxIn}
    (script : x.script = Script.ofChunks (chunks height text)) :
    x.height = some (height.val.toNat : Int) := by
  have small := height.property
  have first : x.script[0]? = some (Script.element 4 (Bytes.be 4 height.val.toNat)) := by
    rw [script, chunks]
    split_ifs <;> rfl
  have read : (Script.element 4 (Bytes.be 4 height.val.toNat)).2.read (OpCode.parse 4).dataLength =
      some (Bytes.be 4 height.val.toNat) := Script.read_element (Bytes.length_be ..)
  have taken : Bytes.take? 4 (Bytes.be 4 height.val.toNat) = some (Bytes.be 4 height.val.toNat) := by
    simpa using Bytes.take?_append (Bytes.length_be 4 height.val.toNat) []
  have signed : Int.bmod (height.val.toNat : Int) (2 ^ 32) = height.val.toNat := by
    rw [Int.bmod_eq_of_le] <;> omega
  rw [CoinbaseTxIn.height, first]
  change ((Script.element 4 (Bytes.be 4 height.val.toNat)).2.read _).bind _ = _
  rw [read, Option.bind_some, if_neg (by simp), taken]
  change some (Int.bmod (Bytes.ofBe _) _) = _
  rw [Bytes.ofBe_be, Nat.mod_eq_of_lt (by omega), signed]

theorem text_ofChunks (height : Height) (text : Text) {x : CoinbaseTxIn}
    (script : x.script = Script.ofChunks (chunks height text)) :
    x.text = if 4 ≤ text.val.length then text.val else [] := by
  rw [CoinbaseTxIn.text, script, chunks]
  split_ifs with long
  · exact Script.getD_element ..
  · rfl

theorem contains_iff (height : Height) (text : Text) {x : Coinbase}
    (script : x.txIn.script = Script.ofChunks (chunks height text)) :
    x.Contains height.val text.val ↔ text.val = [] ∨ 4 ≤ text.val.length := by
  have short := text_ofChunks height text script
  constructor
  · rintro ⟨-, same⟩
    by_contra none
    rw [not_or] at none
    rw [short, if_neg none.2] at same
    exact none.1 same.symm
  · intro whole
    refine ⟨height_ofChunks height text script, ?_⟩
    rw [short]
    split_ifs with long
    · rfl
    · exact (whole.resolve_right long).symm

theorem readsBack_iff (version : UInt32) (height : Height) (text : Text) (value : UInt64)
    (pubkeyHash : List.Vector UInt8 20) :
    ReadsBack version height.val text.val value pubkeyHash ↔ text.val = [] ∨ 4 ≤ text.val.length := by
  have script := script_ofHeight height text
  have contains := contains_iff height text
    (x := (ofHeight version height.val text.val (some pubkeyHash.toList)).add { value }) script
  refine ⟨fun reads => contains.mp reads.1, fun whole => ⟨contains.mpr whole, ?_⟩⟩
  have small : (join (chunks height text)).length < 2 ^ 16 := by
    have := length_chunks height text
    omega
  obtain ⟨x', exported⟩ := exportRaw_chunks (x := (ofHeight version height.val text.val
    (some pubkeyHash.toList)).add { value }) small rfl rfl script pubkeyHash rfl
  refine ⟨_, x', exported, fun rest => ⟨_, importRawSequentially_raw small version value pubkeyHash rest, ?_, rfl⟩⟩
  exact (contains_iff height text rfl).mpr whole

/-- An imported coinbase has no key hash, and asserts that it has when it is exported. -/
theorem exportRaw_imported {raw : List UInt8} {y : Coinbase} {n : Nat}
    (read : importRawSequentially raw = some (y, n)) :
    y.exportRaw = none := by
  rw [exportRaw, BlockContainer.importRawSequentially_pubkeyHash read]
  cases y.txIn.exportRaw <;> rfl

theorem ReadsBack.not_exportsAgain {c : Crypto PKey} {version height : UInt32} {text : List UInt8}
    {value : UInt64} {pubkeyHash : List.Vector UInt8 20}
    (reads : ReadsBack version height text value pubkeyHash) :
    ¬ExportsAgain c ((ofHeight version height text (some pubkeyHash.toList)).add { value }) := by
  obtain ⟨-, raw, x', exported, reads⟩ := reads
  intro again
  obtain ⟨y, read, -⟩ := reads []
  obtain ⟨bytes, -⟩ := again raw x' exported [] y raw.length read
  rw [exportRaw_imported read] at bytes
  exact absurd bytes (by simp)

/-- No coinbase makes the round trip: what is read has no key hash and cannot be exported. Up to there,
just the texts of one to three bytes get lost. -/
theorem codec_never (c : Crypto PKey) :
    (∀ version height text value pubkeyHash, ¬RoundTrip c version height text value pubkeyHash) ∧
    ∀ version value pubkeyHash (height : Height) (text : Text),
      ReadsBack version height.val text.val value pubkeyHash ↔ text.val = [] ∨ 4 ≤ text.val.length :=
  ⟨fun _ _ _ _ _ roundTrip => roundTrip.1.not_exportsAgain roundTrip.2,
    fun version value pubkeyHash height text => readsBack_iff version height text value pubkeyHash⟩

/-- A text of three bytes is dropped; one of four bytes is read back, but the coinbase with it has no
bytes. -/
theorem codec_fails :
    (CoinbaseTxIn.ofHeight 7 [1, 2, 3]).text = [] ∧
    (((ofHeight 0 7 [1, 2, 3, 4] (some (List.replicate 20 0))).add { value := 5 }).exportRaw.bind fun r =>
      (importRawSequentially r.1).map fun y => (r.1.length, y.2, y.1.txIn.text, y.1.exportRaw.map Prod.fst)) =
        some (107, 107, [1, 2, 3, 4], none) ∧
    ¬RoundTrip (Block.sample true) 0 7 [1, 2, 3, 4] 5 (List.Vector.replicate 20 0) :=
  ⟨by decide +kernel, by decide +kernel, fun roundTrip => roundTrip.1.not_exportsAgain roundTrip.2⟩

end Coinbase

end MiyaCore.Chain
