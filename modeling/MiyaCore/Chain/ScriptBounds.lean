import MiyaCore.Chain.TxFields

namespace MiyaCore.Chain

open Chunks

variable {PKey : Type}

/-- Bytes of which a field of `w` bytes can announce the number. -/
abbrev Announced (w : Nat) := {l : List UInt8 // l.length < 256 ^ w}

namespace Script

/-- The bytes split into opcodes with all of their data, `n` of them or more. -/
def Splits (n : Nat) (body : List UInt8) : Prop :=
  ∃ chunks : List (Chunk dataSize), join chunks = body ∧ n ≤ chunks.length

/-- The import of `body` with `rest` behind it reads nothing but `body`: without the rest it is
the same, and it counts no more bytes. -/
def StaysWithin (s : Script) (body rest : List UInt8) : Prop :=
  ∃ r, importRaw s body body.length = some r ∧ importRaw s (body ++ rest) body.length = some r ∧
  r.2 ≤ body.length

theorem staysWithin_iff {s : Script} {body rest : List UInt8} :
    StaysWithin s body rest ↔ Splits 0 body ∧ body.length < 2 ^ 31 := by
  constructor
  · rintro ⟨r, alone, -, within⟩
    obtain ⟨run, small⟩ := importRaw_eq_some.mp alone
    obtain ⟨count, bound⟩ := importLoop_count run le_rfl le_rfl
    rw [List.take_length] at count
    obtain ⟨chunks, whole⟩ := exists_join_iff.mpr (show overhang dataSize 0 body = 0 by omega)
    exact ⟨⟨chunks, whole, Nat.zero_le _⟩, by omega⟩
  · rintro ⟨⟨chunks, rfl, -⟩, small⟩
    have alone := importRaw_join small [] s
    rw [List.append_nil] at alone
    exact ⟨_, alone, importRaw_join small rest s, le_rfl⟩

end Script

/-- The import of an input keeps to its script, and goes on behind the announced length. -/
def TxIn.Bounded (c : Crypto PKey) (prevOut : PrevOut) (script : Announced 4) (sequence : UInt32)
    (rest : List UInt8) : Prop :=
  Script.StaysWithin [] script.val (Bytes.le 4 sequence.toNat ++ rest) ∧
  ∃ x, importRaw c (prevOut.exportRaw ++
      (Bytes.be 4 script.val.length ++ (script.val ++ (Bytes.le 4 sequence.toNat ++ rest)))) =
      some (x, 36 + 4 + script.val.length + 4) ∧
    x.prevOut = prevOut ∧ x.sequence = sequence

/-- The import of an output keeps to its script, and ends with it. -/
def TxOut.Bounded (value : UInt64) (script : Announced 8) (rest : List UInt8) : Prop :=
  Script.StaysWithin [] script.val rest ∧
  ∃ x, importRaw (Bytes.be 8 value.toNat ++ (Bytes.be 8 script.val.length ++ (script.val ++ rest))) =
      some (x, 16 + script.val.length) ∧ x.value = value

/-- The import of the input of a coinbase keeps to its script, and goes on behind the announced length. -/
def CoinbaseTxIn.Bounded (prevOut : PrevOut) (script : Announced 4) (sequence : UInt32)
    (rest : List UInt8) : Prop :=
  Script.StaysWithin [] script.val (Bytes.le 4 sequence.toNat ++ rest) ∧
  ∃ x, importRaw (prevOut.exportRaw ++
      (Bytes.be 4 script.val.length ++ (script.val ++ (Bytes.le 4 sequence.toNat ++ rest)))) =
      some (x, 36 + 4 + script.val.length + 4) ∧
    x.prevOut = prevOut ∧ x.sequence = sequence

theorem TxIn.bounded_iff {c : Crypto PKey} {prevOut : PrevOut} {script : Announced 4}
    {sequence : UInt32} {rest : List UInt8} :
    Bounded c prevOut script sequence rest ↔
      Script.Splits 2 script.val ∧ 20 < script.val.length ∧ script.val.length < 2 ^ 31 := by
  obtain ⟨script, announced⟩ := script
  rw [Bounded, Script.staysWithin_iff]
  constructor
  · rintro ⟨⟨⟨chunks, rfl, -⟩, small⟩, x, run, -⟩
    rw [importRaw_join small] at run
    split_ifs at run with short
    obtain _ | ⟨sign, _ | ⟨key, more⟩⟩ := chunks
    · simp at run
    · simp at run
    · exact ⟨⟨_, rfl, by simp⟩, Nat.lt_of_not_le short, small⟩
  · rintro ⟨⟨chunks, rfl, two⟩, long, small⟩
    obtain _ | ⟨sign, _ | ⟨key, more⟩⟩ := chunks
    · simp at two
    · simp at two
    · have run := importRaw_join (c := c) small prevOut sequence rest
      rw [if_neg (Nat.not_le_of_lt long)] at run
      exact ⟨⟨⟨_, rfl, Nat.zero_le _⟩, small⟩, _, run, rfl, rfl⟩

theorem TxOut.bounded_iff {value : UInt64} {script : Announced 8} {rest : List UInt8} :
    Bounded value script rest ↔ Script.Splits 3 script.val ∧ script.val.length < 2 ^ 31 := by
  obtain ⟨script, announced⟩ := script
  rw [Bounded, Script.staysWithin_iff]
  constructor
  · rintro ⟨⟨⟨chunks, rfl, -⟩, small⟩, x, run, -⟩
    rw [importRaw_join small] at run
    obtain _ | ⟨_, _ | ⟨_, _ | ⟨hash, more⟩⟩⟩ := chunks
    · simp at run
    · simp at run
    · simp at run
    · exact ⟨⟨_, rfl, by simp⟩, small⟩
  · rintro ⟨⟨chunks, rfl, three⟩, small⟩
    obtain _ | ⟨_, _ | ⟨_, _ | ⟨hash, more⟩⟩⟩ := chunks
    · simp at three
    · simp at three
    · simp at three
    · exact ⟨⟨⟨_, rfl, Nat.zero_le _⟩, small⟩, _, importRaw_join small value rest, rfl⟩

theorem CoinbaseTxIn.bounded_iff {prevOut : PrevOut} {script : Announced 4} {sequence : UInt32}
    {rest : List UInt8} :
    Bounded prevOut script sequence rest ↔ Script.Splits 0 script.val ∧ script.val.length < 2 ^ 16 := by
  obtain ⟨script, announced⟩ := script
  rw [Bounded, Script.staysWithin_iff]
  constructor
  · rintro ⟨⟨whole, -⟩, x, run, -⟩
    refine ⟨whole, ?_⟩
    have read : Bytes.ofBe (Bytes.be 4 script.length) = script.length := by
      rw [Bytes.ofBe_be, Nat.mod_eq_of_lt announced]
    simp only [importRaw, PrevOut.importRaw_append, Option.bind_eq_bind, Option.bind_some,
      List.drop_left' prevOut.length_exportRaw, Bytes.take?_append (Bytes.length_be 4 _), read,
      PrevOut.drop_script, Option.bind_eq_some_iff] at run
    obtain ⟨⟨parsed, k⟩, parse, _, -, result⟩ := run
    have sizes := congrArg Prod.snd (Option.some.inj result)
    obtain ⟨loop, -⟩ := Script.importRaw_eq_some.mp parse
    obtain ⟨count, -⟩ := Script.importLoop_count loop le_rfl
      (by rw [List.length_append]; exact (Nat.mod_le ..).trans (Nat.le_add_right ..))
    -- The data of the last opcode is too short to make up for what the getter cuts off.
    have most := overhang_le dataSize_le (Nat.zero_le _)
      ((script ++ (Bytes.le 4 sequence.toNat ++ rest)).take (script.length % 2 ^ 16))
    dsimp only at count sizes ⊢
    omega
  · rintro ⟨⟨chunks, rfl, none⟩, small⟩
    exact ⟨⟨⟨chunks, rfl, none⟩, by omega⟩, _, importRaw_join small prevOut sequence rest, rfl, rfl⟩

/-- The import of a script keeps to its bytes just when they split into whole opcodes and an `int`
counts them. An input needs a script of more than 20 bytes with two opcodes, an output three
opcodes, and a coinbase a length that its getter does not cut off. -/
theorem importRaw_bounded_iff (c : Crypto PKey) :
    (∀ s body rest, Script.StaysWithin s body rest ↔ Script.Splits 0 body ∧ body.length < 2 ^ 31) ∧
    (∀ prevOut script sequence rest, TxIn.Bounded c prevOut script sequence rest ↔
      Script.Splits 2 script.val ∧ 20 < script.val.length ∧ script.val.length < 2 ^ 31) ∧
    (∀ value script rest, TxOut.Bounded value script rest ↔ Script.Splits 3 script.val ∧
      script.val.length < 2 ^ 31) ∧
    ∀ prevOut script sequence rest, CoinbaseTxIn.Bounded prevOut script sequence rest ↔
      Script.Splits 0 script.val ∧ script.val.length < 2 ^ 16 :=
  ⟨fun _ _ _ => Script.staysWithin_iff, fun _ _ _ _ => TxIn.bounded_iff, fun _ _ _ => TxOut.bounded_iff,
    fun _ _ _ _ => CoinbaseTxIn.bounded_iff⟩

/-- A script of one byte that announces five bytes of data: six are read, and an output with it ends
five bytes too late. -/
theorem importRaw_bounded_fails :
    Script.importRaw [] ([5] ++ [1, 2, 3, 4, 5]) 1 = some ([(.data 5, some [1, 2, 3, 4, 5])], 6) ∧
    ¬Script.StaysWithin [] [5] [1, 2, 3, 4, 5] ∧
    (TxOut.importRaw (Bytes.be 8 7 ++ (Bytes.be 8 3 ++ ([0, 0, 5] ++ [1, 2, 3, 4, 5])))).map Prod.snd =
      some (16 + 8) := by
  refine ⟨rfl, ?_, by decide +kernel⟩
  rintro ⟨r, alone, -⟩
  have nothing : Script.importRaw [] [5] [5].length = none := rfl
  exact absurd (nothing.symm.trans alone) (by simp)

end MiyaCore.Chain
