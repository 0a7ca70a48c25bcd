import MiyaCore.Chain.ScriptCodec

namespace MiyaCore.Chain

open Chunks

variable {PKey : Type} {c : Crypto PKey}

namespace PrevOut

@[simp] theorem length_exportRaw (p : PrevOut) : p.exportRaw.length = 36 := by simp [exportRaw]

theorem importRaw_append (p : PrevOut) (rest : List UInt8) :
    importRaw (p.exportRaw ++ rest) = some (p, 36) := by
  have size : 36 ≤ (p.exportRaw ++ rest).length := by simp
  rw [importRaw, dif_pos size]
  simp only [exportRaw, List.append_assoc, Option.some.injEq, Prod.mk.injEq, and_true]
  refine congrArg₂ PrevOut.mk (List.Vector.toList_injective ?_) ?_
  · exact List.take_left' p.txID.toList_length
  · rw [List.drop_left' p.txID.toList_length, List.take_left' (Bytes.length_be ..), Bytes.ofNat_ofBe_be]

/-- Where the script of an input starts. -/
theorem drop_script (p : PrevOut) (n : Nat) (tail : List UInt8) :
    (p.exportRaw ++ (Bytes.be 4 n ++ tail)).drop (36 + 4) = tail := by
  rw [← List.append_assoc]
  exact List.drop_left' (by simp)

/-- Where the sequence of an input starts. -/
theorem drop_sequence (p : PrevOut) (n : Nat) (body tail : List UInt8) :
    (p.exportRaw ++ (Bytes.be 4 n ++ (body ++ tail))).drop (36 + 4 + body.length) = tail := by
  rw [← List.append_assoc, ← List.append_assoc]
  exact List.drop_left' (by simp only [List.length_append, length_exportRaw, Bytes.length_be])

end PrevOut

namespace SignatureScript

/-- A signature script of whole opcodes: those of up to 20 bytes are not read, the others need a
signature and a key. -/
theorem importRaw_join {chunks : List (Chunk dataSize)} (small : (join chunks).length < 2 ^ 31)
    (rest : List UInt8) :
    ({} : SignatureScript PKey).importRaw c (join chunks ++ rest) (join chunks).length =
      if (join chunks).length ≤ 20 then some ({}, 0)
      else match chunks with
        | sign :: key :: _ => some (
          { script := Script.ofChunks chunks
            sign := (Script.element sign.head sign.body).2
            signLength := UInt32.ofNat (dataSize sign.head)
            pkey := c.toPkey key.body }, (join chunks).length)
        | _ => none := by
  rw [importRaw]
  split_ifs with short
  · rfl
  rw [Script.importRaw_join small]
  obtain _ | ⟨sign, _ | ⟨key, more⟩⟩ := chunks
  · rfl
  · rfl
  · simp [Script.ofChunks, Script.read_element key.whole]
    rfl

end SignatureScript

namespace TxIn

/-- An input with a script of whole opcodes, whatever follows it. -/
theorem importRaw_join {chunks : List (Chunk dataSize)} (small : (join chunks).length < 2 ^ 31)
    (prevOut : PrevOut) (sequence : UInt32) (rest : List UInt8) :
    importRaw c (prevOut.exportRaw ++
      (Bytes.be 4 (join chunks).length ++ (join chunks ++ (Bytes.le 4 sequence.toNat ++ rest)))) =
      if (join chunks).length ≤ 20 then none
      else match chunks with
        | sign :: key :: _ => some (
          { prevOut
            scriptBytes := UInt32.ofNat (join chunks).length
            signatureScript :=
              { script := Script.ofChunks chunks
                sign := (Script.element sign.head sign.body).2
                signLength := UInt32.ofNat (dataSize sign.head)
                pkey := c.toPkey key.body }
            sequence
            pkey := c.toPkey key.body }, 36 + 4 + (join chunks).length + 4)
        | _ => none := by
  have length : Bytes.ofBe (Bytes.be 4 (join chunks).length) = (join chunks).length := by
    rw [Bytes.ofBe_be, Nat.mod_eq_of_lt (by omega)]
  simp only [importRaw, PrevOut.importRaw_append, Option.bind_eq_bind, Option.bind_some,
    List.drop_left' prevOut.length_exportRaw, Bytes.take?_append (Bytes.length_be 4 _), length,
    PrevOut.drop_script, SignatureScript.importRaw_join small]
  split_ifs with short
  · rfl
  obtain _ | ⟨sign, _ | ⟨key, more⟩⟩ := chunks
  · rfl
  · rfl
  · simp only [Option.bind_some, PrevOut.drop_sequence, Bytes.take?_append (Bytes.length_le 4 _),
      Bytes.ofNat_ofLe_le]
    simp [Script.ofChunks, Script.read_element key.whole]

/-- An input with a signature and a key of whole opcodes is read back with its key. -/
theorem importRaw_pair {sign key : Chunk dataSize} (long : 20 < (join [sign, key]).length)
    (small : (join [sign, key]).length < 2 ^ 31) (x : TxIn PKey) : ∃ y,
    (∀ rest, importRaw c (x.frame (join [sign, key]) ++ rest) = some (y, (x.frame (join [sign, key])).length)) ∧
    y.prevOut = x.prevOut ∧ y.sequence = x.sequence ∧ y.signatureScript.pkey = c.toPkey key.body := by
  refine ⟨{ prevOut := x.prevOut
            scriptBytes := UInt32.ofNat (join [sign, key]).length
            signatureScript :=
              { script := Script.ofChunks [sign, key]
                sign := (Script.element sign.head sign.body).2
                signLength := UInt32.ofNat (dataSize sign.head)
                pkey := c.toPkey key.body }
            sequence := x.sequence
            pkey := c.toPkey key.body }, fun rest => ?_, rfl, rfl, rfl⟩
  have size : (x.frame (join [sign, key])).length = 36 + 4 + (join [sign, key]).length + 4 := by
    simp only [frame, List.length_append, PrevOut.length_exportRaw, Bytes.length_be, Bytes.length_le]
  rw [size, frame, List.append_assoc, List.append_assoc, List.append_assoc, importRaw_join small,
    if_neg (by omega)]

end TxIn

namespace TxOut

/-- An output with a script of at least three whole opcodes. -/
theorem importRaw_join {chunks : List (Chunk dataSize)} (small : (join chunks).length < 2 ^ 31)
    (value : UInt64) (rest : List UInt8) :
    importRaw (Bytes.be 8 value.toNat ++ (Bytes.be 8 (join chunks).length ++ (join chunks ++ rest))) =
      match chunks with
      | _ :: _ :: hash :: _ => some (
        { value
          pkScriptBytes := UInt64.ofNat (join chunks).length
          pkScript := Script.ofChunks chunks
          pubKeyHash := (Script.element hash.head hash.body).2 }, 16 + (join chunks).length)
      | _ => none := by
  have length : Bytes.ofBe (Bytes.be 8 (join chunks).length) = (join chunks).length := by
    rw [Bytes.ofBe_be, Nat.mod_eq_of_lt (by omega)]
  have script : ∀ tail : List UInt8, (Bytes.be 8 value.toNat ++
    (Bytes.be 8 (join chunks).length ++ tail)).drop 16 = tail := by
    intro tail
    rw [← List.append_assoc]
    exact List.drop_left' (by simp)
  simp only [importRaw, Option.bind_eq_bind, Option.bind_some, Bytes.take?_append (Bytes.length_be 8 _),
    List.drop_left' (Bytes.length_be 8 _), length, script, Nat.mod_eq_of_lt
    (show (join chunks).length < 2 ^ 32 by omega), Script.importRaw_join small, List.nil_append,
    Bytes.ofNat_ofBe_be8]
  obtain _ | ⟨_, _ | ⟨_, _ | ⟨hash, more⟩⟩⟩ := chunks <;> rfl

end TxOut

namespace CoinbaseTxIn

/-- The input of a coinbase with a script of whole opcodes. -/
theorem importRaw_join {chunks : List (Chunk dataSize)} (small : (join chunks).length < 2 ^ 16)
    (prevOut : PrevOut) (sequence : UInt32) (rest : List UInt8) :
    importRaw (prevOut.exportRaw ++
      (Bytes.be 4 (join chunks).length ++ (join chunks ++ (Bytes.le 4 sequence.toNat ++ rest)))) =
      some ({ prevOut, scriptBytes := UInt32.ofNat (join chunks).length, script := Script.ofChunks chunks, sequence },
        36 + 4 + (join chunks).length + 4) := by
  have whole : Bytes.ofBe (Bytes.be 4 (join chunks).length) = (join chunks).length := by
    rw [Bytes.ofBe_be, Nat.mod_eq_of_lt (by omega)]
  simp only [importRaw, PrevOut.importRaw_append, Option.bind_eq_bind, Option.bind_some,
    List.drop_left' prevOut.length_exportRaw, Bytes.take?_append (Bytes.length_be 4 _), whole,
    PrevOut.drop_script, Nat.mod_eq_of_lt small, Script.importRaw_join
    (show (join chunks).length < 2 ^ 31 by omega), List.nil_append, PrevOut.drop_sequence,
    Bytes.take?_append (Bytes.length_le 4 _), Bytes.ofNat_ofLe_le, Option.pure_def]

end CoinbaseTxIn

end MiyaCore.Chain
