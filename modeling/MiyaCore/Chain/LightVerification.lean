import MiyaCore.Chain.LightUTXOSet
import MiyaCore.Chain.BlockReverification

/-!
# Verification against the UTXO set of the program

`Block::verify` takes a `LightUTXOSet`. Its `get` answers null whatever the server has stored, so
every transaction is turned down at its first input, before a script is run or a hash is taken.
-/

namespace MiyaCore.Chain

variable {PKey : Type} {c : Crypto PKey}

namespace LightUTXOSet

/-- The answers of `LightUTXOSet::get`, to what `verify` asks. -/
def answers (c : Crypto PKey) (bson : Bson) (db : List UInt8 → Buffer) : UtxoSet := fun txID index =>
  (get c bson db txID index).map fun utxo => ⟨utxo.amount, utxo.pkScript⟩

variable (bson : Bson) (db : List UInt8 → Buffer)

theorem get_answers (p : PrevOut) : (answers c bson db).get p = none := by
  rw [UtxoSet.get, answers, get_eq_none]
  rfl

theorem not_found {t : P2PKH PKey} {i : Nat} {x : TxIn PKey} : ¬t.Found c (answers c bson db) i x := by
  rintro ⟨utxo, -, lookup, -⟩
  rw [get_answers] at lookup
  cases lookup

theorem turnsDown (x : TxIn PKey) : TurnsDown (answers c bson db) x := by
  intro utxo lookup
  rw [get_answers] at lookup
  cases lookup

/-- A block that passes the checks has no transaction but its coinbase. -/
theorem settled_eq_nil {b settled : Block PKey} (checked : b.Checked c (answers c bson db) settled) :
    settled.txVector = [] := by
  rw [List.eq_nil_iff_forall_not_mem]
  intro t member
  obtain ⟨x, input⟩ := List.exists_mem_of_ne_nil _ (checked.nonempty t member)
  obtain ⟨i, there⟩ := List.getElem?_of_mem input
  exact not_found bson db (checked.found t member i x there)

theorem txVector_eq_nil {b settled : Block PKey} (checked : b.Checked c (answers c bson db) settled) :
    b.txVector = [] := by
  obtain ⟨ids, exported, -⟩ := Block.calcMerkleRoot_again checked.merkle
  simp only [runAll, Option.bind_eq_bind, Option.bind_eq_some_iff] at exported
  obtain ⟨parts, run, result⟩ := exported
  have last : parts.map Prod.snd = settled.txVector := congrArg Prod.snd (Option.some.inj result)
  have none : parts = [] := List.map_eq_nil_iff.mp (last.trans (settled_eq_nil bson db checked))
  rw [← List.length_eq_zero_iff, ← length_of_mapM run, none, List.length_nil]

end LightUTXOSet

open LightUTXOSet

/-- An accepted block is valid. -/
theorem Block.valid_of_verify (c : Crypto PKey) (bson : Bson) (db : List UInt8 → Buffer) (b : Block PKey)
    (accepted : b.verify c (answers c bson db) = some true) : b.Valid c (answers c bson db) := by
  obtain ⟨settled, checked⟩ := verify_iff_checked.mp accepted
  refine ⟨checked.work, ⟨settled, checked.merkle⟩, fun root settled' run t member => ?_⟩
  obtain ⟨-, rfl⟩ : some b.header.merkleRoot.toList = root ∧ settled = settled' := by
    simpa using checked.merkle.symm.trans run
  rw [settled_eq_nil bson db checked] at member
  cases member

/-- The block of a coinbase alone. -/
theorem Block.valid_of_verify_coinbase :
    Block.Valid (sample true) (answers (sample true) sampleBson fun _ => none)
      { sampleBlock [] with txVector := [] } :=
  valid_of_verify (sample true) sampleBson (fun _ => none) _ (by decide +kernel)

/-- An accepted block spends no output twice, though nothing in `Block::verify` compares inputs. -/
theorem Block.noDoubleSpend_of_verify (c : Crypto PKey) (bson : Bson) (db : List UInt8 → Buffer) (b : Block PKey)
    (accepted : b.verify c (answers c bson db) = some true) : b.NoDoubleSpend := by
  obtain ⟨settled, checked⟩ := verify_iff_checked.mp accepted
  rw [NoDoubleSpend, txVector_eq_nil bson db checked]
  exact List.nodup_nil

theorem Block.noDoubleSpend_of_verify_coinbase :
    Block.NoDoubleSpend ({ sampleBlock [] with txVector := [] } : Block Unit) :=
  noDoubleSpend_of_verify (sample true) sampleBson (fun _ => none) _ (by decide +kernel)

/-- Verification is read-only and can be repeated, of a transaction and of the block it is in. -/
theorem P2PKH.repeatable_and_reverifies (c : Crypto PKey) (bson : Bson) (db : List UInt8 → Buffer) :
    (∀ t : P2PKH PKey, Repeatable c (answers c bson db) t) ∧
      ∀ b : Block PKey, (∀ t ∈ b.txVector, t.Obtained c) → b.Reverifies c (answers c bson db) := by
  refine ⟨fun t => ?_, fun b obtained => ?_⟩
  · refine (repeatable_iff c _ t).mpr ⟨0, nofun, ?_⟩
    cases ins : t.ins with
    | nil => exact Or.inl rfl
    | cons x rest => exact Or.inr ⟨x, rfl, turnsDown bson db x⟩
  · refine (Block.reverifies_iff fun t member => (obtained t member).keyed).mpr ?_
    by_cases passes : ∃ settled, b.Checked c (answers c bson db) settled
    · obtain ⟨settled, checked⟩ := passes
      refine Or.inr fun t member => ?_
      rw [txVector_eq_nil bson db checked] at member
      cases member
    · exact Or.inl (not_exists.mp passes)

/-- A transaction with two inputs, in a block. -/
theorem P2PKH.repeatable_and_reverifies_sample :
    Block.Reverifies (Block.sample true) (answers (Block.sample true) sampleBson fun _ => none)
      { Block.sampleBlock [] with txVector := [unsignedTx] } := by
  refine (repeatable_and_reverifies (Block.sample true) sampleBson fun _ => none).2 _ fun t member => ?_
  obtain rfl := List.mem_singleton.mp member
  exact .addOut (.addIn (.addIn .empty _ _) _ _) _

end MiyaCore.Chain
