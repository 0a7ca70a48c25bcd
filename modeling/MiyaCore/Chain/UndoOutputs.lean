import MiyaCore.Chain.BlockLocalStrage
import MiyaCore.Chain.TransactionCodec

/-!
# The outputs that an undo container names
-/

namespace MiyaCore.Chain

variable {PKey : Type} {c : Crypto PKey}

theorem TxOut.length_of_exportAll {outs after : List TxOut} {bytes : List UInt8}
    (written : exportAll TxOut.exportRaw outs = some (bytes, after)) : after.length = outs.length := by
  simpa using congrArg List.length (TxOut.fields_of_exportAll written)

/-- Calculating the id of a transaction leaves it with as many outputs. -/
theorem P2PKH.length_outs_of_calcTxID {t t' : P2PKH PKey} {txID : List UInt8}
    (run : t.calcTxID c = some (txID, t')) :
    t'.outs.length = t.outs.length := by
  simp only [calcTxID, Option.bind_eq_bind, Option.bind_eq_some_iff, Option.pure_def, Option.some.injEq,
    Prod.mk.injEq] at run
  obtain ⟨⟨raw, t''⟩, exported, -, rfl⟩ := run
  by_cases signed : t.ins.all TxIn.isSigned = true
  · obtain ⟨_, ins, _, outs, -, writtenOuts, -, result⟩ := (exportRaw_eq_some signed).mp exported
    obtain ⟨-, rfl⟩ := Prod.mk.inj result
    exact TxOut.length_of_exportAll writtenOuts
  · rw [exportRaw, if_neg signed] at exported
    obtain ⟨-, rfl⟩ := Prod.mk.inj (Option.some.inj exported)
    rfl

namespace UndoContainer

/-- The UTXOs of the container. The index of a UTXO is a `uint32_t`. -/
def entries (u : UndoContainer) : List (TxOut × List UInt8 × UInt32) :=
  u.utxoVector.map fun x => (x.1, x.2.1, UInt32.ofNat x.2.2)

/-- A transaction with its id and the outputs it creates. -/
def creation (c : Crypto PKey) (t : P2PKH PKey) : Option (List UInt8 × List TxOut) :=
  (t.calcTxID c).map fun r => (r.1, r.2.outs)

/-- What a block creates: the output of the coinbase, and those of the transactions in their order. -/
def creations (c : Crypto PKey) (b : Block PKey) : Option (List (List UInt8 × List TxOut)) := do
  let (txID, coinbase) ← (← b.coinbase).calcTxID c
  let later ← b.txVector.mapM (creation c)
  return (txID, [coinbase.txOut]) :: later

/-- The outputs of a transaction at their positions. -/
def atPositions (x : List UInt8 × List TxOut) : List (TxOut × List UInt8 × Nat) :=
  x.2.mapIdx fun j out => (out, x.1, j)

/-- The container has one entry for each output that the block creates, with the id and the position that
transactions name it by, in block order; under different ids no two entries name the same outpoint. -/
def NamesOutputs (c : Crypto PKey) (magicBytes : List.Vector UInt8 4) (b : Block PKey) : Prop :=
  ∃ u parts, ofBlock c magicBytes b = some u ∧ creations c b = some parts ∧
    u.entries.map (fun x => (x.1, x.2.1, x.2.2.toNat)) = parts.flatMap atPositions ∧
    ((parts.map Prod.fst).Nodup → (u.entries.map Prod.snd).Nodup)

/-- The index that runs on stands at zero, as a `uint32_t`, where a transaction with outputs begins, and
does not run over within it; the list has the numbers of outputs of the transactions. -/
def CountsAnew : Nat → List Nat → Prop
  | _, [] => True
  | i, n :: rest => (n = 0 ∨ i % 2 ^ 32 = 0 ∧ n ≤ 2 ^ 32) ∧ CountsAnew (i + n) rest

/-- The outputs of transactions, numbered on from `i`. -/
def numbered : Nat → List (List UInt8 × List TxOut) → List (TxOut × List UInt8 × Nat)
  | _, [] => []
  | i, x :: rest => x.2.mapIdx (fun j out => (out, x.1, i + j)) ++ numbered (i + x.2.length) rest

theorem outputs_eq (c : Crypto PKey) (i : Nat) (l : List (P2PKH PKey)) :
    outputs c i l = (l.mapM (creation c)).map (numbered i) := by
  induction l generalizing i with
  | nil => rfl
  | cons t l ih =>
    rw [outputs, List.mapM_cons, creation]
    cases run : t.calcTxID c with
    | none => rfl
    | some r =>
      obtain ⟨txID, t'⟩ := r
      simp only [Option.bind_eq_bind, Option.bind_some, Option.map_some, ih]
      cases l.mapM (creation c) <;> rfl

theorem lengths_of_mapM {l : List (P2PKH PKey)} {parts : List (List UInt8 × List TxOut)}
    (run : l.mapM (creation c) = some parts) :
    parts.map (fun x => x.2.length) = l.map fun t => t.outs.length := by
  induction l generalizing parts with
  | nil =>
    obtain rfl := Option.some.inj run
    rfl
  | cons t l ih =>
    simp only [List.mapM_cons, Option.bind_eq_bind, Option.bind_eq_some_iff, Option.pure_def,
      Option.some.injEq] at run
    obtain ⟨x, first, rest, later, rfl⟩ := run
    obtain ⟨⟨txID, t'⟩, calculated, rfl⟩ := Option.map_eq_some_iff.mp first
    rw [List.map_cons, List.map_cons, ih later, P2PKH.length_outs_of_calcTxID calculated]

/-- Outputs numbered on from `i` are at their positions just when the index stands at zero there. -/
theorem mapIdx_eq_iff (x : List UInt8 × List TxOut) (i : Nat) :
    (x.2.mapIdx fun j out => (out, x.1, (UInt32.ofNat (i + j)).toNat)) = atPositions x ↔
      x.2.length = 0 ∨ i % 2 ^ 32 = 0 ∧ x.2.length ≤ 2 ^ 32 := by
  have pointwise : (x.2.mapIdx fun j out => (out, x.1, (UInt32.ofNat (i + j)).toNat)) = atPositions x ↔
      ∀ j < x.2.length, (i + j) % 2 ^ 32 = j := by
    rw [atPositions, List.ext_getElem_iff]
    simp
  rw [pointwise]
  constructor
  · intro all
    by_cases empty : x.2.length = 0
    · exact Or.inl empty
    · have first := all 0 (by omega)
      have last := all (x.2.length - 1) (by omega)
      exact Or.inr ⟨by omega, by omega⟩
  · rintro (empty | ⟨zero, few⟩) j inside <;> omega

theorem numbered_eq_iff (parts : List (List UInt8 × List TxOut)) (i : Nat) :
    (numbered i parts).map (fun x => (x.1, x.2.1, (UInt32.ofNat x.2.2).toNat)) = parts.flatMap atPositions ↔
      CountsAnew i (parts.map fun x => x.2.length) := by
  induction parts generalizing i with
  | nil => simp [numbered, CountsAnew]
  | cons x parts ih =>
    have first : (x.2.mapIdx fun j out => (out, x.1, i + j)).map
      (fun x => (x.1, x.2.1, (UInt32.ofNat x.2.2).toNat)) =
        x.2.mapIdx fun j out => (out, x.1, (UInt32.ofNat (i + j)).toNat) := by
      simp [List.ext_getElem_iff]
    rw [numbered, List.map_append, List.flatMap_cons, first, List.map_cons, CountsAnew, ← ih, ← mapIdx_eq_iff]
    exact ⟨fun same => List.append_inj same (by simp [atPositions]), fun ⟨front, back⟩ => by rw [front, back]⟩

/-- Positions under different ids are different outpoints. -/
theorem nodup_outpoints {parts : List (List UInt8 × List TxOut)} (ids : (parts.map Prod.fst).Nodup) :
    ((parts.flatMap atPositions).map Prod.snd).Nodup := by
  have each : ∀ x : List UInt8 × List TxOut, (atPositions x).map Prod.snd = (List.range x.2.length).map
    fun j => (x.1, j) := by
    intro x
    simp [atPositions, List.ext_getElem_iff]
  rw [List.map_flatMap, List.nodup_flatMap]
  refine ⟨fun x _ => ?_, (List.pairwise_map.mp ids).imp fun different => ?_⟩
  · rw [each]
    exact List.nodup_range.map fun j k same => (Prod.mk.inj same).2
  · simp only [Function.onFun, each, List.disjoint_left, List.mem_map]
    rintro _ ⟨j, -, rfl⟩ ⟨k, -, same⟩
    exact different (Prod.mk.inj same).1.symm

/-- The container names the outputs of a block just when the ids can be calculated and no transaction with
outputs comes behind another one: the index is not restarted. (A multiple of 2^32 outputs before it is
not noticed.) -/
theorem namesOutputs_iff (c : Crypto PKey) (magicBytes : List.Vector UInt8 4) (b : Block PKey) :
    NamesOutputs c magicBytes b ↔ (creations c b).isSome ∧
      CountsAnew 0 (b.txVector.map fun t => t.outs.length) := by
  constructor
  · rintro ⟨u, parts, built, created, same, -⟩
    refine ⟨by rw [created]; rfl, ?_⟩
    simp only [creations, Option.bind_eq_bind, Option.bind_eq_some_iff, Option.pure_def,
      Option.some.injEq] at created
    obtain ⟨coinbase, has, ⟨txID, after⟩, calculated, later, run, rfl⟩ := created
    simp only [ofBlock, has, calculated, outputs_eq, run, Option.bind_eq_bind, Option.bind_some,
      Option.map_some, Option.pure_def, Option.some.injEq] at built
    subst built
    rw [entries, List.map_map, List.map_cons, List.flatMap_cons] at same
    rw [← lengths_of_mapM run]
    exact (numbered_eq_iff later 0).mp (List.cons.inj same).2
  · rintro ⟨calculable, anew⟩
    obtain ⟨parts, created⟩ := Option.isSome_iff_exists.mp calculable
    have build := created
    simp only [creations, Option.bind_eq_bind, Option.bind_eq_some_iff, Option.pure_def,
      Option.some.injEq] at build
    obtain ⟨coinbase, has, ⟨txID, after⟩, calculated, later, run, rfl⟩ := build
    rw [← lengths_of_mapM run] at anew
    have same := (numbered_eq_iff later 0).mpr anew
    have built : ofBlock c magicBytes b = some ⟨magicBytes, (after.txOut, txID, 0) :: numbered 0 later⟩ := by
      simp only [ofBlock, has, calculated, outputs_eq, run, Option.bind_eq_bind, Option.bind_some,
        Option.map_some, Option.pure_def]
    have named : (entries ⟨magicBytes, (after.txOut, txID, 0) :: numbered 0 later⟩).map
      (fun x => (x.1, x.2.1, x.2.2.toNat)) =
        ((txID, [after.txOut]) :: later).flatMap atPositions := by
      rw [entries, List.map_map, List.map_cons, List.flatMap_cons, ← same]
      rfl
    refine ⟨_, _, built, created, named, fun ids => ?_⟩
    have apart := nodup_outpoints ids
    rw [← named, List.map_map] at apart
    refine List.Nodup.of_map (fun x => (x.1, x.2.toNat)) ?_
    rwa [List.map_map]

/-- Two outputs and then one: the third is entered with the index 2. -/
def sampleBlock : Block Unit :=
  { Block.sampleBlock [] with txVector := [{ ins := [], outs := [{}, {}] }, { ins := [], outs := [{}] }] }

theorem namesOutputs_fails :
    (ofBlock (Block.sample true) (List.Vector.replicate 4 0) sampleBlock).map
      (fun u => u.entries.map fun x => x.2.2) =
      some [0, 0, 1, 2] ∧
    ¬NamesOutputs (Block.sample true) (List.Vector.replicate 4 0) sampleBlock := by
  have indices : (ofBlock (Block.sample true) (List.Vector.replicate 4 0) sampleBlock).map
    (fun u => u.entries.map fun x => x.2.2) =
      some [0, 0, 1, 2] := by
    decide +kernel
  have positions : (creations (Block.sample true) sampleBlock).map
    (fun parts => (parts.flatMap atPositions).map fun x => x.2.2) =
      some [0, 0, 1, 0] := by
    decide +kernel
  refine ⟨indices, ?_⟩
  rintro ⟨u, parts, built, created, same, -⟩
  rw [built, Option.map_some, Option.some.injEq] at indices
  rw [created, Option.map_some, ← same, List.map_map, Option.some.injEq] at positions
  have numbers := congrArg (List.map UInt32.toNat) indices
  rw [List.map_map] at numbers
  exact absurd (positions.symm.trans numbers) (by decide)

end UndoContainer

end MiyaCore.Chain
