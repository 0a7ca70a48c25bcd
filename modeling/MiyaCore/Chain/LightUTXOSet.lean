import MiyaCore.Chain.Acceptance
import MiyaCore.Chain.TransactionCodec

namespace MiyaCore.Chain

variable {PKey : Type} {c : Crypto PKey}

/-- `ntohll` on a little-endian host. -/
def ntohll (n : UInt64) : UInt64 := UInt64.ofNat (Bytes.ofBe (Bytes.le 8 n.toNat))

/-- The document that a UTXO is stored as. -/
structure UtxoDoc where
  txID : List UInt8
  index : UInt32
  amount : UInt64
  pkScript : List UInt8
deriving DecidableEq

/-- The bytes of these documents, as `nlohmann::json` writes and reads them. -/
structure Bson where
  encode : UtxoDoc → List UInt8
  decode : List UInt8 → Option UtxoDoc

/-- `nlohmann::json::to_bson`; a number above the signed 64-bit ones is thrown out of range. -/
def Bson.toBson (bson : Bson) (doc : UtxoDoc) : Option (List UInt8) :=
  if doc.amount.toNat < 2 ^ 63 then some (bson.encode doc) else none

/-- `UTXO`. -/
structure UTXO where
  txID : List UInt8
  outputIndex : UInt32
  rawAmount : UInt64
  pkScript : Script := []
  txOut : Option TxOut := none

namespace UTXO

def amount (u : UTXO) : UInt64 := ntohll u.rawAmount

/-- The constructor for an output to be stored. It leaves the amount as it is found in memory. -/
def register (memory : UInt64) (target : TxOut) (txID : List.Vector UInt8 32) (index : UInt32) : UTXO where
  txID := txID.toList
  outputIndex := index
  rawAmount := memory
  txOut := some target

@[simp] theorem register_txID (memory : UInt64) (target : TxOut) (txID : List.Vector UInt8 32)
    (index : UInt32) :
    (register memory target txID index).txID = txID.toList := rfl

@[simp] theorem register_outputIndex (memory : UInt64) (target : TxOut) (txID : List.Vector UInt8 32)
    (index : UInt32) :
    (register memory target txID index).outputIndex = index := rfl

/-- `UTXO::dumpToBson`; the key hash of the output is read on the way. -/
def dumpToBson (bson : Bson) (u : UTXO) : Option (List UInt8) := do
  let txOut ← u.txOut
  let pubKeyHash ← txOut.pubKeyHash
  let pkScript ← (p2pkhPkScript pubKeyHash).exportRaw
  bson.toBson ⟨u.txID, u.outputIndex, u.rawAmount, pkScript⟩

/-- `UTXO::importFromJson`. -/
def importFromJson (doc : UtxoDoc) : Option UTXO := do
  let (pkScript, _) ← Script.importRaw [] doc.pkScript doc.pkScript.length
  return { txID := doc.txID, outputIndex := doc.index, rawAmount := doc.amount, pkScript }

end UTXO

/-- A query that the server gets. -/
inductive Query where
  | add (key value : List UInt8)
  | get (key : List UInt8)
  | remove (key : List UInt8)

structure Response where
  status : Int
  value : Buffer := none

/-- The server: a map, and the codes that `DatabaseManager` answers with. A failed query gets
the status of `failureSB`. -/
def serve (db : List UInt8 → Buffer) : Query → Response × (List UInt8 → Buffer)
  | .add key value => (⟨1, none⟩, Function.update db key (some value))
  | .get key =>
    match db key with
    | some value => (⟨1, some value⟩, db)
    | none => (⟨-1, none⟩, db)
  | .remove key => (⟨1, none⟩, Function.update db key none)

/-- `MIYA_DB_STATUS_OK`, as the database client has it. -/
def statusOk : Int := 1

namespace LightUTXOSet

/-- `generateUTxOKey`. -/
def generateUTxOKey (c : Crypto PKey) (txID : List UInt8) (index : UInt32) : List UInt8 :=
  c.sha1 (txID.take 32 ++ Bytes.le 4 index.toNat)

/-- `LightUTXOSet::get`; a status other than 0 is a miss. -/
def get (c : Crypto PKey) (bson : Bson) (db : List UInt8 → Buffer) (txID : List.Vector UInt8 32)
    (index : UInt32) : Option UTXO :=
  let response := (serve db (.get (generateUTxOKey c txID.toList index))).1
  if response.status ≠ 0 then none
  else do
    let value ← response.value
    let doc ← bson.decode value
    UTXO.importFromJson doc

/-- `LightUTXOSet::add` for an output: true for the status 0. -/
def addTxOut (c : Crypto PKey) (bson : Bson) (memory : UInt64) (db : List UInt8 → Buffer) (target : TxOut)
    (txID : List.Vector UInt8 32) (index : UInt32) : Option (Bool × (List UInt8 → Buffer)) := do
  let value ← (UTXO.register memory target txID index).dumpToBson bson
  let (response, db) := serve db (.add (generateUTxOKey c txID.toList index) value)
  return (response.status = 0, db)

/-- `LightUTXOSet::add` for a UTXO, through the database client: true for its own code. -/
def addUTXO (c : Crypto PKey) (bson : Bson) (db : List UInt8 → Buffer) (target : UTXO) :
    Option (Bool × (List UInt8 → Buffer)) := do
  let value ← target.dumpToBson bson
  let (response, db) := serve db (.add (generateUTxOKey c target.txID target.outputIndex) value)
  return (response.status = statusOk, db)

/-- `LightUTXOSet::remove`, through the database client. -/
def remove (c : Crypto PKey) (db : List UInt8 → Buffer) (txID : List.Vector UInt8 32) (index : UInt32) :
    Bool × (List UInt8 → Buffer) :=
  let (response, db) := serve db (.remove (generateUTxOKey c txID.toList index))
  (response.status = statusOk, db)

/-- An output with its place, as it is handed to the set; `memory` is what the constructor of
its UTXO finds in place of the amount. -/
structure Output where
  txID : List.Vector UInt8 32
  index : UInt32
  value : UInt64
  pubKeyHash : List.Vector UInt8 20
  memory : UInt64

def Output.txOut (o : Output) : TxOut := { value := o.value, pubKeyHash := some o.pubKeyHash.toList }

/-- A call on the set. -/
inductive Call where
  | addTxOut (o : Output)
  | addUTXO (o : Output)
  | remove (txID : List.Vector UInt8 32) (index : UInt32)

/-- The bytes stored for an output. -/
def stored (bson : Bson) (o : Output) : Option (List UInt8) :=
  (UTXO.register o.memory o.txOut o.txID o.index).dumpToBson bson

/-- A call, with whether it reports right: an add reports success just when the output is stored. An
output that cannot be dumped ends the program. -/
def step (c : Crypto PKey) (bson : Bson) (db : List UInt8 → Buffer) :
    Call → Option (Bool × (List UInt8 → Buffer))
  | .addTxOut o => do
    let (report, db) ← addTxOut c bson o.memory db o.txOut o.txID o.index
    return (report = decide (db (generateUTxOKey c o.txID.toList o.index) = stored bson o), db)
  | .addUTXO o => do
    let (report, db) ← addUTXO c bson db (.register o.memory o.txOut o.txID o.index)
    return (report = decide (db (generateUTxOKey c o.txID.toList o.index) = stored bson o), db)
  | .remove txID index => some (true, (remove c db txID index).2)

/-- A run of calls, with whether all of them report right. -/
def run (c : Crypto PKey) (bson : Bson) : (List UInt8 → Buffer) → List Call →
    Option (Bool × (List UInt8 → Buffer))
  | db, [] => some (true, db)
  | db, call :: calls => do
    let (right, db) ← step c bson db call
    let (later, db) ← run c bson db calls
    return (right && later, db)

/-- The outputs added and not removed since; the latest at the front. -/
def live : List Output → List Call → List Output
  | l, [] => l
  | l, .addTxOut o :: calls => live (o :: l) calls
  | l, .addUTXO o :: calls => live (o :: l) calls
  | l, .remove txID index :: calls => live (l.filter fun o => ¬(o.txID = txID ∧ o.index = index)) calls

/-- A UTXO is that of an output. -/
def Matches (u : UTXO) (o : Output) : Prop :=
  u.txID = o.txID.toList ∧ u.outputIndex = o.index ∧ u.amount = o.value ∧
  u.pkScript = p2pkhPkScript o.pubKeyHash.toList

/-- The set behaves as a map over a run: every add reports right, an output that is live is got
back, and nothing else is. -/
def MapLike (c : Crypto PKey) (bson : Bson) (calls : List Call) : Prop :=
  ∃ db, run c bson (fun _ => none) calls = some (true, db) ∧
    (∀ o ∈ live [] calls, ∃ u, get c bson db o.txID o.index = some u ∧ Matches u o) ∧
    ∀ txID index, (∀ o ∈ live [] calls, ¬(o.txID = txID ∧ o.index = index)) → get c bson db txID index = none

/-- What is found in place of the amount can be written to a document. -/
def Output.Dumps (o : Output) : Prop := o.memory.toNat < 2 ^ 63

/-- The call is no direct add, and what it adds can be dumped. -/
def Call.Reports : Call → Prop
  | .addTxOut _ => False
  | .addUTXO o => o.Dumps
  | .remove _ _ => True

/-- The server never answers with the status 0, so nothing is ever got. -/
theorem get_eq_none (bson : Bson) (db : List UInt8 → Buffer) (txID : List.Vector UInt8 32) (index : UInt32) :
    get c bson db txID index = none := by
  rw [get, serve]
  cases db (generateUTxOKey c txID.toList index) <;> simp

theorem stored_eq (bson : Bson) (o : Output) :
    stored bson o = bson.toBson
      ⟨o.txID.toList, o.index, o.memory, [0x76, 0xa9, 0x14] ++ o.pubKeyHash.toList ++ [0x88, 0xac]⟩ := by
  have taken : Bytes.take? 20 o.pubKeyHash.toList = some o.pubKeyHash.toList := by
    simp [Bytes.take?, List.take_of_length_le]
  simp only [stored, UTXO.dumpToBson, UTXO.register, Output.txOut, TxOut.exportRaw_p2pkhPkScript, taken,
    Option.map_some, Option.bind_eq_bind, Option.bind_some]
  simp only [List.cons_append, List.nil_append]

theorem stored_isSome_iff (bson : Bson) (o : Output) : (stored bson o).isSome ↔ o.Dumps := by
  rw [stored_eq, Bson.toBson, Output.Dumps]
  split_ifs with small
  · exact iff_of_true rfl small
  · exact iff_of_false nofun small

/-- A call comes back and reports right just when it is not a direct add, and what it adds can be dumped. -/
theorem step_iff (bson : Bson) (db : List UInt8 → Buffer) (call : Call) :
    (∃ db', step c bson db call = some (true, db')) ↔ call.Reports := by
  cases call with
  | addTxOut o =>
    simp only [Call.Reports, iff_false, not_exists]
    intro db' ran
    cases dump : (UTXO.register o.memory o.txOut o.txID o.index).dumpToBson bson with
    | none => simp [step, addTxOut, dump] at ran
    | some value => simp [step, addTxOut, serve, dump, stored] at ran
  | addUTXO o =>
    rw [Call.Reports, ← stored_isSome_iff bson o]
    cases dump : (UTXO.register o.memory o.txOut o.txID o.index).dumpToBson bson with
    | none => simp [step, addUTXO, dump, stored]
    | some value => simp [step, addUTXO, serve, dump, stored, statusOk]
  | remove txID index => simp [step, Call.Reports]

theorem run_iff (bson : Bson) (db : List UInt8 → Buffer) (calls : List Call) :
    (∃ db', run c bson db calls = some (true, db')) ↔ ∀ call ∈ calls, call.Reports := by
  induction calls generalizing db with
  | nil => simp [run]
  | cons call calls ih =>
    rw [List.forall_mem_cons, ← step_iff (c := c) bson db call]
    constructor
    · rintro ⟨db', ran⟩
      simp only [run, Option.bind_eq_bind, Option.bind_eq_some_iff, Option.pure_def, Option.some.injEq,
        Prod.mk.injEq, Bool.and_eq_true] at ran
      obtain ⟨⟨right, db₁⟩, first, ⟨later, db₂⟩, rest, ⟨rfl, rfl⟩, rfl⟩ := ran
      exact ⟨⟨db₁, first⟩, (ih db₁).mp ⟨db₂, rest⟩⟩
    · rintro ⟨⟨db₁, first⟩, rest⟩
      obtain ⟨db₂, later⟩ := (ih db₁).mpr rest
      exact ⟨db₂, by simp [run, first, later]⟩

/-- The set is a map just for the runs that add no output directly, add none that cannot be dumped
and leave none live: `get` and the direct `add` take 0 for success, where the server says 1. -/
theorem mapLike_iff (c : Crypto PKey) (bson : Bson) (calls : List Call) :
    MapLike c bson calls ↔ (∀ call ∈ calls, call.Reports) ∧ live [] calls = [] := by
  rw [← run_iff (c := c) bson fun _ => none]
  constructor
  · rintro ⟨db, ran, got, -⟩
    refine ⟨⟨db, ran⟩, ?_⟩
    rw [List.eq_nil_iff_forall_not_mem]
    intro o member
    obtain ⟨u, found, -⟩ := got o member
    simp [get_eq_none] at found
  · rintro ⟨⟨db, ran⟩, noneLive⟩
    exact ⟨db, ran, by simp [noneLive], fun _ _ _ => get_eq_none ..⟩

def sampleOutput : Output where
  txID := List.Vector.replicate 32 7
  index := 0
  value := 5
  pubKeyHash := List.Vector.replicate 20 3
  memory := ntohll 5

/-- The document of the sample output is encoded and decoded. -/
def sampleBson : Bson where
  encode _ := [1]
  decode _ := some ⟨List.replicate 32 7, 0, ntohll 5, [0x76, 0xa9, 0x14] ++ List.replicate 20 3 ++ [0x88, 0xac]⟩

/-- An output is added; the add reports failure and the output is not got back. -/
theorem mapLike_fails : ¬MapLike (Block.sample true) sampleBson [.addTxOut sampleOutput] := by
  rintro ⟨db, -, got, -⟩
  obtain ⟨u, found, -⟩ := got sampleOutput (by simp [live])
  simp [get_eq_none] at found

end LightUTXOSet

end MiyaCore.Chain
