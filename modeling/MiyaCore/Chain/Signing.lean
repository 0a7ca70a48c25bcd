import Mathlib.Algebra.Order.BigOperators.Group.List
import MiyaCore.Chain.TransactionCodec

namespace MiyaCore.Chain

open Chunks

variable {PKey : Type} {c : Crypto PKey}

/-- `TxIn::sign` stores a signature; the input cannot sign by itself. -/
def TxIn.sign (x : TxIn PKey) (sign : List UInt8) (isSigned : Bool) : TxIn PKey :=
  { x with signatureScript :=
      { x.signatureScript with sign := some sign, signLength := UInt32.ofNat sign.length, isSigned := isSigned } }

namespace P2PKH

/-- The loop of `P2PKH::sign` from input `i` on, with `n` inputs to go: the bytes handed to
`ECDSAManager::sign`, and the signed transaction. Signing with a null key has no defined result. -/
def signLoop (c : Crypto PKey) (signer : PKey → List UInt8 → List UInt8) :
    Nat → Nat → P2PKH PKey → Option (List (List UInt8) × P2PKH PKey)
  | 0, _, t => some ([], t)
  | n + 1, i, t => do
    let exported := t.ins.mapIdx fun j x => if i = j then x.exportRawWithPubKeyHash c else
      (x.exportRawWithEmpty, x)
    let ins := exported.map Prod.snd
    let (rawOuts, outs) ← exportAll TxOut.exportRaw t.outs
    let exportedRaw := t.frame (exported.map Prod.fst).flatten rawOuts
    guard (exportedRaw.length < 2 ^ 32)
    let x ← ins[i]?
    let pkey ← x.pkey
    let sign := signer pkey exportedRaw
    let (later, t) ← signLoop c signer n (i + 1) { t with ins := ins.set i (x.sign sign true), outs := outs }
    return (exportedRaw :: later, t)

/-- `P2PKH::sign`. -/
def sign (c : Crypto PKey) (signer : PKey → List UInt8 → List UInt8) (t : P2PKH PKey) :
    Option (List (List UInt8) × P2PKH PKey) :=
  t.signLoop c signer t.ins.length 0

/-- `txHashOnTxIn` for one input after the other, each on what the one before left behind. -/
def txHashes (c : Crypto PKey) : P2PKH PKey → List Nat → Option (List (List UInt8))
  | _, [] => some []
  | t, i :: order => do
    let (txHash, t) ← t.txHashOnTxIn c i
    let later ← txHashes c t order
    return txHash :: later

end P2PKH

/-- The key whose hash stands for an input while it is signed or verified. -/
def TxIn.key (x : TxIn PKey) : Option PKey := x.signatureScript.pkey.or x.pkey

/-- What a hash reads of an input. -/
def TxIn.hashed (x : TxIn PKey) : PrevOut × UInt32 × Option PKey := (x.prevOut, x.sequence, x.key)

theorem TxIn.exportRawWithPubKeyHash_fst (x : TxIn PKey) :
    (x.exportRawWithPubKeyHash c).1 = x.frame
      (match x.key with | none => [] | some k => c.sha1 (c.toRawPubKey k)) := by
  rw [exportRawWithPubKeyHash, key]
  cases x.signatureScript.pkey <;> cases x.pkey <;> rfl

@[simp] theorem TxIn.exportRawWithPubKeyHash_pkey (x : TxIn PKey) :
    (x.exportRawWithPubKeyHash c).2.pkey = x.pkey := rfl

theorem TxIn.exportRawWithPubKeyHash_key (x : TxIn PKey) :
    (x.exportRawWithPubKeyHash c).2.signatureScript.pkey = x.key := by
  rw [exportRawWithPubKeyHash, key]
  cases x.signatureScript.pkey <;> cases x.pkey <;> rfl

theorem TxIn.exportRawWithPubKeyHash_hashed (x : TxIn PKey) :
    (x.exportRawWithPubKeyHash c).2.hashed = x.hashed := by
  rw [exportRawWithPubKeyHash, hashed, hashed, key, key]
  cases x.signatureScript.pkey <;> cases x.pkey <;> rfl

namespace P2PKH

/-- Two transactions that say the same to a hash. -/
structure SameHashes (t t' : P2PKH PKey) : Prop where
  version : t'.version = t.version
  ins : t'.ins.map TxIn.hashed = t.ins.map TxIn.hashed
  outs : t'.outs.map TxOut.fields = t.outs.map TxOut.fields

theorem SameHashes.refl (t : P2PKH PKey) : SameHashes t t := ⟨rfl, rfl, rfl⟩

theorem SameHashes.trans {t t' t'' : P2PKH PKey} (first : SameHashes t t')
    (second : SameHashes t' t'') : SameHashes t t'' :=
  ⟨second.version.trans first.version, second.ins.trans first.ins, second.outs.trans first.outs⟩

theorem SameHashes.length {t t' : P2PKH PKey} (same : SameHashes t t') : t'.ins.length = t.ins.length := by
  simpa using congrArg List.length same.ins

theorem SameHashes.outsLength {t t' : P2PKH PKey} (same : SameHashes t t') :
    t'.outs.length = t.outs.length := by
  simpa using congrArg List.length same.outs

theorem SameHashes.locked {t t' : P2PKH PKey} (same : SameHashes t t') (locked : ∀ x ∈ t.outs, x.Locked) :
    ∀ x ∈ t'.outs, x.Locked := by
  intro x member
  have also : x.fields ∈ t.outs.map TxOut.fields := same.outs ▸ List.mem_map_of_mem member
  obtain ⟨z, there, alike⟩ := List.mem_map.mp also
  obtain ⟨hash, has⟩ := locked z there
  exact ⟨hash, (congrArg Prod.snd alike).symm.trans has⟩

theorem SameHashes.hashIns {t t' : P2PKH PKey} (same : SameHashes t t') (i : Nat) :
    t'.hashIns c i = t.hashIns c i := by
  apply List.ext_getElem?
  intro j
  have here := congrArg (·[j]?) same.ins
  simp only [List.getElem?_map] at here
  simp only [P2PKH.hashIns, List.getElem?_mapIdx]
  cases at_j : t.ins[j]? with
  | none => simp_all
  | some x =>
    rw [at_j, Option.map_some, Option.map_eq_some_iff] at here
    obtain ⟨y, at_j', alike⟩ := here
    obtain ⟨prevOut, rest⟩ := Prod.mk.inj alike
    obtain ⟨sequence, key⟩ := Prod.mk.inj rest
    simp only [at_j', Option.map_some, TxIn.exportRawWithPubKeyHash_fst, TxIn.frame,
      TxIn.exportRawWithEmpty, prevOut, sequence, key]

theorem SameHashes.txHash {t t' : P2PKH PKey} (same : SameHashes t t') (i : Nat) :
    (t'.txHashOnTxIn c i).map Prod.fst = (t.txHashOnTxIn c i).map Prod.fst :=
  txHash_congr same.version same.length same.outsLength (same.hashIns i)
    (TxOut.exportAll_of_fields same.outs)

/-- A hash leaves a transaction with the same hashes; the input it is on has its key at hand. -/
theorem sameHashes_of_txHashOnTxIn {t t' : P2PKH PKey} {i : Nat} {txHash : List UInt8}
    (run : t.txHashOnTxIn c i = some (txHash, t')) : SameHashes t t' := by
  rw [txHashOnTxIn_eq, Option.map_eq_some_iff] at run
  obtain ⟨outs, fits, result⟩ := run
  obtain ⟨written, -⟩ := Option.filter_eq_some_iff.mp fits
  obtain ⟨-, rfl⟩ := Prod.mk.inj result
  refine ⟨rfl, ?_, TxOut.fields_of_exportAll written⟩
  apply List.ext_getElem?
  intro j
  rw [List.getElem?_map, List.getElem?_map, List.getElem?_mapIdx, Option.map_map]
  congr 1
  funext x
  by_cases here : j = i
  · simp [here, TxIn.exportRawWithPubKeyHash_hashed]
  · simp [here]

/-- Hashes on the inputs in any order, each on what the one before left, are those of the transaction. -/
theorem SameHashes.txHashes {t t' : P2PKH PKey} (same : SameHashes t t') {raws : List (List UInt8)}
    {order : List Nat} (each : ∀ i ∈ order, ∃ raw, raws[i]? = some raw ∧
    (t.txHashOnTxIn c i).map Prod.fst = some raw) :
    t'.txHashes c order = order.mapM fun i => raws[i]? := by
  induction order generalizing t' with
  | nil => rfl
  | cons i order ih =>
    obtain ⟨⟨raw, known, hash⟩, others⟩ := List.forall_mem_cons.mp each
    rw [← same.txHash i, Option.map_eq_some_iff] at hash
    obtain ⟨⟨raw', t''⟩, run, rfl⟩ := hash
    rw [P2PKH.txHashes, run, List.mapM_cons, known]
    simp only [Option.bind_eq_bind, Option.bind_some, ih (same.trans (sameHashes_of_txHashOnTxIn run)) others]

/-- What `sign` puts together for an input is what `txHashOnTxIn` does. -/
theorem signLoop_succ {signer : PKey → List UInt8 → List UInt8} {n i : Nat} {t : P2PKH PKey}
    {r : List (List UInt8) × P2PKH PKey} :
    t.signLoop c signer (n + 1) i = some r ↔ ∃ raw t' x pkey later,
      t.txHashOnTxIn c i = some (raw, t') ∧ t'.ins[i]? = some x ∧
      x.pkey = some pkey ∧
      signLoop c signer n (i + 1) { t' with ins := t'.ins.set i (x.sign (signer pkey raw) true) } =
      some (later, r.2) ∧
      r.1 = raw :: later := by
  have exported : (t.ins.mapIdx fun j x => if i = j then x.exportRawWithPubKeyHash c else
    (x.exportRawWithEmpty, x)) =
      t.ins.mapIdx fun j x => if j = i then x.exportRawWithPubKeyHash c else (x.exportRawWithEmpty, x) := by
    simp only [eq_comm]
  simp only [signLoop, txHashOnTxIn, exported, Option.bind_eq_bind, Option.bind_eq_some_iff,
    Option.guard_eq_some', Option.pure_def, Option.some.injEq]
  constructor
  · rintro ⟨⟨rawOuts, outs⟩, written, -, fits, x, atI, pkey, has, ⟨later, t'⟩, rest, rfl⟩
    exact ⟨_, _, x, pkey, later, ⟨(rawOuts, outs), written, (), fits, rfl⟩, atI, has, rest, rfl⟩
  · rintro ⟨raw, t', x, pkey, later, ⟨⟨rawOuts, outs⟩, written, -, fits, result⟩, atI, has, rest, raws⟩
    obtain ⟨rfl, rfl⟩ := Prod.mk.inj result
    exact ⟨(rawOuts, outs), written, (), fits, x, atI, pkey, has, (later, r.2), rest, Prod.ext raws.symm rfl⟩

theorem sameHashes_sign {t : P2PKH PKey} {i : Nat} {x : TxIn PKey} (atI : t.ins[i]? = some x)
    (sign : List UInt8) (isSigned : Bool) :
    SameHashes t { t with ins := t.ins.set i (x.sign sign isSigned) } := by
  refine ⟨rfl, ?_, rfl⟩
  apply List.ext_getElem?
  intro j
  rw [List.getElem?_map, List.getElem?_map, List.getElem?_set]
  split_ifs with here inside
  · subst here
    rw [atI]
    rfl
  · subst here
    rw [List.getElem?_eq_none (by omega)]
  · rfl

/-- What is signed for each input is the hash on it, and signing leaves a transaction with the same hashes. -/
theorem signLoop_run {signer : PKey → List UInt8 → List UInt8} {n i : Nat} {t : P2PKH PKey}
    {r : List (List UInt8) × P2PKH PKey} (run : t.signLoop c signer n i = some r) :
    SameHashes t r.2 ∧ r.1.length = n ∧
      ∀ j < n, ∃ raw, r.1[j]? = some raw ∧ (t.txHashOnTxIn c (i + j)).map Prod.fst = some raw := by
  induction n generalizing i t r with
  | zero =>
    obtain rfl := Option.some.inj run
    exact ⟨SameHashes.refl t, rfl, by simp⟩
  | succ n ih =>
    obtain ⟨raws, t'⟩ := r
    obtain ⟨raw, hashed, x, pkey, later, hash, atI, -, rest, rfl⟩ := signLoop_succ.mp run
    have first := sameHashes_of_txHashOnTxIn hash
    have signed := first.trans (sameHashes_sign atI (signer pkey raw) true)
    obtain ⟨same, length, each⟩ := ih rest
    refine ⟨signed.trans same, congrArg Nat.succ length, fun j below => ?_⟩
    obtain _ | j := j
    · exact ⟨raw, rfl, by rw [Nat.add_zero, hash, Option.map_some]⟩
    · obtain ⟨raw', known, hash'⟩ := each j (by omega)
      refine ⟨raw', known, ?_⟩
      rw [← hash', signed.txHash, show i + (j + 1) = i + 1 + j by omega]

end P2PKH

/-- A signed input: its key, and a signature whose length is no opcode. -/
def TxIn.Signed (x : TxIn PKey) : Prop :=
  x.isSigned = true ∧ ∃ k sign, x.signatureScript.pkey = some k ∧ x.signatureScript.sign = some sign ∧
  sign.length < 0x76 ∧
    x.signatureScript.signLength = UInt32.ofNat sign.length

namespace P2PKH

/-- After `sign` every input is signed. -/
theorem signLoop_signed {signer : PKey → List UInt8 → List UInt8}
    (short : ∀ k m, (signer k m).length < 0x76) {n i : Nat} {t t' : P2PKH PKey}
    {raws : List (List UInt8)} (run : t.signLoop c signer n i = some (raws, t')) (size : i + n = t.ins.length)
    (before : ∀ j < i, ∀ x, t.ins[j]? = some x → x.Signed) : ∀ x ∈ t'.ins, x.Signed := by
  induction n generalizing i t raws with
  | zero =>
    obtain ⟨-, rfl⟩ := Prod.mk.inj (Option.some.inj run)
    intro x member
    obtain ⟨j, at_j⟩ := List.mem_iff_getElem?.mp member
    obtain ⟨inside, -⟩ := List.getElem?_eq_some_iff.mp at_j
    exact before j (by omega) x at_j
  | succ n ih =>
    obtain ⟨raw, hashed, x, pkey, later, hash, atI, has, rest, -⟩ := signLoop_succ.mp run
    rw [txHashOnTxIn_eq, Option.map_eq_some_iff] at hash
    obtain ⟨outs, -, result⟩ := hash
    obtain ⟨rfl, rfl⟩ := Prod.mk.inj result
    refine ih rest (by simp only [List.length_set, List.length_mapIdx]; omega) fun j below y at_j => ?_
    rw [List.getElem?_set] at at_j
    split_ifs at at_j with here inside
    · obtain rfl := Option.some.inj at_j
      rw [List.getElem?_mapIdx, Option.map_eq_some_iff] at atI
      obtain ⟨z, -, rfl⟩ := atI
      rw [if_pos rfl, TxIn.exportRawWithPubKeyHash_pkey] at has
      obtain ⟨k, key⟩ : ∃ k, z.key = some k := by
        rw [TxIn.key, has]
        cases z.signatureScript.pkey with
        | none => exact ⟨pkey, rfl⟩
        | some k => exact ⟨k, rfl⟩
      refine ⟨rfl, k, _, ?_, rfl, short _ _, rfl⟩
      rw [if_pos rfl]
      exact (TxIn.exportRawWithPubKeyHash_key z).trans key
    · rw [List.getElem?_mapIdx, Option.map_eq_some_iff] at at_j
      obtain ⟨z, at_z, rfl⟩ := at_j
      rw [if_neg (Ne.symm here)]
      exact before j (by omega) z at_z

end P2PKH

theorem dataSize_ofNat {n : Nat} (small : n < 0x76) : dataSize (UInt8.ofNat n) = n := by
  have value : (UInt8.ofNat n).toNat = n := by rw [UInt8.toNat_ofNat', Nat.mod_eq_of_lt (by omega)]
  have other : ∀ b : UInt8, 0x76 ≤ b.toNat → UInt8.ofNat n ≠ b := by
    rintro _ above rfl
    omega
  rw [dataSize, OpCode.parse, if_neg (other _ (by decide)), if_neg (other _ (by decide)),
    if_neg (other _ (by decide)), if_neg (other _ (by decide)), OpCode.dataLength, value]

/-- Data as an opcode that pushes it. -/
def dataChunk (data : List UInt8) (small : data.length < 0x76) : Chunk dataSize :=
  ⟨UInt8.ofNat data.length, data, (dataSize_ofNat small).symm⟩

theorem Script.exportElement_data {data : List UInt8} (small : data.length < 0x76) :
    exportElement (.data (UInt8.ofNat data.length), some data) = some (UInt8.ofNat data.length :: data) := by
  have value : (UInt8.ofNat data.length).toNat = data.length := by
    rw [UInt8.toNat_ofNat', Nat.mod_eq_of_lt (by omega)]
  have read : Buffer.read (some data) (OpCode.data (UInt8.ofNat data.length)).dataLength = some data :=
    read_whole value.symm
  simp [exportElement, OpCode.isData, read, OpCode.raw]

theorem Script.exportRaw_pair {sign key : List UInt8} (short : sign.length < 0x76)
    (short' : key.length < 0x76) :
    exportRaw [(.data (UInt8.ofNat sign.length), some sign), (.data (UInt8.ofNat key.length), some key)] =
      some (join [dataChunk sign short, dataChunk key short']) := by
  have small : sign.length + 1 + (key.length + 1) < 4294967296 := by omega
  simp [exportRaw, List.mapM_cons, exportElement_data short, exportElement_data short', guard, dataChunk, small]

section Codec

variable (inverse : ∀ k, c.toPkey (c.toRawPubKey k) = some k)
  (keyLength : ∀ k, 20 < (c.toRawPubKey k).length ∧ (c.toRawPubKey k).length < 0x76)

include inverse keyLength

/-- A signed input is read back with the key that signed it. -/
theorem TxIn.exportRaw_signed (x : TxIn PKey) (signed : x.Signed) : ∃ part x' y,
    x.exportRawWithSignatureScript c = some (part, x') ∧ 0 < part.length ∧
    (∀ rest, importRaw c (part ++ rest) = some (y, part.length)) ∧ y.hashed = x.hashed := by
  obtain ⟨isSigned, k, sign, key, has, short, signLength⟩ := signed
  obtain ⟨long, fits⟩ := keyLength k
  have length : (join [dataChunk sign short, dataChunk (c.toRawPubKey k) fits]).length =
      sign.length + (c.toRawPubKey k).length + 2 := by
    simp only [join_cons, join_nil, dataChunk, List.length_append, List.length_cons, List.length_nil]
    omega
  have exported : ∃ x', x.exportRawWithSignatureScript c =
      some (x.frame (join [dataChunk sign short, dataChunk (c.toRawPubKey k) fits]), x') := by
    have value : (UInt32.ofNat sign.length).toNat = sign.length := by
      rw [UInt32.toNat_ofNat', Nat.mod_eq_of_lt (by omega)]
    have pair := Script.exportRaw_pair short fits
    rw [exportRawWithSignatureScript, if_pos isSigned, SignatureScript.exportRawWithSignatureScript, key]
    simp [Script.pushBack, OpCode.isData, has, signLength, value, pair]
  obtain ⟨x', written⟩ := exported
  obtain ⟨y, read, prevOut, sequence, pkey⟩ :=
    importRaw_pair (c := c) (show 20 < _ by rw [length]; omega) (by rw [length]; omega) x
  refine ⟨_, x', y, written, ?_, read, ?_⟩
  · simp only [frame, List.length_append, PrevOut.length_exportRaw]
    omega
  · have same : y.key = x.key := by
      rw [TxIn.key, TxIn.key, pkey, key]
      change (c.toPkey (c.toRawPubKey k)).or y.pkey = _
      rw [inverse]
      rfl
    rw [hashed, hashed, prevOut, sequence, same]

namespace P2PKH

/-- Signed inputs and locked outputs are read back as they were, as far as a hash sees. -/
theorem importRawSequentially_signed {t t' : P2PKH PKey} {raw : List UInt8} (signed : ∀ x ∈ t.ins, x.Signed)
    (locked : ∀ x ∈ t.outs, x.Locked) (written : t.exportRaw c = some (raw, t')) (rest : List UInt8) :
    ∃ y, importRawSequentially c (raw ++ rest) = some (y, raw.length) ∧ SameHashes t y := by
  obtain ⟨rawIns, ins, rawOuts, outs, writtenIns, writtenOuts, fits, result⟩ :=
    (exportRaw_eq_some (List.all_eq_true.mpr fun x member => (signed x member).1)).mp written
  obtain ⟨rfl, -⟩ := Prod.mk.inj result
  obtain ⟨partsIns, ins', ys, writtenIns', some, readsIns, sameIns⟩ :=
    exportAll_reads (TxIn.exportRaw_signed inverse keyLength) signed
  obtain ⟨partsOuts, outs', zs, writtenOuts', size, readsOuts, sameOuts⟩ := TxOut.exportAll_locked locked
  obtain ⟨rfl, -⟩ := Prod.mk.inj (Option.some.inj (writtenIns.symm.trans writtenIns'))
  obtain ⟨rfl, -⟩ := Prod.mk.inj (Option.some.inj (writtenOuts.symm.trans writtenOuts'))
  have countIns : partsIns.length = t.ins.length := by
    rw [readsIns.length_eq, ← List.length_map TxIn.hashed, sameIns, List.length_map]
  have countOuts : partsOuts.length = t.outs.length := by
    rw [readsOuts.length_eq, ← List.length_map TxOut.fields, sameOuts, List.length_map]
  have atLeast : partsIns.length ≤ partsIns.flatten.length := by
    rw [List.length_flatten, ← List.length_map List.length]
    exact List.length_le_sum_of_one_le _ (List.forall_mem_map.mpr some)
  rw [length_frame, size] at fits
  exact ⟨_, importRawSequentially_frame readsIns readsOuts countIns countOuts (by omega)
    (by omega) rest, rfl, sameIns, sameOuts⟩

/-- What `sign` hands to the signer for an input is what a later hash on the input is over: on the signed
transaction, whichever order the hashes come in, and on the transaction read back from its export. -/
theorem sign_txHashes (signer : PKey → List UInt8 → List UInt8) (signLength : ∀ k m, (signer k m).length < 0x76)
    (t t' : P2PKH PKey) (raws : List (List UInt8)) (run : t.sign c signer = some (raws, t')) :
    raws.length = t.ins.length ∧
    (∀ order : List Nat, (∀ i ∈ order, i < t.ins.length) → t'.txHashes c order = order.mapM fun i => raws[i]?) ∧
    ((∀ x ∈ t.outs, x.Locked) → ∀ raw t'', t'.exportRaw c = some (raw, t'') → ∀ rest, ∃ y,
      importRawSequentially c (raw ++ rest) = some (y, raw.length) ∧
      ∀ order : List Nat, (∀ i ∈ order, i < t.ins.length) → y.txHashes c order = order.mapM
    fun i => raws[i]?) := by
  obtain ⟨same, length, each⟩ := signLoop_run run
  have known : ∀ order : List Nat, (∀ i ∈ order, i < t.ins.length) → ∀ i ∈ order, ∃ raw, raws[i]? = some raw ∧
      (t.txHashOnTxIn c i).map Prod.fst = some raw := by
    intro order inside i member
    simpa using each i (inside i member)
  refine ⟨length, fun order inside => same.txHashes (known order inside), fun locked raw t'' written rest => ?_⟩
  have signed := signLoop_signed signLength run (Nat.zero_add _) (by simp)
  obtain ⟨y, read, alike⟩ := importRawSequentially_signed inverse keyLength signed
    (same.locked locked) written rest
  exact ⟨y, read, fun order inside => (same.trans alike).txHashes (known order inside)⟩

end P2PKH

end Codec

namespace P2PKH

theorem length_hashIns (t : P2PKH PKey) (i : Nat) : (t.hashIns c i).flatten.length ≤ 64 * t.ins.length := by
  have each : ∀ l ∈ t.hashIns c i, l.length ≤ 64 := by
    intro l member
    obtain ⟨j, -, rfl⟩ := List.mem_mapIdx.mp member
    split_ifs
    · rw [TxIn.exportRawWithPubKeyHash_fst]
      cases (t.ins[j]).key <;> simp [TxIn.frame, c.length_sha1]
    · simp [TxIn.exportRawWithEmpty]
  rw [List.length_flatten]
  refine (List.sum_le_card_nsmul _ 64 (List.forall_mem_map.mpr each)).trans (le_of_eq ?_)
  rw [List.length_map, hashIns, List.length_mapIdx, nsmul_eq_mul, Nat.cast_id, mul_comm]

theorem exists_txHashOnTxIn {t : P2PKH PKey} (locked : ∀ x ∈ t.outs, x.Locked)
    (fits : 12 + 64 * t.ins.length + 41 * t.outs.length < 2 ^ 32) (i : Nat) :
    ∃ raw t', t.txHashOnTxIn c i = some (raw, t') := by
  obtain ⟨parts, outs', _, written, size, -, -⟩ := TxOut.exportAll_locked locked
  have short := t.length_hashIns (c := c) i
  have small : (t.frame (t.hashIns c i).flatten parts.flatten).length < 2 ^ 32 := by
    rw [length_frame, size]
    omega
  rw [txHashOnTxIn_eq, written, Option.filter_some, if_pos (decide_eq_true small)]
  exact ⟨_, _, rfl⟩

theorem pkeys_of_txHashOnTxIn {t t' : P2PKH PKey} {i : Nat} {txHash : List UInt8}
    (run : t.txHashOnTxIn c i = some (txHash, t')) :
    t'.ins.map TxIn.pkey = t.ins.map TxIn.pkey := by
  rw [txHashOnTxIn_eq, Option.map_eq_some_iff] at run
  obtain ⟨outs, -, result⟩ := run
  obtain ⟨-, rfl⟩ := Prod.mk.inj result
  apply List.ext_getElem?
  intro j
  rw [List.getElem?_map, List.getElem?_map, List.getElem?_mapIdx, Option.map_map]
  congr 1
  funext x
  by_cases here : j = i <;> simp [here]

/-- Inputs with keys and locked outputs can be signed, as long as an `unsigned int` counts the bytes. -/
theorem exists_sign (signer : PKey → List UInt8 → List UInt8) {t : P2PKH PKey}
    (keyed : ∀ x ∈ t.ins, x.pkey ≠ none) (locked : ∀ x ∈ t.outs, x.Locked)
    (fits : 12 + 64 * t.ins.length + 41 * t.outs.length < 2 ^ 32) :
    ∃ r, t.sign c signer = some r := by
  have loop : ∀ (n i : Nat) (t : P2PKH PKey), i + n ≤ t.ins.length → (∀ x ∈ t.ins, x.pkey ≠ none) →
    (∀ x ∈ t.outs, x.Locked) →
      12 + 64 * t.ins.length + 41 * t.outs.length < 2 ^ 32 → ∃ r, t.signLoop c signer n i = some r := by
    intro n
    induction n with
    | zero => exact fun i t _ _ _ _ => ⟨_, rfl⟩
    | succ n ih =>
      intro i t inside keyed locked fits
      obtain ⟨raw, t', hash⟩ := exists_txHashOnTxIn (c := c) locked fits i
      have same := sameHashes_of_txHashOnTxIn hash
      have keyed' : ∀ x ∈ t'.ins, x.pkey ≠ none := by
        intro x member
        have also : x.pkey ∈ t.ins.map TxIn.pkey := pkeys_of_txHashOnTxIn hash ▸ List.mem_map_of_mem member
        obtain ⟨z, there, alike⟩ := List.mem_map.mp also
        exact alike ▸ keyed z there
      have within : i < t'.ins.length := by rw [same.length]; omega
      have atI : t'.ins[i]? = some t'.ins[i] := List.getElem?_eq_getElem within
      obtain ⟨pkey, has⟩ := Option.ne_none_iff_exists'.mp (keyed' _ (List.getElem_mem within))
      obtain ⟨⟨later, t''⟩, rest⟩ := ih (i + 1)
        { t' with ins := t'.ins.set i (t'.ins[i].sign (signer pkey raw) true) }
        (by rw [List.length_set, same.length]; omega)
        (fun x member => (List.mem_or_eq_of_mem_set member).elim (keyed' x) fun is => is ▸
        (show t'.ins[i].pkey ≠ none from keyed' _ (List.getElem_mem within))) (same.locked locked)
        (by rw [List.length_set, same.length, ← same.outsLength] at *; exact fits)
      exact ⟨(raw :: later, t''), signLoop_succ.mpr ⟨raw, t', _, pkey, later, hash, atI, has, rest, rfl⟩⟩
  exact loop _ _ _ (by omega) keyed locked fits

/-- Two inputs to sign and a locked output. -/
def unsignedTx : P2PKH Unit where
  ins := [{ prevOut := Block.sampleOut, pkey := some () },
    { prevOut := ⟨List.Vector.replicate 32 7, 1⟩, pkey := some () }]
  outs := [{ value := 5, pubKeyHash := some (List.replicate 20 0) }]

/-- The hashes on the second input and then on the first, after signing and after an export and import. -/
theorem sign_txHashes_sample : ∃ raws t', unsignedTx.sign (Block.sample true)
    (fun _ _ => List.replicate 70 1) = some (raws, t') ∧
    raws.length = 2 ∧ t'.txHashes (Block.sample true) [1, 0] = [1, 0].mapM (fun i => raws[i]?) ∧
    ∀ raw t'', t'.exportRaw (Block.sample true) = some (raw, t'') → ∀ rest, ∃ y,
      importRawSequentially (Block.sample true) (raw ++ rest) = some (y, raw.length) ∧
      y.txHashes (Block.sample true) [1, 0] = [1, 0].mapM fun i => raws[i]? := by
  have locked : ∀ x ∈ unsignedTx.outs, x.Locked := by
    rintro x (_ | ⟨_, ⟨⟩⟩)
    exact ⟨List.Vector.replicate 20 0, rfl⟩
  obtain ⟨⟨raws, t'⟩, run⟩ := exists_sign (c := Block.sample true) (fun _ _ => List.replicate 70 1)
    (t := unsignedTx) (by simp [unsignedTx]) locked (by decide)
  obtain ⟨count, here, there⟩ := sign_txHashes (c := Block.sample true) (fun _ => rfl)
    (fun _ => by simp [Block.sample]) (fun _ _ => List.replicate 70 1)
    (fun _ _ => by simp) unsignedTx t' raws run
  refine ⟨raws, t', run, count, here [1, 0] (by decide), fun raw t'' written rest => ?_⟩
  obtain ⟨y, read, same⟩ := there locked raw t'' written rest
  exact ⟨y, read, same [1, 0] (by decide)⟩

end P2PKH

end MiyaCore.Chain
