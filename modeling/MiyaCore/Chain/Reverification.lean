import MiyaCore.Chain.Signing

namespace MiyaCore.Chain

variable {PKey : Type} {c : Crypto PKey} {utxoSet : UtxoSet}

/-- `P2PKH::verify` turns an input down before it takes its hash: its output is not in the set,
or one of the two scripts is empty. -/
def TurnsDown (utxoSet : UtxoSet) (x : TxIn PKey) : Prop :=
  ∀ utxo, utxoSet.get x.prevOut = some utxo → utxo.pkScript = [] ∨ x.signatureScript.script = []

namespace TxIn

theorem exportRawWithPubKeyHash_keyless {x : TxIn PKey} (none : x.key = none) :
    (x.exportRawWithPubKeyHash c).2 = { x with scriptBytes := 0 } := by
  obtain ⟨own, given⟩ := Option.or_eq_none_iff.mp none
  simp only [exportRawWithPubKeyHash, SignatureScript.exportRawWithPubKeyHash, own, given, Option.or_none]
  simp [← own]

theorem exportRawWithPubKeyHash_keyed {x : TxIn PKey} {k : PKey} (has : x.key = some k) :
    (x.exportRawWithPubKeyHash c).2 =
      { x with signatureScript := { x.signatureScript with pkey := some k, script := [] }, scriptBytes := 20 } := by
  rw [key] at has
  simp only [exportRawWithPubKeyHash, SignatureScript.exportRawWithPubKeyHash, has, c.length_sha1]
  rfl

end TxIn

namespace P2PKH

/-- The transaction once hashes on its first `k` inputs were taken. -/
def visit (c : Crypto PKey) (k : Nat) (t : P2PKH PKey) : P2PKH PKey where
  version := t.version
  ins := t.ins.mapIdx fun i x => if i < k then (x.exportRawWithPubKeyHash c).2 else x
  outs := if k = 0 then t.outs else ((exportAll TxOut.exportRaw t.outs).map Prod.snd).getD t.outs

theorem visit_zero (t : P2PKH PKey) : t.visit c 0 = t := by
  have same : t.ins.mapIdx (fun _ x => x) = t.ins := List.ext_getElem? fun i => by simp
  simp [visit, same]

@[simp] theorem length_ins_visit (t : P2PKH PKey) (k : Nat) : (t.visit c k).ins.length = t.ins.length :=
  List.length_mapIdx

theorem getElem?_visit (t : P2PKH PKey) (k i : Nat) :
    (t.visit c k).ins[i]? = (t.ins[i]?).map fun x => if i < k then (x.exportRawWithPubKeyHash c).2 else x :=
  List.getElem?_mapIdx

/-- What verification leaves behind has the hashes it had before. -/
theorem sameHashes_visit (t : P2PKH PKey) (k : Nat) : SameHashes t (t.visit c k) := by
  refine ⟨rfl, List.ext_getElem? fun i => ?_, ?_⟩
  · rw [List.getElem?_map, List.getElem?_map, getElem?_visit, Option.map_map]
    congr 1
    funext x
    by_cases before : i < k <;> simp [before, TxIn.exportRawWithPubKeyHash_hashed]
  · rw [visit]
    split_ifs
    · rfl
    · cases written : exportAll TxOut.exportRaw t.outs with
      | none => rfl
      | some r => exact TxOut.fields_of_exportAll written

/-- The hash on the next input leaves that input visited as well. -/
theorem txHashOnTxIn_visit (t : P2PKH PKey) (k : Nat) :
    (t.visit c k).txHashOnTxIn c k = ((t.txHashOnTxIn c k).map Prod.fst).map
      fun txHash => (txHash, t.visit c (k + 1)) := by
  have same := (t.sameHashes_visit (c := c) k).txHash (c := c) k
  cases run : (t.visit c k).txHashOnTxIn c k with
  | none => rw [run] at same; rw [← same]; rfl
  | some r =>
    rw [run] at same
    rw [← same]
    rw [txHashOnTxIn_eq, Option.map_eq_some_iff] at run
    obtain ⟨outs, fits, rfl⟩ := run
    obtain ⟨written, -⟩ := Option.filter_eq_some_iff.mp fits
    simp only [Option.map_some, Option.some.injEq, Prod.mk.injEq, true_and]
    have ins : (t.visit c k).ins.mapIdx (fun i x => if i = k then (x.exportRawWithPubKeyHash c).2 else x) =
        (t.visit c (k + 1)).ins := by
      apply List.ext_getElem?
      intro i
      rw [List.getElem?_mapIdx, getElem?_visit, getElem?_visit, Option.map_map]
      congr 1
      funext x
      rcases Nat.lt_trichotomy i k with before | rfl | after
      · simp [before, before.ne, before.le.trans_lt (Nat.lt_succ_self k)]
      · simp
      · simp [after.ne', Nat.not_lt.mpr after.le, Nat.not_lt.mpr (Nat.succ_le_of_lt after)]
    have outs' : outs.2 = (t.visit c (k + 1)).outs := by
      rw [visit] at written
      simp only [visit, Nat.succ_ne_zero, if_false]
      split_ifs at written with start
      · simp [written]
      · cases first : exportAll TxOut.exportRaw t.outs with
        | none => rw [first] at written; simp [first] at written
        | some r =>
          rw [first, Option.map_some, Option.getD_some, exportAll_again TxOut.exportRaw_again first] at written
          rw [Option.map_some, Option.getD_some]
          exact (congrArg Prod.snd (Option.some.inj written)).symm
    rw [ins, outs']
    rfl

/-- Verification goes through `k` inputs and ends there with this verdict. -/
structure Stops (c : Crypto PKey) (utxoSet : UtxoSet) (t : P2PKH PKey) (k : Nat) (flag : Bool) : Prop where
  found : ∀ j < k, ∀ x, t.ins[j]? = some x → t.Found c utxoSet j x
  ends : k = t.ins.length ∧ flag = decide (k ≠ 0) ∨ flag = false ∧ ∃ x, t.ins[k]? = some x ∧ TurnsDown utxoSet x

theorem Found.not_turnsDown {t : P2PKH PKey} {i : Nat} {x : TxIn PKey} (found : t.Found c utxoSet i x) :
    ¬TurnsDown utxoSet x := by
  obtain ⟨utxo, -, lookup, noPk, noSign, -⟩ := found
  exact fun down => (down utxo lookup).elim noPk noSign

theorem verifyLoop_turnsDown {t : P2PKH PKey} {n i : Nat} {flag : Bool} {x : TxIn PKey}
    (there : t.ins[i]? = some x) (down : TurnsDown utxoSet x) :
    t.verifyLoop c utxoSet (n + 1) i flag = some (false, t) := by
  simp only [verifyLoop, there, Option.bind_eq_bind, Option.bind_some]
  cases lookup : utxoSet.get x.prevOut with
  | none => rfl
  | some utxo =>
    rcases down utxo lookup with empty | empty
    · simp [empty]
    · simp [empty]

/-- An input that is not turned down is passed when it is found, with whatever verdict of its script. -/
theorem verifyLoop_visit {t : P2PKH PKey} {n i : Nat} {flag : Bool} {x : TxIn PKey}
    {r : Bool × P2PKH PKey} (there : t.ins[i]? = some x) (goes : ¬TurnsDown utxoSet x) :
    (t.visit c i).verifyLoop c utxoSet (n + 1) i flag = some r ↔
      t.Found c utxoSet i x ∧ (t.visit c (i + 1)).verifyLoop c utxoSet n (i + 1) true = some r := by
  have here : (t.visit c i).ins[i]? = some x := by rw [getElem?_visit, there]; simp
  simp only [TurnsDown, not_forall, not_or] at goes
  obtain ⟨utxo, lookup, noPk, noSign⟩ := goes
  have pk : ¬utxo.pkScript.length ≤ 0 := by simpa using noPk
  have sign : ¬x.signatureScript.script.length ≤ 0 := by simpa using noSign
  simp only [verifyLoop, here, lookup, pk, sign, if_false, Option.bind_eq_bind, Option.bind_some,
    txHashOnTxIn_visit]
  cases hash : (t.txHashOnTxIn c i).map Prod.fst with
  | none => simp [Found, hash]
  | some txHash => cases verdict : verifyP2PKHScript c utxo.pkScript x.signatureScript.script txHash <;>
      simp [Found, hash, lookup, noPk, noSign, verdict]

theorem verifyLoop_eq_some {t : P2PKH PKey} {n : Nat} :
    ∀ {i : Nat} {flag flag' : Bool} {t' : P2PKH PKey}, i + n = t.ins.length →
    ((t.visit c i).verifyLoop c utxoSet n i flag = some (flag', t') ↔
      ∃ k, i ≤ k ∧ (∀ j, i ≤ j → j < k → ∀ x, t.ins[j]? = some x → t.Found c utxoSet j x) ∧
        (k = t.ins.length ∧ flag' = (flag || decide (i < k)) ∨ flag' = false ∧ ∃ x, t.ins[k]? = some x ∧
        TurnsDown utxoSet x) ∧
        t' = t.visit c k) := by
  induction n with
  | zero =>
    intro i flag flag' t' size
    rw [verifyLoop, Option.some.injEq, Prod.mk.injEq]
    constructor
    · rintro ⟨rfl, rfl⟩
      exact ⟨i, le_rfl, fun j after before => by omega, .inl ⟨by omega, by simp⟩, rfl⟩
    · rintro ⟨k, after, -, ⟨rfl, rfl⟩ | ⟨rfl, x, there, -⟩, rfl⟩
      · obtain rfl : i = t.ins.length := by omega
        simp
      · obtain ⟨inside, -⟩ := List.getElem?_eq_some_iff.mp there
        omega
  | succ n ih =>
    intro i flag flag' t' size
    obtain ⟨x, there⟩ : ∃ x, t.ins[i]? = some x := ⟨t.ins[i], List.getElem?_eq_getElem (by omega)⟩
    by_cases down : TurnsDown utxoSet x
    · have here : (t.visit c i).ins[i]? = some x := by rw [getElem?_visit, there]; simp
      rw [verifyLoop_turnsDown here down, Option.some.injEq, Prod.mk.injEq]
      constructor
      · rintro ⟨rfl, rfl⟩
        exact ⟨i, le_rfl, fun j after before => by omega, .inr ⟨rfl, x, there, down⟩, rfl⟩
      · rintro ⟨k, after, found, ends, rfl⟩
        obtain rfl : i = k := by
          by_contra other
          exact (found i le_rfl (by omega) x there).not_turnsDown down
        rcases ends with ⟨rfl, -⟩ | ⟨rfl, -⟩
        · omega
        · exact ⟨rfl, rfl⟩
    · rw [verifyLoop_visit there down, ih (by omega)]
      constructor
      · rintro ⟨first, k, after, found, ends, rfl⟩
        refine ⟨k, by omega, fun j from_i before y at_j => ?_, ?_, rfl⟩
        · rcases Nat.eq_or_lt_of_le from_i with rfl | above
          · obtain rfl : x = y := Option.some.inj (there.symm.trans at_j)
            exact first
          · exact found j above before y at_j
        · have before : i < k := after
          simpa [before] using ends
      · rintro ⟨k, after, found, ends, rfl⟩
        have above : i < k := by
          rcases Nat.eq_or_lt_of_le after with rfl | above
          · rcases ends with ⟨rfl, -⟩ | ⟨-, y, at_k, down'⟩
            · omega
            · exact absurd (Option.some.inj (there.symm.trans at_k) ▸ down') down
          · exact above
        exact ⟨found i le_rfl above x there, k, above, fun j later => found j (by omega),
          by simpa [above] using ends, rfl⟩

theorem verify_eq_some {t : P2PKH PKey} {flag : Bool} {t' : P2PKH PKey} :
    t.verify c utxoSet = some (flag, t') ↔ ∃ k, t.Stops c utxoSet k flag ∧ t' = t.visit c k := by
  have loop : t.verifyLoop c utxoSet t.ins.length 0 false = some (flag, t') ↔ _ :=
    t.visit_zero (c := c) ▸ verifyLoop_eq_some (Nat.zero_add t.ins.length)
  rw [verify, loop]
  constructor
  · rintro ⟨k, -, found, ends, rfl⟩
    exact ⟨k, ⟨fun j => found j (Nat.zero_le _), by simpa [Nat.pos_iff_ne_zero] using ends⟩, rfl⟩
  · rintro ⟨k, stops, rfl⟩
    exact ⟨k, Nat.zero_le _, fun j _ => stops.found j, by simpa [Nat.pos_iff_ne_zero] using stops.ends, rfl⟩

/-- The bytes an export writes come from the version, the bytes of the inputs and those of the outputs. -/
theorem exportRaw_fst (t : P2PKH PKey) : (t.exportRaw c).map Prod.fst =
    if t.ins.all TxIn.isSigned then
      ((exportAll (TxIn.exportRawWithSignatureScript c) t.ins).map Prod.fst).bind
      fun rawIns => ((exportAll TxOut.exportRaw t.outs).map Prod.fst).bind fun rawOuts =>
        if (t.frame rawIns rawOuts).length < 2 ^ 32 then some (t.frame rawIns rawOuts) else none
    else some [] := by
  rw [exportRaw]
  split_ifs
  · cases exportAll (TxIn.exportRawWithSignatureScript c) t.ins <;> cases exportAll TxOut.exportRaw
      t.outs <;> try rfl
    simp only [Option.bind_eq_bind, Option.bind_some, Option.map_some, guard]
    split_ifs <;> rfl
  · rfl

/-- What an input of a transaction is unlocked with: signature, key and script, and the script's length. -/
def unlocking (x : TxIn PKey) : SignatureScript PKey × UInt32 × Option PKey :=
  (x.signatureScript, x.scriptBytes, x.pkey)

/-- Verification changes nothing that an input is unlocked with; a second verification has the same
verdict, and bytes and ID are those from before. -/
def Repeatable (c : Crypto PKey) (utxoSet : UtxoSet) (t : P2PKH PKey) : Prop :=
  ∃ flag t', t.verify c utxoSet = some (flag, t') ∧ t'.ins.map unlocking = t.ins.map unlocking ∧
    (t'.verify c utxoSet).map Prod.fst = some flag ∧
    (t'.exportRaw c).map Prod.fst = (t.exportRaw c).map Prod.fst ∧
    (t'.calcTxID c).map Prod.fst = (t.calcTxID c).map Prod.fst

/-- The hash on an input with a script empties the script, or sets the length of the script to 0. -/
theorem unlocking_exportRawWithPubKeyHash {x : TxIn PKey} (script : x.signatureScript.script ≠ []) :
    unlocking (x.exportRawWithPubKeyHash c).2 = unlocking x ↔ x.key = none ∧ x.scriptBytes = 0 := by
  cases key : x.key with
  | none =>
    rw [TxIn.exportRawWithPubKeyHash_keyless key, unlocking, unlocking]
    simp [eq_comm]
  | some k =>
    rw [TxIn.exportRawWithPubKeyHash_keyed key, unlocking, unlocking]
    simp only [Prod.mk.injEq, reduceCtorEq, false_and, iff_false, not_and]
    intro same
    exact absurd (congrArg SignatureScript.script same).symm script

theorem Stops.congr {t t' : P2PKH PKey} {k : Nat} {flag : Bool} (same : SameHashes t t') (ins : t'.ins = t.ins)
    (stops : t.Stops c utxoSet k flag) : t'.Stops c utxoSet k flag := by
  refine ⟨fun j before x there => ?_, ins ▸ stops.ends⟩
  obtain ⟨utxo, txHash, lookup, pk, script, hash, verdict⟩ := stops.found j before x (ins ▸ there)
  exact ⟨utxo, txHash, lookup, pk, script, (same.txHash j).trans hash, verdict⟩

/-- Verification can be repeated just for the transactions whose inputs, up to the first one that is
turned down before its hash, have no key and an empty script length. -/
theorem repeatable_iff (c : Crypto PKey) (utxoSet : UtxoSet) (t : P2PKH PKey) : Repeatable c utxoSet t ↔
    ∃ k, (∀ j < k, ∀ x, t.ins[j]? = some x → t.Found c utxoSet j x ∧ x.key = none ∧ x.scriptBytes = 0) ∧
      (k = t.ins.length ∨ ∃ x, t.ins[k]? = some x ∧ TurnsDown utxoSet x) := by
  constructor
  · rintro ⟨flag, t', run, same, -⟩
    obtain ⟨k, stops, rfl⟩ := verify_eq_some.mp run
    refine ⟨k, fun j before x there => ?_, stops.ends.imp And.left And.right⟩
    have found := stops.found j before x there
    have here := congrArg (·[j]?) same
    simp only [List.getElem?_map, getElem?_visit, there, before, if_true, Option.map_some,
      Option.some.injEq] at here
    obtain ⟨-, -, -, -, script, -⟩ := found
    exact ⟨stops.found j before x there, (unlocking_exportRawWithPubKeyHash script).mp here⟩
  · rintro ⟨k, keyless, ends⟩
    obtain ⟨flag, stops⟩ : ∃ flag, t.Stops c utxoSet k flag := by
      rcases ends with rfl | down
      · exact ⟨_, fun j before x there => (keyless j before x there).1, .inl ⟨rfl, rfl⟩⟩
      · exact ⟨false, fun j before x there => (keyless j before x there).1, .inr ⟨rfl, down⟩⟩
    have same := t.sameHashes_visit (c := c) k
    have ins : (t.visit c k).ins = t.ins := by
      apply List.ext_getElem?
      intro j
      rw [getElem?_visit]
      cases there : t.ins[j]? with
      | none => rfl
      | some x =>
        rw [Option.map_some]
        split_ifs with before
        · obtain ⟨-, key, empty⟩ := keyless j before x there
          rw [TxIn.exportRawWithPubKeyHash_keyless key, ← empty]
        · rfl
    have bytes : ((t.visit c k).exportRaw c).map Prod.fst = (t.exportRaw c).map Prod.fst := by
      have frames : (t.visit c k).frame = t.frame := by
        funext rawIns rawOuts
        rw [frame, frame, same.version, same.outsLength, ins]
      rw [exportRaw_fst, exportRaw_fst, ins, frames, TxOut.exportAll_of_fields same.outs]
    refine ⟨flag, t.visit c k, verify_eq_some.mpr ⟨k, stops, rfl⟩, by rw [ins], ?_, bytes, ?_⟩
    · rw [verify_eq_some.mpr ⟨k, stops.congr same ins, rfl⟩]
      rfl
    · rw [calcTxID_fst, calcTxID_fst, bytes]

end P2PKH

end MiyaCore.Chain
