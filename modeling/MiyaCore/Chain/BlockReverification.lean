import MiyaCore.Chain.Reverification

namespace MiyaCore.Chain

variable {PKey : Type} {c : Crypto PKey} {utxoSet : UtxoSet}

theorem runAll_cons {α β : Type} {f : α → Option (β × α)} {x : α} {l : List α} {r : List β × List α} :
    runAll f (x :: l) = some r ↔ ∃ y x' ys l', f x = some (y, x') ∧ runAll f l = some (ys, l') ∧
      r = (y :: ys, x' :: l') := by
  rw [runAll, List.mapM_cons, runAll]
  cases first : f x with
  | none => simp
  | some p => cases others : l.mapM f <;> simp [Prod.ext_iff, eq_comm]

/-- The script that the export sets for the key `k`. -/
def SignatureScript.unlock (c : Crypto PKey) (s : SignatureScript PKey) (k : PKey) : Script :=
  (Script.pushBack [] (.data (UInt8.ofNat s.signLength.toNat)) s.sign).pushBack
  (.data (UInt8.ofNat (c.toRawPubKey k).length))
    (some (c.toRawPubKey k))

namespace TxIn

/-- A script is only there together with a key, or on an input that has none at all. -/
def Keyed (x : TxIn PKey) : Prop :=
  x.signatureScript.script ≠ [] → x.signatureScript.pkey = none → x.pkey = none

theorem Keyed.exportRawWithPubKeyHash {x : TxIn PKey} (keyed : x.Keyed) :
    (x.exportRawWithPubKeyHash c).2.Keyed := by
  cases has : x.key with
  | none => rw [exportRawWithPubKeyHash_keyless has]; exact keyed
  | some k =>
    rw [exportRawWithPubKeyHash_keyed has]
    exact fun script => absurd rfl script

section Export

variable {x : TxIn PKey} (signed : x.isSigned = true)

include signed

theorem exportRawWithSignatureScript_keyless (none : x.signatureScript.pkey = none) :
    x.exportRawWithSignatureScript c = some (x.frame [], { x with scriptBytes := 0 }) := by
  rw [exportRawWithSignatureScript, if_pos signed, SignatureScript.exportRawWithSignatureScript, none]
  rfl

/-- The script of a signed input with a key is set anew, whatever it was. -/
theorem exportRawWithSignatureScript_keyed {k : PKey} (own : x.signatureScript.pkey = some k) :
    x.exportRawWithSignatureScript c = (x.signatureScript.unlock c k).exportRaw.map fun raw =>
      (x.frame raw, { x with signatureScript :=
                               { x.signatureScript with pkey := some k, script := x.signatureScript.unlock c k }
                             scriptBytes := UInt32.ofNat raw.length }) := by
  rw [exportRawWithSignatureScript, if_pos signed, SignatureScript.exportRawWithSignatureScript, own]
  change ((Script.exportRaw (x.signatureScript.unlock c k)).bind _).bind _ = _
  cases (x.signatureScript.unlock c k).exportRaw <;> rfl

end Export

/-- The export with the script of an input that was visited is that of the input before. -/
theorem Keyed.exportRawWithSignatureScript_visit {x : TxIn PKey} (keyed : x.Keyed)
    (script : x.signatureScript.script ≠ []) (signed : x.isSigned = true) :
    (x.exportRawWithPubKeyHash c).2.exportRawWithSignatureScript c = x.exportRawWithSignatureScript c := by
  cases own : x.signatureScript.pkey with
  | none =>
    have none : x.key = none := by rw [key, own, keyed script own]; rfl
    rw [exportRawWithPubKeyHash_keyless none, exportRawWithSignatureScript_keyless signed own]
    exact exportRawWithSignatureScript_keyless (x := { x with scriptBytes := 0 }) signed own
  | some k =>
    have has : x.key = some k := by rw [key, own]; rfl
    rw [exportRawWithPubKeyHash_keyed has, exportRawWithSignatureScript_keyed signed own]
    exact exportRawWithSignatureScript_keyed
      (x := { x with signatureScript := { x.signatureScript with pkey := some k, script := [] }, scriptBytes := 20 })
      signed rfl

/-- What the export of an input leaves behind exports the same again. -/
theorem exportRawWithSignatureScript_again {x x' : TxIn PKey} {raw : List UInt8}
    (run : x.exportRawWithSignatureScript c = some (raw, x')) :
    x'.exportRawWithSignatureScript c = some (raw, x') ∧
      x'.isSigned = x.isSigned ∧ (x.Keyed → x'.Keyed) := by
  by_cases signed : x.isSigned = true
  · cases own : x.signatureScript.pkey with
    | none =>
      rw [exportRawWithSignatureScript_keyless signed own] at run
      obtain ⟨rfl, rfl⟩ := Prod.mk.inj (Option.some.inj run)
      exact ⟨exportRawWithSignatureScript_keyless (x := { x with scriptBytes := 0 }) signed own, rfl, id⟩
    | some k =>
      rw [exportRawWithSignatureScript_keyed signed own, Option.map_eq_some_iff] at run
      obtain ⟨bytes, written, result⟩ := run
      obtain ⟨rfl, same⟩ := Prod.mk.inj result
      have signed' : x'.isSigned = true := by rw [← same]; exact signed
      have own' : x'.signatureScript.pkey = some k := by rw [← same]
      have again : x'.signatureScript.unlock c k = x.signatureScript.unlock c k := by rw [← same]; rfl
      refine ⟨?_, signed'.trans signed.symm, fun _ _ none => absurd (own'.symm.trans none) (by simp)⟩
      rw [exportRawWithSignatureScript_keyed signed' own', again, written, ← same]
      rfl
  · rw [exportRawWithSignatureScript, if_neg signed] at run
    obtain ⟨rfl, rfl⟩ := Prod.mk.inj (Option.some.inj run)
    exact ⟨by rw [exportRawWithSignatureScript, if_neg signed], rfl, id⟩

end TxIn

theorem exportAll_eq {α : Type} {write : α → Option (List UInt8 × α)} {l l' : List α}
    (same : List.Forall₂ (fun x y => write x = write y) l l') : exportAll write l = exportAll write l' := by
  have parts : l.mapM write = l'.mapM write := by
    induction same with
    | nil => rfl
    | cons first _ ih => rw [List.mapM_cons, List.mapM_cons, first, ih]
  rw [exportAll, exportAll, parts]

theorem exportAll_member {α : Type} {write : α → Option (List UInt8 × α)} {l l' : List α} {raw : List UInt8}
    (run : exportAll write l = some (raw, l')) : ∀ x' ∈ l', ∃ x ∈ l, ∃ part, write x = some (part, x') := by
  obtain ⟨parts, writes, -, rfl⟩ := exportAll_eq_some.mp run
  intro x' member
  obtain ⟨p, there, rfl⟩ := List.mem_map.mp member
  obtain ⟨x, before, written⟩ := (mem_mapM writes p).mp there
  exact ⟨x, before, p.1, written⟩

namespace P2PKH

/-- Every input of the transaction is keyed. -/
def Keyed (t : P2PKH PKey) : Prop := ∀ x ∈ t.ins, x.Keyed

/-- The verdict of a second verification is another one just when an input has a key, but no signature
of this program. -/
def Steady (t : P2PKH PKey) : Prop := t.ins.all TxIn.isSigned = true ∨ ∀ x ∈ t.ins, x.key = none

theorem isSigned_visit (t : P2PKH PKey) (k : Nat) :
    (t.visit c k).ins.all TxIn.isSigned = t.ins.all TxIn.isSigned := by
  have same : (t.visit c k).ins.map TxIn.isSigned = t.ins.map TxIn.isSigned := by
    apply List.ext_getElem?
    intro j
    rw [List.getElem?_map, List.getElem?_map, getElem?_visit, Option.map_map]
    congr 1
    funext x
    by_cases before : j < k
    · simp only [Function.comp_apply, before, if_true]
      rw [TxIn.exportRawWithPubKeyHash, SignatureScript.exportRawWithPubKeyHash]
      cases x.signatureScript.pkey.or x.pkey <;> rfl
    · simp [before]
  simpa [List.all_map] using congrArg (·.all id) same

theorem exportAll_outs_visit (t : P2PKH PKey) (k : Nat) :
    exportAll TxOut.exportRaw (t.visit c k).outs = exportAll TxOut.exportRaw t.outs := by
  rw [visit]
  split_ifs
  · rfl
  · cases written : exportAll TxOut.exportRaw t.outs with
    | none => exact written
    | some r => exact exportAll_again TxOut.exportRaw_again written

/-- The scripts that verification empties are back after the export of a signed transaction. -/
theorem exportRaw_visit {t : P2PKH PKey} {k : Nat} (signed : t.ins.all TxIn.isSigned = true)
    (each : ∀ j < k, ∀ x, t.ins[j]? = some x → x.Keyed ∧ x.signatureScript.script ≠ []) :
    (t.visit c k).exportRaw c = t.exportRaw c := by
  have ins : exportAll (TxIn.exportRawWithSignatureScript c) (t.visit c k).ins =
      exportAll (TxIn.exportRawWithSignatureScript c) t.ins := by
    refine exportAll_eq (List.forall₂_iff_get.mpr ⟨by simp, fun j inside inside' => ?_⟩)
    have there : t.ins[j]? = some (t.ins.get ⟨j, inside'⟩) := by simp
    have here : (t.visit c k).ins.get ⟨j, inside⟩ =
        if j < k then ((t.ins.get ⟨j, inside'⟩).exportRawWithPubKeyHash c).2 else t.ins.get ⟨j, inside'⟩ := by
          simp [visit]
    rw [here]
    split_ifs with before
    · obtain ⟨keyed, script⟩ := each j before _ there
      exact keyed.exportRawWithSignatureScript_visit script (List.all_eq_true.mp signed _ (List.get_mem ..))
    · rfl
  rw [exportRaw, exportRaw, isSigned_visit, signed, ins, exportAll_outs_visit]
  simp only [if_true, frame, length_ins_visit, (t.sameHashes_visit (c := c) k).outsLength]
  rfl

/-- What an export leaves behind exports the same again. -/
theorem Keyed.of_exportRaw {t t' : P2PKH PKey} {raw : List UInt8} (keyed : t.Keyed)
    (run : t.exportRaw c = some (raw, t')) :
    t'.Keyed ∧ (t'.Steady ↔ t.Steady) ∧ t'.exportRaw c = some (raw, t') := by
  by_cases signed : t.ins.all TxIn.isSigned = true
  · obtain ⟨rawIns, ins, rawOuts, outs, writtenIns, writtenOuts, fits, result⟩ :=
      (exportRaw_eq_some signed).mp run
    obtain ⟨rfl, rfl⟩ := Prod.mk.inj result
    have each : ∀ x' ∈ ins, ∃ x ∈ t.ins, x'.isSigned = x.isSigned ∧ (x.Keyed → x'.Keyed) := by
      intro x' member
      obtain ⟨x, before, part, written⟩ := exportAll_member writtenIns x' member
      exact ⟨x, before, (TxIn.exportRawWithSignatureScript_again written).2⟩
    have signed' : ins.all TxIn.isSigned = true := by
      refine List.all_eq_true.mpr fun x' member => ?_
      obtain ⟨x, before, same, -⟩ := each x' member
      exact same.trans (List.all_eq_true.mp signed x before)
    have frames : frame { t with ins := ins, outs := outs } rawIns rawOuts = t.frame rawIns rawOuts := by
      simp only [frame, show ins.length = t.ins.length from exportAll_length writtenIns,
        show outs.length = t.outs.length from exportAll_length writtenOuts]
    refine ⟨fun x' member => ?_, iff_of_true (.inl signed') (.inl signed), ?_⟩
    · obtain ⟨x, before, -, keep⟩ := each x' member
      exact keep (keyed x before)
    · refine (exportRaw_eq_some signed').mpr ⟨rawIns, ins, rawOuts, outs, ?_,
        exportAll_again TxOut.exportRaw_again writtenOuts, ?_, ?_⟩
      · exact exportAll_again (fun _ _ _ written => (TxIn.exportRawWithSignatureScript_again written).1) writtenIns
      · rw [frames]
        exact fits
      · rw [frames]
  · rw [exportRaw, if_neg signed] at run
    obtain ⟨rfl, rfl⟩ := Prod.mk.inj (Option.some.inj run)
    exact ⟨keyed, .rfl, by rw [exportRaw, if_neg signed]⟩

/-- The transaction as the next export finds and leaves it, verified in between. -/
def again (t t' : P2PKH PKey) : P2PKH PKey := if t.ins.all TxIn.isSigned then t else t'

theorem calcTxID_visit {t : P2PKH PKey} {k : Nat} {flag : Bool} {id : List UInt8} (keyed : t.Keyed)
    (settled : t.calcTxID c = some (id, t)) (stops : t.Stops c utxoSet k flag) :
    (t.visit c k).calcTxID c = some (id, t.again (t.visit c k)) := by
  rw [again]
  split_ifs with signed
  · rw [← settled, calcTxID, calcTxID, exportRaw_visit signed fun j before x there => ?_]
    obtain ⟨-, -, -, -, script, -⟩ := stops.found j before x there
    exact ⟨keyed x (List.mem_of_getElem? there), script⟩
  · rw [calcTxID, exportRaw, if_neg signed] at settled
    rw [calcTxID, exportRaw, isSigned_visit, if_neg signed]
    obtain ⟨rfl, -⟩ := Prod.mk.inj (Option.some.inj settled)
    rfl

/-- Inputs without a key are found again on the transaction that verification left. -/
theorem Stops.found_visit {t : P2PKH PKey} {k i : Nat} {flag : Bool} (stops : t.Stops c utxoSet k flag)
    (upto : i ≤ k) (keyless : ∀ j < i, ∀ x, t.ins[j]? = some x → x.key = none) :
    ∀ j < i, ∀ y, (t.visit c k).ins[j]? = some y → (t.visit c k).Found c utxoSet j y := by
  intro j before y at_j
  have within : j < k := by omega
  rw [getElem?_visit, Option.map_eq_some_iff] at at_j
  obtain ⟨x, there, rfl⟩ := at_j
  obtain ⟨utxo, txHash, lookup, pk, script, hash, verdict⟩ := stops.found j within x there
  rw [if_pos within, TxIn.exportRawWithPubKeyHash_keyless (keyless j before x there)]
  exact ⟨utxo, txHash, lookup, pk, script, ((t.sameHashes_visit k).txHash j).trans hash, verdict⟩

/-- The verdict of a second verification, after the export in between. -/
theorem verify_again {t t' : P2PKH PKey} {flag : Bool} (run : t.verify c utxoSet = some (flag, t')) :
    ∃ flag' t'', (t.again t').verify c utxoSet = some (flag', t'') ∧
      (flag' = true ↔ flag = true ∧ t.Steady) := by
  obtain ⟨k, stops, rfl⟩ := verify_eq_some.mp run
  rw [again]
  split_ifs with signed
  · exact ⟨flag, _, run, by simp [Steady, signed]⟩
  by_cases keyed : ∃ i, i < k ∧ ∃ x, t.ins[i]? = some x ∧ x.key ≠ none
  · -- the first input with a key has lost its script
    obtain ⟨within, x, there, has⟩ := Nat.find_spec keyed
    have keyless : ∀ j < Nat.find keyed, ∀ y, t.ins[j]? = some y → y.key = none := by
      intro j before y at_j
      by_contra other
      exact Nat.find_min keyed before ⟨by omega, y, at_j, other⟩
    obtain ⟨key, is⟩ := Option.ne_none_iff_exists'.mp has
    have here : (t.visit c k).ins[Nat.find keyed]? = some (x.exportRawWithPubKeyHash c).2 := by
      rw [getElem?_visit, there, Option.map_some, if_pos within]
    have down : TurnsDown utxoSet (x.exportRawWithPubKeyHash c).2 := by
      rw [TxIn.exportRawWithPubKeyHash_keyed is]
      exact fun _ _ => .inr rfl
    refine ⟨false, _, verify_eq_some.mpr ⟨_, ⟨stops.found_visit within.le keyless, .inr ⟨rfl, _, here, down⟩⟩, rfl⟩, ?_⟩
    refine iff_of_false Bool.false_ne_true fun ⟨_, steady⟩ => ?_
    exact steady.elim signed fun all => has (all x (List.mem_of_getElem? there))
  · have keyless : ∀ j < k, ∀ x, t.ins[j]? = some x → x.key = none := by
      intro j within x there
      by_contra has
      exact keyed ⟨j, within, x, there, has⟩
    have ends := stops.ends
    refine ⟨flag, _, verify_eq_some.mpr ⟨k, ⟨stops.found_visit le_rfl keyless, ?_⟩, rfl⟩, ?_⟩
    · rw [length_ins_visit, getElem?_visit]
      simpa using ends
    · refine ⟨fun passed => ⟨passed, .inr fun x member => ?_⟩, And.left⟩
      obtain ⟨j, within, rfl⟩ := List.mem_iff_getElem.mp member
      rcases ends with ⟨rfl, -⟩ | ⟨rfl, -⟩
      · exact keyless j within _ (List.getElem?_eq_getElem within)
      · exact absurd passed Bool.false_ne_true

end P2PKH

theorem Coinbase.exportRaw_again {x x' : Coinbase} {raw : List UInt8} (run : x.exportRaw = some (raw, x')) :
    x'.exportRaw = some (raw, x') := by
  simp only [exportRaw, CoinbaseTxIn.exportRaw, Option.bind_eq_bind, Option.bind_eq_some_iff,
    Option.guard_eq_some', Option.pure_def, Option.some.injEq] at run
  obtain ⟨_, ⟨script, written, -, fits, rfl⟩, hash, has, ⟨rawTxOut, txOut⟩, out, result⟩ := run
  obtain ⟨rfl, rfl⟩ := Prod.mk.inj result
  have own : txOut.pubKeyHash = some hash := congrArg Prod.snd (TxOut.fields_of_exportRaw out)
  have same : { txOut with pubKeyHash := some hash } = txOut := by rw [← own]
  simp [exportRaw, CoinbaseTxIn.exportRaw, written, guard, show script.length < 65536 from fits, has,
    same, TxOut.exportRaw_again _ _ _ out]

namespace Block

/-- The loop of `Block::verify` over the transactions, with what it leaves of them. -/
def verifyTxsRun (c : Crypto PKey) (utxoSet : UtxoSet) : List (P2PKH PKey) → Option (Bool × List (P2PKH PKey))
  | [] => some (true, [])
  | t :: rest => do
    let (flag, t) ← t.verify c utxoSet
    if flag then do
      let (flag, rest) ← verifyTxsRun c utxoSet rest
      return (flag, t :: rest)
    else return (false, t :: rest)

/-- `Block::verify`, with the block it leaves behind. -/
def verifyRun (c : Crypto PKey) (utxoSet : UtxoSet) (b : Block PKey) : Option (Bool × Block PKey) := do
  let flag ← b.header.verify c
  if !flag then return (false, b)
  let (merkle, b) ← b.calcMerkleRoot c
  let merkle ← merkle
  if !b.header.cmpMerkleRoot merkle then return (false, b)
  let (flag, txVector) ← verifyTxsRun c utxoSet b.txVector
  return (flag, { b with txVector := txVector })

theorem verifyTxs_eq (l : List (P2PKH PKey)) :
    verifyTxs c utxoSet l = (verifyTxsRun c utxoSet l).map Prod.fst := by
  induction l with
  | nil => rfl
  | cons t l ih =>
    rw [verifyTxs, verifyTxsRun]
    cases t.verify c utxoSet with
    | none => rfl
    | some r =>
      obtain ⟨flag, t'⟩ := r
      cases flag with
      | false => rfl
      | true =>
        simp only [Option.bind_eq_bind, Option.bind_some, if_true, ih]
        cases verifyTxsRun c utxoSet l <;> rfl

theorem verify_eq (b : Block PKey) : b.verify c utxoSet = (b.verifyRun c utxoSet).map Prod.fst := by
  rw [verify, verifyRun]
  cases b.header.verify c with
  | none => rfl
  | some flag =>
    cases flag with
    | false => rfl
    | true =>
      cases b.calcMerkleRoot c with
      | none => rfl
      | some r =>
        obtain ⟨root, settled⟩ := r
        cases root with
        | none => rfl
        | some root =>
          simp only [Option.bind_eq_bind, Option.bind_some, Bool.not_true, Bool.false_eq_true, if_false,
            verifyTxs_eq]
          split_ifs
          · rfl
          · cases verifyTxsRun c utxoSet settled.txVector <;> rfl

/-- The verdict on a list that was verified and exported since. -/
theorem verifyTxs_again {l l' : List (P2PKH PKey)} {flag : Bool}
    (run : verifyTxsRun c utxoSet l = some (flag, l')) :
    ∃ flag', verifyTxs c utxoSet (List.zipWith P2PKH.again l l') = some flag' ∧
      (flag' = true ↔ flag = true ∧ ∀ t ∈ l, t.Steady) := by
  induction l generalizing flag l' with
  | nil =>
    obtain ⟨rfl, rfl⟩ := Prod.mk.inj (Option.some.inj run)
    exact ⟨true, rfl, by simp⟩
  | cons t l ih =>
    rw [verifyTxsRun, Option.bind_eq_bind, Option.bind_eq_some_iff] at run
    obtain ⟨⟨first, t'⟩, verified, run⟩ := run
    obtain ⟨second, t'', reverified, steady⟩ := P2PKH.verify_again verified
    cases first with
    | false =>
      obtain ⟨rfl, rfl⟩ := Prod.mk.inj (Option.some.inj run)
      obtain rfl : second = false := Bool.eq_false_iff.mpr fun passed => Bool.false_ne_true (steady.mp passed).1
      exact ⟨false, by rw [List.zipWith_cons_cons, verifyTxs, reverified]; rfl, by simp⟩
    | true =>
      simp only [if_true, Option.bind_eq_bind, Option.bind_eq_some_iff, Option.pure_def,
        Option.some.injEq] at run
      obtain ⟨⟨others, rest⟩, run, result⟩ := run
      obtain ⟨rfl, rfl⟩ := Prod.mk.inj result
      obtain ⟨flag', rerun, all⟩ := ih run
      rw [List.zipWith_cons_cons, verifyTxs, reverified]
      cases second with
      | false =>
        have unsteady : ¬t.Steady := fun holds => Bool.false_ne_true (steady.mpr ⟨rfl, holds⟩)
        exact ⟨false, rfl, iff_of_false Bool.false_ne_true fun both => unsteady (both.2 t List.mem_cons_self)⟩
      | true =>
        have here : t.Steady := (steady.mp rfl).2
        exact ⟨flag', rerun, by rw [all, List.forall_mem_cons]; tauto⟩

/-- The transactions that verification left have the ids they had, and export as they were, or as they
are now. -/
theorem runAll_again {l l' : List (P2PKH PKey)} {flag : Bool} {ids : List (List UInt8)}
    (keyed : ∀ t ∈ l, t.Keyed) (settled : runAll (P2PKH.calcTxID c) l = some (ids, l))
    (run : verifyTxsRun c utxoSet l = some (flag, l')) :
    runAll (P2PKH.calcTxID c) l' = some (ids, List.zipWith P2PKH.again l l') := by
  induction l generalizing flag l' ids with
  | nil =>
    obtain ⟨-, rfl⟩ := Prod.mk.inj (Option.some.inj run)
    exact settled
  | cons t l ih =>
    obtain ⟨id, t₁, ids, l₁, first, others, result⟩ := runAll_cons.mp settled
    obtain ⟨rfl, members⟩ := Prod.mk.inj result
    obtain ⟨rfl, rfl⟩ := List.cons.inj members
    obtain ⟨here, there⟩ := List.forall_mem_cons.mp keyed
    rw [verifyTxsRun, Option.bind_eq_bind, Option.bind_eq_some_iff] at run
    obtain ⟨⟨passed, t'⟩, verified, run⟩ := run
    obtain ⟨k, stops, rfl⟩ := P2PKH.verify_eq_some.mp verified
    have again := P2PKH.calcTxID_visit here first stops
    cases passed with
    | false =>
      obtain ⟨rfl, rfl⟩ := Prod.mk.inj (Option.some.inj run)
      have self : List.zipWith P2PKH.again l l = l := by
        rw [List.zipWith_self]
        simp [P2PKH.again]
      exact runAll_cons.mpr ⟨_, _, _, _, again, others, by rw [List.zipWith_cons_cons, self]⟩
    | true =>
      simp only [if_true, Option.bind_eq_bind, Option.bind_eq_some_iff, Option.pure_def,
        Option.some.injEq] at run
      obtain ⟨⟨_, rest⟩, run, result⟩ := run
      obtain ⟨rfl, rfl⟩ := Prod.mk.inj result
      exact runAll_cons.mpr ⟨_, _, _, _, again, ih there others run, rfl⟩

theorem runAll_settled {l l' : List (P2PKH PKey)} {ids : List (List UInt8)} (keyed : ∀ t ∈ l, t.Keyed)
    (run : runAll (P2PKH.calcTxID c) l = some (ids, l')) :
    runAll (P2PKH.calcTxID c) l' = some (ids, l') ∧ (∀ t ∈ l', t.Keyed) ∧
      ((∀ t ∈ l', t.Steady) ↔ ∀ t ∈ l, t.Steady) := by
  induction l generalizing l' ids with
  | nil =>
    obtain ⟨rfl, rfl⟩ := Prod.mk.inj (Option.some.inj run)
    exact ⟨rfl, by simp, .rfl⟩
  | cons t l ih =>
    obtain ⟨id, t', ids, l', first, others, result⟩ := runAll_cons.mp run
    obtain ⟨rfl, rfl⟩ := Prod.mk.inj result
    obtain ⟨here, there⟩ := List.forall_mem_cons.mp keyed
    simp only [P2PKH.calcTxID, Option.bind_eq_bind, Option.bind_eq_some_iff, Option.pure_def,
      Option.some.injEq] at first
    obtain ⟨⟨raw, t₁⟩, written, same⟩ := first
    obtain ⟨rfl, rfl⟩ := Prod.mk.inj same
    obtain ⟨keyed₁, steady, again⟩ := here.of_exportRaw written
    obtain ⟨others', keyed', steady'⟩ := ih there others
    refine ⟨runAll_cons.mpr ⟨_, _, _, _, ?_, others', rfl⟩, List.forall_mem_cons.mpr ⟨keyed₁, keyed'⟩, ?_⟩
    · rw [P2PKH.calcTxID, again]
      rfl
    · rw [List.forall_mem_cons, List.forall_mem_cons, steady, steady']

/-- The root of a block depends on the ids, which the first computation settles. -/
theorem calcMerkleRoot_again {b settled : Block PKey} {root : List UInt8}
    (run : b.calcMerkleRoot c = some (some root, settled)) :
    ∃ ids, runAll (P2PKH.calcTxID c) b.txVector = some (ids, settled.txVector) ∧
      ∀ l' l'', runAll (P2PKH.calcTxID c) l' = some (ids, l'') →
        calcMerkleRoot c { settled with txVector := l' } =
        some (some root, { settled with txVector := l'' }) := by
  rw [calcMerkleRoot] at run
  cases has : b.coinbase with
  | none => simp [has] at run
  | some coinbase =>
    simp only [has, Option.bind_eq_bind, Option.bind_eq_some_iff] at run
    obtain ⟨⟨id, coinbase'⟩, hashed, ⟨ids, txs⟩, all, run⟩ := run
    have hashed' : coinbase'.calcTxID c = some (id, coinbase') := by
      simp only [Coinbase.calcTxID, Option.bind_eq_bind, Option.bind_eq_some_iff, Option.pure_def,
        Option.some.injEq] at hashed
      obtain ⟨⟨raw, x⟩, written, same⟩ := hashed
      obtain ⟨rfl, rfl⟩ := Prod.mk.inj same
      rw [Coinbase.calcTxID, Coinbase.exportRaw_again written]
      rfl
    split at run
    · rename_i root' single
      obtain ⟨rfl, rfl⟩ : root' = root ∧ _ = settled := by simpa using run
      refine ⟨ids, all, fun l' l'' again => ?_⟩
      rw [calcMerkleRoot]
      simp only [hashed', again, Option.bind_eq_bind, Option.bind_some]
      rw [single]
      rfl
    · simp at run

theorem verify_of_root {b settled : Block PKey} {root : List UInt8} (work : b.header.verify c = some true)
    (merkle : b.calcMerkleRoot c = some (some root, settled)) :
    b.verify c utxoSet = if settled.header.cmpMerkleRoot root then verifyTxs c utxoSet settled.txVector
      else some false := by
  rw [verify, work]
  simp only [merkle, Option.bind_eq_bind, Option.bind_some, Bool.not_true, Bool.false_eq_true, if_false]
  cases settled.header.cmpMerkleRoot root <;> rfl

/-- The verdict of a second verification of a block. -/
theorem verify_again {b b' : Block PKey} {flag : Bool} (keyed : ∀ t ∈ b.txVector, t.Keyed)
    (run : b.verifyRun c utxoSet = some (flag, b')) :
    ∃ flag', b'.verify c utxoSet = some flag' ∧ (flag' = true ↔ flag = true ∧ ∀ t ∈ b.txVector, t.Steady) := by
  rw [verifyRun, Option.bind_eq_bind, Option.bind_eq_some_iff] at run
  obtain ⟨worked, work, run⟩ := run
  cases worked with
  | false =>
    obtain ⟨rfl, rfl⟩ := Prod.mk.inj (Option.some.inj run)
    exact ⟨false, by rw [verify, work]; rfl, by simp⟩
  | true =>
    simp only [Bool.not_true, Bool.false_eq_true, if_false, Option.bind_eq_bind, Option.bind_eq_some_iff] at run
    obtain ⟨⟨_, settled⟩, merkle, root, rfl, run⟩ := run
    have header : settled.header = b.header := calcMerkleRoot_header merkle
    obtain ⟨ids, exported, again⟩ := calcMerkleRoot_again merkle
    obtain ⟨same, keyed', steady⟩ := runAll_settled keyed exported
    split_ifs at run with equal
    · obtain ⟨rfl, rfl⟩ := Prod.mk.inj (Option.some.inj run)
      have root' : settled.calcMerkleRoot c = some (some root, settled) := again _ _ same
      refine ⟨false, ?_, by simp⟩
      rw [verify_of_root (header ▸ work) root', if_neg (by simpa using equal)]
    · simp only [Option.bind_eq_some_iff, Option.pure_def, Option.some.injEq] at run
      obtain ⟨⟨passed, txs⟩, txsRun, result⟩ := run
      obtain ⟨rfl, rfl⟩ := Prod.mk.inj result
      obtain ⟨flag', rerun, all⟩ := verifyTxs_again txsRun
      refine ⟨flag', ?_, by rw [all, steady]⟩
      rw [verify_of_root (header ▸ work) (again _ _ (runAll_again keyed' same txsRun)),
        if_pos (by simpa using equal), rerun]

/-- A second verification of the block has the verdict of the first. -/
def Reverifies (c : Crypto PKey) (utxoSet : UtxoSet) (b : Block PKey) : Prop :=
  ∀ flag b', b.verifyRun c utxoSet = some (flag, b') → b'.verify c utxoSet = some flag

theorem reverifies_iff {b : Block PKey} (keyed : ∀ t ∈ b.txVector, t.Keyed) :
    b.Reverifies c utxoSet ↔ (∀ settled, ¬b.Checked c utxoSet settled) ∨ ∀ t ∈ b.txVector, t.Steady := by
  rw [← not_exists, ← verify_iff_checked, verify_eq]
  cases run : b.verifyRun c utxoSet with
  | none => simp [Reverifies, run]
  | some r =>
    obtain ⟨flag, b'⟩ := r
    obtain ⟨flag', again, steady⟩ := verify_again keyed run
    have same : b.Reverifies c utxoSet ↔ flag' = flag := by simp [Reverifies, run, again]
    rw [same]
    cases flag <;> simp_all

end Block

/-- An input that is read has the key of its script. -/
theorem TxIn.keyed_of_importRaw {raw : List UInt8} {x : TxIn PKey} {n : Nat}
    (run : importRaw c raw = some (x, n)) : x.Keyed := by
  simp only [importRaw, Option.bind_eq_bind, Option.bind_eq_some_iff] at run
  obtain ⟨_, -, _, -, ⟨signatureScript, m⟩, imported, pubKey, second, rawPubKey, read, _, -, result⟩ := run
  obtain ⟨rfl, -⟩ := Prod.mk.inj (Option.some.inj result)
  rw [SignatureScript.importRaw] at imported
  split_ifs at imported with short
  · obtain ⟨rfl, -⟩ := Prod.mk.inj (Option.some.inj imported)
    simp at second
  · simp only [Option.bind_eq_bind, Option.bind_eq_some_iff] at imported
    obtain ⟨_, -, _, -, pubKey', second', rawPubKey', read', result⟩ := imported
    obtain ⟨rfl, -⟩ := Prod.mk.inj (Option.some.inj result)
    obtain rfl : pubKey' = pubKey := Option.some.inj (second'.symm.trans second)
    obtain rfl : rawPubKey' = rawPubKey := Option.some.inj (read'.symm.trans read)
    exact fun _ none => none

namespace P2PKH

/-- The transactions a program comes by: built from inputs and outputs or read from bytes, and then
signed, exported, hashed or verified. -/
inductive Obtained (c : Crypto PKey) : P2PKH PKey → Prop
  | empty : Obtained c { ins := [], outs := [] }
  | addIn {t : P2PKH PKey} (obtained : Obtained c t) (prevOut : PrevOut) (pkey : Option PKey) :
      Obtained c { t with ins := t.ins ++ [{ prevOut, pkey }] }
  | addOut {t : P2PKH PKey} (obtained : Obtained c t) (x : TxOut) : Obtained c { t with outs := t.outs ++ [x] }
  | importRawSequentially {raw : List UInt8} {t : P2PKH PKey} {n : Nat}
      (run : importRawSequentially c raw = some (t, n)) : Obtained c t
  | sign {t t' : P2PKH PKey} (obtained : Obtained c t) {signer : PKey → List UInt8 → List UInt8}
      {raws : List (List UInt8)} (run : t.sign c signer = some (raws, t')) : Obtained c t'
  | exportRaw {t t' : P2PKH PKey} (obtained : Obtained c t) {raw : List UInt8}
      (run : t.exportRaw c = some (raw, t')) : Obtained c t'
  | txHashOnTxIn {t t' : P2PKH PKey} (obtained : Obtained c t) {i : Nat} {raw : List UInt8}
      (run : t.txHashOnTxIn c i = some (raw, t')) : Obtained c t'
  | verify {t t' : P2PKH PKey} (obtained : Obtained c t) {utxoSet : UtxoSet} {flag : Bool}
      (run : t.verify c utxoSet = some (flag, t')) : Obtained c t'

theorem Keyed.mapIdx {t : P2PKH PKey} (keyed : t.Keyed) (p : Nat → Prop) [DecidablePred p] :
    ∀ x ∈ t.ins.mapIdx fun i x => if p i then (x.exportRawWithPubKeyHash c).2 else x, x.Keyed := by
  intro x member
  obtain ⟨j, inside, rfl⟩ := List.mem_mapIdx.mp member
  have here := keyed _ (List.getElem_mem inside)
  split_ifs
  · exact here.exportRawWithPubKeyHash
  · exact here

theorem Keyed.txHashOnTxIn {t t' : P2PKH PKey} {i : Nat} {raw : List UInt8} (keyed : t.Keyed)
    (run : t.txHashOnTxIn c i = some (raw, t')) : t'.Keyed := by
  rw [txHashOnTxIn_eq, Option.map_eq_some_iff] at run
  obtain ⟨outs, -, result⟩ := run
  obtain ⟨-, rfl⟩ := Prod.mk.inj result
  exact keyed.mapIdx (· = i)

theorem Keyed.signLoop {signer : PKey → List UInt8 → List UInt8} {n : Nat} : ∀ {i : Nat} {t : P2PKH PKey}
    {r : List (List UInt8) × P2PKH PKey}, t.Keyed → t.signLoop c signer n i = some r → r.2.Keyed := by
  induction n with
  | zero =>
    intro i t r keyed run
    obtain rfl := Option.some.inj run
    exact keyed
  | succ n ih =>
    intro i t r keyed run
    obtain ⟨raw, t', x, pkey, later, hash, atI, -, rest, -⟩ := signLoop_succ.mp run
    have keyed' := keyed.txHashOnTxIn hash
    refine ih (r := (later, r.2)) (fun y member => ?_) rest
    rcases List.mem_or_eq_of_mem_set member with there | rfl
    · exact keyed' y there
    · exact keyed' x (List.mem_of_getElem? atI)

theorem Obtained.keyed {t : P2PKH PKey} (obtained : t.Obtained c) : t.Keyed := by
  induction obtained with
  | empty => exact fun x member => absurd member (List.not_mem_nil)
  | addIn _ prevOut pkey ih =>
    refine List.forall_mem_append.mpr ⟨ih, fun x member => ?_⟩
    obtain rfl := List.mem_singleton.mp member
    exact fun script => absurd rfl script
  | addOut _ _ ih => exact ih
  | importRawSequentially run =>
    obtain ⟨-, n, m, ins, -⟩ := importRawSequentially_eq_some run
    exact forall_mem_importAll (fun _ _ _ => TxIn.keyed_of_importRaw) ins
  | sign _ run ih => exact ih.signLoop run
  | exportRaw _ run ih => exact (ih.of_exportRaw run).1
  | txHashOnTxIn _ run ih => exact ih.txHashOnTxIn run
  | verify _ run ih =>
    obtain ⟨k, -, rfl⟩ := verify_eq_some.mp run
    exact ih.mapIdx (· < k)

end P2PKH

end MiyaCore.Chain
