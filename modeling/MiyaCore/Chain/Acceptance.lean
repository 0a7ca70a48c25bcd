import MiyaCore.Chain.Block

namespace MiyaCore.Chain

variable {PKey : Type} {c : Crypto PKey}

theorem mapM_cons_eq_some {α β : Type} {f : α → Option β} {x : α} {l : List α} {r : List β} :
    (x :: l).mapM f = some r ↔ ∃ y ys, f x = some y ∧ l.mapM f = some ys ∧ r = y :: ys := by
  rw [List.mapM_cons]
  cases f x <;> cases l.mapM f <;> simp [eq_comm]

theorem length_of_mapM {α β : Type} {f : α → Option β} {l : List α} {r : List β} (run : l.mapM f = some r) :
    r.length = l.length := by
  induction l generalizing r with
  | nil =>
    obtain rfl : [] = r := by simpa using run
    rfl
  | cons x l ih =>
    obtain ⟨y, ys, -, rest, rfl⟩ := mapM_cons_eq_some.mp run
    simpa using ih rest

/-- The results are those of the members. -/
theorem mem_mapM {α β : Type} {f : α → Option β} {l : List α} {r : List β} (run : l.mapM f = some r) :
    ∀ y, y ∈ r ↔ ∃ x ∈ l, f x = some y := by
  induction l generalizing r with
  | nil =>
    obtain rfl : [] = r := by simpa using run
    simp
  | cons x l ih =>
    obtain ⟨y, ys, first, rest, rfl⟩ := mapM_cons_eq_some.mp run
    simp [ih rest, first, eq_comm]

theorem exists_mapM {α β : Type} {f : α → Option β} {l : List α} (all : ∀ x ∈ l, ∃ y, f x = some y) :
    ∃ r, l.mapM f = some r := by
  induction l with
  | nil => exact ⟨[], rfl⟩
  | cons x l ih =>
    obtain ⟨y, first⟩ := all x List.mem_cons_self
    obtain ⟨ys, rest⟩ := ih fun z member => all z (List.mem_cons_of_mem _ member)
    exact ⟨y :: ys, mapM_cons_eq_some.mpr ⟨y, ys, first, rest, rfl⟩⟩

theorem exportAll_eq_some {α : Type} {write : α → Option (List UInt8 × α)} {l : List α}
    {r : List UInt8 × List α} :
    exportAll write l = some r ↔
      ∃ parts, l.mapM write = some parts ∧ (parts.map Prod.fst).flatten = r.1 ∧ parts.map Prod.snd = r.2 := by
  simp [exportAll, Option.bind_eq_some_iff, Prod.ext_iff]

/-- What exporting leaves behind exports the same again. -/
theorem exportAll_again {α : Type} {write : α → Option (List UInt8 × α)}
    (again : ∀ x raw x', write x = some (raw, x') → write x' = some (raw, x')) {l l' : List α}
    {raw : List UInt8} (run : exportAll write l = some (raw, l')) : exportAll write l' = some (raw, l') := by
  obtain ⟨parts, writes, rfl, rfl⟩ := exportAll_eq_some.mp run
  have same : (parts.map Prod.snd).mapM write = some parts := by
    clear run
    induction l generalizing parts with
    | nil =>
      obtain rfl : [] = parts := by simpa using writes
      rfl
    | cons x l ih =>
      obtain ⟨y, ys, first, rest, rfl⟩ := mapM_cons_eq_some.mp writes
      exact mapM_cons_eq_some.mpr ⟨y, ys, again x y.1 y.2 first, ih ys rest, rfl⟩
  exact exportAll_eq_some.mpr ⟨parts, same, rfl, rfl⟩

theorem TxOut.exportRaw_again (x : TxOut) (raw : List UInt8) (x' : TxOut) (run : x.exportRaw = some (raw, x')) :
    x'.exportRaw = some (raw, x') := by
  rw [exportRaw] at run
  cases hash : x.pubKeyHash with
  | none =>
    obtain ⟨rfl, rfl⟩ : [] = raw ∧ x = x' := by simpa [hash] using run
    rw [exportRaw, hash]
  | some pubKeyHash =>
    rw [hash] at run
    cases written : (p2pkhPkScript pubKeyHash).exportRaw with
    | none => simp [written] at run
    | some script =>
      obtain ⟨rfl, rfl⟩ := by simpa [written] using run
      simp [exportRaw, written]

namespace P2PKH

/-- From input `i` on, `t'` is the transaction `t`; before that only scripts and keys of inputs
may differ, which a hash on a later input does not read. -/
structure Agrees (t t' : P2PKH PKey) (i : Nat) : Prop where
  version : t'.version = t.version
  length : t'.ins.length = t.ins.length
  later : ∀ j : Nat, i ≤ j → t'.ins[j]? = t.ins[j]?
  bare : ∀ j : Nat, (t'.ins[j]?).map TxIn.exportRawWithEmpty = (t.ins[j]?).map TxIn.exportRawWithEmpty
  outsLength : t'.outs.length = t.outs.length
  outs : (exportAll TxOut.exportRaw t'.outs).map Prod.fst = (exportAll TxOut.exportRaw t.outs).map Prod.fst

theorem Agrees.refl (t : P2PKH PKey) (i : Nat) : Agrees t t i :=
  ⟨rfl, rfl, fun _ _ => rfl, fun _ => rfl, rfl, rfl⟩

/-- The bytes of the inputs that a hash on one of them is over. -/
def hashIns (c : Crypto PKey) (t : P2PKH PKey) (index : Nat) : List (List UInt8) :=
  t.ins.mapIdx fun i x => if i = index then (x.exportRawWithPubKeyHash c).1 else x.exportRawWithEmpty

theorem txHashOnTxIn_eq (t : P2PKH PKey) (index : Nat) :
    t.txHashOnTxIn c index = ((exportAll TxOut.exportRaw t.outs).filter fun outs =>
      (t.frame (t.hashIns c index).flatten outs.1).length < 2 ^ 32).map fun outs =>
      (t.frame (t.hashIns c index).flatten outs.1,
        { t with ins := t.ins.mapIdx fun i x => if i = index then
        (x.exportRawWithPubKeyHash c).2 else x, outs := outs.2 }) := by
  rw [txHashOnTxIn]
  cases exportAll TxOut.exportRaw t.outs with
  | none => rfl
  | some outs =>
    simp only [Option.bind_eq_bind, Option.bind_some, Option.filter_some, List.mapIdx_eq_zipIdx_map,
      List.map_map, hashIns, Option.pure_def, Function.comp_def, apply_ite Prod.fst, apply_ite Prod.snd,
      guard, decide_eq_true_eq]
    split_ifs <;> rfl

theorem Agrees.hashIns {t t' : P2PKH PKey} {i j : Nat} (agrees : Agrees t t' i) (after : i ≤ j) :
    t'.hashIns c j = t.hashIns c j := by
  apply List.ext_getElem?
  intro k
  simp only [P2PKH.hashIns, List.getElem?_mapIdx]
  by_cases here : k = j
  · rw [here, agrees.later j after]
  · simpa only [here, if_false] using agrees.bare k

/-- A hash is over the version, the bytes of the inputs and those of the outputs. -/
theorem txHash_congr {t t' : P2PKH PKey} {i : Nat} (version : t'.version = t.version)
    (length : t'.ins.length = t.ins.length) (outsLength : t'.outs.length = t.outs.length)
    (ins : t'.hashIns c i = t.hashIns c i) (outs : (exportAll TxOut.exportRaw t'.outs).map Prod.fst =
    (exportAll TxOut.exportRaw t.outs).map Prod.fst) :
    (t'.txHashOnTxIn c i).map Prod.fst = (t.txHashOnTxIn c i).map Prod.fst := by
  rw [txHashOnTxIn_eq, txHashOnTxIn_eq, ins]
  simp only [Option.map_map, frame, version, length, outsLength, Function.comp_def]
  cases left : exportAll TxOut.exportRaw t'.outs with
  | none =>
    obtain none' : exportAll TxOut.exportRaw t.outs = none := by simpa [left, eq_comm] using outs
    rw [none']
    rfl
  | some r =>
    obtain ⟨r', right, same⟩ : ∃ r', exportAll TxOut.exportRaw t.outs = some r' ∧ r'.1 = r.1 := by
      simpa [left, eq_comm] using outs
    simp only [right, Option.filter_some, same]
    split_ifs <;> simp [same]

/-- A hash does not see what the hashes before it left behind. -/
theorem Agrees.txHash {t t' : P2PKH PKey} {i j : Nat} (agrees : Agrees t t' i) (after : i ≤ j) :
    (t'.txHashOnTxIn c j).map Prod.fst = (t.txHashOnTxIn c j).map Prod.fst :=
  txHash_congr agrees.version agrees.length agrees.outsLength (agrees.hashIns after) agrees.outs

theorem exportAll_length {α : Type} {write : α → Option (List UInt8 × α)} {l : List α} {r : List UInt8 × List α}
    (run : exportAll write l = some r) : r.2.length = l.length := by
  obtain ⟨parts, writes, -, snd⟩ := exportAll_eq_some.mp run
  rw [← snd, List.length_map, length_of_mapM writes]

theorem Agrees.step {t t' t'' : P2PKH PKey} {i : Nat} {txHash : List UInt8} (agrees : Agrees t t' i)
    (run : t'.txHashOnTxIn c i = some (txHash, t'')) : Agrees t t'' (i + 1) := by
  rw [txHashOnTxIn_eq, Option.map_eq_some_iff] at run
  obtain ⟨outs, fits, result⟩ := run
  obtain ⟨written, -⟩ := Option.filter_eq_some_iff.mp fits
  obtain ⟨-, rfl⟩ := Prod.mk.inj result
  have again := exportAll_again TxOut.exportRaw_again written
  refine ⟨agrees.version, by simpa using agrees.length, fun j after => ?_, fun j => ?_, ?_, ?_⟩
  · have other : j ≠ i := by omega
    rw [List.getElem?_mapIdx, ← agrees.later j (by omega)]
    simp [other]
  · rw [List.getElem?_mapIdx, ← agrees.bare j, Option.map_map]
    congr 1
    funext x
    by_cases here : j = i
    · simp [here, TxIn.exportRawWithPubKeyHash, TxIn.exportRawWithEmpty]
    · simp [here]
  · rw [← agrees.outsLength]
    exact exportAll_length written
  · rw [← agrees.outs, written]
    simp [again]

/-- What `P2PKH::verify` asks of an input: its output is found, both scripts are there, and
the script runs to an end, with whatever verdict. -/
def Found (c : Crypto PKey) (utxoSet : UtxoSet) (t : P2PKH PKey) (i : Nat) (x : TxIn PKey) : Prop :=
  ∃ utxo txHash, utxoSet.get x.prevOut = some utxo ∧ utxo.pkScript ≠ [] ∧ x.signatureScript.script ≠ [] ∧
    (t.txHashOnTxIn c i).map Prod.fst = some txHash ∧
    (verifyP2PKHScript c utxo.pkScript x.signatureScript.script txHash).isSome

theorem verifyLoop_iff {utxoSet : UtxoSet} {t : P2PKH PKey} {n : Nat} :
    ∀ {i : Nat} {t' : P2PKH PKey} {flag : Bool},
    Agrees t t' i → i + n = t.ins.length →
    ((∃ r, t'.verifyLoop c utxoSet n i flag = some (true, r)) ↔
      (n = 0 → flag = true) ∧ ∀ j x, i ≤ j → t.ins[j]? = some x → t.Found c utxoSet j x) := by
  induction n with
  | zero =>
    intro i t' flag agrees size
    have none : ∀ j x, i ≤ j → t.ins[j]? ≠ some x := by
      intro j x after there
      rw [List.getElem?_eq_none (by omega)] at there
      simp at there
    simp only [verifyLoop, Option.some.injEq, Prod.mk.injEq, exists_and_left, exists_eq', and_true,
      forall_const]
    exact ⟨fun set => ⟨set, fun j x after there => absurd there (none j x after)⟩, fun both => both.1⟩
  | succ n ih =>
    intro i t' flag agrees size
    obtain ⟨x, there⟩ : ∃ x, t.ins[i]? = some x := ⟨t.ins[i], List.getElem?_eq_getElem (by omega)⟩
    have here : t'.ins[i]? = some x := by rw [agrees.later i le_rfl, there]
    have rest : (∀ j y, i ≤ j → t.ins[j]? = some y → t.Found c utxoSet j y) ↔
        t.Found c utxoSet i x ∧ ∀ j y, i + 1 ≤ j → t.ins[j]? = some y → t.Found c utxoSet j y := by
      refine ⟨fun all => ⟨all i x le_rfl there, fun j y after => all j y (by omega)⟩,
        fun ⟨first, later⟩ j y after at_j => ?_⟩
      rcases Nat.eq_or_lt_of_le after with rfl | above
      · obtain rfl : x = y := by simpa using there.symm.trans at_j
        exact first
      · exact later j y above at_j
    have hashes := agrees.txHash (c := c) (le_refl i)
    rw [rest]
    simp only [verifyLoop, here, Option.bind_eq_bind, Option.bind_some, Nat.succ_ne_zero,
      false_imp_iff, true_and]
    cases found : utxoSet.get x.prevOut with
    | none => simp [Found, found]
    | some utxo =>
      by_cases noPk : utxo.pkScript = []
      · simp [Found, found, noPk]
      by_cases noSign : x.signatureScript.script = []
      · simp [Found, found, noPk, noSign]
      simp only [nonpos_iff_eq_zero, List.length_eq_zero_iff, noPk, noSign, if_false]
      cases hashed : t'.txHashOnTxIn c i with
      | none =>
        rw [hashed] at hashes
        simp [Found, found, ← hashes]
      | some result =>
        obtain ⟨txHash, t''⟩ := result
        rw [hashed] at hashes
        cases verdict : verifyP2PKHScript c utxo.pkScript x.signatureScript.script txHash with
        | none => simp [Found, found, ← hashes, verdict]
        | some _ =>
          have first : t.Found c utxoSet i x :=
            ⟨utxo, txHash, found, noPk, noSign, by simpa using hashes.symm, by simp [verdict]⟩
          simp only [Option.bind_some, verdict, ih (agrees.step hashed)
            (show i + 1 + n = t.ins.length by omega), implies_true, true_and, first]

/-- A transaction passes `P2PKH::verify` when it has an input and every input is found. -/
theorem verify_iff {utxoSet : UtxoSet} {t : P2PKH PKey} :
    (∃ r, t.verify c utxoSet = some (true, r)) ↔
      t.ins ≠ [] ∧ ∀ i x, t.ins[i]? = some x → t.Found c utxoSet i x := by
  rw [verify, verifyLoop_iff (Agrees.refl t 0) (by simp)]
  simp [List.length_eq_zero_iff]

end P2PKH

/-- The target that `nBits` stands for: three bytes of coefficient, scaled by the exponent. -/
def target (nBits : UInt32) : Nat := nBits.toNat % 256 ^ 3 * 256 ^ (nBits.toNat / 256 ^ 3 - 3)

theorem mbitcmp_iff {mask hash : List UInt8} (length : mask.length = hash.length) :
    mbitcmp mask hash = true ↔ Bytes.ofBe hash ≤ Bytes.ofBe mask := by
  induction mask generalizing hash with
  | nil =>
    obtain rfl : hash = [] := List.length_eq_zero_iff.mp length.symm
    simp [mbitcmp]
  | cons m mask ih =>
    obtain _ | ⟨h, hash⟩ := hash
    · simp at length
    have tails : mask.length = hash.length := by simpa using length
    rw [mbitcmp, Bytes.ofBe_cons_le_iff tails.symm, ← ih tails]
    by_cases below : m < h
    · have notAbove : ¬h < m := by rw [UInt8.lt_iff_toNat_lt] at below ⊢; omega
      have apart : h ≠ m := by rintro rfl; exact notAbove below
      simp [below, notAbove, apart]
    by_cases same : m = h
    · simp [same]
    have above : h < m := by
      rw [UInt8.lt_iff_toNat_lt] at below ⊢
      have := mt UInt8.toNat_inj.mp same
      omega
    simp [below, same, above]

/-- Three bytes in front of zeros, behind zeros. -/
theorem set_three (n : Nat) (inside : n + 2 ≤ 31) (x y z : UInt8) :
    (((List.replicate 32 (0 : UInt8)).set (31 - (n + 2)) x).set (31 - (n + 1)) y).set (31 - n) z =
      List.replicate (29 - n) 0 ++ [x, y, z] ++ List.replicate n 0 := by
  apply List.ext_getElem
  · simp; omega
  intro i left right
  simp only [List.length_set, List.length_replicate] at left
  simp only [List.getElem_set, List.getElem_replicate, List.getElem_append, List.length_replicate,
    List.length_append, List.length_cons, List.length_nil]
  split_ifs <;> first | rfl | omega | skip
  all_goals
    obtain h | h | h : i - (29 - n) = 0 ∨ i - (29 - n) = 1 ∨ i - (29 - n) = 2 := by omega
  all_goals first | omega | simp only [h, List.getElem_cons_zero, List.getElem_cons_succ]

theorem generatenBitMask_eq {nBits : UInt32} {mask : List UInt8} (run : generatenBitMask nBits = some mask) :
    mask.length = 32 ∧ Bytes.ofBe mask = target nBits := by
  have small := nBits.toNat_lt
  simp only [generatenBitMask, UInt8.toNat_ofNat'] at run
  split_ifs at run with inside
  obtain ⟨n, shift⟩ : ∃ n, n = (nBits.toNat / 256 ^ 3 % 2 ^ 8 + 65533) % 65536 := ⟨_, rfl⟩
  rw [← shift] at inside run
  rw [set_three n inside] at run
  obtain rfl := Option.some.inj run
  have exponent : nBits.toNat / 256 ^ 3 = n + 3 := by omega
  refine ⟨by simp; omega, ?_⟩
  simp only [Bytes.ofBe_append, List.length_replicate, Bytes.ofBe_replicate_zero, mul_zero, zero_add,
    add_zero, target, exponent, Nat.add_sub_cancel, Bytes.ofBe_cons, UInt8.toNat_ofNat',
    List.length_cons, List.length_nil]
  rw [mul_comm]
  congr 1
  simp only [show Bytes.ofBe [] = 0 from rfl]
  omega

theorem BlockHeader.verify_iff {h : BlockHeader} :
    h.verify c = some true ↔
      (generatenBitMask h.nBits).isSome ∧ Bytes.ofBe (h.headerHash c) ≤ target h.nBits := by
  cases mask : generatenBitMask h.nBits with
  | none => simp [verify, mask]
  | some bytes =>
    obtain ⟨length, value⟩ := generatenBitMask_eq mask
    have same : bytes.length = (h.headerHash c).length := by rw [length, headerHash, c.length_sha256]
    simp [verify, mask, mbitcmp_iff same, value]

namespace Block

theorem verifyTxs_iff {utxoSet : UtxoSet} {l : List (P2PKH PKey)} :
    verifyTxs c utxoSet l = some true ↔ ∀ t ∈ l, ∃ r, t.verify c utxoSet = some (true, r) := by
  induction l with
  | nil => simp [verifyTxs]
  | cons t l ih =>
    rw [verifyTxs]
    cases run : t.verify c utxoSet with
    | none => simp [run]
    | some result =>
      obtain ⟨flag, t'⟩ := result
      cases flag <;> simp [run, ih]

/-- What `Block::verify` does check: the work, the Merkle root, and that every transaction has
inputs, all of them found. `settled` is the block as computing the root leaves it. -/
structure Checked (c : Crypto PKey) (utxoSet : UtxoSet) (b settled : Block PKey) : Prop where
  mask : (generatenBitMask b.header.nBits).isSome
  work : Bytes.ofBe (b.header.headerHash c) ≤ target b.header.nBits
  merkle : b.calcMerkleRoot c = some (some b.header.merkleRoot.toList, settled)
  nonempty : ∀ t ∈ settled.txVector, t.ins ≠ []
  found : ∀ t ∈ settled.txVector, ∀ (i : Nat) x, t.ins[i]? = some x → t.Found c utxoSet i x

theorem calcMerkleRoot_header {b settled : Block PKey} {root : Buffer}
    (run : b.calcMerkleRoot c = some (root, settled)) :
    settled.header = b.header := by
  rw [calcMerkleRoot] at run
  cases has : b.coinbase with
  | none =>
    obtain ⟨-, rfl⟩ : none = root ∧ b = settled := by simpa [has] using run
    rfl
  | some coinbase =>
    simp only [has, Option.bind_eq_bind, Option.bind_eq_some_iff] at run
    obtain ⟨ids, -, txs, -, run⟩ := run
    split at run <;> obtain ⟨-, rfl⟩ := Prod.mk.inj (Option.some.inj run) <;> rfl

/-- A block is accepted exactly when it passes these checks. -/
theorem verify_iff_checked {utxoSet : UtxoSet} {b : Block PKey} :
    b.verify c utxoSet = some true ↔ ∃ settled, b.Checked c utxoSet settled := by
  have checked : ∀ settled, b.Checked c utxoSet settled ↔ b.header.verify c = some true ∧
      b.calcMerkleRoot c = some (some b.header.merkleRoot.toList, settled) ∧
      verifyTxs c utxoSet settled.txVector = some true := by
    intro settled
    rw [BlockHeader.verify_iff, verifyTxs_iff]
    simp only [P2PKH.verify_iff]
    exact ⟨fun h => ⟨⟨h.mask, h.work⟩, h.merkle, fun t member => ⟨h.nonempty t member, h.found t member⟩⟩,
      fun ⟨⟨mask, work⟩, merkle, txs⟩ => ⟨mask, work, merkle, fun t member => (txs t member).1,
      fun t member => (txs t member).2⟩⟩
  simp only [checked]
  rw [verify]
  cases header : b.header.verify c with
  | none => simp
  | some flag =>
    cases flag with
    | false => simp
    | true =>
      cases root : b.calcMerkleRoot c with
      | none => simp
      | some result =>
        obtain ⟨merkle, settled⟩ := result
        have same := calcMerkleRoot_header root
        cases merkle with
        | none => simp
        | some merkle =>
          by_cases equal : b.header.merkleRoot.toList = merkle
          · simp [BlockHeader.cmpMerkleRoot, same, equal]
          · simp [BlockHeader.cmpMerkleRoot, same, equal, Ne.symm equal]

/-- The input `x` of `t` unlocks the output of the set that it names with its whole index. -/
def Unlocks (c : Crypto PKey) (utxoSet : UtxoSet) (t : P2PKH PKey) (i : Nat) (x : TxIn PKey) : Prop :=
  ∃ utxo txHash, utxoSet x.prevOut.txID x.prevOut.rawIndex = some utxo ∧
    (t.txHashOnTxIn c i).map Prod.fst = some txHash ∧
    verifyP2PKHScript c utxo.pkScript x.signatureScript.script txHash = some true

/-- A valid block: enough work, the Merkle root of its transactions, and inputs that unlock
the outputs they name. The scripts are those the inputs hold once the root is computed. -/
structure Valid (c : Crypto PKey) (utxoSet : UtxoSet) (b : Block PKey) : Prop where
  work : Bytes.ofBe (b.header.headerHash c) ≤ target b.header.nBits
  merkle : ∃ settled, b.calcMerkleRoot c = some (some b.header.merkleRoot.toList, settled)
  spends : ∀ root settled, b.calcMerkleRoot c = some (root, settled) → ∀ t ∈ settled.txVector, ∀ (i : Nat) x,
    t.ins[i]? = some x → Unlocks c utxoSet t i x

/-- No two inputs of the block name the same output. -/
def NoDoubleSpend (b : Block PKey) : Prop := ((b.txVector.flatMap P2PKH.ins).map TxIn.prevOut).Nodup

/-- Digests of zeros, one key, and signatures that are all good or all bad. -/
def sample (good : Bool) : Crypto Unit where
  sha1 _ := List.replicate 20 0
  sha256 _ := List.replicate 32 0
  toPkey _ := some ()
  toRawPubKey _ := List.replicate 88 1
  verify _ _ _ := good
  length_sha1 := length_zeros20
  length_sha256 := length_zeros32

/-- A signed transaction with these inputs. -/
def sampleTx (ins : List PrevOut) : P2PKH Unit where
  ins := ins.map fun prevOut =>
    { prevOut, pkey := some (),
      signatureScript := { sign := some (List.replicate 70 1), signLength := 70, isSigned := true, pkey := some () } }
  outs := []

def sampleBlock (ins : List PrevOut) : Block Unit where
  header := { previousBlockHeaderHash := List.Vector.replicate 32 0, merkleRoot := List.Vector.replicate 32 0, time := 0,
              nBits := 0x20ffffff, nonce := 0 }
  coinbase := some { version := 0, txIn := {}, txOut := {}, pubkeyHash := some (List.replicate 20 0) }
  txVector := [sampleTx ins]

def sampleOut : PrevOut := ⟨List.Vector.replicate 32 7, 0⟩

end Block

end MiyaCore.Chain
