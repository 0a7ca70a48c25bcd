import MiyaCore.Chain.TransactionCodec

/-!
# The amounts of outputs
-/

namespace MiyaCore.Chain

variable {PKey : Type}

/-- The value of a hexadecimal digit. -/
def hexDigit (b : UInt8) : Option Nat :=
  if 48 ≤ b ∧ b ≤ 57 then some (b.toNat - 48)
  else if 97 ≤ b ∧ b ≤ 102 then some (b.toNat - 87)
  else if 65 ≤ b ∧ b ≤ 70 then some (b.toNat - 55)
  else none

/-- `std::stoul` to the base 16, cast to a byte. Blanks and a sign may come first, and what follows the
digits is left over; two characters have no room for a digit behind `0x`. -/
def stoulByte (s : List UInt8) : Option UInt8 :=
  let s := s.dropWhile fun b => b = 32 ∨ 9 ≤ b ∧ b ≤ 13
  let (negative, s) := if s.head? = some 45 then (true, s.tail) else
  (false, if s.head? = some 43 then s.tail else s)
  let digits := (s.takeWhile fun b => (hexDigit b).isSome).filterMap hexDigit
  let n := digits.foldl (fun n d => 16 * n + d) 0
  if digits = [] then none else some (UInt8.ofNat (if negative then 2 ^ 64 - n else n))

namespace TxOut

/-- `TxOut::init`. -/
def init (x : TxOut) (value : UInt32) (pubKeyHash : Buffer) : TxOut :=
  { x with value := value.toUInt64, pubKeyHash := pubKeyHash }

/-- `TxOut::value`, the setter. -/
def setValue (x : TxOut) (value : UInt32) : TxOut := { x with value := value.toUInt64 }

/-- `TxOut::value`, the getter, returns an `unsigned short`. -/
def getValue (x : TxOut) : UInt16 := x.value.toUInt16

/-- `from_json`, for the number under `value` and the characters of the string under `address`; `substr`
or `stoul` throws when the string is too short or no hexadecimal number. -/
def fromJson (x : TxOut) (value : UInt64) (address : List UInt8) : Option TxOut := do
  let hexBinaryVector ← (List.range 20).mapM fun i => stoulByte ((address.drop (2 * i)).take 2)
  return { x with value := value, pubKeyHash := some hexBinaryVector }

/-- The output is created with the amount `v`. -/
inductive Created : Nat → TxOut → Prop
  | init (x : TxOut) (v : UInt32) (pubKeyHash : Buffer) : Created v.toNat (x.init v pubKeyHash)
  | setValue (x : TxOut) (v : UInt32) : Created v.toNat (x.setValue v)
  | fromJson {x y : TxOut} {v : UInt64} {address : List UInt8} (nonnegative : v.toNat < 2 ^ 63)
      (read : x.fromJson v address = some y) : Created v.toNat y

theorem Created.value_eq {v : Nat} {o : TxOut} (created : Created v o) : o.value.toNat = v := by
  cases created with
  | init x v pubKeyHash => exact UInt32.toNat_toUInt64 v
  | setValue x v => exact UInt32.toNat_toUInt64 v
  | fromJson _ read =>
    simp only [TxOut.fromJson, Option.bind_eq_bind, Option.bind_eq_some_iff, Option.pure_def,
      Option.some.injEq] at read
    obtain ⟨_, -, rfl⟩ := read
    rfl

/-- The getter keeps the low sixteen bits. -/
theorem toNat_getValue (x : TxOut) : x.getValue.toNat = x.value.toNat % 2 ^ 16 := by simp [getValue]

/-- The getter gives the amount of the output, of what is read back from its bytes, and of what stands in its
place when a transaction with it is imported; the inputs are such as can be read. -/
structure AmountKept (c : Crypto PKey) (v : Nat) (o : TxOut) : Prop where
  created : o.getValue.toNat = v
  reimported : ∀ raw after, o.pubKeyHash ≠ none → o.exportRaw = some (raw, after) → ∀ rest, ∃ y n,
    importRaw (raw ++ rest) = some (y, n) ∧ y.getValue.toNat = v
  inTransaction : ∀ (t : P2PKH PKey) (i : Nat) rawIns ins rawOuts after, t.outs[i]? = some o →
    (∀ x ∈ t.outs, x.Locked) →
    List.Forall₂ (fun part x => ∀ rest, TxIn.importRaw c (part ++ rest) = some (x, part.length)) rawIns ins →
    rawIns.length = t.ins.length →
    t.ins.length < 2 ^ 32 → exportAll exportRaw t.outs = some (rawOuts, after) →
    (t.frame rawIns.flatten rawOuts).length < 2 ^ 32 → ∃ y n x, P2PKH.importRawSequentially c
    (t.frame rawIns.flatten rawOuts) = some (y, n) ∧
      y.outs[i]? = some x ∧ x.getValue.toNat = v

/-- What stands in the place of an output in an imported transaction has its value. -/
theorem value_of_imported {c : Crypto PKey} {t : P2PKH PKey} {i : Nat} {o : TxOut}
    {rawIns : List (List UInt8)} {ins : List (TxIn PKey)} {rawOuts : List UInt8} {after : List TxOut}
    (placed : t.outs[i]? = some o) (locked : ∀ x ∈ t.outs, x.Locked)
    (readsIns : List.Forall₂ (fun part x => ∀ rest, TxIn.importRaw c (part ++ rest) = some (x, part.length))
      rawIns ins) (countIns : rawIns.length = t.ins.length)
      (fewIns : t.ins.length < 2 ^ 32) (written : exportAll exportRaw t.outs = some (rawOuts, after))
      (fits : (t.frame rawIns.flatten rawOuts).length < 2 ^ 32) :
    ∃ y n x, P2PKH.importRawSequentially c (t.frame rawIns.flatten rawOuts) = some (y, n) ∧
      y.outs[i]? = some x ∧ x.value = o.value := by
  obtain ⟨parts, outs', ys, writtenParts, size, reads, same⟩ := exportAll_locked locked
  obtain ⟨rfl, -⟩ := Prod.mk.inj (Option.some.inj (written.symm.trans writtenParts))
  have countOuts : parts.length = t.outs.length := by
    rw [reads.length_eq, ← List.length_map fields, same, List.length_map]
  rw [P2PKH.length_frame, size] at fits
  have run := P2PKH.importRawSequentially_frame readsIns reads countIns countOuts fewIns (by omega) []
  rw [List.append_nil] at run
  have atI : (ys.map fields)[i]? = some o.fields := by rw [same, List.getElem?_map, placed, Option.map_some]
  rw [List.getElem?_map] at atI
  obtain ⟨x, found, agrees⟩ := Option.map_eq_some_iff.mp atI
  exact ⟨_, _, x, run, found, (Prod.mk.inj agrees).1⟩

/-- Amounts come through just when they are below 2^16: the field has 64 bits, the getter has 16. -/
theorem amountKept_iff (c : Crypto PKey) {v : Nat} {o : TxOut} (created : Created v o) :
    AmountKept c v o ↔ v < 2 ^ 16 := by
  constructor
  · intro kept
    rw [← kept.created]
    exact o.getValue.toNat_lt
  · intro small
    have value : ∀ x : TxOut, x.value = o.value → x.getValue.toNat = v := by
      intro x same
      rw [toNat_getValue, same, created.value_eq]
      omega
    refine ⟨value o rfl, fun raw after present written rest => ?_, ?_⟩
    · obtain ⟨absent, -⟩ | ⟨key, hash, -, -, rfl⟩ := exportRaw_cases written
      · exact absurd absent present
      · exact ⟨_, _, importRaw_raw o.value hash rest, value _ rfl⟩
    · intro t i rawIns ins rawOuts after placed locked readsIns countIns fewIns written fits
      obtain ⟨y, n, x, run, found, same⟩ := value_of_imported placed locked readsIns countIns fewIns
        written fits
      exact ⟨y, n, x, run, found, value x same⟩

theorem amountKept_iff_init : AmountKept (Block.sample true) (65535 : UInt32).toNat
    (init {} 65535 none) ↔ (65535 : UInt32).toNat < 2 ^ 16 :=
  amountKept_iff _ (.init {} 65535 none)

/-- An output created with the amount 65536 says it has 0. -/
theorem amountKept_fails : (init {} 65536 (some (List.replicate 20 7))).getValue = 0 ∧
    ¬AmountKept (Block.sample true) (65536 : UInt32).toNat (init {} 65536 (some (List.replicate 20 7))) := by
  refine ⟨rfl, fun kept => ?_⟩
  have wrong := kept.created
  revert wrong
  decide

end TxOut

end MiyaCore.Chain
