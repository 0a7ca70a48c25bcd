import MiyaCore.Chain.Transaction

namespace MiyaCore.Chain

variable {PKey : Type} {c : Crypto PKey} {txHash : List UInt8}

/-- What one opcode of a script does to the stack. -/
def execute (c : Crypto PKey) (txHash : List UInt8) (x : OpCode × Buffer) (stack : ValidationStack) :
    Option (Bool × ValidationStack) :=
  match x.1 with
  | .dup => OpDup.exe stack
  | .hash160 => OpHash160.exe c stack
  | .equalVerify => OpEqualVerify.exe stack
  | .checkSig => OpCheckSig.exe c txHash stack
  | .data n => OpData.exe x.2 n.toNat stack
  | .common => some (true, stack)

/-- A script run from a stack: the verdict, and the stack it leaves. -/
def run (c : Crypto PKey) (txHash : List UInt8) : Script → ValidationStack → Option (Bool × ValidationStack)
  | [], stack => some (true, stack)
  | x :: rest, stack => (execute c txHash x stack).bind fun (flag, stack) =>
      if flag then run c txHash rest stack else some (false, stack)

theorem verifyLoop_eq (script : Script) (stack : ValidationStack) :
    verifyLoop c txHash script stack = (run c txHash script stack).map Prod.fst := by
  induction script generalizing stack with
  | nil => rfl
  | cons x rest ih =>
    rw [verifyLoop, run]
    change (execute c txHash x stack).bind _ = _
    cases execute c txHash x stack with
    | none => rfl
    | some result =>
      obtain ⟨flag, left⟩ := result
      cases flag with
      | false => rfl
      | true => exact ih left

theorem run_cons {x : OpCode × Buffer} {rest : Script} {stack left : ValidationStack} :
    run c txHash (x :: rest) stack = some (true, left) ↔
      ∃ next, execute c txHash x stack = some (true, next) ∧ run c txHash rest next = some (true, left) := by
  rw [run]
  cases execute c txHash x stack with
  | none => simp
  | some result =>
    obtain ⟨flag, next⟩ := result
    cases flag <;> simp

theorem run_append {first second : Script} {stack left : ValidationStack} :
    run c txHash (first ++ second) stack = some (true, left) ↔
      ∃ between, run c txHash first stack = some (true, between) ∧
      run c txHash second between = some (true, left) := by
  induction first generalizing stack with
  | nil => simp [run]
  | cons x rest ih =>
    simp only [List.cons_append, run_cons, ih]
    exact ⟨fun ⟨next, step, between, start, finish⟩ => ⟨between, ⟨next, step, start⟩, finish⟩,
      fun ⟨between, ⟨next, step, start⟩, finish⟩ => ⟨next, step, between, start, finish⟩⟩

/-- The bytes of an element of the stack, as the opcodes read them. -/
def bytes (x : OpCode × Buffer) : Option (List UInt8) := x.2.read x.1.dataLength

section Opcodes

variable {data : Buffer} {stack next : ValidationStack}

theorem execute_dup : execute c txHash (.dup, data) stack = some (true, next) ↔
    ∃ x rest, stack = x :: rest ∧ next = x :: x :: rest := by
  obtain _ | ⟨x, rest⟩ := stack
  · simp [execute, OpDup.exe]
  · simp [execute, OpDup.exe, eq_comm]

theorem execute_hash160 : execute c txHash (.hash160, data) stack = some (true, next) ↔
    ∃ x rest message, stack = x :: rest ∧ bytes x = some message ∧
      next = (.data 0x14, some (c.sha1 message)) :: rest := by
  obtain _ | ⟨x, rest⟩ := stack
  · simp [execute, OpHash160.exe]
  · cases message : bytes x <;> rw [bytes] at message <;> simp [execute, OpHash160.exe, bytes, message, eq_comm]

theorem execute_equalVerify : execute c txHash (.equalVerify, data) stack = some (true, next) ↔
    ∃ x y same, stack = x :: y :: next ∧ bytes x = some same ∧ y.2.read x.1.dataLength = some same := by
  constructor
  · intro step
    obtain _ | ⟨x, _ | ⟨y, rest⟩⟩ := stack
    · simp [execute, OpEqualVerify.exe] at step
    · simp [execute, OpEqualVerify.exe] at step
    · simp only [execute, OpEqualVerify.exe, Option.bind_eq_bind, Option.bind_eq_some_iff] at step
      obtain ⟨left, isLeft, right, isRight, result⟩ := step
      obtain ⟨rfl, rfl⟩ : left = right ∧ rest = next := by simpa using result
      exact ⟨x, y, left, rfl, isLeft, isRight⟩
  · rintro ⟨x, y, same, rfl, isLeft, isRight⟩
    rw [bytes] at isLeft
    simp [execute, OpEqualVerify.exe, isLeft, isRight]

theorem execute_checkSig : execute c txHash (.checkSig, data) stack = some (true, next) ↔
    ∃ x y key sign, stack = x :: y :: next ∧ bytes x = some key ∧ bytes y = some sign ∧
      c.verify sign txHash (c.toPkey key) = true := by
  constructor
  · intro step
    obtain _ | ⟨x, _ | ⟨y, rest⟩⟩ := stack
    · simp [execute, OpCheckSig.exe] at step
    · simp [execute, OpCheckSig.exe] at step
    · simp only [execute, OpCheckSig.exe, Option.bind_eq_bind, Option.bind_eq_some_iff] at step
      obtain ⟨key, isKey, sign, isSign, result⟩ := step
      obtain ⟨verified, rfl⟩ : c.verify sign txHash (c.toPkey key) = true ∧ rest = next := by simpa using result
      exact ⟨x, y, key, sign, rfl, isKey, isSign, verified⟩
  · rintro ⟨x, y, key, sign, rfl, isKey, isSign, verified⟩
    rw [bytes] at isKey isSign
    simp [execute, OpCheckSig.exe, isKey, isSign, verified]

theorem execute_data {n : UInt8} : execute c txHash (.data n, data) stack = some (true, next) ↔
    next = (.data n, data) :: stack := by
  simp [execute, OpData.exe, eq_comm]

end Opcodes

/-- A stack with a key of this hash on top and a signature by it below. -/
def Unlocked (c : Crypto PKey) (txHash pubKeyHash : List UInt8) (stack : ValidationStack) : Prop :=
  ∃ key sign rest pubKey signature, stack = key :: sign :: rest ∧ bytes key = some pubKey ∧
  bytes sign = some signature ∧
    c.sha1 pubKey = pubKeyHash ∧ c.verify signature txHash (c.toPkey pubKey) = true

theorem read_whole {l : List UInt8} {n : Nat} (length : l.length = n) : Buffer.read (some l) n = some l := by
  obtain rfl := length
  obtain _ | ⟨a, l⟩ := l
  · rfl
  · simp [Buffer.read, Bytes.take?]

/-- The locking script goes through from exactly the stacks that unlock it. -/
theorem run_p2pkhPkScript (pubKeyHash : List.Vector UInt8 20) (stack : ValidationStack) :
    (∃ left, run c txHash (p2pkhPkScript pubKeyHash.toList) stack = some (true, left)) ↔
      Unlocked c txHash pubKeyHash.toList stack := by
  have hashed : ∀ l, Buffer.read (some (c.sha1 l)) 20 = some (c.sha1 l) := fun l => read_whole (c.length_sha1 l)
  have wanted : Buffer.read (some pubKeyHash.toList) 20 = some pubKeyHash.toList :=
    read_whole pubKeyHash.toList_length
  simp only [p2pkhPkScript, run_cons, execute_dup, execute_hash160, execute_data, execute_equalVerify,
    execute_checkSig]
  constructor
  · rintro ⟨left, _, ⟨key, below, rfl, rfl⟩, _, ⟨_, _, pubKey, atTop, isKey, rfl⟩, _, rfl, _,
      ⟨_, _, same, atEqual, isHash, isSame⟩, _,
      ⟨_, sign, pubKey', signature, atCheck, isKey', isSign, verified⟩, -⟩
    obtain ⟨rfl, rfl⟩ := List.cons.inj atTop
    obtain ⟨rfl, rest⟩ := List.cons.inj atEqual
    obtain ⟨rfl, rfl⟩ := List.cons.inj rest
    obtain ⟨rfl, rfl⟩ := List.cons.inj atCheck
    obtain rfl : pubKey = pubKey' := Option.some.inj (isKey.symm.trans isKey')
    obtain rfl : pubKeyHash.toList = same := Option.some.inj (wanted.symm.trans isHash)
    have digest : c.sha1 pubKey = pubKeyHash.toList := Option.some.inj ((hashed pubKey).symm.trans isSame)
    exact ⟨key, sign, _, pubKey, signature, rfl, isKey, isSign, digest, verified⟩
  · rintro ⟨key, sign, rest, pubKey, signature, rfl, isKey, isSign, digest, verified⟩
    have isSame : Buffer.read (some (c.sha1 pubKey)) 20 = some pubKeyHash.toList := by rw [hashed, digest]
    exact ⟨rest, _, ⟨key, sign :: rest, rfl, rfl⟩, _,
      ⟨key, key :: sign :: rest, pubKey, rfl, isKey, rfl⟩, _, rfl, _,
      ⟨_, _, pubKeyHash.toList, rfl, wanted, isSame⟩, _,
      ⟨key, sign, pubKey, signature, rfl, isKey, isSign, verified⟩, rfl⟩

/-- Data that an `OP_DATA` can carry. -/
abbrev Datum := {l : List UInt8 // l.length < 2 ^ 8}

/-- The opcode that pushes these bytes. -/
def Datum.push (d : Datum) : OpCode × Buffer := (.data (UInt8.ofNat d.val.length), some d.val)

theorem Datum.bytes_push (d : Datum) : bytes d.push = some d.val := by
  have length : (UInt8.ofNat d.val.length).toNat = d.val.length := by
    rw [UInt8.toNat_ofNat', Nat.mod_eq_of_lt d.property]
  exact read_whole length.symm

/-- An output locked to a key hash is unlocked by the scripts that leave a key of this hash on top
of a signature by it, and by no others. -/
theorem verifyP2PKHScript_p2pkh_iff (c : Crypto PKey) (pubKeyHash : List.Vector UInt8 20)
    (txHash : List UInt8) :
    (∀ unlocking : Script, verifyP2PKHScript c (p2pkhPkScript pubKeyHash.toList) unlocking txHash = some true ↔
      ∃ stack, run c txHash unlocking [] = some (true, stack) ∧ Unlocked c txHash pubKeyHash.toList stack) ∧
    ∀ sign key : Datum, verifyP2PKHScript c (p2pkhPkScript pubKeyHash.toList)
    [sign.push, key.push] txHash = some true ↔
      c.sha1 key.val = pubKeyHash.toList ∧ c.verify sign.val txHash (c.toPkey key.val) = true := by
  have all : ∀ unlocking : Script, verifyP2PKHScript c
    (p2pkhPkScript pubKeyHash.toList) unlocking txHash = some true ↔
      ∃ stack, run c txHash unlocking [] = some (true, stack) ∧ Unlocked c txHash pubKeyHash.toList stack := by
    intro unlocking
    have passes : verifyP2PKHScript c (p2pkhPkScript pubKeyHash.toList) unlocking txHash = some true ↔
        ∃ left, run c txHash (unlocking ++ p2pkhPkScript pubKeyHash.toList) [] = some (true, left) := by
      simp [verifyP2PKHScript, verifyLoop_eq]
    rw [passes]
    simp only [run_append, ← run_p2pkhPkScript]
    exact ⟨fun ⟨left, stack, start, finish⟩ => ⟨stack, start, left, finish⟩,
      fun ⟨stack, start, left, finish⟩ => ⟨left, stack, start, finish⟩⟩
  refine ⟨all, fun sign key => ?_⟩
  have pushed : run c txHash [sign.push, key.push] [] = some (true, [key.push, sign.push]) :=
    run_cons.mpr ⟨_, execute_data.mpr rfl, run_cons.mpr ⟨_, execute_data.mpr rfl, rfl⟩⟩
  rw [all, pushed]
  constructor
  · rintro ⟨stack, left, top, second, rest, pubKey, signature, rfl, isKey, isSign, digest, verified⟩
    obtain ⟨rfl, tail⟩ := List.cons.inj (congrArg Prod.snd (Option.some.inj left))
    obtain ⟨rfl, -⟩ := List.cons.inj tail
    obtain rfl : key.val = pubKey := Option.some.inj (key.bytes_push.symm.trans isKey)
    obtain rfl : sign.val = signature := Option.some.inj (sign.bytes_push.symm.trans isSign)
    exact ⟨digest, verified⟩
  · rintro ⟨digest, verified⟩
    exact ⟨_, rfl, key.push, sign.push, [], key.val, sign.val, rfl, key.bytes_push, sign.bytes_push,
      digest, verified⟩

end MiyaCore.Chain
