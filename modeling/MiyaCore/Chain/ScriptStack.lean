import MiyaCore.Chain.ScriptCodec

namespace MiyaCore.Chain

variable {PKey : Type} {c : Crypto PKey} {txHash : List UInt8}

/-- The bytes that an element of a script or of the stack carries. -/
def contents (x : OpCode × Buffer) : List UInt8 := x.2.getD []

/-- Data as long as its code says, as an import and the opcodes leave it. -/
def Loaded (x : OpCode × Buffer) : Prop := ∃ n, x.1 = .data n ∧ (contents x).length = n.toNat

theorem Loaded.read {x : OpCode × Buffer} (loaded : Loaded x) :
    x.2.read x.1.dataLength = some (contents x) := by
  obtain ⟨n, code, length⟩ := loaded
  rw [read_eq, code, OpCode.dataLength, ← length]
  exact if_pos le_rfl |>.trans (congrArg some List.take_length)

/-- What an opcode does to a stack of byte strings; what it has no operands for stays as it is. -/
def effect (c : Crypto PKey) (stack : List (List UInt8)) (x : OpCode × Buffer) : List (List UInt8) :=
  match x.1, stack with
  | .dup, a :: rest => a :: a :: rest
  | .hash160, a :: rest => c.sha1 a :: rest
  | .equalVerify, _ :: _ :: rest => rest
  | .checkSig, _ :: _ :: rest => rest
  | .data _, stack => contents x :: stack
  | _, stack => stack

/-- The stack of byte strings after a script. -/
def stackAfter (c : Crypto PKey) (script : Script) : List (List UInt8) := script.foldl (effect c) []

/-- An opcode finds its operands: one for `OP_DUP` and `OP_HASH160`, two for the checks, and for
`OP_EQUALVERIFY` the second has at least as many bytes as the first. -/
def Supplied : OpCode → List (List UInt8) → Prop
  | .dup, stack | .hash160, stack => 1 ≤ stack.length
  | .equalVerify, a :: b :: _ => a.length ≤ b.length
  | .equalVerify, _ => False
  | .checkSig, stack => 2 ≤ stack.length
  | _, _ => True

/-- A check that goes through: equal bytes, or a good signature. -/
def Passes (c : Crypto PKey) (txHash : List UInt8) : OpCode → List (List UInt8) → Prop
  | .equalVerify, a :: b :: _ => a = b.take a.length
  | .checkSig, a :: b :: _ => c.verify b txHash (c.toPkey a) = true
  | _, _ => True

/-- Each opcode finds its operands on what the script before it pushes, up to the first check
that does not go through. -/
def Supplies (c : Crypto PKey) (txHash : List UInt8) (script : Script) : Prop :=
  ∀ before x after, script = before ++ x :: after →
    (∀ start y rest, before = start ++ y :: rest → Passes c txHash y.1 (stackAfter c start)) →
    Supplied x.1 (stackAfter c before)

/-- The same along the script, from any stack. -/
def SuppliesFrom (c : Crypto PKey) (txHash : List UInt8) : List (List UInt8) → Script → Prop
  | _, [] => True
  | stack, x :: rest => Supplied x.1 stack ∧ (Passes c txHash x.1 stack →
  SuppliesFrom c txHash (effect c stack x) rest)

theorem suppliesFrom_iff {script : Script} {stack : List (List UInt8)} : SuppliesFrom c txHash stack script ↔
    ∀ before x after, script = before ++ x :: after →
      (∀ start y rest, before = start ++ y :: rest → Passes c txHash y.1 (start.foldl (effect c) stack)) →
      Supplied x.1 (before.foldl (effect c) stack) := by
  induction script generalizing stack with
  | nil => simp [SuppliesFrom]
  | cons z script ih =>
    rw [SuppliesFrom, ih]
    constructor
    · rintro ⟨first, later⟩ before x after split passes
      obtain _ | ⟨b, before⟩ := before
      · obtain ⟨rfl, -⟩ := List.cons.inj split
        exact first
      · obtain ⟨rfl, rest⟩ := List.cons.inj split
        exact later (passes [] z before rfl) before x after rest fun start y rest here =>
          passes (z :: start) y rest (congrArg (z :: ·) here)
    · intro all
      refine ⟨all [] z script rfl (by simp), fun pass before x after split passes => ?_⟩
      refine all (z :: before) x after (congrArg (z :: ·) split) fun start y rest here => ?_
      obtain _ | ⟨a, start⟩ := start
      · obtain ⟨rfl, -⟩ := List.cons.inj here
        exact pass
      · obtain ⟨rfl, tail⟩ := List.cons.inj here
        exact passes start y rest tail

/-- An opcode runs just when it finds its operands; it goes on if its check passes, and does to
the stack what it does to the bytes. -/
theorem execute_loaded (c : Crypto PKey) (txHash : List UInt8) {x : OpCode × Buffer} {stack : ValidationStack}
    (pushed : x.1.isData → Loaded x) (loaded : ∀ y ∈ stack, Loaded y) :
    (¬Supplied x.1 (stack.map contents) ∧ execute c txHash x stack = none) ∨
    (Supplied x.1 (stack.map contents) ∧ ∃ flag next, execute c txHash x stack = some (flag, next) ∧
      (flag = true ↔ Passes c txHash x.1 (stack.map contents)) ∧
      next.map contents = effect c (stack.map contents) x ∧ ∀ y ∈ next, Loaded y) := by
  obtain ⟨code, data⟩ := x
  cases code with
  | common => exact Or.inr ⟨trivial, true, stack, rfl, by simp [Passes], rfl, loaded⟩
  | data n =>
    refine Or.inr ⟨trivial, true, (.data n, data) :: stack, ?_, by simp [Passes], rfl, ?_⟩
    · simp [execute, OpData.exe]
    · exact List.forall_mem_cons.mpr ⟨pushed rfl, loaded⟩
  | dup =>
    cases stack with
    | nil => exact Or.inl ⟨by simp [Supplied], rfl⟩
    | cons a rest =>
      refine Or.inr ⟨by simp [Supplied], true, a :: a :: rest, rfl, by simp [Passes], rfl, ?_⟩
      exact List.forall_mem_cons.mpr ⟨loaded a List.mem_cons_self, loaded⟩
  | hash160 =>
    cases stack with
    | nil => exact Or.inl ⟨by simp [Supplied], rfl⟩
    | cons a rest =>
      obtain ⟨top, below⟩ := List.forall_mem_cons.mp loaded
      refine Or.inr ⟨by simp [Supplied], true, (.data 0x14, some (c.sha1 (contents a))) :: rest, ?_,
        by simp [Passes], rfl, ?_⟩
      · simp [execute, OpHash160.exe, top.read]
      · exact List.forall_mem_cons.mpr ⟨⟨0x14, rfl, c.length_sha1 _⟩, below⟩
  | equalVerify =>
    obtain _ | ⟨a, _ | ⟨b, rest⟩⟩ := stack
    · exact Or.inl ⟨by simp [Supplied], rfl⟩
    · exact Or.inl ⟨by simp [Supplied], rfl⟩
    · have top := loaded a List.mem_cons_self
      have below : ∀ y ∈ rest, Loaded y := fun y member => loaded y
        (List.mem_cons_of_mem _ (List.mem_cons_of_mem _ member))
      obtain ⟨n, atTop, length⟩ := id top
      have second : b.2.read a.1.dataLength = Bytes.take? (contents a).length (contents b) := by
        rw [read_eq, atTop, OpCode.dataLength, ← length, contents]
        rfl
      by_cases enough : (contents a).length ≤ (contents b).length
      · refine Or.inr ⟨enough, decide (contents a = (contents b).take (contents a).length), rest, ?_,
          ?_, rfl, below⟩
        · simp [execute, OpEqualVerify.exe, top.read, second, Bytes.take?, enough]
        · rw [decide_eq_true_iff]
          rfl
      · refine Or.inl ⟨enough, ?_⟩
        simp [execute, OpEqualVerify.exe, top.read, second, Bytes.take?, enough]
  | checkSig =>
    obtain _ | ⟨a, _ | ⟨b, rest⟩⟩ := stack
    · exact Or.inl ⟨by simp [Supplied], rfl⟩
    · exact Or.inl ⟨by simp [Supplied], rfl⟩
    · have top := loaded a List.mem_cons_self
      have second := loaded b (List.mem_cons_of_mem _ List.mem_cons_self)
      refine Or.inr ⟨by simp [Supplied], c.verify (contents b) txHash (c.toPkey (contents a)), rest, ?_, Iff.rfl, rfl, ?_⟩
      · simp [execute, OpCheckSig.exe, top.read, second.read]
      · exact fun y member => loaded y (List.mem_cons_of_mem _ (List.mem_cons_of_mem _ member))

/-- A script with its data runs to a verdict just when every opcode it reaches finds its operands. -/
theorem run_isSome_iff {script : Script} {stack : ValidationStack}
    (pushed : ∀ x ∈ script, x.1.isData → Loaded x) (loaded : ∀ y ∈ stack, Loaded y) :
    (run c txHash script stack).isSome ↔ SuppliesFrom c txHash (stack.map contents) script := by
  induction script generalizing stack with
  | nil => simp [run, SuppliesFrom]
  | cons x script ih =>
    obtain ⟨first, later⟩ := List.forall_mem_cons.mp pushed
    rw [run, SuppliesFrom]
    obtain ⟨lacks, stuck⟩ | ⟨supplied, flag, next, step, passes, after, still⟩ :=
      execute_loaded c txHash first loaded
    · simp [stuck, lacks]
    · rw [step, Option.bind_some]
      cases flag with
      | false =>
        have fails := mt passes.mpr Bool.false_ne_true
        simp [supplied, fails]
      | true => simp [supplied, ih later still, after, passes.mp rfl]

theorem Script.element_loaded {b : UInt8} {data : List UInt8} (whole : data.length = dataSize b)
    (isData : (OpCode.parse b).isData) : Loaded (element b data) := by
  have code := parse_of_isData isData
  rw [dataSize, code] at whole
  exact ⟨b, code, (congrArg List.length (getD_element b data)).trans whole⟩

/-- An imported script has the data that its opcodes announce. -/
theorem Script.importLoop_loaded {fuel length : Nat} {raw : List UInt8} {s : Script} {i : Nat}
    {r : Script × Nat} (run : importLoop fuel raw length s i = some r)
    (before : ∀ x ∈ s, x.1.isData → Loaded x) :
    ∀ x ∈ r.1, x.1.isData → Loaded x := by
  induction fuel generalizing length raw s i with
  | zero =>
    obtain rfl := Option.some.inj run
    exact before
  | succ fuel ih =>
    obtain _ | length := length
    · rw [importLoop_zero] at run
      obtain rfl := Option.some.inj run
      exact before
    cases raw with
    | nil => simp [importLoop] at run
    | cons b rest =>
      rw [importLoop_cons, Option.bind_eq_some_iff] at run
      obtain ⟨data, taken, next⟩ := run
      obtain ⟨there, rfl⟩ := take?_eq_some taken
      refine ih next (List.forall_mem_append.mpr ⟨before, ?_⟩)
      exact List.forall_mem_singleton.mpr (element_loaded (List.length_take_of_le there))

/-- What `Script::importRaw` makes of some bytes. -/
abbrev ImportedScript := {s : Script // ∃ raw length i, Script.importRaw [] raw length = some (s, i)}

theorem ImportedScript.loaded (s : ImportedScript) : ∀ x ∈ s.val, x.1.isData → Loaded x := by
  obtain ⟨s, raw, length, i, imported⟩ := s
  exact Script.importLoop_loaded (Script.importRaw_eq_some.mp imported).1 (by simp)

/-- Nothing guards a pop or a comparison: imported scripts run to a verdict just when each opcode
that is reached finds its operands. -/
theorem verifyP2PKHScript_isSome_iff (c : Crypto PKey) (pkScript signatureScript : ImportedScript)
    (txHash : List UInt8) :
    (verifyP2PKHScript c pkScript.val signatureScript.val txHash).isSome ↔
      Supplies c txHash (signatureScript.val ++ pkScript.val) := by
  have pushed : ∀ x ∈ signatureScript.val ++ pkScript.val, x.1.isData → Loaded x :=
    List.forall_mem_append.mpr ⟨signatureScript.loaded, pkScript.loaded⟩
  rw [verifyP2PKHScript, verifyLoop_eq, Option.isSome_map, run_isSome_iff pushed (by simp), suppliesFrom_iff]
  rfl

/-- A locking script that compares the only element with nothing, and one that compares two bytes
with one. -/
theorem verifyP2PKHScript_underflow :
    Script.importRaw [] [1, 7] 2 = some ([(.data 1, some [7])], 2) ∧
    Script.importRaw [] [1, 7, 2, 7, 7] 5 = some ([(.data 1, some [7]), (.data 2, some [7, 7])], 5) ∧
    Script.importRaw [] [0x88] 1 = some ([(.equalVerify, none)], 1) ∧
    verifyP2PKHScript (Block.sample true) [(.equalVerify, none)] [(.data 1, some [7])] [] = none ∧
    verifyP2PKHScript (Block.sample true) [(.equalVerify, none)]
      [(.data 1, some [7]), (.data 2, some [7, 7])] [] = none :=
  ⟨rfl, rfl, rfl, rfl, rfl⟩

end MiyaCore.Chain
