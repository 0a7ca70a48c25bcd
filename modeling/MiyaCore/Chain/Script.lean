import MiyaCore.Bytes

namespace MiyaCore.Chain

/-- What the chain takes from the hash and cipher libraries. The lengths are those of
the digests; a key is whatever `EVP_PKEY` is. -/
structure Crypto (PKey : Type) where
  sha1 : List UInt8 → List UInt8
  sha256 : List UInt8 → List UInt8
  toPkey : List UInt8 → Option PKey
  toRawPubKey : PKey → List UInt8
  verify : List UInt8 → List UInt8 → Option PKey → Bool
  length_sha1 : ∀ l, (sha1 l).length = 20
  length_sha256 : ∀ l, (sha256 l).length = 32

theorem length_zeros20 : ∀ _ : List UInt8, (List.replicate 20 (0 : UInt8)).length = 20 := fun _ => rfl

theorem length_zeros32 : ∀ _ : List UInt8, (List.replicate 32 (0 : UInt8)).length = 32 := fun _ => rfl

/-- The length of a digest that is a number made of all the bytes. -/
theorem length_mixed : ∀ l : List UInt8,
    (Bytes.be 32 (l.foldl (fun h a => h * 16777619 + a.toNat + 1) 0)).length = 32 := fun _ => Bytes.length_be ..

/-- `OP_CODES`. An `OP_DATA` carries the length of its data as its code. -/
inductive OpCode where
  | common
  | dup
  | hash160
  | equalVerify
  | checkSig
  | data (length : UInt8)
deriving Repr, DecidableEq

/-- A pointer to bytes: null, or the buffer it points to. -/
abbrev Buffer := Option (List UInt8)

/-- Copying `n` bytes out of a buffer. Reading a null pointer or past the end of the
buffer has no defined result. -/
def Buffer.read (b : Buffer) (n : Nat) : Option (List UInt8) :=
  match n, b with
  | 0, _ => some []
  | _ + 1, none => none
  | n + 1, some l => Bytes.take? (n + 1) l

namespace OpCode

/-- `Script::OP_DATALength`. -/
def dataLength : OpCode → Nat
  | data n => n.toNat
  | _ => 0

/-- `Script::parseRawOPCode`. -/
def parse (raw : UInt8) : OpCode :=
  if raw = 0x76 then dup
  else if raw = 0xa9 then hash160
  else if raw = 0x88 then equalVerify
  else if raw = 0xac then checkSig
  else data raw

/-- `Script::rawOPCode`. -/
def raw : OpCode → UInt8
  | common => 0x00
  | dup => 0x76
  | hash160 => 0xa9
  | equalVerify => 0x88
  | checkSig => 0xac
  | data n => n

def isData : OpCode → Bool
  | data _ => true
  | _ => false

end OpCode

/-- `Script`: opcodes with the data of those that have any. -/
abbrev Script := List (OpCode × Buffer)

namespace Script

/-- `Script::pushBack` keeps the data of an `OP_DATA` only. -/
def pushBack (s : Script) (op : OpCode) (data : Buffer := none) : Script :=
  s ++ [(op, if op.isData then data else none)]

def exportElement (x : OpCode × Buffer) : Option (List UInt8) := do
  let body ← if x.1.isData then x.2.read x.1.dataLength else some []
  return x.1.raw :: body

/-- `Script::exportRawSize`. -/
def exportRawSize (s : Script) : UInt32 := UInt32.ofNat (s.map fun x => 1 + x.1.dataLength).sum

/-- `Script::exportRaw`; an empty script exports nothing. The buffer is sized by
`exportRawSize`, an `unsigned int`, so a longer script is written past its end. -/
def exportRaw (s : Script) : Option (List UInt8) := do
  let parts ← s.mapM exportElement
  guard (parts.flatten.length < 2 ^ 32)
  return parts.flatten

/-- The loop of `Script::importRaw` over `length` bytes, the first of which is at the front
of `raw`. The data of the last opcode may reach past `length`; the loop then ends. -/
def importLoop : Nat → List UInt8 → Nat → Script → Nat → Option (Script × Nat)
  | 0, _, _, s, i => some (s, i)
  | fuel + 1, raw, length, s, i =>
    if length = 0 then some (s, i)
    else
      match raw with
      | [] => none
      | b :: rest => do
        let op := OpCode.parse b
        let n := op.dataLength
        if n = 0 then importLoop fuel rest (length - 1) (s.pushBack op) (i + 1)
        else do
          let data ← Bytes.take? n rest
          importLoop fuel (rest.drop n) (length - (1 + n)) (s.pushBack op (some data)) (i + 1 + n)

/-- `Script::importRaw`: the script grown by what the bytes hold, and how many were read. They
are counted by an `int`. -/
def importRaw (s : Script) (raw : List UInt8) (length : Nat) : Option (Script × Nat) := do
  let (s, i) ← importLoop length raw length s 0
  guard (i < 2 ^ 31)
  return (s, i)

end Script

/-- `ValidationStack`, its top at the front. Popping an empty stack has no defined result. -/
abbrev ValidationStack := List (OpCode × Buffer)

variable {PKey : Type}

/-- `OP_DUP::exe`. -/
def OpDup.exe : ValidationStack → Option (Bool × ValidationStack)
  | x :: rest => some (true, x :: x :: rest)
  | [] => none

/-- `OP_HASH_160::exe`. -/
def OpHash160.exe (c : Crypto PKey) : ValidationStack → Option (Bool × ValidationStack)
  | x :: rest => do
    let message ← x.2.read x.1.dataLength
    return (true, (.data 0x14, some (c.sha1 message)) :: rest)
  | [] => none

/-- `OP_EQUALVERIFY::exe` compares as many bytes as the element popped first has. -/
def OpEqualVerify.exe : ValidationStack → Option (Bool × ValidationStack)
  | x :: y :: rest => do
    let left ← x.2.read x.1.dataLength
    let right ← y.2.read x.1.dataLength
    return (left = right, rest)
  | _ => none

/-- `OP_CHECKSIG::exe`: the public key is on top, the signature below it. -/
def OpCheckSig.exe (c : Crypto PKey) (txHash : List UInt8) : ValidationStack → Option (Bool × ValidationStack)
  | x :: y :: rest => do
    let rawPubKey ← x.2.read x.1.dataLength
    let sign ← y.2.read y.1.dataLength
    return (c.verify sign txHash (c.toPkey rawPubKey), rest)
  | _ => none

/-- `OP_DATA::exe`. -/
def OpData.exe (data : Buffer) (length : Nat) (stack : ValidationStack) : Option (Bool × ValidationStack) :=
  some (true, (.data (UInt8.ofNat length), data) :: stack)

/-- The loop of `ScriptValidator::verifyP2PKHScript` over the joined script. An opcode that is
none of the five is passed over. -/
def verifyLoop (c : Crypto PKey) (txHash : List UInt8) : Script → ValidationStack → Option Bool
  | [], _ => some true
  | x :: rest, stack =>
    let step : Option (Bool × ValidationStack) :=
      match x.1 with
      | .dup => OpDup.exe stack
      | .hash160 => OpHash160.exe c stack
      | .equalVerify => OpEqualVerify.exe stack
      | .checkSig => OpCheckSig.exe c txHash stack
      | .data n => OpData.exe x.2 n.toNat stack
      | .common => some (true, stack)
    step.bind fun (flag, stack) => if flag then verifyLoop c txHash rest stack else some false

/-- `ScriptValidator::verifyP2PKHScript` on the signature script followed by the locking script. -/
def verifyP2PKHScript (c : Crypto PKey) (pkScript signatureScript : Script) (txHash : List UInt8) :
    Option Bool :=
  verifyLoop c txHash (signatureScript ++ pkScript) []

end MiyaCore.Chain
