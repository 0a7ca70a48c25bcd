import MiyaCore.Chain.Block
import MiyaCore.FlatMemory

/-!
# The HEADERS message

A count and the headers behind it, written into a buffer of their size.
-/

namespace MiyaCore.Chain
open FlatMemory

/-- `MiyaCoreMSG_HEADERS`. The count is set on its own. -/
structure MiyaCoreMSG_HEADERS where
  count : UInt32
  headers : List BlockHeader
deriving DecidableEq

/-- The copying loop of an export, from a position on: the buffer, whose cells are empty until they are
written, and the position it has come to. -/
def copyAll (buffer : Nat → Option UInt8) (formatPtr : Nat) :
    List (List UInt8) → (Nat → Option UInt8) × Nat
  | [] => (buffer, formatPtr)
  | rawTx :: rest => copyAll (lay buffer formatPtr (rawTx.map some)) (formatPtr + rawTx.length) rest

namespace MiyaCoreMSG_HEADERS

/-- `exportRaw`: the length it returns and the buffer it allocated. The position stays at the front of the
buffer when the count is written. -/
def exportRaw (m : MiyaCoreMSG_HEADERS) : Nat × List (Option UInt8) :=
  let rawTxVector := m.headers.map BlockHeader.exportRaw
  let rawTxsLength := (rawTxVector.map List.length).sum
  let retLength := 4 + rawTxsLength
  let formatPtr := 0
  let buffer := lay (fun _ => none) formatPtr ((Bytes.le 4 m.count.toNat).map some)
  let (buffer, formatPtr) := copyAll buffer formatPtr rawTxVector
  (formatPtr, slice buffer 0 retLength)

/-- The bytes of the headers in order. -/
def headerBytes (m : MiyaCoreMSG_HEADERS) : List UInt8 := m.headers.flatMap BlockHeader.exportRaw

/-- The message as it is meant to go out: the count, and the headers behind it. -/
structure LaidOut (m : MiyaCoreMSG_HEADERS) : Prop where
  size : m.exportRaw.2.length = 4 + 80 * m.headers.length
  returned : m.exportRaw.1 = 4 + 80 * m.headers.length
  bytes : m.exportRaw.2 = (Bytes.le 4 m.count.toNat ++ m.headerBytes).map some
  recovered : ∀ other : MiyaCoreMSG_HEADERS, other.exportRaw = m.exportRaw → other = m

end MiyaCoreMSG_HEADERS

/-- The parts of an export lie one behind the other. -/
theorem copyAll_eq (buffer : Nat → Option UInt8) (formatPtr : Nat) (parts : List (List UInt8)) :
    copyAll buffer formatPtr parts =
      (lay buffer formatPtr (parts.flatten.map some), formatPtr + parts.flatten.length) := by
  induction parts generalizing buffer formatPtr with
  | nil => rfl
  | cons rawTx rest ih =>
    rw [copyAll, ih, List.flatten_cons, List.map_append, lay_append, List.length_append, List.length_map,
      Nat.add_assoc]

namespace MiyaCoreMSG_HEADERS
variable (m : MiyaCoreMSG_HEADERS)

theorem length_headerBytes : m.headerBytes.length = 80 * m.headers.length := by
  rw [headerBytes, List.length_flatMap]
  simp [Nat.mul_comm]

/-- What is exported: the headers stand where the count was, and the last four bytes are not written, or
there is no header and the count stands alone. -/
theorem exportRaw_eq : m.exportRaw =
    (80 * m.headers.length,
      if m.headers = [] then (Bytes.le 4 m.count.toNat).map some
      else m.headerBytes.map some ++ List.replicate 4 none) := by
  have flat : (m.headers.map BlockHeader.exportRaw).flatten = m.headerBytes := List.flatMap_def.symm
  have total : ((m.headers.map BlockHeader.exportRaw).map List.length).sum = 80 * m.headers.length := by
    rw [← List.length_flatten, flat, length_headerBytes]
  simp only [exportRaw, copyAll_eq, flat, total, length_headerBytes, Nat.zero_add]
  refine congrArg (Prod.mk _) ?_
  split_ifs with empty
  · simp only [headerBytes, empty, List.flatMap_nil, List.map_nil, lay_nil, List.length_nil, Nat.mul_zero]
    have written := slice_lay_self (fun _ => none) 0 ((Bytes.le 4 m.count.toNat).map some)
    rwa [List.length_map, Bytes.length_le] at written
  · have some : 1 ≤ m.headers.length := List.length_pos_iff.mpr empty
    have size : (m.headerBytes.map Option.some).length = 80 * m.headers.length := by
      rw [List.length_map, length_headerBytes]
    rw [Nat.add_comm, slice_append]
    refine congrArg₂ _ ?_ ?_
    · have written := slice_lay_self
        (lay (fun _ => none) 0 ((Bytes.le 4 m.count.toNat).map Option.some)) 0 (m.headerBytes.map Option.some)
      rwa [size] at written
    · rw [slice_lay_of_disjoint _ (Or.inr (by omega)), slice_lay_of_disjoint _ (Or.inr (by simp; omega))]
      rfl

/-- No message is laid out as it is meant to be: the length that is returned leaves the count out. -/
theorem laidOut_never : ¬m.LaidOut := by
  intro laidOut
  have returned := laidOut.returned
  rw [exportRaw_eq] at returned
  omega

/-- A message with a count of one and one header. -/
def oneHeader : MiyaCoreMSG_HEADERS where
  count := 1
  headers := [{ previousBlockHeaderHash := .replicate 32 7, merkleRoot := .replicate 32 8, time := 9, nBits := 10,
                nonce := 11 }]

/-- 80 is returned for 84 bytes; the version of the header stands at the front, where the count should be,
and the bytes are those of a message with another count. -/
theorem laidOut_fails : ¬oneHeader.LaidOut ∧ oneHeader.exportRaw.1 = 80 ∧
    oneHeader.exportRaw.2.take 4 = [some 0, some 0, some 0, some 0] ∧
    { oneHeader with count := 2 }.exportRaw = oneHeader.exportRaw :=
  ⟨fun laidOut => absurd laidOut.returned (by decide), by decide, by decide, by decide +kernel⟩

end MiyaCoreMSG_HEADERS

end MiyaCore.Chain
