import MiyaCore.Bytes
import Mathlib.Data.Vector.Basic

/-!
# The header of a message between nodes

Fixed fields, the address of the node a message comes from, and those of the nodes that relayed it.
-/

namespace MiyaCore.Ekp2p
open Bytes

/-- The next `n` bytes, and what follows them. -/
def field (n : Nat) (raw : List UInt8) : Option (List.Vector UInt8 n × List UInt8) :=
  if size : n ≤ raw.length then some (⟨raw.take n, by simpa using size⟩, raw.drop n) else none

/-- Reading that takes `n` bytes, which have to be there. -/
def Takes {α : Type} (n : Nat) (read : List UInt8 → Option (α × List UInt8)) : Prop :=
  (∀ raw a rest, read raw = some (a, rest) → n ≤ raw.length ∧ rest = raw.drop n) ∧
    ∀ raw, n ≤ raw.length → ∃ a, read raw = some (a, raw.drop n)

theorem takes_field (n : Nat) : Takes n (field n) := by
  refine ⟨fun raw a rest run => ?_, fun raw size => ?_⟩
  · unfold field at run
    split_ifs at run with size
    cases run
    exact ⟨size, rfl⟩
  · unfold field
    rw [dif_pos size]
    exact ⟨_, rfl⟩

theorem takes_pure {α : Type} (a : α) : Takes 0 fun raw => some (a, raw) :=
  ⟨fun _ _ _ run => by cases run; simp, fun raw _ => ⟨a, rfl⟩⟩

theorem Takes.bind {α β : Type} {n m : Nat} {read : List UInt8 → Option (α × List UInt8)}
    {next : α × List UInt8 → Option (β × List UInt8)} (first : Takes n read)
    (second : ∀ a, Takes m fun raw => next (a, raw)) : Takes (n + m) fun raw => (read raw).bind next := by
  refine ⟨fun raw b rest run => ?_, fun raw size => ?_⟩
  · obtain ⟨⟨a, middle⟩, ran, run⟩ := Option.bind_eq_some_iff.mp run
    obtain ⟨size, rfl⟩ := first.1 raw a middle ran
    obtain ⟨size', rfl⟩ := (second a).1 _ b rest run
    rw [List.length_drop] at size'
    exact ⟨by omega, List.drop_drop⟩
  · obtain ⟨a, ran⟩ := first.2 raw (by omega)
    obtain ⟨b, ran'⟩ := (second a).2 (raw.drop n) (by rw [List.length_drop]; omega)
    refine ⟨b, ?_⟩
    simp only [ran, Option.bind_some, ran', List.drop_drop]

theorem Takes.isSome_iff {α : Type} {n : Nat} {read : List UInt8 → Option (α × List UInt8)} (takes : Takes n read)
    (raw : List UInt8) : (read raw).isSome ↔ n ≤ raw.length := by
  constructor
  · intro some
    obtain ⟨⟨a, rest⟩, run⟩ := Option.isSome_iff_exists.mp some
    exact (takes.1 raw a rest run).1
  · intro size
    obtain ⟨a, run⟩ := takes.2 raw size
    rw [run, Option.isSome_some]

theorem field_append {n : Nat} {l : List UInt8} (size : l.length = n) (rest : List UInt8) :
    field n (l ++ rest) = some (⟨l, size⟩, rest) := by
  subst size
  unfold field
  rw [dif_pos (by simp)]
  simp

@[simp] theorem field_toList {n : Nat} (v : List.Vector UInt8 n) (rest : List UInt8) :
    field n (v.toList ++ rest) = some (v, rest) := field_append v.2 rest

@[simp] theorem field_be (n w : Nat) (rest : List UInt8) :
    field w (be w n ++ rest) = some (⟨be w n, length_be w n⟩, rest) := field_append (length_be w n) rest

@[simp] theorem field_le (n w : Nat) (rest : List UInt8) :
    field w (le w n ++ rest) = some (⟨le w n, length_le w n⟩, rest) := field_append (length_le w n) rest

@[simp] theorem field_byte (b : UInt8) (rest : List UInt8) :
    field 1 (b :: rest) = some (⟨[b], rfl⟩, rest) := field_append (l := [b]) rfl rest

@[simp] theorem ofNat_ofBe_be2 (n : UInt16) : UInt16.ofNat (ofBe (be 2 n.toNat)) = n := by
  rw [ofBe_be, Nat.mod_eq_of_lt (by simpa using n.toNat_lt), UInt16.ofNat_toNat]

@[simp] theorem ofNat_ofLe_le2 (n : UInt16) : UInt16.ofNat (ofLe (le 2 n.toNat)) = n := by
  rw [ofLe_le, Nat.mod_eq_of_lt (by simpa using n.toNat_lt), UInt16.ofNat_toNat]

/-- `KNodeAddr`, packed. The address and the port are kept in the order of the network, so that in the memory
of a little-endian host they are numbers of their own. -/
structure KNodeAddr where
  ipv4 : UInt32 := 0
  port : UInt16 := 0
  ID : List.Vector UInt8 20 := .replicate 20 0
deriving DecidableEq

namespace KNodeAddr

/-- The 26 bytes of an address in memory. -/
def raw (a : KNodeAddr) : List UInt8 := le 4 a.ipv4.toNat ++ le 2 a.port.toNat ++ a.ID.toList

/-- A copy of 26 bytes to an address, and the bytes after them. -/
def read (raw : List UInt8) : Option (KNodeAddr × List UInt8) := do
  let (ipv4, raw) ← field 4 raw
  let (port, raw) ← field 2 raw
  let (ID, raw) ← field 20 raw
  return ({ ipv4 := UInt32.ofNat (ofLe ipv4.toList), port := UInt16.ofNat (ofLe port.toList), ID }, raw)

@[simp] theorem length_raw (a : KNodeAddr) : a.raw.length = 26 := by simp [raw]

@[simp] theorem read_raw (a : KNodeAddr) (rest : List UInt8) : read (a.raw ++ rest) = some (a, rest) := by
  simp [read, raw, List.append_assoc]

theorem takes_read : Takes 26 read := by
  unfold read
  change Takes (4 + (2 + (20 + 0))) _
  exact (takes_field 4).bind fun _ => (takes_field 2).bind fun _ => (takes_field 20).bind fun _ => takes_pure _

end KNodeAddr

/-- `EKP2PMessageHeader::Meta`, with the bytes the compiler puts between its fields. The first four numbers are
kept as `ntohs` gives them. -/
structure Meta where
  token : List.Vector UInt8 4 := ⟨[77, 73, 89, 65], rfl⟩
  headerLength : UInt16 := 0
  payloadLength : UInt16 := 0
  rpcType : UInt16 := 0
  protocol : UInt16 := 0
  version : UInt8 := 1
  gap : UInt8 := 0
  relayKNodeAddrCount : UInt16 := 0
  reserved : List.Vector UInt8 5 := .replicate 5 0
  last : UInt8 := 0
deriving DecidableEq

namespace Meta

/-- The 22 bytes of the fields in memory. -/
def raw (m : Meta) : List UInt8 :=
  m.token.toList ++ be 2 m.headerLength.toNat ++ be 2 m.payloadLength.toNat ++ be 2 m.rpcType.toNat ++
    be 2 m.protocol.toNat ++ [m.version] ++ [m.gap] ++ le 2 m.relayKNodeAddrCount.toNat ++ m.reserved.toList ++ [m.last]

def read (raw : List UInt8) : Option (Meta × List UInt8) := do
  let (token, raw) ← field 4 raw
  let (headerLength, raw) ← field 2 raw
  let (payloadLength, raw) ← field 2 raw
  let (rpcType, raw) ← field 2 raw
  let (protocol, raw) ← field 2 raw
  let (version, raw) ← field 1 raw
  let (gap, raw) ← field 1 raw
  let (relayKNodeAddrCount, raw) ← field 2 raw
  let (reserved, raw) ← field 5 raw
  let (last, raw) ← field 1 raw
  return ({ token, reserved, headerLength := UInt16.ofNat (ofBe headerLength.toList),
            payloadLength := UInt16.ofNat (ofBe payloadLength.toList),
            rpcType := UInt16.ofNat (ofBe rpcType.toList), protocol := UInt16.ofNat (ofBe protocol.toList),
            version := version.head, gap := gap.head, last := last.head,
            relayKNodeAddrCount := UInt16.ofNat (ofLe relayKNodeAddrCount.toList) }, raw)

@[simp] theorem length_raw (m : Meta) : m.raw.length = 22 := by simp [raw]

@[simp] theorem read_raw (m : Meta) (rest : List UInt8) : read (m.raw ++ rest) = some (m, rest) := by
  simp [read, raw, List.append_assoc, List.Vector.head]

theorem takes_read : Takes 22 read := by
  unfold read
  change Takes (4 + (2 + (2 + (2 + (2 + (1 + (1 + (2 + (5 + (1 + 0)))))))))) _
  exact (takes_field 4).bind fun _ => (takes_field 2).bind fun _ => (takes_field 2).bind fun _ =>
    (takes_field 2).bind fun _ => (takes_field 2).bind fun _ => (takes_field 1).bind fun _ =>
    (takes_field 1).bind fun _ => (takes_field 2).bind fun _ => (takes_field 5).bind fun _ =>
    (takes_field 1).bind fun _ => takes_pure _

end Meta

/-- `EKP2PMessageHeader`; a new one has an address of its own to write the source to. -/
structure EKP2PMessageHeader where
  fields : Meta := {}
  sourceKNodeAddr : Option KNodeAddr := some {}
  relayKNodeAddrVector : List KNodeAddr := []
deriving DecidableEq

/-- The loop over the relaying nodes, from where it stands. -/
def readRelays : Nat → List UInt8 → Option (List KNodeAddr)
  | 0, _ => some []
  | n + 1, raw => do
    let (nodeAddr, raw) ← KNodeAddr.read raw
    return nodeAddr :: (← readRelays n raw)

namespace EKP2PMessageHeader

/-- `exportRaw`: the bytes, and the header with its length set. The length is an `unsigned int`; a header
beyond that is written past its buffer. -/
def exportRaw (h : EKP2PMessageHeader) : Option (List UInt8 × EKP2PMessageHeader) :=
  let retLength := 48 + 26 * h.relayKNodeAddrVector.length
  let h' := { h with fields := { h.fields with headerLength := UInt16.ofNat retLength } }
  let source := match h.sourceKNodeAddr with
    | some a => a.raw
    | none => List.replicate 26 0
  if retLength < 2 ^ 32 then
    some (h'.fields.raw ++ source ++ h.relayKNodeAddrVector.flatMap KNodeAddr.raw, h')
  else none

/-- `importRawSequentially` from a buffer. The position stays where the source is when the relaying nodes are
read, and their number is an unsigned difference. -/
def importRawSequentially (this : EKP2PMessageHeader) (fromRaw : List UInt8) : Option EKP2PMessageHeader := do
  let (fields, raw) ← Meta.read fromRaw
  let _ ← this.sourceKNodeAddr
  let (source, _) ← KNodeAddr.read raw
  let relays ← readRelays ((2 ^ 64 + fields.headerLength.toNat - 48) % 2 ^ 64 / 26) raw
  return ⟨fields, some source, this.relayKNodeAddrVector ++ relays⟩

end EKP2PMessageHeader

theorem readRelays_flatMap (n : Nat) (relays : List KNodeAddr) (rest : List UInt8) (enough : n ≤ relays.length) :
    readRelays n (relays.flatMap KNodeAddr.raw ++ rest) = some (relays.take n) := by
  induction n generalizing relays with
  | zero => rfl
  | succ n ih =>
    cases relays with
    | nil => simp at enough
    | cons a relays =>
      unfold readRelays
      simp only [List.flatMap_cons, List.append_assoc, KNodeAddr.read_raw, Option.bind_eq_bind, Option.bind_some,
        ih relays (by simpa using enough)]
      rfl

theorem readRelays_isSome_iff (n : Nat) (raw : List UInt8) : (readRelays n raw).isSome ↔ 26 * n ≤ raw.length := by
  induction n generalizing raw with
  | zero => simp [readRelays]
  | succ n ih =>
    unfold readRelays
    by_cases size : 26 ≤ raw.length
    · obtain ⟨a, read⟩ := KNodeAddr.takes_read.2 raw size
      have rest := ih (raw.drop 26)
      rw [List.length_drop] at rest
      have same : ((readRelays n (raw.drop 26)).bind fun relays => some (a :: relays)).isSome =
          (readRelays n (raw.drop 26)).isSome := by
        cases readRelays n (raw.drop 26) <;> rfl
      simp only [read, Option.bind_eq_bind, Option.bind_some]
      rw [show (pure : List KNodeAddr → Option _) = some from rfl, same, rest]
      omega
    · have missing : KNodeAddr.read raw = none := by
        rw [← Option.not_isSome_iff_eq_none, KNodeAddr.takes_read.isSome_iff]
        exact size
      simp only [missing, Option.bind_eq_bind, Option.bind_none, Option.isSome_none]
      simp only [Bool.false_eq_true, false_iff]
      omega

/-- A list moved up by one element is the same list only if it is constant. -/
theorem take_cons_eq_iff {α : Type} (a : α) (l : List α) : (a :: l).take l.length = l ↔ ∀ x ∈ l, x = a := by
  induction l generalizing a with
  | nil => simp
  | cons b l ih =>
    rw [List.length_cons, List.take_succ_cons, List.cons_eq_cons, ih, List.forall_mem_cons]
    constructor
    · rintro ⟨rfl, rest⟩
      exact ⟨rfl, rest⟩
    · rintro ⟨rfl, rest⟩
      exact ⟨rfl, rest⟩

namespace EKP2PMessageHeader

/-- An exported header is imported with all its fields and its source, and with the source at the front of the
relaying nodes, the last of which is lost. It is the header that was exported exactly if all of them are the
source. -/
theorem importRawSequentially_exportRaw (h : EKP2PMessageHeader) (s : KNodeAddr) (rest : List UInt8)
    (source : h.sourceKNodeAddr = some s) (few : 48 + 26 * h.relayKNodeAddrVector.length < 2 ^ 16) :
    ∃ raw h', h.exportRaw = some (raw, h') ∧ raw.length = h'.fields.headerLength.toNat ∧
      importRawSequentially {} (raw ++ rest) = some { h' with
        relayKNodeAddrVector := (s :: h.relayKNodeAddrVector).take h.relayKNodeAddrVector.length } ∧
      (importRawSequentially {} (raw ++ rest) = some h' ↔ ∀ a ∈ h.relayKNodeAddrVector, a = s) := by
  obtain ⟨fields, sourceKNodeAddr, relays⟩ := h
  obtain rfl : sourceKNodeAddr = some s := source
  have length : (UInt16.ofNat (48 + 26 * relays.length)).toNat = 48 + 26 * relays.length := by
    rw [UInt16.toNat_ofNat']
    exact Nat.mod_eq_of_lt few
  have count : (2 ^ 64 + (48 + 26 * relays.length) - 48) % 2 ^ 64 / 26 = relays.length := by
    have few : 48 + 26 * relays.length < 2 ^ 16 := few
    omega
  have imported : importRawSequentially {}
      (({ fields with headerLength := UInt16.ofNat (48 + 26 * relays.length) } : Meta).raw ++ s.raw ++
      relays.flatMap KNodeAddr.raw ++ rest) =
      some ⟨{ fields with headerLength := UInt16.ofNat (48 + 26 * relays.length) }, some s,
        (s :: relays).take relays.length⟩ := by
    have moved := readRelays_flatMap relays.length (s :: relays) rest (by simp)
    rw [List.flatMap_cons, List.append_assoc] at moved
    unfold importRawSequentially
    simp only [List.append_assoc, Meta.read_raw, Option.bind_eq_bind, Option.bind_some, KNodeAddr.read_raw, length,
      count, moved, List.nil_append]
    rfl
  refine ⟨_, _, if_pos (by omega), ?_, imported, ?_⟩
  · simp only [List.length_append, Meta.length_raw, KNodeAddr.length_raw, length, List.length_flatMap,
      List.map_const', List.sum_replicate_nat]
    omega
  · rw [imported, Option.some.injEq, EKP2PMessageHeader.mk.injEq]
    simp only [true_and]
    exact take_cons_eq_iff s relays

/-- The one node that relayed the message is read as its source. -/
theorem importRawSequentially_exportRaw_relayed : ∃ raw h',
    ({ relayKNodeAddrVector := [{ port := 7 }] } : EKP2PMessageHeader).exportRaw = some (raw, h') ∧
      importRawSequentially {} (raw ++ []) = some { h' with relayKNodeAddrVector := [{}] } ∧
      importRawSequentially {} (raw ++ []) ≠ some h' := by
  obtain ⟨raw, h', exported, -, imported, same⟩ :=
    importRawSequentially_exportRaw { relayKNodeAddrVector := [{ port := 7 }] } {} [] rfl (by decide)
  refine ⟨raw, h', exported, imported, fun unchanged => ?_⟩
  have isSource := same.mp unchanged { port := 7 } (by simp)
  revert isSource
  decide

end EKP2PMessageHeader

end MiyaCore.Ekp2p
