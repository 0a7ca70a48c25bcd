import MiyaCore.Ekp2p.MessageHeader
import Mathlib.Data.List.GetD

/-!
# Receiving messages

A datagram is looked at first for the lengths it announces, then taken off the socket into a buffer of that
size and parsed. One that announces too much is left where it is.
-/

namespace MiyaCore.Ekp2p
open Bytes

/-- `EKP2PMessage`. -/
structure EKP2PMessage where
  header : EKP2PMessageHeader := {}
  payload : Option (List UInt8) := none
deriving DecidableEq

namespace EKP2PMessage

/-- `payload( payload , payloadLength )`. The length is kept in 16 bits. -/
def setPayload (m : EKP2PMessage) (payload : Option (List UInt8)) (payloadLength : Nat) : EKP2PMessage :=
  let length (n : Nat) : EKP2PMessageHeader :=
    { m.header with fields := { m.header.fields with payloadLength := UInt16.ofNat n } }
  if payload = none ∨ payloadLength = 0 then ⟨length 0, none⟩ else ⟨length payloadLength, payload⟩

/-- `exportRaw`: the header, and as many bytes of the payload as the header has. -/
def exportRaw (m : EKP2PMessage) : Option (List UInt8 × EKP2PMessage) := do
  let (raw, header) ← m.header.exportRaw
  let length := header.fields.payloadLength.toNat
  let payload := m.payload.getD []
  if length ≤ payload.length then return (raw ++ payload.take length, { m with header }) else none

end EKP2PMessage

/-- `SBSegment`, with what the receiver fills in. -/
structure SBSegment where
  forwardingSBCID : UInt16
  body : Option (List UInt8)
  bodyLength : UInt16
deriving DecidableEq

/-- The segment that the broker gets for a message. `importFromEKP2PHeader` takes nothing over from the header:
the RPC type, the source and the relays are left behind. -/
def EKP2PMessage.toSegment (m : EKP2PMessage) : SBSegment where
  forwardingSBCID := m.header.fields.protocol
  body := m.payload
  bodyLength := m.header.fields.payloadLength

/-- The message `EKP2PSender` makes of a segment that is sent to one node. -/
def EKP2PSender.message (host : KNodeAddr) (protocol rpcType : UInt16) (body : List UInt8) : EKP2PMessage :=
  let m : EKP2PMessage := ({} : EKP2PMessage).setPayload (some body) body.length
  { m with header := { m.header with fields := { m.header.fields with protocol, rpcType }, sourceKNodeAddr := some host } }

/-- The bytes of a buffer of the given size after a datagram was received into it. -/
def fill (garbage : Nat → UInt8) (size : Nat) (datagram : List UInt8) : List UInt8 :=
  (List.range size).map fun i => datagram.getD i (garbage i)

/-- What is in memory where nothing was written: on the stack, and in a new buffer. -/
structure Garbage where
  stack : Nat → UInt8 := fun _ => 0
  heap : Nat → UInt8 := fun _ => 0

/-- The length of header and payload that a datagram announces, by its first 22 bytes. -/
def announced (g : Garbage) (datagram : List UInt8) : Option Nat :=
  (Meta.read (fill g.stack 22 datagram)).map fun m => m.1.headerLength.toNat + m.1.payloadLength.toNat

/-- `SocketManager::receive`: the buffer and the bytes received, or no buffer if too much is announced. -/
def receive (g : Garbage) (datagram : List UInt8) : Option (Option (List UInt8) × Nat) := do
  let rawMSGLength ← announced g datagram
  if 65535 ≤ rawMSGLength then return (none, 0)
  else return (some (fill g.heap rawMSGLength datagram), min datagram.length rawMSGLength)

/-- `parseRawEKP2PMessage`. What is read past the buffer has no defined value. -/
def parseRawEKP2PMessage (fromRaw : List UInt8) : Option (Option EKP2PMessage) := do
  let header ← ({} : EKP2PMessageHeader).importRawSequentially fromRaw
  let headerLength := header.fields.headerLength.toNat
  let payloadLength := header.fields.payloadLength.toNat
  if header.fields.token.toList ≠ [77, 73, 89, 65] then return none
  else if headerLength + payloadLength ≤ fromRaw.length then
    return some ⟨header, some ((fromRaw.drop headerLength).take payloadLength)⟩
  else none

/-- The socket and what the receiver has given to the broker. -/
structure Receiver where
  socket : List (List UInt8) := []
  toBroker : List SBSegment := []

namespace Receiver

/-- A datagram arrives, or the receiver goes round once, with some memory. -/
inductive Event
  | arrive (datagram : List UInt8)
  | round (g : Garbage)

/-- One event. On an empty socket the receiver waits; with no buffer the datagram was only looked at. -/
def step (s : Receiver) : Event → Option Receiver
  | .arrive datagram => some { s with socket := s.socket ++ [datagram] }
  | .round g =>
    match s.socket with
    | [] => some s
    | datagram :: rest => do
      match ← receive g datagram with
      | (none, _) => return s
      | (some buffer, receivedLength) =>
        if receivedLength = 0 then return { s with socket := rest }
        else
          match ← parseRawEKP2PMessage buffer with
          | none => return { s with socket := rest }
          | some message => return ⟨rest, s.toBroker ++ [message.toSegment]⟩

def run (s : Receiver) : List Event → Option Receiver
  | [] => some s
  | a :: rest => do (← s.step a).run rest

/-- The datagrams that arrive, in order. -/
def arrivals : List Event → List (List UInt8) := List.filterMap fun
  | .arrive datagram => some datagram
  | .round _ => none

end Receiver

theorem fill_of_le {garbage : Nat → UInt8} {size : Nat} {datagram : List UInt8} (inside : size ≤ datagram.length) :
    fill garbage size datagram = datagram.take size := by
  unfold fill
  refine List.ext_getElem (by simpa using inside) fun i left right => ?_
  have below : i < datagram.length := by
    rw [List.length_take] at right
    omega
  rw [List.getElem_map, List.getElem_range, List.getD_eq_getElem _ _ below, List.getElem_take]

/-- What is at the front of a datagram is at the front of a buffer that has the room. -/
theorem fill_append (garbage : Nat → UInt8) {size : Nat} {front rest : List UInt8} (room : front.length ≤ size) :
    ∃ tail, fill garbage size (front ++ rest) = front ++ tail := by
  obtain ⟨more, rfl⟩ := Nat.exists_eq_add_of_le room
  have first : fill garbage front.length (front ++ rest) = (front ++ rest).take front.length :=
    fill_of_le (by simp)
  rw [List.take_left' rfl] at first
  refine ⟨(List.range more).map fun i => (front ++ rest).getD (front.length + i) (garbage (front.length + i)), ?_⟩
  unfold fill at first ⊢
  rw [List.range_add, List.map_append, List.map_map, first]
  simp only [Function.comp_def]

/-- A datagram with the whole of the fields announces what they say, whatever is in memory. -/
theorem announced_raw (g : Garbage) (m : Meta) (rest : List UInt8) :
    announced g (m.raw ++ rest) = some (m.headerLength.toNat + m.payloadLength.toNat) := by
  have front : fill g.stack 22 (m.raw ++ rest) = m.raw := by
    rw [fill_of_le (by simp), List.take_left' m.length_raw]
  have read := Meta.read_raw m []
  unfold announced
  rw [front, ← List.append_nil m.raw, read]
  rfl

/-- A buffer of the length its header announces is read within its bounds exactly if the header has the length
of the fields and of one address. -/
theorem parse_isSome_iff (g : Garbage) {m : Meta} (rest : List UInt8)
    (small : m.headerLength.toNat + m.payloadLength.toNat < 65535) :
    (parseRawEKP2PMessage (fill g.heap (m.headerLength.toNat + m.payloadLength.toNat) (m.raw ++ rest))).isSome ↔
      48 ≤ m.headerLength.toNat := by
  have size : (fill g.heap (m.headerLength.toNat + m.payloadLength.toNat) (m.raw ++ rest)).length =
      m.headerLength.toNat + m.payloadLength.toNat := by simp [fill]
  by_cases fields : 22 ≤ m.headerLength.toNat + m.payloadLength.toNat
  · rw [← m.length_raw] at fields
    obtain ⟨tail, front⟩ : ∃ tail, fill g.heap _ (m.raw ++ rest) = m.raw ++ tail := fill_append g.heap fields
    rw [front] at size ⊢
    have tailSize : tail.length + 22 = m.headerLength.toNat + m.payloadLength.toNat := by
      rw [← size, List.length_append, m.length_raw, Nat.add_comm]
    constructor
    · intro parsed
      by_contra short
      have huge : 65535 < (2 ^ 64 + m.headerLength.toNat - 48) % 2 ^ 64 / 26 := by omega
      have missing : readRelays ((2 ^ 64 + m.headerLength.toNat - 48) % 2 ^ 64 / 26) tail = none := by
        rw [← Option.not_isSome_iff_eq_none, readRelays_isSome_iff]
        omega
      have unread : ({} : EKP2PMessageHeader).importRawSequentially (m.raw ++ tail) = none := by
        unfold EKP2PMessageHeader.importRawSequentially
        simp only [Meta.read_raw, Option.bind_eq_bind, Option.bind_some, missing]
        cases KNodeAddr.read tail <;> rfl
      unfold parseRawEKP2PMessage at parsed
      rw [unread] at parsed
      cases parsed
    · intro long
      obtain ⟨source, read⟩ := KNodeAddr.takes_read.2 tail (by omega)
      obtain ⟨relays, relayed⟩ : ∃ relays,
          readRelays ((2 ^ 64 + m.headerLength.toNat - 48) % 2 ^ 64 / 26) tail = some relays := by
        rw [← Option.isSome_iff_exists, readRelays_isSome_iff]
        omega
      have imported : ({} : EKP2PMessageHeader).importRawSequentially (m.raw ++ tail) =
          some ⟨m, some source, relays⟩ := by
        unfold EKP2PMessageHeader.importRawSequentially
        simp only [Meta.read_raw, Option.bind_eq_bind, Option.bind_some, read, relayed]
        rfl
      unfold parseRawEKP2PMessage
      simp only [imported, Option.bind_eq_bind, Option.bind_some, size, le_refl, if_true]
      split_ifs <;> rfl
  · have missing : Meta.read (fill g.heap (m.headerLength.toNat + m.payloadLength.toNat) (m.raw ++ rest)) = none := by
      rw [← Option.not_isSome_iff_eq_none, Meta.takes_read.isSome_iff]
      omega
    unfold parseRawEKP2PMessage EKP2PMessageHeader.importRawSequentially
    simp only [missing, Option.bind_eq_bind, Option.bind_none, Option.isSome_none, Bool.false_eq_true, false_iff]
    omega

/-- A segment that is sent to one node. -/
structure Sending where
  host : KNodeAddr
  protocol : UInt16
  rpcType : UInt16
  body : List UInt8

namespace Sending

/-- The datagram it goes out in. -/
def datagram (x : Sending) : Option (List UInt8) :=
  (EKP2PSender.message x.host x.protocol x.rpcType x.body).exportRaw.map Prod.fst

/-- The message that is to be received: the segment, cut to the length kept in 16 bits. -/
def received (x : Sending) : EKP2PMessage where
  header := { fields := { headerLength := 48, payloadLength := UInt16.ofNat x.body.length,
                          rpcType := x.rpcType, protocol := x.protocol }
              sourceKNodeAddr := some x.host }
  payload := some (x.body.take (x.body.length % 2 ^ 16))

/-- The segment that the broker is to get. -/
def segment (x : Sending) : SBSegment where
  forwardingSBCID := x.protocol
  body := some (x.body.take (x.body.length % 2 ^ 16))
  bodyLength := UInt16.ofNat x.body.length

end Sending

namespace Receiver
variable {s s' : Receiver}

/-- A round leaves everything as it is, or takes the first datagram, which announces little enough, off the
socket and gives at most one message to the broker. -/
theorem round_cases {g : Garbage} (run : s.step (.round g) = some s') :
    s' = s ∨ ∃ datagram n, s.socket = datagram :: s'.socket ∧ announced g datagram = some n ∧ n < 65535 ∧
      s'.toBroker.length ≤ s.toBroker.length + 1 := by
  unfold step at run
  cases socket : s.socket with
  | nil =>
    rw [socket] at run
    exact Or.inl (Option.some.inj run).symm
  | cons datagram rest =>
    simp only [socket, Option.bind_eq_bind, Option.bind_eq_some_iff] at run
    obtain ⟨⟨buffer, receivedLength⟩, received, run⟩ := run
    unfold receive at received
    rw [Option.bind_eq_bind, Option.bind_eq_some_iff] at received
    obtain ⟨n, announces, received⟩ := received
    split_ifs at received with tooMuch
    · cases received
      exact Or.inl (Option.some.inj run).symm
    · cases received
      refine Or.inr ⟨datagram, n, ?_⟩
      simp only at run
      split_ifs at run with nothing
      · cases run
        exact ⟨rfl, announces, by omega, by simp⟩
      · obtain ⟨parsed, -, run⟩ := Option.bind_eq_some_iff.mp run
        cases parsed with
        | none =>
          cases run
          exact ⟨rfl, announces, by omega, by simp⟩
        | some message =>
          cases run
          exact ⟨rfl, announces, by omega, by simp⟩

/-- A round on a datagram that has the whole of the fields reads nothing outside of its buffers exactly if the
datagram announces a header with fields and source, nothing, or too much. -/
theorem step_isSome_iff (s : Receiver) (g : Garbage) (m : Meta) (rest : List UInt8) (later : List (List UInt8))
    (socket : s.socket = (m.raw ++ rest) :: later) :
    (s.step (.round g)).isSome ↔ 48 ≤ m.headerLength.toNat ∨ m.headerLength.toNat + m.payloadLength.toNat = 0 ∨
      65535 ≤ m.headerLength.toNat + m.payloadLength.toNat := by
  unfold step receive
  simp only [socket, announced_raw, Option.bind_eq_bind, Option.bind_some]
  by_cases large : 65535 ≤ m.headerLength.toNat + m.payloadLength.toNat
  · rw [if_pos large]
    exact iff_of_true rfl (Or.inr (Or.inr large))
  · rw [if_neg large]
    have parsed := parse_isSome_iff g rest (not_le.mp large)
    have received : min (m.raw ++ rest).length (m.headerLength.toNat + m.payloadLength.toNat) = 0 ↔
        m.headerLength.toNat + m.payloadLength.toNat = 0 := by
      rw [List.length_append, m.length_raw]
      omega
    simp only [pure, Option.bind_some]
    by_cases nothing : m.headerLength.toNat + m.payloadLength.toNat = 0
    · rw [if_pos (received.mpr nothing)]
      exact iff_of_true rfl (Or.inr (Or.inl nothing))
    · rw [if_neg (mt received.mp nothing)]
      cases found : parseRawEKP2PMessage
        (fill g.heap (m.headerLength.toNat + m.payloadLength.toNat) (m.raw ++ rest)) with
      | none =>
        rw [found] at parsed
        simp only [Option.isSome_none, Bool.false_eq_true, false_iff] at parsed
        simp only [Option.bind_none, Option.isSome_none, Bool.false_eq_true, false_iff]
        omega
      | some message =>
        rw [found] at parsed
        have long := parsed.mp rfl
        cases message with
        | none => exact iff_of_true rfl (Or.inl long)
        | some message => exact iff_of_true rfl (Or.inl long)

/-- A datagram that announces a header of 47 bytes makes the receiver read past its buffer. -/
theorem step_isSome_iff_short : ¬(({ socket := [({ headerLength := 47 } : Meta).raw ++ []] } : Receiver).step
    (.round {})).isSome := by
  rw [step_isSome_iff { socket := [({ headerLength := 47 } : Meta).raw ++ []] } {} { headerLength := 47 } [] [] rfl]
  decide

/-- Whatever is in memory, the datagram announces more than is received. -/
def Blocks (datagram : List UInt8) : Prop := ∀ g, ∃ n, announced g datagram = some n ∧ 65535 ≤ n

/-- What was taken off the socket: a front part of the arrivals that does not block, with as many messages for
the broker at most. -/
def Took (s : Receiver) (all : List (List UInt8)) : Prop :=
  ∃ taken, all = taken ++ s.socket ∧ s.toBroker.length ≤ taken.length ∧ ∀ d ∈ taken, ¬Blocks d

theorem Took.step {all : List (List UInt8)} {a : Event} (took : s.Took all) (run : s.step a = some s') :
    s'.Took (all ++ arrivals [a]) := by
  obtain ⟨taken, rfl, few, open_⟩ := took
  cases a with
  | arrive datagram =>
    cases run
    exact ⟨taken, by simp [arrivals], few, open_⟩
  | round g =>
    obtain rfl | ⟨datagram, n, socket, announces, small, oneMore⟩ := round_cases run
    · exact ⟨taken, by simp [arrivals], few, open_⟩
    · refine ⟨taken ++ [datagram], by simp [arrivals, socket], ?_, ?_⟩
      · rw [List.length_append, List.length_singleton]
        omega
      · intro d member
        rcases List.mem_append.mp member with old | new
        · exact open_ d old
        · obtain rfl := List.mem_singleton.mp new
          intro blocks
          obtain ⟨m, same, large⟩ := blocks g
          cases announces.symm.trans same
          omega

theorem Took.run {all : List (List UInt8)} {events : List Event} (took : s.Took all)
    (run : s.run events = some s') : s'.Took (all ++ arrivals events) := by
  induction events generalizing s all with
  | nil =>
    cases run
    simpa [arrivals] using took
  | cons a rest ih =>
    obtain ⟨s₁, first, run⟩ := Option.bind_eq_some_iff.mp run
    have whole := ih (took.step first) run
    rwa [List.append_assoc, show arrivals [a] ++ arrivals rest = arrivals (a :: rest) by
      cases a <;> rfl] at whole

/-- From a datagram on that announces too much, nothing is received any more: it and all that arrive after it
stay on the socket, and the broker gets no more messages than datagrams arrived before it. -/
theorem run_blocked (before after : List Event) (datagram : List UInt8) (s : Receiver) (blocks : Blocks datagram)
    (run : ({} : Receiver).run (before ++ .arrive datagram :: after) = some s) :
    ∃ taken pending, arrivals before = taken ++ pending ∧ s.socket = pending ++ datagram :: arrivals after ∧
      s.toBroker.length ≤ taken.length := by
  have start : ({} : Receiver).Took [] := ⟨[], rfl, le_rfl, by simp⟩
  obtain ⟨taken, all, few, open_⟩ := start.run run
  have cut : arrivals before ++ datagram :: arrivals after = taken ++ s.socket := by
    rw [← all, List.nil_append]
    simp [arrivals]
  obtain ⟨pending, front, rest⟩ | ⟨front, rest, behind⟩ := List.append_eq_append_iff.mp cut
  · cases pending with
    | nil => exact ⟨taken, [], by simpa using front.symm, by simpa using rest.symm, few⟩
    | cons d pending =>
      obtain ⟨rfl, -⟩ := List.cons.inj rest
      exact absurd blocks (open_ datagram (front ▸ by simp))
  · exact ⟨taken, front, rest, behind, few⟩

theorem blocks_raw {m : Meta} (large : 65535 ≤ m.headerLength.toNat + m.payloadLength.toNat) (rest : List UInt8) :
    Blocks (m.raw ++ rest) := fun g => ⟨_, announced_raw g m rest, large⟩

/-- A round before a datagram that blocks. -/
theorem step_blocked {datagram : List UInt8} {rest : List (List UInt8)} (blocks : Blocks datagram)
    (socket : s.socket = datagram :: rest) (g : Garbage) : s.step (.round g) = some s := by
  obtain ⟨n, announces, large⟩ := blocks g
  have left : receive g datagram = some (none, 0) := by
    unfold receive
    rw [announces, Option.bind_eq_bind, Option.bind_some, if_pos large]
    rfl
  unfold step
  simp only [socket, left, Option.bind_eq_bind, Option.bind_some]
  rfl

/-- A header that announces 65535 bytes arrives, the receiver goes round, and a datagram arrives behind it. -/
theorem run_blocked_header : ∃ s, ({} : Receiver).run ([] ++ .arrive (({ headerLength := 65535 } : Meta).raw ++ []) ::
    [.round {}, .arrive [1]]) = some s ∧ s.socket = [({ headerLength := 65535 } : Meta).raw ++ [], [1]] ∧
      s.toBroker = [] := by
  have blocks : Blocks (({ headerLength := 65535 } : Meta).raw ++ []) := blocks_raw (by decide) []
  have stays : ({ socket := [({ headerLength := 65535 } : Meta).raw ++ []] } : Receiver).step (.round {}) =
      some { socket := [({ headerLength := 65535 } : Meta).raw ++ []] } := step_blocked blocks rfl {}
  have ran : ({} : Receiver).run ([] ++ .arrive (({ headerLength := 65535 } : Meta).raw ++ []) ::
      [.round {}, .arrive [1]]) = some { socket := [({ headerLength := 65535 } : Meta).raw ++ [], [1]] } := by
    simp only [List.nil_append, run, Option.bind_eq_bind, show ∀ d, ({} : Receiver).step (.arrive d) =
      some { socket := [d] } from fun d => rfl, Option.bind_some, stays]
    rfl
  obtain ⟨taken, pending, front, socket, few⟩ := run_blocked [] [.round {}, .arrive [1]] _ _ blocks ran
  obtain ⟨rfl, rfl⟩ := List.append_eq_nil_iff.mp front.symm
  exact ⟨_, ran, socket, List.eq_nil_of_length_eq_zero (Nat.le_zero.mp few)⟩

end Receiver

end MiyaCore.Ekp2p
