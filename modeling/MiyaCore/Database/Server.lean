import MiyaCore.Bson
import MiyaCore.SafeMode.MMyISAM

/-!
# The database server

A query comes in as a BSON document and is answered with one. Where the server throws, or does
something without a defined result, its thread is gone.
-/

namespace MiyaCore
open Bson

namespace Database

/-- The names of the fields. -/
def name (l : List Char) : List UInt8 := l.map fun c => UInt8.ofNat c.toNat

def queryID : List UInt8 := name ['Q', 'u', 'e', 'r', 'y', 'I', 'D']
def query : List UInt8 := name ['q', 'u', 'e', 'r', 'y']
def key : List UInt8 := name ['k', 'e', 'y']
def value : List UInt8 := name ['v', 'a', 'l', 'u', 'e']
def registryIndex : List UInt8 := name ['r', 'e', 'g', 'i', 's', 't', 'r', 'y', 'I', 'n', 'd', 'e', 'x']
def status : List UInt8 := name ['s', 't', 'a', 't', 'u', 's']

/-- The whole part of a double; an infinity and what is not a number have none. -/
def truncate (bits : List UInt8) : Option Int :=
  let n := Bytes.ofLe bits
  let exponent := n / 2 ^ 52 % 2 ^ 11
  let fraction := 2 ^ 52 + n % 2 ^ 52
  let size : Nat :=
    if exponent < 1075 then fraction / 2 ^ (1075 - exponent) else fraction * 2 ^ (exponent - 1075)
  if exponent = 2047 then none else if n / 2 ^ 63 = 1 then some (-(size : Int)) else some size

/-- The conversion of a JSON value to a type of integers from `low` on, `2 ^ bits` of them. A whole
number wraps around; a double outside has no defined result; what is no number throws. -/
def convert (low : Int) (bits : Nat) : Value → Option Int
  | .integer n => some ((n - low) % 2 ^ bits + low)
  | .boolean b => some (if b then 1 else 0)
  | .float f => (truncate f).bind fun n => if low ≤ n ∧ n < low + 2 ^ bits then some n else none
  | _ => none

def toInt : Value → Option Int := convert (-2 ^ 31) 32
def toUInt32 (v : Value) : Option UInt32 := (convert 0 32 v).map fun n => UInt32.ofNat n.toNat
def toShort : Value → Option Int := convert (-2 ^ 15) 16

/-- The bytes of a field that is binary, `is_binary` and `get_binary`. -/
def binary (d : Document) (field : List UInt8) : Option (List UInt8) :=
  match d.get field with
  | some (.binary l) => some l
  | _ => none

/-- `QueryContext`. A pointer that was not set is null. -/
structure QueryContext where
  type : Int
  id : UInt32
  key : Option (List UInt8) := none
  value : Option (List UInt8) := none
  registryIndex : Int := -1
deriving DecidableEq

/-- The fields that `parseQuery` takes out for a type of query; without one it returns a null pointer. -/
def QueryContext.fill (q : QueryContext) (d : Document) : Option QueryContext :=
  if q.type = 1 then
    (binary d Database.key).bind fun k => (binary d Database.value).map
      fun v => { q with key := some k, value := some v }
  else if q.type = 2 ∨ q.type = 4 then (binary d Database.key).map fun k => { q with key := some k }
  else if q.type = 10 ∨ q.type = 11 ∨ q.type = 12 then some q
  else some { q with type := -1 }

/-- The registry index of a document, -1 if it has none. -/
def readRegistryIndex (d : Document) : Option Int :=
  match d.get registryIndex with
  | none => some (-1)
  | some v => toShort v

/-- `QueryParser::parseQuery`: an exception, or a pointer that may be null. The first look at the field
`QueryID` makes it a null value if it is not there. -/
def parseQuery (raw : List UInt8) : Option (Option QueryContext) :=
  (read raw).bind fun d =>
    match d.get query with
    | none => some none
    | some v =>
      (toInt v).bind fun type => (toUInt32 ((d.get queryID).getD .null)).bind fun id =>
        match ({ type, id } : QueryContext).fill d with
        | none => some none
        | some q => (readRegistryIndex d).map fun index => some { q with registryIndex := index }

/-- The fields of an answer. -/
structure Response where
  queryID : UInt32
  status : Int
  value : Option (List UInt8) := none
deriving DecidableEq

/-- `MIYA_DB_STATUS_OK` is what clients look for. -/
def Response.Failed (r : Response) : Prop := r.status ≠ 1

instance (r : Response) : Decidable r.Failed := inferInstanceAs (Decidable (_ ≠ _))

/-- `failureSB`; the context is not checked for null. -/
def failureSB (qctx : Option QueryContext) : Option Response := qctx.map fun q => ⟨q.id, -1, none⟩

/-- An array of that many bytes is not refused for its length. -/
def Allocatable (length : Nat) : Prop := length < 2 ^ 63

instance (length : Nat) : Decidable (Allocatable length) := inferInstanceAs (Decidable (_ < _))

/-- A key as the index reads it: twenty bytes, however many there are. -/
def toKey (l : List UInt8) : Option Key :=
  if size : 20 ≤ l.length then
    some ⟨Bytes.ofBe (l.take 20), by
      have below := Bytes.ofBe_lt (l.take 20)
      rw [List.length_take, Nat.min_eq_left size] at below
      omega⟩
  else none

end Database

namespace MMyISAM
open Database

/-- A registry index inside of the arrays, without a session: `add`, `get` and `remove` return false
before they look at the key. -/
def Closed (e : MMyISAM) (registryIndex : Int) : Prop :=
  0 ≤ registryIndex ∧ registryIndex < 5 ∧ e.safe registryIndex.toNat = none

instance (e : MMyISAM) (r : Int) : Decidable (e.Closed r) :=
  decidable_of_iff (0 ≤ r ∧ r < 5 ∧ (e.safe r.toNat).isNone) (by simp [Closed])

/-- `MMyISAM::add` on a query. A key of less than twenty bytes is read past its end. -/
def addQuery (fuel : Nat) (e : MMyISAM) (timestamp : Nat) (q : QueryContext) : Option (MMyISAM × Bool) :=
  if e.Closed q.registryIndex then some (e, false)
  else (q.key.bind toKey).bind fun k => q.value.bind
  fun v => (e.add fuel q.registryIndex k v timestamp).toOption

/-- `MMyISAM::get` on a query; `none` inside is its false. The value gets the length that its header names. -/
def getQuery (fuel : Nat) (e : MMyISAM) (q : QueryContext) : Option (Option (List UInt8)) :=
  if e.Closed q.registryIndex then some none
  else (q.key.bind toKey).bind fun k => (e.get fuel q.registryIndex k).toOption.bind fun value =>
    if ∀ v ∈ value, Allocatable v.length then some value else none

def removeQuery (fuel : Nat) (e : MMyISAM) (q : QueryContext) : Option (MMyISAM × Bool) :=
  if e.Closed q.registryIndex then some (e, false)
  else (q.key.bind toKey).bind fun k => (e.remove fuel q.registryIndex k).toOption

/-- `MMyISAM::safeCommitExit` on a query; each value that is copied gets the length that its header names. -/
def commitQuery (fuel : Nat) (e : MMyISAM) (timestamp : Nat) (q : QueryContext) : Option (MMyISAM × Bool) :=
  if 0 ≤ q.registryIndex ∧ ∃ m ∈ e.safe q.registryIndex.toNat, ∃ d ∈ (e.attach m).file.copied,
    ¬Allocatable (m.values.valueLength d)
  then none else (e.safeCommitExit fuel q.registryIndex timestamp).toOption

end MMyISAM

namespace Database

/-- The status of an operation that tells success and failure as a flag. -/
def flagStatus (q : QueryContext) (r : MMyISAM × Bool) : Response × MMyISAM :=
  (⟨q.id, if r.2 then 1 else 0, none⟩, r.1)

/-- The branches of the server loop on a query that was parsed. `migrateToSafeMode` ends without a `return`,
so what its caller goes on with is undefined. -/
def dispatch (fuel : Nat) (e : MMyISAM) (timestamp : Nat) (q : QueryContext) : Option (Response × MMyISAM) :=
  if q.type < 0 then some (⟨q.id, -1, none⟩, e)
  else if q.type = 1 then
    (e.addQuery fuel timestamp q).map fun r => if r.2 then (⟨q.id, 1, none⟩, r.1) else (⟨q.id, -1, none⟩, r.1)
  else if q.type = 2 then
    (e.getQuery fuel q).map fun r =>
      match r with
      | some v => (⟨q.id, 1, some v⟩, e)
      | none => (⟨q.id, -1, none⟩, e)
  else if q.type = 4 then (e.removeQuery fuel q).map (flagStatus q)
  else if q.type = 11 then (e.commitQuery fuel timestamp q).map (flagStatus q)
  else if q.type = 12 then some (flagStatus q (e.safeAbortExit q.registryIndex))
  else none

/-- One round of the server loop: the answer to a request. -/
def respond (fuel : Nat) (e : MMyISAM) (timestamp : Nat) (raw : List UInt8) : Option (Response × MMyISAM) :=
  (parseQuery raw).bind fun qctx =>
    match qctx with
    | none => (failureSB none).map fun r => (r, e)
    | some q => dispatch fuel e timestamp q

/-- A request that was answered. -/
structure Answer where
  before : MMyISAM
  request : List UInt8 × Nat
  response : Response
  after : MMyISAM

/-- The server loop over requests, each with the time it is handled at. -/
def serverLoop (fuel : Nat) (e : MMyISAM) : List (List UInt8 × Nat) → Option (List Answer × MMyISAM)
  | [] => some ([], e)
  | request :: rest =>
    (respond fuel e request.2 request.1).bind fun r =>
      (serverLoop fuel r.2 rest).map fun more => (⟨e, request, r.1, r.2⟩ :: more.1, more.2)

/-- The server survives its requests: each has its answer, and those that are answered with a failure
change neither the stored values nor a session. -/
def Survives (fuel : Nat) (e : MMyISAM) (requests : List (List UInt8 × Nat)) : Prop :=
  ∃ answers last, serverLoop fuel e requests = some (answers, last) ∧ answers.length = requests.length ∧
    ∀ a ∈ answers, a.response.Failed → a.after = a.before

/-- A document that is parsed to a context: the numbers it has to carry are there, and what its type of
query needs is binary. -/
structure Parses (d : Document) (q : QueryContext) : Prop where
  query : ∃ v type filled, d.get query = some v ∧ toInt v = some type ∧
    ({ type, id := q.id } : QueryContext).fill d = some filled ∧
    q = { filled with registryIndex := q.registryIndex }
  queryID : ∃ v, d.get queryID = some v ∧ toUInt32 v = some q.id
  registryIndex : readRegistryIndex d = some q.registryIndex

end Database

end MiyaCore
