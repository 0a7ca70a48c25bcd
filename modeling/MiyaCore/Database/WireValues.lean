import MiyaCore.Database.Exchange

/-!
# Values on the wire

A value goes to the server in the body of one segment and comes back in that of another. The length of a
body is kept in 16 bits, so that a longer document is cut.
-/

namespace MiyaCore
open Bson

namespace Database

/-- A call of the one client there is: its segment is handled, and the response with its query ID is
read. A response with another ID would be put back and waited past. -/
def roundTrip (fuel : Nat) (e : MMyISAM) (timestamp : Nat) (id : UInt32) (call : ClientQuery) :
    Option (Document × MMyISAM) := do
  let (r, e) ← respond fuel e timestamp (segment (write (call.document id)))
  let responseJson ← read (segment (write r.document))
  if responseJson.get queryID = some (.integer id.toNat) then return (responseJson, e) else none

/-- `MiyaDBSBClient::add`. -/
def clientAdd (fuel : Nat) (e : MMyISAM) (timestamp : Nat) (id : UInt32) (rawKey : List.Vector UInt8 20)
    (rawValue : List UInt8) (index : Int16) : Option (Bool × MMyISAM) := do
  let (responseJson, e) ← roundTrip fuel e timestamp id (.add rawKey rawValue index)
  return (responseJson.get status = some (.integer 1), e)

/-- `MiyaDBSBClient::get`: the value, null without one, and its length. -/
def clientGet (fuel : Nat) (e : MMyISAM) (timestamp : Nat) (id : UInt32) (rawKey : List.Vector UInt8 20)
    (index : Int16) :
    Option (Option (List UInt8) × Nat × MMyISAM) := do
  let (responseJson, e) ← roundTrip fuel e timestamp id (.get rawKey index)
  if responseJson.get status ≠ some (.integer 1) then return (none, 0, e)
  let valueVector ← binary responseJson value
  return (some valueVector, valueVector.length, e)

/-- The context of a call as it was meant. -/
def ClientQuery.context (id : UInt32) : ClientQuery → QueryContext
  | get rawKey index => { type := 2, id, key := some rawKey.toList, registryIndex := index.toInt }
  | add rawKey rawValue index =>
    { type := 1, id, key := some rawKey.toList, value := some rawValue, registryIndex := index.toInt }
  | remove rawKey index => { type := 4, id, key := some rawKey.toList, registryIndex := index.toInt }

theorem Response.get_status (r : Response) : r.document.get Database.status = some (.integer r.status) := by
  obtain ⟨id, status, value⟩ := r
  cases value <;> rfl

theorem Response.binary_value (r : Response) : binary r.document Database.value = r.value := by
  obtain ⟨id, status, value⟩ := r
  cases value <;> rfl

/-- A segment takes the whole body. -/
def Whole (body : List UInt8) : Prop := segment body = body

theorem whole_iff {body : List UInt8} : Whole body ↔ body.length < 2 ^ 16 := by
  constructor
  · intro whole
    have length := congrArg List.length whole
    simp only [segment, List.length_take] at length
    omega
  · exact segment_small

theorem toUInt32_id (id : UInt32) : toUInt32 (.integer id.toNat) = some id := by
  have bound := id.toNat_lt
  have whole : ((id.toNat : Int) % 2 ^ 32).toNat = id.toNat := by omega
  simp only [toUInt32, convert, Int.sub_zero, Int.add_zero, Option.map_some, whole, UInt32.ofNat_toNat]

theorem toShort_index (index : Int16) : toShort (.integer index.toInt) = some index.toInt := by
  have low := index.le_toInt
  have high := index.toInt_lt
  simp only [toShort, convert, Option.some.injEq]
  omega

/-- The document of a call is parsed to its context. -/
theorem parseQuery_document {id : UInt32} {call : ClientQuery} {raw : List UInt8}
    (reads : read raw = some (call.document id)) :
    parseQuery raw = some (some (call.context id)) := by
  refine parseQuery_eq_some.mpr ⟨call.document id, reads, ?_, ⟨_, call.get_queryID id, ?_⟩, ?_⟩
  · cases call with
    | get rawKey index => exact ⟨.integer 2, 2, { type := 2, id, key := some rawKey.toList }, rfl,
        rfl, rfl, rfl⟩
    | add rawKey rawValue index =>
      exact ⟨.integer 1, 1, { type := 1, id, key := some rawKey.toList, value := some rawValue }, rfl,
        rfl, rfl, rfl⟩
    | remove rawKey index => exact ⟨.integer 4, 4, { type := 4, id, key := some rawKey.toList }, rfl,
        rfl, rfl, rfl⟩
  · cases call <;> exact toUInt32_id id
  · cases call with
    | get rawKey index | add rawKey rawValue index | remove rawKey index => exact toShort_index index

/-- A document that has all its bytes in the segment is the one that was written. -/
theorem whole_of_reads {d d' : Document} (inverse : read (write d) = some d)
    (reads : read (segment (write d)) = some d') :
    Whole (write d) := by
  by_cases small : (write d).length < 2 ^ 16
  · exact whole_iff.mpr small
  · have shorter : (write d).length % 2 ^ 16 < (write d).length := by omega
    have cut := read_cut inverse (List.take_append_drop ((write d).length % 2 ^ 16) (write d)).symm
      (by simpa [List.drop_eq_nil_iff] using shorter)
    cases cut.symm.trans reads

section Lengths

theorem length_integer (f : List UInt8) (n : Int) : f.length + 6 ≤ (element (f, .integer n)).length ∧
    (element (f, .integer n)).length ≤ f.length + 10 := by
  simp only [element]
  split_ifs <;> simp [twos]

theorem length_binary (f l : List UInt8) : (element (f, .binary l)).length = f.length + 7 + l.length := by
  simp [element, twos]
  omega

/-- The request with a value is longer than the response with it, and than the request for it. -/
theorem length_write_add (id id' : UInt32) (rawKey : List.Vector UInt8 20) (rawValue : List UInt8)
    (index : Int16) :
    (write (⟨id', 1, some rawValue⟩ : Response).document).length ≤
      (write ((ClientQuery.add rawKey rawValue index).document id)).length ∧
      (write ((ClientQuery.get rawKey index).document id')).length < 2 ^ 16 := by
  have id₁ := length_integer queryID id.toNat
  have id₂ := length_integer queryID id'.toNat
  have status := length_integer status 1
  have type₁ := length_integer query 1
  have type₂ := length_integer query 2
  have index := length_integer registryIndex index.toInt
  have names : queryID.length = 7 ∧ Database.status.length = 6 ∧ query.length = 5 ∧
    registryIndex.length = 13 ∧ value.length = 5 ∧
      key.length = 3 := by decide
  simp only [write, Response.document, ClientQuery.document, Option.toList_some, List.map_cons,
    List.map_nil, List.flatMap_cons, List.flatMap_nil, List.length_append, Bytes.length_le,
    length_binary, List.Vector.toList_length, List.length_singleton, List.length_nil]
  omega

theorem length_write_status (id : UInt32) (n : Int) :
    (write (⟨id, n, none⟩ : Response).document).length < 2 ^ 16 := by
  have numbered := length_integer queryID id.toNat
  have told := length_integer status n
  have names : queryID.length = 7 ∧ Database.status.length = 6 := by decide
  simp only [write, Response.document, Option.toList_none, List.map_nil, List.flatMap_cons,
    List.flatMap_nil, List.length_append, Bytes.length_le, List.length_singleton, List.length_nil]
  omega

end Lengths

variable {fuel timestamp : Nat} {e e' : MMyISAM} {id : UInt32} {call : ClientQuery}

/-- A request is handled as what it was meant for, once its document has come whole. -/
theorem respond_whole (inverse : read (write (call.document id)) = some (call.document id))
    (whole : Whole (write (call.document id))) :
    respond fuel e timestamp (segment (write (call.document id))) = dispatch fuel e timestamp
      (call.context id) := by
  rw [respond, whole, parseQuery_document inverse]
  rfl

theorem whole_of_respond (inverse : read (write (call.document id)) = some (call.document id)) {r : Response}
    (run : respond fuel e timestamp (segment (write (call.document id))) = some (r, e')) :
    Whole (write (call.document id)) := by
  obtain ⟨qctx, parsed, -⟩ := Option.bind_eq_some_iff.mp run
  obtain ⟨d, reads, -⟩ := Option.bind_eq_some_iff.mp parsed
  exact whole_of_reads inverse reads

theorem dispatch_add (rawKey : List.Vector UInt8 20) (rawValue : List UInt8) (index : Int16) :
    dispatch fuel e timestamp ((ClientQuery.add rawKey rawValue index).context id) =
      (e.addQuery fuel timestamp ((ClientQuery.add rawKey rawValue index).context id)).map
        fun r => (⟨id, if r.2 then 1 else -1, none⟩, r.1) := by
  have isAdd : ((ClientQuery.add rawKey rawValue index).context id).type = 1 := rfl
  have positive : ¬((ClientQuery.add rawKey rawValue index).context id).type < 0 := by rw [isAdd]; decide
  rw [dispatch, if_neg positive, if_pos isAdd]
  refine congrArg (Option.map · _) (funext fun r => ?_)
  cases r.2 <;> rfl

theorem dispatch_get (rawKey : List.Vector UInt8 20) (index : Int16) :
    dispatch fuel e timestamp ((ClientQuery.get rawKey index).context id) =
      (e.getQuery fuel ((ClientQuery.get rawKey index).context id)).map
        fun found => (⟨id, if found.isSome then 1 else -1, found⟩, e) := by
  have isGet : ((ClientQuery.get rawKey index).context id).type = 2 := rfl
  have positive : ¬((ClientQuery.get rawKey index).context id).type < 0 := by rw [isGet]; decide
  have notAdd : ((ClientQuery.get rawKey index).context id).type ≠ 1 := by rw [isGet]; decide
  rw [dispatch, if_neg positive, if_neg notAdd, if_pos isGet]
  refine congrArg (Option.map · _) (funext fun found => ?_)
  cases found <;> rfl

/-- A response that fits into a segment is read as it was written. -/
theorem read_response {r : Response} (low : -1 ≤ r.status) (high : r.status ≤ 1)
    (small : (write r.document).length < 2 ^ 16) :
    read (segment (write r.document)) = some r.document := by
  rw [segment_small small, read_write (Response.writable low high small)]

theorem roundTrip_eq {r : Response}
    (answered : respond fuel e timestamp (segment (write (call.document id))) = some (r, e'))
    (reads : read (segment (write r.document)) = some r.document) (own : r.queryID = id) :
    roundTrip fuel e timestamp id call = some (r.document, e') := by
  have numbered : r.document.get queryID = some (.integer id.toNat) := by rw [Response.get_queryID, own]
  rw [roundTrip, answered, Option.bind_eq_bind, Option.bind_some]
  dsimp only
  rw [reads, Option.bind_eq_bind, Option.bind_some, if_pos numbered]
  rfl

theorem clientGet_eq {rawKey : List.Vector UInt8 20} {index : Int16} {r : Response} {v : List UInt8}
    (round : roundTrip fuel e timestamp id (.get rawKey index) = some (r.document, e'))
    (told : r.status = 1) (found : r.value = some v) :
    clientGet fuel e timestamp id rawKey index = some (some v, v.length, e') := by
  have status : ¬r.document.get status ≠ some (.integer 1) := by rw [Response.get_status, told, not_ne_iff]
  have taken : binary r.document Database.value = some v := by rw [Response.binary_value, found]
  simp only [clientGet, round, Option.bind_eq_bind, Option.bind_some]
  rw [if_neg status, taken]
  rfl

/-- The bodies of an `add` that succeeds and of the `get` that follows: the requests and the responses. -/
def bodies (id id' : UInt32) (rawKey : List.Vector UInt8 20) (rawValue : List UInt8) (index : Int16) :
    List (List UInt8) :=
  [write ((ClientQuery.add rawKey rawValue index).document id), write (⟨id, 1, none⟩ : Response).document,
    write ((ClientQuery.get rawKey index).document id'), write (⟨id', 1, some rawValue⟩ : Response).document]

/-- A value for which `add` returns true is what `get` returns, with its length, and every body comes
whole, if what is written as BSON is read back and the storage engine gives what it has taken. -/
theorem get_of_add (fuel : Nat) (e e' : MMyISAM) (timestamp timestamp' : Nat) (id id' : UInt32)
    (rawKey : List.Vector UInt8 20) (rawValue : List UInt8) (index : Int16)
    (inverse : read (write ((ClientQuery.add rawKey rawValue index).document id)) =
      some ((ClientQuery.add rawKey rawValue index).document id))
    (isMap : ∀ after, e.addQuery fuel timestamp ((ClientQuery.add rawKey rawValue index).context id) =
    some (after, true) →
      after.getQuery fuel ((ClientQuery.get rawKey index).context id') = some (some rawValue))
    (added : clientAdd fuel e timestamp id rawKey rawValue index = some (true, e')) :
    clientGet fuel e' timestamp' id' rawKey index = some (some rawValue, rawValue.length, e') ∧
      ∀ body ∈ bodies id id' rawKey rawValue index, Whole body := by
  simp only [clientAdd, roundTrip, Option.bind_eq_bind, Option.bind_eq_some_iff,
    Option.ite_none_right_eq_some, Option.pure_def, Option.some.injEq, Prod.mk.injEq, Prod.exists] at added
  obtain ⟨responseJson, _, ⟨r, _, responded, _, reads, -, rfl, rfl⟩, told, rfl⟩ := added
  have whole := whole_of_respond inverse responded
  have room := whole_iff.mp whole
  obtain ⟨shorter, short⟩ := length_write_add id id' rawKey rawValue index
  -- what the server has answered is the success it has told
  rw [respond_whole inverse whole, dispatch_add] at responded
  obtain ⟨⟨after, flag⟩, taken, answer⟩ := Option.map_eq_some_iff.mp responded
  obtain ⟨isResponse, rfl⟩ := Prod.mk.inj answer
  have status : r.status = 1 ∧ r.value = none ∧ flag = true := by
    cases flag with
    | true => exact ⟨by rw [← isResponse]; rfl, by rw [← isResponse], rfl⟩
    | false =>
      have refused : r = ⟨id, -1, none⟩ := isResponse.symm
      rw [refused, read_response (show (-1 : Int) ≤ -1 from le_rfl) (show (-1 : Int) ≤ 1 by decide)
        (length_write_status id (-1))] at reads
      rw [← Option.some.inj reads, Response.get_status] at told
      simp at told
  obtain ⟨-, -, rfl⟩ := status
  have request : respond fuel after timestamp' (segment (write ((ClientQuery.get rawKey index).document id'))) =
      some (⟨id', 1, some rawValue⟩, after) := by
    have isShort : (ClientQuery.get rawKey index).Short := trivial
    rw [respond_whole (read_write (ClientQuery.writable isShort)) (whole_iff.mpr short), dispatch_get,
      isMap after taken]
    rfl
  have response := read_response (r := ⟨id', 1, some rawValue⟩) (show (-1 : Int) ≤ 1 by decide)
    (le_refl (1 : Int)) (by omega)
  refine ⟨clientGet_eq (roundTrip_eq request response rfl) rfl rfl, ?_⟩
  · simp only [bodies, List.forall_mem_cons]
    exact ⟨whole, whole_iff.mpr (length_write_status id 1), whole_iff.mpr short,
      whole_iff.mpr (by omega), nofun⟩

/-- A value of three bytes in the normal mode of an empty database. -/
theorem get_of_add_three : ∃ e', clientAdd 2 .empty 0 7 (List.Vector.replicate 20 0) [1, 2, 3]
    (-1) = some (true, e') ∧
    clientGet 2 e' 1 8 (List.Vector.replicate 20 0) (-1) = some (some [1, 2, 3], 3, e') ∧
    ∀ body ∈ bodies 7 8 (List.Vector.replicate 20 0) [1, 2, 3] (-1), Whole body := by
  have added : ∃ r ∈ clientAdd 2 .empty 0 7 (List.Vector.replicate 20 0) [1, 2, 3] (-1), r.1 = true := by
    decide +kernel
  have stored : ∃ r ∈ MMyISAM.empty.addQuery 2 0
    ((ClientQuery.add (List.Vector.replicate 20 0) [1, 2, 3] (-1)).context 7),
      r.1.getQuery 2 ((ClientQuery.get (List.Vector.replicate 20 0) (-1)).context 8) =
      some (some [1, 2, 3]) := by
    decide +kernel
  obtain ⟨⟨_, e'⟩, run, rfl⟩ := added
  obtain ⟨⟨e₁, flag⟩, taken, given⟩ := stored
  refine ⟨e', run, get_of_add 2 .empty e' 0 1 7 8 (List.Vector.replicate 20 0) [1, 2, 3] (-1)
    (by decide +kernel) ?_ run⟩
  intro after isTaken
  obtain ⟨rfl, -⟩ := Prod.mk.inj (Option.some.inj (taken.symm.trans isTaken))
  exact given

end Database

end MiyaCore
