import MiyaCore.Database.Exchange

/-!
# The query for existence

The server has a branch for `QUERY_EXISTS`, and the storage engine a method behind it. The parser knows no
such query, and the method does not keep what it finds.
-/

namespace MiyaCore
open Bson

namespace MMyISAM
open Database

/-- `MMyISAM::exists`. The pointer that is looked at in the end was not set. -/
def existsKey (fuel : Nat) (e : MMyISAM) (registryIndex : Int) (k : Key) : Except NodeError Bool := do
  let retDataOptr : Option Nat := none
  if 0 ≤ registryIndex then
    match ← e.session registryIndex with
    | none => return false
    | some m =>
      let _ ← (safeFind fuel m.tree.rootONode k).run (e.attach m).file
      return retDataOptr.isSome
  else
    let _ ← e.normal.find fuel k
    return retDataOptr.isSome

/-- `MMyISAM::exists` on a query. -/
def existsQuery (fuel : Nat) (e : MMyISAM) (q : QueryContext) : Option Bool :=
  if e.Closed q.registryIndex then some false
  else (q.key.bind toKey).bind fun k => (e.existsKey fuel q.registryIndex k).toOption

/-- The index of the mode, that of the session or the normal one, has a data pointer for the key, to a value whose
length can be allocated. -/
def Indexed (fuel : Nat) (e : MMyISAM) (registryIndex : Int) (k : Key) : Prop :=
  if 0 ≤ registryIndex then
    ∃ m p s, e.session registryIndex = .ok (some m) ∧ (safeFind fuel m.tree.rootONode k).run
      (e.attach m).file = .ok (some p, s) ∧ Allocatable (m.values.valueLength p.1)
  else ∃ p, e.normal.find fuel k = .ok (some p) ∧ Allocatable (e.values.valueLength p)

variable {fuel : Nat} {e : MMyISAM} {r : Int} {k : Key}

theorem exists_false {b : Bool} (run : e.existsKey fuel r k = .ok b) : b = false := by
  rw [existsKey] at run
  split_ifs at run
  · cases has : e.session r with
    | error err => simp [has, error_bind] at run
    | ok o =>
      rw [has, ok_bind] at run
      cases o with
      | none => exact (Except.ok.inj run).symm
      | some m =>
        cases search : (safeFind fuel m.tree.rootONode k).run (e.attach m).file with
        | error err => simp [search, error_bind] at run
        | ok found =>
          simp only [search, ok_bind] at run
          exact (Except.ok.inj run).symm
  · cases search : e.normal.find fuel k with
    | error err => simp [search, error_bind] at run
    | ok found =>
      rw [search, ok_bind] at run
      exact (Except.ok.inj run).symm

/-- A value is got exactly for what the index of the mode has. -/
theorem get_eq_some_iff : (∃ v, e.get fuel r k = .ok (some v) ∧ Allocatable v.length) ↔ e.Indexed fuel r k := by
  rw [get, Indexed]
  split_ifs
  · cases has : e.session r with
    | error err => simp [error_bind]
    | ok o =>
      cases o with
      | none => simp [ok_bind, pure, Except.pure]
      | some m =>
        cases search : (safeFind fuel m.tree.rootONode k).run (e.attach m).file with
        | error err => simp [ok_bind, error_bind, search]
        | ok found =>
          obtain ⟨p, s⟩ := found
          cases p with
          | none => simp [ok_bind, search, pure, Except.pure]
          | some d =>
            simp only [ok_bind, search, pure, Except.pure, Option.map_some, Except.ok.injEq, Option.some.injEq,
              exists_eq_left', ValueStore.length_get]
            constructor
            · exact fun allocatable => ⟨m, d, s, rfl, search, allocatable⟩
            · rintro ⟨m', d', s', rfl, again, allocatable⟩
              obtain ⟨same, -⟩ := Prod.mk.inj (Except.ok.inj (search.symm.trans again))
              rwa [Option.some.inj same]
  · cases search : e.normal.find fuel k with
    | error err => simp [error_bind]
    | ok found => cases found <;> simp [ok_bind, pure, Except.pure, ValueStore.length_get]

theorem get_of_closed (closed : e.Closed r) : e.get fuel r k = .ok none := by
  obtain ⟨natural, inside, missing⟩ := closed
  rw [get, if_pos natural, session_eq natural, if_pos inside, missing]
  rfl

end MMyISAM

namespace Database

/-- An answer of the server. That to a query for existence has the flag as its status and as its value. -/
inductive Reply where
  | response (r : Response)
  | existence (queryID : UInt32) (flag : Bool)
deriving DecidableEq

/-- The branches of the server loop, with that of `QUERY_EXISTS`. -/
def dispatchAll (fuel : Nat) (e : MMyISAM) (timestamp : Nat) (q : QueryContext) : Option (Reply × MMyISAM) :=
  if q.type = 3 then (e.existsQuery fuel q).map fun flag => (.existence q.id flag, e)
  else (dispatch fuel e timestamp q).map fun r => (.response r.1, r.2)

/-- One round of the server loop. -/
def serve (fuel : Nat) (e : MMyISAM) (timestamp : Nat) (raw : List UInt8) : Option (Reply × MMyISAM) :=
  (parseQuery raw).bind fun qctx =>
    match qctx with
    | none => (failureSB none).map fun r => (.response r, e)
    | some q => dispatchAll fuel e timestamp q

/-- A query of this type for the key, in the mode of the registry index. -/
def Asks (type : Int) (k : Key) (index : Int) (raw : List UInt8) : Prop :=
  ∃ d v w id l, read raw = some d ∧ d.get query = some v ∧ toInt v = some type ∧
  d.get queryID = some w ∧ toUInt32 w = some id ∧
    binary d key = some l ∧ toKey l = some k ∧ readRegistryIndex d = some index

/-- A query for existence is answered with true exactly when a query for the value succeeds, and neither
changes the database. -/
structure ExistsAgrees (fuel : Nat) (e : MMyISAM) (timestamp : Nat) (existsRaw getRaw : List UInt8) : Prop where
  agree : (∃ id e', serve fuel e timestamp existsRaw = some (.existence id true, e')) ↔
    ∃ r e', serve fuel e timestamp getRaw = some (.response r, e') ∧ ¬r.Failed
  unchanged : ∀ raw ∈ [existsRaw, getRaw], ∀ reply e', serve fuel e timestamp raw = some (reply, e') → e' = e

variable {fuel : Nat} {e e' : MMyISAM} {timestamp : Nat} {k : Key} {index : Int} {raw : List UInt8}

/-- No query is answered with an existence. -/
theorem serve_ne_existence {id : UInt32} : serve fuel e timestamp raw ≠ some (.existence id true, e') := by
  intro run
  obtain ⟨qctx, -, run⟩ := Option.bind_eq_some_iff.mp run
  cases qctx with
  | none => cases run
  | some q =>
    simp only [dispatchAll] at run
    split_ifs at run
    · obtain ⟨flag, asked, told⟩ := Option.map_eq_some_iff.mp run
      obtain ⟨-, rfl⟩ := Reply.existence.inj (Prod.mk.inj told).1
      rw [MMyISAM.existsQuery] at asked
      split_ifs at asked
      · cases asked
      · obtain ⟨k, -, looked⟩ := Option.bind_eq_some_iff.mp asked
        cases MMyISAM.exists_false (toOption_eq_some looked)
    · obtain ⟨r, -, told⟩ := Option.map_eq_some_iff.mp run
      cases (Prod.mk.inj told).1

theorem parse_exists (asks : Asks 3 k index raw) :
    ∃ id, parseQuery raw = some (some ⟨-1, id, none, none, index⟩) := by
  obtain ⟨d, v, w, id, l, reads, asked, isExists, numbered, isID, -, -, isIndex⟩ := asks
  refine ⟨id, ?_⟩
  simp only [parseQuery, reads, Option.bind_some, asked, isExists, numbered, Option.getD_some, isID]
  simp [QueryContext.fill, isIndex]

theorem parse_get (asks : Asks 2 k index raw) :
    ∃ id l, parseQuery raw = some (some ⟨2, id, some l, none, index⟩) ∧ toKey l = some k := by
  obtain ⟨d, v, w, id, l, reads, asked, isGet, numbered, isID, keyed, isKey, isIndex⟩ := asks
  refine ⟨id, l, ?_, isKey⟩
  simp only [parseQuery, reads, Option.bind_some, asked, isGet, numbered, Option.getD_some, isID]
  simp [QueryContext.fill, keyed, isIndex]

variable (fuel e timestamp)

/-- The parser makes a query for existence one of no type. -/
theorem serve_exists (asks : Asks 3 k index raw) :
    ∃ id, serve fuel e timestamp raw = some (.response ⟨id, -1, none⟩, e) := by
  obtain ⟨id, parsed⟩ := parse_exists asks
  exact ⟨id, by simp [serve, parsed, dispatchAll, dispatch]⟩

theorem getQuery_eq {fuel : Nat} {e : MMyISAM} (id : UInt32) {l : List UInt8} (isKey : toKey l = some k) :
    e.getQuery fuel ⟨2, id, some l, none, index⟩ = (e.get fuel index k).toOption.bind fun value =>
      if ∀ v ∈ value, Allocatable v.length then some value else none := by
  rw [MMyISAM.getQuery]
  split_ifs with closed
  · rw [MMyISAM.get_of_closed closed]
    rfl
  · simp only [Option.bind_some, isKey]

theorem serve_get (asks : Asks 2 k index raw) : ∃ id, serve fuel e timestamp raw =
    ((e.get fuel index k).toOption.bind fun value =>
      if ∀ v ∈ value, Allocatable v.length then some value else none).map fun found => (.response
      ⟨id, if found.isSome then 1 else -1, found⟩, e) := by
  obtain ⟨id, l, parsed, isKey⟩ := parse_get asks
  refine ⟨id, ?_⟩
  have positive : ¬(2 : Int) < 0 := by norm_num
  have isGet : (2 : Int) ≠ 3 ∧ (2 : Int) ≠ 1 := by norm_num
  simp only [serve, parsed, Option.bind_some, dispatchAll, dispatch, if_neg isGet.1, if_neg isGet.2,
    if_neg positive, if_true, getQuery_eq id isKey, Option.map_map]
  generalize ((e.get fuel index k).toOption.bind fun value =>
    if ∀ v ∈ value, Allocatable v.length then some value else none) = got
  cases got with
  | none => rfl
  | some found => cases found <;> rfl

/-- The two queries agree just where the index of the mode has nothing for the key. -/
theorem existsAgrees_iff (fuel : Nat) (e : MMyISAM) (timestamp : Nat) (k : Key) (index : Int)
    (existsRaw getRaw : List UInt8) (asksExists : Asks 3 k index existsRaw) (asksGet : Asks 2 k index getRaw) :
    ExistsAgrees fuel e timestamp existsRaw getRaw ↔ ¬e.Indexed fuel index k := by
  obtain ⟨id, answered⟩ := serve_exists fuel e timestamp asksExists
  obtain ⟨id', got⟩ := serve_get fuel e timestamp asksGet
  have succeeds : (∃ r e', serve fuel e timestamp getRaw = some (.response r, e') ∧ ¬r.Failed) ↔
    e.Indexed fuel index k := by
    rw [← MMyISAM.get_eq_some_iff, got]
    cases e.get fuel index k with
    | error err => simp [Except.toOption]
    | ok found => cases found <;> simp [Except.toOption, Response.Failed]
  have never : ¬∃ id e', serve fuel e timestamp existsRaw = some (.existence id true, e') := by
    rintro ⟨_, _, run⟩
    exact serve_ne_existence run
  constructor
  · intro agrees indexed
    exact never (agrees.agree.mpr (succeeds.mpr indexed))
  · intro absent
    refine ⟨iff_of_false never fun both => absent (succeeds.mp both), ?_⟩
    simp only [List.mem_cons, List.not_mem_nil, or_false, forall_eq_or_imp, forall_eq]
    refine ⟨fun reply e' run => ?_, fun reply e' run => ?_⟩
    · rw [answered] at run
      exact (Prod.mk.inj (Option.some.inj run)).2.symm
    · rw [got] at run
      obtain ⟨found, -, told⟩ := Option.map_eq_some_iff.mp run
      exact (Prod.mk.inj told).2.symm

theorem asks_ask : Asks 3 0 (-1) (ask 3) ∧ Asks 2 0 (-1) (ask 2) := by
  constructor
  · exact ⟨[(queryID, .integer 5), (Database.key, .binary (List.replicate 20 0)), (query, .integer 3),
      (registryIndex, .integer (-1))], .integer 3, .integer 5, 5, List.replicate 20 0, by decide +kernel⟩
  · exact ⟨[(queryID, .integer 5), (Database.key, .binary (List.replicate 20 0)), (query, .integer 2),
      (registryIndex, .integer (-1))], .integer 2, .integer 5, 5, List.replicate 20 0, by decide +kernel⟩

theorem existsAgrees_iff_empty : ExistsAgrees 2 .empty 0 (ask 3) (ask 2) ↔ ¬MMyISAM.empty.Indexed 2 (-1) 0 :=
  existsAgrees_iff 2 .empty 0 0 (-1) (ask 3) (ask 2) asks_ask.1 asks_ask.2

/-- The key is there and its value is got; the query for existence is answered as one that was not
understood. -/
theorem existsAgrees_fails : ∃ e, MMyISAM.empty.add 2 (-1) 0 [7] 0 = .ok (e, true) ∧
    (∃ id, serve 2 e 0 (ask 2) = some (.response ⟨id, 1, some [7]⟩, e)) ∧
    (∃ id, serve 2 e 0 (ask 3) = some (.response ⟨id, -1, none⟩, e)) ∧ ¬ExistsAgrees 2 e 0 (ask 3) (ask 2) := by
  have added : ∃ r ∈ (MMyISAM.empty.add 2 (-1) 0 [7] 0).toOption, r.2 = true ∧
    (r.1.get 2 (-1) 0).toOption = some (some [7]) := by
    decide +kernel
  obtain ⟨⟨e, -⟩, run, rfl, found⟩ := added
  obtain ⟨id, got⟩ := serve_get 2 e 0 asks_ask.2
  obtain ⟨id', answered⟩ := serve_exists 2 e 0 asks_ask.1
  rw [found] at got
  refine ⟨e, toOption_eq_some run, ⟨id, got⟩, ⟨id', answered⟩, fun agrees => ?_⟩
  obtain ⟨id'', e', told⟩ := agrees.agree.mpr ⟨_, e, got, by simp [Response.Failed]⟩
  exact serve_ne_existence told

end Database

end MiyaCore
