import MiyaCore.Index.Levels
import MiyaCore.SafeMode.Commit
import Mathlib.Data.List.GetD

/-!
# The normal mode as a table

Seen from outside, the normal mode is a table sorted by key that is searched by the first five bytes
of a key, together with the sessions that are open.
-/

namespace MiyaCore
open Hoare SearchTree Bytes OBtree

namespace ValueStore
variable {v : ValueStore}

theorem write_data_below {p i : Nat} {l : List UInt8} (below : i < p) : (v.write p l).data i = v.data i := by
  unfold write
  exact if_neg (by omega)

theorem write_data_inside {p i : Nat} {l : List UInt8} (inside : i < l.length) :
    (v.write p l).data (p + i) = l.getD i 0 := by
  unfold write
  simp only [show p ≤ p + i ∧ p + i < p + l.length from ⟨by omega, by omega⟩, and_self, if_true,
    Nat.add_sub_cancel_left]

theorem bytes_write_below {p q n : Nat} {l : List UInt8} (below : q + n ≤ p) :
    (v.write p l).bytes q n = v.bytes q n := by
  unfold bytes
  refine List.map_congr_left fun i member => write_data_below ?_
  have inside := List.mem_range.mp member
  omega

/-- What was written is read back, from any place inside of it. -/
theorem bytes_write_at {p : Nat} (a l b : List UInt8) : (v.write p (a ++ l ++ b)).bytes (p + a.length) l.length = l := by
  unfold bytes
  refine List.ext_getElem (by simp) fun i left right => ?_
  have inside : a.length + i < (a ++ l ++ b).length := by
    simp only [List.length_append]
    omega
  rw [List.getElem_map, List.getElem_range, Nat.add_assoc, write_data_inside inside,
    List.getD_eq_getElem _ _ inside, List.getElem_append_left (by rw [List.length_append]; omega),
    List.getElem_append_right (by omega)]
  simp only [Nat.add_sub_cancel_left]

section Add
variable {value : List UInt8} {timestamp : Nat}

@[simp] theorem length_bytes (p n : Nat) : (v.bytes p n).length = n := by simp [bytes]

/-- A value that is stored stays where it is. -/
theorem Stores.add {d : Nat} (stores : v.Stores d) : (v.add value timestamp).2.Stores d ∧
    (v.add value timestamp).2.get d = v.get d := by
  obtain ⟨length, inside⟩ := stores
  have same : ∀ q n, q + n ≤ v.top → (v.add value timestamp).2.bytes q n = v.bytes q n :=
    fun q n => bytes_write_below
  have front := same d 2 (by omega)
  have size := same (d + 12) 8 (by omega)
  refine ⟨⟨by rw [front, length], ?_⟩, ?_⟩
  · rw [size]
    change _ ≤ v.top + (28 + value.length)
    omega
  · unfold get valueLength
    rw [front, size, length, same _ _ inside]

/-- The value that was added is stored at the address returned. -/
theorem stores_add (small : value.length < 2 ^ 64) :
    (v.add value timestamp).2.Stores (v.add value timestamp).1 ∧
      (v.add value timestamp).2.get (v.add value timestamp).1 = value := by
  have written : ∀ a l b, v.header value.length timestamp ++ value = a ++ l ++ b →
      (v.add value timestamp).2.bytes (v.top + a.length) l.length = l := by
    intro a l b cut
    have found := bytes_write_at (v := v) (p := v.top) a l b
    rwa [← cut] at found
  have front := written [] (le 2 28) (v.bytes 0 5 ++ v.bytes 0 5 ++ le 8 value.length ++ le 8 timestamp ++ value)
    (by simp [header])
  have size := written (le 2 28 ++ v.bytes 0 5 ++ v.bytes 0 5) (le 8 value.length) (le 8 timestamp ++ value)
    (by simp [header])
  have body := written (v.header value.length timestamp) value [] (by simp)
  have headerLength : (v.header value.length timestamp).length = 28 := by simp [header]
  simp only [List.length_append, length_le, length_bytes, List.length_nil, Nat.add_zero, headerLength] at front size body
  have whole : ofLe ((v.add value timestamp).2.bytes (v.top + 12) 8) = value.length := by
    rw [size, ofLe_le]
    omega
  have start : ofLe ((v.add value timestamp).2.bytes v.top 2) = 28 := by
    rw [front]
    rfl
  refine ⟨⟨start, ?_⟩, ?_⟩
  · change v.top + 28 + ofLe ((v.add value timestamp).2.bytes (v.top + 12) 8) ≤ v.top + (28 + value.length)
    omega
  · change (v.add value timestamp).2.bytes (v.top + ofLe ((v.add value timestamp).2.bytes v.top 2))
      (ofLe ((v.add value timestamp).2.bytes (v.top + 12) 8)) = value
    rw [start, whole, body]

end Add

end ValueStore

/-- The normal mode from outside: the values by key, and the sessions that are open. -/
structure Table where
  rows : List (Key × List UInt8) := []
  opened : Nat → Bool := fun _ => false

namespace Table

/-- The value of the row whose key has the first five bytes of the one asked for. -/
def lookup (S : Table) (k : Key) : Option (List UInt8) :=
  (S.rows.find? fun x => x.1.head5 = k.head5).map Prod.snd

/-- A write in the normal mode closes all sessions, and so does an abort. -/
def step (S : Table) : Query → Table
  | .add r k value _ => if 0 ≤ r then S else ⟨S.rows.orderedInsert (fun a b => a.1 ≤ b.1) (k, value), fun _ => false⟩
  | .get _ _ => S
  | .remove r k => if 0 ≤ r then S else ⟨S.rows.filter (·.1 ≠ k), fun _ => false⟩
  | .migrate r => { S with opened := fun i => if i = r.toNat then true else S.opened i }
  | .commit _ _ => S
  | .abort r => if r < 0 then S else { S with opened := fun _ => false }

/-- The replies the table gives. A session that is open may answer a get with any value. -/
def Answers (S : Table) : Query → Reply → Prop
  | .add r _ _ _, a => a = .status (r < 0 || S.opened r.toNat)
  | .get r k, a => ∃ v, a = .value v ∧ (r < 0 → v = S.lookup k) ∧ (0 ≤ r → S.opened r.toNat = false → v = none)
  | .remove r _, a => a = .status (r < 0 || S.opened r.toNat)
  | .migrate _, a => a = .status true
  | .commit _ _, a => a = .status false
  | .abort r, a => a = .status (0 ≤ r)

/-- Each reply is the one the table gives after the queries before it. -/
def AnswersAll (S : Table) : List (Query × Reply) → Prop
  | [] => True
  | (q, a) :: rest => S.Answers q a ∧ (S.step q).AnswersAll rest

theorem answersAll_append {S : Table} {l : List (Query × Reply)} {q : Query} {a : Reply} :
    S.AnswersAll (l ++ [(q, a)]) ↔ S.AnswersAll l ∧ ((l.map Prod.fst).foldl step S).Answers q a := by
  induction l generalizing S with
  | nil => simp [AnswersAll]
  | cons x l ih =>
    obtain ⟨p, b⟩ := x
    simp only [List.cons_append, AnswersAll, ih, List.map_cons, List.foldl_cons, and_assoc]

/-- The queries the table speaks of: a normal addition has a key whose first five bytes are new and room for
the nodes it makes, a normal removal has a key its node can give up, and no open session is committed. -/
def Fits (S : Table) (e : MMyISAM) (fuel : Nat) : Query → Prop
  | .add r k value _ => r < 0 → (∀ x ∈ S.rows, x.1.head5 ≠ k.head5) ∧ value.length < 2 ^ 64 ∧
    e.normal.HasRoom fuel k ∧ levels S.rows.length ≤ fuel
  | .get r _ => r < 0 → levels S.rows.length ≤ fuel
  | .remove r k => r < 0 → e.normal.Removable k ∧ levels S.rows.length ≤ fuel
  | .migrate _ => True
  | .commit r _ => 0 ≤ r → S.opened r.toNat = false
  | .abort _ => True

/-- All queries of a run fit where they are made. -/
def FitsRun (S : Table) (e : MMyISAM) (fuel : Nat) : List Query → Prop
  | [] => True
  | q :: qs => S.Fits e fuel q ∧ ∀ e' a, e.handle fuel q = .ok (e', a) → (S.step q).FitsRun e' fuel qs

/-- Each of the queries fits on its engine, where the table has taken those before it. -/
inductive FitsAll (fuel : Nat) : Table → List (MMyISAM × Query) → Prop
  | nil (S : Table) : FitsAll fuel S []
  | cons {S : Table} {e : MMyISAM} {q : Query} {rest : List (MMyISAM × Query)} : S.Fits e fuel q →
    FitsAll fuel (S.step q) rest → FitsAll fuel S ((e, q) :: rest)

theorem fitsAll_cons {S : Table} {fuel : Nat} {e : MMyISAM} {q : Query} {rest : List (MMyISAM × Query)} :
    FitsAll fuel S ((e, q) :: rest) ↔ S.Fits e fuel q ∧ FitsAll fuel (S.step q) rest :=
  ⟨fun fits => by cases fits with | cons here later => exact ⟨here, later⟩, fun fits => .cons fits.1 fits.2⟩

theorem fitsAll_append {S : Table} {fuel : Nat} {l m : List (MMyISAM × Query)} :
    FitsAll fuel S (l ++ m) ↔ FitsAll fuel S l ∧ FitsAll fuel ((l.map Prod.snd).foldl step S) m := by
  induction l generalizing S with
  | nil => exact (and_iff_right (.nil S)).symm
  | cons x l ih =>
    obtain ⟨e, q⟩ := x
    simp only [List.cons_append, fitsAll_cons, ih, List.map_cons, List.foldl_cons, and_assoc]

end Table

/-- A query that reads or writes the table in the normal mode. -/
def Query.Normal : Query → Prop
  | .add r _ _ _ => r < 0
  | .get r _ => r < 0
  | .remove r _ => r < 0
  | _ => False

/-- The engine shows the table: a well-formed tree with the keys of the rows, no two of which share their
first five bytes, whose pointers lead to the values of the rows. -/
structure MMyISAM.ShowsTable (e : MMyISAM) (S : Table) : Prop where
  tree : ∃ h, e.normal.WellFormed h ∧ S.rows = (e.normal.pairs h).map (fun x => (x.1, e.values.get x.2)) ∧
    ∀ x ∈ e.normal.pairs h, e.values.Stores x.2
  apart : S.rows.Pairwise fun x y => x.1.head5 ≠ y.1.head5
  sessions : ∀ i < 5, (e.safe i).isSome = S.opened i

/-- A search for a unique element does not depend on the order. -/
theorem find?_eq_of_unique {α : Type} {P : α → Bool} {l m : List α} (same : ∀ x, x ∈ l ↔ x ∈ m)
    (unique : ∀ x ∈ m, ∀ y ∈ m, P x → P y → x = y) : l.find? P = m.find? P := by
  cases found : m.find? P with
  | none =>
    rw [List.find?_eq_none] at found ⊢
    exact fun x member => found x ((same x).mp member)
  | some y =>
    have inM := List.mem_of_find?_eq_some found
    obtain ⟨x, first⟩ : ∃ x, l.find? P = some x := by
      rw [← Option.isSome_iff_exists, List.find?_isSome]
      exact ⟨y, (same y).mpr inM, List.find?_some found⟩
    have inL := List.mem_of_find?_eq_some first
    rw [first, unique x ((same x).mp inL) y inM (List.find?_some first) (List.find?_some found)]

namespace MMyISAM
variable {e e' : MMyISAM} {S : Table} {fuel : Nat}

theorem ShowsTable.heads_unique (shows : e.ShowsTable S) {h : Nat}
    (rows : S.rows = (e.normal.pairs h).map (fun x => (x.1, e.values.get x.2))) (k : Key) :
    ∀ x ∈ e.normal.pairs h, ∀ y ∈ e.normal.pairs h, sharesHead k x → sharesHead k y → x = y := by
  have apart := shows.apart
  rw [rows, List.pairwise_map] at apart
  intro x inX y inY hitX hitY
  by_contra differ
  have symmetric : Std.Symm fun x y : Key × Nat => x.1.head5 ≠ y.1.head5 := ⟨fun _ _ => Ne.symm⟩
  refine apart.forall inX inY differ ?_
  simp only [sharesHead, decide_eq_true_eq] at hitX hitY
  rw [hitX, hitY]

/-- A normal get is a lookup in the table. -/
theorem ShowsTable.get (shows : e.ShowsTable S) {r : Int} (normal : r < 0) (k : Key)
    (enough : levels S.rows.length ≤ fuel) : e.get fuel r k = .ok (S.lookup k) := by
  obtain ⟨h, wellFormed, rows, -⟩ := shows.tree
  rw [show S.rows.length = (e.normal.pairs h).length by rw [rows, List.length_map]] at enough
  have low := wellFormed.lt_levels.trans_le enough
  obtain ⟨g, indexed⟩ := wellFormed_iff.mp wellFormed
  have same : ∀ x, x ∈ e.normal.byLevel h ↔ x ∈ e.normal.pairs h := by
    refine fun x => ⟨fun member => ?_, indexed.labelled.mem_byLevel_of_inorder indexed.labelled.top⟩
    obtain ⟨j, -, atLevel⟩ := List.mem_flatMap.mp member
    exact indexed.labelled.mem_inorder_of_level indexed.labelled.top atLevel
  have first := find?_eq_of_unique same (shows.heads_unique rows k)
  have row : S.lookup k = (((e.normal.pairs h).find? (sharesHead k)).map Prod.snd).map e.values.get := by
    unfold Table.lookup
    rw [rows, List.find?_map, Option.map_map, Option.map_map]
    simp only [Function.comp_def]
    rfl
  unfold MMyISAM.get
  rw [if_neg normal.not_ge, find_run wellFormed low, first, row]
  rfl

/-- A normal addition adds a row. -/
theorem ShowsTable.add (shows : e.ShowsTable S) {k : Key} {value : List UInt8} (timestamp : Nat)
    (fresh : ∀ x ∈ S.rows, x.1.head5 ≠ k.head5) (small : value.length < 2 ^ 64) (room : e.normal.HasRoom fuel k)
    (enough : levels S.rows.length ≤ fuel) {r : Int} (normal : r < 0) :
    ∃ e', e.add fuel r k value timestamp = .ok (e', true) ∧
      e'.ShowsTable ⟨S.rows.orderedInsert (fun a b => a.1 ≤ b.1) (k, value), fun _ => false⟩ := by
  obtain ⟨h, wellFormed, rows, stored⟩ := shows.tree
  rw [show S.rows.length = (e.normal.pairs h).length by rw [rows, List.length_map]] at enough
  have low := wellFormed.lt_levels.trans_le enough
  have absent : ∀ x ∈ e.normal.pairs h, x.1 ≠ k := by
    intro x member same
    refine fresh (x.1, e.values.get x.2) ?_ (congrArg Key.head5 same)
    rw [rows]
    exact List.mem_map_of_mem (f := fun x => (x.1, e.values.get x.2)) member
  have written : (e.values.add value timestamp).2.Stores (e.values.add value timestamp).1 ∧
      (e.values.add value timestamp).2.get (e.values.add value timestamp).1 = value := ValueStore.stores_add small
  obtain ⟨kept, found⟩ := written
  obtain ⟨t, h', run, wellFormed', -, -, pairs⟩ :=
    add_run (d := (e.values.add value timestamp).1) wellFormed absent room low
  refine ⟨({ e with normal := t, values := (e.values.add value timestamp).2 } : MMyISAM).clearSafeMode, ?_,
    ⟨h', wellFormed', ?_, fun x member => ?_⟩, ?_, fun i _ => rfl⟩
  · unfold MMyISAM.add
    rw [if_neg normal.not_ge]
    simp only [run, ok_bind]
    rfl
  · have row : (e.normal.pairs h).map (fun x => (x.1, (e.values.add value timestamp).2.get x.2)) = S.rows := by
      rw [rows]
      exact List.map_congr_left fun x member => by rw [(stored x member).add.2]
    have inserted := List.map_orderedInsert (r := fun a b : Key × Nat => a.1 ≤ b.1)
      (s := fun a b : Key × List UInt8 => a.1 ≤ b.1) (fun x => (x.1, (e.values.add value timestamp).2.get x.2))
      (e.normal.pairs h) (k, (e.values.add value timestamp).1) (fun _ _ => Iff.rfl) (fun _ _ => Iff.rfl)
    rw [row, found] at inserted
    exact pairs ▸ inserted.symm
  · rcases (List.mem_orderedInsert _).mp (pairs ▸ member) with rfl | old
    · exact kept
    · exact (stored x old).add.1
  · rw [(List.perm_orderedInsert _ _ _).pairwise_iff (fun {_ _} => Ne.symm), List.pairwise_cons]
    exact ⟨fun x member => (fresh x member).symm, shows.apart⟩

/-- A normal removal takes the row of the key away. -/
theorem ShowsTable.remove (shows : e.ShowsTable S) {k : Key} (removable : e.normal.Removable k)
    (enough : levels S.rows.length ≤ fuel) {r : Int} (normal : r < 0) :
    ∃ e', e.remove fuel r k = .ok (e', true) ∧ e'.ShowsTable ⟨S.rows.filter (·.1 ≠ k), fun _ => false⟩ := by
  obtain ⟨h, wellFormed, rows, stored⟩ := shows.tree
  rw [show S.rows.length = (e.normal.pairs h).length by rw [rows, List.length_map]] at enough
  obtain ⟨t, h', run, wellFormed', pairs⟩ :=
    deletes_of_removable wellFormed (wellFormed.lt_levels.trans_le enough) removable
  refine ⟨({ e with normal := t } : MMyISAM).clearSafeMode, ?_, ⟨h', wellFormed', ?_, fun x member => ?_⟩,
    shows.apart.sublist List.filter_sublist, fun i _ => rfl⟩
  · unfold MMyISAM.remove
    rw [if_neg normal.not_ge]
    simp only [run, ok_bind]
    rfl
  · change S.rows.filter (·.1 ≠ k) = (t.pairs h').map fun x => (x.1, e.values.get x.2)
    rw [pairs, rows, List.filter_map]
    rfl
  · have member : x ∈ (e.normal.pairs h).filter (·.1 ≠ k) := pairs ▸ member
    exact stored x (List.mem_filter.mp member).1

/-- Of a session the table shows only that it is open. -/
theorem ShowsTable.session (shows : e.ShowsTable S) {safe : Nat → Option SafeMode} {opened : Nat → Bool}
    (sessions : ∀ i < 5, (safe i).isSome = opened i) :
    ({ e with safe := safe } : MMyISAM).ShowsTable { S with opened := opened } :=
  ⟨shows.tree, shows.apart, sessions⟩

theorem ShowsTable.replace (shows : e.ShowsTable S) {i : Nat} (inside : i < 5) {m : SafeMode}
    (isOpen : e.safe i = some m) (m' : SafeMode) :
    S.opened i = true ∧ ({ e with safe := fun j => if j = i then some m' else e.safe j } : MMyISAM).ShowsTable S := by
  have here : S.opened i = true := by rw [← shows.sessions i inside, isOpen, Option.isSome_some]
  refine ⟨here, shows.session fun j small => ?_⟩
  split_ifs with same
  · rw [same, here, Option.isSome_some]
  · exact shows.sessions j small

theorem ShowsTable.closed (shows : e.ShowsTable S) {i : Nat} (inside : i < 5) (missing : e.safe i = none) :
    S.opened i = false := by rw [← shows.sessions i inside, missing, Option.isSome_none]

/-- Each query does to the engine what it does to the table. -/
theorem ShowsTable.handle {q : Query} {a : Reply} (shows : e.ShowsTable S) (fits : S.Fits e fuel q)
    (run : e.handle fuel q = .ok (e', a)) : e'.ShowsTable (S.step q) ∧ S.Answers q a := by
  cases q with
  | add r k value timestamp =>
    obtain ⟨⟨e₁, flag⟩, added, done⟩ := bind_eq_ok.mp run
    cases done
    by_cases safe : 0 ≤ r
    · simp only [Table.step, if_pos safe, Table.Answers, decide_eq_false safe.not_gt, Bool.false_or]
      obtain ⟨inside, ⟨missing, rfl, rfl⟩ | ⟨m, tree, isOpen, -, rfl, rfl⟩⟩ := add_cases safe added
      · exact ⟨shows, by rw [shows.closed inside missing]⟩
      · obtain ⟨here, shows'⟩ := shows.replace inside isOpen ⟨tree, (m.values.add value timestamp).2⟩
        exact ⟨shows', by rw [here]⟩
    · have normal : r < 0 := by omega
      obtain ⟨fresh, small, room, enough⟩ := fits normal
      obtain ⟨e₂, added', shows'⟩ := shows.add timestamp fresh small room enough normal
      cases added'.symm.trans added
      simp only [Table.step, if_neg safe, Table.Answers, decide_eq_true normal, Bool.true_or]
      exact ⟨shows', trivial⟩
  | get r k =>
    obtain ⟨v, read, done⟩ := bind_eq_ok.mp run
    cases done
    refine ⟨shows, v, rfl, fun normal => ?_, fun safe closed => ?_⟩
    · exact Except.ok.inj (read.symm.trans (shows.get normal k (fits normal)))
    · unfold MMyISAM.get at read
      rw [if_pos safe, bind_eq_ok] at read
      obtain ⟨o, found, read⟩ := read
      obtain ⟨inside, here⟩ := session_eq_ok found
      have missing := shows.sessions r.toNat inside
      rw [closed, here] at missing
      obtain rfl : o = none := by simpa using missing
      exact (Except.ok.inj read).symm
  | remove r k =>
    obtain ⟨⟨e₁, flag⟩, removed, done⟩ := bind_eq_ok.mp run
    cases done
    by_cases safe : 0 ≤ r
    · simp only [Table.step, if_pos safe, Table.Answers, decide_eq_false safe.not_gt, Bool.false_or]
      obtain ⟨inside, ⟨missing, rfl, rfl⟩ | ⟨m, tree, isOpen, -, rfl, rfl⟩⟩ := remove_cases safe removed
      · exact ⟨shows, by rw [shows.closed inside missing]⟩
      · obtain ⟨here, shows'⟩ := shows.replace inside isOpen ⟨tree, m.values⟩
        exact ⟨shows', by rw [here]⟩
    · have normal : r < 0 := by omega
      obtain ⟨removable, enough⟩ := fits normal
      obtain ⟨e₂, removed', shows'⟩ := shows.remove removable enough normal
      cases removed'.symm.trans removed
      simp only [Table.step, if_neg safe, Table.Answers, decide_eq_true normal, Bool.true_or]
      exact ⟨shows', trivial⟩
  | migrate r =>
    obtain ⟨e₁, opened, done⟩ := bind_eq_ok.mp run
    cases done
    unfold migrateToSafeMode at opened
    split_ifs at opened with inside
    cases opened
    refine ⟨shows.session fun j small => ?_, rfl⟩
    split_ifs
    · rfl
    · exact shows.sessions j small
  | commit r timestamp =>
    obtain ⟨⟨e₁, flag⟩, committed, done⟩ := bind_eq_ok.mp run
    cases done
    unfold safeCommitExit at committed
    split_ifs at committed with normal
    · cases committed
      exact ⟨shows, rfl⟩
    · obtain ⟨o, found, committed⟩ := bind_eq_ok.mp committed
      obtain ⟨inside, here⟩ := session_eq_ok found
      have missing := shows.sessions r.toNat inside
      rw [fits (by omega), here] at missing
      obtain rfl : o = none := by simpa using missing
      cases committed
      exact ⟨shows, rfl⟩
  | abort r =>
    simp only [MMyISAM.handle, safeAbortExit] at run
    split_ifs at run with normal
    · cases run
      simp only [Table.step, if_pos normal, Table.Answers, decide_eq_false normal.not_ge]
      exact ⟨shows, trivial⟩
    · cases run
      simp only [Table.step, if_neg normal, Table.Answers, decide_eq_true (not_lt.mp normal)]
      exact ⟨shows.session fun _ _ => rfl, trivial⟩

theorem ShowsTable.serve {qs : List Query} {replies : List (Query × Reply)} (shows : e.ShowsTable S)
    (fits : S.FitsRun e fuel qs) (run : e.serve fuel qs = .ok (e', replies)) :
    e'.ShowsTable (qs.foldl Table.step S) ∧ replies.map Prod.fst = qs ∧ S.AnswersAll replies := by
  induction qs generalizing e S replies with
  | nil =>
    cases run
    exact ⟨shows, rfl, trivial⟩
  | cons q qs ih =>
    obtain ⟨⟨e₁, reply⟩, first, rest⟩ := bind_eq_ok.mp run
    obtain ⟨⟨e₂, later⟩, served, done⟩ := bind_eq_ok.mp rest
    cases done
    obtain ⟨shows₁, answered⟩ := shows.handle fits.1 first
    obtain ⟨shows₂, asked, more⟩ := ih shows₁ (fits.2 e₁ reply first) served
    exact ⟨shows₂, by rw [List.map_cons, asked], answered, more⟩

/-- A normal query that fits returns. -/
theorem ShowsTable.returns {q : Query} (shows : e.ShowsTable S) (fits : S.Fits e fuel q) (normal : q.Normal) :
    ∃ e' a, e.handle fuel q = .ok (e', a) := by
  cases q with
  | add r k value timestamp =>
    obtain ⟨fresh, small, room, enough⟩ := fits normal
    obtain ⟨e', run, -⟩ := shows.add timestamp fresh small room enough normal
    exact ⟨e', .status true, by rw [MMyISAM.handle, run]; rfl⟩
  | get r k => exact ⟨e, .value (S.lookup k), by rw [MMyISAM.handle, shows.get normal k (fits normal)]; rfl⟩
  | remove r k =>
    obtain ⟨removable, enough⟩ := fits normal
    obtain ⟨e', run, -⟩ := shows.remove removable enough normal
    exact ⟨e', .status true, by rw [MMyISAM.handle, run]; rfl⟩
  | migrate r | commit r timestamp | abort r => exact normal.elim

/-- The queries that are answered are answered as by the table; the first one that is not is no normal one. -/
theorem ShowsTable.answers {qs : List Query} (shows : e.ShowsTable S) (fits : S.FitsRun e fuel qs) :
    (e.answers fuel qs).1.ShowsTable (((e.answers fuel qs).2.map Prod.fst).foldl Table.step S) ∧
      S.AnswersAll (e.answers fuel qs).2 ∧
      ((e.answers fuel qs).2.map Prod.fst = qs ∨
        ∃ q rest, qs = (e.answers fuel qs).2.map Prod.fst ++ q :: rest ∧ ¬q.Normal) := by
  induction qs generalizing e S with
  | nil => exact ⟨shows, trivial, Or.inl rfl⟩
  | cons q qs ih =>
    cases first : e.handle fuel q with
    | error x =>
      rw [answers_error first]
      refine ⟨shows, trivial, Or.inr ⟨q, qs, rfl, fun normal => ?_⟩⟩
      obtain ⟨e', a, returned⟩ := shows.returns fits.1 normal
      exact absurd (first.symm.trans returned) nofun
    | ok after =>
      obtain ⟨e₁, reply⟩ := after
      obtain ⟨shows₁, answered⟩ := shows.handle fits.1 first
      obtain ⟨shows', later, whole⟩ := ih shows₁ (fits.2 e₁ reply first)
      rw [answers_cons first]
      refine ⟨shows', ⟨answered, later⟩, ?_⟩
      obtain all | ⟨p, rest, cut, session⟩ := whole
      · exact Or.inl (congrArg _ all)
      · exact Or.inr ⟨p, rest, congrArg _ cut, session⟩

section Virtual
variable {safe : Nat → Option SafeMode} {q : Query} {a : Reply}

variable (safe) in
/-- What a normal query does does not depend on the sessions, which a write closes. -/
theorem handle_anySafe (normal : q.Normal) (run : e.handle fuel q = .ok (e', a)) :
    ∃ safe', ({ e with safe := safe } : MMyISAM).handle fuel q = .ok ({ e' with safe := safe' }, a) ∧
      (safe' = (fun _ => none) ∨ safe' = safe ∧ ∃ r k, q = .get r k) := by
  cases q with
  | add r k value timestamp =>
    obtain ⟨⟨e₁, flag⟩, added, done⟩ := bind_eq_ok.mp run
    cases done
    unfold MMyISAM.add at added
    rw [if_neg (not_le.mpr normal)] at added
    obtain ⟨t, indexed, done⟩ := bind_eq_ok.mp added
    cases done
    have indexed : e.normal.add fuel k (e.values.add value timestamp).1 = .ok t := indexed
    refine ⟨fun _ => none, ?_, Or.inl rfl⟩
    unfold MMyISAM.handle MMyISAM.add
    simp only [if_neg (not_le.mpr normal), indexed, ok_bind]
    rfl
  | get r k =>
    obtain ⟨v, read, done⟩ := bind_eq_ok.mp run
    cases done
    refine ⟨safe, ?_, Or.inr ⟨rfl, r, k, rfl⟩⟩
    have same : ({ e with safe := safe } : MMyISAM).get fuel r k = e.get fuel r k := by
      refine get_normal ?_ ?_ normal <;> rfl
    rw [MMyISAM.handle, same, read]
    rfl
  | remove r k =>
    obtain ⟨⟨e₁, flag⟩, removed, done⟩ := bind_eq_ok.mp run
    cases done
    unfold MMyISAM.remove at removed
    rw [if_neg (not_le.mpr normal)] at removed
    obtain ⟨t, indexed, done⟩ := bind_eq_ok.mp removed
    cases done
    refine ⟨fun _ => none, ?_, Or.inl rfl⟩
    unfold MMyISAM.handle MMyISAM.remove
    simp only [if_neg (not_le.mpr normal), indexed, ok_bind]
    rfl
  | migrate r | commit r timestamp | abort r => exact normal.elim

variable (safe) in
theorem serve_anySafe {qs : List Query} {replies : List (Query × Reply)} (normal : ∀ q ∈ qs, q.Normal)
    (run : e.serve fuel qs = .ok (e', replies)) :
    ∃ safe', ({ e with safe := safe } : MMyISAM).serve fuel qs = .ok ({ e' with safe := safe' }, replies) ∧
      (safe' = (fun _ => none) ∨ safe' = safe ∧ ∀ q ∈ qs, ∃ r k, q = .get r k) := by
  induction qs generalizing e safe replies with
  | nil =>
    cases run
    exact ⟨safe, rfl, Or.inr ⟨rfl, by simp⟩⟩
  | cons q qs ih =>
    obtain ⟨⟨e₁, reply⟩, first, rest⟩ := bind_eq_ok.mp run
    obtain ⟨⟨e₂, later⟩, served, done⟩ := bind_eq_ok.mp rest
    cases done
    rw [List.forall_mem_cons] at normal
    obtain ⟨safe₁, first', kept⟩ := handle_anySafe safe normal.1 first
    obtain ⟨safe₂, served', kept'⟩ := ih safe₁ normal.2 served
    refine ⟨safe₂, ?_, ?_⟩
    · rw [MMyISAM.serve, first', ok_bind]
      simp only [served', ok_bind]
      rfl
    · obtain none | ⟨same, gets⟩ := kept'
      · exact Or.inl none
      · obtain none | ⟨same', isGet⟩ := kept
        · exact Or.inl (same.trans none)
        · exact Or.inr ⟨same.trans same', List.forall_mem_cons.mpr ⟨isGet, gets⟩⟩

/-- Queries, and one more. -/
theorem serve_snoc {qs : List Query} {replies : List (Query × Reply)} {e'' : MMyISAM}
    (run : e.serve fuel qs = .ok (e', replies)) (last : e'.handle fuel q = .ok (e'', a)) :
    e.serve fuel (qs ++ [q]) = .ok (e'', replies ++ [(q, a)]) := by
  induction qs generalizing e replies with
  | nil =>
    cases run
    rw [List.nil_append, MMyISAM.serve, last]
    rfl
  | cons p qs ih =>
    obtain ⟨⟨e₁, reply⟩, first, rest⟩ := bind_eq_ok.mp run
    obtain ⟨⟨e₂, later⟩, served, done⟩ := bind_eq_ok.mp rest
    cases done
    rw [List.cons_append, MMyISAM.serve, first, ok_bind]
    simp only [ih served, ok_bind]
    rfl

/-- Normal queries between the opening of a session and its end do the same as without it: an abort does not
undo them, and after a write there is nothing to commit. This is how the set of unspent outputs goes to its
virtual state and leaves it. -/
theorem serve_virtual (fuel : Nat) (e e' : MMyISAM) (r : Int) (timestamp : Nat) (qs : List Query)
    (replies : List (Query × Reply)) (inside : 0 ≤ r ∧ r.toNat < 5) (normal : ∀ q ∈ qs, q.Normal)
    (run : e.serve fuel qs = .ok (e', replies)) :
    e.serve fuel ((.migrate r :: qs) ++ [.abort r]) =
        .ok (e'.clearSafeMode, ((.migrate r, .status true) :: replies) ++ [(.abort r, .status true)]) ∧
      ((∃ q ∈ qs, ∀ r k, q ≠ .get r k) → e.serve fuel ((.migrate r :: qs) ++ [.commit r timestamp]) =
        .ok (e'.clearSafeMode, ((.migrate r, .status true) :: replies) ++ [(.commit r timestamp, .status false)])) := by
  obtain ⟨safe', served, kept⟩ := serve_anySafe
    (fun i => if i = r.toNat then some ⟨SafeOBtree.migrate e.normal, {}⟩ else e.safe i) normal run
  have opened : e.handle fuel (.migrate r) = .ok ({ e with
      safe := fun i => if i = r.toNat then some ⟨SafeOBtree.migrate e.normal, {}⟩ else e.safe i }, .status true) := by
    simp only [MMyISAM.handle, migrateToSafeMode, if_pos inside]
    rfl
  have session : e.serve fuel (.migrate r :: qs) =
      .ok ({ e' with safe := safe' }, (.migrate r, .status true) :: replies) := by
    rw [MMyISAM.serve, opened, ok_bind]
    simp only [served, ok_bind]
    rfl
  constructor
  · refine serve_snoc session ?_
    simp only [MMyISAM.handle, safeAbortExit, if_neg inside.1.not_gt]
    rfl
  · rintro ⟨q, member, isWrite⟩
    obtain rfl | ⟨-, gets⟩ := kept
    · refine serve_snoc session ?_
      simp only [MMyISAM.handle, safeCommitExit, MMyISAM.session, if_neg inside.1.not_gt, if_pos inside.2]
      rfl
    · obtain ⟨r', k, rfl⟩ := gets q member
      exact absurd rfl (isWrite r' k)

theorem serve_virtual_two : ∃ e' replies, empty.serve 1 [.add (-1) 7 [1, 2] 9, .get (-1) 7] = .ok (e', replies) ∧
    empty.serve 1 [.migrate 0, .add (-1) 7 [1, 2] 9, .get (-1) 7, .abort 0] =
      .ok (e'.clearSafeMode, ((.migrate 0, .status true) :: replies) ++ [(.abort 0, .status true)]) :=
  ⟨_, _, rfl, (serve_virtual 1 empty _ 0 9 [.add (-1) 7 [1, 2] 9, .get (-1) 7] _ (by decide)
    (by simp [Query.Normal]) rfl).1⟩

end Virtual

end MMyISAM

end MiyaCore
