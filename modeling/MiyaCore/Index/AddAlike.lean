import MiyaCore.Index.SameTree

/-!
# Addition to one tree in two files

The way down and up is the same in both: the keys of a node are compared, its slots shifted
and its children handed on as far as its counts go.
-/

namespace MiyaCore
open NodeFile ItemSet SearchTree

namespace ItemSet

/-- The slot after the keys is compared as well, but decides nothing. -/
theorem scanAdd_find {it : ItemSet} (k : Key) {l : List Nat} (inside : ∀ i ∈ l, i < it.keyCount)
    (small : it.keyCount ≤ 3) (last : it.childOptrCount - 1 = it.keyCount) :
    scanAdd it k (l ++ [it.keyCount]) = some ((l.find? fun i => k < it.keySlot i).getD it.keyCount) := by
  induction l with
  | nil =>
    obtain ⟨r, raw⟩ : ∃ r, it.rawKey it.keyCount = some r := by simp [ItemSet.rawKey]
    simp [scanAdd, raw, last]
  | cons i l ih =>
    have below := inside i (by simp)
    rw [List.cons_append, scanAdd, rawKey_eq below.le (by omega), List.find?_cons]
    by_cases less : k < it.keySlot i
    · simp [less]
    · simpa [less] using ih fun j member => inside j (by simp [member])

variable {it it' : ItemSet}

theorem Alike.scanAdd (alike : Alike it it') (small : it.keyCount ≤ 3)
    (inner : it.childOptrCount = it.keyCount + 1) (k : Key) :
    ∃ i ≤ it.keyCount, NodeFile.scanAdd it k (List.range it.childOptrCount) = some i ∧
      NodeFile.scanAdd it' k (List.range it'.childOptrCount) = some i := by
  have below : ∀ i ∈ List.range it.keyCount, i < it.keyCount := fun i => List.mem_range.mp
  have scan := scanAdd_find k below small (by omega)
  have scan' := @scanAdd_find it' k _ (by rwa [alike.keyCount]) (by rwa [alike.keyCount])
    (by rw [alike.childOptrCount, alike.keyCount]; omega)
  have same : (List.range it.keyCount).find? (fun i => k < it'.keySlot i) =
    (List.range it.keyCount).find? fun i => k < it.keySlot i := by
    rw [← List.head?_filter, ← List.head?_filter]
    refine congrArg List.head? (List.filter_congr fun i member => ?_)
    rw [alike.keySlot i (below i member)]
  rw [alike.keyCount, same] at scan'
  rw [alike.childOptrCount, inner, List.range_succ]
  refine ⟨_, ?_, scan, scan'⟩
  cases found : (List.range it.keyCount).find? fun i => k < it.keySlot i with
  | none => exact le_rfl
  | some i => exact (below i (List.mem_of_find?_eq_some found)).le

end ItemSet

section Descent
variable {s s' : IndexFile} {g : Nat → Option (Label Key)} {root height : Nat}

/-- The leaf that a key is added to. -/
theorem descendAdd_alike {fuel p h : Nat} {lo : WithBot Key} {hi : WithTop Key}
    (indexed : Indexed s s.nodes g root height) (alike : AlikeOn (fun p => (g p).isSome) s s')
    (label : g p = some (h, lo, hi)) (enough : h < fuel) (k : Key) :
    ∃ leaf lo' hi', g leaf = some (0, lo', hi') ∧ (oNode.descendAdd fuel p k).run s = .ok (leaf, s) ∧
      (oNode.descendAdd fuel p k).run s' = .ok (leaf, s') := by
  induction fuel generalizing p h lo hi with
  | zero => omega
  | succ fuel ih =>
    have node := alike.alike p (by simp [label])
    have has := indexed.has label
    have small := indexed.items_le label
    simp only [descendAdd, StateT.run_bind, run_read, ok_bind, node.childOptrCount]
    cases h with
    | zero =>
      have none : ¬1 ≤ (s.node p).childOptrCount := by simp [has.childOptrCount, indexed.labelled.leaf label]
      rw [if_neg none, if_neg none]
      exact ⟨p, lo, hi, label, rfl, rfl⟩
    | succ h =>
      have inner := indexed.labelled.inner label
      have size := inner.length
      have count : (s.node p).childOptrCount = (s.node p).keyCount + 1 := by
        rw [has.childOptrCount, has.keyCount, size]
      obtain ⟨i, below, scan, scan'⟩ := node.scanAdd (by rwa [has.keyCount]) count k
      rw [node.childOptrCount] at scan'
      obtain ⟨A, c, B, kids, place⟩ := exists_place
        (show i < (s.nodes.kids p).length by rw [size, ← has.keyCount]; omega)
      obtain ⟨a, b, labelC⟩ := inner.label_of_mem (c := c) (by simp [kids])
      have child : (s.node p).childOptr (i % 65536) = some c := by
        rw [has.keyCount] at below
        rw [kids] at has
        rw [Nat.mod_eq_of_lt (by omega), ← place, has.childOptr]
      rw [if_pos (by omega), if_pos (by omega), scan, scan']
      simp only [StateT.run_bind, run_deref, ok_bind, run_child, node.childOptr, child]
      exact ih labelC (by omega)

end Descent

namespace ItemSet
variable {it it' : ItemSet}

theorem sortPair_keySlot {j : Nat} (inside : j < it.keyCount) (small : it.keyCount ≤ 3) :
    ∃ f, it.sortPair j = { it with keySlot := f } := by
  rw [sortPair_eq inside.le (by omega)]
  split_ifs
  · rw [setKey_eq (by omega), setKey_eq (by omega)]
    exact ⟨_, rfl⟩
  · exact ⟨it.keySlot, rfl⟩

theorem Alike.sortPair (alike : Alike it it') {j : Nat} (inside : j < it.keyCount) (small : it.keyCount ≤ 3) :
    Alike (it.sortPair j) (it'.sortPair j) := by
  rw [sortPair_eq inside.le (by omega), sortPair_eq (by rw [alike.keyCount]; exact inside.le) (by omega),
    alike.keySlot j inside, alike.keySlot (j - 1) (by omega)]
  split_ifs
  · exact (alike.setKey (by omega) _).setKey (by omega) _
  · exact alike

/-- Two nodes alike, the first with other keys than `base` at most. -/
structure Sorting (base it it' : ItemSet) : Prop where
  alike : Alike it it'
  keySlot : ∃ f, it = { base with keySlot := f }

theorem Alike.sorting (alike : Alike it it') (small : it.keyCount ≤ 3) : Sorting it it.sortKey it'.sortKey := by
  have step : ∀ j < it.keyCount, ∀ a a', Sorting it a a' → Sorting it (a.sortPair j) (a'.sortPair j) := by
    rintro j inside a a' ⟨alikeA, f, rfl⟩
    obtain ⟨f', sorted⟩ := @sortPair_keySlot { it with keySlot := f } j inside small
    exact ⟨alikeA.sortPair inside small, f', sorted⟩
  rw [sortKey, sortKey, alike.keyCount]
  refine List.foldl_rel ⟨alike, it.keySlot, rfl⟩ fun i member a a' sorting => ?_
  have count : a.keyCount = it.keyCount := by
    obtain ⟨-, f, rfl⟩ := sorting
    rfl
  rw [sorting.alike.keyCount, count]
  refine List.foldl_rel sorting fun j inRange b b' => step j ?_ b b'
  have outer := List.mem_range.mp member
  have inner := List.mem_range'_1.mp (List.mem_reverse.mp inRange)
  omega

/-- A key put after the others, and sorted to its place. -/
def appendKey (it : ItemSet) (k : Key) : ItemSet :=
  ((it.setKey it.keyCount k).setKeyCount (it.keyCount + 1)).sortKey

theorem Alike.appendKey (alike : Alike it it') (room : it.keyCount ≤ 2) (k : Key) :
    Sorting { it with keyCount := it.keyCount + 1 } (it.appendKey k) (it'.appendKey k) := by
  have put : Alike ((it.setKey it.keyCount k).setKeyCount (it.keyCount + 1))
    ((it'.setKey it'.keyCount k).setKeyCount (it'.keyCount + 1)) := by
    rw [alike.keyCount, setKey_eq (by omega), setKey_eq (by omega)]
    refine ⟨alike.parent, rfl, fun i below => ?_, alike.childOptrCount, alike.childSlot,
      alike.dataOptrCount, alike.dataSlot⟩
    simp only [setKeyCount_keySlot]
    split_ifs with last
    · rfl
    · exact alike.keySlot i (by simp only [setKeyCount_keyCount] at below; omega)
  obtain ⟨both, f, sorted⟩ := put.sorting (by simpa using by omega)
  refine ⟨both, f, ?_⟩
  rw [ItemSet.appendKey, sorted, setKey_eq (by omega)]
  rfl

/-- A pair, and a child to the right of it, taken in by a node with room. -/
def taken (it : ItemSet) (k : Key) (d : Nat) (o : Option Nat) : ItemSet :=
  let sorted := it.appendKey k
  let i := (sorted.findIndex k).getD 0
  let stored :=
    { sorted with dataSlot := slideUp it.dataSlot i it.dataOptrCount d, dataOptrCount := it.dataOptrCount + 1 }
  match o with
  | none => stored
  | some r =>
      { stored with childSlot := slideUp it.childSlot (i + 1) it.childOptrCount r, childOptrCount := it.childOptrCount + 1 }

theorem findIndex_lt {i : Nat} {k : Key} (found : it.findIndex k = some i) : i < it.keyCount :=
  List.mem_range.mp (List.mem_of_find?_eq_some found)

theorem findIndex_getD_lt (filled : 1 ≤ it.keyCount) (k : Key) : (it.findIndex k).getD 0 < it.keyCount := by
  cases found : it.findIndex k with
  | none => exact filled
  | some i => exact findIndex_lt found

section Taken
variable (alike : Alike it it') (room : it.keyCount ≤ 2) (even : it.dataOptrCount = it.keyCount)
    {o : Option Nat} (inner : o.isSome → it.childOptrCount = it.keyCount + 1) (k : Key) (d : Nat)
include alike room even inner

/-- A pair is taken in alike. -/
theorem Alike.taken : Alike (it.taken k d o) (it'.taken k d o) := by
  obtain ⟨sorted, f, same⟩ := alike.appendKey room k
  have count : (it.appendKey k).keyCount = it.keyCount + 1 := by rw [same]
  have place : ((it.appendKey k).findIndex k).getD 0 < (it.appendKey k).keyCount :=
    findIndex_getD_lt (by omega) k
  have found := sorted.findIndex (by omega) k
  have datas := slideUp_congr (i := ((it.appendKey k).findIndex k).getD 0) (by omega) alike.dataSlot d
  cases o with
  | none =>
    simp only [ItemSet.taken, found, alike.dataOptrCount]
    exact ⟨sorted.parent, sorted.keyCount, sorted.keySlot, sorted.childOptrCount, sorted.childSlot, rfl, datas⟩
  | some r =>
    have childs := slideUp_congr (i := ((it.appendKey k).findIndex k).getD 0 + 1)
      (by have := inner rfl; omega) alike.childSlot r
    simp only [ItemSet.taken, found, alike.dataOptrCount, alike.childOptrCount]
    exact ⟨sorted.parent, sorted.keyCount, sorted.keySlot, rfl, childs, rfl, datas⟩

omit alike in
theorem mem_kids_taken {c : Nat} (isKid : c ∈ (it.taken k d o).kids) : o = some c ∨ c ∈ it.kids := by
  obtain ⟨f, same⟩ := ((Alike.refl it).appendKey room k).keySlot
  have place : ((it.appendKey k).findIndex k).getD 0 < (it.appendKey k).keyCount :=
    findIndex_getD_lt (by simp [same]) k
  have count : (it.appendKey k).keyCount = it.keyCount + 1 := by rw [same]
  cases o with
  | none => simpa [ItemSet.taken, same, ItemSet.kids] using isKid
  | some r =>
    have childs := inner rfl
    simp only [ItemSet.taken, ItemSet.kids, List.mem_map, List.mem_range] at isKid
    obtain ⟨j, below, rfl⟩ := isKid
    rcases slideUp_mem (f := it.childSlot) (i := ((it.appendKey k).findIndex k).getD 0 + 1)
      (by omega) r j below with new | ⟨j', below', old⟩
    · exact Or.inl (congrArg some new.symm)
    · exact Or.inr (List.mem_map.mpr ⟨j', List.mem_range.mpr below', old.symm⟩)

end Taken

end ItemSet

/-- The simple addition, as an operation on its node. -/
theorem addSimple_taken {s : IndexFile} {p : Nat} {o : Option Nat} (room : (s.node p).keyCount ≤ 2)
    (even : (s.node p).dataOptrCount = (s.node p).keyCount)
    (inner : o.isSome → (s.node p).childOptrCount = (s.node p).keyCount + 1) (k : Key) (d : Nat) :
    (oNode.addSimple p k (some d) o).run s = .ok ((), put s p ((s.node p).taken k d o)) := by
  obtain ⟨f, same⟩ := ((Alike.refl (s.node p)).appendKey room k).keySlot
  have count : ((s.node p).appendKey k).keyCount = (s.node p).keyCount + 1 := by rw [same]
  have dataCount : ((s.node p).appendKey k).dataOptrCount = (s.node p).dataOptrCount := by rw [same]
  have dataSlot : ((s.node p).appendKey k).dataSlot = (s.node p).dataSlot := by rw [same]
  have place : (((s.node p).appendKey k).findIndex k).getD 0 < ((s.node p).appendKey k).keyCount :=
    findIndex_getD_lt (by omega) k
  have slotted := moveInsertDataOptr_run (s := put s p ((s.node p).appendKey k)) (p := p) (c := p)
    (i := (((s.node p).appendKey k).findIndex k).getD 0) (by simp only [put_node, if_true, dataCount]; omega)
    (by simp only [put_node, if_true, dataCount]; omega) d
  simp only [put_node, if_true, dataCount, dataSlot, put_put] at slotted
  have appended : ((s.node p).setKey (s.node p).keyCount k |>.setKeyCount ((s.node p).keyCount + 1)).sortKey =
      (s.node p).appendKey k := rfl
  simp only [addSimple, StateT.run_bind, run_read, ok_bind, run_write, edit_eq_put, put_put, put_node,
    if_true, appended, slotted]
  cases o with
  | none => simp only [taken, setDataOptrCount]; rfl
  | some r =>
    have childCount : ((s.node p).appendKey k).childOptrCount = (s.node p).childOptrCount := by rw [same]
    have childSlot : ((s.node p).appendKey k).childSlot = (s.node p).childSlot := by rw [same]
    have childs := inner rfl
    simp only [StateT.run_bind, run_getOptr, ok_bind, run_write, edit_eq_put, put_put, put_node, if_true]
    rw [moveInsertChildOptr_eq (by simp only [setDataOptrCount, childCount]; omega)
      (by simp only [setDataOptrCount, childCount]; omega)]
    simp only [taken, setDataOptrCount, setChildOptrCount, childCount, childSlot, count, childs]

section Joined
variable (xs : List (Key × Nat)) (cs : List Nat) (k : Key) (d : Nat)

/-- The keys of a full node with one more. -/
def joinedKeys : List Key := (xs.map Prod.fst ++ [k]).insertionSort (· ≤ ·)

/-- Its pairs with one more, at the first place its key has. -/
def joined : List (Key × Nat) :=
  let i := (joinedKeys xs k).findIdx (· = k)
  (joinedKeys xs k).zip ((xs.map Prod.snd).take i ++ d :: (xs.map Prod.snd).drop i)

/-- Its children with one more, after that place. -/
def joinedKids (r : Nat) : List Nat :=
  let i := (joinedKeys xs k).findIdx (· = k)
  cs.take (i + 1) ++ r :: cs.drop (i + 1)

/-- The children, with the one that waits if there is one. -/
def joinedChilds : Option Nat → List Nat
  | none => []
  | some r => joinedKids xs cs k r

def joinedView (o : Option Nat) : ViewItemSet Nat where
  key := (joined xs k d).map Prod.fst
  dataOptr := (joined xs k d).map fun x => some x.2
  childOptr := if o.isSome then (joinedChilds xs cs k o).map some else List.replicate 5 none

theorem length_joinedKeys : (joinedKeys xs k).length = xs.length + 1 := by simp [joinedKeys]

theorem findIdx_joinedKeys : (joinedKeys xs k).findIdx (· = k) ≤ xs.length := by
  have below : (joinedKeys xs k).findIdx (· = k) < (joinedKeys xs k).length :=
    List.findIdx_lt_length_of_exists ⟨k, by simp [joinedKeys], by simp⟩
  rw [length_joinedKeys] at below
  omega

theorem length_joinedDatas :
    let i := (joinedKeys xs k).findIdx (· = k)
    ((xs.map Prod.snd).take i ++ d :: (xs.map Prod.snd).drop i).length = xs.length + 1 := by
  have := findIdx_joinedKeys xs k
  simp
  omega

theorem map_fst_joined : (joined xs k d).map Prod.fst = joinedKeys xs k := by
  rw [joined, List.map_fst_zip]
  rw [length_joinedKeys, length_joinedDatas]

theorem map_snd_joined :
    let i := (joinedKeys xs k).findIdx (· = k)
    (joined xs k d).map Prod.snd = (xs.map Prod.snd).take i ++ d :: (xs.map Prod.snd).drop i := by
  simp only
  rw [joined, List.map_snd_zip]
  rw [length_joinedKeys, length_joinedDatas]

theorem length_joined : (joined xs k d).length = xs.length + 1 := by
  rw [joined, List.length_zip, length_joinedKeys, length_joinedDatas, min_self]

theorem length_joinedKids (r : Nat) : (joinedKids xs cs k r).length = cs.length + 1 := by
  simp [joinedKids]
  omega

theorem mem_joinedKids {r c : Nat} : c ∈ joinedKids xs cs k r ↔ c = r ∨ c ∈ cs := by
  have whole : ∀ i, c ∈ cs ↔ c ∈ cs.take i ∨ c ∈ cs.drop i :=
    fun i => by rw [← List.mem_append, List.take_append_drop]
  rw [joinedKids, List.mem_append, List.mem_cons, whole ((joinedKeys xs k).findIdx (· = k) + 1)]
  tauto

end Joined

theorem insertSlot_take {α : Type} (l : List α) {i : Nat} (inside : i ≤ l.length) (z a : α) :
    insertSlot (l ++ [z]) i a = l.take i ++ a :: l.drop i := by
  have cut := insertSlot_append (l.take i) (l.drop i) z a
  rwa [List.take_append_drop, List.length_take, min_eq_left inside] at cut

/-- The virtual item set of a full node. -/
theorem viewItemSet_full {s : IndexFile} {p : Nat} {xs : List (Key × Nat)} {cs : List Nat}
    {o : Option Nat} (has : (s.node p).Has xs cs) (full : xs.length = 3)
    (fits : o = none ∧ cs = [] ∨ o.isSome ∧ cs.length = 4) (k : Key) (d : Nat) :
    (oNode.viewItemSet p k (some d) o).run s = .ok (joinedView xs cs k d o, s) := by
  obtain ⟨⟨count, keys⟩, ⟨dataCount, datas⟩, ⟨childCount, childs⟩⟩ := has_iff.mp has
  have keyList : (List.range 3).map (s.node p).keySlot = xs.map Prod.fst := by
    rw [List.range_eq_range', map_range'_eq_iff]
    exact ⟨by simp [full], keys⟩
  have dataList : ((List.range 4).map fun i => if i < (s.node p).dataOptrCount then oNode.dataOptr s p i
    else none) =
      (xs.map Prod.snd).map some ++ [none] := by
    have slots := map_range_slots (g := fun i => if i < (s.node p).dataOptrCount then
      (s.node p).dataOptr i else none) datas (fun i inside => by
        rw [List.length_map, ← dataCount] at inside
        rw [if_pos inside, dataOptr_eq inside.le])
      (by simp [dataCount])
    rwa [List.length_map, full] at slots
  have room : ¬(3 < (s.node p).dataOptrCount ∨ 4 < (s.node p).childOptrCount) := by
    rcases fits with ⟨-, rfl⟩ | ⟨-, four⟩
    · simp [dataCount, childCount, full]
    · simp [dataCount, childCount, full, four]
  have place := findIdx_joinedKeys xs k
  have inserted : insertSlot ((xs.map Prod.snd).map some ++ [none])
    ((joinedKeys xs k).findIdx (· = k)) (some d) =
      (joined xs k d).map (fun x => some x.2) := by
    rw [insertSlot_take _ (by simpa using place),
      show (fun x : Key × Nat => some x.2) = some ∘ Prod.snd from rfl, ← List.map_map, map_snd_joined]
    simp
  simp only [viewItemSet, StateT.run_bind, run_read, ok_bind, room, if_false, keyList, joinedView,
    map_fst_joined]
  rw [← joinedKeys]
  cases o with
  | none =>
    have none : cs = [] := by simpa using fits
    have noChilds : (List.range 5).map (s.node p).childOptr = List.replicate 5 Option.none := by
      simp [ItemSet.childOptr, childCount, none, List.range_succ, List.replicate]
    simp only [run_get, ok_bind, dataList, inserted, noChilds]
    rfl
  | some r =>
    have four : cs.length = 4 := by simpa using fits
    have childList : (List.range 5).map (s.node p).childOptr = cs.map some ++ [none] := by
      have slots := map_range_slots (g := (s.node p).childOptr) childs
        (fun i inside => childOptr_eq (by rwa [childCount])) (by simp [ItemSet.childOptr, childCount])
      rwa [four] at slots
    have kids : insertSlot (cs.map some ++ [none]) ((joinedKeys xs k).findIdx (· = k) + 1)
      (some r) = (joinedKids xs cs k r).map some := by
      rw [insertSlot_take _ (by simp; omega), joinedKids]
      simp
    simp only [StateT.run_bind, run_get, run_getOptr, ok_bind, dataList, inserted, childList, kids]
    rfl

/-- A full node splits. -/
theorem splitONode_joined {s : IndexFile} {p : Nat} {xs : List (Key × Nat)} {cs : List Nat}
    {o : Option Nat} (has : (s.node p).Has xs cs) (full : xs.length = 3)
    (fits : o = none ∧ cs = [] ∨ o.isSome ∧ cs.length = 4) (k : Key) (d : Nat) (old : p ≠ s.top)
    (apart : ∀ c ∈ joinedChilds xs cs k o, c ≠ s.top ∧ c ≠ p) :
    ∃ s', (oNode.splitONode p (joinedView xs cs k d o)).run s = .ok (s.top, s') ∧
      Split s s' p (joined xs k d) (joinedChilds xs cs k o) := by
  refine splitONode_run (by rw [length_joined, full]) rfl rfl old ?_
  have count := has.childOptrCount
  rcases fits with ⟨rfl, rfl⟩ | ⟨isSome, four⟩
  · exact Or.inl ⟨by simpa using count, rfl⟩
  · obtain ⟨r, rfl⟩ := Option.isSome_iff_exists.mp isSome
    exact Or.inr ⟨by omega, by simp [joinedChilds, length_joinedKids, four], rfl, apart⟩

section Up
variable {A : Nat → Prop} {s s' s₁ s₁' : IndexFile} {p : Nat} {I : List (Key × Nat)} {C : List Nat}

/-- A split makes the new node one of those that agree. -/
theorem AlikeOn.split (alike : AlikeOn A s s') (split : Split s s₁ p I C) (split' : Split s' s₁' p I C)
    (inA : A p) (kids : ∀ c ∈ C, A c) :
    AlikeOn (fun q => A q ∨ q = s.top) s₁ s₁' := by
  have others' := split'.others
  have right' := split'.right
  have rightParent' := split'.rightParent
  simp only [alike.top] at others' right' rightParent'
  have parent := (alike.alike p inA).parent
  refine ⟨by rw [split.head, split'.head, alike.head], by rw [split.top, split'.top, alike.top],
    fun q member => ?_, fun q member c isKid => ?_⟩
  · by_cases isP : q = p
    · subst isP
      exact split.left.alike split'.left (by rw [split.leftParent, split'.leftParent, parent])
    by_cases isTop : q = s.top
    · subst isTop
      exact split.right.alike right' (by rw [split.rightParent, rightParent', parent])
    rw [split.others q isP isTop, others' q isP isTop]
    have node := alike.alike q (member.resolve_right isTop)
    split_ifs
    · exact node.setParent s.top
    · exact node
  · left
    by_cases isP : q = p
    · subst isP
      rw [split.left.kids] at isKid
      exact kids c (List.mem_of_mem_take isKid)
    by_cases isTop : q = s.top
    · subst isTop
      rw [split.right.kids] at isKid
      exact kids c (List.mem_of_mem_drop isKid)
    refine alike.closed q (member.resolve_right isTop) c ?_
    rw [split.others q isP isTop] at isKid
    split_ifs at isKid <;> exact isKid

theorem AlikeOn.grow {r : Nat} {x : Key × Nat} (alike : AlikeOn A s s') (grown : Grown s s₁ p r x)
    (grown' : Grown s' s₁' p r x) (inA : A p) (inR : A r) : AlikeOn (fun q => A q ∨ q = s.top) s₁ s₁' := by
  have others' := grown'.others
  have root' := grown'.root
  have rootParent' := grown'.rootParent
  have left' := grown'.left
  have right' := grown'.right
  simp only [alike.top] at others' root' rootParent' left' right'
  refine ⟨by rw [grown.head, grown'.head, alike.head, alike.top],
    by rw [grown.top, grown'.top, alike.top], fun q member => ?_, fun q member c isKid => ?_⟩
  · by_cases isTop : q = s.top
    · subst isTop
      exact grown.root.alike root' (by rw [grown.rootParent, rootParent'])
    by_cases isP : q = p
    · subst isP
      rw [grown.left, left']
      exact (alike.alike q inA).setParent s.top
    by_cases isR : q = r
    · subst isR
      rw [grown.right, right']
      exact (alike.alike q inR).setParent s.top
    rw [grown.others q isP isR isTop, others' q isP isR isTop]
    exact alike.alike q (member.resolve_right isTop)
  · left
    by_cases isTop : q = s.top
    · subst isTop
      rw [grown.root.kids] at isKid
      rcases List.mem_pair.mp isKid with rfl | rfl
      · exact inA
      · exact inR
    refine alike.closed q (member.resolve_right isTop) c ?_
    by_cases isP : q = p
    · subst isP
      rwa [grown.left] at isKid
    by_cases isR : q = r
    · subst isR
      rwa [grown.right] at isKid
    rwa [grown.others q isP isR isTop] at isKid

theorem AlikeOn.take {o : Option Nat} (alike : AlikeOn A s s') (inA : A p) (room : (s.node p).keyCount ≤ 2)
    (even : (s.node p).dataOptrCount = (s.node p).keyCount)
    (inner : o.isSome → (s.node p).childOptrCount = (s.node p).keyCount + 1)
    (kid : ∀ r, o = some r → A r) (k : Key) (d : Nat) :
    AlikeOn A (put s p ((s.node p).taken k d o)) (put s' p ((s'.node p).taken k d o)) := by
  refine alike.step (sameBut_put s p _) (sameBut_put s' p _) fun q touched _ => ?_
  obtain rfl := List.mem_singleton.mp touched
  simp only [put_node, if_true]
  refine ⟨(alike.alike q inA).taken room even inner k d, fun c isKid => ?_⟩
  rcases mem_kids_taken room even inner k d isKid with new | old
  · exact kid c new
  · exact alike.closed q inA c old

end Up

section Recursion
variable {g : Nat → Option (Label Key)} {root height : Nat} {s₀ : IndexFile}

/-- Files that agree while an addition is at a node of height `h`: the nodes from there up are as they were
at its start, in `s₀`. -/
structure Ascending (s₀ : IndexFile) (g : Nat → Option (Label Key)) (A : Nat → Prop) (h : Nat)
    (s s' : IndexFile) : Prop where
  alike : AlikeOn A s s'
  above : ∀ {p l}, g p = some l → h ≤ l.1 → s.node p = s₀.node p
  labelled : ∀ {p l}, g p = some l → A p
  grown : s₀.top ≤ s.top

/-- What waits at a node of height `h`: the node to the right is a new one. -/
def Waiting (s₀ : IndexFile) (A : Nat → Prop) (h : Nat) (s : IndexFile) : Option Nat → Prop
  | none => h = 0
  | some r => h ≠ 0 ∧ A r ∧ s₀.top ≤ r ∧ r < s.top

/-- The addition of what waits at a node, and of what it splits off further up. -/
theorem recursiveAdd_alike {fuel : Nat} (indexed : Indexed s₀ s₀.nodes g root height) {A : Nat → Prop}
    {s s' : IndexFile} {q h : Nat} {lo : WithBot Key} {hi : WithTop Key} {k : Key} {d : Nat}
    {o : Option Nat} (ascending : Ascending s₀ g A h s s') (label : g q = some (h, lo, hi))
    (waiting : Waiting s₀ A h s o) (enough : height - h < fuel) :
    ∃ res s₁ s₁' A', (oNode.recursiveAdd fuel q k (some d) o).run s = .ok (res, s₁) ∧
      (oNode.recursiveAdd fuel q k (some d) o).run s' = .ok (res, s₁') ∧ AlikeOn A' s₁ s₁' ∧
      A' (res.getD root) := by
  induction fuel generalizing A s s' q h lo hi k d o with
  | zero => omega
  | succ fuel ih =>
    have same := ascending.above label le_rfl
    have inA := ascending.labelled label
    have node := ascending.alike.alike q inA
    have has := indexed.has label
    have small := indexed.items_le label
    have even := (indexed.counts label).1
    rw [← same] at has even
    have count := has.keyCount
    have childCount := has.childOptrCount
    have kidsOf : ∀ c ∈ s₀.nodes.kids q, A c ∧ c ≠ q ∧ c < s₀.top := by
      intro c isKid
      obtain ⟨notQ, old, labelled⟩ := indexed.kid_ne label isKid
      obtain ⟨l, labelC⟩ := Option.isSome_iff_exists.mp labelled
      exact ⟨ascending.labelled labelC, notQ, old⟩
    have below := (indexed.inFile label).2
    have grown := ascending.grown
    have shape : o = none ∧ s₀.nodes.kids q = [] ∨ o.isSome ∧
      (s₀.nodes.kids q).length = (s₀.nodes.items q).length + 1 := by
      cases o with
      | none =>
        obtain rfl : h = 0 := waiting
        exact Or.inl ⟨rfl, indexed.labelled.leaf label⟩
      | some r =>
        obtain ⟨h, rfl⟩ := Nat.exists_eq_succ_of_ne_zero waiting.1
        exact Or.inr ⟨rfl, (indexed.labelled.inner label).length⟩
    simp only [recursiveAdd, StateT.run_bind, run_read, ok_bind, node.keyCount]
    by_cases full : 3 ≤ (s.node q).keyCount
    · rw [if_pos full]
      have three : (s₀.nodes.items q).length = 3 := by omega
      have fits : o = none ∧ s₀.nodes.kids q = [] ∨ o.isSome ∧ (s₀.nodes.kids q).length = 4 := by
        simpa only [three] using shape
      have memC : ∀ c ∈ joinedChilds (s₀.nodes.items q) (s₀.nodes.kids q) k o,
          A c ∧ c ≠ q ∧ c < s.top ∧ (s₀.top ≤ c ∨ c ∈ s₀.nodes.kids q) := by
        intro c member
        cases o with
        | none => cases member
        | some r =>
          rcases (mem_joinedKids _ _ _).mp member with rfl | old
          · obtain ⟨-, inR, new, inFile⟩ := waiting
            exact ⟨inR, by omega, inFile, Or.inl new⟩
          · obtain ⟨inC, notQ, before⟩ := kidsOf c old
            exact ⟨inC, notQ, by omega, Or.inr old⟩
      have apart : ∀ c ∈ joinedChilds (s₀.nodes.items q) (s₀.nodes.kids q) k o, c ≠ s.top ∧ c ≠ q :=
        fun c member => ⟨(memC c member).2.2.1.ne, (memC c member).2.1⟩
      obtain ⟨m, -, second⟩ := four_cut (show (joined (s₀.nodes.items q) k d).length =
        4 by rw [length_joined, three])
      obtain ⟨s₁, splitRun, split⟩ := splitONode_joined has three fits k d (by omega) apart
      obtain ⟨s₁', splitRun', split'⟩ := splitONode_joined (node.has has) three fits k d
        (by rw [ascending.alike.top]; omega) (by rwa [ascending.alike.top])
      have alike₁ := ascending.alike.split split split' inA fun c member => (memC c member).1
      have separatorKey : (joinedView (s₀.nodes.items q) (s₀.nodes.kids q) k d o).key.getD 1 0 = m.1 := by
        rw [joinedView, List.getD_eq_getElem?_getD, List.getElem?_map, second]
        rfl
      have separatorData : (joinedView (s₀.nodes.items q)
        (s₀.nodes.kids q) k d o).dataOptr.getD 1 none = some m.2 := by
        rw [joinedView, List.getD_eq_getElem?_getD, List.getElem?_map, second]
        rfl
      have parent' : (s₁'.node q).parent = (s₁.node q).parent := by
        rw [split.leftParent, split'.leftParent, node.parent]
      simp only [StateT.run_bind, viewItemSet_full has three fits, viewItemSet_full
        (node.has has) three fits, splitRun, splitRun', ok_bind, run_atRoot, separatorKey,
        separatorData, parent', split.leftParent, same, ascending.alike.top]
      by_cases isRoot : q = root
      · subst isRoot
        have top₁ := split.top
        obtain ⟨s₂, growRun, grow⟩ := growRoot_run (s := s₁) (p := q) (r := s.top) (x := m) (by omega)
          (by omega) (by omega)
        obtain ⟨s₂', growRun', grow'⟩ := growRoot_run (s := s₁') (p := q) (r := s.top) (x := m)
          (by rw [alike₁.top]; omega) (by rw [alike₁.top]; omega) (by omega)
        rw [indexed.rootParent]
        rw [alike₁.top] at growRun'
        exact ⟨some s₁.top, s₂, s₂', _, by simp [growRun], by simp [growRun'], alike₁.grow grow grow'
          (Or.inl inA) (Or.inr rfl), Or.inr rfl⟩
      · have notNull : ((s₀.node q).parent == 0) = false := by
          simpa using (indexed.parent_eq_zero label).not.mpr isRoot
        obtain ⟨u, lo', hi', X, Y, A', B', parent, labelU, -⟩ := indexed.above label isRoot
        rw [notNull]
        simp only [Bool.false_eq_true, if_false, StateT.run_bind, run_read, ok_bind, parent',
          split.leftParent, same, parent]
        have lower : h < height := (indexed.labelled.low label).resolve_left isRoot
        refine ih (A := fun p => A p ∨ p = s.top)
          ⟨alike₁, fun {p l} labelP up => ?_, fun labelP => Or.inl (ascending.labelled labelP),
          ?_⟩ labelU ⟨Nat.succ_ne_zero h, Or.inr rfl, grown, by rw [split.top]; omega⟩ (by omega)
        · have notQ : p ≠ q := by
            rintro rfl
            rw [label] at labelP
            obtain rfl := Option.some.inj labelP
            omega
          have before := (indexed.inFile labelP).2
          have notKid : p ∉ (joinedChilds (s₀.nodes.items q) (s₀.nodes.kids q) k o).drop 2 := by
            intro member
            rcases (memC p (List.mem_of_mem_drop member)).2.2.2 with new | isKid
            · omega
            · obtain ⟨h', a, b, rfl, labelC⟩ := indexed.labelled.kid label isKid
              rw [labelC] at labelP
              obtain rfl := Option.some.inj labelP
              omega
          rw [split.others p notQ (by omega), if_neg notKid]
          exact ascending.above labelP (by omega)
        · rw [split.top]
          omega
    · rw [if_neg full]
      have inner : o.isSome → (s.node q).childOptrCount = (s.node q).keyCount + 1 := by
        intro isSome
        rcases shape with ⟨rfl, -⟩ | ⟨-, size⟩
        · cases isSome
        · rw [childCount, size, count]
      have run := addSimple_taken (s := s) (p := q) (o := o) (by omega) even inner k d
      have run' := addSimple_taken (s := s') (p := q) (o := o) (by rw [node.keyCount]; omega)
        (by rw [node.keyCount, node.dataOptrCount, even]) (by rwa [node.keyCount, node.childOptrCount]) k d
      refine ⟨none, _, _, A, by simp [run], by simp [run'], ascending.alike.take inA (by omega) even
        inner (fun r isR => ?_) k d, ?_⟩
      · subst isR
        exact waiting.2.1
      · exact ascending.labelled indexed.labelled.top

end Recursion

namespace OBtree
variable {t t' : OBtree} {h fuel : Nat}

/-- An addition to one tree in two files returns one tree in two files, for a key that the tree has as well,
or goes astray in both. -/
theorem SameTree.add (same : t.SameTree t') (wellFormed : t.WellFormed h) (enough : h < fuel)
    (k : Key) (d : Nat) :
    (∃ t₁ t₁', t.add fuel k d = .ok t₁ ∧ t'.add fuel k d = .ok t₁' ∧ t₁.SameTree t₁') ∨
      t.add fuel k d = .error .astray ∧ t'.add fuel k d = .error .astray := by
  obtain ⟨g, indexed⟩ := wellFormed_iff.mp wellFormed
  have alike := same.alikeOn indexed
  obtain ⟨leaf, lo, hi, label, descend, descend'⟩ :=
    descendAdd_alike indexed alike indexed.labelled.top enough k
  have start : Ascending t.file g (fun p => (g p).isSome) 0 t.file t'.file :=
    ⟨alike, fun _ _ => rfl, fun label => by simp [label], le_rfl⟩
  obtain ⟨res, s₁, s₁', A, run, run', alike₁, inA⟩ :=
    recursiveAdd_alike (k := k) (d := d) (o := none) indexed start label rfl (by omega : h - 0 < fuel)
  have added : t.add fuel k d =
      if s₁.Reached then .ok ⟨s₁, res.getD t.rootONode⟩ else .error .astray := by
    rw [OBtree.add, NodeFile.add, StateT.run_bind, descend, ok_bind, StateT.run_bind, run, ok_bind]
    cases res <;> rfl
  have added' : t'.add fuel k d =
      if s₁.Reached then .ok ⟨s₁', res.getD t.rootONode⟩ else .error .astray := by
    have reached : s₁'.Reached = s₁.Reached := by rw [IndexFile.Reached, alike₁.top, ← IndexFile.Reached]
    rw [OBtree.add, NodeFile.add, same.root, StateT.run_bind, descend', ok_bind, StateT.run_bind, run', ok_bind]
    simp only [← reached]
    cases res <;> rfl
  rw [added, added']
  split_ifs with reached
  · exact Or.inl ⟨_, _, rfl, rfl, sameTree_of_alikeOn alike₁ rfl inA⟩
  · exact Or.inr ⟨rfl, rfl⟩

end OBtree

end MiyaCore
