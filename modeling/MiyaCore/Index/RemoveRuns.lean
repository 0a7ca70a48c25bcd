import MiyaCore.Index.AddRuns

namespace MiyaCore.ItemSet

section Has
variable {it : ItemSet} {X Y : List (Key × Nat)} {w : Key × Nat} {cs : List Nat}

/-- One pair in the place of another. -/
theorem Has.replace (has : it.Has (X ++ w :: Y) cs) (size : (X ++ w :: Y).length ≤ 3) (z : Key × Nat) :
    ((it.setKey X.length z.1).setDataOptr X.length z.2).Has (X ++ z :: Y) cs := by
  obtain ⟨⟨count, keys⟩, ⟨dataCount, datas⟩, childs⟩ := has_iff.mp has
  simp only [List.length_append, List.length_cons] at size
  rw [List.map_append, List.map_cons, run_append] at keys datas
  have inside : X.length < 3 := by omega
  rw [setKey_eq inside]
  refine has_iff.mpr ⟨⟨by simpa using count, ?_⟩, ⟨by simpa using dataCount, ?_⟩, childs⟩
  · rw [List.map_append, List.map_cons, run_append]
    refine ⟨keys.1.congr fun x below => ?_, by simp, keys.2.2.congr fun x below => ?_⟩
    · rw [List.length_map] at below
      exact if_neg (by omega)
    · rw [List.length_map]
      exact if_neg (by omega)
  · rw [List.map_append, List.map_cons, run_append]
    refine ⟨datas.1.congr fun x below => ?_, by simp, datas.2.2.congr fun x below => ?_⟩
    · rw [List.length_map] at below
      exact if_neg (by omega)
    · rw [List.length_map]
      exact if_neg (by omega)

/-- The pair at an index taken out. -/
theorem Has.erase (has : it.Has (X ++ w :: Y) cs) (size : (X ++ w :: Y).length ≤ 3) :
    ((it.moveDeleteKey X.length).moveDeleteDataOptr X.length).Has (X ++ Y) cs := by
  obtain ⟨⟨count, keys⟩, ⟨dataCount, datas⟩, childs⟩ := has_iff.mp has
  simp only [List.length_append, List.length_cons] at size count dataCount
  rw [moveDeleteKey_eq (by omega) (by omega), moveDeleteDataOptr_eq (by simpa using by omega)]
  rw [List.map_append, List.map_cons] at keys datas
  have keys' := run_slideDown (n := it.keyCount - 1) keys (by simp; omega)
  have datas' := run_slideDown (n := it.dataOptrCount - 1) datas (by simp; omega)
  rw [List.length_map] at keys' datas'
  exact has_iff.mpr ⟨⟨by simp; omega, by simpa using keys'⟩, ⟨by simp; omega, by simpa using datas'⟩, childs⟩

/-- The child at an index taken out. -/
theorem Has.erase_child {A B : List Nat} {c : Nat} (has : it.Has X (A ++ c :: B))
    (size : (A ++ c :: B).length ≤ 4) :
    (it.moveDeleteChildOptr A.length).Has X (A ++ B) := by
  obtain ⟨keys, datas, ⟨count, childs⟩⟩ := has_iff.mp has
  simp only [List.length_append, List.length_cons] at size count
  rw [moveDeleteChildOptr_eq (by omega) (by omega)]
  have childs' := run_slideDown (n := it.childOptrCount - 1) childs (by omega)
  exact has_iff.mpr ⟨keys, datas, by simp; omega, childs'⟩

/-- A pair taken out, and the child after it. -/
theorem Has.erase_after {A B : List Nat} {n c : Nat} (has : it.Has (X ++ w :: Y) (A ++ n :: c :: B))
    (place : A.length = X.length) (size : (X ++ w :: Y).length ≤ 3) (few : (A ++ n :: c :: B).length ≤ 4) :
    ((it.remove X.length).moveDeleteChildOptr (X.length + 1)).Has (X ++ Y) (A ++ n :: B) := by
  have less := Has.erase_child (A := A ++ [n]) (B := B) (c := c) (by simpa using has.erase size)
    (by simpa using few)
  simpa [place, ItemSet.remove] using less

/-- A node with one pair and no children. -/
theorem Has.single (leaf : it.kids = []) (w : Key × Nat) :
    ((((it.setKey 0 w.1).setKeyCount 1).setDataOptr 0 w.2).setDataOptrCount 1).Has [w] [] := by
  have count := it.length_kids
  rw [leaf] at count
  exact has_iff.mpr ⟨⟨rfl, by simp [Run]⟩, ⟨rfl, by simp [Run]⟩, by simpa using count.symm, trivial⟩

/-- A pair let in at an index. -/
def insertAt (it : ItemSet) (i : Nat) (w : Key × Nat) : ItemSet :=
  { it with
    keySlot := slideUp it.keySlot i it.keyCount w.1
    keyCount := it.keyCount + 1
    dataSlot := slideUp it.dataSlot i it.dataOptrCount w.2
    dataOptrCount := it.dataOptrCount + 1 }

theorem Has.insertAt (has : it.Has (X ++ Y) cs) (w : Key × Nat) :
    (it.insertAt X.length w).Has (X ++ w :: Y) cs := by
  obtain ⟨⟨count, keys⟩, ⟨dataCount, datas⟩, childs⟩ := has_iff.mp has
  rw [List.map_append] at keys datas
  have keys' := run_slideUp (n := it.keyCount) keys (by simp [count]) w.1
  have datas' := run_slideUp (n := it.dataOptrCount) datas (by simp [dataCount]) w.2
  rw [List.length_map] at keys' datas'
  exact has_iff.mpr ⟨⟨by simp [ItemSet.insertAt, count]; omega, by simpa [ItemSet.insertAt] using keys'⟩,
    ⟨by simp [ItemSet.insertAt, dataCount]; omega, by simpa [ItemSet.insertAt] using datas'⟩, childs⟩

section Neighbours
variable {A B : List Nat} {c : Nat} (has : it.Has X (A ++ c :: B)) (size : (A ++ c :: B).length ≤ 4)
include has size

/-- The child after a child. -/
theorem Has.child_after : it.childOptr ((A.length + 1) % 65536) = B.head? := by
  simp only [List.length_append, List.length_cons] at size
  rw [Nat.mod_eq_of_lt (by omega)]
  cases B with
  | nil => simp [ItemSet.childOptr, has.childOptrCount]
  | cons b B =>
    have := Has.childOptr (A := A ++ [c]) (c := b) (B := B) (by simpa using has)
    simpa using this

end Neighbours

end Has

end MiyaCore.ItemSet

namespace MiyaCore
open NodeFile ItemSet

theorem childIndex_run {s : IndexFile} {P L : Nat} {xs : List (Key × Nat)} {A B : List Nat}
    (has : (s.node P).Has xs (A ++ L :: B)) (first : L ∉ A) :
    (oNode.childIndex P L).run s = .ok (some A.length, s) := by
  obtain ⟨-, -, ⟨count, childs⟩⟩ := has_iff.mp has
  obtain ⟨front, hit, -⟩ := run_append.mp childs
  have found : (List.range (s.node P).childOptrCount).find? (fun i => (s.node P).childSlot i = L) =
    some A.length := by
    rw [List.find?_range_eq_some]
    refine ⟨by simpa using hit, by simp [count], fun j before => ?_⟩
    have value := front.getElem before
    rw [Nat.zero_add] at value
    simp only [value, Bool.not_eq_true', decide_eq_false_iff_not]
    rintro rfl
    exact first (List.getElem_mem _)
  exact congrArg (fun i => Except.ok (i, s)) found

theorem leftChild_run {s : IndexFile} {P c : Nat} {xs : List (Key × Nat)} {A B : List Nat}
    (has : (s.node P).Has xs (A ++ c :: B)) (size : (A ++ c :: B).length ≤ 4) :
    (oNode.leftChild P A.length).run s = .ok (A.getLast?, s) := by
  rcases A.eq_nil_or_concat with rfl | ⟨A, a, rfl⟩
  · rfl
  · rw [List.concat_eq_append] at has size ⊢
    simp only [List.length_append, List.length_cons, List.length_nil] at size
    have child := Has.childOptr (A := A) (c := a) (B := c :: B) (by simpa using has)
    simp [leftChild, Nat.mod_eq_of_lt (show A.length < 65536 by omega), child]

/-- A neighbour to the left with keys to spare. -/
theorem underflow_left_run {s : IndexFile} {P L left : Nat} {X Y l : List (Key × Nat)} {w z : Key × Nat}
    {A B : List Nat} (has : (s.node P).Has (X ++ w :: Y) (A ++ left :: L :: B))
    (place : A.length = X.length) (size : (X ++ w :: Y).length ≤ 3)
    (fits : (A ++ left :: L :: B).length = (X ++ w :: Y).length + 1) (first : L ∉ A ++ [left])
    (PL : P ≠ L) (Pleft : P ≠ left) (hasLeft : (s.node left).Has (l ++ [z]) [])
    (sizeLeft : (l ++ [z]).length ≤ 3) (spare : l ≠ []) :
    ∃ s', (oNode.underflow P L).run s = .ok (none, s') ∧
      s'.node L = (((((s.node L).setKey 0 w.1).setKeyCount 1).setDataOptr 0 w.2).setDataOptrCount 1) ∧
      s'.node P = ((s.node P).setKey X.length z.1).setDataOptr X.length z.2 ∧
      s'.node left = ((s.node left).moveDeleteKey l.length).moveDeleteDataOptr l.length ∧
      SameBut s s' [P, L, left] := by
  have hasAll : (s.node P).Has (X ++ w :: Y) ((A ++ [left]) ++ L :: B) := by simpa using has
  have index := childIndex_run hasAll first
  simp only [List.length_append, List.length_cons, List.length_nil] at size fits sizeLeft
  have before := leftChild_run hasAll (by simp; omega)
  have after := hasAll.child_after (by simp; omega)
  have leftL : left ≠ L := by
    rintro rfl
    simp at first
  have key := has.rawKey (i := X.length) (by simp; omega) (by simp)
  have data := has.dataOptr (i := X.length) (by simp)
  have keyLeft := hasLeft.rawKey (i := l.length) (by simpa using sizeLeft) (by simp)
  have dataLeft := hasLeft.dataOptr (i := l.length) (by simp)
  have countLeft : (s.node left).keyCount = l.length + 1 := by rw [hasLeft.keyCount]; simp
  have dataCountLeft : (s.node left).dataOptrCount = l.length + 1 := by rw [hasLeft.datas]; simp
  have some : 1 ≤ l.length := List.length_pos_iff.mpr spare
  have dec : dec16 (l.length + 1) = l.length := by
    rw [dec16]
    omega
  simp only [List.getElem_append_right, le_refl, Nat.sub_self, List.getElem_cons_zero]
    at key data keyLeft dataLeft
  simp only [List.length_append, List.length_singleton, place, List.getLast?_append,
    List.getLast?_singleton, Option.some_or] at before after index
  simp [underflow, index, before, countLeft, some, key, data, PL, PL.symm, Pleft, Pleft.symm, leftL,
    leftL.symm, keyLeft, dataLeft, dataCountLeft, dec, run_putData _ P X.length _ (show X.length < 3 by omega)]
  refine ⟨fun q outside => ?_, rfl, rfl⟩
  simp only [List.mem_cons, List.not_mem_nil, or_false, not_or] at outside
  simp [outside]

/-- A neighbour to the right with keys to spare, and none to the left. -/
theorem underflow_right_run {s : IndexFile} {P L right : Nat} {X Y l : List (Key × Nat)}
    {w z : Key × Nat} {A B : List Nat} (has : (s.node P).Has (X ++ w :: Y) (A ++ L :: right :: B))
    (place : A.length = X.length) (size : (X ++ w :: Y).length ≤ 3)
    (fits : (A ++ L :: right :: B).length = (X ++ w :: Y).length + 1) (first : L ∉ A) (PL : P ≠ L)
    (Pright : P ≠ right) (rightL : right ≠ L)
    (small : A.getLast?.elim 0 (fun p => (s.node p).keyCount) < 2)
    (hasRight : (s.node right).Has (z :: l) []) (sizeRight : (z :: l).length ≤ 3) (spare : l ≠ []) :
    ∃ s', (oNode.underflow P L).run s = .ok (none, s') ∧
      s'.node L = (((((s.node L).setKey 0 w.1).setKeyCount 1).setDataOptr 0 w.2).setDataOptrCount 1) ∧
      s'.node P = ((s.node P).setKey X.length z.1).setDataOptr X.length z.2 ∧
      s'.node right = ((s.node right).moveDeleteKey 0).moveDeleteDataOptr 0 ∧ SameBut s s' [P, L, right] := by
  have index := childIndex_run has first
  simp only [List.length_append, List.length_cons] at size fits sizeRight
  have before := leftChild_run has (by simp; omega)
  have after := has.child_after (by simp; omega)
  have key := has.rawKey (i := X.length) (by simp; omega) (by simp)
  have data := has.dataOptr (i := X.length) (by simp)
  have keyRight := hasRight.rawKey (i := 0) (by simpa using sizeRight) (by simp)
  have dataRight := hasRight.dataOptr (i := 0) (by simp)
  have countRight : (s.node right).keyCount = l.length + 1 := by rw [hasRight.keyCount]; simp
  have some : 1 ≤ l.length := List.length_pos_iff.mpr spare
  simp only [List.getElem_append_right, le_refl, Nat.sub_self, List.getElem_cons_zero]
    at key data keyRight dataRight
  simp only [List.head?_cons, place] at before after index
  simp [underflow, index, before, after, countRight, some, key, data, PL, PL.symm, Pright, Pright.symm,
    rightL, rightL.symm, keyRight, dataRight, small.not_ge, run_putData _ P X.length _
    (show X.length < 3 by omega)]
  refine ⟨fun q outside => ?_, rfl, rfl⟩
  simp only [List.mem_cons, List.not_mem_nil, or_false, not_or] at outside
  simp [outside]

/-- Neighbours without keys to spare. -/
theorem underflow_merge_run {s : IndexFile} {P L : Nat} {X : List (Key × Nat)} {A B : List Nat}
    (has : (s.node P).Has X (A ++ L :: B)) (size : (A ++ L :: B).length ≤ 4) (first : L ∉ A)
    (left : A.getLast?.elim 0 (fun p => (s.node p).keyCount) < 2)
    (right : B.head?.elim 0 (fun p => (s.node p).keyCount) < 2) :
    (oNode.underflow P L).run s = (oNode.merge P A.length).run s := by
  have index := childIndex_run has first
  have before := leftChild_run has size
  have after := has.child_after size
  simp [underflow, index, before, after, left.not_ge, right.not_ge]

/-- The last child of a node with one key is joined to the first. -/
theorem merge_left_run {s : IndexFile} {P L left : Nat} {w x : Key × Nat} (has : (s.node P).Has [w] [left, L])
    (hasLeft : (s.node left).Has [x] []) (Pleft : P ≠ left) :
    ∃ s', (oNode.merge P 1).run s = (oNode.mergeUp P).run s' ∧ s'.node left = (s.node left).insertAt 1 w ∧
      s'.node P = ((s.node P).remove 0).moveDeleteChildOptr 1 ∧ SameBut s s' [P, left] := by
  have before := leftChild_run (A := [left]) (B := []) has (by simp)
  have after := Has.child_after (A := [left]) (B := []) has (by simp)
  have key := has.rawKey (i := 0) (by simp) (by simp)
  have data := has.dataOptr (i := 0) (by simp)
  have count := has.keyCount
  have countLeft := hasLeft.keyCount
  have dataCountLeft := hasLeft.datas
  simp at before after key data count countLeft dataCountLeft
  simp [NodeFile.merge, before, key, data, count, countLeft, dataCountLeft, Pleft, Pleft.symm,
    moveInsertKey_eq, moveInsertDataOptr_run]
  refine ⟨_, rfl, ?_, ?_, fun q outside => ?_, rfl, rfl⟩
  · simp [Pleft.symm, insertAt, countLeft, dataCountLeft, setDataOptrCount]
  · simp [Pleft, ItemSet.remove]
  · simp only [List.mem_cons, List.not_mem_nil, or_false, not_or] at outside
    simp [outside]

/-- The first child of a node with one key is joined to the last. -/
theorem merge_right_run {s : IndexFile} {P L right : Nat} {w x : Key × Nat}
    (has : (s.node P).Has [w] [L, right]) (hasRight : (s.node right).Has [x] []) (Pright : P ≠ right) :
    ∃ s', (oNode.merge P 0).run s = (oNode.mergeUp P).run s' ∧ s'.node right = (s.node right).insertAt 0 w ∧
      s'.node P = ((s.node P).remove 0).moveDeleteChildOptr 0 ∧ SameBut s s' [P, right] := by
  have before := leftChild_run (A := []) (B := [right]) has (by simp)
  have after := Has.child_after (A := []) (B := [right]) has (by simp)
  have key := has.rawKey (i := 0) (by simp) (by simp)
  have data := has.dataOptr (i := 0) (by simp)
  have count := has.keyCount
  have countRight := hasRight.keyCount
  have dataCountRight := hasRight.datas
  simp at before after key data count countRight dataCountRight
  simp [NodeFile.merge, before, after, key, data, count, countRight, dataCountRight, Pright,
    Pright.symm, moveInsertKey_eq, moveInsertDataOptr_run]
  refine ⟨_, rfl, ?_, ?_, fun q outside => ?_, rfl, rfl⟩
  · simp [Pright.symm, insertAt, countRight, dataCountRight, setDataOptrCount]
  · simp [Pright, ItemSet.remove]
  · simp only [List.mem_cons, List.not_mem_nil, or_false, not_or] at outside
    simp [outside]

/-- An emptied root is left to its child. -/
theorem mergeUp_root_run {s : IndexFile} {P n : Nat} (has : (s.node P).Has [] [n])
    (isRoot : (s.node P).parent = 0) :
    (oNode.mergeUp P).run s = .ok (some n, put s n ((s.node n).setParent 0)) := by
  have child := Has.childOptr (A := []) (B := []) has
  simp at child
  simp [mergeUp, isRoot, dropRoot, child, edit_eq_put]

/-- `mergeUp` below the root goes on at the parent, at the place of the node. -/
theorem mergeUp_eq {s : IndexFile} {G P : Nat} {A B : List Nat} {xs : List (Key × Nat)}
    (parent : (s.node P).parent = G) (notRoot : G ≠ 0) (hasG : (s.node G).Has xs (A ++ P :: B)) (first : P ∉ A) :
    (oNode.mergeUp P).run s = (oNode.recursiveMerge G A.length).run s := by
  have index := childIndex_run hasG first
  simp [mergeUp, parent, notRoot, index]

/-- An emptied node is joined to the neighbour on its left, which has one key. -/
theorem recursiveMerge_left_run {s : IndexFile} {G Q P n : Nat} {X Y : List (Key × Nat)} {w x : Key × Nat}
    {A B cs : List Nat} (hasG : (s.node G).Has (X ++ w :: Y) (A ++ Q :: P :: B)) (place : A.length = X.length)
    (size : (X ++ w :: Y).length ≤ 3) (fits : (A ++ Q :: P :: B).length = (X ++ w :: Y).length + 1)
    (QP : Q ≠ P) (hasQ : (s.node Q).Has [x] cs) (sizeQ : cs.length = 2)
    (hasP : (s.node P).Has [] [n]) (right : B.head?.elim 0 (fun p => (s.node p).keyCount) < 2)
    (GQ : G ≠ Q) (GP : G ≠ P) (nQ : n ≠ Q) (nG : n ≠ G) :
    ∃ s', (oNode.recursiveMerge G (A.length + 1)).run s =
        (if X ++ Y = [] then (some <$> oNode.dropRoot G).run s' else .ok (none, s')) ∧
      s'.node Q = { (s.node Q).insertAt 1 w with childSlot := slideUp (s.node Q).childSlot 2 2 n, childOptrCount := 3 } ∧
      s'.node G = ((s.node G).remove X.length).moveDeleteChildOptr (X.length + 1) ∧
      s'.node n = (s.node n).setParent Q ∧ SameBut s s' [G, Q, n] := by
  have hasAll : (s.node G).Has (X ++ w :: Y) ((A ++ [Q]) ++ P :: B) := by simpa using hasG
  simp only [List.length_append, List.length_cons] at size fits
  have before := leftChild_run hasAll (by simp; omega)
  have after := hasAll.child_after (by simp; omega)
  have target := hasAll.childOptr
  have key := hasG.rawKey (i := X.length) (by simp; omega) (by simp)
  have data := hasG.dataOptr (i := X.length) (by simp)
  have countQ := hasQ.keyCount
  have dataCountQ := hasQ.datas
  have childCountQ := hasQ.childOptrCount
  have childP := Has.childOptr (A := []) (B := []) hasP
  have countG := hasG.keyCount
  simp only [List.getElem_append_right, le_refl, Nat.sub_self, List.getElem_cons_zero] at key data
  simp only [List.length_append, place, List.getLast?_append, List.getLast?_singleton, Option.some_or,
    List.length_cons, List.length_nil, sizeQ] at before after target countQ dataCountQ childCountQ childP countG
  have small : (X.length + 1) % 65536 = X.length + 1 := Nat.mod_eq_of_lt (by omega)
  have some : (s.node G).keyCount ≠ 0 := by omega
  have emptied : ((((s.node G).moveDeleteKey X.length).moveDeleteDataOptr X.length).moveDeleteChildOptr
      (X.length + 1)).keyCount = 0 ↔
      X = [] ∧ Y = [] := by
    have datas := hasG.datas
    have childs := hasG.childOptrCount
    simp only [List.length_append, List.length_cons] at datas childs
    rw [moveDeleteKey_eq (by omega) (by omega), moveDeleteDataOptr_eq (by simp; omega),
      moveDeleteChildOptr_eq (by simp; omega) (by simp; omega), ← List.length_eq_zero_iff,
      ← List.length_eq_zero_iff]
    simp only [countG]
    omega
  simp [recursiveMerge, place, small, some, target, before, after,
    right.not_ge, countQ, key, data, GQ, GQ.symm, GP.symm, QP.symm, moveInsertKey_eq,
    moveInsertDataOptr_run, dataCountQ, childP, childCountQ]
  simp [setDataOptrCount, setChildOptrCount, moveInsertChildOptr_eq, ItemSet.childOptr, slideUp,
    nG.symm, GQ, emptied]
  by_cases none : X = [] ∧ Y = []
  all_goals
    simp only [none, if_false]
    refine ⟨_, rfl, ?_, ?_, ?_, fun q outside => ?_, rfl, rfl⟩
    · simp [GQ.symm, nQ.symm, insertAt, countQ, dataCountQ, childCountQ, moveInsertChildOptr_eq]
    · simp [GQ, nG.symm, ItemSet.remove]
    · simp [nG, nQ]
    · simp only [List.mem_cons, List.not_mem_nil, or_false, not_or] at outside
      simp [outside]

/-- The same from the emptied node on. -/
theorem mergeUp_left_run {s : IndexFile} {G Q P n : Nat} {X Y : List (Key × Nat)} {w x : Key × Nat}
    {A B cs : List Nat} (parent : (s.node P).parent = G) (notRoot : G ≠ 0)
    (hasG : (s.node G).Has (X ++ w :: Y) (A ++ Q :: P :: B)) (place : A.length = X.length)
    (size : (X ++ w :: Y).length ≤ 3) (fits : (A ++ Q :: P :: B).length = (X ++ w :: Y).length + 1)
    (first : P ∉ A ++ [Q]) (hasQ : (s.node Q).Has [x] cs) (sizeQ : cs.length = 2)
    (hasP : (s.node P).Has [] [n]) (right : B.head?.elim 0 (fun p => (s.node p).keyCount) < 2)
    (GQ : G ≠ Q) (GP : G ≠ P) (nQ : n ≠ Q) (nG : n ≠ G) :
    ∃ s', (oNode.mergeUp P).run s = (if X ++ Y = [] then (some <$> oNode.dropRoot G).run s' else .ok (none, s')) ∧
      s'.node Q = { (s.node Q).insertAt 1 w with childSlot := slideUp (s.node Q).childSlot 2 2 n, childOptrCount := 3 } ∧
      s'.node G = ((s.node G).remove X.length).moveDeleteChildOptr (X.length + 1) ∧
      s'.node n = (s.node n).setParent Q ∧ SameBut s s' [G, Q, n] := by
  have hasAll : (s.node G).Has (X ++ w :: Y) ((A ++ [Q]) ++ P :: B) := by simpa using hasG
  have QP : Q ≠ P := by
    rintro rfl
    simp at first
  rw [mergeUp_eq parent notRoot hasAll first, List.length_append, List.length_singleton]
  exact recursiveMerge_left_run hasG place size fits QP hasQ sizeQ hasP right GQ GP nQ nG

end MiyaCore
