import MiyaCore.Index.RemoveRuns

/-!
# The other merges

What a merge leaves below a node that keeps a key, and what it does to a node without keys whose
neighbours are not as the last merge expects them.
-/

namespace MiyaCore
open NodeFile ItemSet

theorem slideUp_last {α : Type} (f : Nat → α) (n : Nat) (a : α) :
    slideUp f n n a = fun j => if j = n then a else f j := by
  funext j
  rw [slideUp, lift_of_le f le_rfl]

/-- A child is taken from a node with keys to spare, and the key before it put to its left neighbour. -/
theorem merge_spare_left_run {s : IndexFile} {P L left : Nat} {X Y : List (Key × Nat)} {w x : Key × Nat}
    {A B : List Nat} (has : (s.node P).Has (X ++ w :: Y) (A ++ left :: L :: B))
    (place : A.length = X.length) (size : (X ++ w :: Y).length ≤ 3)
    (fits : (A ++ left :: L :: B).length = (X ++ w :: Y).length + 1) (spare : 2 ≤ (X ++ w :: Y).length)
    (hasLeft : (s.node left).Has [x] []) (Pleft : P ≠ left) :
    ∃ s', (oNode.merge P (X.length + 1)).run s = .ok (none, s') ∧ s'.node left = (s.node left).insertAt 1 w ∧
      s'.node P = ((s.node P).moveDeleteChildOptr (X.length + 1)).moveDeleteKey X.length ∧
      SameBut s s' [P, left] := by
  have hasAll : (s.node P).Has (X ++ w :: Y) ((A ++ [left]) ++ L :: B) := by simpa using has
  simp only [List.length_append, List.length_cons] at size fits spare
  have before := leftChild_run hasAll (by simp; omega)
  have key := has.rawKey (i := X.length) (by simp; omega) (by simp)
  have data := has.dataOptr (i := X.length) (by simp)
  have count := has.keyCount
  have childCount := has.childOptrCount
  have countLeft := hasLeft.keyCount
  have dataCountLeft := hasLeft.datas
  simp only [List.getElem_append_right, le_refl, Nat.sub_self, List.getElem_cons_zero,
    List.length_append, place, List.getLast?_append, List.getLast?_singleton, Option.some_or,
    List.length_cons, List.length_nil] at before key data count childCount countLeft dataCountLeft
  have many : 2 ≤ (s.node P).keyCount := by omega
  have moved : ((s.node P).moveDeleteChildOptr (X.length + 1)).rawKey X.length =
    (s.node P).rawKey X.length := by
    rw [moveDeleteChildOptr_eq (by omega) (by omega), rawKey_eq (by simp; omega) (by omega),
      rawKey_eq (by omega) (by omega)]
  have movedData : ((s.node P).moveDeleteChildOptr (X.length + 1)).dataOptr X.length = some w.2 := by
    rw [moveDeleteChildOptr_eq (by omega) (by omega)]
    exact data
  simp [NodeFile.merge, before, many, Pleft, Pleft.symm, moved, movedData, key, countLeft, dataCountLeft,
    run_putData _ left 1 _ (by omega)]
  refine ⟨?_, fun q outside => ?_, rfl, rfl⟩
  · simp [insertAt, countLeft, dataCountLeft, slideUp_last, setKey_eq, setKeyCount, setDataOptrCount,
      ItemSet.setDataOptr]
  · simp only [List.mem_cons, List.not_mem_nil, or_false, not_or] at outside
    simp [outside]

/-- A pair let in at the front, its data pointer not counted. -/
def ItemSet.pushUncounted (it : ItemSet) (w : Key × Nat) : ItemSet :=
  { it with
    keySlot := slideUp it.keySlot 0 it.keyCount w.1
    keyCount := it.keyCount + 1
    dataSlot := slideUp it.dataSlot 0 it.dataOptrCount w.2 }

/-- The first child is taken from a node with keys to spare, and the key after it put to its right neighbour. -/
theorem merge_spare_right_run {s : IndexFile} {P L right : Nat} {Y : List (Key × Nat)} {w x : Key × Nat}
    {B : List Nat} (has : (s.node P).Has (w :: Y) (L :: right :: B)) (size : (w :: Y).length ≤ 3)
    (fits : (L :: right :: B).length = (w :: Y).length + 1) (spare : 2 ≤ (w :: Y).length)
    (hasRight : (s.node right).Has [x] []) (Pright : P ≠ right) :
    ∃ s', (oNode.merge P 0).run s = .ok (none, s') ∧ s'.node right = (s.node right).pushUncounted w ∧
      s'.node P = ((s.node P).moveDeleteChildOptr 0).moveDeleteKey 0 ∧ SameBut s s' [P, right] := by
  simp only [List.length_cons] at size fits spare
  have before := leftChild_run (A := []) has (by simp; omega)
  have after := Has.child_after (A := []) has (by simp; omega)
  have key := has.rawKey (i := 0) (by simp; omega) (by simp)
  have data := has.dataOptr (i := 0) (by simp)
  have count := has.keyCount
  have childCount := has.childOptrCount
  have countRight := hasRight.keyCount
  have dataCountRight := hasRight.datas
  simp at before after key data count childCount countRight dataCountRight
  have many : 2 ≤ (s.node P).keyCount := by omega
  have moved : ((s.node P).moveDeleteChildOptr 0).rawKey 0 = (s.node P).rawKey 0 := by
    rw [moveDeleteChildOptr_eq (by omega) (by omega), rawKey_eq (by simp) (by omega),
      rawKey_eq (by omega) (by omega)]
  have movedData : ((s.node P).moveDeleteChildOptr 0).dataOptr 0 = some w.2 := by
    rw [moveDeleteChildOptr_eq (by omega) (by omega)]
    exact data
  simp [NodeFile.merge, before, after, many, Pright, Pright.symm, moved, movedData, key, countRight,
    dataCountRight, moveInsertKey_eq, moveInsertDataOptr_run]
  refine ⟨?_, fun q outside => ?_, rfl, rfl⟩
  · simp [pushUncounted, countRight, dataCountRight, setDataOptrCount]
  · simp only [List.mem_cons, List.not_mem_nil, or_false, not_or] at outside
    simp [outside]

/-- With keys to spare in the neighbour on the left the merge takes a child past its last. -/
theorem recursiveMerge_spare_left_run {s : IndexFile} {G P Q : Nat} {A B cs : List Nat}
    {xs ys : List (Key × Nat)} (hasG : (s.node G).Has xs (A ++ P :: B)) (size : xs.length ≤ 3)
    (fits : (A ++ P :: B).length = xs.length + 1) (filled : xs ≠ []) (left : A.getLast? = some Q)
    (hasQ : (s.node Q).Has ys cs) (spare : 2 ≤ ys.length) (sizeQ : ys.length ≤ 3) (few : cs.length ≤ 4)
    (PQ : P ≠ Q) (GP : G ≠ P) (GQ : G ≠ Q) :
    (oNode.recursiveMerge G A.length).run s = .error .nullPointer := by
  simp only [List.length_append, List.length_cons] at fits
  have before := leftChild_run hasG (by simp; omega)
  have target := hasG.childOptr
  have inside := List.length_pos_iff.mpr filled
  have key := hasG.rawKey size (i := 0) inside
  have count := hasG.keyCount
  have countQ := hasQ.keyCount
  have dataCountQ := hasQ.datas
  have childCountQ := hasQ.childOptrCount
  have index : A.length % 65536 = A.length := Nat.mod_eq_of_lt (by omega)
  obtain ⟨k, raw⟩ : ∃ k, (s.node Q).rawKey ys.length = some k := by simp [ItemSet.rawKey, countQ]
  have past : (((s.node Q).moveDeleteKey ys.length).moveDeleteDataOptr ys.length).childOptrCount =
    cs.length := by
    rw [moveDeleteKey_eq (by omega) (by omega), moveDeleteDataOptr_eq (by simp; omega), ← childCountQ]
  have none : (((s.node Q).moveDeleteKey ys.length).moveDeleteDataOptr ys.length).childOptr
    (cs.length % 65536) = Option.none := by
    rw [ItemSet.childOptr, past, Nat.mod_eq_of_lt (by omega), if_pos le_rfl]
  simp [recursiveMerge, index, target, before, left, spare, key, count, filled, GP, PQ.symm, GQ.symm,
    countQ, dataCountQ, raw, past, none]
  rfl

/-- The same from the emptied node on. -/
theorem mergeUp_spare_left_run {s : IndexFile} {G P Q : Nat} {A B cs : List Nat} {xs ys : List (Key × Nat)}
    (parent : (s.node P).parent = G) (notRoot : G ≠ 0) (hasG : (s.node G).Has xs (A ++ P :: B))
    (size : xs.length ≤ 3) (fits : (A ++ P :: B).length = xs.length + 1) (filled : xs ≠ []) (first : P ∉ A)
    (left : A.getLast? = some Q) (hasQ : (s.node Q).Has ys cs) (spare : 2 ≤ ys.length)
    (sizeQ : ys.length ≤ 3) (few : cs.length ≤ 4) (PQ : P ≠ Q) (GP : G ≠ P) (GQ : G ≠ Q) :
    (oNode.mergeUp P).run s = .error .nullPointer := by
  rw [mergeUp_eq parent notRoot hasG first]
  exact recursiveMerge_spare_left_run hasG size fits filled left hasQ spare sizeQ few PQ GP GQ

/-- A node with one pair, its children as they were. -/
def ItemSet.onePair (it : ItemSet) (w : Key × Nat) : ItemSet :=
  (((it.setKey 0 w.1).setKeyCount 1).setDataOptr 0 w.2).setDataOptrCount 1

/-- An emptied node with a pair, whose data pointer is not counted, and a second child. -/
def ItemSet.refilled (it : ItemSet) (w : Key × Nat) (c : Nat) : ItemSet :=
  { ((it.setKey 0 w.1).setKeyCount 1).setDataOptr 0 w.2 with
    childSlot := slideUp it.childSlot 1 1 c
    childOptrCount := 2 }

/-- With keys to spare in the neighbour on the right, and none on the left, its first child is handed on. -/
theorem recursiveMerge_spare_right_run {s : IndexFile} {G P R n c : Nat} {A B cs : List Nat}
    {xs l : List (Key × Nat)} {w z : Key × Nat}
    (hasG : (s.node G).Has (w :: xs) (A ++ P :: R :: B)) (size : (w :: xs).length ≤ 3)
    (fits : (A ++ P :: R :: B).length = (w :: xs).length + 1)
    (left : A.getLast?.elim 0 (fun p => (s.node p).keyCount) < 2)
    (hasR : (s.node R).Has (z :: l) (c :: cs)) (sizeR : (z :: l).length ≤ 3) (spare : l ≠ [])
    (hasP : (s.node P).Has [] [n]) (GP : G ≠ P) (GR : G ≠ R) (PR : P ≠ R) (cG : c ≠ G) (cP : c ≠ P)
    (cR : c ≠ R) :
    ∃ s', (oNode.recursiveMerge G A.length).run s = .ok (none, s') ∧ s'.node P = (s.node P).refilled w c ∧
      s'.node G = (s.node G).onePair z ∧
      s'.node R = (((s.node R).moveDeleteKey 0).moveDeleteDataOptr 0).moveDeleteChildOptr 0 ∧
      s'.node c = (s.node c).setParent P ∧
      SameBut s s' [G, P, R, c] := by
  simp only [List.length_append, List.length_cons] at fits size sizeR
  have before := leftChild_run hasG (by simp; omega)
  have after := hasG.child_after (by simp; omega)
  have target := hasG.childOptr
  have key := hasG.rawKey (i := 0) (by simpa using size) (by simp)
  have data := hasG.dataOptr (i := 0) (by simp)
  have count := hasG.keyCount
  have keyR := hasR.rawKey (i := 0) (by simpa using sizeR) (by simp)
  have dataR := hasR.dataOptr (i := 0) (by simp)
  have childR := Has.childOptr (A := []) hasR
  have countR := hasR.keyCount
  have countP := hasP.keyCount
  have childCountP := hasP.childOptrCount
  have index : A.length % 65536 = A.length := Nat.mod_eq_of_lt (by omega)
  have many : 1 ≤ l.length := List.length_pos_iff.mpr spare
  simp at after key data keyR dataR childR countR countP childCountP
  have childCountR := hasR.childOptrCount
  have dataG : ((s.node G).setKeyCount 0).dataOptr 0 = some w.2 := data
  have movedR : (((s.node R).moveDeleteKey 0).moveDeleteDataOptr 0).childOptr 0 = some c := by
    rw [moveDeleteKey_eq (by omega) (by omega), moveDeleteDataOptr_eq (by simp [hasR.datas])]
    exact childR
  simp [recursiveMerge, edit_eq_put, index, target, before, after, left.not_ge, many, key, dataG, count,
    GP, GP.symm, GR, GR.symm, PR, PR.symm, countR, keyR, dataR, movedR, countP, childCountP,
    moveInsertChildOptr_eq]
  simp [setChildOptrCount, ItemSet.childOptr, slideUp, cG, cG.symm, cP, cP.symm, cR, cR.symm, GP, GR,
    PR, PR.symm]
  refine ⟨?_, ?_, fun q outside => ?_, rfl, rfl⟩
  · simp [refilled, setKey_eq, setKeyCount, ItemSet.setDataOptr]
  · simp [onePair, setKey_eq, setKeyCount, setDataOptrCount, ItemSet.setDataOptr]
  · simp only [List.mem_cons, List.not_mem_nil, or_false, not_or] at outside
    simp [outside]

/-- The same from the emptied node on. -/
theorem mergeUp_spare_right_run {s : IndexFile} {G P R n c : Nat} {A B cs : List Nat}
    {xs l : List (Key × Nat)} {w z : Key × Nat} (parent : (s.node P).parent = G) (notRoot : G ≠ 0)
    (hasG : (s.node G).Has (w :: xs) (A ++ P :: R :: B)) (size : (w :: xs).length ≤ 3)
    (fits : (A ++ P :: R :: B).length = (w :: xs).length + 1) (first : P ∉ A)
    (left : A.getLast?.elim 0 (fun p => (s.node p).keyCount) < 2)
    (hasR : (s.node R).Has (z :: l) (c :: cs)) (sizeR : (z :: l).length ≤ 3) (spare : l ≠ [])
    (hasP : (s.node P).Has [] [n]) (GP : G ≠ P) (GR : G ≠ R) (PR : P ≠ R) (cG : c ≠ G) (cP : c ≠ P)
    (cR : c ≠ R) :
    ∃ s', (oNode.mergeUp P).run s = .ok (none, s') ∧ s'.node P = (s.node P).refilled w c ∧
      s'.node G = (s.node G).onePair z ∧
      s'.node R = (((s.node R).moveDeleteKey 0).moveDeleteDataOptr 0).moveDeleteChildOptr 0 ∧
      s'.node c = (s.node c).setParent P ∧
      SameBut s s' [G, P, R, c] := by
  rw [mergeUp_eq parent notRoot hasG first]
  exact recursiveMerge_spare_right_run hasG size fits left hasR sizeR spare hasP GP GR PR cG cP cR

/-- An emptied node first below its parent is joined to the neighbour on its right, which has one key:
the child it hands on keeps its parent, and the last child of the neighbour is told its own once more. -/
theorem recursiveMerge_right_run {s : IndexFile} {G P R n c₀ c₁ : Nat} {B : List Nat} {ys : List (Key × Nat)}
    {w x : Key × Nat} (hasG : (s.node G).Has (w :: ys) (P :: R :: B)) (size : (w :: ys).length ≤ 3)
    (fits : (P :: R :: B).length = (w :: ys).length + 1) (hasR : (s.node R).Has [x] [c₀, c₁])
    (hasP : (s.node P).Has [] [n]) (GP : G ≠ P) (GR : G ≠ R) (PR : P ≠ R) (cG : c₁ ≠ G) (cR : c₁ ≠ R) :
    ∃ s', (oNode.recursiveMerge G 0).run s =
        (if ys = [] then (some <$> oNode.dropRoot G).run s' else .ok (none, s')) ∧
      s'.node R = { (s.node R).insertAt 0 w with
        childSlot := slideUp (s.node R).childSlot 0 2 n, childOptrCount := 3 } ∧
      s'.node G = ((s.node G).remove 0).moveDeleteChildOptr 0 ∧ s'.node c₁ = (s.node c₁).setParent R ∧
      SameBut s s' [G, R, c₁] := by
  simp only [List.length_cons] at fits size
  have before := leftChild_run (A := []) hasG (by simp; omega)
  have after := Has.child_after (A := []) hasG (by simp; omega)
  have target := Has.childOptr (A := []) hasG
  have key := hasG.rawKey (i := 0) (by simpa using size) (by simp)
  have data := hasG.dataOptr (i := 0) (by simp)
  have count := hasG.keyCount
  have countR := hasR.keyCount
  have dataCountR := hasR.datas
  have childCountR := hasR.childOptrCount
  have childP := Has.childOptr (A := []) hasP
  have lastR := Has.childOptr (A := [c₀]) (c := c₁) (B := []) hasR
  simp at before after target key data count countR dataCountR childCountR childP lastR
  have lastSlot : (s.node R).childSlot 1 = c₁ := by simpa [ItemSet.childOptr, childCountR] using lastR
  have emptied : ((((s.node G).moveDeleteKey 0).moveDeleteDataOptr 0).moveDeleteChildOptr 0).keyCount =
    0 ↔ ys = [] := by
    have datas := hasG.datas
    have childs := hasG.childOptrCount
    simp only [List.length_cons] at datas childs
    rw [moveDeleteKey_eq (by omega) (by omega), moveDeleteDataOptr_eq (by simp; omega),
      moveDeleteChildOptr_eq (by simp; omega) (by simp; omega), ← List.length_eq_zero_iff]
    simp only [count]
    omega
  simp [recursiveMerge, edit_eq_put, target, before, after, key, data, count, countR, dataCountR,
    childCountR, childP, GR, GR.symm, GP.symm, PR, moveInsertKey_eq, moveInsertDataOptr_run]
  simp [setDataOptrCount, setChildOptrCount, moveInsertChildOptr_eq, ItemSet.childOptr, slideUp, lift,
    lastSlot, cG, cG.symm, cR, GR, emptied]
  by_cases none : ys = []
  all_goals
    simp only [none, if_true, if_false]
    refine ⟨_, rfl, ?_, ?_, ?_, fun q outside => ?_, rfl, rfl⟩
    · simp [insertAt, countR, dataCountR, cR.symm, GR.symm]
    · simp [ItemSet.remove]
    · simp [cG]
    · simp only [List.mem_cons, List.not_mem_nil, or_false, not_or] at outside
      simp [outside]

/-- The same from the emptied node on. -/
theorem mergeUp_right_run {s : IndexFile} {G P R n c₀ c₁ : Nat} {B : List Nat} {ys : List (Key × Nat)}
    {w x : Key × Nat} (parent : (s.node P).parent = G) (notRoot : G ≠ 0)
    (hasG : (s.node G).Has (w :: ys) (P :: R :: B)) (size : (w :: ys).length ≤ 3)
    (fits : (P :: R :: B).length = (w :: ys).length + 1) (hasR : (s.node R).Has [x] [c₀, c₁])
    (hasP : (s.node P).Has [] [n]) (GP : G ≠ P) (GR : G ≠ R) (PR : P ≠ R) (cG : c₁ ≠ G) (cR : c₁ ≠ R) :
    ∃ s', (oNode.mergeUp P).run s =
        (if ys = [] then (some <$> oNode.dropRoot G).run s' else .ok (none, s')) ∧
      s'.node R = { (s.node R).insertAt 0 w with
        childSlot := slideUp (s.node R).childSlot 0 2 n, childOptrCount := 3 } ∧
      s'.node G = ((s.node G).remove 0).moveDeleteChildOptr 0 ∧ s'.node c₁ = (s.node c₁).setParent R ∧
      SameBut s s' [G, R, c₁] := by
  rw [mergeUp_eq (A := []) parent notRoot hasG (by simp)]
  exact recursiveMerge_right_run hasG size fits hasR hasP GP GR PR cG cR

end MiyaCore
