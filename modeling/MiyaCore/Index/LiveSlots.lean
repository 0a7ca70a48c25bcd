import MiyaCore.Index.MergeRuns

/-!
# Live slots

The slots of a node below its counts. An operation is blind to the others if nodes that agree
below their counts do so afterwards.
-/

namespace MiyaCore

namespace ItemSet

theorem map_range_eq_iff {α : Type} {f f' : Nat → α} {n n' : Nat} :
    (List.range n).map f = (List.range n').map f' ↔ n = n' ∧ ∀ i < n, f i = f' i := by
  constructor
  · intro same
    obtain rfl : n = n' := by simpa using congrArg List.length same
    exact ⟨rfl, fun i below => List.map_inj_left.mp same i (List.mem_range.mpr below)⟩
  · rintro ⟨rfl, same⟩
    exact List.map_congr_left fun i member => same i (List.mem_range.mp member)

/-- Two nodes that agree below their counts. -/
structure Alike (it it' : ItemSet) : Prop where
  parent : it'.parent = it.parent
  keyCount : it'.keyCount = it.keyCount
  keySlot : ∀ i < it.keyCount, it'.keySlot i = it.keySlot i
  childOptrCount : it'.childOptrCount = it.childOptrCount
  childSlot : ∀ i < it.childOptrCount, it'.childSlot i = it.childSlot i
  dataOptrCount : it'.dataOptrCount = it.dataOptrCount
  dataSlot : ∀ i < it.dataOptrCount, it'.dataSlot i = it.dataSlot i

instance (it it' : ItemSet) : Decidable (Alike it it') :=
  decidable_of_iff (it'.parent = it.parent ∧ (it'.keyCount = it.keyCount ∧ ∀ i < it.keyCount,
  it'.keySlot i = it.keySlot i) ∧
      (it'.childOptrCount = it.childOptrCount ∧ ∀ i < it.childOptrCount, it'.childSlot i = it.childSlot i) ∧
      it'.dataOptrCount = it.dataOptrCount ∧ ∀ i < it.dataOptrCount, it'.dataSlot i = it.dataSlot i)
    ⟨fun ⟨parent, ⟨keyCount, keySlot⟩, ⟨childOptrCount, childSlot⟩, dataOptrCount, dataSlot⟩ =>
      ⟨parent, keyCount, keySlot, childOptrCount, childSlot, dataOptrCount, dataSlot⟩,
    fun alike => ⟨alike.parent, ⟨alike.keyCount, alike.keySlot⟩,
      ⟨alike.childOptrCount, alike.childSlot⟩, alike.dataOptrCount, alike.dataSlot⟩⟩

theorem Alike.refl (it : ItemSet) : Alike it it :=
  ⟨rfl, rfl, fun _ _ => rfl, rfl, fun _ _ => rfl, rfl, fun _ _ => rfl⟩

theorem slideDown_congr {α : Type} {f f' : Nat → α} {i n : Nat} (same : ∀ j < n + 1, f' j = f j) :
    ∀ j < n, slideDown f' i n j = slideDown f i n j := by
  intro j below
  rw [slideDown, slideDown, same j (by omega)]
  split_ifs
  · exact same (j + 1) (by omega)
  · rfl

theorem slideUp_congr {α : Type} {f f' : Nat → α} {i n : Nat} (inside : i ≤ n)
    (same : ∀ j < n, f' j = f j) (a : α) :
    ∀ j < n + 1, slideUp f' i n a j = slideUp f i n a j := by
  intro j below
  simp only [slideUp, lift]
  split_ifs
  · rfl
  · exact same (j - 1) (by omega)
  · exact same j (by omega)

theorem slideUp_mem {α : Type} {f : Nat → α} {i n : Nat} (inside : i ≤ n) (a : α) :
    ∀ j < n + 1, slideUp f i n a j = a ∨ ∃ j' < n, slideUp f i n a j = f j' := by
  intro j below
  simp only [slideUp, lift]
  split_ifs
  · exact Or.inl rfl
  · exact Or.inr ⟨j - 1, by omega, rfl⟩
  · exact Or.inr ⟨j, by omega, rfl⟩

namespace Alike
variable {it it' : ItemSet} (alike : Alike it it')
include alike

theorem items (even : it.dataOptrCount = it.keyCount) : it'.items = it.items := by
  simp only [ItemSet.items, map_range_eq_iff]
  refine ⟨alike.keyCount, fun i below => ?_⟩
  rw [alike.keyCount] at below
  rw [alike.keySlot i below, alike.dataSlot i (even ▸ below)]

theorem kids : it'.kids = it.kids := by
  rw [ItemSet.kids, ItemSet.kids, map_range_eq_iff, alike.childOptrCount]
  exact ⟨rfl, alike.childSlot⟩

theorem has {xs : List (Key × Nat)} {cs : List Nat} (has : it.Has xs cs) : it'.Has xs cs := by
  refine ⟨?_, alike.kids.trans has.kids, alike.dataOptrCount.trans has.datas⟩
  rw [alike.items (has.datas.trans has.keyCount.symm), has.items]

theorem rawKey {i : Nat} (below : i < it.keyCount) (inside : i < 3) : it'.rawKey i = it.rawKey i := by
  rw [rawKey_eq (by rw [alike.keyCount]; exact below.le) inside, rawKey_eq below.le inside,
    alike.keySlot i below]

theorem childOptr (i : Nat) : it'.childOptr i = it.childOptr i := by
  rw [ItemSet.childOptr, ItemSet.childOptr, alike.childOptrCount]
  split_ifs with past
  · rfl
  · rw [alike.childSlot i (by omega)]

theorem dataOptr {i : Nat} (below : i < it.dataOptrCount) : it'.dataOptr i = it.dataOptr i := by
  rw [dataOptr_eq (by rw [alike.dataOptrCount]; exact below.le), dataOptr_eq below.le, alike.dataSlot i below]

theorem findIndex (small : it.keyCount ≤ 3) (k : Key) : it'.findIndex k = it.findIndex k := by
  rw [ItemSet.findIndex, ItemSet.findIndex, alike.keyCount]
  rw [← List.head?_filter, ← List.head?_filter]
  refine congrArg List.head? (List.filter_congr fun i member => ?_)
  have below := List.mem_range.mp member
  rw [alike.rawKey below (by omega)]

theorem setParent (target : Nat) : Alike (it.setParent target) (it'.setParent target) :=
  ⟨rfl, alike.keyCount, alike.keySlot, alike.childOptrCount, alike.childSlot, alike.dataOptrCount,
  alike.dataSlot⟩

theorem setKey {i : Nat} (inside : i < 3) (k : Key) : Alike (it.setKey i k) (it'.setKey i k) := by
  rw [setKey_eq inside, setKey_eq inside]
  refine ⟨alike.parent, alike.keyCount, fun j below => ?_, alike.childOptrCount, alike.childSlot,
    alike.dataOptrCount, alike.dataSlot⟩
  simp only
  split_ifs
  · rfl
  · exact alike.keySlot j below

theorem setDataOptr (i d : Nat) : Alike (it.setDataOptr i d) (it'.setDataOptr i d) := by
  refine ⟨alike.parent, alike.keyCount, alike.keySlot, alike.childOptrCount, alike.childSlot,
    alike.dataOptrCount, fun j below => ?_⟩
  simp only [setDataOptr_dataSlot]
  split_ifs
  · rfl
  · exact alike.dataSlot j below

theorem moveDeleteKey (filled : 1 ≤ it.keyCount) (size : it.keyCount ≤ 3) (i : Nat) :
    Alike (it.moveDeleteKey i) (it'.moveDeleteKey i) := by
  rw [moveDeleteKey_eq filled size, moveDeleteKey_eq (by rwa [alike.keyCount])
    (by rwa [alike.keyCount]), alike.keyCount]
  refine ⟨alike.parent, rfl, slideDown_congr fun j (below : j < it.keyCount - 1 + 1) => alike.keySlot j
    (by omega), alike.childOptrCount, alike.childSlot, alike.dataOptrCount, alike.dataSlot⟩

theorem moveDeleteDataOptr (filled : 1 ≤ it.dataOptrCount) (i : Nat) :
    Alike (it.moveDeleteDataOptr i) (it'.moveDeleteDataOptr i) := by
  rw [moveDeleteDataOptr_eq filled, moveDeleteDataOptr_eq (by rwa [alike.dataOptrCount]), alike.dataOptrCount]
  exact ⟨alike.parent, alike.keyCount, alike.keySlot, alike.childOptrCount, alike.childSlot, rfl,
    slideDown_congr fun j (below : j < it.dataOptrCount - 1 + 1) => alike.dataSlot j (by omega)⟩

theorem moveDeleteChildOptr (filled : 1 ≤ it.childOptrCount) (size : it.childOptrCount ≤ 4) (i : Nat) :
    Alike (it.moveDeleteChildOptr i) (it'.moveDeleteChildOptr i) := by
  rw [moveDeleteChildOptr_eq filled size, moveDeleteChildOptr_eq (by rwa [alike.childOptrCount])
    (by rwa [alike.childOptrCount]), alike.childOptrCount]
  exact ⟨alike.parent, alike.keyCount, alike.keySlot, rfl, slideDown_congr
    fun j (below : j < it.childOptrCount - 1 + 1) => alike.childSlot j (by omega), alike.dataOptrCount,
    alike.dataSlot⟩

theorem remove (filled : 1 ≤ it.keyCount) (size : it.keyCount ≤ 3)
    (even : it.dataOptrCount = it.keyCount) (i : Nat) :
    Alike (it.remove i) (it'.remove i) :=
  (alike.moveDeleteKey filled size i).moveDeleteDataOptr (by simpa [even] using filled) i

theorem insertAt {i : Nat} (keys : i ≤ it.keyCount) (datas : i ≤ it.dataOptrCount) (w : Key × Nat) :
    Alike (it.insertAt i w) (it'.insertAt i w) := by
  simp only [ItemSet.insertAt, alike.keyCount, alike.dataOptrCount]
  exact ⟨alike.parent, rfl, slideUp_congr keys alike.keySlot w.1, alike.childOptrCount, alike.childSlot, rfl,
    slideUp_congr datas alike.dataSlot w.2⟩

theorem onePair (w : Key × Nat) : Alike (it.onePair w) (it'.onePair w) := by
  rw [ItemSet.onePair, ItemSet.onePair, setKey_eq (by omega), setKey_eq (by omega)]
  refine ⟨alike.parent, rfl, fun i (below : i < 1) => ?_, alike.childOptrCount, alike.childSlot, rfl,
    fun i (below : i < 1) => ?_⟩
  · simp [Nat.lt_one_iff.mp below]
  · simp [Nat.lt_one_iff.mp below]

theorem refilled (one : it.childOptrCount = 1) (w : Key × Nat) (c : Nat) :
    Alike (it.refilled w c) (it'.refilled w c) := by
  have childs : ∀ j < 2, slideUp it'.childSlot 1 1 c j = slideUp it.childSlot 1 1 c j :=
    slideUp_congr le_rfl (by rw [← one]; exact alike.childSlot) c
  rw [ItemSet.refilled, ItemSet.refilled, setKey_eq (by omega), setKey_eq (by omega)]
  refine ⟨alike.parent, rfl, fun i (below : i < 1) => ?_, rfl, childs, alike.dataOptrCount, fun i below => ?_⟩
  · simp [Nat.lt_one_iff.mp below]
  · simp only [setDataOptr_dataSlot]
    split_ifs
    · rfl
    · exact alike.dataSlot i below

theorem pushUncounted (even : it.dataOptrCount = it.keyCount) (w : Key × Nat) :
    Alike (it.pushUncounted w) (it'.pushUncounted w) := by
  have datas := slideUp_congr (Nat.zero_le it.dataOptrCount) alike.dataSlot w.2
  simp only [ItemSet.pushUncounted, alike.keyCount, alike.dataOptrCount]
  exact ⟨alike.parent, rfl, slideUp_congr (Nat.zero_le _) alike.keySlot w.1, alike.childOptrCount,
    alike.childSlot, rfl, fun i (below : i < it.dataOptrCount) => datas i (by omega)⟩

end Alike

section Kids
variable (it : ItemSet) (i : Nat)

@[simp] theorem setParent_kids (v : Nat) : (it.setParent v).kids = it.kids := rfl

@[simp] theorem setDataOptr_kids (d : Nat) : (it.setDataOptr i d).kids = it.kids := rfl

@[simp] theorem setKeyCount_kids (n : Nat) : (it.setKeyCount n).kids = it.kids := rfl

@[simp] theorem setDataOptrCount_kids (n : Nat) : (it.setDataOptrCount n).kids = it.kids := rfl

@[simp] theorem pushUncounted_kids (w : Key × Nat) : (it.pushUncounted w).kids = it.kids := rfl

variable {it i}

@[simp] theorem setKey_kids (inside : i < 3) (k : Key) : (it.setKey i k).kids = it.kids := by
  rw [setKey_eq inside]
  rfl

@[simp] theorem onePair_kids (w : Key × Nat) : (it.onePair w).kids = it.kids := by simp [ItemSet.onePair]

theorem moveDeleteKey_kids (filled : 1 ≤ it.keyCount) (size : it.keyCount ≤ 3) :
    (it.moveDeleteKey i).kids = it.kids := by
  rw [moveDeleteKey_eq filled size]
  rfl

theorem moveDeleteDataOptr_kids (filled : 1 ≤ it.dataOptrCount) : (it.moveDeleteDataOptr i).kids = it.kids := by
  rw [moveDeleteDataOptr_eq filled]
  rfl

theorem refilled_kids {n : Nat} (one : it.kids = [n]) (w : Key × Nat) (c : Nat) :
    (it.refilled w c).kids = [n, c] := by
  have count := it.length_kids
  rw [one] at count
  have first : it.childSlot 0 = n := by simpa [ItemSet.kids, ← count, List.range_succ] using one
  simp [ItemSet.kids, ItemSet.refilled, List.range_succ, slideUp, lift, first]

end Kids

/-- A pair let in at the front, with a child before the others. -/
theorem Has.take_first_child {it : ItemSet} {x w : Key × Nat} {cs : List Nat} {c : Nat}
    (has : it.Has [x] cs) (two : cs.length = 2) :
    ({ it.insertAt 0 w with
      childSlot := slideUp it.childSlot 0 2 c, childOptrCount := 3 } : ItemSet).Has [w, x] (c :: cs) := by
  obtain ⟨keys, datas, -⟩ := has_iff.mp (has.insertAt (X := []) (Y := [x]) w)
  obtain ⟨-, -, -, childs⟩ := has_iff.mp has
  have taken := run_slideUp (l := []) (r := cs) (n := 2) childs (by simp [two]) c
  exact has_iff.mpr ⟨keys, datas, by simp [two], taken⟩

/-- Nodes with the same pairs, the same children and one parent. -/
theorem Has.alike {it it' : ItemSet} {xs : List (Key × Nat)} {cs : List Nat} (has : it.Has xs cs)
    (has' : it'.Has xs cs) (parent : it'.parent = it.parent) : Alike it it' := by
  have same : it'.items = it.items := has'.items.trans has.items.symm
  have kids : it'.kids = it.kids := has'.kids.trans has.kids.symm
  simp only [ItemSet.items, ItemSet.kids, map_range_eq_iff] at same kids
  refine ⟨parent, same.1, fun i below => ?_, kids.1, fun i below => kids.2 i (by omega),
    has'.datas.trans has.datas.symm, fun i below => ?_⟩
  · exact congrArg Prod.fst (same.2 i (by omega))
  · rw [has.datas, ← has.keyCount] at below
    exact congrArg Prod.snd (same.2 i (by omega))

end ItemSet

end MiyaCore
