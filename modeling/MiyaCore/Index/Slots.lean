import MiyaCore.Index.OBtree

namespace MiyaCore.ItemSet

section Fields
variable (it : ItemSet) (i v : Nat) (k : Key)

@[simp] theorem setParent_parent : (it.setParent v).parent = v := rfl
@[simp] theorem setParent_keyCount : (it.setParent v).keyCount = it.keyCount := rfl
@[simp] theorem setParent_keySlot : (it.setParent v).keySlot = it.keySlot := rfl
@[simp] theorem setParent_childOptrCount : (it.setParent v).childOptrCount = it.childOptrCount := rfl
@[simp] theorem setParent_childSlot : (it.setParent v).childSlot = it.childSlot := rfl
@[simp] theorem setParent_dataOptrCount : (it.setParent v).dataOptrCount = it.dataOptrCount := rfl
@[simp] theorem setParent_dataSlot : (it.setParent v).dataSlot = it.dataSlot := rfl

@[simp] theorem setKeyCount_parent : (it.setKeyCount v).parent = it.parent := rfl
@[simp] theorem setKeyCount_keyCount : (it.setKeyCount v).keyCount = v := rfl
@[simp] theorem setKeyCount_keySlot : (it.setKeyCount v).keySlot = it.keySlot := rfl
@[simp] theorem setKeyCount_childOptrCount : (it.setKeyCount v).childOptrCount = it.childOptrCount := rfl
@[simp] theorem setKeyCount_childSlot : (it.setKeyCount v).childSlot = it.childSlot := rfl
@[simp] theorem setKeyCount_dataOptrCount : (it.setKeyCount v).dataOptrCount = it.dataOptrCount := rfl
@[simp] theorem setKeyCount_dataSlot : (it.setKeyCount v).dataSlot = it.dataSlot := rfl

@[simp] theorem setChildOptrCount_parent : (it.setChildOptrCount v).parent = it.parent := rfl
@[simp] theorem setChildOptrCount_keyCount : (it.setChildOptrCount v).keyCount = it.keyCount := rfl
@[simp] theorem setChildOptrCount_keySlot : (it.setChildOptrCount v).keySlot = it.keySlot := rfl
@[simp] theorem setChildOptrCount_childOptrCount : (it.setChildOptrCount v).childOptrCount = v := rfl
@[simp] theorem setChildOptrCount_childSlot : (it.setChildOptrCount v).childSlot = it.childSlot := rfl
@[simp] theorem setChildOptrCount_dataOptrCount :
    (it.setChildOptrCount v).dataOptrCount = it.dataOptrCount := rfl
@[simp] theorem setChildOptrCount_dataSlot : (it.setChildOptrCount v).dataSlot = it.dataSlot := rfl

@[simp] theorem setDataOptrCount_parent : (it.setDataOptrCount v).parent = it.parent := rfl
@[simp] theorem setDataOptrCount_keyCount : (it.setDataOptrCount v).keyCount = it.keyCount := rfl
@[simp] theorem setDataOptrCount_keySlot : (it.setDataOptrCount v).keySlot = it.keySlot := rfl
@[simp] theorem setDataOptrCount_childOptrCount :
    (it.setDataOptrCount v).childOptrCount = it.childOptrCount := rfl
@[simp] theorem setDataOptrCount_childSlot : (it.setDataOptrCount v).childSlot = it.childSlot := rfl
@[simp] theorem setDataOptrCount_dataOptrCount : (it.setDataOptrCount v).dataOptrCount = v := rfl
@[simp] theorem setDataOptrCount_dataSlot : (it.setDataOptrCount v).dataSlot = it.dataSlot := rfl

@[simp] theorem setDataOptr_parent : (it.setDataOptr i v).parent = it.parent := rfl
@[simp] theorem setDataOptr_keyCount : (it.setDataOptr i v).keyCount = it.keyCount := rfl
@[simp] theorem setDataOptr_keySlot : (it.setDataOptr i v).keySlot = it.keySlot := rfl
@[simp] theorem setDataOptr_childOptrCount : (it.setDataOptr i v).childOptrCount = it.childOptrCount := rfl
@[simp] theorem setDataOptr_childSlot : (it.setDataOptr i v).childSlot = it.childSlot := rfl
@[simp] theorem setDataOptr_dataOptrCount : (it.setDataOptr i v).dataOptrCount = it.dataOptrCount := rfl
@[simp] theorem setDataOptr_dataSlot (j : Nat) :
    (it.setDataOptr i v).dataSlot j = if j = i then v else it.dataSlot j := rfl

@[simp] theorem setKey_parent : (it.setKey i k).parent = it.parent := by
  unfold setKey
  split_ifs <;> rfl
@[simp] theorem setKey_keyCount : (it.setKey i k).keyCount = it.keyCount := by
  unfold setKey
  split_ifs <;> rfl
@[simp] theorem setKey_dataOptrCount : (it.setKey i k).dataOptrCount = it.dataOptrCount := by
  unfold setKey
  split_ifs <;> rfl
@[simp] theorem setKey_dataSlot : (it.setKey i k).dataSlot = it.dataSlot := by
  unfold setKey
  split_ifs <;> rfl

@[simp] theorem setChildOptr_parent : (it.setChildOptr i v).parent = it.parent := by
  unfold setChildOptr
  split_ifs <;> rfl
@[simp] theorem setChildOptr_keyCount : (it.setChildOptr i v).keyCount = it.keyCount := by
  unfold setChildOptr
  split_ifs <;> rfl
@[simp] theorem setChildOptr_keySlot : (it.setChildOptr i v).keySlot = it.keySlot := by
  unfold setChildOptr
  split_ifs <;> rfl
@[simp] theorem setChildOptr_childOptrCount : (it.setChildOptr i v).childOptrCount = it.childOptrCount := by
  unfold setChildOptr
  split_ifs <;> rfl

variable {it i}

/-- Inside their areas the setters of keys and children write one slot. -/
@[simp] theorem setKey_keySlot (inside : i < 3) (j : Nat) :
    (it.setKey i k).keySlot j = if j = i then k else it.keySlot j := by
  simp [setKey, inside]
@[simp] theorem setKey_childOptrCount (inside : i < 3) :
    (it.setKey i k).childOptrCount = it.childOptrCount := by
  simp [setKey, inside]
@[simp] theorem setKey_childSlot (inside : i < 3) : (it.setKey i k).childSlot = it.childSlot := by
  simp [setKey, inside]
@[simp] theorem setChildOptr_childSlot (inside : i < 4) (j : Nat) :
    (it.setChildOptr i v).childSlot j = if j = i then v else it.childSlot j := by
  simp [setChildOptr, inside]
@[simp] theorem setChildOptr_dataOptrCount (inside : i < 4) :
    (it.setChildOptr i v).dataOptrCount = it.dataOptrCount := by
  simp [setChildOptr, inside]
@[simp] theorem setChildOptr_dataSlot (inside : i < 4) : (it.setChildOptr i v).dataSlot = it.dataSlot := by
  simp [setChildOptr, inside]

end Fields

/-- A node with these pairs and these children, and as many data pointers as keys. -/
structure Has (it : ItemSet) (xs : List (Key × Nat)) (cs : List Nat) : Prop where
  items : it.items = xs
  kids : it.kids = cs
  datas : it.dataOptrCount = xs.length

theorem length_items (it : ItemSet) : it.items.length = it.keyCount := by simp [items]

theorem length_kids (it : ItemSet) : it.kids.length = it.childOptrCount := by simp [kids]

theorem Has.keyCount {it : ItemSet} {xs : List (Key × Nat)} {cs : List Nat} (has : it.Has xs cs) :
    it.keyCount = xs.length := by
  rw [← has.items, length_items]

theorem Has.childOptrCount {it : ItemSet} {xs : List (Key × Nat)} {cs : List Nat} (has : it.Has xs cs) :
    it.childOptrCount = cs.length := by
  rw [← has.kids, length_kids]

/-- The values of `f` from `i` on are these. -/
def Run {α : Type} (f : Nat → α) : Nat → List α → Prop
  | _, [] => True
  | i, x :: xs => f i = x ∧ Run f (i + 1) xs

section Run
variable {α : Type} {f f' : Nat → α}

theorem run_append {i : Nat} {l r : List α} : Run f i (l ++ r) ↔ Run f i l ∧ Run f (i + l.length) r := by
  induction l generalizing i with
  | nil => simp [Run]
  | cons x l ih =>
    simp only [List.cons_append, Run, ih, and_assoc, List.length_cons]
    rw [show i + 1 + l.length = i + (l.length + 1) by omega]

theorem Run.congr {i j : Nat} {l : List α} (run : Run f i l)
    (same : ∀ x, x < l.length → f' (j + x) = f (i + x)) :
    Run f' j l := by
  induction l generalizing i j with
  | nil => trivial
  | cons y l ih =>
    refine ⟨(same 0 (by simp)).trans run.1, ih run.2 fun x inside => ?_⟩
    have at_succ := same (x + 1) (by simpa using inside)
    rwa [show j + (x + 1) = j + 1 + x by omega, show i + (x + 1) = i + 1 + x by omega] at at_succ

theorem Run.getElem {i : Nat} {l : List α} (run : Run f i l) {j : Nat} (inside : j < l.length) :
    f (i + j) = l[j] := by
  induction l generalizing i j with
  | nil => simp at inside
  | cons x l ih =>
    cases j with
    | zero => exact run.1
    | succ j =>
      rw [show i + (j + 1) = i + 1 + j by omega]
      exact ih run.2 (by simpa using inside)

/-- The slots above `index`, up to `n`, hold what the slot before held. -/
def lift (f : Nat → α) (index n i : Nat) : α := if index < i ∧ i ≤ n then f (i - 1) else f i

/-- Lifted slots, with `a` put in at `index`. -/
def slideUp (f : Nat → α) (index n : Nat) (a : α) (i : Nat) : α := if i = index then a else lift f index n i

/-- The slots from `index` on, below `n`, hold what the next slot held. -/
def slideDown (f : Nat → α) (index n : Nat) (i : Nat) : α := if index ≤ i ∧ i < n then f (i + 1) else f i

theorem lift_of_le (f : Nat → α) {index n : Nat} (nothing : n ≤ index) : lift f index n = f := by
  funext i
  rw [lift, if_neg (by omega)]

theorem lift_step (f : Nat → α) {index n : Nat} (before : index ≤ n) :
    lift (fun j => if j = n + 1 then f n else f j) index n = lift f index (n + 1) := by
  funext i
  simp only [lift]
  by_cases last : i = n + 1
  · subst last
    rw [if_neg (by omega), if_pos rfl, if_pos (by omega)]
    rfl
  · by_cases inner : index < i ∧ i ≤ n
    · rw [if_pos inner, if_neg (by omega), if_pos (by omega)]
    · rw [if_neg inner, if_neg last, if_neg (by omega)]

theorem slideDown_of_le (f : Nat → α) {index n : Nat} (nothing : n ≤ index) : slideDown f index n = f := by
  funext i
  rw [slideDown, if_neg (by omega)]

theorem slideDown_step (f : Nat → α) {index n : Nat} (before : index < n) :
    slideDown (fun j => if j = index then f (index + 1) else f j) (index + 1) n = slideDown f index n := by
  funext i
  simp only [slideDown]
  by_cases first : i = index
  · subst first
    rw [if_neg (by omega), if_pos rfl, if_pos (by omega)]
  · by_cases inner : index + 1 ≤ i ∧ i < n
    · rw [if_pos inner, if_neg (by omega), if_pos (by omega)]
    · rw [if_neg inner, if_neg first, if_neg (by omega)]

theorem run_slideUp {l r : List α} {n : Nat} (run : Run f 0 (l ++ r)) (fits : n = l.length + r.length) (a : α) :
    Run (slideUp f l.length n a) 0 (l ++ a :: r) := by
  obtain ⟨front, back⟩ := run_append.mp run
  refine run_append.mpr ⟨front.congr fun x inside => ?_, ?_, back.congr fun x inside => ?_⟩
  · rw [slideUp, if_neg (by omega), lift, if_neg (by omega)]
  · simp [slideUp]
  · rw [slideUp, if_neg (by omega), lift, if_pos (by omega)]
    congr 1
    omega

theorem run_slideDown {l r : List α} {a : α} {n : Nat} (run : Run f 0 (l ++ a :: r))
    (fits : n = l.length + r.length) :
    Run (slideDown f l.length n) 0 (l ++ r) := by
  obtain ⟨front, -, back⟩ := run_append.mp run
  refine run_append.mpr ⟨front.congr fun x inside => ?_, back.congr fun x inside => ?_⟩
  · rw [slideDown, if_neg (by omega)]
  · rw [slideDown, if_pos (by omega)]
    congr 1
    omega

theorem map_range'_eq_iff (f : Nat → α) (i n : Nat) (xs : List α) :
    (List.range' i n).map f = xs ↔ n = xs.length ∧ Run f i xs := by
  induction xs generalizing i n with
  | nil => simp [Run]
  | cons x xs ih =>
    cases n with
    | zero => simp
    | succ n =>
      simp only [List.range'_succ, List.map_cons, List.cons.injEq, ih, Run, List.length_cons,
        Nat.add_right_cancel_iff]
      tauto

theorem run_pair {β : Type} {g : Nat → β} {i : Nat} {xs : List (α × β)} :
    Run (fun i => (f i, g i)) i xs ↔ Run f i (xs.map Prod.fst) ∧ Run g i (xs.map Prod.snd) := by
  induction xs generalizing i with
  | nil => simp [Run]
  | cons x xs ih =>
    simp only [Run, ih, List.map_cons, Prod.ext_iff]
    tauto

end Run

/-- A node's contents slot by slot; for lists written out, every slot is a conjunct. -/
theorem has_iff {it : ItemSet} {xs : List (Key × Nat)} {cs : List Nat} :
    it.Has xs cs ↔ (it.keyCount = xs.length ∧ Run it.keySlot 0 (xs.map Prod.fst)) ∧
      (it.dataOptrCount = xs.length ∧ Run it.dataSlot 0 (xs.map Prod.snd)) ∧
      (it.childOptrCount = cs.length ∧ Run it.childSlot 0 cs) := by
  have ofItems : it.items = xs ↔ it.keyCount = xs.length ∧ Run it.keySlot 0 (xs.map Prod.fst) ∧
      Run it.dataSlot 0 (xs.map Prod.snd) := by
    rw [items, List.range_eq_range', map_range'_eq_iff, run_pair]
  have ofKids : it.kids = cs ↔ it.childOptrCount = cs.length ∧ Run it.childSlot 0 cs := by
    rw [kids, List.range_eq_range', map_range'_eq_iff]
  rw [← ofKids]
  constructor
  · intro has
    obtain ⟨count, keys, datas⟩ := ofItems.mp has.items
    exact ⟨⟨count, keys⟩, ⟨has.datas, datas⟩, has.kids⟩
  · rintro ⟨⟨count, keys⟩, ⟨dataCount, datas⟩, kids⟩
    exact ⟨ofItems.mpr ⟨count, keys, datas⟩, kids, dataCount⟩

section Moves
variable {it : ItemSet} {index : Nat}

theorem setKey_eq {i : Nat} (inside : i < 3) (k : Key) :
    it.setKey i k = { it with keySlot := fun j => if j = i then k else it.keySlot j } := by
  simp [setKey, inside]

theorem setChildOptr_eq {i : Nat} (inside : i < 4) (target : Nat) :
    it.setChildOptr i target = { it with childSlot := fun j => if j = i then target else it.childSlot j } := by
  simp [setChildOptr, inside]

theorem rawKey_eq {i : Nat} (below : i ≤ it.keyCount) (inside : i < 3) : it.rawKey i = some (it.keySlot i) := by
  simp [rawKey, inside, below.not_gt]

theorem childOptr_eq {i : Nat} (below : i < it.childOptrCount) : it.childOptr i = some (it.childSlot i) := by
  simp [ItemSet.childOptr, below]

theorem dataOptr_eq {i : Nat} (below : i ≤ it.dataOptrCount) : it.dataOptr i = some (it.dataSlot i) := by
  simp [ItemSet.dataOptr, below]

theorem Has.rawKey {xs : List (Key × Nat)} {cs : List Nat} (has : it.Has xs cs) (size : xs.length ≤ 3)
    {i : Nat} (inside : i < xs.length) : it.rawKey i = some xs[i].1 := by
  obtain ⟨⟨count, keys⟩, -⟩ := has_iff.mp has
  have value := keys.getElem (j := i) (by simpa using inside)
  rw [rawKey_eq (by omega) (by omega)]
  simpa using value

theorem Has.dataOptr {xs : List (Key × Nat)} {cs : List Nat} (has : it.Has xs cs) {i : Nat}
    (inside : i < xs.length) :
    it.dataOptr i = some xs[i].2 := by
  obtain ⟨-, ⟨count, datas⟩, -⟩ := has_iff.mp has
  have value := datas.getElem (j := i) (by simpa using inside)
  rw [dataOptr_eq (by omega)]
  simpa using value

theorem Has.childOptr {xs : List (Key × Nat)} {A B : List Nat} {c : Nat} (has : it.Has xs (A ++ c :: B)) :
    it.childOptr A.length = some c := by
  obtain ⟨-, -, count, childs⟩ := has_iff.mp has
  rw [run_append] at childs
  rw [childOptr_eq (by simp [count]), ← childs.2.1, Nat.zero_add]

theorem mem_kids_of_childOptr {i c : Nat} (child : it.childOptr i = some c) : c ∈ it.kids := by
  unfold ItemSet.childOptr at child
  split_ifs at child with outside
  cases child
  exact List.mem_map_of_mem (List.mem_range.mpr (by omega))

theorem shiftKeys_eq {n : Nat} (inside : n ≤ 2) (below : n ≤ it.keyCount + 1) :
    it.shiftKeys index n = { it with keySlot := lift it.keySlot index n } := by
  induction n generalizing it with
  | zero => simp [shiftKeys, lift_of_le]
  | succ n ih =>
    rw [shiftKeys]
    split_ifs with done
    · rw [lift_of_le _ done]
    · rw [rawKey_eq (by omega) (by omega)]
      simp only []
      rw [setKey_eq (by omega), ih (by omega) (by simpa using by omega), lift_step _ (by omega)]

theorem moveInsertKey_eq (room : it.keyCount ≤ 2) (inside : index ≤ it.keyCount) (k : Key) :
    it.moveInsertKey index k = { it with keySlot := slideUp it.keySlot index it.keyCount k } := by
  rw [moveInsertKey, shiftKeys_eq room (by omega), setKey_eq (by omega)]
  rfl

theorem shiftChildOptrs_eq {n : Nat} (inside : n ≤ 3) (below : n ≤ it.childOptrCount) :
    it.shiftChildOptrs index n = { it with childSlot := lift it.childSlot index n } := by
  induction n generalizing it with
  | zero => simp [shiftChildOptrs, lift_of_le]
  | succ n ih =>
    rw [shiftChildOptrs]
    split_ifs with done
    · rw [lift_of_le _ done]
    · rw [childOptr_eq (by omega), Option.getD_some, setChildOptr_eq (by omega),
        ih (by omega) (by simpa using by omega), lift_step _ (by omega)]

theorem moveInsertChildOptr_eq (room : it.childOptrCount ≤ 3) (inside : index ≤ it.childOptrCount)
    (target : Nat) :
    it.moveInsertChildOptr index target =
      { it with childSlot := slideUp it.childSlot index it.childOptrCount target } := by
  rw [moveInsertChildOptr, shiftChildOptrs_eq room (by omega), setChildOptr_eq (by omega)]
  rfl

theorem moveDeleteKey_eq (filled : 1 ≤ it.keyCount) (size : it.keyCount ≤ 3) :
    it.moveDeleteKey index =
      { it with keySlot := slideDown it.keySlot index (it.keyCount - 1), keyCount := it.keyCount - 1 } := by
  have fold : ∀ m i (it : ItemSet), i + m ≤ 2 → i + m ≤ it.keyCount →
      (List.range' i m).foldl pullKey it = { it with keySlot := slideDown it.keySlot i (i + m) } := by
    intro m
    induction m with
    | zero =>
      intro i it _ _
      simp [slideDown_of_le]
    | succ m ih =>
      intro i it inside below
      rw [List.range'_succ, List.foldl_cons, pullKey, rawKey_eq (by omega) (by omega)]
      simp only []
      rw [setKey_eq (by omega), ih (i + 1) _ (by omega) (by simpa using by omega)]
      simp only [show i + 1 + m = i + (m + 1) by omega, slideDown_step _ (show i < i + (m + 1) by omega)]
  rw [moveDeleteKey, if_neg (by omega)]
  by_cases inside : index ≤ it.keyCount - 1
  · simp only [fold (it.keyCount - 1 - index) index it (by omega) (by omega), setKeyCount]
    rw [show index + (it.keyCount - 1 - index) = it.keyCount - 1 by omega]
  · rw [show it.keyCount - 1 - index = 0 by omega, slideDown_of_le _ (by omega)]
    rfl

theorem moveDeleteKey_datas (it : ItemSet) (index : Nat) :
    (it.moveDeleteKey index).dataOptrCount = it.dataOptrCount ∧
      (it.moveDeleteKey index).dataSlot = it.dataSlot := by
  have fold : ∀ (l : List Nat) (it : ItemSet),
      (l.foldl pullKey it).dataOptrCount = it.dataOptrCount ∧ (l.foldl pullKey it).dataSlot = it.dataSlot := by
    intro l
    induction l with
    | nil => exact fun it => ⟨rfl, rfl⟩
    | cons i l ih =>
      intro it
      rw [List.foldl_cons, (ih _).1, (ih _).2, pullKey]
      split <;> simp
  rw [moveDeleteKey]
  split_ifs
  · exact ⟨rfl, rfl⟩
  · exact fold _ it

@[simp] theorem moveDeleteKey_dataOptrCount (it : ItemSet) (index : Nat) :
    (it.moveDeleteKey index).dataOptrCount = it.dataOptrCount := (moveDeleteKey_datas it index).1

@[simp] theorem moveDeleteKey_dataOptr (it : ItemSet) (index i : Nat) :
    (it.moveDeleteKey index).dataOptr i = it.dataOptr i := by
  rw [ItemSet.dataOptr, ItemSet.dataOptr, (moveDeleteKey_datas it index).1, (moveDeleteKey_datas it index).2]

@[simp] theorem setKey_dataOptr (it : ItemSet) (index i : Nat) (k : Key) :
    (it.setKey index k).dataOptr i = it.dataOptr i := by
  simp [ItemSet.dataOptr]

theorem moveDeleteChildOptr_eq (filled : 1 ≤ it.childOptrCount) (size : it.childOptrCount ≤ 4) :
    it.moveDeleteChildOptr index =
      { it with childSlot := slideDown it.childSlot index (it.childOptrCount - 1),
                childOptrCount := it.childOptrCount - 1 } := by
  have fold : ∀ m i (it : ItemSet), i + m ≤ 3 → i + m < it.childOptrCount →
      (List.range' i m).foldl (fun it i => it.setChildOptr i ((it.childOptr (i + 1)).getD 0)) it =
        { it with childSlot := slideDown it.childSlot i (i + m) } := by
    intro m
    induction m with
    | zero =>
      intro i it _ _
      simp [slideDown_of_le]
    | succ m ih =>
      intro i it inside below
      rw [List.range'_succ, List.foldl_cons, childOptr_eq (by omega), Option.getD_some,
        setChildOptr_eq (by omega), ih (i + 1) _ (by omega) (by simpa using by omega)]
      simp only [show i + 1 + m = i + (m + 1) by omega, slideDown_step _ (show i < i + (m + 1) by omega)]
  rw [moveDeleteChildOptr, if_neg (by omega)]
  by_cases inside : index ≤ it.childOptrCount - 1
  · simp only [fold (it.childOptrCount - 1 - index) index it (by omega) (by omega), setChildOptrCount]
    rw [show index + (it.childOptrCount - 1 - index) = it.childOptrCount - 1 by omega]
  · rw [show it.childOptrCount - 1 - index = 0 by omega, slideDown_of_le _ (by omega)]
    rfl

theorem moveDeleteDataOptr_eq (filled : 1 ≤ it.dataOptrCount) :
    it.moveDeleteDataOptr index =
      { it with dataSlot := slideDown it.dataSlot index (it.dataOptrCount - 1),
                dataOptrCount := it.dataOptrCount - 1 } := by
  have fold : ∀ m i (it : ItemSet), i + m ≤ it.dataOptrCount →
      (List.range' i m).foldl (fun it i => it.setDataOptr i ((it.dataOptr (i + 1)).getD 0)) it =
        { it with dataSlot := slideDown it.dataSlot i (i + m) } := by
    intro m
    induction m with
    | zero =>
      intro i it _
      simp [slideDown_of_le]
    | succ m ih =>
      intro i it below
      rw [List.range'_succ, List.foldl_cons, dataOptr_eq (by omega), Option.getD_some,
        ih (i + 1) _ (by simpa using by omega)]
      simp only [setDataOptr, show i + 1 + m =
        i + (m + 1) by omega, slideDown_step _ (show i < i + (m + 1) by omega)]
  rw [moveDeleteDataOptr, if_neg (by omega)]
  by_cases inside : index ≤ it.dataOptrCount - 1
  · simp only [fold (it.dataOptrCount - 1 - index) index it (by omega), setDataOptrCount]
    rw [show index + (it.dataOptrCount - 1 - index) = it.dataOptrCount - 1 by omega]
  · rw [show it.dataOptrCount - 1 - index = 0 by omega, slideDown_of_le _ (by omega)]
    rfl

end Moves

end MiyaCore.ItemSet

namespace MiyaCore.IndexFile

@[simp] theorem edit_node (s : IndexFile) (p : Nat) (f : ItemSet → ItemSet) (q : Nat) :
    (s.edit p f).node q = if q = p then f (s.node q) else s.node q := rfl
@[simp] theorem edit_top (s : IndexFile) (p : Nat) (f : ItemSet → ItemSet) : (s.edit p f).top = s.top := rfl
@[simp] theorem edit_head (s : IndexFile) (p : Nat) (f : ItemSet → ItemSet) : (s.edit p f).head = s.head := rfl

end MiyaCore.IndexFile

namespace MiyaCore
open NodeFile

@[simp] theorem pure_eq_ok {ε α : Type} (a : α) : (pure a : Except ε α) = .ok a := rfl

@[simp] theorem ok_bind {ε α β : Type} (a : α) (f : α → Except ε β) : (Except.ok a >>= f) = f a := rfl

section Run
variable (s : IndexFile) (p q i : Nat) (f : ItemSet → ItemSet) (d : Option Nat)

@[simp] theorem run_read : (oNode.read p).run s = .ok (s.node p, s) := rfl
@[simp] theorem run_write : (oNode.write p f).run s = .ok ((), s.edit p f) := rfl
@[simp] theorem run_getOptr : (oNode.getOptr p).run s = .ok (p, s) := rfl
@[simp] theorem run_getData : (oNode.getData p i).run s = .ok ((s.node p).dataOptr i, s) := rfl
@[simp] theorem run_child : (oNode.child p i).run s = .ok ((s.node p).childOptr (i % 65536), s) := rfl
@[simp] theorem run_putData (inside : i < 3) :
    (oNode.putData p i d).run s = .ok ((), s.edit p fun it => it.setDataOptr i (d.getD 0)) := by
  simp only [putData, inside, if_true]
  rfl
@[simp] theorem run_get {σ : Type} (s : σ) : (get : NodeM σ σ).run s = .ok (s, s) := rfl
@[simp] theorem run_deref {σ α : Type} (s : σ) (a : α) : (deref (some a) : NodeM σ α).run s = .ok (a, s) := rfl

@[simp] theorem run_alloc : oNode.alloc.run s = .ok (s.top, s.newONode.2) := rfl
@[simp] theorem run_atRoot : (oNode.atRoot p).run s = .ok ((s.node p).parent == 0, s) := rfl
@[simp] theorem run_keyCountOf (o : Option Nat) :
    (oNode.keyCountOf o).run s = .ok (o.elim 0 fun p => (s.node p).keyCount, s) := by
  cases o <;> rfl
@[simp] theorem oNode_shiftSource : oNode.shiftSource p q = p := rfl
@[simp] theorem setMetaRoot_node : (oNode.setMetaRoot s p).node = s.node := rfl
@[simp] theorem setMetaRoot_top : (oNode.setMetaRoot s p).top = s.top := rfl
@[simp] theorem setMetaRoot_head : (oNode.setMetaRoot s p).head = { s.head with root := p } := rfl
@[simp] theorem newONode_node : s.newONode.2.node q = if q = s.top then {} else s.node q := rfl
@[simp] theorem newONode_top : s.newONode.2.top = s.top + 103 := rfl
@[simp] theorem newONode_head : s.newONode.2.head = s.head := rfl

end Run

end MiyaCore
