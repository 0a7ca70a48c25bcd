import MiyaCore.Index.Slots
import Mathlib.Algebra.Order.Group.Nat

namespace MiyaCore.ItemSet

theorem findIndex_run {t : ItemSet} {l r : List Key} {k : Key} (count : t.keyCount = l.length + 1 + r.length)
    (size : t.keyCount ≤ 3) (run : Run t.keySlot 0 (l ++ k :: r)) (fresh : k ∉ l) :
    t.findIndex k = some l.length := by
  obtain ⟨front, hit, -⟩ := run_append.mp run
  rw [findIndex, List.find?_range_eq_some]
  refine ⟨?_, by simp; omega, fun j before => ?_⟩
  · rw [rawKey_eq (by omega) (by omega)]
    simpa using hit
  · rw [rawKey_eq (by omega) (by omega)]
    have value := front.getElem before
    simp only [zero_add] at value
    simp only [value, Option.some.injEq, Bool.not_eq_true', decide_eq_false_iff_not]
    intro same
    exact fresh (same ▸ List.getElem_mem _)

theorem sortPair_eq {it : ItemSet} {j : Nat} (below : j ≤ it.keyCount) (inside : j < 3) :
    it.sortPair j = if it.keySlot j < it.keySlot (j - 1) then
      (it.setKey j (it.keySlot (j - 1))).setKey (j - 1) (it.keySlot j) else it := by
  rw [sortPair, rawKey_eq below inside, rawKey_eq (by omega) (by omega)]

/-- Sorting a key put after the sorted keys of a node brings it to its place. -/
theorem sortKey_snoc {t : ItemSet} {l r : List Key} {k : Key} (count : t.keyCount = l.length + r.length)
    (room : t.keyCount ≤ 2) (run : Run t.keySlot 0 (l ++ r)) (sorted : (l ++ k :: r).Pairwise (· < ·)) :
    ∃ f, ((t.setKey t.keyCount k).setKeyCount (t.keyCount + 1)).sortKey =
      { t with keySlot := f, keyCount := t.keyCount + 1 } ∧ Run f 0 (l ++ k :: r) := by
  rcases l with _ | ⟨x, _ | ⟨x', _ | ⟨x'', l⟩⟩⟩ <;> rcases r with _ | ⟨y, _ | ⟨y', _ | ⟨y'', r⟩⟩⟩ <;>
    simp only [List.length_nil, List.length_cons] at count <;> try omega
  all_goals
    simp [Run] at run sorted
    simp [sortKey, count, List.range_succ, List.range', sortPair_eq, setKey_eq, setKeyCount, run,
    sorted, lt_asymm, Run]

end MiyaCore.ItemSet

namespace MiyaCore
open NodeFile ItemSet

/-- Everything but the listed nodes is as it was. -/
def SameBut (s s' : IndexFile) (touched : List Nat) : Prop :=
  (∀ q, q ∉ touched → s'.node q = s.node q) ∧ s'.top = s.top ∧ s'.head = s.head

/-- The file with another block at `p`. -/
def put (s : IndexFile) (p : Nat) (it : ItemSet) : IndexFile := s.edit p fun _ => it

section Put
variable (s : IndexFile) (p q : Nat) (it it' : ItemSet)

@[simp] theorem put_node : (put s p it).node q = if q = p then it else s.node q := rfl
@[simp] theorem put_top : (put s p it).top = s.top := rfl
@[simp] theorem put_head : (put s p it).head = s.head := rfl

theorem edit_eq_put (f : ItemSet → ItemSet) : s.edit p f = put s p (f (s.node p)) := by
  simp only [put, IndexFile.edit, IndexFile.mk.injEq, true_and, and_true]
  funext q
  by_cases same : q = p <;> simp [same]

@[simp] theorem put_put : put (put s p it) p it' = put s p it' := by
  simp only [put, IndexFile.edit, IndexFile.mk.injEq, true_and, and_true]
  funext q
  by_cases same : q = p <;> simp [same]

@[simp] theorem put_self : put s p (s.node p) = s := by
  rw [← edit_eq_put s p fun it => it]
  simp [IndexFile.edit]

theorem sameBut_put : SameBut s (put s p it) [p] :=
  ⟨fun q other => if_neg (by simpa using other), rfl, rfl⟩

end Put

theorem shiftData_run {s : IndexFile} {p index n : Nat} (inside : n ≤ 2)
    (below : n ≤ (s.node p).dataOptrCount + 1) :
    (oNode.shiftData p p index n).run s =
      .ok ((), put s p { s.node p with dataSlot := lift (s.node p).dataSlot index n }) := by
  induction n generalizing s with
  | zero =>
    rw [lift_of_le _ (Nat.zero_le index)]
    exact congrArg (fun s' => Except.ok ((), s')) (put_self s p).symm
  | succ n ih =>
    rw [shiftData]
    split_ifs with done
    · rw [lift_of_le _ done]
      exact congrArg (fun s' => Except.ok ((), s')) (put_self s p).symm
    · have value : (s.node p).dataOptr n = some ((s.node p).dataSlot n) := dataOptr_eq (by omega)
      simp only [StateT.run_bind, run_getData, ok_bind, run_putData s p (n + 1) _ (by omega), value,
        edit_eq_put]
      rw [ih (by omega) (by simp; omega)]
      simp [ItemSet.setDataOptr, lift_step _ (show index ≤ n by omega)]

theorem moveInsertDataOptr_run {s : IndexFile} {p c i : Nat} (inside : i ≤ (s.node p).dataOptrCount)
    (room : (s.node p).dataOptrCount ≤ 2) (d : Nat) :
    (oNode.moveInsertDataOptr p c i (some d)).run s = .ok ((), put s p { s.node p with
      dataSlot := slideUp (s.node p).dataSlot i (s.node p).dataOptrCount d }) := by
  simp only [moveInsertDataOptr, oNode_shiftSource, StateT.run_bind, run_read, ok_bind]
  rw [shiftData_run room (by omega)]
  simp only [ok_bind, run_putData _ p i _ (by omega), edit_eq_put, put_put, put_node, if_true]
  rfl

/-- A node with room takes a pair at its place, and a child to the right of it. -/
theorem addSimple_run {s : IndexFile} {p : Nat} {xs ys : List (Key × Nat)} {A B : List Nat} {k : Key} {d : Nat}
    {o : Option Nat} (has : (s.node p).Has (xs ++ ys) (A ++ B)) (room : xs.length + ys.length ≤ 2)
    (sorted : (xs ++ (k, d) :: ys).Pairwise (fun a b => a.1 < b.1))
    (fits : o.isSome → A.length = xs.length + 1 ∧ B.length = ys.length) :
    ∃ it, (oNode.addSimple p k (some d) o).run s = .ok ((), put s p it) ∧
      it.Has (xs ++ (k, d) :: ys) (A ++ o.toList ++ B) ∧ it.parent = (s.node p).parent := by
  obtain ⟨⟨count, keys⟩, ⟨dataCount, datas⟩, ⟨childCount, childs⟩⟩ := has_iff.mp has
  obtain ⟨f, sortedNode, keys'⟩ := sortKey_snoc (t := s.node p) (l := xs.map Prod.fst)
    (r := ys.map Prod.fst) (k := k) (by simp [count]) (by simp [count, room]) (by simpa using keys)
    (by simpa using List.pairwise_map.mpr sorted)
  have notLeft : k ∉ xs.map Prod.fst := by
    intro member
    obtain ⟨x, inside, same⟩ := List.mem_map.mp member
    have less := (List.pairwise_append.mp sorted).2.2 x inside (k, d) (by simp)
    simp [same] at less
  have place := findIndex_run (t := { s.node p with keySlot := f, keyCount := (s.node p).keyCount + 1 })
    (r := ys.map Prod.fst) (by simp [count]; omega) (by simp [count]; omega) keys' notLeft
  have slotted := moveInsertDataOptr_run (s := put s p
    { s.node p with keySlot := f, keyCount := (s.node p).keyCount + 1 }) (p := p) (c := p)
    (i := xs.length) (by simp [dataCount]) (by simp [dataCount, room]) d
  simp only [addSimple, StateT.run_bind, run_read, ok_bind, run_write, edit_eq_put, put_put, put_node,
    if_true, sortedNode, place, Option.getD_some, List.length_map, slotted]
  have datas' := run_slideUp (l := xs.map Prod.snd) (r := ys.map Prod.snd) (n := (s.node p).dataOptrCount)
    (by simpa using datas) (by simp [dataCount]) d
  rw [List.length_map] at datas'
  cases o with
  | none =>
    exact ⟨_, rfl, has_iff.mpr ⟨⟨by simp [count]; omega, by simpa using keys'⟩,
      ⟨by simp [dataCount]; omega, by simpa using datas'⟩,
      by simpa using childCount, by simpa using childs⟩, rfl⟩
  | some r =>
    obtain ⟨lengthA, lengthB⟩ := fits rfl
    have childs' := run_slideUp (n := (s.node p).childOptrCount) childs (by simp [childCount]) r
    simp only [StateT.run_bind, run_getOptr, ok_bind, run_write, edit_eq_put, put_put, put_node, if_true]
    refine ⟨_, rfl, ?_, ?_⟩
    · rw [moveInsertChildOptr_eq (by simp [childCount]; omega) (by simp [childCount]; omega)]
      exact has_iff.mpr ⟨⟨by simp [count]; omega, by simpa using keys'⟩,
        ⟨by simp [dataCount]; omega, by simpa using datas'⟩,
        by simp [count]; omega, by simpa [lengthA] using childs'⟩
    · rw [moveInsertChildOptr_eq (by simp [childCount]; omega) (by simp [childCount]; omega)]
      rfl

/-- The keys of a node with one more at their end, sorted. -/
theorem insertionSort_snoc {l r : List Key} {k : Key} (sorted : (l ++ k :: r).Pairwise (· < ·)) :
    (l ++ r ++ [k]).insertionSort (· ≤ ·) = l ++ k :: r := by
  have perm : ((l ++ r ++ [k]).insertionSort (· ≤ ·)).Perm (l ++ k :: r) := by
    refine (List.perm_insertionSort _ _).trans ?_
    rw [List.append_assoc]
    exact List.Perm.append_left _ List.perm_append_comm
  exact perm.eq_of_pairwise (fun a b _ _ ab ba => le_antisymm ab ba) (List.pairwise_insertionSort _ _)
    (sorted.imp le_of_lt)

theorem insertSlot_append {α : Type} (l r : List α) (z a : α) :
    insertSlot (l ++ r ++ [z]) l.length a = l ++ a :: r := by
  have inserted : (l ++ r ++ [z]).insertIdx l.length a = l ++ a :: r ++ [z] := by
    induction l with
    | nil => simp
    | cons x l ih => simpa using ih
  rw [insertSlot, inserted]
  exact List.take_left' (by simp)

theorem map_range_slots {α : Type} {f : Nat → α} {g : Nat → Option α} {l : List α} (run : Run f 0 l)
    (inside : ∀ i < l.length, g i = some (f i)) (outside : g l.length = none) :
    (List.range (l.length + 1)).map g = l.map some ++ [none] := by
  have values : (List.range l.length).map f = l := by
    rw [List.range_eq_range', map_range'_eq_iff]
    exact ⟨rfl, run⟩
  rw [List.range_succ, List.map_append, List.map_singleton, outside]
  congr 1
  calc (List.range l.length).map g = (List.range l.length).map (some ∘ f) :=
        List.map_congr_left fun i member => inside i (List.mem_range.mp member)
    _ = l.map some := by rw [← List.map_map, values]

/-- The virtual item set of a full node holds its pairs and children with the new ones at their place. -/
theorem viewItemSet_run {s : IndexFile} {p : Nat} {xs ys : List (Key × Nat)} {A B : List Nat}
    {k : Key} {d : Nat} {target : Option Nat} (has : (s.node p).Has (xs ++ ys) (A ++ B))
    (full : xs.length + ys.length = 3) (sorted : (xs ++ (k, d) :: ys).Pairwise (fun a b => a.1 < b.1))
    (fits : target = none ∧ A ++ B = [] ∨ target.isSome ∧ A.length = xs.length + 1 ∧ B.length = ys.length) :
    ∃ view, (oNode.viewItemSet p k (some d) target).run s = .ok (view, s) ∧
      view.key = (xs ++ (k, d) :: ys).map Prod.fst ∧ view.dataOptr = (xs ++ (k, d) :: ys).map
      (fun x => some x.2) ∧ (target.isSome → view.childOptr = (A ++ target.toList ++ B).map some) := by
  obtain ⟨⟨count, keys⟩, ⟨dataCount, datas⟩, ⟨childCount, childs⟩⟩ := has_iff.mp has
  have keyList : (List.range 3).map (s.node p).keySlot = xs.map Prod.fst ++ ys.map Prod.fst := by
    rw [List.range_eq_range', map_range'_eq_iff]
    exact ⟨by simp [full], by simpa using keys⟩
  have sortedKeys : (xs.map Prod.fst ++ k :: ys.map Prod.fst).Pairwise (· < ·) := by
    simpa using List.pairwise_map.mpr sorted
  have notLeft : k ∉ xs.map Prod.fst := fun member =>
    lt_irrefl k ((List.pairwise_append.mp sortedKeys).2.2 k member k (by simp))
  have index : (xs.map Prod.fst ++ k :: ys.map Prod.fst).findIdx (· = k) = xs.length := by
    rw [List.findIdx_append, List.findIdx_eq_length_of_false, List.findIdx_cons]
    · simp
    · intro x member
      simp only [decide_eq_false_iff_not]
      rintro rfl
      exact notLeft member
  have dataList : ((List.range 4).map fun i => if i < (s.node p).dataOptrCount then
    (s.node p).dataOptr i else none) =
      xs.map (fun x => some x.2) ++ ys.map (fun x => some x.2) ++ [none] := by
    have size : ((xs ++ ys).map Prod.snd).length = 3 := by simp [full]
    have slots := map_range_slots (g := fun i => if i < (s.node p).dataOptrCount then
      (s.node p).dataOptr i else none) datas (fun i inside => by
        rw [List.length_map, ← dataCount] at inside
        rw [if_pos inside, dataOptr_eq inside.le])
      (by simp [dataCount])
    rw [size] at slots
    simpa [Function.comp_def] using slots
  have room : ¬(3 < (s.node p).dataOptrCount ∨ 4 < (s.node p).childOptrCount) := by
    rcases fits with ⟨-, none⟩ | ⟨-, lengthA, lengthB⟩
    · simp [dataCount, childCount, none, full]
    · simp [dataCount, childCount, full]
      omega
  simp only [viewItemSet, StateT.run_bind, run_read, ok_bind, room, if_false, keyList]
  rw [insertionSort_snoc sortedKeys, index]
  have inserted :
      insertSlot (xs.map (fun x => some x.2) ++ ys.map (fun x => some x.2) ++ [none]) xs.length (some d) =
      (xs ++ (k, d) :: ys).map (fun x => some x.2) := by
    have := insertSlot_append (xs.map fun x => some x.2) (ys.map fun x => some x.2) none (some d)
    simpa using this
  cases target with
  | none =>
    refine ⟨_, rfl, by simp, ?_, by simp⟩
    rw [← inserted, ← dataList]
    rfl
  | some r =>
    obtain ⟨⟩ | ⟨-, lengthA, lengthB⟩ := fits
    · simp_all
    have childList : (List.range 5).map (s.node p).childOptr = A.map some ++ B.map some ++ [none] := by
      have size : (A ++ B).length = 4 := by simp; omega
      have slots := map_range_slots (g := (s.node p).childOptr) childs
        (fun i inside => childOptr_eq (by rwa [childCount])) (by simp [ItemSet.childOptr, childCount])
      rw [size] at slots
      simpa using slots
    simp only [StateT.run_bind, run_getOptr, run_get]
    refine ⟨_, rfl, by simp, ?_, fun _ => ?_⟩
    · rw [← inserted, ← dataList]
      rfl
    · have := insertSlot_append (A.map some) (B.map some) none (some r)
      rw [← childList, List.length_map, lengthA] at this
      simpa using this.trans (by simp)

/-- What a split of the node `p` leaves: the first of the four pairs in `p`, the last two
in a new node, and the children on each side. -/
structure Split (s s' : IndexFile) (p : Nat) (I : List (Key × Nat)) (C : List Nat) : Prop where
  left : (s'.node p).Has (I.take 1) (C.take 2)
  leftParent : (s'.node p).parent = (s.node p).parent
  right : (s'.node s.top).Has (I.drop 2) (C.drop 2)
  rightParent : (s'.node s.top).parent = (s.node p).parent
  others : ∀ q, q ≠ p → q ≠ s.top → s'.node q = if q ∈ C.drop 2 then (s.node q).setParent s.top else s.node q
  top : s'.top = s.top + 103
  head : s'.head = s.head

theorem splitONode_run {s : IndexFile} {p : Nat} {view : ViewItemSet Nat} {I : List (Key × Nat)} {C : List Nat}
    (size : I.length = 4) (keys : view.key = I.map Prod.fst) (datas : view.dataOptr = I.map (fun x => some x.2))
    (old : p ≠ s.top)
    (kids : (s.node p).childOptrCount = 0 ∧ C = [] ∨
      0 < (s.node p).childOptrCount ∧ C.length = 5 ∧ view.childOptr = C.map some ∧ ∀ c ∈ C, c ≠ s.top ∧ c ≠ p) :
    ∃ s', (oNode.splitONode p view).run s = .ok (s.top, s') ∧ Split s s' p I C := by
  suffices found : ∃ s', (oNode.splitONode p view).run s = .ok (s.top, s') ∧
      (s'.node p).Has (I.take 1) (C.take 2) ∧ (s'.node p).parent = (s.node p).parent ∧
      (s'.node s.top).Has (I.drop 2) (C.drop 2) ∧ (s'.node s.top).parent = (s.node p).parent ∧
      (∀ q, q ≠ p → q ≠ s.top → s'.node q = if q ∈ C.drop 2 then (s.node q).setParent s.top else s.node q) ∧
      s'.top = s.top + 103 ∧ s'.head = s.head by
    obtain ⟨s', run, left, leftParent, right, rightParent, others, top, head⟩ := found
    exact ⟨s', run, left, leftParent, right, rightParent, others, top, head⟩
  obtain ⟨a, b, c, e, rfl⟩ := List.length_eq_four.mp size
  rcases kids with ⟨leaf, rfl⟩ | ⟨inner, size', childs, apart⟩
  · simp [splitONode, keys, datas, leaf, old, old.symm, has_iff, Run, setKey_eq]
    intro q notP notTop
    simp [notP, notTop]
  · obtain ⟨c₀, C', rfl⟩ := List.exists_cons_of_length_eq_add_one size'
    obtain ⟨c₁, c₂, c₃, c₄, rfl⟩ := List.length_eq_four.mp (Nat.succ.inj size')
    obtain ⟨-, -, ⟨new₂, other₂⟩, ⟨new₃, other₃⟩, new₄, other₄⟩ := by
      simpa only [List.forall_mem_cons, List.not_mem_nil, false_implies, forall_const, and_true] using apart
    simp [splitONode, keys, datas, childs, inner, old, old.symm, new₂.symm, new₃.symm, new₄.symm,
      other₂.symm, other₃.symm, other₄.symm, has_iff, Run, setKey_eq, setChildOptr_eq, ItemSet.childOptr]
    intro q notP notTop
    simp only [notP, notTop, if_false, ItemSet.setParent]
    split_ifs <;> simp_all

/-- A new root at the end of the file, over `p` and `r` with the pair `x` between them. -/
structure Grown (s s' : IndexFile) (p r : Nat) (x : Key × Nat) : Prop where
  root : (s'.node s.top).Has [x] [p, r]
  rootParent : (s'.node s.top).parent = 0
  left : s'.node p = (s.node p).setParent s.top
  right : s'.node r = (s.node r).setParent s.top
  others : ∀ q, q ≠ p → q ≠ r → q ≠ s.top → s'.node q = s.node q
  top : s'.top = s.top + 103
  head : s'.head = { s.head with root := s.top }

theorem growRoot_run {s : IndexFile} {p r : Nat} {x : Key × Nat} (old : p ≠ s.top) (oldR : r ≠ s.top)
    (apart : p ≠ r) :
    ∃ s', (oNode.growRoot p x.1 (some x.2) r).run s = .ok (s.top, s') ∧ Grown s s' p r x := by
  suffices found : ∃ s', (oNode.growRoot p x.1 (some x.2) r).run s = .ok (s.top, s') ∧
    (s'.node s.top).Has [x] [p, r] ∧
      (s'.node s.top).parent = 0 ∧ s'.node p = (s.node p).setParent s.top ∧
      s'.node r = (s.node r).setParent s.top ∧ (∀ q, q ≠ p → q ≠ r → q ≠ s.top → s'.node q = s.node q) ∧
      s'.top = s.top + 103 ∧ s'.head = { s.head with root := s.top } by
    obtain ⟨s', run, root, rootParent, left, right, others, top, head⟩ := found
    exact ⟨s', run, root, rootParent, left, right, others, top, head⟩
  simp [growRoot, old, oldR, apart, apart.symm, old.symm, oldR.symm, has_iff, Run, setKey_eq, setChildOptr_eq]
  intro q notP notR notTop
  simp [notP, notR, notTop]

end MiyaCore
