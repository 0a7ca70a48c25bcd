import MiyaCore.Index.Insertion
import MiyaCore.SearchTree.Levels

/-!
# Lookup

`subtreeFind` compares the first five bytes of the keys. It meets the entries that
share them in breadth-first order, and returns the first.
-/

namespace MiyaCore
open NodeFile ItemSet SearchTree

theorem Key.head5_mono {a b : Key} (order : a ≤ b) : a.head5 ≤ b.head5 := Nat.div_le_div_right order

/-- Sorted entries cut where the first five bytes reach those of `k`. -/
theorem cut_head5 {l : List (Key × Nat)} (k : Key) (sorted : l.Pairwise (fun a b => a.1 < b.1)) :
    ∃ X Y, l = X ++ Y ∧ (∀ x ∈ X, x.1.head5 < k.head5) ∧ ∀ y ∈ Y, k.head5 ≤ y.1.head5 := by
  induction l with
  | nil => exact ⟨[], [], rfl, by simp, by simp⟩
  | cons x l ih =>
    obtain ⟨first, rest⟩ := List.pairwise_cons.mp sorted
    rcases lt_or_ge x.1.head5 k.head5 with less | more
    · obtain ⟨X, Y, rfl, left, right⟩ := ih rest
      refine ⟨x :: X, Y, rfl, fun y member => ?_, right⟩
      rcases List.mem_cons.mp member with rfl | inner
      · exact less
      · exact left y inner
    · refine ⟨[], x :: l, rfl, by simp, fun y member => ?_⟩
      rcases List.mem_cons.mp member with rfl | inner
      · exact more
      · exact more.trans (Key.head5_mono (first y inner).le)

theorem scanFind_skip {it : ItemSet} {k : Key} {i n : Nat} (rest : List Nat)
    (skipped : ∀ j, i ≤ j → j < i + n → ∃ r : Key, it.rawKey j = some r ∧ r.head5 < k.head5) :
    scanFind it k (List.range' i n ++ rest) = scanFind it k rest := by
  induction n generalizing i with
  | zero => simp
  | succ n ih =>
    obtain ⟨r, raw, less⟩ := skipped i le_rfl (by omega)
    rw [List.range'_succ, List.cons_append, scanFind, raw]
    simp only [less.not_gt, less.ne', if_false]
    exact ih fun j after below => skipped j (by omega) (by omega)

/-- Where the scan of a node stops. -/
theorem scanFind_eq {it : ItemSet} {X Y : List (Key × Nat)} {cs : List Nat} {k : Key} (has : it.Has (X ++ Y) cs)
    (size : (X ++ Y).length ≤ 3) (left : ∀ x ∈ X, x.1.head5 < k.head5) (right : ∀ y ∈ Y, k.head5 ≤ y.1.head5) :
    scanFind it k (List.range it.keyCount) =
      match Y with
      | [] => .inr (cs.length - 1)
      | y :: _ => if y.1.head5 = k.head5 then .inl X.length else .inr X.length := by
  have cut : List.range it.keyCount = List.range' 0 X.length ++ List.range' X.length Y.length := by
    rw [has.keyCount, List.length_append, List.range_eq_range', ← List.range'_append_1, Nat.zero_add]
  rw [cut, scanFind_skip]
  · cases Y with
    | nil => simp [scanFind, has.childOptrCount]
    | cons y Y =>
      have raw := has.rawKey size (i := X.length) (by simp)
      rw [List.length_cons, List.range'_succ, scanFind, raw]
      simp only [List.getElem_append_right, le_refl, Nat.sub_self, List.getElem_cons_zero]
      rcases (right y (by simp)).lt_or_eq with less | same
      · simp [less, less.ne']
      · simp [same]
  · intro j _ below
    rw [Nat.zero_add] at below
    refine ⟨_, has.rawKey size (i := j) (by simp; omega), ?_⟩
    rw [List.getElem_append_left below]
    exact left _ (List.getElem_mem below)

section Find
variable {s : IndexFile} {g : Nat → Option (Label Key)} {root height : Nat}

/-- The entries that share five bytes with a key. -/
def sharesHead (k : Key) (x : Key × Nat) : Bool := x.1.head5 = k.head5

theorem subtreeFind_run {fuel p h : Nat} {lo : WithBot Key} {hi : WithTop Key} {k : Key}
    (indexed : Indexed s s.nodes g root height) (label : g p = some (h, lo, hi)) (enough : h < fuel) :
    (oNode.subtreeFind fuel p k).run s =
      .ok (((byLevel s.nodes h p).find? (sharesHead k)).map Prod.snd, s) := by
  induction fuel generalizing p h lo hi with
  | zero => omega
  | succ fuel ih =>
    have has := indexed.has label
    have small := indexed.items_le label
    obtain ⟨X, Y, items, left, right⟩ := cut_head5 k (spaced_iff.mp (indexed.labelled.spaced label)).1
    rw [items] at has small
    simp only [subtreeFind, StateT.run_bind, run_read, ok_bind]
    rw [scanFind_eq has small left right]
    obtain ⟨rest, split⟩ := byLevel_eq s.nodes h p
    by_cases hit : ∃ y Y', Y = y :: Y' ∧ y.1.head5 = k.head5
    · obtain ⟨y, Y', rfl, same⟩ := hit
      have value := has.dataOptr (i := X.length) (by simp)
      have skip : X.find? (sharesHead k) = none := by
        rw [List.find?_eq_none]
        exact fun x member => by simpa [sharesHead] using (left x member).ne
      rw [split, items]
      simp [same, value, skip, sharesHead]
    · have beyond : ∀ y ∈ Y, k.head5 < y.1.head5 := by
        have sorted := (spaced_iff.mp (indexed.labelled.spaced label)).1
        rw [items, List.pairwise_append] at sorted
        cases Y with
        | nil => simp
        | cons y Y =>
          have first : k.head5 < y.1.head5 :=
            lt_of_le_of_ne (right y (by simp)) fun same => hit ⟨y, Y, rfl, same.symm⟩
          intro z member
          rcases List.mem_cons.mp member with rfl | inner
          · exact first
          · exact first.trans_le (Key.head5_mono ((List.pairwise_cons.mp sorted.2.1).1 z inner).le)
      have own : ∀ x ∈ s.nodes.items p, ¬sharesHead k x := by
        intro x member
        rw [items, List.mem_append] at member
        rcases member with inX | inY
        · simpa [sharesHead] using (left x inX).ne
        · simpa [sharesHead] using (beyond x inY).ne'
      cases h with
      | zero =>
        have missed : (byLevel s.nodes 0 p).find? (sharesHead k) = none := by
          rw [List.find?_eq_none]
          simpa [byLevel, level] using own
        have noKids := indexed.labelled.leaf label
        have childNone : ∀ i, (s.node p).childOptr i = none := by
          intro i
          rw [ItemSet.childOptr, if_pos]
          rw [← ItemSet.length_kids, ← nodes_kids, noKids]
          simp
        rw [missed]
        cases Y with
        | nil => simp [childNone]
        | cons y Y => simp [(beyond y (by simp)).ne', childNone]
      | succ h =>
        have inner := indexed.labelled.inner label
        have size := inner.length
        rw [items, List.length_append] at size
        rw [List.length_append] at small
        obtain ⟨A, c, B, kids, place⟩ := exists_place (show X.length < (s.nodes.kids p).length by omega)
        rw [items, kids] at inner
        have deeper := ih (inner.kid_label place) (by omega)
        have sameFind : (byLevel s.nodes (h + 1) p).find? (sharesHead k) = (byLevel s.nodes h c).find?
          (sharesHead k) := by
          rw [← List.head?_filter, ← List.head?_filter,
            indexed.labelled.filter_byLevel label items kids place own]
          · intro x member z less
            simpa [sharesHead] using ((Key.head5_mono less.le).trans_lt (left x member)).ne
          · intro y member z more
            simpa [sharesHead] using ((beyond y member).trans_le (Key.head5_mono more.le)).ne'
        have child : (s.node p).childOptr (X.length % 65536) = some c := by
          rw [kids] at has
          rw [Nat.mod_eq_of_lt (by omega), ← place, has.childOptr]
        rw [sameFind]
        cases Y with
        | nil =>
          simp only [List.length_nil, Nat.add_zero] at size
          simp only [size, Nat.add_sub_cancel, StateT.run_bind, run_child, ok_bind, child]
          exact deeper
        | cons y Y =>
          simp only [(beyond y (by simp)).ne', if_false, StateT.run_bind, run_child, ok_bind, child]
          exact deeper

end Find

namespace OBtree

/-- The entries of the tree in breadth-first order. -/
def byLevel (t : OBtree) (h : Nat) : List (Key × Nat) := SearchTree.byLevel t.file.nodes h t.rootONode

theorem find_run {t : OBtree} {h fuel : Nat} {k : Key} (wellFormed : t.WellFormed h) (enough : h < fuel) :
    t.find fuel k = .ok (((t.byLevel h).find? (sharesHead k)).map Prod.snd) := by
  obtain ⟨g, indexed⟩ := wellFormed_iff.mp wellFormed
  rw [find, subtreeFind_run indexed indexed.labelled.top enough]
  rfl

/-- The result of a lookup that is exact on the key. -/
def FindExact (t : OBtree) (h fuel : Nat) (k : Key) : Prop :=
  ∃ r, t.find fuel k = .ok r ∧ ∀ d, r = some d ↔ (k, d) ∈ t.pairs h

theorem findExact_of_first {t : OBtree} {h fuel : Nat} {k : Key} (wellFormed : t.WellFormed h)
    (enough : h < fuel) (first : ∀ x, (t.byLevel h).find? (sharesHead k) = some x →
    (k, x.2) ∈ t.pairs h) : t.FindExact h fuel k := by
  refine ⟨_, find_run wellFormed enough, fun d => ⟨fun found => ?_, fun member => ?_⟩⟩
  · obtain ⟨x, isFirst, rfl⟩ := Option.map_eq_some_iff.mp found
    exact first x isFirst
  · obtain ⟨g, indexed⟩ := wellFormed_iff.mp wellFormed
    have inLevels : (k, d) ∈ t.byLevel h := indexed.labelled.mem_byLevel_of_inorder indexed.labelled.top member
    obtain ⟨x, isFirst⟩ : ∃ x, (t.byLevel h).find? (sharesHead k) = some x := by
      rw [← Option.isSome_iff_exists, List.find?_isSome]
      exact ⟨(k, d), inLevels, by simp [sharesHead]⟩
    have same := eq_of_key_eq wellFormed.sorted (first x isFirst) member rfl
    simpa [isFirst] using same

/-- Lookup is exact for `k` if and only if the first entry in breadth-first order that shares
its first five bytes has the data pointer of `k`. -/
theorem findExact_iff (t : OBtree) (h fuel : Nat) (k : Key) (wellFormed : t.WellFormed h) (enough : h < fuel) :
    t.FindExact h fuel k ↔ ∀ x, (t.byLevel h).find? (sharesHead k) = some x → (k, x.2) ∈ t.pairs h := by
  have run := find_run (k := k) wellFormed enough
  constructor
  · rintro ⟨r, found, exact_⟩ x first
    rw [run, first] at found
    obtain rfl : some x.2 = r := by simpa using found
    exact (exact_ x.2).mp rfl
  · exact findExact_of_first wellFormed enough

/-- A tree of one leaf with the keys 1 and 2, which share their first five bytes. -/
def twins : OBtree where
  file :=
    { top := 203
      node := fun _ => { keyCount := 2, dataOptrCount := 2,
                         keySlot := fun i => if i = 0 then 1 else 2, dataSlot := fun i => 10 + i } }
  rootONode := 100

theorem twins_wellFormed : twins.WellFormed 0 := by
  refine ⟨⟨by simp [IndexFile.NodeOK, twins], rfl⟩, ?_⟩
  simp [pairs, inorder, IndexFile.nodes, ItemSet.items, twins, List.range_succ]

theorem findExact_iff_twins : twins.WellFormed 0 ∧ (twins.FindExact 0 1 1 ↔
    ∀ x, (twins.byLevel 0).find? (sharesHead 1) = some x → (1, x.2) ∈ twins.pairs 0) :=
  ⟨twins_wellFormed, findExact_iff twins 0 1 1 twins_wellFormed (by decide)⟩

/-- The lookup of the second key returns the data pointer of the first. -/
theorem find_not_exact : twins.WellFormed 0 ∧ twins.find 1 2 = .ok (some 10) ∧ (2, 11) ∈ twins.pairs 0 ∧
    ¬twins.FindExact 0 1 2 := by
  have found : twins.find 1 2 = .ok (some 10) := by decide
  refine ⟨twins_wellFormed, found, by decide, ?_⟩
  rintro ⟨r, run, exact_⟩
  obtain rfl : some 10 = r := by simpa [found] using run
  exact absurd ((exact_ 10).mp rfl) (by decide)

end OBtree

end MiyaCore
