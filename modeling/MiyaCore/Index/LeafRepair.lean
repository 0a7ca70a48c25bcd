import MiyaCore.Index.Deletion
import MiyaCore.Index.MergeRuns
import MiyaCore.SearchTree.Below

/-!
# Repair over the leaves

What `underflow` leaves below a node over leaves, one of which loses its last key, when the parent needs no
repair itself.
-/

namespace MiyaCore
open NodeFile ItemSet SearchTree

namespace IndexFile

/-- A well-formed node over leaves. -/
structure OverLeaves (s : IndexFile) (P : Nat) : Prop where
  built : Built s.nodes s.NodeOK 1 (s.node P).parent P
  sorted : (inorder s.nodes 1 P).Pairwise fun a b => a.1 < b.1

instance (s : IndexFile) (P : Nat) : Decidable (s.OverLeaves P) :=
  decidable_of_iff (Built s.nodes s.NodeOK 1 (s.node P).parent P ∧
  (inorder s.nodes 1 P).Pairwise fun a b => a.1 < b.1)
    ⟨fun both => ⟨both.1, both.2⟩, fun above => ⟨above.built, above.sorted⟩⟩

/-- Below the node are the old pairs but that of `k`, and the counts there fit together. -/
structure Repaired (s s' : IndexFile) (P : Nat) (k : Key) : Prop where
  pairs : inorder s'.nodes 1 P = (inorder s.nodes 1 P).filter (·.1 ≠ k)
  counts : ∀ p ∈ P :: (s'.node P).kids, (s'.node p).keyCount = (s'.node p).dataOptrCount
  childOptrCount : (s'.node P).childOptrCount = (s'.node P).keyCount + 1

/-- `underflow` comes to its end, with the pairs and the counts right. -/
def UnderflowRepairs (s : IndexFile) (P L : Nat) (k : Key) : Prop :=
  ∃ r s', (oNode.underflow P L).run s = .ok (r, s') ∧ s.Repaired s' P k

section OverLeaves
variable {s s' : IndexFile} {P L n : Nat} {X Y : List (Key × Nat)} {w x z : Key × Nat} {A B : List Nat}

theorem NodeOK.has {h q p : Nat} (ok : s.NodeOK h q p) : (s.node p).Has (s.nodes.items p) (s.nodes.kids p) :=
  ⟨rfl, rfl, by rw [ok.2.2.2.1, nodes_items, ItemSet.length_items]⟩

theorem NodeOK.items_le {h q p : Nat} (ok : s.NodeOK h q p) : (s.nodes.items p).length ≤ 3 := by
  rw [nodes_items, ItemSet.length_items]
  exact ok.2.2.2.2.1

/-- The lists of a well-formed node, by the names they have. -/
theorem NodeOK.parts {h q p : Nat} {I : List (Key × Nat)} {C : List Nat} (ok : s.NodeOK h q p)
    (fits : (s.nodes.kids p).length = (s.nodes.items p).length + 1) (items : s.nodes.items p = I)
    (kids : s.nodes.kids p = C) : (s.node p).Has I C ∧ I.length ≤ 3 ∧ C.length = I.length + 1 := by
  subst items kids
  exact ⟨NodeOK.has ok, NodeOK.items_le ok, fits⟩

theorem NodeOK.filled {h q p : Nat} (ok : s.NodeOK h q p) (below : q ≠ 0) : s.nodes.items p ≠ [] :=
  items_ne_nil (ok.2.2.2.2.2.resolve_right fun root => below root.1)

theorem NodeOK.filled_inner {h q p : Nat} (ok : s.NodeOK (h + 1) q p) : s.nodes.items p ≠ [] :=
  items_ne_nil (ok.2.2.2.2.2.resolve_right fun root => absurd root.2 (Nat.succ_ne_zero h))

variable (above : s.OverLeaves P)
include above

theorem OverLeaves.leaf {c : Nat} (isKid : c ∈ s.nodes.kids P) :
    (s.node c).Has (s.nodes.items c) [] ∧ (s.nodes.items c).length ≤ 3 ∧ s.nodes.items c ≠ [] ∧ P ≠ c := by
  have built := above.built.2.2 c isKid
  have has := NodeOK.has built.1
  rw [built.2] at has
  refine ⟨has, NodeOK.items_le built.1, NodeOK.filled built.1 above.built.local.1.ne', ?_⟩
  rintro rfl
  exact absurd (above.built.height_unique built) (by decide)

theorem OverLeaves.kids_nodup : (s.nodes.kids P).Nodup :=
  nodup_of_weave above.built.2.1 above.sorted fun _ isKid => (above.leaf isKid).2.2.1

/-- The pairs without those of a leaf with one key. -/
theorem OverLeaves.gone (items : s.nodes.items P = X ++ Y) (kids : s.nodes.kids P = A ++ L :: B)
    (place : A.length = X.length) (only : s.nodes.items L = [x]) :
    (inorder s.nodes 1 P).filter (·.1 ≠ x.1) =
      weave (A.map s.nodes.items ++ [] :: B.map s.nodes.items) (X ++ Y) := by
  obtain ⟨F, G, split⟩ := weave_focus (A := A.map s.nodes.items) (X := X) (by simpa using place)
    (B.map s.nodes.items) Y
  have whole : inorder s.nodes 1 P = F ++ [x] ++ G := by
    rw [inorder, items, kids, List.map_append, List.map_cons, ← split, ← only]
    rfl
  have sorted := above.sorted
  rw [whole] at sorted ⊢
  rw [filter_ne_key sorted, split]

/-- Two neighbouring leaves with the pairs between them distributed anew. -/
theorem OverLeaves.repaired {a b : Nat} {l r l' r' : List (Key × Nat)} {k : Key}
    (kids : s.nodes.kids P = A ++ a :: b :: B) (place : A.length = X.length)
    (gone : (inorder s.nodes 1 P).filter (·.1 ≠ k) =
      weave (A.map s.nodes.items ++ l :: r :: B.map s.nodes.items) (X ++ w :: Y))
    (entries : l ++ w :: r = l' ++ z :: r') (hasP : (s'.node P).Has (X ++ z :: Y) (A ++ a :: b :: B))
    (fits : (A ++ a :: b :: B).length = (X ++ z :: Y).length + 1) (hasA : (s'.node a).Has l' [])
    (hasB : (s'.node b).Has r' []) (same : ∀ p, p ≠ P → p ≠ a → p ≠ b → s'.node p = s.node p) :
    s.Repaired s' P k := by
  have nodup := above.kids_nodup
  rw [kids] at nodup
  have others : ∀ c ∈ A ++ B, s'.node c = s.node c := by
    intro c member
    have isKid : c ∈ s.nodes.kids P := by
      rw [kids]
      simp only [List.mem_append, List.mem_cons] at member ⊢
      tauto
    have apart : c ≠ a ∧ c ≠ b := by
      rw [List.nodup_middle, List.nodup_cons, List.nodup_middle, List.nodup_cons] at nodup
      constructor <;> rintro rfl
      · exact nodup.1 (by simp only [List.mem_append, List.mem_cons] at member ⊢; tauto)
      · exact nodup.2.1 member
    exact same c (above.leaf isKid).2.2.2.symm apart.1 apart.2
  have front : A.map s'.nodes.items = A.map s.nodes.items := List.map_congr_left fun c member => by
    rw [nodes_items, nodes_items, others c (List.mem_append_left _ member)]
  have back : B.map s'.nodes.items = B.map s.nodes.items := List.map_congr_left fun c member => by
    rw [nodes_items, nodes_items, others c (List.mem_append_right _ member)]
  refine ⟨?_, fun p member => ?_, ?_⟩
  · rw [gone, weave_rotate (by simpa using place) entries, ← front, ← back]
    rw [inorder, nodes_items, nodes_kids, hasP.items, hasP.kids, List.map_append, List.map_cons, List.map_cons]
    have leafA : inorder s'.nodes 0 a = l' := hasA.items
    have leafB : inorder s'.nodes 0 b = r' := hasB.items
    rw [leafA, leafB]
    rfl
  · rw [hasP.kids, List.mem_cons] at member
    rcases member with rfl | member
    · rw [hasP.keyCount, hasP.datas]
    by_cases isA : p = a
    · rw [isA, hasA.keyCount, hasA.datas]
    by_cases isB : p = b
    · rw [isB, hasB.keyCount, hasB.datas]
    have beside : p ∈ A ++ B := by
      simp only [List.mem_append, List.mem_cons] at member ⊢
      tauto
    have isKid : p ∈ s.nodes.kids P := by rwa [kids]
    have has := (above.leaf isKid).1
    rw [others p beside, has.keyCount, has.datas]
  · rw [hasP.childOptrCount, hasP.keyCount, fits]

/-- The neighbour to the left hands an entry over. -/
theorem OverLeaves.lend_left (items : s.nodes.items P = X ++ w :: Y) (kids : s.nodes.kids P = A ++ n :: L :: B)
    (place : A.length = X.length) (only : s.nodes.items L = [x]) (spare : 2 ≤ (s.node n).keyCount) :
    s.UnderflowRepairs P L x.1 := by
  obtain ⟨hasP, sizeP, fits⟩ := NodeOK.parts above.built.local above.built.2.1 items kids
  have nodup := above.kids_nodup
  obtain ⟨hasN, sizeN, -, Pn⟩ := above.leaf (c := n) (by simp [kids])
  obtain ⟨hasL, -, -, PL⟩ := above.leaf (c := L) (by simp [kids])
  have gone := above.gone (A := A ++ [n]) (X := X ++ [w]) (by simpa using items) (by simpa using kids)
    (by simpa using place) only
  rw [kids] at nodup
  have some : 2 ≤ (s.nodes.items n).length := by rwa [nodes_items, ItemSet.length_items]
  obtain ⟨l, z, itemsN⟩ := (s.nodes.items n).eq_nil_or_concat.resolve_left fun none => by simp [none] at some
  rw [List.concat_eq_append] at itemsN
  rw [itemsN] at hasN sizeN some
  have spareL : l ≠ [] := by
    rintro rfl
    simp at some
  have first : L ∉ A ++ [n] := by
    intro member
    rw [← List.singleton_append, ← List.append_assoc] at nodup
    exact (List.nodup_append.mp nodup).2.2 L member L List.mem_cons_self rfl
  obtain ⟨s', run, nodeL, nodeP, nodeN, same⟩ :=
    underflow_left_run hasP place sizeP fits first PL Pn hasN sizeN spareL
  have hasP' : (s'.node P).Has (X ++ z :: Y) (A ++ n :: L :: B) := by
    rw [nodeP]
    exact hasP.replace sizeP z
  have hasN' : (s'.node n).Has l [] := by
    rw [nodeN]
    simpa using hasN.erase (Y := []) sizeN
  have hasL' : (s'.node L).Has [w] [] := by
    rw [nodeL]
    exact Has.single hasL.kids w
  refine ⟨none, s', run, above.repaired kids place (by simpa using gone) ?_ hasP' (by simpa using fits) hasN' hasL'
    fun p isP isN isL => same.1 p (by simp [isP, isN, isL])⟩
  rw [itemsN, List.append_assoc, List.singleton_append]

/-- The neighbour to the right hands an entry over. -/
theorem OverLeaves.lend_right (items : s.nodes.items P = X ++ w :: Y) (kids : s.nodes.kids P = A ++ L :: n :: B)
    (place : A.length = X.length) (only : s.nodes.items L = [x]) (few : s.keysOf A.getLast? < 2)
    (spare : 2 ≤ (s.node n).keyCount) : s.UnderflowRepairs P L x.1 := by
  obtain ⟨hasP, sizeP, fits⟩ := NodeOK.parts above.built.local above.built.2.1 items kids
  have nodup := above.kids_nodup
  obtain ⟨hasN, sizeN, -, Pn⟩ := above.leaf (c := n) (by simp [kids])
  obtain ⟨hasL, -, -, PL⟩ := above.leaf (c := L) (by simp [kids])
  have gone := above.gone items kids place only
  rw [kids] at nodup
  have some : 2 ≤ (s.nodes.items n).length := by rwa [nodes_items, ItemSet.length_items]
  obtain ⟨z, l, itemsN⟩ := List.exists_cons_of_length_pos (show 0 < (s.nodes.items n).length by omega)
  rw [itemsN] at hasN sizeN some
  have spareL : l ≠ [] := by
    rintro rfl
    simp at some
  have apart := (List.nodup_append.mp nodup).2
  have first : L ∉ A := fun member => apart.2 L member L List.mem_cons_self rfl
  have nL : n ≠ L := by
    rintro rfl
    exact (List.nodup_cons.mp apart.1).1 List.mem_cons_self
  obtain ⟨s', run, nodeL, nodeP, nodeN, same⟩ :=
    underflow_right_run hasP place sizeP fits first PL Pn nL few hasN sizeN spareL
  have hasP' : (s'.node P).Has (X ++ z :: Y) (A ++ L :: n :: B) := by
    rw [nodeP]
    exact hasP.replace sizeP z
  have hasN' : (s'.node n).Has l [] := by
    rw [nodeN]
    exact Has.erase (X := []) hasN sizeN
  have hasL' : (s'.node L).Has [w] [] := by
    rw [nodeL]
    exact Has.single hasL.kids w
  refine ⟨none, s', run, above.repaired kids place (by simpa using gone) ?_ hasP' (by simpa using fits) hasL' hasN'
    fun p isP isL isN => same.1 p (by simp [isP, isL, isN])⟩
  rw [itemsN, List.nil_append, List.singleton_append]

/-- A merge that leaves the node a key keeps a data pointer too many there. -/
theorem OverLeaves.not_repairs_of_merge {k : Key} {i j : Nat}
    (merges : ∃ s', (oNode.underflow P L).run s = .ok (none, s') ∧
      s'.node P = ((s.node P).moveDeleteChildOptr i).moveDeleteKey j) : ¬s.UnderflowRepairs P L k := by
  obtain ⟨s', run, nodeP⟩ := merges
  rintro ⟨r, s'', run', repaired⟩
  obtain ⟨-, rfl⟩ := Prod.mk.inj (Except.ok.inj (run.symm.trans run'))
  have counts := repaired.counts P List.mem_cons_self
  obtain ⟨-, -, -, even, small, some⟩ := above.built.local
  have filled : 1 ≤ (s.node P).keyCount := some.resolve_right fun root => absurd root.2 (by decide)
  have children : (s.node P).childOptrCount = (s.node P).keyCount + 1 := by
    have fits := above.built.2.1
    rwa [nodes_kids, nodes_items, ItemSet.length_kids, ItemSet.length_items] at fits
  rw [nodeP, moveDeleteChildOptr_eq (by omega) (by omega), moveDeleteKey_eq (by simpa using filled)
    (by simpa using small)] at counts
  simp only at counts
  omega

/-- Without a neighbour that lends a key, and with keys to spare, the leaf is merged. -/
theorem OverLeaves.merges (items : s.nodes.items P = X ++ Y) (kids : s.nodes.kids P = A ++ L :: B)
    (place : A.length = X.length) (left : s.keysOf A.getLast? < 2) (right : s.keysOf B.head? < 2)
    (spare : 2 ≤ (s.node P).keyCount) : ∃ s' i j, (oNode.underflow P L).run s = .ok (none, s') ∧
      s'.node P = ((s.node P).moveDeleteChildOptr i).moveDeleteKey j := by
  obtain ⟨hasP, sizeP, fits⟩ := NodeOK.parts above.built.local above.built.2.1 items kids
  have nodup := above.kids_nodup
  rw [kids] at nodup
  have many : 2 ≤ (X ++ Y).length := by rwa [← hasP.keyCount]
  have first : L ∉ A := fun member => (List.nodup_append.mp nodup).2.2 L member L List.mem_cons_self rfl
  have single : ∀ n, n ∈ s.nodes.kids P → (s.node n).keyCount < 2 → ∃ y, (s.node n).Has [y] [] := by
    intro n isKid few
    obtain ⟨has, -, some, -⟩ := above.leaf isKid
    have length := List.length_pos_iff.mpr some
    rw [has.keyCount] at few
    obtain ⟨y, one⟩ := List.length_eq_one_iff.mp (show (s.nodes.items n).length = 1 by omega)
    exact ⟨y, one ▸ has⟩
  rw [underflow_merge_run hasP (by omega) first left right]
  rcases nil_or_snoc place with ⟨rfl, rfl⟩ | ⟨A, n, X, w, rfl, rfl, aligned⟩
  · simp only [List.nil_append, List.length_cons] at hasP fits many sizeP kids
    obtain ⟨w, Y, rfl⟩ := List.exists_cons_of_length_pos (show 0 < Y.length by omega)
    obtain ⟨n, B, rfl⟩ := List.exists_cons_of_length_pos (show 0 < B.length by simp at fits; omega)
    obtain ⟨y, hasN⟩ := single n (by simp [kids]) right
    obtain ⟨s', run, -, nodeP, -⟩ := merge_spare_right_run hasP sizeP fits many hasN
      (above.leaf (c := n) (by simp [kids])).2.2.2
    exact ⟨s', 0, 0, run, nodeP⟩
  · simp only [List.append_assoc, List.singleton_append, List.length_append, List.length_singleton,
      List.getLast?_append, List.getLast?_singleton, Option.some_or] at *
    obtain ⟨y, hasN⟩ := single n (by simp [kids]) left
    obtain ⟨s', run, -, nodeP, -⟩ := merge_spare_left_run hasP aligned (by simpa using sizeP) (by simpa using fits)
      (by simpa using many) hasN (above.leaf (c := n) (by simp [kids])).2.2.2
    exact ⟨s', X.length + 1, X.length, by rw [aligned, run], nodeP⟩

end OverLeaves

/-- A leaf that loses its last key is repaired, without the parent being merged in turn, exactly if a
neighbour of the leaf has a key to spare. -/
theorem underflowRepairs_iff (s : IndexFile) (P i L : Nat) (k : Key) (d : Nat) (above : s.OverLeaves P)
    (isKid : (s.node P).kids[i]? = some L) (only : (s.node L).items = [(k, d)])
    (stays : s.Lends P i ∨ 2 ≤ (s.node P).keyCount) : s.UnderflowRepairs P L k ↔ s.Lends P i := by
  obtain ⟨inside, -⟩ := List.getElem?_eq_some_iff.mp isKid
  obtain ⟨A, c, B, kids, rfl⟩ := exists_place inside
  obtain rfl : c = L := by simpa [kids] using isKid
  obtain ⟨hasP, size, fits⟩ := NodeOK.parts above.built.local above.built.2.1 rfl kids
  have left := leftOf_eq hasP (by omega)
  have right := rightOf_eq hasP (by omega)
  obtain ⟨X, Y, items, place, rest⟩ := exists_cut fits
  unfold Lends at stays ⊢
  rw [left, right] at stays ⊢
  constructor
  · intro repairs
    by_contra few
    obtain ⟨fewLeft, fewRight⟩ := not_or.mp few
    obtain ⟨s', i, j, run, nodeP⟩ := above.merges items kids place (by omega) (by omega)
      (stays.resolve_left few)
    exact above.not_repairs_of_merge ⟨s', run, nodeP⟩ repairs
  · intro lends
    by_cases fromLeft : 2 ≤ s.keysOf A.getLast?
    · rcases nil_or_snoc place with ⟨rfl, rfl⟩ | ⟨A, n, X, w, rfl, rfl, aligned⟩
      · exact absurd fromLeft (by simp [keysOf])
      rw [List.getLast?_append, List.getLast?_singleton, Option.some_or] at fromLeft
      rw [List.append_assoc, List.singleton_append] at items kids
      exact above.lend_left items kids aligned only fromLeft
    · have fromRight := lends.resolve_left fromLeft
      obtain ⟨n, B, rfl⟩ := List.exists_cons_of_ne_nil fun none : B = [] => by simp [none, keysOf] at fromRight
      obtain ⟨w, Y, rfl⟩ := List.exists_cons_of_length_eq_add_one rest.symm
      exact above.lend_right items kids place only (by omega) fromRight

theorem underflowRepairs_iff_lent : OBtree.twoLeaves.file.UnderflowRepairs 306 100 1 ↔
    OBtree.twoLeaves.file.Lends 306 0 :=
  underflowRepairs_iff OBtree.twoLeaves.file 306 0 100 1 11 (by decide +kernel) (by decide +kernel)
    (by decide +kernel) (by decide +kernel)

/-- The first of three leaves is merged into the next: two data pointers stay with the one key above them. -/
theorem underflowRepairs_fails : OBtree.sixKeys.file.OverLeaves 306 ∧
    (OBtree.sixKeys.file.node 306).kids[0]? = some 100 ∧ (OBtree.sixKeys.file.node 100).items = [(1, 11)] ∧
    2 ≤ (OBtree.sixKeys.file.node 306).keyCount ∧ ¬OBtree.sixKeys.file.UnderflowRepairs 306 100 1 := by
  refine ⟨by decide +kernel, by decide +kernel, by decide +kernel, by decide +kernel, ?_⟩
  rintro ⟨r, s', run, repaired⟩
  have ends : ((oNode.underflow 306 100).run OBtree.sixKeys.file).toOption.map
      (fun r => ((r.2.node 306).keyCount, (r.2.node 306).dataOptrCount)) = some (1, 2) := by decide +kernel
  rw [run] at ends
  obtain ⟨keyCount, dataOptrCount⟩ := Prod.mk.inj (Option.some.inj ends)
  have counts := repaired.counts 306 List.mem_cons_self
  rw [keyCount, dataOptrCount] at counts
  cases counts

end IndexFile

end MiyaCore
