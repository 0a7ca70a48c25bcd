import MiyaCore.Index.LeafRepair
import MiyaCore.Index.LiveSlots

/-!
# The merge further up

What `recursiveMerge` leaves below a node with a child that lost its last key, however the node and the
neighbours of the child are filled.
-/

namespace MiyaCore
open NodeFile ItemSet SearchTree

namespace IndexFile

/-- `NodeOK`, but for one node that is without keys. -/
def NodeOKBut (s : IndexFile) (target h parent p : Nat) : Prop :=
  p = target ∧ 0 < p ∧ (s.node p).parent = parent ∧ (s.node p).keyCount = 0 ∧ (s.node p).dataOptrCount = 0 ∨
    p ≠ target ∧ s.NodeOK h parent p

instance (s : IndexFile) (target h parent p : Nat) : Decidable (s.NodeOKBut target h parent p) :=
  inferInstanceAs (Decidable (_ ∧ _ ∧ _ ∧ _ ∧ _ ∨ _ ∧ _))

/-- A node over two levels that are well formed, but for the child at the index: that one lost its last key,
and has one child left. -/
structure Hollow (s : IndexFile) (h P i target : Nat) : Prop where
  isKid : (s.node P).kids[i]? = some target
  built : Built s.nodes (s.NodeOKBut target) (h + 2) (s.node P).parent P
  sorted : (inorder s.nodes (h + 2) P).Pairwise fun a b => a.1 < b.1

instance (s : IndexFile) (h P i target : Nat) : Decidable (s.Hollow h P i target) :=
  decidable_of_iff ((s.node P).kids[i]? = some target ∧
    Built s.nodes (s.NodeOKBut target) (h + 2) (s.node P).parent P ∧
    (inorder s.nodes (h + 2) P).Pairwise fun a b => a.1 < b.1)
    ⟨fun all => ⟨all.1, all.2.1, all.2.2⟩, fun hollow => ⟨hollow.isKid, hollow.built, hollow.sorted⟩⟩

/-- A node knows its parent, and has as many data pointers as keys. -/
def Counted (s : IndexFile) (_h parent p : Nat) : Prop :=
  (s.node p).parent = parent ∧ (s.node p).keyCount = (s.node p).dataOptrCount

/-- The tree below the node, or below the root in its place, has the old pairs and leaves on one level; a root
comes in place of a root only. -/
structure MergedBelow (s s' : IndexFile) (h P : Nat) (r : Option Nat) : Prop where
  root : r.isSome → (s.node P).parent = 0
  tree : ∃ h', Built s'.nodes s'.Counted h' (s.node P).parent (r.getD P) ∧
    inorder s'.nodes h' (r.getD P) = inorder s.nodes (h + 2) P

/-- `recursiveMerge` comes to its end, with the tree in order. -/
def RecursiveMergeKeeps (s : IndexFile) (h P i : Nat) : Prop :=
  ∃ r s', (oNode.recursiveMerge P i).run s = .ok (r, s') ∧ s.MergedBelow s' h P r

section Hollow
variable {s s' : IndexFile} {h P T Q c : Nat} {X Y : List (Key × Nat)} {w x : Key × Nat} {A B : List Nat}

theorem Counted.of_nodeOKBut {j q p : Nat} (ok : s.NodeOKBut T j q p) : s.Counted j q p := by
  rcases ok with ⟨-, -, parent, noKeys, noDatas⟩ | ⟨-, -, -, parent, even, -⟩
  · exact ⟨parent, noKeys.trans noDatas.symm⟩
  · exact ⟨parent, even.symm⟩

theorem NodeOKBut.has {j q p : Nat} (ok : s.NodeOKBut T j q p) :
    (s.node p).Has (s.nodes.items p) (s.nodes.kids p) :=
  ⟨rfl, rfl, by rw [← (Counted.of_nodeOKBut ok).2, nodes_items, ItemSet.length_items]⟩

theorem NodeOKBut.pos {j q p : Nat} (ok : s.NodeOKBut T j q p) : 0 < p := by
  rcases ok with ⟨-, pos, -⟩ | ⟨-, pos, -⟩
  · exact pos
  · exact pos

theorem NodeOKBut.ok {j q p : Nat} (but : s.NodeOKBut T j q p) (other : p ≠ T) : s.NodeOK j q p :=
  (but.resolve_left fun same => other same.1).2

section Setting
variable {i : Nat} (hollow : s.Hollow h P i T) (kids : s.nodes.kids P = A ++ T :: B)
include hollow kids

theorem Hollow.kid {d : Nat} (member : d ∈ A ++ T :: B) : Built s.nodes (s.NodeOKBut T) (h + 1) P d :=
  hollow.built.2.2 d (by rwa [kids])

theorem Hollow.ne_kid {d : Nat} (member : d ∈ A ++ T :: B) : P ≠ d := by
  rintro rfl
  exact absurd (hollow.built.height_unique (hollow.kid kids member)) (by omega)

theorem Hollow.okP : s.NodeOK (h + 2) (s.node P).parent P :=
  NodeOKBut.ok hollow.built.local (hollow.ne_kid kids (by simp))

/-- The emptied child has no pairs, and one child of its own. -/
theorem Hollow.target : (s.node T).Has [] (s.nodes.kids T) ∧ ∃ c, s.nodes.kids T = [c] ∧
    Built s.nodes (s.NodeOKBut T) h T c ∧ (s.node c).parent = T := by
  have built := hollow.kid kids (d := T) (by simp)
  obtain ⟨-, -, -, noKeys, -⟩ := built.local.resolve_right fun other => other.1 rfl
  have none : s.nodes.items T = [] := by
    rw [nodes_items, ← List.length_eq_zero_iff, ItemSet.length_items, noKeys]
  have fits := built.2.1
  rw [none] at fits
  obtain ⟨c, one⟩ := List.length_eq_one_iff.mp fits
  have builtC := built.2.2 c (by simp [one])
  refine ⟨none ▸ NodeOKBut.has built.local, c, one, builtC, (Counted.of_nodeOKBut builtC.local).1⟩

theorem Hollow.kids_nodup : (A ++ T :: B).Nodup := by
  rw [← kids]
  refine nodup_of_weave hollow.built.2.1 hollow.sorted fun d isKid => ?_
  have built := hollow.built.2.2 d isKid
  have posP : P ≠ 0 := (NodeOKBut.pos hollow.built.local).ne'
  by_cases isT : d = T
  · subst isT
    obtain ⟨hasT, c, one, builtC, -⟩ := hollow.target kids
    have notT : c ≠ d := by
      rintro rfl
      exact absurd (builtC.height_unique built) (by omega)
    have filled := NodeOK.filled (NodeOKBut.ok builtC.local notT) (NodeOKBut.pos built.local).ne'
    have below := inorder_ne_nil builtC filled
    rw [inorder, one, nodes_items, hasT.items]
    exact below
  · exact inorder_ne_nil built (NodeOK.filled (NodeOKBut.ok built.local isT) posP)

end Setting

section Frame
variable {i : Nat} (hollow : s.Hollow h P i T) (kids : s.nodes.kids P = A ++ Q :: T :: B)
  (only : s.nodes.kids T = [c]) (same : ∀ y, y ≠ P → y ≠ Q → y ≠ c → s'.node y = s.node y)
include hollow kids only same

omit hollow kids only same in
theorem counted_of_same {j y : Nat} (same : s'.node y = s.node y) : s'.nodes.items y = s.nodes.items y ∧
    s'.nodes.kids y = s.nodes.kids y ∧ ∀ u, s.NodeOKBut T j u y → s'.Counted j u y := by
  refine ⟨by rw [nodes_items, nodes_items, same], by rw [nodes_kids, nodes_kids, same], fun u ok => ?_⟩
  have counted := Counted.of_nodeOKBut ok
  unfold Counted at counted ⊢
  rwa [same]

/-- A node below the node stays, if it is neither the neighbour nor the child that moves. -/
theorem Hollow.same_below {j u y : Nat} (built : Built s.nodes (s.NodeOKBut T) j u y) (low : j ≤ h + 1)
    (notQ : j = h + 1 → y ≠ Q) (notC : j = h → y ≠ c) : s'.node y = s.node y := by
  have kidsT : s.nodes.kids P = (A ++ [Q]) ++ T :: B := by simpa using kids
  obtain ⟨-, c', one, builtC, -⟩ := hollow.target kidsT
  obtain rfl : c' = c := List.singleton_inj.mp (one.symm.trans only)
  refine same y ?_ ?_ ?_
  · rintro rfl
    exact absurd (hollow.built.height_unique built) (by omega)
  · rintro rfl
    exact notQ (built.height_unique (hollow.kid kidsT (d := y) (by simp))) rfl
  · rintro rfl
    exact notC (built.height_unique builtC) rfl

/-- Another child keeps what is below it. -/
theorem Hollow.beside {d : Nat} (member : d ∈ A ++ B) : Built s'.nodes s'.Counted (h + 1) P d ∧
    inorder s'.nodes (h + 1) d = inorder s.nodes (h + 1) d := by
  have kidsT : s.nodes.kids P = (A ++ [Q]) ++ T :: B := by simpa using kids
  have nodup := hollow.kids_nodup kidsT
  rw [List.append_assoc, List.singleton_append, List.nodup_middle, List.nodup_cons, List.nodup_middle,
    List.nodup_cons] at nodup
  have notQ : d ≠ Q := by
    rintro rfl
    exact nodup.1 (by simp only [List.mem_append, List.mem_cons] at member ⊢; tauto)
  have notT : d ≠ T := by
    rintro rfl
    exact nodup.2.1 member
  have isKid : d ∈ (A ++ [Q]) ++ T :: B := by
    simp only [List.mem_append, List.mem_cons] at member ⊢
    tauto
  have built := hollow.kid kidsT isKid
  obtain ⟨-, c', one, -, parentC⟩ := hollow.target kidsT
  obtain rfl : c' = c := List.singleton_inj.mp (one.symm.trans only)
  have apart : ∀ j y, Within s.nodes (h + 1) d j y → s'.node y = s.node y := by
    intro j y within
    obtain ⟨u, builtY⟩ := built.within within
    refine hollow.same_below kids only same builtY within.le ?_ ?_
    · rintro rfl rfl
      exact notQ within.eq_top.symm
    · rintro rfl rfl
      have parent := (Counted.of_nodeOKBut (built.2.2 y within.mem_kids).local).1
      exact notT (parent.symm.trans parentC)
  obtain ⟨items, kids, own⟩ := counted_of_same (T := T) (j := h + 1) (apart (h + 1) d .top)
  exact built.frame (own P built.local) items kids fun j y _ within => counted_of_same (apart j y within)

/-- The neighbour has what the emptied child had, after the pair that was between them. -/
theorem Hollow.joined (hasQ : (s'.node Q).Has (s.nodes.items Q ++ [w]) (s.nodes.kids Q ++ [c]))
    (nodeC : s'.node c = (s.node c).setParent Q) {q : Nat} (parent : (s'.node Q).parent = q) :
    Built s'.nodes s'.Counted (h + 1) q Q ∧
      inorder s'.nodes (h + 1) Q = inorder s.nodes (h + 1) Q ++ w :: inorder s.nodes (h + 1) T := by
  have kidsT : s.nodes.kids P = (A ++ [Q]) ++ T :: B := by simpa using kids
  have nodup := hollow.kids_nodup kidsT
  have builtQ := hollow.kid kidsT (d := Q) (by simp)
  obtain ⟨hasT, c', one, builtC, parentC⟩ := hollow.target kidsT
  obtain rfl : c' = c := List.singleton_inj.mp (one.symm.trans only)
  have QT : Q ≠ T := by
    rintro rfl
    exact (List.nodup_append.mp nodup).2.2 Q (by simp) Q List.mem_cons_self rfl
  have kidsQ : ∀ e ∈ s.nodes.kids Q, Built s'.nodes s'.Counted h Q e ∧
      inorder s'.nodes h e = inorder s.nodes h e := by
    intro e isKid
    have built := builtQ.2.2 e isKid
    have apart : ∀ j y, Within s.nodes h e j y → s'.node y = s.node y := by
      intro j y within
      obtain ⟨u, builtY⟩ := built.within within
      have low := within.le
      refine hollow.same_below kids only same builtY (by omega) (by omega) ?_
      rintro rfl rfl
      rw [within.eq_top] at parentC
      exact QT ((Counted.of_nodeOKBut built.local).1.symm.trans parentC)
    obtain ⟨items, kids, own⟩ := counted_of_same (T := T) (j := h) (apart h e .top)
    exact built.frame (own Q built.local) items kids fun j y _ within => counted_of_same (apart j y within)
  have kidC : Built s'.nodes s'.Counted h Q c' ∧ inorder s'.nodes h c' = inorder s.nodes h c' := by
    have counts := (Counted.of_nodeOKBut builtC.local).2
    refine builtC.frame ⟨by rw [nodeC]; rfl, by rw [nodeC]; exact counts⟩ ?_ ?_ fun j y lower within => ?_
    · rw [nodes_items, nodeC]
      rfl
    · rw [nodes_kids, nodeC]
      rfl
    · obtain ⟨u, builtY⟩ := builtC.within within
      exact counted_of_same (hollow.same_below kids only same builtY (by omega) (by omega) (by omega))
  have fits := builtQ.2.1
  refine ⟨⟨⟨parent, by rw [hasQ.keyCount, hasQ.datas]⟩, ?_, fun e isKid => ?_⟩, ?_⟩
  · rw [nodes_kids, nodes_items, hasQ.kids, hasQ.items]
    simp [fits]
  · rw [nodes_kids, hasQ.kids, List.mem_append, List.mem_singleton] at isKid
    rcases isKid with old | rfl
    · exact (kidsQ e old).1
    · exact kidC.1
  · rw [inorder, nodes_kids, nodes_items, hasQ.kids, hasQ.items, List.map_append, List.map_singleton,
      List.map_congr_left fun e isKid => (kidsQ e isKid).2, kidC.2,
      weave_snoc (by simpa using fits), inorder, inorder, only, nodes_items, nodes_items, hasT.items]
    rfl

end Frame

section Cases
variable {i : Nat} (hollow : s.Hollow h P i T)
include hollow

/-- Beside an emptied child the neighbours are other nodes, with all they need. -/
theorem Hollow.neighbour {Q : Nat} (kids : s.nodes.kids P = A ++ T :: B) (member : Q ∈ A ++ B) :
    P ≠ Q ∧ Q ≠ T ∧ (s.node Q).Has (s.nodes.items Q) (s.nodes.kids Q) ∧ (s.nodes.items Q).length ≤ 3 ∧
      (s.nodes.kids Q).length = (s.nodes.items Q).length + 1 ∧ (s.node Q).parent = P ∧
      s.nodes.items Q ≠ [] := by
  have nodup := hollow.kids_nodup kids
  rw [List.nodup_middle, List.nodup_cons] at nodup
  have QT : Q ≠ T := by
    rintro rfl
    exact nodup.1 member
  have isKid : Q ∈ A ++ T :: B := by
    simp only [List.mem_append, List.mem_cons] at member ⊢
    tauto
  have built := hollow.kid kids isKid
  have ok := NodeOKBut.ok built.local QT
  exact ⟨hollow.ne_kid kids isKid, QT, NodeOK.has ok, NodeOK.items_le ok, built.2.1, ok.2.2.1,
    NodeOK.filled ok (hollow.okP kids).1.ne'⟩

/-- A child of a child is neither the node nor a child. -/
theorem Hollow.ne_of_kid {Q d e : Nat} (kids : s.nodes.kids P = A ++ T :: B) (isKid : Q ∈ A ++ T :: B)
    (below : d ∈ s.nodes.kids Q) : d ≠ P ∧ (e ∈ A ++ T :: B → d ≠ e) := by
  have built := (hollow.kid kids isKid).2.2 d below
  constructor
  · rintro rfl
    exact absurd (hollow.built.height_unique built) (by omega)
  · rintro isKid' rfl
    exact absurd ((hollow.kid kids isKid').height_unique built) (by omega)

/-- A neighbour to the left with one key takes up what the emptied child has. -/
theorem Hollow.joins_left (kids : s.nodes.kids P = A ++ Q :: T :: B) (items : s.nodes.items P = X ++ w :: Y)
    (place : A.length = X.length) (one : (s.node Q).keyCount = 1) (few : s.keysOf B.head? < 2)
    (spares : (s.node P).parent = 0 ∨ X ++ Y ≠ []) : s.RecursiveMergeKeeps h P (A.length + 1) := by
  have kidsT : s.nodes.kids P = (A ++ [Q]) ++ T :: B := by simpa using kids
  obtain ⟨hasP, sizeP, fits⟩ := NodeOK.parts (hollow.okP kidsT) hollow.built.2.1 items kids
  obtain ⟨PQ, QT, hasQ, -, fitsQ, parentQ, -⟩ := hollow.neighbour (Q := Q) kidsT (by simp)
  have PT := hollow.ne_kid kidsT (d := T) (by simp)
  obtain ⟨hasT, c, only, -, -⟩ := hollow.target kidsT
  obtain ⟨cP, cQ⟩ := hollow.ne_of_kid (d := c) (e := Q) kidsT (Q := T) (by simp) (by simp [only])
  replace cQ := cQ (by simp)
  rw [← ItemSet.length_items, ← nodes_items] at one
  obtain ⟨x, itemsQ⟩ := List.length_eq_one_iff.mp one
  rw [itemsQ] at hasQ fitsQ
  rw [only] at hasT
  have two : (s.nodes.kids Q).length = 2 := fitsQ
  obtain ⟨s', run, nodeQ, nodeP, nodeC, same⟩ :=
    recursiveMerge_left_run hasP place sizeP fits QT hasQ two hasT few PQ PT cQ cP
  have hasQ' : (s'.node Q).Has (s.nodes.items Q ++ [w]) (s.nodes.kids Q ++ [c]) := by
    rw [nodeQ, itemsQ]
    exact hasQ.take_child two
  have hasP' : (s'.node P).Has (X ++ Y) (A ++ Q :: B) := by
    rw [nodeP]
    exact hasP.erase_after place sizeP (by omega)
  have parentQ' : (s'.node Q).parent = P := by
    rw [nodeQ]
    exact parentQ
  have others : ∀ y, y ≠ P → y ≠ Q → y ≠ c → s'.node y = s.node y :=
    fun y isP isQ isC => same.1 y (by simp [isP, isQ, isC])
  have pairs : inorder s.nodes (h + 2) P =
      weave (A.map (inorder s.nodes (h + 1)) ++ (inorder s.nodes (h + 1) Q ++ w :: inorder s.nodes (h + 1) T) ::
        B.map (inorder s.nodes (h + 1))) (X ++ Y) := by
    rw [← weave_join (by simpa using place), inorder, items, kids, List.map_append, List.map_cons, List.map_cons]
  by_cases none : X ++ Y = []
  · have root := spares.resolve_right fun some => some none
    obtain ⟨rfl, rfl⟩ := List.append_eq_nil_iff.mp none
    obtain rfl := List.length_eq_zero_iff.mp place
    obtain rfl : B = [] := List.length_eq_zero_iff.mp (by simpa using fits)
    rw [if_pos none, StateT.run_map, dropRoot_run (Has.childOptr (A := []) hasP')] at run
    have stays : ∀ y, y ≠ P → y ≠ Q → y ≠ c → (put s' Q ((s'.node Q).setParent 0)).node y = s.node y := by
      intro y isP isQ isC
      rw [put_node, if_neg isQ, others y isP isQ isC]
    obtain ⟨built, whole⟩ := hollow.joined kids only stays (w := w) (q := 0)
      (by rw [put_node, if_pos rfl]; exact ⟨hasQ'.items, hasQ'.kids, hasQ'.datas⟩)
      (by rw [put_node, if_neg cQ, nodeC]) (by rw [put_node, if_pos rfl]; rfl)
    refine ⟨some Q, _, run, fun _ => root, h + 1, ?_, ?_⟩
    · rw [root]
      exact built
    · rw [pairs]
      simpa [weave] using whole
  · rw [if_neg none] at run
    obtain ⟨built, whole⟩ := hollow.joined kids only others hasQ' nodeC parentQ'
    have beside : ∀ d ∈ A ++ B, _ := fun d member => hollow.beside kids only others (d := d) member
    refine ⟨Option.none, s', run, by simp, h + 2, ⟨⟨?_, ?_⟩, ?_, fun d isKid => ?_⟩, ?_⟩
    · show (s'.node P).parent = _
      rw [nodeP, ItemSet.moveDeleteChildOptr_parent, ItemSet.remove, ItemSet.moveDeleteDataOptr_parent,
        ItemSet.moveDeleteKey_parent]
    · show (s'.node P).keyCount = (s'.node P).dataOptrCount
      rw [hasP'.keyCount, hasP'.datas]
    · show (s'.nodes.kids P).length = (s'.nodes.items P).length + 1
      rw [nodes_kids, nodes_items, hasP'.kids, hasP'.items]
      simp only [List.length_append, List.length_cons] at fits ⊢
      omega
    · have isKid' : d ∈ A ++ Q :: B := by rwa [← hasP'.kids]
      by_cases isQ : d = Q
      · rw [isQ]
        exact built
      · refine (beside d ?_).1
        simp only [List.mem_append, List.mem_cons] at isKid' ⊢
        tauto
    · show inorder s'.nodes (h + 2) P = _
      rw [pairs, inorder, nodes_items, nodes_kids, hasP'.items, hasP'.kids, List.map_append, List.map_cons, whole,
        List.map_congr_left fun d member => (beside d (List.mem_append_left _ member)).2,
        List.map_congr_left fun d member => (beside d (List.mem_append_right _ member)).2]

/-- With keys to spare on the left the merge runs into a null pointer. -/
theorem Hollow.not_keeps_spare_left (kids : s.nodes.kids P = A ++ Q :: T :: B)
    (spare : 2 ≤ (s.node Q).keyCount) : ¬s.RecursiveMergeKeeps h P (A.length + 1) := by
  have kidsT : s.nodes.kids P = (A ++ [Q]) ++ T :: B := by simpa using kids
  have ok := hollow.okP kidsT
  obtain ⟨hasP, sizeP, fits⟩ := NodeOK.parts ok hollow.built.2.1 rfl kidsT
  obtain ⟨PQ, QT, hasQ, sizeQ, fitsQ, -⟩ := hollow.neighbour (Q := Q) kidsT (by simp)
  have PT := hollow.ne_kid kidsT (d := T) (by simp)
  rw [hasQ.keyCount] at spare
  have run := recursiveMerge_spare_left_run (Q := Q) hasP sizeP fits (NodeOK.filled_inner ok) (by simp) hasQ spare
    sizeQ (by omega) QT.symm PT PQ
  rintro ⟨r, s', run', -⟩
  rw [List.length_append, List.length_singleton, run'] at run
  cases run

/-- With keys to spare on the right, and none on the left, the data pointer the emptied child gets is not
counted. -/
theorem Hollow.not_keeps_spare_right {R : Nat} (kids : s.nodes.kids P = A ++ T :: R :: B)
    (left : s.keysOf A.getLast? < 2) (spare : 2 ≤ (s.node R).keyCount) :
    ¬s.RecursiveMergeKeeps h P A.length := by
  have ok := hollow.okP kids
  obtain ⟨w, xs, itemsP⟩ := List.exists_cons_of_ne_nil (NodeOK.filled_inner ok)
  obtain ⟨hasP, sizeP, fits⟩ := NodeOK.parts ok hollow.built.2.1 itemsP kids
  obtain ⟨PR, RT, hasR, sizeR, fitsR, -⟩ := hollow.neighbour (Q := R) kids (by simp)
  have PT := hollow.ne_kid kids (d := T) (by simp)
  obtain ⟨hasT, n, only, -, -⟩ := hollow.target kids
  rw [hasR.keyCount] at spare
  obtain ⟨z, l, itemsR⟩ := List.exists_cons_of_length_pos (show 0 < (s.nodes.items R).length by omega)
  obtain ⟨c, cs, kidsR⟩ := List.exists_cons_of_length_eq_add_one fitsR
  obtain ⟨cP, cKid⟩ := hollow.ne_of_kid (d := c) (e := R) kids (Q := R) (by simp) (by simp [kidsR])
  obtain ⟨-, cT⟩ := hollow.ne_of_kid (d := c) (e := T) kids (Q := R) (by simp) (by simp [kidsR])
  rw [itemsR, kidsR] at hasR
  rw [itemsR] at sizeR spare
  rw [only] at hasT
  have spareR : l ≠ [] := by
    rintro rfl
    simp at spare
  obtain ⟨s', run, nodeT, nodeP, -⟩ := recursiveMerge_spare_right_run hasP sizeP fits left hasR sizeR spareR hasT
    PT PR RT.symm cP (cT (by simp)) (cKid (by simp))
  rintro ⟨r, s'', run', merged⟩
  obtain ⟨rfl, rfl⟩ := Prod.mk.inj (Except.ok.inj (run.symm.trans run'))
  obtain ⟨h', built, -⟩ := merged.tree
  have isKid : T ∈ s'.nodes.kids P := by
    rw [nodes_kids, nodeP, onePair_kids, ← nodes_kids, kids]
    simp
  obtain ⟨h'', builtT⟩ := Built.kid built isKid
  have counts := builtT.local.2
  have none := hasT.datas
  rw [nodeT] at counts
  simp [refilled, setKey_eq, setKeyCount, ItemSet.setDataOptr, none] at counts

/-- A node that is left without keys gives way to a new root, wherever it is. -/
theorem Hollow.not_keeps_below (kids : s.nodes.kids P = [Q, T]) (one : (s.node Q).keyCount = 1)
    (notRoot : (s.node P).parent ≠ 0) : ¬s.RecursiveMergeKeeps h P 1 := by
  have kidsT : s.nodes.kids P = [Q] ++ T :: [] := kids
  obtain ⟨hasP, -, fits⟩ := NodeOK.parts (hollow.okP kidsT) hollow.built.2.1 rfl kids
  obtain ⟨PQ, QT, hasQ, -, fitsQ, -⟩ := hollow.neighbour (Q := Q) kidsT (by simp)
  have PT := hollow.ne_kid kidsT (d := T) (by simp)
  obtain ⟨hasT, c, only, -, -⟩ := hollow.target kidsT
  obtain ⟨cP, cQ⟩ := hollow.ne_of_kid (d := c) (e := Q) kidsT (Q := T) (by simp) (by simp [only])
  obtain ⟨w, itemsP⟩ := List.length_eq_one_iff.mp (Nat.succ.inj fits).symm
  rw [← ItemSet.length_items, ← nodes_items] at one
  obtain ⟨x, itemsQ⟩ := List.length_eq_one_iff.mp one
  rw [itemsP] at hasP
  rw [itemsQ] at hasQ fitsQ
  rw [only] at hasT
  obtain ⟨s', run, -⟩ := recursiveMerge_left_run (A := []) (X := []) (Y := []) (B := []) hasP rfl (by simp)
    (by simp) QT hasQ fitsQ hasT (by simp) PQ PT (cQ (by simp)) cP
  rintro ⟨r, s'', run', merged⟩
  rw [List.append_nil, if_pos rfl, StateT.run_map] at run
  rw [List.length_nil, Nat.zero_add, run'] at run
  cases drop : (oNode.dropRoot P).run s' with
  | error e =>
    rw [drop] at run
    cases run
  | ok res =>
    rw [drop] at run
    obtain ⟨rfl, -⟩ := Prod.mk.inj (Except.ok.inj run)
    exact notRoot (merged.root rfl)

/-- Without a neighbour to the left, the child that is handed on keeps its parent. -/
theorem Hollow.not_keeps_first {R : Nat} (kids : s.nodes.kids P = T :: R :: B) (few : (s.node R).keyCount < 2) :
    ¬s.RecursiveMergeKeeps h P 0 := by
  have kidsT : s.nodes.kids P = [] ++ T :: R :: B := kids
  have ok := hollow.okP kidsT
  obtain ⟨w, ys, itemsP⟩ := List.exists_cons_of_ne_nil (NodeOK.filled_inner ok)
  obtain ⟨hasP, sizeP, fits⟩ := NodeOK.parts ok hollow.built.2.1 itemsP kids
  obtain ⟨PR, RT, hasR, -, fitsR, -, filledR⟩ := hollow.neighbour (Q := R) kidsT (by simp)
  have PT := hollow.ne_kid kidsT (d := T) (by simp)
  obtain ⟨hasT, c, only, -, parentC⟩ := hollow.target kidsT
  have some := List.length_pos_iff.mpr filledR
  rw [hasR.keyCount] at few
  obtain ⟨x, itemsR⟩ := List.length_eq_one_iff.mp (show (s.nodes.items R).length = 1 by omega)
  rw [itemsR] at hasR fitsR
  obtain ⟨c₀, c₁, kidsR⟩ := List.length_eq_two.mp fitsR
  obtain ⟨cP, cR⟩ := hollow.ne_of_kid (d := c) (e := R) kidsT (Q := T) (by simp) (by simp [only])
  obtain ⟨lastP, lastR⟩ := hollow.ne_of_kid (d := c₁) (e := R) kidsT (Q := R) (by simp) (by simp [kidsR])
  replace cR := cR (by simp)
  -- the child that is handed on is below the emptied node, the last one below the neighbour
  have notLast : c ≠ c₁ := by
    rintro rfl
    have built := (hollow.kid kidsT (d := R) (by simp)).2.2 c (by simp [kidsR])
    exact RT ((Counted.of_nodeOKBut built.local).1.symm.trans parentC)
  rw [kidsR] at hasR
  rw [only] at hasT
  obtain ⟨s', run, nodeR, nodeP, -, same⟩ :=
    recursiveMerge_right_run hasP sizeP fits hasR hasT PT PR RT.symm lastP (lastR (by simp))
  have hasR' : (s'.node R).Has [w, x] [c, c₀, c₁] := by
    rw [nodeR]
    exact hasR.take_first_child rfl
  have hasP' : (s'.node P).Has ys (R :: B) := by
    rw [nodeP]
    simp only [List.length_cons] at fits sizeP
    exact Has.erase_child (A := []) (Has.erase (X := []) hasP sizeP) (by simp only [List.nil_append, List.length_cons]; omega)
  have stays : (s'.node c).parent = T := by
    rw [same.1 c (by simp [cP, cR, notLast]), parentC]
  -- so nothing can be built over it
  have broken : ∀ {s'' : IndexFile} {h' q : Nat}, (s''.node c).parent = T → s''.nodes.kids R = [c, c₀, c₁] →
      ¬Built s''.nodes s''.Counted h' q R := by
    intro s'' h' q parent kids built
    obtain ⟨h'', builtC⟩ := Built.kid built (c := c) (by simp [kids])
    exact RT (builtC.local.1.symm.trans parent)
  rintro ⟨r, s'', run', merged⟩
  rw [run'] at run
  obtain ⟨h', built, -⟩ := merged.tree
  split_ifs at run with none
  · rw [none] at hasP'
    have child : (s'.node P).childOptr 0 = Option.some R := Has.childOptr (A := []) hasP'
    rw [StateT.run_map, dropRoot_run child] at run
    obtain ⟨rfl, rfl⟩ := Prod.mk.inj (Except.ok.inj run)
    refine broken ?_ ?_ built
    · rw [put_node, if_neg cR, stays]
    · rw [nodes_kids, put_node, if_pos rfl]
      exact hasR'.kids
  · obtain ⟨rfl, rfl⟩ := Prod.mk.inj (Except.ok.inj run)
    obtain ⟨h'', builtR⟩ := Built.kid built (c := R) (by rw [Option.getD_none, nodes_kids, hasP'.kids]; simp)
    exact broken stays hasR'.kids builtR

end Cases

/-- Beside an emptied child the place of which is not the first. -/
theorem Hollow.keeps_iff_left {i : Nat} (hollow : s.Hollow h P i T) (kids : s.nodes.kids P = A ++ Q :: T :: B)
    (items : s.nodes.items P = X ++ w :: Y) (place : A.length = X.length) (length : i = A.length + 1) :
    s.RecursiveMergeKeeps h P i ↔ (s.node Q).keyCount = 1 ∧ s.keysOf B.head? ≤ 1 ∧
      ((s.node P).parent = 0 ∨ 2 ≤ (s.node P).keyCount) := by
  subst length
  have kidsT : s.nodes.kids P = (A ++ [Q]) ++ T :: B := by simpa using kids
  obtain ⟨-, -, hasQ, -, -, -, filledQ⟩ := hollow.neighbour (Q := Q) kidsT (by simp)
  have some := List.length_pos_iff.mpr filledQ
  rw [← hasQ.keyCount] at some
  have fits := hollow.built.2.1
  have count : (s.node P).keyCount = X.length + Y.length + 1 := by
    rw [← ItemSet.length_items, ← nodes_items, items, List.length_append, List.length_cons]
    rfl
  rw [kids, items] at fits
  simp only [List.length_append, List.length_cons] at fits
  by_cases left : 2 ≤ (s.node Q).keyCount
  · exact iff_of_false (hollow.not_keeps_spare_left kids left) fun all => by omega
  by_cases right : 2 ≤ s.keysOf B.head?
  · refine iff_of_false ?_ fun all => by omega
    obtain ⟨R, B, rfl⟩ := List.exists_cons_of_ne_nil fun none : B = [] => by simp [none, keysOf] at right
    have few : s.keysOf (A ++ [Q]).getLast? < 2 := by
      rw [List.getLast?_append, List.getLast?_singleton, Option.some_or]
      exact not_le.mp left
    simpa using hollow.not_keeps_spare_right kidsT few right
  by_cases spares : (s.node P).parent = 0 ∨ 2 ≤ (s.node P).keyCount
  · refine iff_of_true (hollow.joins_left kids items place (by omega) (by omega) (spares.imp_right fun two => ?_))
      ⟨by omega, by omega, spares⟩
    exact List.ne_nil_of_length_pos (by rw [List.length_append]; omega)
  · refine iff_of_false ?_ fun all => spares all.2.2
    obtain ⟨notRoot, few⟩ := not_or.mp spares
    obtain rfl : A = [] := List.length_eq_zero_iff.mp (by omega)
    obtain rfl : B = [] := List.length_eq_zero_iff.mp (by omega)
    exact hollow.not_keeps_below kids (by omega) notRoot

end Hollow

/-- The merge at a child that lost its last key keeps the tree in order exactly if the child can be joined to its
left neighbour, with the last key of a root only. -/
theorem recursiveMergeKeeps_iff (s : IndexFile) (h P i target : Nat) (hollow : s.Hollow h P i target) :
    s.RecursiveMergeKeeps h P i ↔ s.JoinsLeft target := by
  obtain ⟨inside, -⟩ := List.getElem?_eq_some_iff.mp hollow.isKid
  obtain ⟨A, c, B, kids, length⟩ := exists_place inside
  obtain rfl : c = target := by
    have isKid := hollow.isKid
    rw [kids, ← length] at isKid
    simpa using isKid
  rw [← nodes_kids] at kids
  have ok := hollow.okP kids
  obtain ⟨hasP, size, fits⟩ := NodeOK.parts ok hollow.built.2.1 rfl kids
  have nodup := hollow.kids_nodup kids
  have parent : (s.node c).parent = P := (Counted.of_nodeOKBut (hollow.kid kids (by simp)).local).1
  have first : c ∉ A := fun member => (List.nodup_append.mp nodup).2.2 c member c List.mem_cons_self rfl
  have index : s.index c = A.length := by
    rw [IndexFile.index, parent, place_eq hasP first]
    rfl
  have left := leftOf_eq hasP (by omega)
  have right := rightOf_eq hasP (by omega)
  unfold JoinsLeft
  simp only [parent, index, left, right]
  obtain ⟨X, Y, items, place, -⟩ := exists_cut fits
  rcases nil_or_snoc place with ⟨rfl, rfl⟩ | ⟨A, Q, X, w, rfl, rfl, aligned⟩
  · refine iff_of_false ?_ fun all => by simp [keysOf] at all
    subst length
    have filled := List.length_pos_iff.mpr (NodeOK.filled_inner ok)
    simp only [List.nil_append, List.length_cons] at fits kids
    obtain ⟨R, B, rfl⟩ := List.exists_cons_of_length_pos (show 0 < B.length by omega)
    by_cases spare : 2 ≤ (s.node R).keyCount
    · exact hollow.not_keeps_spare_right (A := []) kids (by simp [keysOf]) spare
    · exact hollow.not_keeps_first kids (by omega)
  · rw [List.append_assoc, List.singleton_append] at items kids
    rw [List.length_append, List.length_singleton] at length
    rw [List.getLast?_append, List.getLast?_singleton, Option.some_or]
    exact hollow.keeps_iff_left kids items aligned length.symm

/-- Ten keys added in order: the root has one key, and children with one and two keys over the leaves. -/
def tenKeys : OBtree :=
  ([.add 1 11, .add 2 12, .add 3 13, .add 4 14, .add 5 15, .add 6 16, .add 7 17, .add 8 18, .add 9 19,
    .add 10 20] : List OBtree.Op).foldl (OBtree.after 4) (OBtree.openFile {})

/-- Without the last two leaves, the second child of the root is left with one child and no key. -/
def secondHollow : IndexFile :=
  tenKeys.file.edit 718 fun it => { it with keyCount := 0, dataOptrCount := 0, childOptrCount := 1 }

theorem recursiveMergeKeeps_iff_second : secondHollow.RecursiveMergeKeeps 0 821 1 ↔ secondHollow.JoinsLeft 718 :=
  recursiveMergeKeeps_iff secondHollow 0 821 1 718 (by decide +kernel)

/-- What the removal of the first key makes of its leaf, the neighbour and their parent, before the merge goes on
at the root. -/
def firstHollow : IndexFile :=
  (tenKeys.file.edit 203 fun it => it.insertAt 0 (2, 12)).edit 306 fun it => (it.remove 0).moveDeleteChildOptr 0

/-- The first child of the root gets a key from its neighbour, and the data pointer of that key is not counted. -/
theorem recursiveMergeKeeps_fails :
    firstHollow.Hollow 0 821 0 306 ∧ ¬firstHollow.RecursiveMergeKeeps 0 821 0 := by
  have hollow : firstHollow.Hollow 0 821 0 306 := by decide +kernel
  have kids : firstHollow.nodes.kids 821 = [] ++ 306 :: 718 :: [] := by decide +kernel
  exact ⟨hollow, hollow.not_keeps_spare_right (A := []) kids (by decide +kernel) (by decide +kernel)⟩

end IndexFile

end MiyaCore
