import MiyaCore.Index.AddAlike

/-!
# Removal from one tree in two files

What a removal does to the leaf it takes a key from, and further up, speaks of live slots only.
It changes the number of keys of some node, so a file in which it ran is told from one in which it did not.
-/

namespace MiyaCore
open NodeFile ItemSet SearchTree

/-- The shape of a tree, whatever its keys are: each node has a height, and one child more than
keys over the leaves. -/
structure Shaped (s : IndexFile) (g : Nat → Option Nat) (root : Nat) : Prop where
  counts : ∀ {p h}, g p = some h → (s.node p).dataOptrCount = (s.node p).keyCount ∧ (s.node p).keyCount ≤ 3
  filled : ∀ {p h}, g p = some h → 1 ≤ (s.node p).keyCount ∨ p = root ∧ h = 0
  leaf : ∀ {p}, g p = some 0 → (s.node p).kids = []
  inner : ∀ {p h}, g p = some (h + 1) → (s.node p).kids.length = (s.node p).keyCount + 1 ∧ (s.node p).kids.Nodup
  kid : ∀ {p h c}, g p = some (h + 1) → c ∈ (s.node p).kids → g c = some h ∧ (s.node c).parent = p
  up : ∀ {p h}, g p = some h → p ≠ root → ∃ q, g q = some (h + 1) ∧ p ∈ (s.node q).kids
  inFile : ∀ {p h}, g p = some h → p ≠ 0
  rootParent : (s.node root).parent = 0

theorem Indexed.shaped {s : IndexFile} {g : Nat → Option (Label Key)} {root height : Nat}
    (indexed : Indexed s s.nodes g root height) :
    Shaped s (fun p => (g p).map Prod.fst) root := by
  have label : ∀ {p h}, (g p).map Prod.fst = some h → ∃ lo hi, g p = some (h, lo, hi) := by
    intro p h height
    obtain ⟨⟨h', lo, hi⟩, label, rfl⟩ := Option.map_eq_some_iff.mp height
    exact ⟨lo, hi, label⟩
  refine ⟨fun height => ?_, fun height => ?_, fun height => ?_, fun height => ?_,
    fun height isKid => ?_, fun height notRoot => ?_, fun height => ?_,
    indexed.rootParent⟩ <;> obtain ⟨lo, hi, label⟩ := label height
  · exact indexed.counts label
  · refine (indexed.filled label).imp (fun some => ?_) id
    rw [nodes_items, ← List.length_pos_iff, ItemSet.length_items] at some
    exact some
  · exact indexed.labelled.leaf label
  · have size := (indexed.labelled.inner label).length
    rw [nodes_kids, nodes_items, ItemSet.length_items] at size
    exact ⟨size, indexed.labelled.kids_nodup label⟩
  · obtain ⟨h', a, b, same, labelC⟩ := indexed.labelled.kid label isKid
    obtain rfl := Nat.succ.inj same
    exact ⟨by simp [labelC], indexed.parents label isKid⟩
  · obtain ⟨u, lo', hi', X, Y, A, B, -, labelU, -, kids, -⟩ := indexed.above label notRoot
    exact ⟨u, by simp [labelU], by rw [← nodes_kids, kids]; simp⟩
  · exact (indexed.inFile label).1.ne'

namespace Shaped
variable {s s' : IndexFile} {g : Nat → Option Nat} {root p h : Nat}

/-- A file that differs in keys and data pointers only has the same shape. -/
theorem congr (shaped : Shaped s g root) (same : ∀ p, (s'.node p).parent = (s.node p).parent ∧
    (s'.node p).keyCount = (s.node p).keyCount ∧ (s'.node p).dataOptrCount = (s.node p).dataOptrCount ∧
      (s'.node p).kids = (s.node p).kids) : Shaped s' g root := by
  refine ⟨fun {p h} height => ?_, fun {p h} height => ?_, fun {p} height => ?_, fun {p h} height => ?_,
    fun {p h c} height isKid => ?_, fun {p h} height notRoot => ?_, shaped.inFile, ?_⟩
  · rw [(same p).2.1, (same p).2.2.1]
    exact shaped.counts height
  · rw [(same p).2.1]
    exact shaped.filled height
  · rw [(same p).2.2.2]
    exact shaped.leaf height
  · rw [(same p).2.1, (same p).2.2.2]
    exact shaped.inner height
  · rw [(same p).2.2.2] at isKid
    rw [(same c).1]
    exact shaped.kid height isKid
  · obtain ⟨q, heightQ, isKid⟩ := shaped.up height notRoot
    exact ⟨q, heightQ, by rwa [(same q).2.2.2]⟩
  · rw [(same root).1]
    exact shaped.rootParent

variable (shaped : Shaped s g root)
include shaped

theorem has (height : g p = some h) : (s.node p).Has (s.node p).items (s.node p).kids :=
  ⟨rfl, rfl, by rw [(shaped.counts height).1, ItemSet.length_items]⟩

theorem items_le (height : g p = some h) : (s.node p).items.length ≤ 3 := by
  rw [ItemSet.length_items]
  exact (shaped.counts height).2

/-- A node other than the root has a parent, and a place there. -/
theorem above (height : g p = some h) (notRoot : p ≠ root) :
    ∃ P xs A B, (s.node p).parent = P ∧ P ≠ 0 ∧ g P = some (h + 1) ∧ (s.node P).Has xs (A ++ p :: B) ∧
      xs.length ≤ 3 ∧
      (A ++ p :: B).length = xs.length + 1 ∧ p ∉ A ∧ xs ≠ [] := by
  obtain ⟨P, heightP, isKid⟩ := shaped.up height notRoot
  have has := shaped.has heightP
  have size := (shaped.inner heightP).1
  have nodup := (shaped.inner heightP).2
  have parent := (shaped.kid heightP isKid).2
  have filled := (shaped.filled heightP).resolve_right fun both => Nat.succ_ne_zero h both.2
  obtain ⟨A, B, kids⟩ := List.append_of_mem isKid
  rw [← ItemSet.length_items] at size filled
  rw [kids] at has size nodup
  exact ⟨P, (s.node P).items, A, B, parent, shaped.inFile heightP, heightP, has, shaped.items_le heightP, size,
    fun member => (List.nodup_append.mp nodup).2.2 p member p (by simp) rfl, List.length_pos_iff.mp filled⟩

/-- The nodes beside a node have its height, and are other nodes. -/
theorem beside {P : Nat} {xs : List (Key × Nat)} {A B : List Nat} (heightP : g P = some (h + 1))
    (has : (s.node P).Has xs (A ++ p :: B)) {c : Nat} (member : c ∈ A ++ B) : g c = some h ∧ c ≠ p ∧ P ≠ c := by
  have isKid : c ∈ (s.node P).kids := by
    rw [has.kids]
    simp only [List.mem_append, List.mem_cons] at member ⊢
    tauto
  have nodup := (shaped.inner heightP).2
  rw [has.kids, List.nodup_middle, List.nodup_cons] at nodup
  have heightC := (shaped.kid heightP isKid).1
  refine ⟨heightC, ?_, ?_⟩
  · rintro rfl
    exact nodup.1 member
  · rintro rfl
    simp [heightP] at heightC

/-- The root is below no node. -/
theorem kid_ne_root {c : Nat} (height : g p = some (h + 1)) (isKid : c ∈ (s.node p).kids) : c ≠ root := by
  rintro rfl
  exact shaped.inFile height ((shaped.kid height isKid).2.symm.trans shaped.rootParent)

/-- A node that has few keys has one. -/
theorem one (height : g p = some h) (notRoot : p ≠ root ∨ h ≠ 0) (few : (s.node p).keyCount < 2) :
    ∃ x, (s.node p).items = [x] := by
  have filled := (shaped.filled height).resolve_right (by tauto)
  exact List.length_eq_one_iff.mp (by rw [ItemSet.length_items]; omega)

end Shaped

/-- The two runs of `m` end in the same error, or with the same node in files that agree, the first of
which `Q` holds of. -/
def EndAlike (A : Nat → Prop) (m : NodeM IndexFile (Option Nat)) (s s' : IndexFile)
    (Q : IndexFile → Prop) : Prop :=
  (∃ e, m.run s = .error e ∧ m.run s' = .error e) ∨
    ∃ r s₁ s₁', m.run s = .ok (r, s₁) ∧ m.run s' = .ok (r, s₁') ∧ AlikeOn A s₁ s₁' ∧
    (∀ n, r = some n → A n) ∧ Q s₁

theorem EndAlike.of_run {A : Nat → Prop} {m m' : NodeM IndexFile (Option Nat)} {s s' s₁ s₁' : IndexFile}
    {Q Q' : IndexFile → Prop} (ends : EndAlike A m' s₁ s₁' Q) (run : m.run s = m'.run s₁)
    (run' : m.run s' = m'.run s₁') (imp : ∀ s₂, Q s₂ → Q' s₂) : EndAlike A m s s' Q' := by
  rw [EndAlike, run, run']
  refine ends.imp id ?_
  rintro ⟨r, s₂, s₂', first, second, alike, inA, holds⟩
  exact ⟨r, s₂, s₂', first, second, alike, inA, imp s₂ holds⟩

theorem height_ne {g : Nat → Option Nat} {p q i j : Nat} (heightP : g p = some i)
    (heightQ : g q = some j) (different : i ≠ j) : p ≠ q := by
  rintro rfl
  exact different (Option.some.inj (heightP.symm.trans heightQ))

section MergeUp
variable {g : Nat → Option Nat} {root : Nat} {s₀ s s' : IndexFile} {P n : Nat}

/-- The first child of a node becomes the root alike, and every node keeps its number of keys. -/
theorem dropRoot_alike {A : Nat → Prop} {G c : Nat} (alike : AlikeOn A s s') (inG : A G)
    (child : (s.node G).childOptr 0 = some c) :
    EndAlike A (some <$> oNode.dropRoot G) s s' fun s₁ => ∀ m, (s₁.node m).keyCount = (s.node m).keyCount := by
  have inC : A c := alike.closed G inG c (mem_kids_of_childOptr child)
  have child' : (s'.node G).childOptr 0 = some c := ((alike.alike G inG).childOptr 0).trans child
  refine Or.inr ⟨some c, put s c ((s.node c).setParent 0), put s' c ((s'.node c).setParent 0), ?_,
    ?_, ?_, ?_, ?_⟩
  · rw [StateT.run_map, dropRoot_run child]
    rfl
  · rw [StateT.run_map, dropRoot_run child']
    rfl
  · refine alike.step (sameBut_put s c _) (sameBut_put s' c _) fun q touched _ => ?_
    obtain rfl := List.mem_singleton.mp touched
    simp only [put_node, if_true, setParent_kids]
    exact ⟨(alike.alike q inC).setParent 0, alike.closed q inC⟩
  · rintro _ ⟨⟩
    exact inC
  · intro m
    by_cases same : m = c <;> simp [same]

/-- An emptied node over leaves, in a file that is `s₀` further up. -/
structure Emptied (s₀ : IndexFile) (g : Nat → Option Nat) (root P n : Nat) (s s' : IndexFile) : Prop where
  shaped : Shaped s₀ g root
  alike : AlikeOn (fun p => (g p).isSome) s s'
  height : g P = some 1
  leaf : g n = some 0
  has : (s.node P).Has [] [n]
  parent : (s.node P).parent = (s₀.node P).parent
  same : ∀ {p h}, g p = some (h + 1) → p ≠ P → s.node p = s₀.node p

namespace Emptied
variable (emptied : Emptied s₀ g root P n s s')
include emptied

theorem has' : (s'.node P).Has [] [n] := (emptied.alike.alike P (by simp [emptied.height])).has emptied.has

theorem node {p h : Nat} (height : g p = some h) : Alike (s.node p) (s'.node p) :=
  emptied.alike.alike p (by simp [height])

theorem parent' : (s'.node P).parent = (s.node P).parent := (emptied.node emptied.height).parent

/-- The children of a node of the tree are nodes of the tree. -/
theorem kids_isSome {p h : Nat} {I : List (Key × Nat)} {C : List Nat} (height : g p = some h)
    (has : (s.node p).Has I C) : ∀ c ∈ C, (g c).isSome :=
  fun c member => emptied.alike.closed p (by simp [height]) c (by rwa [has.kids])

/-- Below a neighbour there are leaves. -/
theorem kid_leaf {Q c : Nat} (heightQ : g Q = some 1) (PQ : P ≠ Q) (isKid : c ∈ (s.node Q).kids) :
    g c = some 0 :=
  (emptied.shaped.kid heightQ (show c ∈ (s₀.node Q).kids by rwa [← emptied.same heightQ PQ.symm])).1

/-- The number of keys of a neighbour is live. -/
theorem few {o : Option Nat} (inA : ∀ c ∈ o, (g c).isSome) (few : o.elim 0 (fun p => (s.node p).keyCount) < 2) :
    o.elim 0 (fun p => (s'.node p).keyCount) < 2 := by
  cases o with
  | none => exact few
  | some c => exact (emptied.alike.alike c (inA c rfl)).keyCount.trans_lt few

section Join
variable {G Q : Nat} {X Y : List (Key × Nat)} {w x : Key × Nat} {A B cs : List Nat}
    (parent : (s.node P).parent = G) (notRoot : G ≠ 0) (heightG : g G = some 2) (heightQ : g Q = some 1)
    (hasQ : (s.node Q).Has [x] cs) (two : cs.length = 2)
include parent notRoot heightG heightQ hasQ two

/-- The neighbour to the left, with one key, takes the only child. -/
theorem joins_left (hasG : (s.node G).Has (X ++ w :: Y) (A ++ Q :: P :: B))
    (place : A.length = X.length) (size : (X ++ w :: Y).length ≤ 3)
    (fits : (A ++ Q :: P :: B).length = (X ++ w :: Y).length + 1) (first : P ∉ A ++ [Q])
    (right : B.head?.elim 0 (fun p => (s.node p).keyCount) < 2) :
    EndAlike (fun p => (g p).isSome) (oNode.mergeUp P) s s'
      fun s₁ => (s₁.node n).keyCount = (s.node n).keyCount := by
  have inA := emptied.kids_isSome heightG hasG
  have nodeG := emptied.node heightG
  have nodeQ := emptied.node heightQ
  have GQ := height_ne heightG heightQ (by decide)
  have GP := height_ne heightG emptied.height (by decide)
  have nG := height_ne emptied.leaf heightG (by decide)
  have nQ := height_ne emptied.leaf heightQ (by decide)
  obtain ⟨s₁, run, left, up, moved, same⟩ := mergeUp_left_run parent notRoot hasG place size fits first
    hasQ two emptied.has right GQ GP nQ nG
  obtain ⟨s₁', run', left', up', moved', same'⟩ :=
    mergeUp_left_run (emptied.parent'.trans parent) notRoot (nodeG.has hasG) place size fits first
    (nodeQ.has hasQ) two emptied.has' (emptied.few
    (fun c isFirst => inA c (by simp [List.mem_of_mem_head? isFirst])) right) GQ GP nQ nG
  have few : (A ++ Q :: P :: B).length ≤ 4 := by omega
  have hasG₁ := hasG.erase_after place size few
  have hasG₁' := (nodeG.has hasG).erase_after place size few
  rw [← up] at hasG₁
  rw [← up'] at hasG₁'
  have hasQ₁ := hasQ.take_child (w := w) (c := n) two
  rw [← left] at hasQ₁
  have alike₁ : AlikeOn (fun p => (g p).isSome) s₁ s₁' := by
    refine emptied.alike.step same same' fun q touched _ => ?_
    simp only [List.mem_cons, List.not_mem_nil, or_false] at touched
    rcases touched with rfl | rfl | rfl
    · refine ⟨hasG₁.alike hasG₁' ?_, fun c isKid => inA c ?_⟩
      · simp [up, up', ItemSet.remove, nodeG.parent]
      · rw [hasG₁.kids] at isKid
        simp only [List.mem_append, List.mem_cons] at isKid ⊢
        tauto
    · have hasQ₁' := (nodeQ.has hasQ).take_child (w := w) (c := n) two
      rw [← left'] at hasQ₁'
      refine ⟨hasQ₁.alike hasQ₁' (by rw [left, left']; exact nodeQ.parent), fun c isKid => ?_⟩
      rw [hasQ₁.kids, List.mem_append, List.mem_singleton] at isKid
      rcases isKid with old | rfl
      · exact emptied.alike.closed q (by simp [heightQ]) c (by rwa [hasQ.kids])
      · simp [emptied.leaf]
    · rw [moved, moved', setParent_kids]
      exact ⟨(emptied.node emptied.leaf).setParent Q, emptied.alike.closed q (by simp [emptied.leaf])⟩
  have kept : (s₁.node n).keyCount = (s.node n).keyCount := by rw [moved, setParent_keyCount]
  by_cases none : X ++ Y = []
  · rw [if_pos none] at run run'
    obtain ⟨rfl, rfl⟩ := List.append_eq_nil_iff.mp none
    obtain rfl := List.length_eq_zero_iff.mp place
    obtain rfl : B = [] := by
      simp only [List.length_append, List.length_cons, List.length_nil] at fits
      exact List.length_eq_zero_iff.mp (by omega)
    exact (dropRoot_alike alike₁ (by simp [heightG]) (Has.childOptr (A := []) hasG₁)).of_run run run'
      fun s₂ same => (same n).trans kept
  · rw [if_neg none] at run run'
    exact Or.inr ⟨Option.none, s₁, s₁', run, run', alike₁, by simp, kept⟩

/-- The neighbour to the right, with one key, takes it where there is none to the left. -/
theorem joins_right (hasG : (s.node G).Has (w :: Y) (P :: Q :: B)) (size : (w :: Y).length ≤ 3)
    (fits : (P :: Q :: B).length = (w :: Y).length + 1) (PQ : P ≠ Q) :
    EndAlike (fun p => (g p).isSome) (oNode.mergeUp P) s s'
      fun s₁ => (s₁.node n).keyCount = (s.node n).keyCount := by
  have inA := emptied.kids_isSome heightG hasG
  have nodeG := emptied.node heightG
  have nodeQ := emptied.node heightQ
  have GQ := height_ne heightG heightQ (by decide)
  have GP := height_ne heightG emptied.height (by decide)
  have nG := height_ne emptied.leaf heightG (by decide)
  have nQ := height_ne emptied.leaf heightQ (by decide)
  obtain ⟨c₀, c₁, rfl⟩ := List.length_eq_two.mp two
  have heightC : g c₁ = some 0 := emptied.kid_leaf heightQ PQ (by simp [hasQ.kids])
  have cG := height_ne heightC heightG (by decide)
  have cQ := height_ne heightC heightQ (by decide)
  obtain ⟨s₁, run, right, up, moved, same⟩ :=
    mergeUp_right_run parent notRoot hasG size fits hasQ emptied.has GP GQ PQ cG cQ
  obtain ⟨s₁', run', right', up', moved', same'⟩ :=
    mergeUp_right_run (emptied.parent'.trans parent) notRoot (nodeG.has hasG) size fits
    (nodeQ.has hasQ) emptied.has' GP GQ PQ cG cQ
  have few : (P :: Q :: B).length ≤ 4 := by omega
  have lost : ∀ {it : ItemSet}, it.Has (w :: Y) (P :: Q :: B) →
    ((it.remove 0).moveDeleteChildOptr 0).Has Y (Q :: B) := fun has =>
    Has.erase_child (A := []) (Has.erase (X := []) has size) few
  have hasG₁ := lost hasG
  have hasG₁' := lost (nodeG.has hasG)
  rw [← up] at hasG₁
  rw [← up'] at hasG₁'
  have alike₁ : AlikeOn (fun p => (g p).isSome) s₁ s₁' := by
    refine emptied.alike.step same same' fun q touched _ => ?_
    simp only [List.mem_cons, List.not_mem_nil, or_false] at touched
    rcases touched with rfl | rfl | rfl
    · refine ⟨hasG₁.alike hasG₁' ?_, fun c isKid => inA c ?_⟩
      · simp [up, up', ItemSet.remove, nodeG.parent]
      · rw [hasG₁.kids] at isKid
        exact List.mem_cons_of_mem P isKid
    · have hasQ₁ := hasQ.take_first_child (w := w) (c := n) two
      have hasQ₁' := (nodeQ.has hasQ).take_first_child (w := w) (c := n) two
      rw [← right] at hasQ₁
      rw [← right'] at hasQ₁'
      refine ⟨hasQ₁.alike hasQ₁' (by rw [right, right']; exact nodeQ.parent), fun c isKid => ?_⟩
      rw [hasQ₁.kids, List.mem_cons] at isKid
      rcases isKid with rfl | old
      · simp [emptied.leaf]
      · exact emptied.alike.closed q (by simp [heightQ]) c (by rwa [hasQ.kids])
    · rw [moved, moved', setParent_kids]
      exact ⟨(emptied.node heightC).setParent Q, emptied.alike.closed q (by simp [heightC])⟩
  have kept : (s₁.node n).keyCount = (s.node n).keyCount := by
    by_cases isC : n = c₁
    · rw [isC, moved, setParent_keyCount]
    · rw [same.1 n (by simp [nG, nQ, isC])]
  by_cases none : Y = []
  · rw [if_pos none] at run run'
    subst none
    obtain rfl : B = [] := by
      simp only [List.length_cons, List.length_nil] at fits
      exact List.length_eq_zero_iff.mp (by omega)
    exact (dropRoot_alike alike₁ (by simp [heightG]) (Has.childOptr (A := []) hasG₁)).of_run run run'
      fun s₂ same => (same n).trans kept
  · rw [if_neg none] at run run'
    exact Or.inr ⟨Option.none, s₁, s₁', run, run', alike₁, by simp, kept⟩

end Join

/-- The neighbour to the right, with keys to spare, hands its first child on. -/
theorem lends_right {G R c : Nat} {A B cs : List Nat} {xs l : List (Key × Nat)} {w z : Key × Nat}
    (parent : (s.node P).parent = G) (notRoot : G ≠ 0) (heightG : g G = some 2) (heightR : g R = some 1)
    (PR : P ≠ R) (hasG : (s.node G).Has (w :: xs) (A ++ P :: R :: B)) (size : (w :: xs).length ≤ 3)
    (fits : (A ++ P :: R :: B).length = (w :: xs).length + 1) (first : P ∉ A)
    (left : A.getLast?.elim 0 (fun p => (s.node p).keyCount) < 2)
    (hasR : (s.node R).Has (z :: l) (c :: cs)) (sizeR : (z :: l).length ≤ 3)
    (fitsR : (c :: cs).length = (z :: l).length + 1) (spare : l ≠ []) :
    EndAlike (fun p => (g p).isSome) (oNode.mergeUp P) s s'
      fun s₁ => (s₁.node n).keyCount = (s.node n).keyCount := by
  have inA := emptied.kids_isSome heightG hasG
  have nodeG := emptied.node heightG
  have nodeP := emptied.node emptied.height
  have nodeR := emptied.node heightR
  have heightC : g c = some 0 := emptied.kid_leaf heightR PR (by simp [hasR.kids])
  have GP := height_ne heightG emptied.height (by decide)
  have GR := height_ne heightG heightR (by decide)
  have cG := height_ne heightC heightG (by decide)
  have cP := height_ne heightC emptied.height (by decide)
  have cR := height_ne heightC heightR (by decide)
  have nG := height_ne emptied.leaf heightG (by decide)
  have nP := height_ne emptied.leaf emptied.height (by decide)
  have nR := height_ne emptied.leaf heightR (by decide)
  obtain ⟨s₁, run, low, up, right, moved, same⟩ :=
    mergeUp_spare_right_run parent notRoot hasG size fits first left hasR sizeR spare emptied.has GP
    GR PR cG cP cR
  obtain ⟨s₁', run', low', up', right', moved', same'⟩ :=
    mergeUp_spare_right_run (emptied.parent'.trans parent) notRoot (nodeG.has hasG) size fits first
    (emptied.few (fun c isLast => inA c (by simp [List.mem_of_getLast? isLast])) left)
    (nodeR.has hasR) sizeR spare emptied.has' GP GR PR cG cP cR
  have lost : ∀ {it : ItemSet}, it.Has (z :: l) (c :: cs) →
    (((it.moveDeleteKey 0).moveDeleteDataOptr 0).moveDeleteChildOptr 0).Has l cs := fun has =>
    Has.erase_child (A := []) (Has.erase (X := []) has sizeR) (by rw [List.nil_append]; omega)
  refine Or.inr ⟨none, s₁, s₁', run, run', emptied.alike.step same same' fun q touched _ => ?_, nofun, ?_⟩
  · simp only [List.mem_cons, List.not_mem_nil, or_false] at touched
    rcases touched with rfl | rfl | rfl | rfl
    · rw [up, up', onePair_kids]
      exact ⟨nodeG.onePair z, emptied.alike.closed q (by simp [heightG])⟩
    · rw [low, low', refilled_kids emptied.has.kids]
      refine ⟨nodeP.refilled emptied.has.childOptrCount w c, fun d isKid => ?_⟩
      rcases List.mem_pair.mp isKid with rfl | rfl
      · simp [emptied.leaf]
      · simp [heightC]
    · have hasR₁ := lost hasR
      have hasR₁' := lost (nodeR.has hasR)
      rw [← right] at hasR₁
      rw [← right'] at hasR₁'
      refine ⟨hasR₁.alike hasR₁' (by simp [right, right', nodeR.parent]), fun d isKid => ?_⟩
      rw [hasR₁.kids] at isKid
      exact emptied.alike.closed q (by simp [heightR]) d (by rw [hasR.kids]; exact List.mem_cons_of_mem c isKid)
    · rw [moved, moved', setParent_kids]
      exact ⟨(emptied.node heightC).setParent P, emptied.alike.closed q (by simp [heightC])⟩
  · show (s₁.node n).keyCount = (s.node n).keyCount
    by_cases isC : n = c
    · rw [isC, moved, setParent_keyCount]
    · rw [same.1 n (by simp [nG, nP, nR, isC])]

/-- A node left without keys is taken up alike; the leaf below it keeps its number of keys. -/
theorem mergeUp_alike : EndAlike (fun p => (g p).isSome) (oNode.mergeUp P) s s'
    fun s₁ => (s₁.node n).keyCount = (s.node n).keyCount := by
  by_cases isRoot : P = root
  · have atRoot : (s.node P).parent = 0 := by rw [emptied.parent, isRoot, emptied.shaped.rootParent]
    refine Or.inr ⟨some n, _, _, mergeUp_root_run emptied.has atRoot, mergeUp_root_run emptied.has'
      (emptied.parent'.trans atRoot), emptied.alike.step (sameBut_put s n _) (sameBut_put s' n _)
      fun q touched _ => ?_, ?_, ?_⟩
    · obtain rfl := List.mem_singleton.mp touched
      simp only [put_node, if_true, setParent_kids]
      exact ⟨(emptied.node emptied.leaf).setParent 0, emptied.alike.closed q (by simp [emptied.leaf])⟩
    · rintro _ ⟨⟩
      simp [emptied.leaf]
    · simp
  obtain ⟨G, xs, A, B, parent, notRoot, heightG, hasG, size, fits, first, filled⟩ :=
    emptied.shaped.above emptied.height isRoot
  have GP := height_ne heightG emptied.height (by decide)
  rw [← emptied.parent] at parent
  have beside : ∀ {c}, c ∈ A ++ B → g c = some 1 ∧ c ≠ P ∧ G ≠ c ∧ s.node c = s₀.node c := by
    intro c member
    obtain ⟨heightC, notP, notG⟩ := emptied.shaped.beside heightG hasG member
    exact ⟨heightC, notP, notG, emptied.same heightC notP⟩
  rw [← emptied.same heightG GP] at hasG
  -- a neighbour has its pairs, and one child more
  have hasOf : ∀ {c}, c ∈ A ++ B → (s.node c).Has (s.node c).items (s.node c).kids ∧
    (s.node c).items.length ≤ 3 ∧
      (s.node c).kids.length = (s.node c).items.length + 1 := by
    intro c member
    obtain ⟨heightC, -, -, same⟩ := beside member
    rw [same, ItemSet.length_items]
    exact ⟨emptied.shaped.has heightC, (emptied.shaped.counts heightC).2, (emptied.shaped.inner heightC).1⟩
  have oneOf : ∀ {c}, c ∈ A ++ B → (s.node c).keyCount < 2 → ∃ x, (s.node c).items = [x] := by
    intro c member few
    obtain ⟨heightC, -, -, same⟩ := beside member
    rw [same] at few ⊢
    exact emptied.shaped.one heightC (Or.inr (by decide)) few
  by_cases left : 2 ≤ A.getLast?.elim 0 fun p => (s.node p).keyCount
  · obtain ⟨Q, isLast⟩ : ∃ Q, A.getLast? = some Q := by
      cases last : A.getLast? with
      | none => simp [last] at left
      | some Q => exact ⟨Q, rfl⟩
    have member : Q ∈ A ++ B := List.mem_append_left B (List.mem_of_getLast? isLast)
    obtain ⟨heightQ, notP, notG, -⟩ := beside member
    obtain ⟨hasQ, sizeQ, fitsQ⟩ := hasOf member
    rw [isLast, Option.elim_some, ← ItemSet.length_items] at left
    have nodeG := emptied.node heightG
    exact Or.inl ⟨_, mergeUp_spare_left_run parent notRoot hasG size fits filled first isLast hasQ left
      sizeQ (by omega) notP.symm GP notG, mergeUp_spare_left_run (emptied.parent'.trans parent) notRoot
      (nodeG.has hasG) size fits filled first isLast ((emptied.node heightQ).has hasQ)
        left sizeQ (by omega) notP.symm GP notG⟩
  by_cases right : 2 ≤ B.head?.elim 0 fun p => (s.node p).keyCount
  · obtain ⟨R, B, rfl⟩ : ∃ R B', B = R :: B' := List.exists_cons_of_ne_nil (by rintro rfl; simp at right)
    have member : R ∈ A ++ R :: B := by simp
    obtain ⟨heightR, notP, notG, -⟩ := beside member
    obtain ⟨hasR, sizeR, fitsR⟩ := hasOf member
    rw [List.head?_cons, Option.elim_some, ← ItemSet.length_items] at right
    obtain ⟨w, xs, rfl⟩ := List.exists_cons_of_ne_nil filled
    obtain ⟨z, l, items⟩ := List.exists_cons_of_length_pos (show 0 < (s.node R).items.length by omega)
    obtain ⟨c, cs, kids⟩ := List.exists_cons_of_length_pos (show 0 < (s.node R).kids.length by omega)
    rw [items] at hasR sizeR fitsR right
    rw [kids] at hasR fitsR
    exact emptied.lends_right parent notRoot heightG heightR notP.symm hasG size fits first
      (by omega) hasR sizeR fitsR (List.ne_nil_of_length_pos (Nat.le_of_succ_le_succ right))
  rcases A.eq_nil_or_concat with rfl | ⟨A, Q, rfl⟩
  · obtain ⟨w, Y, rfl⟩ := List.exists_cons_of_ne_nil filled
    obtain ⟨R, B, rfl⟩ : ∃ R B', B = R :: B' := List.exists_cons_of_ne_nil (by rintro rfl; simp at fits)
    have member : R ∈ [] ++ R :: B := by simp
    obtain ⟨heightR, notP, -, -⟩ := beside member
    obtain ⟨x, one⟩ := oneOf member (by simpa using right)
    obtain ⟨hasR, -, fitsR⟩ := hasOf member
    rw [one] at hasR fitsR
    exact emptied.joins_right parent notRoot heightG heightR hasR fitsR hasG size fits notP.symm
  · rw [List.concat_eq_append] at hasG fits first left beside hasOf oneOf
    have member : Q ∈ A ++ [Q] ++ B := by simp
    obtain ⟨heightQ, notP, -, -⟩ := beside member
    obtain ⟨x, one⟩ := oneOf member (by simpa using left)
    obtain ⟨hasQ, -, fitsQ⟩ := hasOf member
    rw [one] at hasQ fitsQ
    simp only [List.length_append, List.length_cons, List.length_nil] at fits
    obtain ⟨X, w, Y, rfl, place⟩ := exists_place (show A.length < xs.length by omega)
    exact emptied.joins_left parent notRoot heightG heightQ hasQ fitsQ (A := A) (B := B)
      (by simpa using hasG) place.symm size
      (by simp only [List.length_append, List.length_cons] at fits ⊢; omega) first (by omega)

end Emptied

end MergeUp

section Underflow
variable {g : Nat → Option Nat} {root : Nat} {s s' s₁ s₁' : IndexFile} {P L n : Nat}

/-- Some node of the tree has another number of keys than in `s`. -/
def Recounted (g : Nat → Option Nat) (s s₁ : IndexFile) : Prop :=
  ∃ p, (g p).isSome ∧ (s₁.node p).keyCount ≠ (s.node p).keyCount

section Neighbour
variable (alike : AlikeOn (fun p => (g p).isSome) s s') (heightP : g P = some 1) (leaf : g n = some 0)
include alike heightP leaf

/-- A leaf beside `L` lends a pair: `L` is left with one, and so is its parent with as many as before. -/
theorem lends_alike {X Y l : List (Key × Nat)} {w z : Key × Nat} {cs : List Nat} {i : Nat}
    (hasP : (s.node P).Has (X ++ w :: Y) cs) (size : (X ++ w :: Y).length ≤ 3)
    (hasN : (s.node n).Has l []) (sizeN : l.length ≤ 3) (spare : 2 ≤ l.length)
    (run : (oNode.underflow P L).run s = .ok (none, s₁))
    (run' : (oNode.underflow P L).run s' = .ok (none, s₁')) (nodeL : s₁.node L = (s.node L).onePair w)
    (nodeL' : s₁'.node L = (s'.node L).onePair w)
    (nodeP : s₁.node P = ((s.node P).setKey X.length z.1).setDataOptr X.length z.2)
    (nodeP' : s₁'.node P = ((s'.node P).setKey X.length z.1).setDataOptr X.length z.2)
    (nodeN : s₁.node n = ((s.node n).moveDeleteKey i).moveDeleteDataOptr i)
    (nodeN' : s₁'.node n = ((s'.node n).moveDeleteKey i).moveDeleteDataOptr i)
    (same : SameBut s s₁ [P, L, n]) (same' : SameBut s' s₁' [P, L, n]) :
    EndAlike (fun p => (g p).isSome) (oNode.underflow P L) s s' (Recounted g s) := by
  have inside : X.length < 3 := by
    simp only [List.length_append, List.length_cons] at size
    omega
  have countN := hasN.keyCount
  have dataCountN := hasN.datas
  refine Or.inr ⟨none, s₁, s₁', run, run', alike.step same same' fun q touched inA => ?_, nofun, n,
    by simp [leaf], ?_⟩
  · have node := alike.alike q inA
    have closed := alike.closed q inA
    simp only [List.mem_cons, List.not_mem_nil, or_false] at touched
    rcases touched with rfl | rfl | rfl
    · rw [nodeP, nodeP', setDataOptr_kids, setKey_kids inside]
      exact ⟨(node.setKey inside z.1).setDataOptr _ _, closed⟩
    · rw [nodeL, nodeL', onePair_kids]
      exact ⟨node.onePair w, closed⟩
    · rw [nodeN, nodeN', moveDeleteDataOptr_kids (by simp; omega), moveDeleteKey_kids (by omega) (by omega)]
      exact ⟨(node.moveDeleteKey (by omega) (by omega) _).moveDeleteDataOptr (by simp; omega) _, closed⟩
  · rw [nodeN, moveDeleteDataOptr_keyCount, moveDeleteKey_keyCount]
    omega

/-- A child is taken from a node that keeps a key, and the key beside it put to the leaf `n`. -/
theorem hands_alike {X : List (Key × Nat)} {A B : List Nat} {i : Nat}
    (hasP : (s.node P).Has X (A ++ L :: B)) (size : X.length ≤ 3)
    (fits : (A ++ L :: B).length = X.length + 1) (filled : X ≠ [])
    (run : (oNode.merge P A.length).run s = .ok (none, s₁))
    (run' : (oNode.merge P A.length).run s' = .ok (none, s₁'))
    (nodeP : s₁.node P = ((s.node P).moveDeleteChildOptr A.length).moveDeleteKey i)
    (nodeP' : s₁'.node P = ((s'.node P).moveDeleteChildOptr A.length).moveDeleteKey i)
    (nodeN : Alike (s₁.node n) (s₁'.node n)) (noKids : (s₁.node n).kids = [])
    (count : (s₁.node n).keyCount = (s.node n).keyCount + 1) (same : SameBut s s₁ [P, n])
    (same' : SameBut s' s₁' [P, n]) :
    EndAlike (fun p => (g p).isSome) (oNode.merge P A.length) s s' (Recounted g s) := by
  have few : (A ++ L :: B).length ≤ 4 := by omega
  have countP := hasP.keyCount
  have childCountP := hasP.childOptrCount
  have some := List.length_pos_iff.mpr filled
  refine Or.inr ⟨none, s₁, s₁', run, run', alike.step same same' fun q touched inA => ?_, nofun, n,
    by simp [leaf], by omega⟩
  simp only [List.mem_cons, List.not_mem_nil, or_false] at touched
  rcases touched with rfl | rfl
  · rw [nodeP, nodeP']
    refine ⟨((alike.alike q inA).moveDeleteChildOptr (by omega) (by omega) _).moveDeleteKey
      (by simp; omega) (by simp; omega) _, fun c isKid => ?_⟩
    rw [moveDeleteKey_kids (by simp; omega) (by simp; omega), (hasP.erase_child few).kids] at isKid
    refine alike.closed q inA c ?_
    rw [hasP.kids]
    simp only [List.mem_append, List.mem_cons] at isKid ⊢
    tauto
  · exact ⟨nodeN, by simp [noKids]⟩

/-- The only key of a node goes to one of its two leaves, and the node, which keeps that leaf, is taken up. -/
theorem empties_alike {w : Key × Nat} {A B : List Nat} (shaped : Shaped s g root) (Pn : P ≠ n)
    (hasP : (s.node P).Has [w] (A ++ L :: B)) (two : (A ++ L :: B).length = 2) (rest : A ++ B = [n])
    (run : (oNode.merge P A.length).run s = (oNode.mergeUp P).run s₁)
    (run' : (oNode.merge P A.length).run s' = (oNode.mergeUp P).run s₁')
    (nodeP : s₁.node P = ((s.node P).remove 0).moveDeleteChildOptr A.length)
    (nodeP' : s₁'.node P = ((s'.node P).remove 0).moveDeleteChildOptr A.length)
    (nodeN : Alike (s₁.node n) (s₁'.node n)) (noKids : (s₁.node n).kids = [])
    (count : (s₁.node n).keyCount = (s.node n).keyCount + 1) (same : SameBut s s₁ [P, n])
    (same' : SameBut s' s₁' [P, n]) :
    EndAlike (fun p => (g p).isSome) (oNode.merge P A.length) s s' (Recounted g s) := by
  have less : ((s.node P).remove 0).Has [] (A ++ L :: B) := hasP.erase (X := []) (by simp)
  have childCount := less.childOptrCount
  have hasP₁ : (s₁.node P).Has [] [n] := by
    rw [nodeP, ← rest]
    exact less.erase_child (by omega)
  have alike₁ : AlikeOn (fun p => (g p).isSome) s₁ s₁' := by
    refine alike.step same same' fun q touched inA => ?_
    simp only [List.mem_cons, List.not_mem_nil, or_false] at touched
    rcases touched with rfl | rfl
    · have node := (alike.alike q inA).remove (by simp [hasP.keyCount]) (by simp [hasP.keyCount])
        (by simp [hasP.keyCount, hasP.datas]) 0
      rw [hasP₁.kids, nodeP, nodeP']
      exact ⟨node.moveDeleteChildOptr (by omega) (by omega) _, by simp [leaf]⟩
    · exact ⟨nodeN, by simp [noKids]⟩
  have emptied : Emptied s g root P n s₁ s₁' :=
    ⟨shaped, alike₁, heightP, leaf, hasP₁, by simp [nodeP, ItemSet.remove], fun height notP =>
    same.1 _ (by simp [notP, height_ne height leaf])⟩
  exact emptied.mergeUp_alike.of_run run run' fun s₂ kept => ⟨n, by simp [leaf], by omega⟩

end Neighbour

/-- A leaf about to lose its last key has one lent or is merged alike; either changes the number of keys
of a leaf beside it. -/
theorem underflow_alike (shaped : Shaped s g root) (alike : AlikeOn (fun p => (g p).isSome) s s')
    (leaf : g L = some 0) (notRoot : L ≠ root) :
    EndAlike (fun p => (g p).isSome) (oNode.underflow (s.node L).parent L) s s' (Recounted g s) := by
  obtain ⟨P, xs, A, B, rfl, notNull, heightP, hasP, size, fits, first, filled⟩ := shaped.above leaf notRoot
  have nodeP := alike.alike (s.node L).parent (by simp [heightP])
  have hasP' := nodeP.has hasP
  have PL := height_ne heightP leaf (by decide)
  have beside : ∀ {c}, c ∈ A ++ B → g c = some 0 ∧ c ≠ L ∧ (s.node L).parent ≠ c ∧
    (s.node c).Has (s.node c).items [] ∧
      (s'.node c).Has (s.node c).items [] ∧ (s.node c).items.length ≤ 3 := by
    intro c member
    obtain ⟨heightC, notL, notP⟩ := shaped.beside heightP hasP member
    have hasC := shaped.has heightC
    rw [shaped.leaf heightC] at hasC
    exact ⟨heightC, notL, notP, hasC, (alike.alike c (by simp [heightC])).has hasC, shaped.items_le heightC⟩
  have oneOf : ∀ {c}, c ∈ A ++ B → (s.node c).keyCount < 2 → ∃ x, (s.node c).items = [x] := by
    intro c member few
    have isKid : c ∈ (s.node (s.node L).parent).kids := by
      rw [hasP.kids]
      simp only [List.mem_append, List.mem_cons] at member ⊢
      tauto
    exact shaped.one (beside member).1 (Or.inl (shaped.kid_ne_root heightP isKid)) few
  have fewOf : ∀ {o : Option Nat}, (∀ c ∈ o, c ∈ A ++ B) → o.elim 0 (fun p => (s.node p).keyCount) < 2 →
      o.elim 0 (fun p => (s'.node p).keyCount) < 2 := by
    intro o inside few
    cases o with
    | none => exact few
    | some c => exact (alike.alike c (by simp [(beside (inside c rfl)).1])).keyCount.trans_lt few
  by_cases left : 2 ≤ A.getLast?.elim 0 fun p => (s.node p).keyCount
  · rcases A.eq_nil_or_concat with rfl | ⟨A, n, rfl⟩
    · simp at left
    rw [List.concat_eq_append] at *
    obtain ⟨heightN, nL, Pn, hasN, hasN', sizeN⟩ := beside (c := n) (by simp)
    simp only [List.getLast?_append, List.getLast?_singleton, Option.some_or, Option.elim_some,
      ← ItemSet.length_items] at left
    obtain ⟨l, z, items⟩ := (s.node n).items.eq_nil_or_concat.resolve_left (by rintro none; simp [none] at left)
    rw [List.concat_eq_append] at items
    rw [items] at hasN hasN' sizeN left
    have spare : l ≠ [] := by rintro rfl; simp at left
    simp only [List.length_append, List.length_cons, List.length_nil] at fits
    obtain ⟨X, w, Y, rfl, place⟩ := exists_place (show A.length < xs.length by omega)
    have hasAll : (s.node (s.node L).parent).Has (X ++ w :: Y) (A ++ n :: L :: B) := by simpa using hasP
    have fitsAll : (A ++ n :: L :: B).length = (X ++ w :: Y).length + 1 := by
      simp only [List.length_append, List.length_cons] at fits ⊢
      omega
    obtain ⟨s₁, run, low, up, next, same⟩ := underflow_left_run hasAll place.symm size fitsAll first PL
      Pn hasN sizeN spare
    obtain ⟨s₁', run', low', up', next', same'⟩ :=
      underflow_left_run (nodeP.has hasAll) place.symm size fitsAll first PL Pn hasN' sizeN spare
    exact lends_alike alike heightP heightN hasP size hasN sizeN left run run' low low' up up' next
      next' same same'
  by_cases right : 2 ≤ B.head?.elim 0 fun p => (s.node p).keyCount
  · obtain ⟨n, B, rfl⟩ : ∃ n B', B = n :: B' := List.exists_cons_of_ne_nil (by rintro rfl; simp at right)
    obtain ⟨heightN, nL, Pn, hasN, hasN', sizeN⟩ := beside (c := n) (by simp)
    rw [List.head?_cons, Option.elim_some, ← ItemSet.length_items] at right
    obtain ⟨z, l, items⟩ := List.exists_cons_of_length_pos (show 0 < (s.node n).items.length by omega)
    rw [items] at hasN hasN' sizeN right
    have spare : l ≠ [] := by rintro rfl; simp at right
    simp only [List.length_append, List.length_cons] at fits
    obtain ⟨X, w, Y, rfl, place⟩ := exists_place (show A.length < xs.length by omega)
    obtain ⟨s₁, run, low, up, next, same⟩ := underflow_right_run hasP place.symm size
      (by simp at fits ⊢; omega) first PL Pn nL (by omega) hasN sizeN spare
    obtain ⟨s₁', run', low', up', next', same'⟩ :=
      underflow_right_run hasP' place.symm size (by simp at fits ⊢; omega) first PL Pn nL
      (fewOf (fun c isLast => by simp [List.mem_of_getLast? isLast]) (by omega)) hasN' sizeN spare
    exact lends_alike alike heightP heightN hasP size hasN sizeN right run run' low low' up up' next
      next' same same'
  have few : (A ++ L :: B).length ≤ 4 := by omega
  have merged := underflow_merge_run hasP few first (by omega) (by omega)
  have merged' := underflow_merge_run hasP' few first
    (fewOf (fun c isLast => by simp [List.mem_of_getLast? isLast]) (by omega))
    (fewOf (fun c isFirst => by simp [List.mem_of_mem_head? isFirst]) (by omega))
  suffices EndAlike (fun p => (g p).isSome) (oNode.merge (s.node L).parent A.length) s s' (Recounted g s) from
    this.of_run merged merged' fun _ => id
  rcases A.eq_nil_or_concat with rfl | ⟨A, n, rfl⟩
  · obtain ⟨w, Y, rfl⟩ := List.exists_cons_of_ne_nil filled
    obtain ⟨n, B, rfl⟩ : ∃ n B', B = n :: B' := List.exists_cons_of_ne_nil (by rintro rfl; simp at fits)
    obtain ⟨heightN, nL, Pn, hasN, hasN', sizeN⟩ := beside (c := n) (by simp)
    have node := alike.alike n (by simp [heightN])
    obtain ⟨x, one⟩ := oneOf (c := n) (by simp) (by simpa using right)
    rw [one] at hasN hasN'
    by_cases many : 2 ≤ (w :: Y).length
    · obtain ⟨s₁, run, next, up, same⟩ := merge_spare_right_run hasP size fits many hasN Pn
      obtain ⟨s₁', run', next', up', same'⟩ := merge_spare_right_run hasP' size fits many hasN' Pn
      refine hands_alike (A := []) alike heightP heightN hasP size fits filled run run' up up' ?_ ?_
        (by rw [next]; rfl) same same'
      · rw [next, next']
        exact node.pushUncounted (by simp [hasN.keyCount, hasN.datas]) w
      · rw [next, pushUncounted_kids, hasN.kids]
    · simp only [List.nil_append, List.length_cons] at fits many
      obtain rfl : Y = [] := List.length_eq_zero_iff.mp (by omega)
      obtain rfl : B = [] := List.length_eq_zero_iff.mp (by simpa using fits)
      obtain ⟨s₁, run, next, up, same⟩ := merge_right_run hasP hasN Pn
      obtain ⟨s₁', run', next', up', same'⟩ := merge_right_run hasP' hasN' Pn
      refine empties_alike (A := []) alike heightP heightN shaped Pn hasP rfl rfl run run' up up' ?_ ?_
        (by rw [next]; rfl) same same'
      · rw [next, next']
        exact node.insertAt (by simp) (by simp) w
      · rw [next]
        exact hasN.kids
  · rw [List.concat_eq_append] at *
    obtain ⟨heightN, nL, Pn, hasN, hasN', sizeN⟩ := beside (c := n) (by simp)
    have node := alike.alike n (by simp [heightN])
    obtain ⟨x, one⟩ := oneOf (c := n) (by simp) (by simpa using left)
    rw [one] at hasN hasN'
    simp only [List.length_append, List.length_cons, List.length_nil] at fits
    obtain ⟨X, w, Y, rfl, place⟩ := exists_place (show A.length < xs.length by omega)
    have hasAll : (s.node (s.node L).parent).Has (X ++ w :: Y) (A ++ n :: L :: B) := by simpa using hasP
    have fitsAll : (A ++ n :: L :: B).length = (X ++ w :: Y).length + 1 := by
      simp only [List.length_append, List.length_cons] at fits ⊢
      omega
    by_cases many : 2 ≤ (X ++ w :: Y).length
    · obtain ⟨s₁, run, next, up, same⟩ := merge_spare_left_run hasAll place.symm size fitsAll many hasN Pn
      obtain ⟨s₁', run', next', up', same'⟩ :=
        merge_spare_left_run (nodeP.has hasAll) place.symm size fitsAll many hasN' Pn
      have here : X.length + 1 = (A ++ [n]).length := by simp [place]
      rw [here] at run run' up up'
      refine hands_alike alike heightP heightN hasP size
        (by simpa using fitsAll) filled run run' up up' ?_ ?_ (by rw [next]; rfl) same same'
      · rw [next, next']
        exact node.insertAt (by simp [hasN.keyCount]) (by simp [hasN.datas]) w
      · rw [next]
        exact hasN.kids
    · simp only [List.length_append, List.length_cons] at fits many
      obtain rfl : X = [] := List.length_eq_zero_iff.mp (by omega)
      obtain rfl : Y = [] := List.length_eq_zero_iff.mp (by omega)
      obtain rfl : A = [] := List.length_eq_zero_iff.mp place.symm
      obtain rfl : B = [] := List.length_eq_zero_iff.mp (by simp at fits; omega)
      obtain ⟨s₁, run, next, up, same⟩ := merge_left_run hasP hasN Pn
      obtain ⟨s₁', run', next', up', same'⟩ := merge_left_run hasP' hasN' Pn
      refine empties_alike (A := [n]) alike heightP heightN shaped Pn hasP rfl rfl run run' up up' ?_ ?_
        (by rw [next]; rfl) same same'
      · rw [next, next']
        exact node.insertAt (by simp [hasN.keyCount]) (by simp [hasN.datas]) w
      · rw [next]
        exact hasN.kids

end Underflow

end MiyaCore
