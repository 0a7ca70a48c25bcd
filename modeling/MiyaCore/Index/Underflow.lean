import MiyaCore.Index.Insertion
import MiyaCore.Index.RemoveRuns
import MiyaCore.Index.RootPersistence
import MiyaCore.SearchTree.Bounds
import MiyaCore.SearchTree.Joins

/-!
# A node that ran out of entries

A removal leaves one node without entries. A neighbour hands one over through the parent,
or the node is joined to it; then the parent is the node that may be without entries.
-/

namespace MiyaCore
open NodeFile ItemSet SearchTree

/-- A labelled file in which the node `e` may be without entries. -/
structure Emptying (s : IndexFile) (V : Nodes Nat Key Nat) (g : Nat → Option (Label Key))
    (root height e : Nat) : Prop where
  labelled : Labelled V g root height
  inFile : ∀ {p l}, g p = some l → 0 < p ∧ p < s.top
  counts : ∀ {p l}, g p = some l → (s.node p).dataOptrCount = (s.node p).keyCount ∧ (s.node p).keyCount ≤ 3
  filled : ∀ {p h lo hi}, g p = some (h, lo, hi) → p ≠ e → V.items p ≠ [] ∨ p = root ∧ h = 0
  parents : ∀ {q l c}, g q = some l → c ∈ V.kids q → (s.node c).parent = q
  rootParent : (s.node root).parent = 0

section Emptying
variable {s s' : IndexFile} {V : Nodes Nat Key Nat} {g : Nat → Option (Label Key)} {root height e h : Nat}
  {lo : WithBot Key} {hi : WithTop Key}

theorem Emptying.settle (emptying : Emptying s V g root height e)
    (some : ∀ {h lo hi}, g e = some (h, lo, hi) → V.items e ≠ [] ∨ e = root ∧ h = 0) :
    Indexed s V g root height := by
  refine ⟨emptying.labelled, emptying.inFile, emptying.counts, fun {p h lo hi} label => ?_,
    emptying.parents, emptying.rootParent⟩
  by_cases isE : p = e
  · subst isE
    exact some label
  · exact emptying.filled label isE

theorem SameBut.parent {T : List Nat} (same : SameBut s s' T) {p : Nat}
    (inside : p ∈ T → (s'.node p).parent = (s.node p).parent) : (s'.node p).parent = (s.node p).parent := by
  by_cases member : p ∈ T
  · exact inside member
  · rw [same.1 p member]

/-- Only the node above one has it among its children. -/
theorem Emptying.only_up (emptying : Emptying s V g root height e) {P a b : Nat} {l : Label Key}
    (label : g P = some l) (isA : a ∈ V.kids P) (isB : b ∈ V.kids P) :
    ∀ p l, g p = some l → a ∈ V.kids p ∨ b ∈ V.kids p → p = P := by
  rintro p l' labelp (isKid | isKid)
  · exact (emptying.parents labelp isKid).symm.trans (emptying.parents label isA)
  · exact (emptying.parents labelp isKid).symm.trans (emptying.parents label isB)

section Two
variable {P c₁ c₂ : Nat} {X Y : List (Key × Nat)} {w : Key × Nat} {A B : List Nat}
    (emptying : Emptying s V g root height e) (isE : e = c₁ ∨ e = c₂)
    (label : g P = some (h + 1, lo, hi)) (items : V.items P = X ++ w :: Y)
    (kids : V.kids P = A ++ c₁ :: c₂ :: B) (place : A.length = X.length) (top : s'.top = s.top)
include emptying isE label items kids place top

/-- Two neighbours joined in `n`. -/
theorem Emptying.join {n : Nat} (kept : n = c₁ ∨ n = c₂)
    (hasN : (s'.node n).Has (V.items c₁ ++ w :: V.items c₂) (V.kids c₁ ++ V.kids c₂))
    (sizeN : (V.items c₁ ++ w :: V.items c₂).length ≤ 3) (hasP : (s'.node P).Has (X ++ Y) (A ++ n :: B))
    (sizeP : (X ++ Y).length ≤ 3) (others : ∀ p, p ≠ P → p ≠ c₁ → p ≠ c₂ →
    (∃ u, s'.node p = (s.node p).setParent u) ∧ (s.node p).items = V.items p ∧ (s.node p).kids = V.kids p)
    (moved : ∀ c ∈ V.kids c₁ ++ V.kids c₂, (s'.node c).parent = n)
    (stay : ∀ c, c ∉ V.kids c₁ ++ V.kids c₂ → (s'.node c).parent = (s.node c).parent) :
    Emptying s' s'.nodes (joined g c₁ c₂ n h (lastKey lo X) (firstKey hi Y)) root height P ∧
      ∀ x, Held s'.nodes (joined g c₁ c₂ n h (lastKey lo X) (firstKey hi Y)) x ↔ Held V g x := by
  have in₁ : c₁ ∈ V.kids P := by simp [kids]
  have in₂ : c₂ ∈ V.kids P := by simp [kids]
  have onlyUp := emptying.only_up label in₁ in₂
  have labelled := emptying.labelled.join label items kids place kept onlyUp
  obtain ⟨_, a₁, b₁, -, label₁⟩ := emptying.labelled.kid label in₁
  obtain ⟨_, a₂, b₂, -, label₂⟩ := emptying.labelled.kid label in₂
  have P₁ : P ≠ c₁ := by
    rintro rfl
    exact absurd (emptying.labelled.kid label in₁) (by simp [label])
  have P₂ : P ≠ c₂ := by
    rintro rfl
    exact absurd (emptying.labelled.kid label in₂) (by simp [label])
  have held : ∀ x, Held (V.join P c₁ c₂ n X Y w A B)
    (joined g c₁ c₂ n h (lastKey lo X) (firstKey hi Y)) x ↔ Held V g x :=
    held_join label₁ label₂ label P₁ P₂ items kept
  have Pn : P ≠ n := by rcases kept with rfl | rfl <;> assumption
  have labels : ∀ {p l}, joined g c₁ c₂ n h (lastKey lo X) (firstKey hi Y) p = some l → p = n ∨ p ≠ n ∧
    p ≠ c₁ ∧ p ≠ c₂ ∧ g p = some l := by
    intro p l labelp
    unfold joined at labelp
    split_ifs at labelp with isN gone
    · exact Or.inl isN
    · exact Or.inr ⟨isN, fun is₁ => gone (Or.inl is₁), fun is₂ => gone (Or.inr is₂), labelp⟩
  have old : ∀ {p l}, joined g c₁ c₂ n h (lastKey lo X) (firstKey hi Y) p = some l → ∃ l, g p = some l := by
    intro p l labelp
    rcases labels labelp with rfl | ⟨-, -, -, labelp⟩
    · rcases kept with rfl | rfl
      · exact ⟨_, label₁⟩
      · exact ⟨_, label₂⟩
    · exact ⟨l, labelp⟩
  have same : ∀ p l, joined g c₁ c₂ n h (lastKey lo X) (firstKey hi Y) p = some l →
      s'.nodes.items p = (V.join P c₁ c₂ n X Y w A B).items p ∧
      s'.nodes.kids p = (V.join P c₁ c₂ n X Y w A B).kids p := by
    intro p l labelp
    by_cases isP : p = P
    · subst isP
      simp [Nodes.join, nodes_items, nodes_kids, hasP.items, hasP.kids]
    rcases labels labelp with rfl | ⟨isN, not₁, not₂, -⟩
    · simp [Nodes.join, nodes_items, nodes_kids, hasN.items, hasN.kids, isP]
    · obtain ⟨⟨u, node⟩, sameItems, sameKids⟩ := others p isP not₁ not₂
      simp only [Nodes.join, nodes_items, nodes_kids, node, Nodes.set_items, Nodes.set_kids, isP, isN, if_false]
      exact ⟨sameItems, sameKids⟩
  refine ⟨⟨labelled.agree same, fun {p l} labelp => ?_, fun {p l} labelp => ?_,
    fun {p h' lo' hi'} labelp notP => ?_, fun {q l c} labelq isKid => ?_, ?_⟩,
    fun x => (held_agree (fun p l labelp => (same p l labelp).1) x).trans (held x)⟩
  · obtain ⟨l', labelp⟩ := old labelp
    rw [top]
    exact emptying.inFile labelp
  · by_cases isP : p = P
    · subst isP
      exact hasP.counts sizeP
    rcases labels labelp with rfl | ⟨-, not₁, not₂, labelp⟩
    · exact hasN.counts sizeN
    · obtain ⟨⟨u, node⟩, -⟩ := others p isP not₁ not₂
      rw [node]
      exact emptying.counts labelp
  · rw [(same p _ labelp).1]
    rcases labels labelp with rfl | ⟨isN, not₁, not₂, labelp⟩
    · simp [Nodes.join, notP]
    · have notE : p ≠ e := by rcases isE with rfl | rfl <;> assumption
      have := emptying.filled labelp notE
      simpa [Nodes.join, notP, isN] using this
  · rw [(same q _ labelq).2] at isKid
    have apart : ∀ {u l}, g u = some l → u ≠ c₁ → u ≠ c₂ → c ∈ V.kids u → (s'.node c).parent = u := by
      intro u l labelU not₁ not₂ isKid
      rw [stay c, emptying.parents labelU isKid]
      intro member
      rcases List.mem_append.mp member with from₁ | from₂
      · exact not₁ ((emptying.parents labelU isKid).symm.trans (emptying.parents label₁ from₁))
      · exact not₂ ((emptying.parents labelU isKid).symm.trans (emptying.parents label₂ from₂))
    by_cases isP : q = P
    · subst isP
      refine apart label P₁ P₂ ?_
      simp only [Nodes.join, Nodes.set_kids, if_true, List.mem_append, List.mem_cons] at isKid
      rw [kids, List.mem_append, List.mem_cons, List.mem_cons]
      rcases kept with rfl | rfl <;> tauto
    rcases labels labelq with rfl | ⟨isN, not₁, not₂, labelq⟩
    · exact moved c (by simpa [Nodes.join, isP] using isKid)
    · exact apart labelq not₁ not₂ (by simpa [Nodes.join, isP, isN] using isKid)
  · rw [stay, emptying.rootParent]
    intro member
    rcases List.mem_append.mp member with from₁ | from₂
    · exact emptying.labelled.root_not_kid label₁ from₁
    · exact emptying.labelled.root_not_kid label₂ from₂

/-- The entries of two neighbouring leaves distributed anew. -/
theorem Emptying.rotate {L R : List (Key × Nat)} {z : Key × Nat} (low : h = 0)
    (entries : V.items c₁ ++ w :: V.items c₂ = L ++ z :: R) (has₁ : (s'.node c₁).Has L [])
    (some₁ : L ≠ []) (size₁ : L.length ≤ 3) (has₂ : (s'.node c₂).Has R []) (some₂ : R ≠ [])
    (size₂ : R.length ≤ 3) (hasP : (s'.node P).Has (X ++ z :: Y) (A ++ c₁ :: c₂ :: B))
    (sizeP : (X ++ z :: Y).length ≤ 3)
    (others : ∀ p, p ≠ P → p ≠ c₁ → p ≠ c₂ → s'.node p = s.node p ∧
      (s.node p).items = V.items p ∧ (s.node p).kids = V.kids p)
    (stay : ∀ p, (s'.node p).parent = (s.node p).parent) :
    Indexed s' s'.nodes (halves g c₁ c₂ h (lastKey lo X) z.1 (firstKey hi Y)) root height ∧
      ∀ x, Held s'.nodes (halves g c₁ c₂ h (lastKey lo X) z.1 (firstKey hi Y)) x ↔ Held V g x := by
  subst low
  have in₁ : c₁ ∈ V.kids P := by simp [kids]
  have in₂ : c₂ ∈ V.kids P := by simp [kids]
  have onlyUp := emptying.only_up label in₁ in₂
  obtain ⟨_, a₁, b₁, one₁, label₁⟩ := emptying.labelled.kid label in₁
  obtain ⟨_, a₂, b₂, one₂, label₂⟩ := emptying.labelled.kid label in₂
  obtain rfl := Nat.succ.inj one₁
  obtain rfl := Nat.succ.inj one₂
  have leaf₁ := emptying.labelled.leaf label₁
  have leaf₂ := emptying.labelled.leaf label₂
  obtain ⟨labelled, held⟩ := emptying.labelled.rotate (C := []) (D := []) label items kids place onlyUp entries
    (by simp [leaf₁, leaf₂]) (fun some => absurd rfl some)
  have same : s'.nodes = ((V.set c₁ L []).set c₂ R []).set P (X ++ z :: Y) (A ++ c₁ :: c₂ :: B) := by
    have both : ∀ p, (s'.node p).items = (((V.set c₁ L []).set c₂ R []).set P (X ++ z :: Y)
      (A ++ c₁ :: c₂ :: B)).items p ∧
        (s'.node p).kids = (((V.set c₁ L []).set c₂ R []).set P (X ++ z :: Y) (A ++ c₁ :: c₂ :: B)).kids p := by
      intro p
      by_cases isP : p = P
      · subst isP
        simp [hasP.items, hasP.kids]
      by_cases is₂ : p = c₂
      · subst is₂
        simp [has₂.items, has₂.kids, isP]
      by_cases is₁ : p = c₁
      · subst is₁
        simp [has₁.items, has₁.kids, isP, is₂]
      · obtain ⟨node, sameItems, sameKids⟩ := others p isP is₁ is₂
        simp [node, sameItems, sameKids, isP, is₁, is₂]
    exact nodes_ext (fun p => (both p).1) fun p => (both p).2
  have sameKids : ∀ p l, g p = some l → s'.nodes.kids p = V.kids p := by
    intro p l labelp
    rw [same]
    by_cases isP : p = P
    · simp [isP, kids]
    rw [Nodes.set_kids, if_neg isP]
    by_cases is₂ : p = c₂
    · simp [is₂, leaf₂]
    by_cases is₁ : p = c₁
    · simp [is₁, leaf₁]
    · simp [is₁, is₂]
  rw [← same] at labelled held
  have old : ∀ {p l}, halves g c₁ c₂ 0 (lastKey lo X) z.1 (firstKey hi Y) p = some l → ∃ l, g p = some l := by
    intro p l labelp
    rcases halves_eq_some labelp with rfl | ⟨-, rfl⟩ | ⟨-, -, labelp⟩
    · exact ⟨_, label₁⟩
    · exact ⟨_, label₂⟩
    · exact ⟨l, labelp⟩
  refine ⟨⟨labelled, fun {p l} labelp => ?_, fun {p l} labelp => ?_, fun {p h' lo' hi'} labelp => ?_,
    fun {q l c} labelq isKid => ?_, ?_⟩, held⟩
  · obtain ⟨l', labelp⟩ := old labelp
    rw [top]
    exact emptying.inFile labelp
  · by_cases isP : p = P
    · subst isP
      exact hasP.counts sizeP
    by_cases is₂ : p = c₂
    · subst is₂
      exact has₂.counts size₂
    by_cases is₁ : p = c₁
    · subst is₁
      exact has₁.counts size₁
    · obtain ⟨l', labelp⟩ := old labelp
      rw [(others p isP is₁ is₂).1]
      exact emptying.counts labelp
  · rw [same]
    by_cases isP : p = P
    · simp [isP]
    rw [Nodes.set_items, if_neg isP]
    by_cases is₂ : p = c₂
    · simp [is₂, some₂]
    rw [Nodes.set_items, if_neg is₂]
    by_cases is₁ : p = c₁
    · simp [is₁, some₁]
    · have notE : p ≠ e := by rcases isE with rfl | rfl <;> assumption
      simp only [halves, is₁, is₂, if_false] at labelp
      simpa [is₁] using emptying.filled labelp notE
  · obtain ⟨l', labelq⟩ := old labelq
    rw [sameKids q l' labelq] at isKid
    rw [stay]
    exact emptying.parents labelq isKid
  · rw [stay]
    exact emptying.rootParent

end Two

/-- A root without entries gives way to its only child. -/
theorem Emptying.collapse {c : Nat} (emptying : Emptying s s.nodes g root (height + 1) root)
    (items : s.nodes.items root = []) (kids : s.nodes.kids root = [c]) :
    Indexed (put s c ((s.node c).setParent 0)) (put s c ((s.node c).setParent 0)).nodes
      (fun p => if p = root then none else g p)
        c height ∧
      ∀ x, Held (put s c ((s.node c).setParent 0)).nodes (fun p => if p = root then none else g p) x ↔
      Held s.nodes g x := by
  have same : (put s c ((s.node c).setParent 0)).nodes = s.nodes := by
    refine nodes_ext (fun p => ?_) (fun p => ?_) <;>
      by_cases isC : p = c <;> simp [nodes_items, nodes_kids, isC, ItemSet.items, ItemSet.kids]
  obtain ⟨labelled, held⟩ := emptying.labelled.collapse items kids
  have labels : ∀ {p l}, (if p = root then none else g p) = some l → p ≠ root ∧ g p = some l := by
    intro p l labelp
    split_ifs at labelp with isRoot
    exact ⟨isRoot, labelp⟩
  have isKid : c ∈ s.nodes.kids root := by simp [kids]
  rw [same]
  refine ⟨⟨labelled, fun {p l} labelp => emptying.inFile (labels labelp).2, fun {p l} labelp => ?_,
    fun {p h lo hi} labelp => ?_, fun {q l d} labelq isKidD => ?_, by simp⟩, held⟩
  · have counts := emptying.counts (labels labelp).2
    by_cases isC : p = c
    · subst isC
      simpa using counts
    · simpa [isC] using counts
  · obtain ⟨isRoot, labelp⟩ := labels labelp
    exact Or.inl ((emptying.filled labelp isRoot).resolve_right fun both => isRoot both.1)
  · obtain ⟨isRoot, labelq⟩ := labels labelq
    have notC : d ≠ c := by
      rintro rfl
      exact isRoot ((emptying.parents labelq isKidD).symm.trans (emptying.parents emptying.labelled.top isKid))
    simpa [notC] using emptying.parents labelq isKidD

/-- A labelled node holds what its label speaks of. -/
theorem Emptying.has (emptying : Emptying s V g root height e) {p : Nat} {l : Label Key}
    (label : g p = some l) :
    (s.node p).Has (s.nodes.items p) (s.nodes.kids p) :=
  ⟨rfl, rfl, by rw [(emptying.counts label).1, nodes_items, ItemSet.length_items]⟩

theorem Emptying.items_le (emptying : Emptying s V g root height e) {p : Nat} {l : Label Key}
    (label : g p = some l) :
    (s.nodes.items p).length ≤ 3 := by
  rw [nodes_items, ItemSet.length_items]
  exact (emptying.counts label).2

theorem Emptying.parent_eq_zero (emptying : Emptying s V g root height e) {p : Nat} {l : Label Key}
    (label : g p = some l) :
    (s.node p).parent = 0 ↔ p = root := by
  constructor
  · intro none
    by_contra notRoot
    obtain ⟨u, l', labelU, isKid⟩ := (emptying.labelled.up label).resolve_left notRoot
    have parent := emptying.parents labelU isKid
    have := (emptying.inFile labelU).1
    omega
  · rintro rfl
    exact emptying.rootParent

end Emptying

section Leaf
variable {s : IndexFile} {g : Nat → Option (Label Key)} {root height L P n : Nat} {lo : WithBot Key}
    {hi : WithTop Key} {X Y : List (Key × Nat)} {w : Key × Nat} {A B : List Nat}
    (emptying : Emptying s (s.nodes.set L [] []) g root height L) (leaf : s.nodes.kids L = [])
    (label : g P = some (1, lo, hi)) (items : s.nodes.items P = X ++ w :: Y) (place : A.length = X.length)
include emptying leaf label items place

/-- The neighbour to the left hands an entry to a leaf. -/
theorem Emptying.lend_left (kids : s.nodes.kids P = A ++ n :: L :: B) (spare : 2 ≤ (s.node n).keyCount) :
    ∃ s' g', (oNode.underflow P L).run s = .ok (none, s') ∧ Indexed s' s'.nodes g' root height ∧
      ∀ x, Held s'.nodes g' x ↔ Held (s.nodes.set L [] []) g x := by
  have PL : P ≠ L := by
    rintro rfl
    simp [kids] at leaf
  have kidsV : (s.nodes.set L [] []).kids P = A ++ n :: L :: B := by simp [PL, kids]
  have itemsV : (s.nodes.set L [] []).items P = X ++ w :: Y := by simp [PL, items]
  obtain ⟨⟨a, b, labelN⟩, -, Pn, -, nL, -, first⟩ := emptying.labelled.neighbours label kidsV
  have fits : (A ++ n :: L :: B).length = (X ++ w :: Y).length + 1 := by
    have inner := (emptying.labelled.inner label).length
    rwa [kidsV, itemsV] at inner
  have hasP := emptying.has label
  have sizeP := emptying.items_le label
  have hasN := emptying.has labelN
  have sizeN := emptying.items_le labelN
  have leafN : s.nodes.kids n = [] := by simpa [nL] using emptying.labelled.leaf labelN
  have some : 2 ≤ (s.nodes.items n).length := by rwa [nodes_items, ItemSet.length_items]
  obtain ⟨l, z, itemsN⟩ := (s.nodes.items n).eq_nil_or_concat.resolve_left fun none => by simp [none] at some
  rw [List.concat_eq_append] at itemsN
  rw [items, kids] at hasP
  rw [items] at sizeP
  rw [itemsN, leafN] at hasN
  rw [itemsN] at sizeN some
  have spareL : l ≠ [] := by
    rintro rfl
    simp at some
  obtain ⟨s', run, nodeL, nodeP, nodeN, same⟩ := underflow_left_run hasP place sizeP fits
    (by simpa [nL.symm] using first) PL Pn hasN sizeN spareL
  have hasL' : (s'.node L).Has [w] [] := by
    rw [nodeL]
    exact Has.single leaf w
  have hasP' : (s'.node P).Has (X ++ z :: Y) (A ++ n :: L :: B) := by
    rw [nodeP]
    exact hasP.replace sizeP z
  have hasN' : (s'.node n).Has l [] := by
    rw [nodeN]
    simpa using hasN.erase (Y := []) sizeN
  have stay : ∀ p, (s'.node p).parent = (s.node p).parent := by
    intro p
    refine same.parent fun member => ?_
    simp only [List.mem_cons, List.not_mem_nil, or_false] at member
    rcases member with rfl | rfl | rfl
    · simp [nodeP]
    · simp [nodeL]
    · rw [nodeN, ItemSet.moveDeleteDataOptr_parent, ItemSet.moveDeleteKey_parent]
  have entries : (s.nodes.set L [] []).items n ++ w :: (s.nodes.set L [] []).items L = l ++ z :: [w] := by
    simp [nL, itemsN]
  simp only [List.length_append, List.length_cons, List.length_nil] at sizeP sizeN
  obtain ⟨indexed, held⟩ := emptying.rotate (Or.inr rfl) label itemsV kidsV place same.2.1 rfl entries
    hasN' spareL (by omega) hasL' (by simp) (by simp) hasP' (by simp; omega)
    (fun p isP isN isL => ⟨same.1 p (by simp [isP, isN, isL]), by simp [isL, nodes_items],
      by simp [isL, nodes_kids]⟩) stay
  exact ⟨s', _, run, indexed, held⟩

/-- The neighbour to the right hands an entry to a leaf. -/
theorem Emptying.lend_right (kids : s.nodes.kids P = A ++ L :: n :: B) (few : s.keysOf A.getLast? < 2)
    (spare : 2 ≤ (s.node n).keyCount) :
    ∃ s' g', (oNode.underflow P L).run s = .ok (none, s') ∧ Indexed s' s'.nodes g' root height ∧
      ∀ x, Held s'.nodes g' x ↔ Held (s.nodes.set L [] []) g x := by
  have PL : P ≠ L := by
    rintro rfl
    simp [kids] at leaf
  have kidsV : (s.nodes.set L [] []).kids P = A ++ L :: n :: B := by simp [PL, kids]
  have itemsV : (s.nodes.set L [] []).items P = X ++ w :: Y := by simp [PL, items]
  obtain ⟨-, ⟨a, b, labelN⟩, -, Pn, Ln, first, -⟩ := emptying.labelled.neighbours label kidsV
  have fits : (A ++ L :: n :: B).length = (X ++ w :: Y).length + 1 := by
    have inner := (emptying.labelled.inner label).length
    rwa [kidsV, itemsV] at inner
  have hasP := emptying.has label
  have sizeP := emptying.items_le label
  have hasN := emptying.has labelN
  have sizeN := emptying.items_le labelN
  have leafN : s.nodes.kids n = [] := by simpa [Ln.symm] using emptying.labelled.leaf labelN
  have some : 2 ≤ (s.nodes.items n).length := by rwa [nodes_items, ItemSet.length_items]
  obtain ⟨z, l, itemsN⟩ := List.exists_cons_of_length_pos (show 0 < (s.nodes.items n).length by omega)
  rw [items, kids] at hasP
  rw [items] at sizeP
  rw [itemsN, leafN] at hasN
  rw [itemsN] at sizeN some
  have spareL : l ≠ [] := by
    rintro rfl
    simp at some
  obtain ⟨s', run, nodeL, nodeP, nodeN, same⟩ :=
    underflow_right_run hasP place sizeP fits first PL Pn Ln.symm few hasN sizeN spareL
  have hasL' : (s'.node L).Has [w] [] := by
    rw [nodeL]
    exact Has.single leaf w
  have hasP' : (s'.node P).Has (X ++ z :: Y) (A ++ L :: n :: B) := by
    rw [nodeP]
    exact hasP.replace sizeP z
  have hasN' : (s'.node n).Has l [] := by
    rw [nodeN]
    exact Has.erase (X := []) hasN sizeN
  have stay : ∀ p, (s'.node p).parent = (s.node p).parent := by
    intro p
    refine same.parent fun member => ?_
    simp only [List.mem_cons, List.not_mem_nil, or_false] at member
    rcases member with rfl | rfl | rfl
    · simp [nodeP]
    · simp [nodeL]
    · rw [nodeN, ItemSet.moveDeleteDataOptr_parent, ItemSet.moveDeleteKey_parent]
  have entries : (s.nodes.set L [] []).items L ++ w :: (s.nodes.set L [] []).items n = [w] ++ z :: l := by
    simp [Ln.symm, itemsN]
  simp only [List.length_append, List.length_cons] at sizeP sizeN
  obtain ⟨indexed, held⟩ := emptying.rotate (Or.inl rfl) label itemsV kidsV place same.2.1 rfl entries
    hasL' (by simp) (by simp) hasN' spareL (by omega) hasP' (by simp; omega)
    (fun p isP isL isN => ⟨same.1 p (by simp [isP, isN, isL]), by simp [isL, nodes_items],
      by simp [isL, nodes_kids]⟩) stay
  exact ⟨s', _, run, indexed, held⟩

omit items place in
/-- A leaf below a node with one key is joined to the other leaf there. -/
theorem Emptying.merge_leaves (one : s.nodes.items P = [w])
    (few : ∀ c ∈ s.nodes.kids P, (s.node c).keyCount ≤ 1) (isKid : L ∈ s.nodes.kids P) :
    ∃ s' g' c, (oNode.underflow P L).run s = (oNode.mergeUp P).run s' ∧ Emptying s' s'.nodes g' root height P ∧
      s'.nodes.items P = [] ∧ s'.nodes.kids P = [c] ∧ (s'.node P).parent = (s.node P).parent ∧
      (∀ p, p ∉ s.nodes.kids P → g' p = g p ∧ (p ≠ P → s'.node p = s.node p)) ∧
      ∀ x, Held s'.nodes g' x ↔ Held (s.nodes.set L [] []) g x := by
  have PL : P ≠ L := by
    rintro rfl
    simp [leaf] at isKid
  have itemsV : (s.nodes.set L [] []).items P = [] ++ w :: [] := by simp [PL, one]
  have pair : ∃ a b, s.nodes.kids P = [a, b] := by
    have inner := (emptying.labelled.inner label).length
    rw [itemsV, Nodes.set_kids, if_neg PL] at inner
    exact List.length_eq_two.mp inner
  obtain ⟨a, b, kids⟩ := pair
  have kidsV : (s.nodes.set L [] []).kids P = [] ++ a :: b :: [] := by simp [PL, kids]
  obtain ⟨⟨a₁, b₁, labelA⟩, ⟨a₂, b₂, labelB⟩, Pa, Pb, ab, -, -⟩ := emptying.labelled.neighbours label kidsV
  have hasP := emptying.has label
  rw [one, kids] at hasP
  -- the other leaf has one entry
  have other : ∀ {n l}, g n = some l → n ∈ s.nodes.kids P → n ≠ L → s.nodes.kids n = [] ∧
    ∃ x, s.nodes.items n = [x] := by
    intro n l labelN isKidN notL
    have isKidV : n ∈ (s.nodes.set L [] []).kids P := by simpa [PL] using isKidN
    obtain ⟨_, a', b', level, labelN'⟩ := emptying.labelled.kid label isKidV
    obtain rfl := Nat.succ.inj level
    have leafN := emptying.labelled.leaf labelN'
    have notRoot : n ≠ root := by
      rintro rfl
      exact emptying.labelled.root_not_kid label isKidV
    have filled := (emptying.filled labelN' notL).resolve_right fun both => notRoot both.1
    have small := few n isKidN
    simp only [Nodes.set_items, Nodes.set_kids, notL, if_false] at leafN filled
    rw [← ItemSet.length_items, ← nodes_items] at small
    have := List.length_pos_iff.mpr filled
    exact ⟨leafN, List.length_eq_one_iff.mp (by omega)⟩
  have finish : ∀ {s' n}, n = a ∨ n = b →
      (s'.node n).Has ((s.nodes.set L [] []).items a ++ w :: (s.nodes.set L [] []).items b)
        ((s.nodes.set L [] []).kids a ++ (s.nodes.set L [] []).kids b) →
      ((s.nodes.set L [] []).items a ++ w :: (s.nodes.set L [] []).items b).length ≤ 3 →
        (s'.node P).Has [] [n] → SameBut s s' [P, n] →
      (∀ p, (s'.node p).parent = (s.node p).parent) → (oNode.underflow P L).run s = (oNode.mergeUp P).run s' →
      ∃ s' g' c, (oNode.underflow P L).run s = (oNode.mergeUp P).run s' ∧
        Emptying s' s'.nodes g' root height P ∧ s'.nodes.items P = [] ∧ s'.nodes.kids P = [c] ∧
        (s'.node P).parent = (s.node P).parent ∧
        (∀ p, p ∉ s.nodes.kids P → g' p = g p ∧ (p ≠ P → s'.node p = s.node p)) ∧
        ∀ x, Held s'.nodes g' x ↔ Held (s.nodes.set L [] []) g x := by
    intro s' n kept hasN sizeN hasP' same stay run
    have noKids : (s.nodes.set L [] []).kids a ++ (s.nodes.set L [] []).kids b = [] := by
      rw [emptying.labelled.leaf labelA, emptying.labelled.leaf labelB]
      rfl
    have isL : L = a ∨ L = b := by simpa [kids] using isKid
    obtain ⟨emptying', held⟩ := emptying.join isL label itemsV kidsV rfl same.2.1 kept hasN sizeN
      hasP' (by simp) (fun p isP notA notB => by
        have isN : p ≠ n := by rcases kept with rfl | rfl <;> assumption
        have notL : p ≠ L := by rcases isL with rfl | rfl <;> assumption
        exact ⟨⟨(s.node p).parent, same.1 p (by simp [isP, isN])⟩,
          by simp [notL, nodes_items], by simp [notL, nodes_kids]⟩)
      (fun c member => by
        rw [noKids] at member
        simp at member) fun c _ => stay c
    refine ⟨s', _, n, run, emptying', hasP'.items, hasP'.kids, stay P, fun p outside => ?_, held⟩
    obtain ⟨notA, notB⟩ : p ≠ a ∧ p ≠ b := by simpa [kids] using outside
    have notN : p ≠ n := by rcases kept with rfl | rfl <;> assumption
    exact ⟨by simp [joined, notA, notB, notN], fun notP => same.1 p (by simp [notP, notN])⟩
  rcases (show L = b ∨ L = a by simpa [kids, or_comm] using isKid) with rfl | rfl
  · obtain ⟨leafA, x, itemsA⟩ := other labelA (by simp [kids]) ab
    have hasA := emptying.has labelA
    rw [itemsA, leafA] at hasA
    have small : (s.node a).keyCount < 2 := by simp [hasA.keyCount]
    have toMerge := underflow_merge_run (A := [a]) (B := []) hasP (by simp) (by simpa using ab.symm)
      (by simpa using small) (by simp)
    obtain ⟨s', run, nodeA, nodeP, same⟩ := merge_left_run hasP hasA Pa
    have hasA' := hasA.insertAt (X := [x]) (Y := []) w
    have hasP' : (s'.node P).Has [] [a] := by
      rw [nodeP]
      exact Has.erase_child (A := [a]) (B := []) (Has.erase (X := []) (Y := []) hasP (by simp)) (by simp)
    refine finish (Or.inl rfl) ?_ (by simp [ab, itemsA]) hasP' same
      (fun p => same.parent fun member => ?_) (toMerge.trans run)
    · rw [nodeA]
      simpa [ab, itemsA, leafA] using hasA'
    · simp only [List.mem_cons, List.not_mem_nil, or_false] at member
      rcases member with rfl | rfl
      · rw [nodeP, ItemSet.moveDeleteChildOptr_parent, ItemSet.remove,
          ItemSet.moveDeleteDataOptr_parent, ItemSet.moveDeleteKey_parent]
      · rw [nodeA]
        rfl
  · obtain ⟨leafB, x, itemsB⟩ := other labelB (by simp [kids]) ab.symm
    have hasB := emptying.has labelB
    rw [itemsB, leafB] at hasB
    have small : (s.node b).keyCount < 2 := by simp [hasB.keyCount]
    have toMerge := underflow_merge_run (A := []) (B := [b]) hasP (by simp) (by simp) (by simp)
      (by simpa using small)
    obtain ⟨s', run, nodeB, nodeP, same⟩ := merge_right_run hasP hasB Pb
    have hasB' := hasB.insertAt (X := []) (Y := [x]) w
    have hasP' : (s'.node P).Has [] [b] := by
      rw [nodeP]
      exact Has.erase_child (A := []) (B := [b]) (Has.erase (X := []) (Y := []) hasP (by simp)) (by simp)
    refine finish (Or.inr rfl) ?_ (by simp [ab.symm, itemsB]) hasP' same
      (fun p => same.parent fun member => ?_) (toMerge.trans run)
    · rw [nodeB]
      simpa [ab.symm, itemsB, leafB] using hasB'
    · simp only [List.mem_cons, List.not_mem_nil, or_false] at member
      rcases member with rfl | rfl
      · rw [nodeP, ItemSet.moveDeleteChildOptr_parent, ItemSet.remove,
          ItemSet.moveDeleteDataOptr_parent, ItemSet.moveDeleteKey_parent]
      · rw [nodeB]
        rfl

end Leaf

theorem ItemSet.Has.take_child {it : ItemSet} {x w : Key × Nat} {cs : List Nat} {c : Nat}
    (has : it.Has [x] cs) (two : cs.length = 2) :
    ({ it.insertAt 1 w with
      childSlot := slideUp it.childSlot 2 2 c, childOptrCount := 3 } : ItemSet).Has [x, w] (cs ++ [c]) := by
  obtain ⟨keys, datas, -⟩ := has_iff.mp (has.insertAt (X := [x]) (Y := []) w)
  obtain ⟨-, -, -, childs⟩ := has_iff.mp has
  have taken := run_slideUp (l := cs) (r := []) (n := 2) (by simpa using childs) (by simp [two]) c
  rw [two] at taken
  exact has_iff.mpr ⟨keys, datas, by simp [two], taken⟩

theorem dropRoot_run {s : IndexFile} {P c : Nat} (child : (s.node P).childOptr 0 = some c) :
    (oNode.dropRoot P).run s = .ok (c, put s c ((s.node c).setParent 0)) := by
  simp [dropRoot, child, edit_eq_put]

section Up
variable {s : IndexFile} {g : Nat → Option (Label Key)} {root height P c h : Nat} {lo : WithBot Key}
    {hi : WithTop Key}

/-- The root gives way. -/
theorem Emptying.mergeUp_root (emptying : Emptying s s.nodes g P height P)
    (items : s.nodes.items P = []) (kids : s.nodes.kids P = [c]) :
    ∃ s' g' h', (oNode.mergeUp P).run s = .ok (some c, s') ∧ Indexed s' s'.nodes g' c h' ∧
      ∀ x, Held s'.nodes g' x ↔ Held s.nodes g x := by
  have has := emptying.has emptying.labelled.top
  rw [items, kids] at has
  cases height with
  | zero =>
    have leaf := emptying.labelled.leaf emptying.labelled.top
    simp [kids] at leaf
  | succ height =>
    obtain ⟨indexed, held⟩ := emptying.collapse items kids
    exact ⟨_, _, _, mergeUp_root_run has emptying.rootParent, indexed, held⟩

/-- The neighbour to the left, with one key, takes the only child. -/
theorem Emptying.mergeUp_left {G Q : Nat} {X Y : List (Key × Nat)} {w x : Key × Nat} {A B : List Nat}
    (emptying : Emptying s s.nodes g root height P) (items : s.nodes.items P = []) (kids : s.nodes.kids P = [c])
    (labelG : g G = some (h + 2, lo, hi)) (itemsG : s.nodes.items G = X ++ w :: Y)
    (kidsG : s.nodes.kids G = A ++ Q :: P :: B) (place : A.length = X.length)
    (itemsQ : s.nodes.items Q = [x]) (few : s.keysOf B.head? < 2) (spares : G = root ∨ X ++ Y ≠ []) :
    ∃ r s' g' h', (oNode.mergeUp P).run s = .ok (r, s') ∧ Indexed s' s'.nodes g' (r.getD root) h' ∧
      ∀ x, Held s'.nodes g' x ↔ Held s.nodes g x := by
  obtain ⟨⟨a₁, b₁, labelQ⟩, ⟨a₂, b₂, labelP⟩, GQ, GP, QP, -, first⟩ := emptying.labelled.neighbours labelG kidsG
  have hasG := emptying.has labelG
  have sizeG := emptying.items_le labelG
  have hasP := emptying.has labelP
  have hasQ := emptying.has labelQ
  have fitsG := (emptying.labelled.inner labelG).length
  have fitsQ := (emptying.labelled.inner labelQ).length
  have parent : (s.node P).parent = G := emptying.parents labelG (by simp [kidsG])
  have parentC : (s.node c).parent = P := emptying.parents labelP (by simp [kids])
  obtain ⟨_, a₃, b₃, level, labelC⟩ := emptying.labelled.kid (c := c) labelP (by simp [kids])
  obtain rfl := Nat.succ.inj level
  rw [itemsG, kidsG] at hasG fitsG
  rw [itemsG] at sizeG
  rw [items, kids] at hasP
  rw [itemsQ] at hasQ fitsQ
  have notZero : G ≠ 0 := (emptying.inFile labelG).1.ne'
  have cQ : c ≠ Q := by
    rintro rfl
    simp [labelQ] at labelC
  have cG : c ≠ G := by
    rintro rfl
    simp [labelG] at labelC
  obtain ⟨s', run, nodeQ, nodeG, nodeC, same⟩ :=
    mergeUp_left_run parent notZero hasG place sizeG fitsG (by simpa [QP.symm] using first) hasQ
    (by simpa using fitsQ) hasP few GQ GP cQ cG
  have hasQ' : (s'.node Q).Has [x, w] (s.nodes.kids Q ++ [c]) := by
    rw [nodeQ]
    exact hasQ.take_child (by simpa using fitsQ)
  have hasG' : (s'.node G).Has (X ++ Y) (A ++ Q :: B) := by
    rw [nodeG]
    exact hasG.erase_after place sizeG (by omega)
  have stayG : (s'.node G).parent = (s.node G).parent := by
    rw [nodeG, ItemSet.moveDeleteChildOptr_parent, ItemSet.remove, ItemSet.moveDeleteDataOptr_parent,
      ItemSet.moveDeleteKey_parent]
  have stayQ : (s'.node Q).parent = (s.node Q).parent := by
    rw [nodeQ]
    rfl
  have stay : ∀ d, d ≠ c → (s'.node d).parent = (s.node d).parent := by
    intro d notC
    refine same.parent fun member => ?_
    simp only [List.mem_cons, List.not_mem_nil, or_false] at member
    rcases member with rfl | rfl | rfl
    · exact stayG
    · exact stayQ
    · exact absurd rfl notC
  simp only [List.length_append, List.length_cons] at sizeG
  obtain ⟨emptying', held⟩ := emptying.join (Or.inr rfl) labelG itemsG kidsG place same.2.1 (Or.inl rfl)
    (by simpa [itemsQ, items, kids] using hasQ') (by simp [itemsQ, items]) hasG' (by simp; omega)
    (fun p isG isQ isP => by
      refine ⟨?_, rfl, rfl⟩
      by_cases isC : p = c
      · exact ⟨Q, isC ▸ nodeC⟩
      · exact ⟨(s.node p).parent, same.1 p (by simp [isG, isQ, isC])⟩)
    (fun d member => by
      rw [kids] at member
      by_cases isC : d = c
      · rw [isC, nodeC]
        rfl
      · rw [stay d isC]
        exact emptying.parents labelQ (by simpa [isC] using member))
    (fun d outside => stay d fun isC => outside (by simp [isC, kids]))
  by_cases none : X ++ Y = []
  · obtain rfl := spares.resolve_right (by simpa using none)
    obtain ⟨rfl, rfl⟩ := List.append_eq_nil_iff.mp none
    obtain rfl := List.length_eq_zero_iff.mp place
    obtain rfl : B = [] := by
      simp only [List.length_append, List.length_cons, List.length_nil] at fitsG
      exact List.length_eq_zero_iff.mp (by omega)
    obtain ⟨level, -⟩ := Prod.mk.inj (Option.some.inj (emptying.labelled.top.symm.trans labelG))
    subst level
    obtain ⟨indexed, held'⟩ := emptying'.collapse hasG'.items hasG'.kids
    refine ⟨some Q, _, _, _, ?_, indexed, fun y => (held' y).trans (held y)⟩
    rw [run, if_pos none, StateT.run_map, dropRoot_run (Has.childOptr (A := []) hasG')]
    rfl
  · rw [if_neg none] at run
    refine ⟨Option.none, s', _, height, run, emptying'.settle fun {h' a b} _ => Or.inl ?_, held⟩
    rw [nodes_items, hasG'.items]
    exact none

end Up

namespace IndexFile

@[simp] theorem keysOf_some (s : IndexFile) (p : Nat) : s.keysOf (some p) = (s.node p).keyCount := rfl

/-- The place of a node below its parent, as the unsigned short that is passed on. -/
def index (s : IndexFile) (p : Nat) : Nat := (s.place (s.node p).parent p).getD 65535

/-- A node that a merge below it leaves without keys can be joined to its left neighbour: that
has one key, the right one has none to spare, and the parent is the root or keeps a key. -/
def JoinsLeft (s : IndexFile) (p : Nat) : Prop :=
  let parent := (s.node p).parent
  s.keysOf (s.leftOf parent (s.index p)) = 1 ∧ s.keysOf (s.rightOf parent (s.index p)) ≤ 1 ∧
    ((s.node parent).parent = 0 ∨ 2 ≤ (s.node parent).keyCount)

instance (s : IndexFile) (p : Nat) : Decidable (s.JoinsLeft p) := inferInstanceAs (Decidable (_ ∧ _ ∧ (_ ∨ _)))

/-- The last key of a leaf can be taken: a neighbour lends one, or the parent has one key and
is the root, or can be joined itself. -/
def Refills (s : IndexFile) (leaf : Nat) : Prop :=
  let parent := (s.node leaf).parent
  s.Lends parent (s.index leaf) ∨ (s.node parent).keyCount = 1 ∧
  ((s.node parent).parent = 0 ∨ s.JoinsLeft parent)

instance (s : IndexFile) (leaf : Nat) : Decidable (s.Refills leaf) :=
  inferInstanceAs (Decidable (_ ∨ _ ∧ (_ ∨ _)))

end IndexFile

section Places
variable {s : IndexFile} {P c : Nat} {xs : List (Key × Nat)} {A B : List Nat}
    (has : (s.node P).Has xs (A ++ c :: B))
include has

theorem place_eq (first : c ∉ A) : s.place P c = some A.length := by
  have run := (reads_childIndex P c s).symm.trans (childIndex_run has first)
  simpa using run

theorem leftOf_eq (size : (A ++ c :: B).length ≤ 4) : s.leftOf P A.length = A.getLast? := by
  have run := (reads_leftChild P A.length s).symm.trans (leftChild_run has size)
  simpa using run

theorem rightOf_eq (size : (A ++ c :: B).length ≤ 4) : s.rightOf P A.length = B.head? := has.child_after size

end Places

section Underflow
variable {s : IndexFile} {V : Nodes Nat Key Nat} {g : Nat → Option (Label Key)} {root height e : Nat}

/-- A node other than the root, its parent, and its neighbours there. -/
theorem Emptying.above (emptying : Emptying s V g root height e) {p h : Nat} {lo : WithBot Key}
    {hi : WithTop Key} (label : g p = some (h, lo, hi)) (notRoot : p ≠ root)
    (same : ∀ q l, g q = some l → p ∈ V.kids q → s.nodes.items q = V.items q ∧ s.nodes.kids q = V.kids q) :
    ∃ P lo' hi' X Y A B, (s.node p).parent = P ∧ g P = some (h + 1, lo', hi') ∧ s.nodes.items P = X ++ Y ∧
      s.nodes.kids P = A ++ p :: B ∧ A.length = X.length ∧ B.length = Y.length ∧ s.index p = A.length ∧
      s.leftOf P A.length = A.getLast? ∧ s.rightOf P A.length = B.head? := by
  obtain ⟨P, lo', hi', X, Y, A, B, labelP, items, kids, place, -, -⟩ := emptying.labelled.above label notRoot
  have isKid : p ∈ V.kids P := by simp [kids]
  have parent := emptying.parents labelP isKid
  have fits := (emptying.labelled.inner labelP).length
  have nodup := emptying.labelled.kids_nodup labelP
  have has := emptying.has labelP
  have small := emptying.items_le labelP
  obtain ⟨sameItems, sameKids⟩ := same P _ labelP isKid
  rw [sameItems, sameKids, items, kids] at has
  rw [sameItems, items] at small
  rw [items, kids] at fits
  rw [kids] at nodup
  have first : p ∉ A := fun member => (List.nodup_append.mp nodup).2.2 p member p (by simp) rfl
  simp only [List.length_append, List.length_cons] at fits small
  have size : (A ++ p :: B).length ≤ 4 := by
    simp only [List.length_append, List.length_cons]
    omega
  refine ⟨P, lo', hi', X, Y, A, B, parent, labelP,
    by rw [sameItems, items], by rw [sameKids, kids], place, by omega, ?_, leftOf_eq has size, rightOf_eq has size⟩
  rw [IndexFile.index, parent, place_eq has first]
  rfl

/-- `underflow` at a leaf whose last key can be taken. -/
theorem Emptying.underflow_run {L : Nat} {lo : WithBot Key} {hi : WithTop Key}
    (emptying : Emptying s (s.nodes.set L [] []) g root height L) (leaf : s.nodes.kids L = [])
    (label : g L = some (0, lo, hi)) (notRoot : L ≠ root) (last : (s.node L).keyCount = 1)
    (refills : s.Refills L) :
    ∃ r s' g' h', (oNode.underflow (s.node L).parent L).run s = .ok (r, s') ∧
      Indexed s' s'.nodes g' (r.getD root) h' ∧
      ∀ x, Held s'.nodes g' x ↔ Held (s.nodes.set L [] []) g x := by
  have apart : ∀ {q l c}, g q = some l → c ∈ (s.nodes.set L [] []).kids q → q ≠ L := by
    rintro q l c labelQ isKid rfl
    simp at isKid
  obtain ⟨P, lo', hi', X, Y, A, B, parent, labelP, items, kids, placeA, placeB, index, left, right⟩ :=
    emptying.above label notRoot fun q l labelQ isKid => by simp [apart labelQ isKid]
  simp only [IndexFile.Refills, IndexFile.Lends, parent, index, left, right] at refills
  rw [parent]
  by_cases fromLeft : 2 ≤ s.keysOf A.getLast?
  · rcases nil_or_snoc placeA with ⟨rfl, rfl⟩ | ⟨A, n, X, w, rfl, rfl, aligned⟩
    · simp [IndexFile.keysOf] at fromLeft
    rw [List.getLast?_append, List.getLast?_singleton, Option.some_or] at fromLeft
    rw [List.append_assoc, List.singleton_append] at items kids
    obtain ⟨s', g', run, indexed, held⟩ := emptying.lend_left leaf labelP items aligned kids fromLeft
    exact ⟨none, s', g', height, run, indexed, held⟩
  by_cases fromRight : 2 ≤ s.keysOf B.head?
  · rcases B with _ | ⟨n, B⟩
    · simp [IndexFile.keysOf] at fromRight
    rcases Y with _ | ⟨w, Y⟩
    · simp at placeB
    obtain ⟨s', g', run, indexed, held⟩ := emptying.lend_right leaf labelP items placeA kids
      (by omega) fromRight
    exact ⟨none, s', g', height, run, indexed, held⟩
  obtain ⟨one, upper⟩ := refills.resolve_left (by tauto)
  rw [← ItemSet.length_items, ← nodes_items] at one
  obtain ⟨w, itemsP⟩ := List.length_eq_one_iff.mp one
  have few : ∀ c ∈ s.nodes.kids P, (s.node c).keyCount ≤ 1 := by
    intro c isKid
    have total : X.length + Y.length = 1 := by rw [← List.length_append, ← items, one]
    rw [kids, List.mem_append, List.mem_cons] at isKid
    rcases isKid with inA | rfl | inB
    · obtain ⟨a, rfl⟩ := List.length_eq_one_iff.mp
        (show A.length = 1 by have := List.length_pos_of_mem inA; omega)
      obtain rfl := List.mem_singleton.mp inA
      simpa [IndexFile.keysOf, Nat.lt_succ_iff] using fromLeft
    · exact last.le
    · obtain ⟨b, rfl⟩ := List.length_eq_one_iff.mp
        (show B.length = 1 by have := List.length_pos_of_mem inB; omega)
      obtain rfl := List.mem_singleton.mp inB
      simpa [IndexFile.keysOf, Nat.lt_succ_iff] using fromRight
  obtain ⟨s₁, g₁, c, run, emptying₁, items₁, kids₁, parent₁, same, held⟩ :=
    emptying.merge_leaves leaf labelP itemsP few (by simp [kids])
  have PL : P ≠ L := by
    rintro rfl
    simp [kids] at leaf
  -- the nodes above the leaves are as they were, but for `P`
  have upperSame : ∀ {p h lo hi}, g p = some (h + 1, lo, hi) → p ≠ P → g₁ p = some (h + 1, lo, hi) ∧
    s₁.node p = s.node p := by
    intro p h lo hi labelp notP
    have outside : p ∉ s.nodes.kids P := by
      intro isKid
      obtain ⟨_, a, b, level, labelp'⟩ := emptying.labelled.kid (c := p) labelP (by simpa [PL] using isKid)
      obtain rfl := Nat.succ.inj level
      simp [labelp] at labelp'
    exact ⟨(same p outside).1.trans labelp, (same p outside).2 notP⟩
  rw [run]
  by_cases isRoot : P = root
  · subst isRoot
    obtain ⟨s', g', h', run', indexed, held'⟩ := emptying₁.mergeUp_root items₁ kids₁
    exact ⟨some c, s', g', h', run', indexed, fun x => (held' x).trans (held x)⟩
  obtain ⟨G, lo₂, hi₂, X', Y', A', B', parentP, labelG, itemsG, kidsG, placeA', placeB', indexP,
    leftP, rightP⟩ :=
    emptying.above labelP isRoot fun q l labelQ isKid => by simp [apart labelQ isKid]
  obtain ⟨leftOne, rightFew, spares⟩ := upper.resolve_left (by rwa [emptying.parent_eq_zero labelP])
  rw [parentP, indexP, leftP] at leftOne
  rw [parentP, indexP, rightP] at rightFew
  rw [parentP, emptying.parent_eq_zero labelG] at spares
  rcases nil_or_snoc placeA' with ⟨rfl, rfl⟩ | ⟨A', Q, X', w', rfl, rfl, aligned⟩
  · simp [IndexFile.keysOf] at leftOne
  rw [List.getLast?_append, List.getLast?_singleton, Option.some_or, IndexFile.keysOf_some] at leftOne
  rw [List.append_assoc, List.singleton_append] at itemsG kidsG
  have GP : G ≠ P := by
    rintro rfl
    simp [labelP] at labelG
  have GnotL : G ≠ L := by
    rintro rfl
    simp [label] at labelG
  have kidsV : (s.nodes.set L [] []).kids G = A' ++ Q :: P :: B' := by simp [GnotL, kidsG]
  obtain ⟨⟨a, b, labelQ⟩, -, -, -, QP, -, -⟩ := emptying.labelled.neighbours labelG kidsV
  obtain ⟨labelG₁, nodeG⟩ := upperSame labelG GP
  obtain ⟨labelQ₁, nodeQ⟩ := upperSame labelQ QP
  rw [← nodeQ, ← ItemSet.length_items] at leftOne
  obtain ⟨x, itemsQ⟩ := List.length_eq_one_iff.mp leftOne
  rw [nodes_items, ← nodeG] at itemsG
  rw [nodes_kids, ← nodeG] at kidsG
  have few₁ : s₁.keysOf B'.head? < 2 := by
    cases B' with
    | nil => simp [IndexFile.keysOf]
    | cons R B' =>
      obtain ⟨-, ⟨a', b', labelR⟩, -, -, PR, -, -⟩ :=
        emptying.labelled.neighbours (A := A' ++ [Q]) labelG (by simpa using kidsV)
      rw [List.head?_cons, IndexFile.keysOf_some, (upperSame labelR PR.symm).2]
      exact Nat.lt_succ_of_le rightFew
  have spares₁ : G = root ∨ X' ++ Y' ≠ [] := by
    refine spares.imp id fun two none => ?_
    rw [← nodeG, ← ItemSet.length_items, itemsG] at two
    obtain ⟨rfl, rfl⟩ := List.append_eq_nil_iff.mp none
    simp at two
  obtain ⟨r, s', g', h', run', indexed, held'⟩ :=
    emptying₁.mergeUp_left items₁ kids₁ labelG₁ itemsG kidsG aligned itemsQ few₁ spares₁
  exact ⟨r, s', g', h', run', indexed, fun y => (held' y).trans (held y)⟩

end Underflow

end MiyaCore
