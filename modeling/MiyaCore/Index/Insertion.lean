import MiyaCore.Hoare
import MiyaCore.Index.AddRuns
import MiyaCore.Index.Indexed
import Mathlib.Data.Finset.Prod

/-!
# Insertion

A pair on its way up is an entry of the tree at the node it is about to enter,
together with the new node to its right. A full node splits and hands the
middle entry to its parent, in which nothing but the place of the entry
changes; a node with room takes it.
-/

namespace MiyaCore
open NodeFile ItemSet SearchTree

theorem ItemSet.Has.counts {it : ItemSet} {xs : List (Key × Nat)} {cs : List Nat} (has : it.Has xs cs)
    (small : xs.length ≤ 3) :
    it.dataOptrCount = it.keyCount ∧ it.keyCount ≤ 3 := by
  rw [has.datas, has.keyCount]
  exact ⟨rfl, small⟩

theorem nodes_ext {V W : Nodes Nat Key Nat} (items : ∀ p, V.items p = W.items p)
    (kids : ∀ p, V.kids p = W.kids p) : V = W := by
  cases V
  cases W
  simp only [Nodes.mk.injEq]
  exact ⟨funext items, funext kids⟩

theorem nodes_put {s : IndexFile} {p : Nat} {it : ItemSet} {xs : List (Key × Nat)} {cs : List Nat}
    (has : it.Has xs cs) :
    (put s p it).nodes = s.nodes.set p xs cs := by
  refine nodes_ext (fun q => ?_) (fun q => ?_)
  · by_cases same : q = p <;> simp [nodes_items, same, has.items]
  · by_cases same : q = p <;> simp [nodes_kids, same, has.kids]

theorem Split.nodes {s s' : IndexFile} {p : Nat} {I : List (Key × Nat)} {C : List Nat}
    (split : Split s s' p I C) (old : p ≠ s.top) :
    s'.nodes = (s.nodes.set p (I.take 1) (C.take 2)).set s.top (I.drop 2) (C.drop 2) := by
  refine nodes_ext (fun q => ?_) (fun q => ?_)
  · by_cases isP : q = p
    · subst isP
      simp [nodes_items, old, split.left.items]
    by_cases isNew : q = s.top
    · subst isNew
      simp [nodes_items, split.right.items]
    · simp only [nodes_items, Nodes.set_items, isP, isNew, if_false, split.others q isP isNew]
      split_ifs <;> rfl
  · by_cases isP : q = p
    · subst isP
      simp [nodes_kids, old, split.left.kids]
    by_cases isNew : q = s.top
    · subst isNew
      simp [nodes_kids, split.right.kids]
    · simp only [nodes_kids, Nodes.set_kids, isP, isNew, if_false, split.others q isP isNew]
      split_ifs <;> rfl

theorem Grown.nodes {s s' : IndexFile} {p r : Nat} {x : Key × Nat} (grown : Grown s s' p r x) :
    s'.nodes = s.nodes.set s.top [x] [p, r] := by
  have same : ∀ q, q ≠ s.top → s'.nodes.items q = s.nodes.items q ∧ s'.nodes.kids q = s.nodes.kids q := by
    intro q notTop
    by_cases isP : q = p
    · subst isP
      simp only [nodes_items, nodes_kids, grown.left]
      exact ⟨rfl, rfl⟩
    by_cases isR : q = r
    · subst isR
      simp only [nodes_items, nodes_kids, grown.right]
      exact ⟨rfl, rfl⟩
    · simp only [nodes_items, nodes_kids, grown.others q isP isR notTop, and_self]
  refine nodes_ext (fun q => ?_) (fun q => ?_)
  · by_cases isTop : q = s.top
    · simp [isTop, nodes_items, grown.root.items]
    · simp [isTop, (same q isTop).1]
  · by_cases isTop : q = s.top
    · simp [isTop, nodes_kids, grown.root.kids]
    · simp [isTop, (same q isTop).2]

section Pending
variable {s : IndexFile} {V : Nodes Nat Key Nat} {g : Nat → Option (Label Key)} {root height q h : Nat}
  {lo : WithBot Key} {hi : WithTop Key}

/-- Only the root has no parent. -/
theorem Indexed.parent_eq_zero (indexed : Indexed s V g root height) {l : Label Key} (label : g q = some l) :
    (s.node q).parent = 0 ↔ q = root := by
  constructor
  · intro none
    by_contra notRoot
    obtain ⟨u, l', labelU, isKid⟩ := (indexed.labelled.up label).resolve_left notRoot
    have parent := indexed.parents labelU isKid
    have := (indexed.inFile labelU).1
    omega
  · rintro rfl
    exact indexed.rootParent

theorem Indexed.kid_ne (indexed : Indexed s V g root height) {c : Nat} {l : Label Key} (label : g q = some l)
    (isKid : c ∈ V.kids q) : c ≠ q ∧ c < s.top ∧ (g c).isSome := by
  obtain ⟨h', a, b, above, labelC⟩ := indexed.labelled.kid
    (show g _ = some (l.1, l.2.1, l.2.2) from label) isKid
  refine ⟨?_, (indexed.inFile labelC).2, by simp [labelC]⟩
  rintro rfl
  rw [labelC] at label
  obtain rfl := Option.some.inj label
  simp at above

/-- The node above one that is not the root, and the place of the child in it. -/
theorem Indexed.above (indexed : Indexed s V g root height) (label : g q = some (h, lo, hi))
    (notRoot : q ≠ root) :
    ∃ u lo' hi' X Y A B, (s.node q).parent = u ∧ g u = some (h + 1, lo', hi') ∧ V.items u = X ++ Y ∧
      V.kids u = A ++ q :: B ∧ A.length = X.length ∧ B.length = Y.length := by
  obtain ⟨u, ⟨h', lo', hi'⟩, labelU, isKid⟩ := (indexed.labelled.up label).resolve_left notRoot
  obtain ⟨h'', a, b, rfl, labelQ⟩ := indexed.labelled.kid labelU isKid
  obtain ⟨rfl, -⟩ := Prod.mk.inj (Option.some.inj (label.symm.trans labelQ))
  have size := (indexed.labelled.inner labelU).length
  obtain ⟨A, B, kids⟩ := List.append_of_mem isKid
  rw [kids, List.length_append, List.length_cons] at size
  refine ⟨u, lo', hi', (V.items u).take A.length, (V.items u).drop A.length, A, B,
    indexed.parents labelU isKid, labelU, (List.take_append_drop _ _).symm, kids, ?_, ?_⟩
  · rw [List.length_take]
    omega
  · rw [List.length_drop]
    omega

variable {s' : IndexFile} {I : List (Key × Nat)} {C : List Nat} {m : Key × Nat}

/-- After a split the parent of a node is the new node if the node moved there. -/
theorem Indexed.split_parent (indexed : Indexed s (s.nodes.set q I C) g root height)
    (split : Split s s' q I C) {p : Nat} {l : Label Key} (label : g p = some l) (other : p ≠ q) :
    (s'.node p).parent = (if p ∈ C.drop 2 then s.top else (s.node p).parent) ∧
      (s'.node p).keyCount = (s.node p).keyCount ∧ (s'.node p).dataOptrCount = (s.node p).dataOptrCount := by
  rw [split.others p other (indexed.inFile label).2.ne]
  split_ifs <;> simp

theorem Indexed.fresh (indexed : Indexed s V g root height) {p : Nat} (new : s.top ≤ p) : g p = none := by
  by_contra some
  obtain ⟨l, label⟩ := Option.ne_none_iff_exists'.mp some
  exact absurd (indexed.inFile label).2 new.not_gt

/-- The parents of the children after a split: those of `q` are its halves, the others
are as they were. -/
theorem Indexed.split_kids (indexed : Indexed s (s.nodes.set q I C) g root height) (split : Split s s' q I C)
    (label : g q = some (h, lo, hi)) :
    (∀ c ∈ C.take 2, (s'.node c).parent = q) ∧ (∀ c ∈ C.drop 2, (s'.node c).parent = s.top) ∧
      ∀ p l c, g p = some l → p ≠ q → c ≠ q → c ∈ (s.nodes.set q I C).kids p → (s'.node c).parent = p := by
  have fromQ : ∀ {c}, c ∈ C → (s.node c).parent = q ∧ c ≠ q ∧ ∃ l, g c = some l := by
    intro c member
    have isKid : c ∈ (s.nodes.set q I C).kids q := by simpa using member
    obtain ⟨notQ, -, labelC⟩ := indexed.kid_ne label isKid
    exact ⟨indexed.parents label isKid, notQ, Option.isSome_iff_exists.mp labelC⟩
  have nodup : C.Nodup := by simpa using indexed.labelled.kids_nodup label
  refine ⟨fun c member => ?_, fun c member => ?_, fun p l c labelp isQ notQ isKid => ?_⟩
  · obtain ⟨before, notQ, l', labelC⟩ := fromQ (List.mem_of_mem_take member)
    rw [(indexed.split_parent split labelC notQ).1, if_neg, before]
    rw [← List.take_append_drop 2 C, List.nodup_append] at nodup
    exact fun again => nodup.2.2 c member c again rfl
  · obtain ⟨-, notQ, l', labelC⟩ := fromQ (List.mem_of_mem_drop member)
    rw [(indexed.split_parent split labelC notQ).1, if_pos member]
  · obtain ⟨l', labelC⟩ := Option.isSome_iff_exists.mp (indexed.kid_ne labelp isKid).2.2
    have before := indexed.parents labelp isKid
    rw [(indexed.split_parent split labelC notQ).1, if_neg, before]
    exact fun member => isQ (before.symm.trans (fromQ (List.mem_of_mem_drop member)).1)

/-- A node that takes in what waits at it. -/
theorem Indexed.absorb (indexed : Indexed s (s.nodes.set q I C) g root height) {it : ItemSet} (has : it.Has I C)
    (parent : it.parent = (s.node q).parent) (small : I.length ≤ 3) :
    Indexed (put s q it) (put s q it).nodes g root height := by
  have sameParent : ∀ p, ((put s q it).node p).parent = (s.node p).parent := by
    intro p
    by_cases isQ : p = q <;> simp [isQ, parent]
  rw [nodes_put has]
  refine ⟨indexed.labelled, indexed.inFile, fun {p l} label => ?_, indexed.filled, fun label isKid => ?_, ?_⟩
  · by_cases isQ : p = q
    · simpa [isQ] using has.counts small
    · simpa [isQ] using indexed.counts label
  · rw [sameParent]
    exact indexed.parents label isKid
  · rw [sameParent]
    exact indexed.rootParent

/-- A split below another node: the middle entry waits there, with the new node to its right. -/
theorem Indexed.split_up {u : Nat} {lo' : WithBot Key} {hi' : WithTop Key} {X Y : List (Key × Nat)}
    {A B : List Nat} (indexed : Indexed s (s.nodes.set q I C) g root height)
    (label : g q = some (h, lo, hi)) (notRoot : q ≠ root) (cut : I = I.take 1 ++ m :: I.drop 2)
    (size : I.length = 4) (fits : h ≠ 0 → C.length = 5) (split : Split s s' q I C)
    (parent : (s.node q).parent = u) (labelU : g u = some (h + 1, lo', hi'))
    (itemsU : (s.nodes.set q I C).items u = X ++ Y) (kidsU : (s.nodes.set q I C).kids u = A ++ q :: B)
    (fitsU : A.length = X.length) :
    Indexed s' (s'.nodes.set u (X ++ m :: Y) (A ++ q :: s.top :: B))
      (halves g q s.top h lo m.1 hi) root height ∧
      ∀ x, Held (s'.nodes.set u (X ++ m :: Y) (A ++ q :: s.top :: B)) (halves g q s.top h lo m.1 hi) x ↔
        Held (s.nodes.set q I C) g x := by
  have old := (indexed.inFile label).2.ne
  have fresh : g s.top = none := indexed.fresh le_rfl
  have notU : u ≠ q := by
    rintro rfl
    simp [label] at labelU
  have notTop : u ≠ s.top := (indexed.inFile labelU).2.ne
  have onlyUp : ∀ p l, g p = some l → q ∈ (s.nodes.set q I C).kids p → p = u := fun p l labelp isKid =>
    (indexed.parents labelp isKid).symm.trans parent
  have sameNodes : ((s.nodes.set q I C).set q (I.take 1) (C.take 2)).set s.top (I.drop 2)
    (C.drop 2) = s'.nodes := by
    rw [Nodes.set_set, split.nodes old]
  have labelled := indexed.labelled.split (L := I.take 1) (R := I.drop 2) (C := C.take 2)
    (D := C.drop 2) label fresh (by simpa using cut) (by simp)
    (by intro inner; simp [fits inner, size]) labelU itemsU kidsU fitsU onlyUp
  have held := held_cut (V := s.nodes.set q I C) (g := g) (f := halves g q s.top h lo m.1 hi) (q := q)
    (n := s.top) (P := u) (L := I.take 1) (R := I.drop 2) (C := C.take 2) (D := C.drop 2) (m := m)
    (X := X) (Y := Y) (E := A ++ q :: s.top :: B) (by simp [label]) fresh notU notTop old (by simpa using cut)
    (Or.inl ⟨by simp [labelU], itemsU⟩) (by simp [halves]) (by simp [halves, old.symm])
    (by simp [halves, notU, notTop, labelU]) (fun p isQ isN _ => by simp [halves, isQ, isN])
  rw [sameNodes] at labelled held
  obtain ⟨kidsLeft, kidsRight, stays⟩ := indexed.split_kids split label
  -- what the split changed in the nodes that were there
  have moved : ∀ {p l}, g p = some l → p ≠ q → _ := fun label other => indexed.split_parent split label other
  refine ⟨⟨labelled, fun {p l} labelp => ?_, fun {p l} labelp => ?_, fun {p h₁ lo₁ hi₁} labelp => ?_,
    fun {p l c} labelp isKid => ?_, ?_⟩, held⟩
  · rw [split.top]
    have := indexed.inFile label
    rcases halves_eq_some labelp with rfl | ⟨-, rfl⟩ | ⟨-, -, labelp⟩
    · omega
    · omega
    · have := indexed.inFile labelp
      omega
  · rcases halves_eq_some labelp with rfl | ⟨-, rfl⟩ | ⟨isQ, -, labelp⟩
    · exact split.left.counts (by simp [size])
    · exact split.right.counts (by simp [size])
    · rw [(moved labelp isQ).2.1, (moved labelp isQ).2.2]
      exact indexed.counts labelp
  · by_cases isU : p = u
    · simp [isU]
    rw [Nodes.set_items, if_neg isU, ← sameNodes]
    rcases halves_eq_some labelp with rfl | ⟨isQ, rfl⟩ | ⟨isQ, isN, labelp⟩
    · left
      rw [Nodes.set_items, if_neg old, Nodes.set_items, if_pos rfl]
      exact List.ne_nil_of_length_pos (by simp; omega)
    · left
      rw [Nodes.set_items, if_pos rfl]
      exact List.ne_nil_of_length_pos (by simp; omega)
    · have := indexed.filled labelp
      simpa [isQ, isN] using this
  · by_cases isU : p = u
    · subst isU
      simp only [Nodes.set_kids, if_true, List.mem_append, List.mem_cons] at isKid
      have cases : c = q ∨ c = s.top ∨ c ∈ (s.nodes.set q I C).kids p := by
        rw [kidsU, List.mem_append, List.mem_cons]
        tauto
      by_cases isQ : c = q
      · rw [isQ, split.leftParent, parent]
      rcases cases with isQ' | rfl | isKid
      · exact absurd isQ' isQ
      · rw [split.rightParent, parent]
      · exact stays p _ c labelU notU isQ isKid
    rw [Nodes.set_kids, if_neg isU, ← sameNodes] at isKid
    rcases halves_eq_some labelp with rfl | ⟨isQ, rfl⟩ | ⟨isQ, isN, labelp⟩
    · exact kidsLeft c (by simpa [old] using isKid)
    · exact kidsRight c (by simpa using isKid)
    · have isKid : c ∈ (s.nodes.set q I C).kids p := by simpa [isQ, isN] using isKid
      exact stays p l c labelp isQ (fun isQ' => isU (onlyUp p l labelp (isQ' ▸ isKid))) isKid
  · rw [(moved indexed.labelled.top notRoot.symm).1, if_neg, indexed.rootParent]
    intro member
    exact indexed.labelled.root_not_kid label (by simpa using List.mem_of_mem_drop member)

theorem Indexed.split_root {s'' : IndexFile} (indexed : Indexed s (s.nodes.set q I C) g q height)
    (cut : I = I.take 1 ++ m :: I.drop 2) (size : I.length = 4) (fits : height ≠ 0 → C.length = 5)
    (split : Split s s' q I C) (grow : Grown s' s'' q s.top m) :
    Indexed s'' s''.nodes (grown g q s.top s'.top height m.1) s'.top (height + 1) ∧
      ∀ x, Held s''.nodes (grown g q s.top s'.top height m.1) x ↔ Held (s.nodes.set q I C) g x := by
  have label := indexed.labelled.top
  have old := (indexed.inFile label).2.ne
  have new : s.top ≠ s'.top := by rw [split.top]; omega
  have newer : ∀ {p l}, g p = some l → p ≠ s'.top := by
    intro p l labelp
    have := (indexed.inFile labelp).2
    rw [split.top]
    omega
  have fresh : g s.top = none := indexed.fresh le_rfl
  have freshR : g s'.top = none := indexed.fresh (by rw [split.top]; omega)
  have sameNodes : (((s.nodes.set q I C).set q (I.take 1) (C.take 2)).set s.top (I.drop 2)
    (C.drop 2)).set s'.top [m] [q, s.top] =
      s''.nodes := by
    rw [Nodes.set_set, grow.nodes, split.nodes old]
  have labelled := indexed.labelled.grow (L := I.take 1) (R := I.drop 2) (m := m) (C := C.take 2)
    (D := C.drop 2) fresh freshR new (by simpa using cut) (by simp) (by intro inner; simp [fits inner, size])
  have held := held_cut (V := s.nodes.set q I C) (g := g) (f := grown g q s.top s'.top height m.1)
    (q := q) (n := s.top) (P := s'.top) (L := I.take 1) (R := I.drop 2) (C := C.take 2) (D := C.drop 2)
    (m := m) (X := []) (Y := []) (E := [q, s.top]) (by simp [label]) fresh
    (newer label).symm new.symm old (by simpa using cut) (Or.inr ⟨freshR, rfl, rfl⟩)
    (by simp [grown, halves, newer label]) (by simp [grown, halves, old.symm, new]) (by simp [grown])
    (fun p isQ isN isR => by simp [grown, halves, isQ, isN, isR])
  rw [List.nil_append, sameNodes] at held
  rw [sameNodes] at labelled
  obtain ⟨kidsLeft, kidsRight, stays⟩ := indexed.split_kids split label
  have labels : ∀ {p l}, grown g q s.top s'.top height m.1 p = some l →
      p = s'.top ∨ p ≠ s'.top ∧ (p = q ∨ p ≠ q ∧ p = s.top ∨ p ≠ q ∧ p ≠ s.top ∧ g p = some l) := by
    intro p l labelp
    by_cases isR : p = s'.top
    · exact Or.inl isR
    · rw [grown, if_neg isR] at labelp
      exact Or.inr ⟨isR, halves_eq_some labelp⟩
  -- the new root changes nothing below the two halves
  have below : ∀ {c}, (g c).isSome → c ≠ q → s''.node c = s'.node c := by
    intro c some notQ
    obtain ⟨l, labelC⟩ := Option.isSome_iff_exists.mp some
    exact grow.others c notQ (indexed.inFile labelC).2.ne (newer labelC)
  refine ⟨⟨labelled, fun {p l} labelp => ?_, fun {p l} labelp => ?_, fun {p h₁ lo₁ hi₁} labelp => ?_,
    fun {p l c} labelp isKid => ?_, grow.rootParent⟩, held⟩
  · rw [grow.top, split.top]
    have := indexed.inFile label
    rcases labels labelp with rfl | ⟨-, rfl | ⟨-, rfl⟩ | ⟨-, -, labelp⟩⟩
    · rw [split.top]
      omega
    · omega
    · omega
    · have := indexed.inFile labelp
      omega
  · rcases labels labelp with rfl | ⟨-, rfl | ⟨-, rfl⟩ | ⟨isQ, -, labelp⟩⟩
    · exact grow.root.counts (by simp)
    · rw [grow.left]
      exact split.left.counts (by simp [size])
    · rw [grow.right]
      exact split.right.counts (by simp [size])
    · rw [below (by simp [labelp]) isQ, (indexed.split_parent split labelp isQ).2.1,
        (indexed.split_parent split labelp isQ).2.2]
      exact indexed.counts labelp
  · rw [← sameNodes]
    rcases labels labelp with rfl | ⟨isR, rfl | ⟨isQ, rfl⟩ | ⟨isQ, isN, labelp⟩⟩
    · simp
    · left
      rw [Nodes.set_items, if_neg isR, Nodes.set_items, if_neg old, Nodes.set_items, if_pos rfl]
      exact List.ne_nil_of_length_pos (by simp; omega)
    · left
      rw [Nodes.set_items, if_neg isR, Nodes.set_items, if_pos rfl]
      exact List.ne_nil_of_length_pos (by simp; omega)
    · have := indexed.filled labelp
      simpa [isR, isQ, isN] using this
  · rw [← sameNodes] at isKid
    rcases labels labelp with rfl | ⟨isR, rfl | ⟨isQ, rfl⟩ | ⟨isQ, isN, labelp⟩⟩
    · have isKid : c = q ∨ c = s.top := by simpa using isKid
      rcases isKid with rfl | rfl
      · simp [grow.left]
      · simp [grow.right]
    · have member : c ∈ C.take 2 := by simpa [isR, old] using isKid
      have := indexed.kid_ne label (by simpa using List.mem_of_mem_take member)
      rw [below this.2.2 this.1, kidsLeft c member]
    · have member : c ∈ C.drop 2 := by simpa [isR] using isKid
      have := indexed.kid_ne label (by simpa using List.mem_of_mem_drop member)
      rw [below this.2.2 this.1, kidsRight c member]
    · have isKid : c ∈ (s.nodes.set q I C).kids p := by simpa [isR, isQ, isN] using isKid
      have notQ : c ≠ q := fun isQ' => indexed.labelled.root_not_kid labelp (isQ' ▸ isKid)
      rw [below (indexed.kid_ne labelp isKid).2.2 notQ, stays p l c labelp isQ notQ isKid]

end Pending

/-- A split leaves the way up from the nodes above as it is. -/
theorem Indexed.splits_split {s s' : IndexFile} {V : Nodes Nat Key Nat} {g : Nat → Option (Label Key)}
    {root height q h fuel p h' : Nat} {lo lo' : WithBot Key} {hi hi' : WithTop Key} {I : List (Key × Nat)}
    {C : List Nat} (indexed : Indexed s V g root height) (label : g q = some (h, lo, hi)) (kids : V.kids q = C)
    (split : Split s s' q I C) (labelP : g p = some (h', lo', hi')) (higher : h < h') :
    s'.splits fuel p = s.splits fuel p := by
  induction fuel generalizing p h' lo' hi' with
  | zero => rfl
  | succ fuel ih =>
    have notQ : p ≠ q := by
      rintro rfl
      obtain ⟨rfl, -⟩ := Prod.mk.inj (Option.some.inj (label.symm.trans labelP))
      omega
    have notKid : p ∉ C.drop 2 := by
      intro member
      obtain ⟨h'', a, b, rfl, labelKid⟩ := indexed.labelled.kid label (kids ▸ List.mem_of_mem_drop member)
      obtain ⟨rfl, -⟩ := Prod.mk.inj (Option.some.inj (labelP.symm.trans labelKid))
      omega
    have same : s'.node p = s.node p := by
      rw [split.others p notQ (indexed.inFile labelP).2.ne, if_neg notKid]
    simp only [IndexFile.splits, same]
    by_cases isRoot : p = root
    · simp only [(indexed.parent_eq_zero labelP).mpr isRoot, if_true]
    · obtain ⟨u, _, _, _, _, _, _, parent, labelU, -⟩ := indexed.above labelP isRoot
      rw [parent, ih labelU (by omega)]

theorem four_cut {I : List (Key × Nat)} (size : I.length = 4) :
    ∃ m, I = I.take 1 ++ m :: I.drop 2 ∧ I[1]? = some m := by
  match I, size with
  | [a, b, c, e], _ => exact ⟨b, rfl, rfl⟩

/-- A pair that waits at a node is taken in, on the way up as far as nodes are full. -/
theorem recursiveAdd_run {fuel : Nat} {s : IndexFile} {g : Nat → Option (Label Key)}
    {root height q h : Nat} {lo : WithBot Key} {hi : WithTop Key} {xs ys : List (Key × Nat)}
    {A B : List Nat} {k : Key} {d : Nat} {o : Option Nat}
    (indexed : Indexed s (s.nodes.set q (xs ++ (k, d) :: ys) (A ++ o.toList ++ B)) g root height)
    (label : g q = some (h, lo, hi)) (has : (s.node q).Has (xs ++ ys) (A ++ B))
    (fits : o = none ∧ A ++ B = [] ∨ o.isSome ∧ A.length = xs.length + 1 ∧ B.length = ys.length)
    (enough : height - h < fuel) :
    ∃ res s' g' height', (oNode.recursiveAdd fuel q k (some d) o).run s = .ok (res, s') ∧
      Indexed s' s'.nodes g' (res.getD root) height' ∧ height' ≤ height + 1 ∧
      s'.top = s.top + 103 * s.splits fuel q ∧
      ∀ x, Held s'.nodes g' x ↔ Held (s.nodes.set q (xs ++ (k, d) :: ys) (A ++ o.toList ++ B)) g x := by
  induction fuel generalizing s g q h lo hi xs ys A B k d o with
  | zero => omega
  | succ fuel ih =>
    have counts := indexed.counts label
    have count := has.keyCount
    rw [List.length_append] at count
    have sorted : (xs ++ (k, d) :: ys).Pairwise (fun a b => a.1 < b.1) := by
      simpa using (spaced_iff.mp (indexed.labelled.spaced label)).1
    simp only [recursiveAdd, StateT.run_bind, run_read, ok_bind]
    by_cases full : 3 ≤ (s.node q).keyCount
    · simp only [IndexFile.splits, if_pos full]
      have size : (xs ++ (k, d) :: ys).length = 4 := by
        rw [List.length_append, List.length_cons]
        omega
      obtain ⟨view, viewRun, keys, datas, childs⟩ := viewItemSet_run has (by omega) sorted fits
      obtain ⟨m, cut, second⟩ := four_cut size
      have separatorKey : view.key.getD 1 0 = m.1 := by
        rw [keys, List.getD_eq_getElem?_getD, List.getElem?_map, second]
        rfl
      have separatorData : view.dataOptr.getD 1 none = some m.2 := by
        rw [datas, List.getD_eq_getElem?_getD, List.getElem?_map, second]
        rfl
      have kidSize : h ≠ 0 → (A ++ o.toList ++ B).length = 5 := by
        intro inner
        obtain ⟨h', rfl⟩ := Nat.exists_eq_succ_of_ne_zero inner
        have := (indexed.labelled.inner label).length
        simp only [Nodes.set_kids, Nodes.set_items, if_true, size] at this
        exact this
      have kidsOf : (s.node q).childOptrCount = 0 ∧ A ++ o.toList ++ B = [] ∨ 0 < (s.node q).childOptrCount ∧
          (A ++ o.toList ++ B).length = 5 ∧ view.childOptr = (A ++ o.toList ++ B).map some ∧
          ∀ c ∈ A ++ o.toList ++ B, c ≠ s.top ∧ c ≠ q := by
        have childCount := has.childOptrCount
        rcases fits with ⟨rfl, none⟩ | ⟨isSome, lengthA, lengthB⟩
        · left
          obtain ⟨rfl, rfl⟩ := List.append_eq_nil_iff.mp none
          exact ⟨by simpa using childCount, rfl⟩
        · right
          rw [List.length_append] at childCount
          refine ⟨by omega, ?_, childs isSome, fun c member => ?_⟩
          · obtain ⟨r, rfl⟩ := Option.isSome_iff_exists.mp isSome
            simp
            omega
          · have := indexed.kid_ne label (c := c) (by simpa using member)
            exact ⟨this.2.1.ne, this.1⟩
      obtain ⟨s', splitRun, split⟩ := splitONode_run size keys datas (indexed.inFile label).2.ne kidsOf
      simp only [StateT.run_bind, viewRun, splitRun, ok_bind, run_atRoot, separatorKey, separatorData,
        split.leftParent]
      by_cases isRoot : q = root
      · subst isRoot
        obtain ⟨rfl, -⟩ := Prod.mk.inj (Option.some.inj (label.symm.trans indexed.labelled.top))
        have old := (indexed.inFile label).2
        obtain ⟨s'', growRun, grow⟩ := growRoot_run (s := s') (p := q) (r := s.top) (x := m)
          (by rw [split.top]; omega) (by rw [split.top]; omega) old.ne
        obtain ⟨indexed', held⟩ := indexed.split_root cut size kidSize split grow
        rw [indexed.rootParent]
        exact ⟨some s'.top, s'', _, _, by simp [growRun], indexed', le_rfl,
          by rw [grow.top, split.top, if_pos rfl], held⟩
      · have notNull : ((s.node q).parent == 0) = false := by
          simpa using (indexed.parent_eq_zero label).not.mpr isRoot
        obtain ⟨u, lo', hi', X, Y, A', B', parent, labelU, itemsU, kidsU, lengthA', lengthB'⟩ :=
          indexed.above label isRoot
        obtain ⟨indexed', held⟩ := indexed.split_up label isRoot cut size kidSize split parent labelU
          itemsU kidsU lengthA'
        rw [notNull]
        simp only [Bool.false_eq_true, if_false, StateT.run_bind, run_read, ok_bind, split.leftParent, parent]
        have notU : u ≠ q := by
          rintro rfl
          simp [label] at labelU
        have notTop := (indexed.inFile labelU).2.ne
        have labelU' : halves g q s.top h lo m.1 hi u = some (h + 1, lo', hi') := by
          simp [halves, notU, notTop, labelU]
        have sameU : s'.nodes.items u = X ++ Y ∧ s'.nodes.kids u = A' ++ q :: B' := by
          rw [split.nodes (indexed.inFile label).2.ne, ← itemsU, ← kidsU]
          simp [notU, notTop]
        have hasU : (s'.node u).Has (X ++ Y) (A' ++ [q] ++ B') := by
          refine ⟨sameU.1, by simpa [nodes_kids] using sameU.2, ?_⟩
          rw [(indexed'.counts labelU').1, ← ItemSet.length_items, ← nodes_items, sameU.1]
        have lower : h < height := (indexed.labelled.low label).resolve_left isRoot
        have again := ih (s := s') (g := halves g q s.top h lo m.1 hi) (q := u) (k := m.1) (d := m.2)
          (o := some s.top) (by simpa using indexed') labelU' hasU
          (Or.inr ⟨rfl, by simp [lengthA'], lengthB'⟩) (by omega)
        obtain ⟨res, s'', g'', height'', run, final, bound, top, held'⟩ := again
        have up : s'.splits fuel u = s.splits fuel u :=
          indexed.splits_split label (by simp) split labelU (Nat.lt_succ_self h)
        have inner : u ≠ 0 := by simpa [parent] using notNull
        refine ⟨res, s'', g'', height'', run, final, bound, ?_, fun x => (held' x).trans (by simpa using held x)⟩
        rw [top, up, split.top, if_neg inner]
        omega
    · simp only [IndexFile.splits, if_neg full]
      obtain ⟨it, run, has', parent⟩ := addSimple_run (o := o) has (by omega) sorted (fun isSome => by
        rcases fits with ⟨rfl, -⟩ | ⟨-, fits⟩
        · simp at isSome
        · exact fits)
      refine ⟨none, put s q it, g, height, by simp [run], ?_, by omega, rfl, ?_⟩
      · exact indexed.absorb has' parent (by simp; omega)
      · rw [nodes_put has']
        simp

theorem scanAdd_skip {it : ItemSet} {k : Key} {i n : Nat} (rest : List Nat)
    (skipped : ∀ j, i ≤ j → j < i + n → ∃ r, it.rawKey j = some r ∧ ¬k < r) :
    scanAdd it k (List.range' i n ++ rest) = scanAdd it k rest := by
  induction n generalizing i with
  | zero => simp
  | succ n ih =>
    obtain ⟨r, raw, notLess⟩ := skipped i le_rfl (by omega)
    rw [List.range'_succ, List.cons_append, scanAdd, raw]
    simp only [notLess, if_false]
    exact ih fun j from_ below => skipped j (by omega) (by omega)

/-- The scan goes to the child between the keys below and above `k`. -/
theorem scanAdd_eq {it : ItemSet} {X Y : List (Key × Nat)} {cs : List Nat} {k : Key} (has : it.Has (X ++ Y) cs)
    (size : (X ++ Y).length ≤ 3) (fits : cs.length = (X ++ Y).length + 1) (left : ∀ x ∈ X, x.1 < k)
    (right : ∀ y ∈ Y, k < y.1) :
    scanAdd it k (List.range it.childOptrCount) = some X.length := by
  have count := has.keyCount
  have childCount : it.childOptrCount = X.length + (Y.length + 1) := by
    rw [has.childOptrCount, fits, List.length_append]
    omega
  have cut : List.range it.childOptrCount = List.range' 0 X.length ++ X.length :: List.range'
    (X.length + 1) Y.length := by
    rw [childCount, List.range_eq_range', ← List.range'_append_1, Nat.zero_add, List.range'_succ]
  rw [cut, scanAdd_skip]
  · cases Y with
    | nil =>
      -- the key past the last one is looked at, to no effect
      simp only [List.append_nil] at count
      have last : it.childOptrCount - 1 = X.length := by simp [childCount]
      obtain ⟨r, raw⟩ : ∃ r, it.rawKey X.length = some r := by simp [ItemSet.rawKey, count]
      simp [scanAdd, raw, last]
    | cons y Y =>
      have raw := has.rawKey size (i := X.length) (by simp)
      rw [scanAdd, raw]
      simp [right y (by simp)]
  · intro j _ below
    rw [Nat.zero_add] at below
    refine ⟨_, has.rawKey size (i := j) (by simp; omega), ?_⟩
    rw [List.getElem_append_left below]
    exact (left _ (List.getElem_mem below)).not_gt

section Descent
variable {s : IndexFile} {g : Nat → Option (Label Key)} {root height : Nat}

/-- A labelled node holds what its label speaks of. -/
theorem Indexed.has (indexed : Indexed s s.nodes g root height) {p : Nat} {l : Label Key}
    (label : g p = some l) :
    (s.node p).Has (s.nodes.items p) (s.nodes.kids p) :=
  ⟨rfl, rfl, by rw [(indexed.counts label).1, nodes_items, ItemSet.length_items]⟩

theorem Indexed.items_le (indexed : Indexed s s.nodes g root height) {p : Nat} {l : Label Key}
    (label : g p = some l) :
    (s.nodes.items p).length ≤ 3 := by
  rw [nodes_items, ItemSet.length_items]
  exact (indexed.counts label).2

theorem descendAdd_run {fuel p h : Nat} {lo : WithBot Key} {hi : WithTop Key} {k : Key}
    (indexed : Indexed s s.nodes g root height) (fresh : ∀ x, Held s.nodes g x → x.1 ≠ k)
    (label : g p = some (h, lo, hi)) (above : lo < (k : WithBot Key)) (below : (k : WithTop Key) < hi)
    (enough : h < fuel) :
    ∃ leaf lo' hi', (oNode.descendAdd fuel p k).run s = .ok (leaf, s) ∧ g leaf = some (0, lo', hi') ∧
      lo' < (k : WithBot Key) ∧ (k : WithTop Key) < hi' := by
  induction fuel generalizing p h lo hi with
  | zero => omega
  | succ fuel ih =>
    simp only [descendAdd, StateT.run_bind, run_read, ok_bind]
    cases h with
    | zero =>
      have none : ¬1 ≤ (s.node p).childOptrCount := by
        rw [← ItemSet.length_kids, ← nodes_kids, indexed.labelled.leaf label]
        simp
      rw [if_neg none]
      exact ⟨p, lo, hi, rfl, label, above, below⟩
    | succ h =>
      obtain ⟨X, Y, items, left, right, above', below'⟩ := (indexed.labelled.spaced label).cut_at above below
      have inner := indexed.labelled.inner label
      have size := inner.length
      have has := indexed.has label
      have small := indexed.items_le label
      rw [items] at inner has small size
      have apart : ∀ y ∈ Y, k < y.1 := fun y member => lt_of_le_of_ne (right y member)
        (fresh y ⟨p, by simp [label], by simp [items, member]⟩).symm
      rw [List.length_append] at size small
      obtain ⟨A, c, B, kids, lengthA⟩ := exists_place (show X.length < (s.nodes.kids p).length by omega)
      have labelC : g c = some (h, lastKey lo X, firstKey hi Y) := by
        rw [kids] at inner
        exact inner.kid_label lengthA
      have childCount : (s.node p).childOptrCount = X.length + Y.length + 1 := by
        rw [has.childOptrCount, size]
      have child : (s.node p).childOptr (X.length % 65536) = some c := by
        rw [kids] at has
        rw [Nat.mod_eq_of_lt (by omega), ← lengthA, has.childOptr]
      rw [if_pos (by omega), scanAdd_eq has (by simpa using small) (by simpa using size) left apart]
      simp only [StateT.run_bind, run_deref, ok_bind, run_child, child]
      refine ih labelC above' (below'.lt_of_ne ?_) (by omega)
      cases Y with
      | nil => exact below.ne
      | cons y Y => exact fun same => (apart y (by simp)).ne (WithTop.coe_injective same)

/-- A pair that waits at the leaf it belongs to. -/
theorem Indexed.await {leaf : Nat} {lo : WithBot Key} {hi : WithTop Key} {X Y : List (Key × Nat)}
    {k : Key} {d : Nat} (indexed : Indexed s s.nodes g root height) (label : g leaf = some (0, lo, hi))
    (items : s.nodes.items leaf = X ++ Y) (above : lastKey lo X < (k : WithBot Key))
    (below : (k : WithTop Key) < firstKey hi Y) :
    Indexed s (s.nodes.set leaf (X ++ (k, d) :: Y) []) g root height ∧
      ∀ x, Held (s.nodes.set leaf (X ++ (k, d) :: Y) []) g x ↔ x = (k, d) ∨ Held s.nodes g x := by
  have kids := indexed.labelled.kids_set_leaf label (X ++ (k, d) :: Y)
  have spaced : Spaced lo (X ++ (k, d) :: Y) hi :=
    Spaced.insert (items ▸ indexed.labelled.spaced label) above below
  refine ⟨⟨indexed.labelled.set_leaf label spaced, indexed.inFile, indexed.counts, fun {p h lo hi} labelp => ?_,
    fun {q l c} labelq isKid => ?_, indexed.rootParent⟩, fun x => ?_⟩
  · by_cases isLeaf : p = leaf
    · simp [isLeaf]
    · simpa [isLeaf] using indexed.filled labelp
  · rw [kids] at isKid
    exact indexed.parents labelq isKid
  · constructor
    · rintro ⟨p, some, own⟩
      by_cases isLeaf : p = leaf
      · simp only [isLeaf, Nodes.set_items, if_true, List.mem_append, List.mem_cons] at own
        rcases own with inX | rfl | inY
        · exact Or.inr ⟨leaf, by simp [label], by simp [items, inX]⟩
        · exact Or.inl rfl
        · exact Or.inr ⟨leaf, by simp [label], by simp [items, inY]⟩
      · exact Or.inr ⟨p, some, by simpa [isLeaf] using own⟩
    · rintro (rfl | ⟨p, some, own⟩)
      · exact ⟨leaf, by simp [label], by simp⟩
      · refine ⟨p, some, ?_⟩
        by_cases isLeaf : p = leaf
        · subst isLeaf
          rw [items, List.mem_append] at own
          simp only [Nodes.set_items, if_true, List.mem_append, List.mem_cons]
          tauto
        · simpa [isLeaf] using own

end Descent

namespace OBtree

theorem mem_pairs {t : OBtree} {h : Nat} {g : Nat → Option (Label Key)}
    (indexed : Indexed t.file t.file.nodes g t.rootONode h)
    (x : Key × Nat) : x ∈ t.pairs h ↔ Held t.file.nodes g x :=
  indexed.labelled.mem_inorder_iff x

/-- The nodes that adding a key makes. -/
def newNodes (fuel : Nat) (t : OBtree) (k : Key) : Nat :=
  match (oNode.descendAdd fuel t.rootONode k).run t.file with
  | .ok (leaf, _) => t.file.splits fuel leaf
  | .error _ => 0

/-- The nodes of the file and those that adding the key makes end where the arithmetic of addresses does. -/
def HasRoom (fuel : Nat) (t : OBtree) (k : Key) : Prop := t.file.top + 103 * t.newNodes fuel k < 2 ^ 24 + 5

instance (fuel : Nat) (t : OBtree) (k : Key) : Decidable (t.HasRoom fuel k) := inferInstanceAs (Decidable (_ < _))

/-- `add` of a fresh key: with room it returns, and the pairs of the new tree are the old ones with
the new one at its place. Without room it goes astray. -/
theorem add_cases {t : OBtree} {h fuel : Nat} {k : Key} {d : Nat} (wellFormed : t.WellFormed h)
    (fresh : ∀ x ∈ t.pairs h, x.1 ≠ k) (enough : h < fuel) :
    (¬t.HasRoom fuel k ∧ t.add fuel k d = .error .astray) ∨ t.HasRoom fuel k ∧
    ∃ t' h', t.add fuel k d = .ok t' ∧ t'.WellFormed h' ∧ h' ≤ h + 1 ∧
      t'.file.top = t.file.top + 103 * t.newNodes fuel k ∧
      t'.pairs h' = (t.pairs h).orderedInsert (fun a b => a.1 ≤ b.1) (k, d) := by
  obtain ⟨g, indexed⟩ := wellFormed_iff.mp wellFormed
  have apart : ∀ x, Held t.file.nodes g x → x.1 ≠ k := fun x held => fresh x ((mem_pairs indexed x).mpr held)
  obtain ⟨leaf, lo, hi, descend, label, above, below⟩ := descendAdd_run indexed apart indexed.labelled.top
    (WithBot.bot_lt_coe k) (WithTop.coe_lt_top k) enough
  obtain ⟨X, Y, items, left, right, above', below'⟩ := (indexed.labelled.spaced label).cut_at above below
  have below'' : (k : WithTop Key) < firstKey hi Y := by
    refine below'.lt_of_ne ?_
    cases Y with
    | nil => exact below.ne
    | cons y Y => exact fun same => apart y ⟨leaf, by simp [label], by simp [items]⟩ (WithTop.coe_injective same).symm
  obtain ⟨waiting, holds⟩ := indexed.await (d := d) label items above' below''
  have has : (t.file.node leaf).Has (X ++ Y) ([] ++ []) := by
    have has := indexed.has label
    rwa [items, indexed.labelled.leaf label] at has
  obtain ⟨res, s', g', h', run, indexed', bound, top, held⟩ := recursiveAdd_run (o := none) (A := []) (B := [])
    waiting label has (Or.inl ⟨rfl, rfl⟩) (by omega)
  have indexed'' : Indexed s' s'.nodes g' (res.getD t.rootONode) h' := indexed'
  have made : t.newNodes fuel k = t.file.splits fuel leaf := by rw [newNodes, descend]
  have done : t.add fuel k d =
      if s'.Reached then .ok ⟨s', res.getD t.rootONode⟩ else .error .astray := by
    simp only [OBtree.add, NodeFile.add, StateT.run_bind, descend, ok_bind, run]
    cases res <;> rfl
  rw [← made] at top
  have room : s'.Reached ↔ t.HasRoom fuel k := by rw [IndexFile.reached_iff, top, HasRoom]
  rw [done]
  by_cases reached : s'.Reached
  swap
  · exact Or.inl ⟨mt room.mpr reached, if_neg reached⟩
  · refine Or.inr ⟨room.mp reached, ⟨s', res.getD t.rootONode⟩, h', if_pos reached,
      wellFormed_iff.mpr ⟨g', indexed''⟩, bound, top, ?_⟩
    refine eq_of_mem_iff (wellFormed_iff.mpr ⟨g', indexed''⟩).sorted
      (sorted_orderedInsert wellFormed.sorted fresh) fun x => ?_
    rw [List.mem_orderedInsert, mem_pairs indexed,
      mem_pairs (t := ⟨s', res.getD t.rootONode⟩) indexed'', held x]
    exact holds x

theorem add_run {t : OBtree} {h fuel : Nat} {k : Key} {d : Nat} (wellFormed : t.WellFormed h)
    (fresh : ∀ x ∈ t.pairs h, x.1 ≠ k) (room : t.HasRoom fuel k) (enough : h < fuel) :
    ∃ t' h', t.add fuel k d = .ok t' ∧ t'.WellFormed h' ∧ h' ≤ h + 1 ∧
      t'.file.top = t.file.top + 103 * t.newNodes fuel k ∧
      t'.pairs h' = (t.pairs h).orderedInsert (fun a b => a.1 ≤ b.1) (k, d) := by
  obtain ⟨full, -⟩ | ⟨-, added⟩ := add_cases (d := d) wellFormed fresh enough
  · exact absurd room full
  · exact added

/-- `add` of pairs one after the other. -/
def addAll (fuel : Nat) (t : OBtree) (l : List (Key × Nat)) : Except NodeError OBtree :=
  l.foldlM (fun t x => t.add fuel x.1 x.2) t

theorem create_wellFormed : create.WellFormed 0 ∧ create.pairs 0 = [] := by
  refine ⟨⟨⟨by simp [IndexFile.NodeOK, create, IndexFile.newONode], rfl⟩, ?_⟩, rfl⟩
  exact List.Pairwise.nil

/-- The keys 0, 1, 2 and so on. -/
def ascending (n : Nat) : List (Key × Nat) := (List.range n).map fun i => (Fin.ofNat _ i, i)

end OBtree

end MiyaCore
