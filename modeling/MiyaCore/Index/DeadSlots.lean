import MiyaCore.Index.RemoveAlike

/-!
# Dead slots

Lookup and addition never look at the slots past the counts. Removal does in one place: its
search compares the key with the slot after the last key of an inner node.
-/

namespace MiyaCore
open NodeFile ItemSet SearchTree

section Leaf
variable {s s' : IndexFile} {g : Nat → Option Nat} {root L : Nat} {k : Key}

theorem exists_findIndex {it : ItemSet} {xs : List (Key × Nat)} {cs : List Nat} (has : it.Has xs cs)
    (size : xs.length ≤ 3) (held : ∃ x ∈ xs, x.1 = k) : ∃ i, it.findIndex k = some i := by
  obtain ⟨x, member, rfl⟩ := held
  obtain ⟨X, Y, rfl⟩ := List.append_of_mem member
  have raw := has.rawKey size (i := X.length) (by simp)
  simp only [List.getElem_append_right, le_refl, Nat.sub_self, List.getElem_cons_zero] at raw
  refine Option.isSome_iff_exists.mp (List.find?_isSome.mpr ⟨X.length, ?_, by simpa using raw⟩)
  simp [has.keyCount]

/-- A key is taken from a leaf alike. -/
theorem remove_leaf_alike (fuel : Nat) (shaped : Shaped s g root)
    (alike : AlikeOn (fun p => (g p).isSome) s s') (leaf : g L = some 0)
    (held : ∃ x ∈ (s.node L).items, x.1 = k) :
    EndAlike (fun p => (g p).isSome) (oNode.remove (fuel + 1) L k) s s' (Recounted g s) := by
  have node := alike.alike L (by simp [leaf])
  obtain ⟨even, small⟩ := shaped.counts leaf
  obtain ⟨i, found⟩ := exists_findIndex (shaped.has leaf) (shaped.items_le leaf) held
  have found' : (s'.node L).findIndex k = some i := (node.findIndex small k).trans found
  have inside := findIndex_lt found
  have run := remove_leaf_run fuel found (shaped.leaf leaf)
  have run' := remove_leaf_run fuel found' (node.kids.trans (shaped.leaf leaf))
  rw [node.keyCount, node.parent] at run'
  by_cases keeps : 1 < (s.node L).keyCount ∨ (s.node L).parent = 0
  · rw [if_pos keeps] at run run'
    refine Or.inr ⟨none, _, _, run, run', alike.step (sameBut_put s L _) (sameBut_put s' L _)
      fun q touched _ => ?_, nofun, L, by simp [leaf], ?_⟩
    · obtain rfl := List.mem_singleton.mp touched
      simp only [put_node, if_true]
      refine ⟨node.remove (by omega) small even i, fun c isKid => ?_⟩
      rw [ItemSet.remove, moveDeleteDataOptr_kids (by simp; omega), moveDeleteKey_kids (by omega) small,
        shaped.leaf leaf] at isKid
      cases isKid
    · simp [ItemSet.remove]
      omega
  · rw [if_neg keeps] at run run'
    obtain ⟨-, notNull⟩ := not_or.mp keeps
    exact (underflow_alike shaped alike leaf fun isRoot => notNull (isRoot ▸ shaped.rootParent)).of_run
      run run' fun _ => id

end Leaf

section Inner
variable {s s' : IndexFile} {A : Nat → Prop} {Q Q' : IndexFile → Prop}

theorem AlikeOn.lastLeaf {p M : Nat} (alike : AlikeOn A s s') (inA : A p)
    (last : LastLeaf s.nodes p M) : LastLeaf s'.nodes p M := by
  induction last with
  | @leaf p noKids => exact .leaf ((alike.kids inA).trans noKids)
  | @last p c q B kids below ih =>
    exact .last ((alike.kids inA).trans kids) (ih (alike.closed p inA c (by rw [← nodes_kids, kids]; simp)))

theorem settle_run (s : IndexFile) (candidate : Nat) : (settle (some candidate)).run s =
    if ((s.node candidate).keyCount = 0 ∧ (s.node candidate).childOptrCount = 1) ∧ (s.node candidate).parent = 0
    then (some <$> oNode.dropRoot candidate).run s else .ok (some candidate, s) := by
  by_cases bare : (s.node candidate).keyCount = 0 ∧ (s.node candidate).childOptrCount = 1
  · by_cases atRoot : (s.node candidate).parent = 0 <;> simp [settle, bare, atRoot]
  · simp [settle, bare]

/-- The new root is settled alike. -/
theorem settle_alike {r : Option Nat} (alike : AlikeOn A s s') (inA : ∀ n, r = some n → A n) :
    EndAlike A (settle r) s s' fun s₁ => ∀ m, (s₁.node m).keyCount = (s.node m).keyCount := by
  cases r with
  | none => exact Or.inr ⟨none, s, s', rfl, rfl, alike, nofun, fun _ => rfl⟩
  | some candidate =>
    have inC := inA candidate rfl
    have node := alike.alike candidate inC
    have run := settle_run s candidate
    have run' := settle_run s' candidate
    rw [node.keyCount, node.childOptrCount, node.parent] at run'
    by_cases drops : ((s.node candidate).keyCount = 0 ∧ (s.node candidate).childOptrCount = 1) ∧
      (s.node candidate).parent = 0
    · rw [if_pos drops] at run run'
      have child : (s.node candidate).childOptr 0 = some ((s.node candidate).childSlot 0) := by
        simp [ItemSet.childOptr, drops.1.2]
      exact (dropRoot_alike alike inC child).of_run run run' fun _ => id
    · rw [if_neg drops] at run run'
      exact Or.inr ⟨some candidate, s, s', run, run', alike, inA, fun _ => rfl⟩

theorem EndAlike.settle {m : NodeM IndexFile (Option Nat)} (ends : EndAlike A m s s' Q)
    (counts : ∀ s₁ s₂, Q s₁ → (∀ p, (s₂.node p).keyCount = (s₁.node p).keyCount) → Q' s₂) :
    EndAlike A (m >>= settle) s s' Q' := by
  rcases ends with ⟨e, run, run'⟩ | ⟨r, s₁, s₁', run, run', alike, inA, holds⟩
  · exact Or.inl ⟨e, by rw [StateT.run_bind, run]; rfl, by rw [StateT.run_bind, run']; rfl⟩
  · refine (settle_alike alike inA).of_run ?_ ?_ fun s₂ => counts s₁ s₂ holds
    · rw [StateT.run_bind, run, ok_bind]
    · rw [StateT.run_bind, run', ok_bind]

variable {g : Nat → Option (Label Key)} {root height q h fuel : Nat} {lo : WithBot Key}
    {hi : WithTop Key} {k : Key}

/-- A key of an inner node gives way alike to the greatest below its first child. -/
theorem remove_inner_alike (indexed : Indexed s s.nodes g root height)
    (alike : AlikeOn (fun p => ((g p).map Prod.fst).isSome) s s') (label : g q = some (h + 1, lo, hi))
    (held : ∃ x ∈ (s.node q).items, x.1 = k) (enough : h + 1 < fuel) :
    EndAlike (fun p => ((g p).map Prod.fst).isSome) (oNode.remove fuel q k) s s'
      (Recounted (fun p => (g p).map Prod.fst) s) := by
  obtain ⟨fuel, rfl⟩ : ∃ n, fuel = n + 2 := ⟨fuel - 2, by omega⟩
  have indexed' := indexed.congr (by simpa using alike)
  have inA : ∀ {p l}, g p = some l → ((g p).map Prod.fst).isSome := fun label => by simp [label]
  have node := alike.alike q (inA label)
  have small := (indexed.counts label).2
  obtain ⟨i, found⟩ := exists_findIndex (indexed.has label) (indexed.items_le label) held
  have found' : (s'.node q).findIndex k = some i := (node.findIndex small k).trans found
  have inside : i < 3 := by
    have := findIndex_lt found
    omega
  have inner := indexed.labelled.inner label
  have size := inner.length
  obtain ⟨c, B, kids⟩ := List.exists_cons_of_length_pos (show 0 < (s.nodes.kids q).length by omega)
  obtain ⟨M, a, b, l, m, last, labelM, Mq, itemsM⟩ := indexed.exists_greatest label kids
  obtain ⟨_, a', b', level, labelC⟩ := indexed.labelled.kid label (show c ∈ s.nodes.kids q by simp [kids])
  obtain rfl := Nat.succ.inj level
  have hasM := indexed.has labelM
  have smallM := indexed.items_le labelM
  rw [itemsM, indexed.labelled.leaf labelM] at hasM
  rw [itemsM] at smallM
  have run := remove_inner_run found inside kids
    (subtreeMax_run indexed labelC last (show h < fuel + 1 by omega)) Mq hasM smallM
  have run' := remove_inner_run found' inside (node.kids.trans kids)
    (subtreeMax_run indexed' labelC (alike.lastLeaf (inA labelC) last) (show h < fuel + 1 by omega)) Mq
    ((alike.alike M (inA labelM)).has hasM) smallM
  have same : ∀ p, ((put s q (((s.node q).setKey i m.1).setDataOptr i m.2)).node p).parent = (s.node p).parent ∧
      ((put s q (((s.node q).setKey i m.1).setDataOptr i m.2)).node p).keyCount = (s.node p).keyCount ∧
      ((put s q (((s.node q).setKey i m.1).setDataOptr i m.2)).node p).dataOptrCount =
      (s.node p).dataOptrCount ∧ ((put s q (((s.node q).setKey i m.1).setDataOptr i m.2)).node p).kids =
      (s.node p).kids := by
    intro p
    by_cases isQ : p = q <;> simp [isQ, inside]
  have alike₁ : AlikeOn (fun p => ((g p).map Prod.fst).isSome)
    (put s q (((s.node q).setKey i m.1).setDataOptr i m.2))
      (put s' q (((s'.node q).setKey i m.1).setDataOptr i m.2)) := by
    refine alike.step (sameBut_put s q _) (sameBut_put s' q _) fun p touched _ => ?_
    obtain rfl := List.mem_singleton.mp touched
    simp only [put_node, if_true, setDataOptr_kids, setKey_kids inside]
    exact ⟨(node.setKey inside m.1).setDataOptr i m.2, alike.closed p (inA label)⟩
  have ends := remove_leaf_alike (L := M) (k := m.1) fuel (indexed.shaped.congr same) alike₁ (by simp [labelM])
    ⟨m, by rw [put_node, if_neg Mq, ← nodes_items, itemsM]; simp, rfl⟩
  refine (ends.settle fun s₁ s₂ recounted settled => ?_).of_run run run' fun _ => id
  obtain ⟨p, labelled, other⟩ := recounted
  exact ⟨p, labelled, by rwa [settled, ← (same p).2.1]⟩

end Inner

/-- The key of a node is taken alike, wherever the node is. -/
theorem remove_alike {s s' : IndexFile} {g : Nat → Option (Label Key)} {root height q h fuel : Nat}
    {lo : WithBot Key} {hi : WithTop Key} {k : Key} (indexed : Indexed s s.nodes g root height)
    (alike : AlikeOn (fun p => (g p).isSome) s s') (label : g q = some (h, lo, hi))
    (held : ∃ x ∈ (s.node q).items, x.1 = k) (enough : h < fuel) :
    EndAlike (fun p => (g p).isSome) (oNode.remove fuel q k) s s'
      (Recounted (fun p => (g p).map Prod.fst) s) := by
  have heights : (fun p => (g p).isSome = true) = fun p => ((g p).map Prod.fst).isSome = true := by simp
  rw [heights] at alike ⊢
  cases h with
  | zero =>
    obtain ⟨fuel, rfl⟩ : ∃ n, fuel = n + 1 := ⟨fuel - 1, by omega⟩
    exact remove_leaf_alike fuel indexed.shaped alike (by simp [label]) held
  | succ h => exact remove_inner_alike indexed alike label held enough

namespace OBtree
variable {t t' : OBtree} {h fuel : Nat} {g : Nat → Option (Label Key)} {k : Key} {d q : Nat} {l : Label Key}

/-- A node with `q` below its last child has `k` in the slot after its keys. -/
def Misreads (t : OBtree) (k : Key) (q : Nat) : Prop :=
  ∃ p c A, t.file.Under t.rootONode p ∧ (t.file.node p).kids = A ++ [c] ∧ t.file.Under c q ∧
    (t.file.node p).rawKey (t.file.node p).keyCount = some k

section Search
variable (indexed : Indexed t.file t.file.nodes g t.rootONode h) (enough : h < fuel)
    (own : (k, d) ∈ (t.file.node q).items)
include indexed enough own

/-- With such a node above its own the key is passed by, and the tree left as it is. -/
theorem remove_of_misreads (misreads : t.Misreads k q) : t.remove fuel k = .ok t := by
  obtain ⟨p, c, A, under, kids, below, raw⟩ := misreads
  obtain ⟨⟨j, lo, hi⟩, labelP⟩ := indexed.under_label indexed.labelled.top under
  obtain ⟨j, rfl, labelC⟩ := indexed.labelled.last_kid labelP kids
  obtain ⟨-, aboveK, belowK⟩ := (indexed.labelled.mem_inorder_iff_bounds labelC (k, d)).mp
    (indexed.mem_of_under labelC below own)
  have low : j + 1 ≤ h := by
    rcases indexed.labelled.low labelP with rfl | lower
    · obtain ⟨rfl, -⟩ := Prod.mk.inj (Option.some.inj (labelP.symm.trans indexed.labelled.top))
      exact le_rfl
    · exact lower.le
  obtain ⟨q', l', run, labelQ, absent⟩ := descendRemove_misread indexed indexed.labelled.top
    (WithBot.bot_lt_coe k) (WithTop.coe_lt_top k) enough labelP low aboveK belowK raw
  obtain ⟨fuel, rfl⟩ : ∃ n, fuel = n + 1 := ⟨fuel - 1, by omega⟩
  exact remove_idle run (indexed.counts labelQ).2 absent

/-- Without one the search ends at the node of the key. -/
theorem descend_of_not_misreads (label : g q = some l) (read : ¬ t.Misreads k q) :
    (oNode.descendRemove fuel t.rootONode k).run t.file = .ok (q, t.file) := by
  obtain ⟨p, run, searchEnd⟩ := descendRemove_run (k := k) indexed indexed.labelled.top
    (WithBot.bot_lt_coe k) (WithTop.coe_lt_top k) enough
  have held : Held t.file.nodes g (k, d) := ⟨q, by simp [label], own⟩
  cases searchEnd with
  | @found _ X Y d' labelP items =>
    have own' : (k, d') ∈ t.file.nodes.items p := by rw [items]; simp
    obtain rfl := indexed.labelled.holder_unique labelP label own' own rfl
    exact run
  | misread labelP above below raw =>
    obtain ⟨A, c, q', kids, under, own'⟩ := misread_under indexed labelP above below held rfl
    obtain ⟨_, _, _, _, labelC⟩ := indexed.labelled.kid labelP
      (show c ∈ t.file.nodes.kids p by rw [nodes_kids, kids]; simp)
    obtain ⟨l', labelQ⟩ := indexed.under_label labelC under
    obtain rfl := indexed.labelled.holder_unique labelQ label own' own rfl
    exact absurd ⟨p, c, A, indexed.label_under labelP, kids, under, raw⟩ read
  | leaf labelP above below absent =>
    exact absurd rfl (absent (k, d) ((indexed.labelled.mem_inorder_iff_bounds labelP (k, d)).mpr
      ⟨held, above, below⟩))

end Search

/-- The same error, or one tree in two files. -/
def Agree : Except NodeError OBtree → Except NodeError OBtree → Prop
  | .ok t, .ok t' => t.SameTree t'
  | .error e, .error e' => e = e'
  | _, _ => False

/-- The slots after the last keys hide `k` from a removal in both files, or in neither. -/
def SlotsAgree (t t' : OBtree) (k : Key) : Prop :=
  ∀ q d, t.file.Under t.rootONode q → (k, d) ∈ (t.file.node q).items → (t.Misreads k q ↔ t'.Misreads k q)

namespace SameTree
variable (same : t.SameTree t')
include same

theorem symm : t'.SameTree t := by
  refine ⟨same.root.symm, same.head.symm, same.top.symm, fun p under => ?_⟩
  have node := same.alike p ((same.under_iff p).mp under)
  exact ⟨node.parent.symm, node.keyCount.symm,
    fun i below => (node.keySlot i (node.keyCount ▸ below)).symm, node.childOptrCount.symm,
    fun i below => (node.childSlot i (node.childOptrCount ▸ below)).symm, node.dataOptrCount.symm,
    fun i below => (node.dataSlot i (node.dataOptrCount ▸ below)).symm⟩

end SameTree

/-- The removal at the node where the search ends. -/
theorem remove_of_descend (descend : (oNode.descendRemove fuel t.rootONode k).run t.file = .ok (q, t.file)) :
    t.remove fuel k = (match (oNode.remove fuel q k).run t.file with
      | .ok (r, s) => .ok ⟨s, r.getD t.rootONode⟩
      | .error e => .error e) := by
  rw [OBtree.remove, removeKey, StateT.run_bind, descend, ok_bind, StateT.run_bind]
  rcases (oNode.remove fuel q k).run t.file with e | ⟨_ | r, s⟩ <;> rfl

/-- A key that no node has is not found. -/
theorem remove_of_absent (indexed : Indexed t.file t.file.nodes g t.rootONode h) (enough : h < fuel)
    (absent : ∀ x, Held t.file.nodes g x → x.1 ≠ k) : t.remove fuel k = .ok t := by
  obtain ⟨q, run, searchEnd⟩ := descendRemove_run (k := k) indexed indexed.labelled.top
    (WithBot.bot_lt_coe k) (WithTop.coe_lt_top k) enough
  obtain ⟨l, label⟩ : ∃ l, g q = some l := by cases searchEnd <;> exact ⟨_, ‹_›⟩
  obtain ⟨fuel, rfl⟩ : ∃ n, fuel = n + 1 := ⟨fuel - 1, by omega⟩
  exact remove_idle run (indexed.counts label).2 fun x own => absent x ⟨q, by simp [label], own⟩

/-- A removal that changed the number of keys of a node did not return the old tree. -/
theorem not_sameTree_of_recounted {t₁ : OBtree} (indexed : Indexed t.file t.file.nodes g t.rootONode h)
    (recounted : Recounted (fun p => (g p).map Prod.fst) t.file t₁.file) : ¬ t.SameTree t₁ := by
  obtain ⟨p, labelled, other⟩ := recounted
  obtain ⟨⟨j, lo, hi⟩, label⟩ := Option.isSome_iff_exists.mp (Option.isSome_map.symm.trans labelled)
  exact fun same => other (same.alike p (indexed.label_under label)).keyCount

/-- The removal of a key of `q` ends alike exactly if the slots after the last keys hide the key in both
files or in neither. -/
theorem SameTree.remove_held_agree_iff {j : Nat} {lo : WithBot Key} {hi : WithTop Key} (same : t.SameTree t')
    (indexed : Indexed t.file t.file.nodes g t.rootONode h) (enough : h < fuel) (label : g q = some (j, lo, hi))
    (own : (k, d) ∈ (t.file.node q).items) : Agree (t.remove fuel k) (t'.remove fuel k) ↔
    (t.Misreads k q ↔ t'.Misreads k q) := by
  have alike := same.alikeOn indexed
  have indexed' := indexed.congr alike
  have labelledRoot : (g t.rootONode).isSome := by simp [indexed.labelled.top]
  have low : j < fuel := by
    rcases indexed.labelled.low label with rfl | lower
    · obtain ⟨rfl, -⟩ := Prod.mk.inj (Option.some.inj (label.symm.trans indexed.labelled.top))
      exact enough
    · omega
  have own' : (k, d) ∈ (t'.file.node q).items := by
    rw [(alike.alike q (by simp [label])).items (indexed.counts label).1]
    exact own
  have ends := remove_alike indexed alike label ⟨(k, d), own, rfl⟩ low
  rw [← same.root] at indexed'
  by_cases hidden : t.Misreads k q <;> by_cases hidden' : t'.Misreads k q
  · rw [remove_of_misreads indexed enough own hidden, remove_of_misreads indexed' enough own' hidden']
    exact iff_of_true same (iff_of_true hidden hidden')
  · refine iff_of_false ?_ fun both => hidden' (both.mp hidden)
    rw [remove_of_misreads indexed enough own hidden, remove_of_descend
      (descend_of_not_misreads indexed' enough own' label hidden')]
    rcases ends with ⟨e, -, run'⟩ | ⟨r, s₁, s₁', -, run', alike₁, -, recounted⟩
    · rw [run']
      exact id
    · rw [run']
      refine not_sameTree_of_recounted indexed ?_
      obtain ⟨p, labelled, other⟩ := recounted
      refine ⟨p, labelled, ?_⟩
      rwa [(alike₁.alike p (by simpa using labelled)).keyCount]
  · refine iff_of_false ?_ fun both => hidden (both.mpr hidden')
    rw [remove_of_misreads indexed' enough own' hidden', remove_of_descend
      (descend_of_not_misreads indexed enough own label hidden)]
    rcases ends with ⟨e, run, -⟩ | ⟨r, s₁, s₁', run, -, -, -, recounted⟩
    · rw [run]
      exact id
    · rw [run]
      intro whole
      refine not_sameTree_of_recounted indexed' ?_ whole.symm
      obtain ⟨p, labelled, other⟩ := recounted
      refine ⟨p, labelled, ?_⟩
      rwa [(alike.alike p (by simpa using labelled)).keyCount]
  · refine iff_of_true ?_ (iff_of_false hidden hidden')
    rw [remove_of_descend (descend_of_not_misreads indexed enough own label hidden),
      remove_of_descend (descend_of_not_misreads indexed' enough own' label hidden'), same.root]
    rcases ends with ⟨e, run, run'⟩ | ⟨r, s₁, s₁', run, run', alike₁, inA, -⟩
    · rw [run, run']
      exact rfl
    · rw [run, run']
      refine sameTree_of_alikeOn alike₁ rfl ?_
      cases r with
      | none => exact labelledRoot
      | some n => exact inA n rfl

/-- A removal from one tree in two files ends alike exactly if the slots after the last keys hide the
key in both or in neither. -/
theorem SameTree.remove_agree_iff (same : t.SameTree t') (wellFormed : t.WellFormed h) (enough : h < fuel) :
    Agree (t.remove fuel k) (t'.remove fuel k) ↔ t.SlotsAgree t' k := by
  obtain ⟨g, indexed⟩ := wellFormed_iff.mp wellFormed
  by_cases held : ∃ x, Held t.file.nodes g x ∧ x.1 = k
  · obtain ⟨⟨_, d⟩, ⟨q, labelled, own⟩, rfl⟩ := held
    obtain ⟨⟨j, lo, hi⟩, label⟩ := Option.isSome_iff_exists.mp labelled
    rw [same.remove_held_agree_iff indexed enough label own]
    constructor
    · intro both q' d' under own'
      obtain ⟨l', label'⟩ := indexed.under_label indexed.labelled.top under
      obtain rfl := indexed.labelled.holder_unique label' label own' own rfl
      exact both
    · exact fun agree => agree q d (indexed.label_under label) own
  · have alike := same.alikeOn indexed
    have indexed' := indexed.congr alike
    rw [← same.root] at indexed'
    have absent : ∀ x, Held t.file.nodes g x → x.1 ≠ k := fun x isHeld sameKey => held ⟨x, isHeld, sameKey⟩
    have absent' : ∀ x, Held t'.file.nodes g x → x.1 ≠ k := by
      rintro x ⟨p, labelled, own⟩
      obtain ⟨l, label⟩ := Option.isSome_iff_exists.mp labelled
      rw [alike.items labelled (indexed.counts label).1] at own
      exact absent x ⟨p, labelled, own⟩
    rw [remove_of_absent indexed enough absent, remove_of_absent indexed' enough absent']
    refine iff_of_true same fun q d under own => ?_
    obtain ⟨l, label⟩ := indexed.under_label indexed.labelled.top under
    exact absurd rfl (absent (k, d) ⟨q, by simp [label], own⟩)

/-- The two leaves, with the first key of the second one in the slot after the key of their root. -/
def staleLeaves : OBtree := { twoLeaves with file := twoLeaves.file.edit 306 fun it => it.setKey 1 3 }

theorem twoLeaves_under {p : Nat} (under : twoLeaves.file.Under twoLeaves.rootONode p) : p ∈ [306, 100, 203] :=
  under_mem (by decide +kernel) (by decide +kernel) under

theorem sameTree_edit {p : Nat} {f : ItemSet → ItemSet}
    (alike : ∀ q, t.file.Under t.rootONode q → Alike (t.file.node q) ((t.file.edit p f).node q)) :
    t.SameTree { t with file := t.file.edit p f } :=
  ⟨rfl, rfl, rfl, alike⟩

theorem twoLeaves_same : twoLeaves.SameTree staleLeaves := by
  have alike : ∀ p ∈ [306, 100, 203], Alike (twoLeaves.file.node p) (staleLeaves.file.node p) := by
    decide +kernel
  exact sameTree_edit fun p under => alike p (twoLeaves_under under)

/-- Dead slots matter to the search of a removal only: on one tree in two files add, remove and find end
alike exactly if no key to be removed is hidden by the slot after the last key of a node in one file and
not in the other. -/
theorem operations_agree_iff (t t' : OBtree) (h fuel : Nat) (k : Key) (d : Nat)
    (wellFormed : t.WellFormed h) (same : t.SameTree t') (enough : h < fuel) :
    Agree (t.add fuel k d) (t'.add fuel k d) ∧ Agree (t.remove fuel k) (t'.remove fuel k) ∧
      t'.find fuel k = t.find fuel k ↔
      t.SlotsAgree t' k := by
  have added : Agree (t.add fuel k d) (t'.add fuel k d) := by
    obtain ⟨t₁, t₁', run, run', same₁⟩ | ⟨run, run'⟩ := same.add wellFormed enough k d
    · rw [run, run']
      exact same₁
    · rw [run, run']
      exact rfl
  have found := same.find_eq wellFormed enough k
  rw [← same.remove_agree_iff wellFormed enough]
  exact ⟨fun all => all.2.1, fun removed => ⟨added, removed, found⟩⟩

theorem operations_agree_iff_first : twoLeaves.WellFormed 1 ∧ twoLeaves.SameTree staleLeaves ∧
    Agree (twoLeaves.add 3 1 20) (staleLeaves.add 3 1 20) ∧
      Agree (twoLeaves.remove 3 1) (staleLeaves.remove 3 1) ∧
      staleLeaves.find 3 1 = twoLeaves.find 3 1 := by
  have wellFormed : twoLeaves.WellFormed 1 := by decide +kernel
  refine ⟨wellFormed, twoLeaves_same, (operations_agree_iff twoLeaves staleLeaves 1 3 1 20 wellFormed
    twoLeaves_same (by decide)).mpr ?_⟩
  have slots : ∀ p ∈ [306, 100, 203], (twoLeaves.file.node p).rawKey (twoLeaves.file.node p).keyCount ≠
    some 1 := by
    decide +kernel
  have slots' : ∀ p ∈ [306, 100, 203], (staleLeaves.file.node p).rawKey
    (staleLeaves.file.node p).keyCount ≠ some 1 := by
    decide +kernel
  refine fun q d under own => iff_of_false ?_ ?_
  · rintro ⟨p, c, A, above, -, -, raw⟩
    exact slots p (twoLeaves_under above) raw
  · rintro ⟨p, c, A, above, -, -, raw⟩
    exact slots' p (twoLeaves_under ((twoLeaves_same.under_iff p).mp above)) raw

/-- A removal finds the first key of the second leaf, unless the slot after the key of the root has it
as well. -/
theorem operations_agree_iff_fails : twoLeaves.WellFormed 1 ∧ twoLeaves.SameTree staleLeaves ∧
    ¬ Agree (twoLeaves.remove 3 3) (staleLeaves.remove 3 3) := by
  have wellFormed : twoLeaves.WellFormed 1 := by decide +kernel
  refine ⟨wellFormed, twoLeaves_same, ?_⟩
  rw [twoLeaves_same.remove_agree_iff wellFormed (by decide)]
  have kids : (staleLeaves.file.node staleLeaves.rootONode).kids = [100] ++ [203] := by decide +kernel
  have isKid : 203 ∈ (twoLeaves.file.node twoLeaves.rootONode).kids := by decide +kernel
  have slots : ∀ p ∈ [306, 100, 203], (twoLeaves.file.node p).rawKey (twoLeaves.file.node p).keyCount ≠
    some 3 := by
    decide +kernel
  intro agree
  obtain ⟨p, c, A, above, -, -, raw⟩ := (agree 203 13 (.single isKid) (by decide +kernel)).mpr
    ⟨staleLeaves.rootONode, 203, [100], .refl, kids, .refl, by decide +kernel⟩
  exact slots p (twoLeaves_under above) raw

end OBtree

end MiyaCore
