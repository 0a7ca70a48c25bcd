import MiyaCore.Index.Underflow

/-!
# Deletion

A key is taken from a leaf: its own, or the last one below the first child of the node
that holds it, whose greatest key takes its place.
-/

namespace MiyaCore
open NodeFile ItemSet SearchTree

section Take
variable {s : IndexFile} {g : Nat → Option (Label Key)} {root height L : Nat} {lo : WithBot Key}
    {hi : WithTop Key} {X Y : List (Key × Nat)} {w : Key × Nat}

/-- An entry on its way out of a leaf. -/
theorem Indexed.take (indexed : Indexed s s.nodes g root height) (label : g L = some (0, lo, hi))
    (items : s.nodes.items L = X ++ w :: Y) :
    Emptying s (s.nodes.set L (X ++ Y) []) g root height L ∧
      ∀ x, Held (s.nodes.set L (X ++ Y) []) g x ↔ Held s.nodes g x ∧ x.1 ≠ w.1 := by
  have kids := indexed.labelled.kids_set_leaf label (X ++ Y)
  have spaced := indexed.labelled.spaced label
  rw [items] at spaced
  refine ⟨⟨indexed.labelled.set_leaf label spaced.drop_entry, indexed.inFile, indexed.counts,
    fun {p h lo hi} labelp notL => ?_, fun {q l c} labelq isKid => ?_, indexed.rootParent⟩, fun x => ?_⟩
  · simpa [notL] using indexed.filled labelp
  · rw [kids] at isKid
    exact indexed.parents labelq isKid
  · have own : w ∈ s.nodes.items L := by simp [items]
    have apart := (spaced_iff.mp spaced).1
    rw [List.pairwise_append, List.pairwise_cons] at apart
    constructor
    · rintro ⟨p, isLabelled, member⟩
      by_cases isL : p = L
      · simp only [isL, Nodes.set_items, if_true, List.mem_append] at member
        refine ⟨⟨L, by simp [label], ?_⟩, ?_⟩
        · rw [items, List.mem_append, List.mem_cons]
          tauto
        · rcases member with inX | inY
          · exact (apart.2.2 x inX w (by simp)).ne
          · exact (apart.2.1.1 x inY).ne'
      · simp only [Nodes.set_items, isL, if_false] at member
        obtain ⟨l, labelp⟩ := Option.isSome_iff_exists.mp isLabelled
        exact ⟨⟨p, isLabelled, member⟩, fun same => isL
          (indexed.labelled.holder_unique labelp label member own same)⟩
    · rintro ⟨⟨p, isLabelled, member⟩, different⟩
      refine ⟨p, isLabelled, ?_⟩
      by_cases isL : p = L
      · subst isL
        rw [items, List.mem_append, List.mem_cons] at member
        simp only [Nodes.set_items, if_true, List.mem_append]
        rcases member with inX | rfl | inY
        · exact Or.inl inX
        · exact absurd rfl different
        · exact Or.inr inY
      · simpa [isL] using member

/-- A leaf that lets an entry go. -/
theorem Emptying.release (emptying : Emptying s (s.nodes.set L X []) g root height L) {it : ItemSet}
    (has : it.Has X []) (parent : it.parent = (s.node L).parent) (small : X.length ≤ 3)
    (label : g L = some (0, lo, hi)) (some : X ≠ [] ∨ L = root) :
    Indexed (put s L it) (put s L it).nodes g root height := by
  have sameParent : ∀ p, ((put s L it).node p).parent = (s.node p).parent := by
    intro p
    by_cases isL : p = L <;> simp [isL, parent]
  rw [nodes_put has]
  refine ⟨emptying.labelled, emptying.inFile, fun {p l} labelp => ?_, fun {p h lo hi} labelp => ?_,
    fun labelq isKid => ?_, ?_⟩
  · by_cases isL : p = L
    · simpa [isL] using has.counts small
    · simpa [isL] using emptying.counts labelp
  · by_cases isL : p = L
    · subst isL
      obtain ⟨rfl, -⟩ := Prod.mk.inj (Option.some.inj (label.symm.trans labelp))
      simpa using some
    · exact emptying.filled labelp isL
  · rw [sameParent]
    exact emptying.parents labelq isKid
  · rw [sameParent]
    exact emptying.rootParent

/-- The leaf may lose a key. -/
def IndexFile.Spares (s : IndexFile) (leaf : Nat) : Prop :=
  2 ≤ (s.node leaf).keyCount ∨ (s.node leaf).parent = 0 ∨ s.Refills leaf

instance (s : IndexFile) (leaf : Nat) : Decidable (s.Spares leaf) := inferInstanceAs (Decidable (_ ∨ _ ∨ _))

/-- `remove` of a leaf. -/
theorem remove_leaf_run {k : Key} {i : Nat} (fuel : Nat) (found : (s.node L).findIndex k = some i)
    (leaf : (s.node L).kids = []) :
    (oNode.remove (fuel + 1) L k).run s =
      if 1 < (s.node L).keyCount ∨ (s.node L).parent = 0 then .ok (none, put s L ((s.node L).remove i))
      else (oNode.underflow (s.node L).parent L).run s := by
  have noChild : ¬ 1 ≤ (s.node L).childOptrCount := by simp [← ItemSet.length_kids, leaf]
  rw [NodeFile.remove, StateT.run_bind, run_read, ok_bind]
  simp only [found, noChild, if_false]
  by_cases many : 1 < (s.node L).keyCount
  · rw [if_pos many, if_pos (Or.inl many), StateT.run_bind, run_write, ok_bind, edit_eq_put]
    rfl
  rw [if_neg many, StateT.run_bind, run_atRoot, ok_bind]
  by_cases isRoot : (s.node L).parent = 0
  · simp only [isRoot, beq_self_eq_true, if_true, or_true]
    rw [StateT.run_bind, run_write, ok_bind, edit_eq_put]
    rfl
  · simp [isRoot, many]

theorem Emptying.remove_leaf (fuel : Nat) (emptying : Emptying s (s.nodes.set L (X ++ Y) []) g root height L)
    (items : s.nodes.items L = X ++ w :: Y) (leaf : s.nodes.kids L = []) (label : g L = some (0, lo, hi))
    (fresh : w.1 ∉ X.map Prod.fst) (spares : s.Spares L) :
    ∃ r s' g' h', (oNode.remove (fuel + 1) L w.1).run s = .ok (r, s') ∧
      Indexed s' s'.nodes g' (r.getD root) h' ∧
      ∀ x, Held s'.nodes g' x ↔ Held (s.nodes.set L (X ++ Y) []) g x := by
  have has := emptying.has label
  have size := emptying.items_le label
  rw [items, leaf] at has
  rw [items] at size
  have count := has.keyCount
  have found : (s.node L).findIndex w.1 = some X.length := by
    obtain ⟨⟨-, keys⟩, -⟩ := has_iff.mp has
    rw [List.map_append, List.map_cons] at keys
    have := findIndex_run (t := s.node L) (l := X.map Prod.fst) (r := Y.map Prod.fst)
      (by simp [count]; omega) (by omega) keys fresh
    simpa using this
  have out := has.erase size
  have letGo : X ++ Y ≠ [] ∨ L = root →
      Indexed (put s L ((s.node L).remove X.length))
      (put s L ((s.node L).remove X.length)).nodes g root height ∧
        ∀ x, Held (put s L ((s.node L).remove X.length)).nodes g x ↔ Held (s.nodes.set L (X ++ Y) []) g x := by
    intro some
    simp only [List.length_append, List.length_cons] at size
    have parent : ((s.node L).remove X.length).parent = (s.node L).parent := by
      rw [ItemSet.remove, ItemSet.moveDeleteDataOptr_parent, ItemSet.moveDeleteKey_parent]
    refine ⟨emptying.release out parent (by simp; omega) label some, fun x => ?_⟩
    rw [ItemSet.remove, nodes_put out]
  simp only [List.length_append, List.length_cons] at count
  rw [remove_leaf_run fuel found leaf]
  by_cases keeps : 1 < (s.node L).keyCount ∨ (s.node L).parent = 0
  · rw [if_pos keeps]
    obtain ⟨indexed, held⟩ := letGo <| keeps.imp (fun many none => by
      have := congrArg List.length none
      simp only [List.length_append, List.length_nil] at this
      omega) (emptying.parent_eq_zero label).mp
    exact ⟨none, _, g, height, rfl, indexed, held⟩
  rw [if_neg keeps]
  obtain ⟨few, notNull⟩ := not_or.mp keeps
  have refills : s.Refills L := (spares.resolve_left (by omega)).resolve_left notNull
  obtain ⟨rfl, rfl⟩ : X = [] ∧ Y = [] := ⟨List.length_eq_zero_iff.mp (by omega),
    List.length_eq_zero_iff.mp (by omega)⟩
  exact emptying.underflow_run leaf label (fun same => notNull
    ((emptying.parent_eq_zero label).mpr same)) count refills

end Take

section Inner
variable {s : IndexFile} {g : Nat → Option (Label Key)} {root height : Nat}

theorem subtreeMax_run {fuel p h : Nat} {lo : WithBot Key} {hi : WithTop Key} {M : Nat}
    (indexed : Indexed s s.nodes g root height) (label : g p = some (h, lo, hi))
    (last : LastLeaf s.nodes p M) (enough : h < fuel) : (oNode.subtreeMax fuel p).run s = .ok (M, s) := by
  induction fuel generalizing p h lo hi with
  | zero => omega
  | succ fuel ih =>
    have has := indexed.has label
    rw [subtreeMax, StateT.run_bind, run_read, ok_bind]
    cases last with
    | leaf kids =>
      rw [if_neg (by simp [has.childOptrCount, kids])]
      rfl
    | @last _ c _ A kids below =>
      obtain ⟨h', rfl, labelC⟩ := indexed.labelled.last_kid label kids
      have size := (indexed.labelled.inner label).length
      have small := indexed.items_le label
      rw [kids] at has size
      have count : (s.node p).childOptrCount = A.length + 1 := by simp [has.childOptrCount]
      have child : (s.node p).childOptr (((s.node p).childOptrCount - 1) % 65536) = some c := by
        simp only [List.length_append, List.length_singleton] at size
        rw [count, Nat.add_sub_cancel, Nat.mod_eq_of_lt (by omega), has.childOptr]
      rw [if_pos (show 1 ≤ (s.node p).childOptrCount by omega), StateT.run_bind, run_child, ok_bind,
        child, StateT.run_bind, run_deref, ok_bind]
      exact ih labelC below (by omega)

variable {q c M h : Nat} {lo : WithBot Key} {hi : WithTop Key} {k m : Key × Nat}
    {R l : List (Key × Nat)} {B : List Nat}

/-- The first entry of an inner node gives way to the greatest below its first child. -/
theorem Indexed.replace (indexed : Indexed s s.nodes g root height) (label : g q = some (h + 1, lo, hi))
    (items : s.nodes.items q = k :: R) (kids : s.nodes.kids q = c :: B) (last : LastLeaf s.nodes c M)
    (itemsM : s.nodes.items M = l ++ [m]) {s₁ : IndexFile}
    (put₁ : s₁ = put s q (((s.node q).setKey 0 m.1).setDataOptr 0 m.2)) :
    Emptying s₁ (s₁.nodes.set M l []) (fun p => (g p).map (rebound k.1 m.1)) root height M ∧
      (∀ x, Held (s₁.nodes.set M l []) (fun p => (g p).map (rebound k.1 m.1)) x ↔ Held s.nodes g x ∧
      x.1 ≠ k.1) ∧
      s₁.nodes.items M = l ++ [m] ∧ s₁.nodes.kids M = [] := by
  obtain ⟨labelled, held⟩ := indexed.labelled.replace label items kids last itemsM
  have inner := indexed.labelled.inner label
  rw [items, kids] at inner
  obtain ⟨a, labelM⟩ := last.label indexed.labelled inner.1
  have leafM := indexed.labelled.leaf labelM
  have Mq : M ≠ q := by
    rintro rfl
    simp [label] at labelM
  have has := indexed.has label
  have small := indexed.items_le label
  rw [items] at has small
  have has₁ : (((s.node q).setKey 0 m.1).setDataOptr 0 m.2).Has (m :: R) (s.nodes.kids q) :=
    Has.replace (X := []) has small m
  have nodes₁ : s₁.nodes = s.nodes.set q (m :: R) (s.nodes.kids q) := by rw [put₁, nodes_put has₁]
  have sameCounts : ∀ p, (s₁.node p).parent = (s.node p).parent ∧ (s₁.node p).keyCount = (s.node p).keyCount ∧
      (s₁.node p).dataOptrCount = (s.node p).dataOptrCount := by
    intro p
    by_cases isQ : p = q <;> simp [put₁, isQ]
  rw [leafM] at labelled held
  rw [← nodes₁] at labelled held
  have old : ∀ {p l'}, (g p).map (rebound k.1 m.1) = some l' → ∃ l, g p = some l ∧ l.1 = l'.1 := by
    intro p l' labelp
    obtain ⟨l, label, rfl⟩ := Option.map_eq_some_iff.mp labelp
    exact ⟨l, label, rfl⟩
  have kids₁ : ∀ p, (s₁.nodes.set M l []).kids p = s.nodes.kids p := by
    intro p
    rw [nodes₁]
    by_cases isM : p = M
    · simp [isM, leafM]
    · by_cases isQ : p = q <;> simp [isM, isQ, Mq.symm]
  refine ⟨⟨labelled, fun {p l'} labelp => ?_, fun {p l'} labelp => ?_,
    fun {p h' lo' hi'} labelp notM => ?_, fun {p l' d} labelp isKid => ?_, ?_⟩, held,
    by simp [nodes₁, Mq, itemsM], by simp [nodes₁, Mq, leafM]⟩
  · obtain ⟨l, labelp, -⟩ := old labelp
    rw [put₁]
    exact indexed.inFile labelp
  · obtain ⟨l, labelp, -⟩ := old labelp
    rw [(sameCounts p).2.1, (sameCounts p).2.2]
    exact indexed.counts labelp
  · obtain ⟨⟨h₀, a₀, b₀⟩, label₀, rfl⟩ := old labelp
    rw [Nodes.set_items, if_neg notM, nodes₁]
    by_cases isQ : p = q
    · simp [isQ]
    · simpa [isQ] using indexed.filled label₀
  · obtain ⟨l, labelp, -⟩ := old labelp
    rw [kids₁] at isKid
    rw [(sameCounts d).1]
    exact indexed.parents labelp isKid
  · rw [(sameCounts root).1]
    exact indexed.rootParent

theorem SameShape.spares {s₁ : IndexFile} (same : SameShape s s₁) (leaf : Nat) :
    s₁.Spares leaf ↔ s.Spares leaf := by
  have left : ∀ p i, s₁.leftOf p i = s.leftOf p i :=
    fun p i => by rw [IndexFile.leftOf, IndexFile.leftOf, same.childOptr]
  have right : ∀ p i, s₁.rightOf p i = s.rightOf p i := fun p i => same.childOptr p _
  simp only [IndexFile.Spares, IndexFile.Refills, IndexFile.JoinsLeft, IndexFile.index, same.keyCount,
    same.parent, same.place, same.lends, left, right, same.keysOf]

/-- The leaf from which the removal of a key of `q` takes one: `q`, or the last leaf below its first child. -/
inductive TakenFrom (s : IndexFile) (q : Nat) : Nat → Prop
  | own (leaf : (s.node q).kids = []) : TakenFrom s q q
  | last {c M : Nat} {B : List Nat} (kids : (s.node q).kids = c :: B) (last : LastLeaf s.nodes c M) :
  TakenFrom s q M

/-- The last leaf below the first child of an inner node, and the greatest entry there. -/
theorem Indexed.exists_greatest (indexed : Indexed s s.nodes g root height)
    (label : g q = some (h + 1, lo, hi)) (kids : s.nodes.kids q = c :: B) :
    ∃ M a b l m, LastLeaf s.nodes c M ∧ g M = some (0, a, b) ∧ M ≠ q ∧ s.nodes.items M = l ++ [m] := by
  obtain ⟨_, a', b', level, labelC⟩ := indexed.labelled.kid label (show c ∈ s.nodes.kids q by simp [kids])
  obtain rfl := Nat.succ.inj level
  obtain ⟨M, last⟩ := indexed.labelled.exists_lastLeaf labelC
  obtain ⟨a, labelM⟩ := last.label indexed.labelled labelC
  have notRoot : M ≠ root := by
    rintro rfl
    have top := indexed.labelled.top.symm.trans labelM
    have low := indexed.labelled.low label
    simp only [Option.some.injEq, Prod.mk.injEq] at top
    rcases low with rfl | below
    · simp [label] at labelM
    · omega
  have some := (indexed.filled labelM).resolve_right fun both => notRoot both.1
  obtain ⟨l, m, itemsM⟩ := (s.nodes.items M).eq_nil_or_concat.resolve_left some
  rw [List.concat_eq_append] at itemsM
  refine ⟨M, a, b', l, m, last, labelM, ?_, itemsM⟩
  rintro rfl
  simp [label] at labelM

/-- What a removal from an inner node does with the root that the removal from the leaf came up with. -/
def settle : Option Nat → NodeM IndexFile (Option Nat)
  | none => return none
  | some candidate => do
    let c ← oNode.read candidate
    if c.keyCount = 0 ∧ c.childOptrCount = 1 then
      if ← oNode.atRoot candidate then return some (← oNode.dropRoot candidate)
      return some candidate
    return some candidate

/-- `remove` of an inner node: a key gives way to the greatest below its first child, which is taken
from its leaf. -/
theorem remove_inner_run {fuel i : Nat} {x : Key} (found : (s.node q).findIndex x = some i)
    (inside : i < 3) (kids : (s.node q).kids = c :: B)
    (max : (oNode.subtreeMax fuel c).run s = .ok (M, s)) (Mq : M ≠ q)
    (hasM : (s.node M).Has (l ++ [m]) []) (smallM : (l ++ [m]).length ≤ 3) :
    (oNode.remove (fuel + 1) q x).run s =
      (oNode.remove fuel M m.1 >>= settle).run (put s q (((s.node q).setKey i m.1).setDataOptr i m.2)) := by
  have kidCount := (s.node q).length_kids
  have child : (s.node q).childOptr (0 % 65536) = some c := by
    rw [kids, List.length_cons] at kidCount
    rw [ItemSet.childOptr, if_neg (by omega)]
    rw [ItemSet.kids, ← kidCount, List.range_succ_eq_map, List.map_cons] at kids
    exact congrArg some (List.cons.inj kids).1
  have count : (s.node M).keyCount = l.length + 1 := by rw [hasM.keyCount]; simp
  have dataCount : (s.node M).dataOptrCount = l.length + 1 := by rw [hasM.datas]; simp
  have dec : dec16 (l.length + 1) = l.length := by
    simp only [List.length_append, List.length_singleton] at smallM
    rw [dec16]
    omega
  have key := hasM.rawKey (i := l.length) smallM (by simp)
  have data := hasM.dataOptr (i := l.length) (by simp)
  simp only [List.getElem_append_right, le_refl, Nat.sub_self, List.getElem_cons_zero] at key data
  have some : 1 ≤ (s.node q).childOptrCount := by
    rw [kids, List.length_cons] at kidCount
    omega
  rw [NodeFile.remove, StateT.run_bind, run_read, ok_bind]
  simp only [found]
  rw [if_pos some, StateT.run_bind, run_child, ok_bind, child, StateT.run_bind, run_deref, ok_bind,
    StateT.run_bind, max, ok_bind]
  rw [StateT.run_bind, run_read, ok_bind, StateT.run_bind, run_read, ok_bind, count, dec, key,
    StateT.run_bind, run_deref, ok_bind]
  rw [StateT.run_bind, run_write, ok_bind, edit_eq_put]
  set s₁ := put s q (((s.node q).setKey i m.1).setDataOptr i m.2) with put₁
  set s₂ := put s q ((s.node q).setKey i m.1) with put₂
  have nodeM : s₂.node M = s.node M := by simp [put₂, Mq]
  have nodeM₁ : s₁.node M = s.node M := by simp [put₁, Mq]
  have next : s₂.edit q (fun it => it.setDataOptr i m.2) = s₁ := by simp [edit_eq_put, put₁, put₂]
  rw [StateT.run_bind, run_read, ok_bind, StateT.run_bind, run_getData, ok_bind, nodeM, dataCount, dec,
    data, StateT.run_bind, run_putData _ _ _ _ inside, ok_bind, Option.getD_some, next]
  rw [StateT.run_bind, run_read, ok_bind, StateT.run_bind, run_read, ok_bind, nodeM₁, count, dec, key,
    StateT.run_bind, run_deref, ok_bind]
  rfl

/-- `remove` of the node that holds the key: in a leaf, or at the front of an inner node. -/
theorem Indexed.remove_run {fuel : Nat} {X Y : List (Key × Nat)}
    (indexed : Indexed s s.nodes g root height) (label : g q = some (h, lo, hi))
    (items : s.nodes.items q = X ++ k :: Y) (front : s.nodes.kids q = [] ∨ X = [])
    (spares : ∀ L, TakenFrom s q L → s.Spares L) (enough : h < fuel) :
    ∃ r s' g' h', (oNode.remove fuel q k.1).run s = .ok (r, s') ∧ Indexed s' s'.nodes g' (r.getD root) h' ∧
      ∀ x, Held s'.nodes g' x ↔ Held s.nodes g x ∧ x.1 ≠ k.1 := by
  obtain ⟨fuel, rfl⟩ : ∃ n, fuel = n + 1 := ⟨fuel - 1, by omega⟩
  have sorted := (spaced_iff.mp (indexed.labelled.spaced label)).1
  rw [items, List.pairwise_append] at sorted
  have fresh : k.1 ∉ X.map Prod.fst := by
    rintro member
    obtain ⟨x, inX, same⟩ := List.mem_map.mp member
    exact (sorted.2.2 x inX k (by simp)).ne same
  cases h with
  | zero =>
    have leaf := indexed.labelled.leaf label
    obtain ⟨emptying, held⟩ := indexed.take label items
    obtain ⟨r, s', g', h', run, indexed', held'⟩ :=
      emptying.remove_leaf fuel items leaf label fresh (spares q (.own leaf))
    exact ⟨r, s', g', h', run, indexed', fun x => (held' x).trans (held x)⟩
  | succ h =>
    have size := (indexed.labelled.inner label).length
    obtain rfl := front.resolve_left fun none => by simp [none] at size
    rw [List.nil_append] at items
    obtain ⟨c, B, kids⟩ := List.exists_cons_of_length_pos (show 0 < (s.nodes.kids q).length by omega)
    have inner := indexed.labelled.inner label
    rw [items, kids] at inner
    obtain ⟨M, _, _, l, m, last, labelM, Mq, itemsM⟩ := indexed.exists_greatest label kids
    obtain ⟨emptying, held, items₁, kids₁⟩ := indexed.replace label items kids last itemsM rfl
    set s₁ := put s q (((s.node q).setKey 0 m.1).setDataOptr 0 m.2) with put₁
    have sortedM := (spaced_iff.mp (indexed.labelled.spaced labelM)).1
    rw [itemsM, List.pairwise_append] at sortedM
    have freshM : m.1 ∉ l.map Prod.fst := by
      rintro member
      obtain ⟨x, inL, same⟩ := List.mem_map.mp member
      exact (sortedM.2.2 x inL m (by simp)).ne same
    have shape : SameShape s s₁ := by
      refine ⟨fun p => ?_, fun p => ?_, fun p => ?_, fun p => ?_⟩ <;> by_cases isQ :
        p = q <;> simp [put₁, isQ, setKey_eq]
    have spares₁ : s₁.Spares M := (shape.spares M).mpr (spares M (.last kids last))
    obtain ⟨fuel, rfl⟩ : ∃ n, fuel = n + 1 := ⟨fuel - 1, by omega⟩
    have emptying' : Emptying s₁ (s₁.nodes.set M (l ++ []) [])
      (fun p => (g p).map (rebound k.1 m.1)) root height M := by
      rwa [List.append_nil]
    have labelM₁ : (g M).map (rebound k.1 m.1) = Option.some _ := congrArg (Option.map _) labelM
    obtain ⟨r, s', g', h', run, indexed', held'⟩ :=
      emptying'.remove_leaf fuel items₁ kids₁ labelM₁ freshM spares₁
    rw [List.append_nil] at held'
    refine ⟨r, s', g', h', ?_, indexed', fun x => (held' x).trans (held x)⟩
    have has := indexed.has label
    have small := indexed.items_le label
    have hasM := indexed.has labelM
    have smallM := indexed.items_le labelM
    rw [items] at has small
    rw [itemsM, indexed.labelled.leaf labelM] at hasM
    rw [itemsM] at smallM
    have found : (s.node q).findIndex k.1 = Option.some 0 := by
      obtain ⟨⟨count, keys⟩, -⟩ := has_iff.mp has
      exact findIndex_run (l := []) (r := Y.map Prod.fst) (by simpa [Nat.add_comm] using count)
        (count.trans_le small) keys (by simp)
    have max := subtreeMax_run indexed inner.1 last (show h < fuel + 1 by omega)
    rw [remove_inner_run found (by decide) kids max Mq hasM smallM, StateT.run_bind, run, ok_bind]
    cases r with
    | none => rfl
    | some candidate =>
      -- a root without keys is a leaf
      have fine : ¬ ((s'.node candidate).keyCount = 0 ∧ (s'.node candidate).childOptrCount = 1) := by
        rintro ⟨none, one⟩
        have top := indexed'.labelled.top
        rcases indexed'.filled top with some | ⟨-, rfl⟩
        · rw [nodes_items, ← List.length_pos_iff, ItemSet.length_items] at some
          exact absurd none some.ne'
        · have noKids := congrArg List.length (indexed'.labelled.leaf top)
          rw [nodes_kids, ItemSet.length_kids] at noKids
          exact absurd (one.symm.trans noKids) (by simp)
      simp only [settle, StateT.run_bind, run_read, ok_bind, fine, if_false]
      rfl

end Inner

theorem scanRemove_skip {it : ItemSet} {k : Key} {i n : Nat} (rest : List Nat)
    (skipped : ∀ j, i ≤ j → j < i + n → ∃ r, it.rawKey j = some r ∧ r < k) :
    scanRemove it k (List.range' i n ++ rest) = scanRemove it k rest := by
  induction n generalizing i with
  | zero => simp
  | succ n ih =>
    obtain ⟨r, raw, less⟩ := skipped i le_rfl (by omega)
    rw [List.range'_succ, List.cons_append, scanRemove, raw]
    simp only [less.ne', less.not_gt, if_false]
    exact ih fun j from_ below => skipped j (by omega) (by omega)

/-- Where the scan of an inner node stops; past the last key it looks at the slot after it. -/
theorem scanRemove_eq {it : ItemSet} {X Y : List (Key × Nat)} {cs : List Nat} {k : Key}
    (has : it.Has (X ++ Y) cs) (size : (X ++ Y).length ≤ 3) (fits : cs.length = (X ++ Y).length + 1)
    (left : ∀ x ∈ X, x.1 < k) (right : ∀ y ∈ Y, k ≤ y.1) :
    scanRemove it k (List.range it.childOptrCount) =
      if it.rawKey X.length = some k then some none else some (some X.length) := by
  have count := has.keyCount
  have childCount : it.childOptrCount = X.length + (Y.length + 1) := by
    rw [has.childOptrCount, fits, List.length_append]
    omega
  have cut : List.range it.childOptrCount = List.range' 0 X.length ++ X.length :: List.range'
    (X.length + 1) Y.length := by
    rw [childCount, List.range_eq_range', ← List.range'_append_1, Nat.zero_add, List.range'_succ]
  rw [cut, scanRemove_skip]
  · cases Y with
    | nil =>
      simp only [List.append_nil] at count
      have last : it.childOptrCount - 1 = X.length := by simp [childCount]
      obtain ⟨r, raw⟩ : ∃ r, it.rawKey X.length = some r := by simp [ItemSet.rawKey, count]
      by_cases same : k = r
      · simp [scanRemove, raw, same]
      · simp [scanRemove, raw, same, Ne.symm same, last]
    | cons y Y =>
      have raw := has.rawKey size (i := X.length) (by simp)
      simp only [List.getElem_append_right, le_refl, Nat.sub_self, List.getElem_cons_zero] at raw
      rw [scanRemove, raw]
      by_cases same : k = y.1
      · simp [same]
      · simp [same, Ne.symm same, lt_of_le_of_ne (right y (by simp)) same]
  · intro j _ below
    rw [Nat.zero_add] at below
    refine ⟨_, has.rawKey size (i := j) (by simp; omega), ?_⟩
    rw [List.getElem_append_left below]
    exact left _ (List.getElem_mem below)

theorem findIndex_eq_none {it : ItemSet} {k : Key} (small : it.keyCount ≤ 3)
    (absent : ∀ x ∈ it.items, x.1 ≠ k) : it.findIndex k = none := by
  rw [findIndex, List.find?_eq_none]
  intro i member
  have below := List.mem_range.mp member
  rw [rawKey_eq (by omega) (by omega)]
  have := absent (it.keySlot i, it.dataSlot i)
    (List.mem_map_of_mem (f := fun i => (it.keySlot i, it.dataSlot i)) member)
  simpa using this

section Descent
variable {s : IndexFile} {g : Nat → Option (Label Key)} {root height : Nat}

/-- The search for a key ends at a node that holds it, at one with the key in the slot after its keys,
or at a leaf. -/
inductive SearchEnd (s : IndexFile) (g : Nat → Option (Label Key)) (k : Key) (q : Nat) : Prop
  | found {l : Label Key} {X Y : List (Key × Nat)} {d : Nat} (label : g q = some l)
      (items : s.nodes.items q = X ++ (k, d) :: Y)
  | misread {h : Nat} {lo : WithBot Key} {hi : WithTop Key} (label : g q = some (h + 1, lo, hi))
      (above : lastKey lo (s.nodes.items q) < (k : WithBot Key)) (below : (k : WithTop Key) < hi)
      (raw : (s.node q).rawKey (s.node q).keyCount = some k)
  | leaf {lo : WithBot Key} {hi : WithTop Key} (label : g q = some (0, lo, hi)) (above : lo < (k : WithBot Key))
      (below : (k : WithTop Key) < hi) (absent : ∀ x ∈ s.nodes.items q, x.1 ≠ k)

/-- One step of the descent from an inner node: where the keys before the search key end, it stops at a hit,
else it goes on to the child there. -/
theorem descendRemove_step {p h : Nat} {lo : WithBot Key} {hi : WithTop Key} {k : Key} (fuel : Nat)
    (indexed : Indexed s s.nodes g root height) (label : g p = some (h + 1, lo, hi))
    (above : lo < (k : WithBot Key)) (below : (k : WithTop Key) < hi) :
    ∃ X Y c, s.nodes.items p = X ++ Y ∧ (∀ y ∈ Y, k ≤ y.1) ∧
      g c = some (h, lastKey lo X, firstKey hi Y) ∧ lastKey lo X < (k : WithBot Key) ∧
      (oNode.descendRemove (fuel + 1) p k).run s =
        (if (s.node p).rawKey X.length = some k then .ok (p, s) else (oNode.descendRemove fuel c k).run s) ∧
      if (s.node p).rawKey X.length = some k then Y = [] ∨
      ∃ d R, Y = (k, d) :: R else (k : WithTop Key) < firstKey hi Y := by
  have has := indexed.has label
  obtain ⟨X, Y, items, left, right, above', below'⟩ := (indexed.labelled.spaced label).cut_at above below
  have inner := indexed.labelled.inner label
  have size := inner.length
  have small := indexed.items_le label
  rw [items] at inner has small size
  have sizes := size
  rw [List.length_append] at sizes
  obtain ⟨A, c, B, kids, lengthA⟩ := exists_place (show X.length < (s.nodes.kids p).length by omega)
  have labelC : g c = some (h, lastKey lo X, firstKey hi Y) := by
    rw [kids] at inner
    exact inner.kid_label lengthA
  have child : (s.node p).childOptr (X.length % 65536) = some c := by
    rw [kids] at has
    rw [List.length_append] at small
    rw [Nat.mod_eq_of_lt (by omega), ← lengthA, has.childOptr]
  have atKey : ∀ y R, Y = y :: R → (s.node p).rawKey X.length = some y.1 := by
    rintro y R rfl
    have raw := has.rawKey small (i := X.length) (by simp)
    simpa only [List.getElem_append_right, le_refl, Nat.sub_self, List.getElem_cons_zero] using raw
  refine ⟨X, Y, c, items, right, labelC, above', ?_, ?_⟩
  · have childCount : 1 ≤ (s.node p).childOptrCount := by rw [has.childOptrCount, size]; omega
    rw [descendRemove, StateT.run_bind, run_read, ok_bind, if_pos childCount,
      scanRemove_eq has small size left right]
    split_ifs with hit
    · rfl
    · simp only [StateT.run_bind, run_deref, ok_bind, run_child, child]
  · split_ifs with hit
    · cases Y with
      | nil => exact Or.inl rfl
      | cons y Y =>
        obtain rfl : y.1 = k := Option.some.inj ((atKey y Y rfl).symm.trans hit)
        exact Or.inr ⟨y.2, Y, rfl⟩
    · refine below'.lt_of_ne ?_
      cases Y with
      | nil => exact below.ne
      | cons y Y =>
        intro same
        exact hit ((atKey y Y rfl).trans (congrArg some (WithTop.coe_injective same).symm))

theorem descendRemove_run {fuel p h : Nat} {lo : WithBot Key} {hi : WithTop Key} {k : Key}
    (indexed : Indexed s s.nodes g root height) (label : g p = some (h, lo, hi))
    (above : lo < (k : WithBot Key)) (below : (k : WithTop Key) < hi) (enough : h < fuel) :
    ∃ q, (oNode.descendRemove fuel p k).run s = .ok (q, s) ∧ SearchEnd s g k q := by
  induction fuel generalizing p h lo hi with
  | zero => omega
  | succ fuel ih =>
    cases h with
    | zero =>
      have has := indexed.has label
      rw [descendRemove, StateT.run_bind, run_read, ok_bind,
        if_neg (by simp [has.childOptrCount, indexed.labelled.leaf label])]
      refine ⟨p, rfl, ?_⟩
      by_cases hit : ∃ d, (k, d) ∈ s.nodes.items p
      · obtain ⟨d, member⟩ := hit
        obtain ⟨X, Y, items⟩ := List.append_of_mem member
        exact .found label items
      · refine .leaf label above below fun x member same => hit ⟨x.2, ?_⟩
        rwa [← same]
    | succ h =>
      obtain ⟨X, Y, c, items, -, labelC, above', run, ends⟩ := descendRemove_step fuel indexed label above below
      rw [run]
      split_ifs at ends ⊢ with hit
      · refine ⟨p, rfl, ?_⟩
        rcases ends with rfl | ⟨d, R, rfl⟩
        · have count := (indexed.has label).keyCount
          rw [List.append_nil] at items
          rw [items] at count
          refine .misread label ?_ below ?_
          · rwa [items]
          · rwa [count]
        · exact .found label items
      · exact ih labelC above' ends (by omega)

/-- A node on the way with the key in the slot after its keys ends the search for a key below its last child. -/
theorem descendRemove_misread {fuel p h : Nat} {lo : WithBot Key} {hi : WithTop Key} {k : Key}
    (indexed : Indexed s s.nodes g root height) (label : g p = some (h, lo, hi))
    (above : lo < (k : WithBot Key)) (below : (k : WithTop Key) < hi) (enough : h < fuel) {u j : Nat}
    {lo' : WithBot Key} {hi' : WithTop Key} (labelU : g u = some (j + 1, lo', hi')) (low : j + 1 ≤ h)
    (above' : lastKey lo' (s.nodes.items u) < (k : WithBot Key)) (below' : (k : WithTop Key) < hi')
    (raw : (s.node u).rawKey (s.node u).keyCount = some k) :
    ∃ q l, (oNode.descendRemove fuel p k).run s = .ok (q, s) ∧ g q = some l ∧ ∀ x ∈ s.nodes.items q,
      x.1 ≠ k := by
  have spaced := indexed.labelled.spaced labelU
  have inU : lo' < (k : WithBot Key) ∧ (k : WithTop Key) < hi' :=
    ⟨(Spaced.lo_le_lastKey (Y := []) (by simpa using spaced)).trans_lt above', below'⟩
  induction fuel generalizing p h lo hi with
  | zero => omega
  | succ fuel ih =>
    obtain ⟨h, rfl⟩ : ∃ n, h = n + 1 := ⟨h - 1, by omega⟩
    obtain ⟨X, Y, c, items, right, labelC, aboveC, run, ends⟩ :=
      descendRemove_step fuel indexed label above below
    rw [run]
    split_ifs at ends ⊢ with hit
    · refine ⟨p, _, rfl, label, fun x member same => ?_⟩
      have higher := indexed.labelled.height_le label member labelU (by rwa [same])
      obtain rfl : h = j := by omega
      obtain rfl := indexed.labelled.eq_of_height label labelU ⟨above, below⟩ inU
      have last := Spaced.mem_le_lastKey (Y := []) (by simpa using spaced) member
      rw [same] at last
      exact last.not_gt above'
    · refine ih labelC aboveC ends (by omega) ?_
      by_contra higher
      obtain rfl : h = j := by omega
      obtain rfl := indexed.labelled.eq_of_height label labelU ⟨above, below⟩ inU
      -- no key of the node is past the search key, so the slot that is compared is the one after its keys
      have none : Y = [] := by
        refine List.eq_nil_iff_forall_not_mem.mpr fun y member => ?_
        have last := Spaced.mem_le_lastKey (x := y) (Y := []) (by simpa using spaced)
          (by rw [items]; exact List.mem_append_right X member)
        exact (last.trans_lt above').not_ge (WithBot.coe_le_coe.mpr (right y member))
      have count := (indexed.has label).keyCount
      rw [items, none, List.append_nil] at count
      exact hit (by rwa [← count])

end Descent

section Under
variable {s : IndexFile} {g : Nat → Option (Label Key)} {root height : Nat}

/-- `q` is `p` or below it. -/
def IndexFile.Under (s : IndexFile) : Nat → Nat → Prop := Relation.ReflTransGen fun p c => c ∈ (s.node p).kids

theorem Indexed.under_label (indexed : Indexed s s.nodes g root height) {p q : Nat} {l : Label Key}
    (label : g p = some l) (under : s.Under p q) : ∃ l, g q = some l := by
  induction under with
  | refl => exact ⟨l, label⟩
  | tail _ isKid ih =>
    obtain ⟨l', labelU⟩ := ih
    obtain ⟨h, a, b, -, labelC⟩ := indexed.labelled.kid labelU isKid
    exact ⟨_, labelC⟩

theorem Indexed.label_under (indexed : Indexed s s.nodes g root height) {p h : Nat} {lo : WithBot Key}
    {hi : WithTop Key} (label : g p = some (h, lo, hi)) : s.Under root p := by
  -- the distance to the root decreases on the way up
  induction n : height - h generalizing p h lo hi with
  | zero =>
    rcases indexed.labelled.low label with rfl | below
    · exact .refl
    · omega
  | succ n ih =>
    by_cases isRoot : p = root
    · rw [isRoot]
      exact .refl
    obtain ⟨u, lo', hi', X, Y, A, B, labelU, -, kids, -⟩ := indexed.labelled.above label isRoot
    exact (ih labelU (by omega)).tail (show p ∈ (s.node u).kids by rw [← nodes_kids, kids]; simp)

theorem Indexed.under_of_mem (indexed : Indexed s s.nodes g root height) {p h : Nat} {lo : WithBot Key}
    {hi : WithTop Key} (label : g p = some (h, lo, hi)) {x : Key × Nat}
    (member : x ∈ inorder s.nodes h p) : ∃ q, s.Under p q ∧ x ∈ s.nodes.items q := by
  induction h generalizing p lo hi with
  | zero => exact ⟨p, .refl, member⟩
  | succ h ih =>
    rcases (indexed.labelled.mem_inorder_succ label x).mp member with own | ⟨c, isKid, inKid⟩
    · exact ⟨p, .refl, own⟩
    · obtain ⟨a, b, labelC⟩ := (indexed.labelled.inner label).label_of_mem isKid
      obtain ⟨q, under, own⟩ := ih labelC inKid
      exact ⟨q, .head isKid under, own⟩

theorem Indexed.mem_of_under (indexed : Indexed s s.nodes g root height) {p q h : Nat}
    {lo : WithBot Key} {hi : WithTop Key} (label : g p = some (h, lo, hi)) (under : s.Under p q)
    {x : Key × Nat} (member : x ∈ s.nodes.items q) : x ∈ inorder s.nodes h p := by
  induction under using Relation.ReflTransGen.head_induction_on generalizing h lo hi with
  | refl =>
    cases h with
    | zero => exact member
    | succ h => exact (indexed.labelled.mem_inorder_succ label x).mpr (Or.inl member)
  | head isKid _ ih =>
    obtain ⟨h, a, b, rfl, labelC⟩ := indexed.labelled.kid label isKid
    exact (indexed.labelled.mem_inorder_succ label x).mpr (Or.inr ⟨_, isKid, ih labelC⟩)

end Under

namespace OBtree

/-- The node `q`, which holds `k`, can give it up: no node with `q` below its last child has `k` in the
slot after its keys, `k` is in a leaf or at the front of its node, and the leaf that loses a key may
lose it. -/
structure GivesUp (t : OBtree) (k : Key) (q : Nat) : Prop where
  unread : ∀ p c A, t.file.Under t.rootONode p → (t.file.node p).kids = A ++ [c] → t.file.Under c q →
    (t.file.node p).rawKey (t.file.node p).keyCount ≠ some k
  front : (t.file.node q).kids = [] ∨ (t.file.node q).keySlot 0 = k
  spares : ∀ L, TakenFrom t.file q L → t.file.Spares L

/-- The key is not in the tree, or its node can give it up. -/
def Removable (t : OBtree) (k : Key) : Prop :=
  ∀ q d, t.file.Under t.rootONode q → (k, d) ∈ (t.file.node q).items → t.GivesUp k q

/-- `remove` returns a well-formed tree with the old pairs but that of `k`. -/
def Deletes (t : OBtree) (h fuel : Nat) (k : Key) : Prop :=
  ∃ t' h', t.remove fuel k = .ok t' ∧ t'.WellFormed h' ∧ t'.pairs h' = (t.pairs h).filter (·.1 ≠ k)

/-- A node without the key is left as it is. -/
theorem remove_idle {t : OBtree} {fuel q : Nat} {k : Key}
    (descend : (oNode.descendRemove (fuel + 1) t.rootONode k).run t.file = .ok (q, t.file))
    (small : (t.file.node q).keyCount ≤ 3) (absent : ∀ x ∈ (t.file.node q).items, x.1 ≠ k) :
    t.remove (fuel + 1) k = .ok t := by
  have none := findIndex_eq_none small absent
  have run : (oNode.remove (fuel + 1) q k).run t.file = .ok (Option.none, t.file) := by
    rw [NodeFile.remove, StateT.run_bind, run_read, ok_bind]
    simp only [none]
    rfl
  rw [OBtree.remove, removeKey, StateT.run_bind, descend, ok_bind, StateT.run_bind, run, ok_bind]
  rfl

section Removal
variable {t : OBtree} {h fuel : Nat} {k : Key} {g : Nat → Option (Label Key)}

/-- A key in the bounds of a node's last child is in a node below that. -/
theorem misread_under {q h' : Nat} {lo : WithBot Key} {hi : WithTop Key}
    (indexed : Indexed t.file t.file.nodes g t.rootONode h) (label : g q = some (h' + 1, lo, hi))
    (above : lastKey lo (t.file.nodes.items q) < (k : WithBot Key)) (below : (k : WithTop Key) < hi)
    {x : Key × Nat} (held : Held t.file.nodes g x) (same : x.1 = k) :
    ∃ A c q', (t.file.node q).kids = A ++ [c] ∧ t.file.Under c q' ∧ x ∈ (t.file.node q').items := by
  have size := (indexed.labelled.inner label).length
  obtain ⟨A, c, kids⟩ := (t.file.nodes.kids q).eq_nil_or_concat.resolve_left fun none => by simp [none] at size
  rw [List.concat_eq_append] at kids
  obtain ⟨_, level, labelC⟩ := indexed.labelled.last_kid label kids
  obtain rfl := Nat.succ.inj level
  have inside := (indexed.labelled.mem_inorder_iff_bounds labelC x).mpr ⟨held, same ▸ above, same ▸ below⟩
  obtain ⟨q', under, own⟩ := indexed.under_of_mem labelC inside
  exact ⟨A, c, q', kids, under, own⟩

theorem deletes_of_absent (wellFormed : t.WellFormed h) (absent : ∀ x ∈ t.pairs h, x.1 ≠ k)
    (run : t.remove fuel k = .ok t) : t.Deletes h fuel k := by
  refine ⟨t, h, run, wellFormed, ?_⟩
  rw [List.filter_eq_self.mpr]
  intro x member
  simpa using absent x member

theorem deletes_of_removable (wellFormed : t.WellFormed h) (enough : h < fuel)
    (removable : t.Removable k) : t.Deletes h fuel k := by
  obtain ⟨g, indexed⟩ := wellFormed_iff.mp wellFormed
  obtain ⟨fuel, rfl⟩ : ∃ n, fuel = n + 1 := ⟨fuel - 1, by omega⟩
  obtain ⟨q, descend, searchEnd⟩ := descendRemove_run (k := k) indexed indexed.labelled.top
    (WithBot.bot_lt_coe k) (WithTop.coe_lt_top k) enough
  -- a search that ends without the key left it out of the tree
  have idle : ∀ {l : Label Key}, g q = some l → (∀ x, Held t.file.nodes g x → x.1 ≠ k) →
    t.Deletes h (fuel + 1) k := by
    intro l label absent
    refine deletes_of_absent wellFormed (fun x member => absent x ((mem_pairs indexed x).mp member))
      (remove_idle descend (indexed.counts label).2 ?_)
    exact fun x own => absent x ⟨q, by simp [label], own⟩
  cases searchEnd with
  | @found l X Y d label items =>
    obtain ⟨h', lo, hi⟩ := l
    have member : (k, d) ∈ (t.file.node q).items := by rw [← nodes_items, items]; simp
    obtain ⟨-, front, spares⟩ := removable q d (indexed.label_under label) member
    have low : h' < fuel + 1 := by
      rcases indexed.labelled.low label with rfl | below
      · obtain ⟨rfl, -⟩ := Prod.mk.inj (Option.some.inj (label.symm.trans indexed.labelled.top))
        exact enough
      · omega
    have first : t.file.nodes.kids q = [] ∨ X = [] := by
      refine front.imp id fun same => ?_
      by_contra some
      obtain ⟨x, X, rfl⟩ := List.exists_cons_of_ne_nil some
      have sorted := (spaced_iff.mp (indexed.labelled.spaced label)).1
      rw [items, List.cons_append, List.pairwise_cons] at sorted
      have raw := (indexed.has label).rawKey (indexed.items_le label) (i := 0) (by simp [items])
      have count := (indexed.has label).keyCount
      rw [rawKey_eq (by simp) (by omega), same] at raw
      have := sorted.1 (k, d) (by simp)
      simp [items] at raw
      exact this.ne raw.symm
    obtain ⟨r, s', g', h'', run, indexed', held⟩ :=
      indexed.remove_run (k := (k, d)) label items first spares low
    refine ⟨⟨s', r.getD t.rootONode⟩, h'', ?_, wellFormed_iff.mpr ⟨g', indexed'⟩, ?_⟩
    · rw [OBtree.remove, removeKey, StateT.run_bind, descend, ok_bind, StateT.run_bind, run, ok_bind]
      cases r <;> rfl
    · refine eq_of_mem_iff (wellFormed_iff.mpr ⟨g', indexed'⟩ : WellFormed
        ⟨s', r.getD t.rootONode⟩ h'').sorted (wellFormed.sorted.filter _) fun x => ?_
      rw [List.mem_filter, mem_pairs indexed, mem_pairs (t := ⟨s', r.getD t.rootONode⟩) indexed', held x]
      simp
  | misread label above below raw =>
    refine idle label fun x held same => ?_
    obtain ⟨A, c, q', kids, under, own⟩ := misread_under indexed label above below held same
    have whole : t.file.Under t.rootONode q' :=
      (indexed.label_under label).trans (.head (by rw [kids]; simp) under)
    obtain ⟨unread, -, -⟩ := removable q' x.2 whole (by rwa [← same])
    exact unread q c A (indexed.label_under label) kids under raw
  | leaf label above below absent =>
    refine idle label fun x held same => ?_
    exact absent x ((indexed.labelled.mem_inorder_iff_bounds label x).mpr
      ⟨held, same ▸ above, same ▸ below⟩) same

end Removal

/-- Six keys added in order: the root has two keys, and leaves with one, one and two keys. -/
def sixKeys : OBtree :=
  ([.add 1 11, .add 2 12, .add 3 13, .add 4 14, .add 5 15, .add 6 16] : List Op).foldl (OBtree.after 3)
  (openFile {})

theorem under_mem {t : OBtree} {p q : Nat} {T : List Nat}
    (closed : ∀ p ∈ T, ∀ c ∈ (t.file.node p).kids, c ∈ T) (inT : p ∈ T) (under : t.file.Under p q) : q ∈ T := by
  induction under with
  | refl => exact inT
  | tail _ isKid ih => exact closed _ ih _ isKid

theorem twoLeaves_removable : twoLeaves.Removable 1 := by
  have closed : ∀ p ∈ [306, 100, 203], ∀ c ∈ (twoLeaves.file.node p).kids, c ∈ [306, 100, 203] := by
    decide +kernel
  intro q d under member
  have inT : q ∈ [306, 100, 203] := under_mem closed (by decide +kernel) under
  have isFirst : q = 100 := by
    have holder : ∀ p ∈ [306, 100, 203], (1 : Key) ∈ (twoLeaves.file.node p).items.map Prod.fst → p = 100 := by
      decide +kernel
    exact holder q inT (List.mem_map_of_mem (f := Prod.fst) member)
  subst isFirst
  refine ⟨fun p c A fromRoot kids _ => ?_, Or.inl (by decide +kernel), fun L taken => ?_⟩
  · have slots : ∀ p ∈ [306, 100, 203], (twoLeaves.file.node p).rawKey
      (twoLeaves.file.node p).keyCount ≠ some 1 := by decide +kernel
    exact slots p (under_mem closed (by decide +kernel) fromRoot)
  · have noKids : (twoLeaves.file.node 100).kids = [] := by decide +kernel
    cases taken with
    | own _ => decide +kernel
    | last kids _ => simp [noKids] at kids

/-- Deletion refines deletion from a list: the removal of a key that is absent, or that its node can
give up, returns a well-formed tree with the old pairs but that of the key. -/
theorem remove_refines_deletion (t : OBtree) (h fuel : Nat) (k : Key) (wellFormed : t.WellFormed h)
    (enough : h < fuel) (removable : t.Removable k) : t.Deletes h fuel k :=
  deletes_of_removable wellFormed enough removable

theorem remove_refines_deletion_lent : twoLeaves.WellFormed 1 ∧ twoLeaves.Deletes 1 3 1 := by
  have wellFormed : twoLeaves.WellFormed 1 := by decide +kernel
  exact ⟨wellFormed, remove_refines_deletion twoLeaves 1 3 1 wellFormed (by decide) twoLeaves_removable⟩

/-- The first of three leaves below one root is joined to the next, and the root keeps a data pointer
too many. -/
theorem remove_refines_deletion_fails : sixKeys.WellFormed 1 ∧ ¬ sixKeys.Deletes 1 3 1 := by
  refine ⟨by decide +kernel, ?_⟩
  rintro ⟨t', h', run, wellFormed, -⟩
  have counts : (sixKeys.remove 3 1).toOption.map
    (fun t => ((t.file.node t.rootONode).keyCount, (t.file.node t.rootONode).dataOptrCount)) =
      some (1, 2) := by decide +kernel
  rw [run] at counts
  simp only [Except.toOption, Option.map_some, Option.some.injEq, Prod.mk.injEq] at counts
  have same := wellFormed.built.local.2.2.2.1
  omega

end OBtree

end MiyaCore
