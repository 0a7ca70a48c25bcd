import MiyaCore.Index.LiveSlots
import MiyaCore.Index.Lookup
import MiyaCore.Index.Deletion

/-!
# One tree in two files

Two files with one tree agree below the counts of its nodes. What they hold in other slots and
in other nodes is open.
-/

namespace MiyaCore
open NodeFile ItemSet SearchTree

/-- Two files that agree on nodes below which there are no others. -/
structure AlikeOn (A : Nat → Prop) (s s' : IndexFile) : Prop where
  head : s'.head = s.head
  top : s'.top = s.top
  alike : ∀ p, A p → Alike (s.node p) (s'.node p)
  closed : ∀ p, A p → ∀ c ∈ (s.node p).kids, A c

namespace AlikeOn
variable {A : Nat → Prop} {s s' s₁ s₁' : IndexFile}

theorem items {p : Nat} (alike : AlikeOn A s s') (inA : A p)
    (even : (s.node p).dataOptrCount = (s.node p).keyCount) :
    s'.nodes.items p = s.nodes.items p := (alike.alike p inA).items even

theorem kids {p : Nat} (alike : AlikeOn A s s') (inA : A p) : s'.nodes.kids p = s.nodes.kids p :=
  (alike.alike p inA).kids

/-- A step that touches a few nodes alike. -/
theorem step {touched : List Nat} (alike : AlikeOn A s s') (but : SameBut s s₁ touched)
    (but' : SameBut s' s₁' touched) (each : ∀ q ∈ touched, A q → Alike (s₁.node q) (s₁'.node q) ∧
    ∀ c ∈ (s₁.node q).kids, A c) : AlikeOn A s₁ s₁' := by
  obtain ⟨same, top, head⟩ := but
  obtain ⟨same', top', head'⟩ := but'
  refine ⟨by rw [head, head', alike.head], by rw [top, top', alike.top], fun p inA => ?_, fun p inA => ?_⟩
  · by_cases touch : p ∈ touched
    · exact (each p touch inA).1
    · rw [same p touch, same' p touch]
      exact alike.alike p inA
  · by_cases touch : p ∈ touched
    · exact (each p touch inA).2
    · rw [same p touch]
      exact alike.closed p inA

theorem under {p q : Nat} (alike : AlikeOn A s s') (inA : A p) (under : s.Under p q) : A q ∧ s'.Under p q := by
  induction under with
  | refl => exact ⟨inA, .refl⟩
  | tail _ isKid ih =>
    refine ⟨alike.closed _ ih.1 _ isKid, ih.2.tail ?_⟩
    rwa [(alike.alike _ ih.1).kids]

theorem under_of {p q : Nat} (alike : AlikeOn A s s') (inA : A p) (under : s'.Under p q) : s.Under p q := by
  suffices A q ∧ s.Under p q from this.2
  induction under with
  | refl => exact ⟨inA, .refl⟩
  | tail _ isKid ih =>
    rw [(alike.alike _ ih.1).kids] at isKid
    exact ⟨alike.closed _ ih.1 _ isKid, ih.2.tail isKid⟩

end AlikeOn

/-- Labels describe the tree in either file. -/
theorem Indexed.congr {s s' : IndexFile} {g : Nat → Option (Label Key)} {root height : Nat}
    (indexed : Indexed s s.nodes g root height) (alike : AlikeOn (fun p => (g p).isSome) s s') :
    Indexed s' s'.nodes g root height := by
  have node : ∀ {p l}, g p = some l → Alike (s.node p) (s'.node p) :=
    fun {p l} label => alike.alike p (by simp [label])
  have items : ∀ {p l}, g p = some l → s'.nodes.items p = s.nodes.items p :=
    fun label => (node label).items (indexed.counts label).1
  have kids : ∀ {p l}, g p = some l → s'.nodes.kids p = s.nodes.kids p := fun label => (node label).kids
  refine ⟨⟨indexed.labelled.top, fun {p h lo hi} label => ?_, fun {p lo hi} label => ?_,
    fun {p h lo hi} label => ?_, indexed.labelled.low, fun {p l} label => ?_⟩, fun {p l} label => ?_,
    fun {p l} label => ?_, fun {p h lo hi} label => ?_, fun {q l c} label isKid => ?_, ?_⟩
  · rw [items label]
    exact indexed.labelled.spaced label
  · rw [kids label]
    exact indexed.labelled.leaf label
  · rw [items label, kids label]
    exact indexed.labelled.inner label
  · refine (indexed.labelled.up label).imp id ?_
    rintro ⟨q, l', labelQ, isKid⟩
    exact ⟨q, l', labelQ, by rwa [kids labelQ]⟩
  · rw [alike.top]
    exact indexed.inFile label
  · rw [(node label).dataOptrCount, (node label).keyCount]
    exact indexed.counts label
  · rw [items label]
    exact indexed.filled label
  · rw [kids label] at isKid
    obtain ⟨h, a, b, -, labelC⟩ := indexed.labelled.kid (show g q = some (l.1, l.2.1, l.2.2) from label) isKid
    rw [(node labelC).parent]
    exact indexed.parents label isKid
  · rw [(node indexed.labelled.top).parent]
    exact indexed.rootParent

namespace OBtree

/-- The two files hold one tree: root, meta area and length are the same, and the nodes of the
tree agree below their counts. -/
structure SameTree (t t' : OBtree) : Prop where
  root : t'.rootONode = t.rootONode
  head : t'.file.head = t.file.head
  top : t'.file.top = t.file.top
  alike : ∀ p, t.file.Under t.rootONode p → Alike (t.file.node p) (t'.file.node p)

variable {t t' : OBtree} {h fuel : Nat} {g : Nat → Option (Label Key)}

theorem SameTree.alikeOn (same : t.SameTree t') (indexed : Indexed t.file t.file.nodes g t.rootONode h) :
    AlikeOn (fun p => (g p).isSome) t.file t'.file := by
  refine ⟨same.head, same.top, fun p labelled => ?_, fun p labelled c isKid => ?_⟩
  · obtain ⟨⟨h, lo, hi⟩, label⟩ := Option.isSome_iff_exists.mp labelled
    exact same.alike p (indexed.label_under label)
  · obtain ⟨⟨h, lo, hi⟩, label⟩ := Option.isSome_iff_exists.mp labelled
    obtain ⟨h', a, b, -, labelC⟩ := indexed.labelled.kid label isKid
    simp [labelC]

theorem sameTree_of_alikeOn {A : Nat → Prop} (alike : AlikeOn A t.file t'.file)
    (root : t'.rootONode = t.rootONode) (inA : A t.rootONode) :
    t.SameTree t' :=
  ⟨root, alike.head, alike.top, fun p under => alike.alike p (alike.under inA under).1⟩

theorem SameTree.alikeOn_under (same : t.SameTree t') : AlikeOn (t.file.Under t.rootONode) t.file t'.file :=
  ⟨same.head, same.top, same.alike, fun _ under _ isKid => under.tail isKid⟩

/-- A node of one tree is a node of the other. -/
theorem SameTree.under_iff (same : t.SameTree t') (p : Nat) :
    t'.file.Under t'.rootONode p ↔ t.file.Under t.rootONode p := by
  rw [same.root]
  exact ⟨same.alikeOn_under.under_of .refl, fun under => (same.alikeOn_under.under .refl under).2⟩

theorem level_congr (indexed : Indexed t.file t.file.nodes g t.rootONode h)
    (alike : AlikeOn (fun p => (g p).isSome) t.file t'.file) (j : Nat) {p : Nat} {l : Label Key}
    (label : g p = some l) : level t'.file.nodes j p = level t.file.nodes j p := by
  have inA : (g p).isSome := by simp [label]
  induction j generalizing p l with
  | zero => exact alike.items inA (indexed.counts label).1
  | succ j ih =>
    simp only [level, alike.kids inA]
    refine List.flatMap_congr fun c isKid => ?_
    obtain ⟨h', a, b, -, labelC⟩ := indexed.labelled.kid (show g p = some (l.1, l.2.1, l.2.2) from label) isKid
    exact ih labelC (by simp [labelC])

/-- A lookup finds the same in both files. -/
theorem SameTree.find_eq (same : t.SameTree t') (wellFormed : t.WellFormed h) (enough : h < fuel)
    (k : Key) : t'.find fuel k = t.find fuel k := by
  obtain ⟨g, indexed⟩ := wellFormed_iff.mp wellFormed
  have alike := same.alikeOn indexed
  have indexed' := indexed.congr alike
  rw [← same.root] at indexed'
  have levels : t'.byLevel h = t.byLevel h := by
    simp only [byLevel, SearchTree.byLevel, same.root]
    exact List.flatMap_congr fun j _ => level_congr indexed alike j indexed.labelled.top
  rw [find_run wellFormed enough, find_run (wellFormed_iff.mpr ⟨g, indexed'⟩) enough, levels]

end OBtree

end MiyaCore
