import MiyaCore.Index.Slots
import MiyaCore.SearchTree.Splits

namespace MiyaCore
open SearchTree

/-- A file whose nodes carry labels, over entries and children `V` that may differ from
what the file holds in a node that is being changed. -/
structure Indexed (s : IndexFile) (V : Nodes Nat Key Nat) (g : Nat → Option (Label Key))
    (root height : Nat) : Prop where
  labelled : Labelled V g root height
  inFile : ∀ {p l}, g p = some l → 0 < p ∧ p < s.top
  counts : ∀ {p l}, g p = some l → (s.node p).dataOptrCount = (s.node p).keyCount ∧ (s.node p).keyCount ≤ 3
  filled : ∀ {p h lo hi}, g p = some (h, lo, hi) → V.items p ≠ [] ∨ p = root ∧ h = 0
  parents : ∀ {q l c}, g q = some l → c ∈ V.kids q → (s.node c).parent = q
  rootParent : (s.node root).parent = 0

theorem nodes_items (s : IndexFile) (p : Nat) : s.nodes.items p = (s.node p).items := rfl

theorem nodes_kids (s : IndexFile) (p : Nat) : s.nodes.kids p = (s.node p).kids := rfl

theorem items_ne_nil {s : IndexFile} {p : Nat} (some : 1 ≤ (s.node p).keyCount) : s.nodes.items p ≠ [] := by
  intro none
  have count := (s.node p).length_items
  rw [← nodes_items, none] at count
  simp at count
  omega

/-- A tree is well formed exactly if its nodes can be labelled. -/
theorem wellFormed_iff {t : OBtree} {h : Nat} :
    t.WellFormed h ↔ ∃ g, Indexed t.file t.file.nodes g t.rootONode h := by
  constructor
  · intro wellFormed
    obtain ⟨g, labelled, own, kids⟩ := wellFormed.built.exists_labels (f := fun p => (t.file.node p).parent)
      wellFormed.sorted (fun h q p ok => ok.2.2.1) (fun h q p ok => ok.1.ne')
      (fun h q p ok up => items_ne_nil (ok.2.2.2.2.2.resolve_right fun isRoot => up isRoot.1))
    refine ⟨g, labelled, fun {p l} label => ?_, fun {p l} label => ?_, fun {p h lo hi} label => ?_,
      fun {q l c} label isKid => ?_, wellFormed.built.local.2.2.1⟩
    · obtain ⟨q, ok, -⟩ := own p l.1 l.2.1 l.2.2 label
      exact ⟨ok.1, ok.2.1⟩
    · obtain ⟨q, ok, -⟩ := own p l.1 l.2.1 l.2.2 label
      exact ⟨ok.2.2.2.1, ok.2.2.2.2.1⟩
    · obtain ⟨q, ok, root⟩ := own p h lo hi label
      rcases ok.2.2.2.2.2 with some | ⟨rfl, rfl⟩
      · exact Or.inl (items_ne_nil some)
      · rcases root with ⟨isRoot, -⟩ | labelZero
        · exact Or.inr ⟨isRoot, rfl⟩
        · obtain ⟨l, labelZero⟩ := Option.isSome_iff_exists.mp labelZero
          obtain ⟨q, ok, -⟩ := own 0 l.1 l.2.1 l.2.2 labelZero
          exact absurd ok.1 (lt_irrefl 0)
    · obtain ⟨h, ok⟩ := kids q l c label isKid
      exact ok.2.2.1
  · rintro ⟨g, indexed⟩
    have nodeOK : ∀ {p q h lo hi}, g p = some (h, lo, hi) → (t.file.node p).parent = q →
      (p = t.rootONode → q = 0) →
        t.file.NodeOK h q p := by
      intro p q h lo hi label parent root
      refine ⟨(indexed.inFile label).1, (indexed.inFile label).2, parent, (indexed.counts label).1,
        (indexed.counts label).2, ?_⟩
      rcases indexed.filled label with some | ⟨isRoot, isLeaf⟩
      · left
        rw [nodes_items] at some
        have := List.length_pos_iff.mpr some
        rwa [ItemSet.length_items] at this
      · exact Or.inr ⟨root isRoot, isLeaf⟩
    refine ⟨indexed.labelled.built ?_ indexed.labelled.top
      (nodeOK indexed.labelled.top indexed.rootParent fun _ => rfl), indexed.labelled.inorder_sorted⟩
    intro q p h lo hi label isKid
    obtain ⟨_, a, b, same, labelP⟩ := indexed.labelled.kid label isKid
    obtain rfl : h = _ := by simpa using same
    refine nodeOK labelP (indexed.parents label isKid) ?_
    rintro rfl
    exact absurd isKid (indexed.labelled.root_not_kid label)

end MiyaCore
