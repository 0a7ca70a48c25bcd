import MiyaCore.Chain.PoolRings

namespace MiyaCore.Chain

variable {T : Type}

/-- The bucket holds the ring `l`. It is scaled up before it keeps three members. `counts` says that
its count is meant to be right, and not only an upper bound. -/
structure TxCBBucket.Holds (counts : Prop) (h : TxCBLinks T) (b : TxCBBucket T) (l : List T) : Prop where
  ring : h.Ring l
  head : b.txcbHead = l.head?
  counted : l.length ≤ b.txCount
  few : 2 ≤ l.length → b.txCount < DEFAULT_SCALE_SIZE
  exactly : counts → b.txCount = l.length

theorem TxCBBucket.Holds.length_le {counts : Prop} {h : TxCBLinks T} {b : TxCBBucket T} {l : List T}
    (holds : b.Holds counts h l) : l.length ≤ 2 := by
  have counted := holds.counted
  have few := holds.few
  simp only [DEFAULT_SCALE_SIZE] at few
  omega

/-- The first member of an empty bucket. -/
theorem TxCBBucket.Holds.first [DecidableEq T] {counts : Prop} {h : TxCBLinks T} {b : TxCBBucket T}
    (holds : b.Holds counts h []) (x : T) :
    { b with txcbHead := some x, txCount := b.txCount + 1 : TxCBBucket T}.Holds counts
      ((h.setPrev x (some x)).setNext x (some x)) [x] where
  ring := TxCBLinks.ring_singleton (by simp [TxCBLinks.setNext])
    (by simp [TxCBLinks.setNext, TxCBLinks.setPrev])
  head := rfl
  counted := by simp
  few two := by simp at two
  exactly right := by simp [holds.exactly right]

/-- One more member, which does not fill the bucket up. -/
theorem TxCBBucket.Holds.push {counts : Prop} {h h' : TxCBLinks T} {b : TxCBBucket T} {head x : T} {t : List T}
    (holds : b.Holds counts h (head :: t)) (ring : h'.Ring (head :: (t ++ [x])))
    (room : b.txCount + 1 < DEFAULT_SCALE_SIZE) :
    { b with txCount := b.txCount + 1 : TxCBBucket T}.Holds counts h' (head :: (t ++ [x])) where
  ring := ring
  head := holds.head
  counted := by simpa using holds.counted
  few _ := room
  exactly right := by simp [holds.exactly right]

variable (txID : T → List.Vector UInt8 32)

/-- The members of `S` that belong into slot `i` of a table. -/
def slot (layer : Nat) (i : Fin 16) (S : Finset T) : Finset T :=
  S.filter fun x => targetIndex layer (txID x) = some i

variable {txID} in
@[simp] theorem mem_slot {layer : Nat} {i : Fin 16} {S : Finset T} {x : T} :
    x ∈ slot txID layer i S ↔ x ∈ S ∧ targetIndex layer (txID x) = some i :=
  Finset.mem_filter

/-- The members that the compared bytes of `x` do not hit. -/
def others (S : Finset T) (x : T) : Finset T :=
  S.filter fun y => comparedBytes (txID y) ≠ comparedBytes (txID x)

/-- `find` tells the members apart. -/
def Keyed (S : Finset T) : Prop :=
  ∀ y ∈ S, ∀ z ∈ S, comparedBytes (txID y) = comparedBytes (txID z) → y = z

/-- The members have their first `depth` nibbles in common. -/
def Agree (depth : Nat) (S : Finset T) : Prop :=
  ∀ y ∈ S, ∀ z ∈ S, ∀ layer < depth, targetIndex layer (txID y) = targetIndex layer (txID z)

variable {txID}

theorem others_eq_self {S : Finset T} {x : T}
    (absent : ∀ y ∈ S, comparedBytes (txID y) ≠ comparedBytes (txID x)) :
    others txID S x = S :=
  Finset.filter_true_of_mem absent

theorem slot_others {layer : Nat} {i : Fin 16} {S : Finset T} {x : T} :
    slot txID layer i (others txID S x) = others txID (slot txID layer i S) x :=
  Finset.filter_comm ..

theorem Keyed.mono {S S' : Finset T} (keyed : Keyed txID S) (sub : S' ⊆ S) : Keyed txID S' :=
  fun y inY z inZ => keyed y (sub inY) z (sub inZ)

theorem Keyed.insert [DecidableEq T] {S : Finset T} {x : T} (keyed : Keyed txID S)
    (absent : ∀ y ∈ S, comparedBytes (txID y) ≠ comparedBytes (txID x)) : Keyed txID (insert x S) := by
  intro y inY z inZ same
  rcases Finset.mem_insert.mp inY with rfl | oldY <;> rcases Finset.mem_insert.mp inZ with rfl | oldZ
  · rfl
  · exact absurd same.symm (absent z oldZ)
  · exact absurd same (absent y oldY)
  · exact keyed y oldY z oldZ same

theorem Agree.mono {depth : Nat} {S S' : Finset T} (agree : Agree txID depth S) (sub : S' ⊆ S) :
    Agree txID depth S' :=
  fun y inY z inZ => agree y (sub inY) z (sub inZ)

theorem Agree.slot {depth : Nat} {i : Fin 16} {S : Finset T} (agree : Agree txID depth S) :
    Agree txID (depth + 1) (slot txID depth i S) := by
  intro y inY z inZ layer below
  rw [mem_slot] at inY inZ
  by_cases last : layer = depth
  · rw [last, inY.2, inZ.2]
  · exact agree y inY.1 z inZ.1 layer (by omega)

/-- Two members that `find` tells apart part within the first forty nibbles. -/
theorem Agree.depth_lt {depth : Nat} {S : Finset T} (agree : Agree txID depth S) {y z : T} (inY : y ∈ S)
    (inZ : z ∈ S) (apart : comparedBytes (txID y) ≠ comparedBytes (txID z)) : depth < 40 := by
  by_contra deep
  exact apart (comparedBytes_of_targetIndex fun layer below => agree y inY z inZ layer (by omega))

/-- A search for a member among the others of its slot. -/
theorem Finds.of_slot {layer : Nat} {i : Fin 16} {S : Finset T} {x : T} {r : Option T} (bound : layer < 40)
    (located : targetIndex layer (txID x) = some i) (found : Finds txID (slot txID layer i S) x r) :
    Finds txID S x r := by
  cases r with
  | none =>
    intro y member same
    refine found y (mem_slot.mpr ⟨member, ?_⟩) same
    rw [targetIndex_of_comparedBytes same bound, located]
  | some y => exact ⟨(mem_slot.mp found.1).1, found.2⟩

variable [DecidableEq T]

theorem slot_insert_same {layer : Nat} {i : Fin 16} {S : Finset T} {x : T}
    (located : targetIndex layer (txID x) = some i) :
    slot txID layer i (insert x S) = insert x (slot txID layer i S) := by
  rw [slot, Finset.filter_insert, if_pos located]
  rfl

theorem slot_insert_other {layer : Nat} {i j : Fin 16} {S : Finset T} {x : T}
    (located : targetIndex layer (txID x) = some i) (ne : j ≠ i) :
    slot txID layer j (insert x S) = slot txID layer j S := by
  rw [slot, Finset.filter_insert, if_neg]
  · rfl
  · rw [located]
    exact fun same => ne (Option.some.inj same).symm

variable (txID)

/-- The container, `depth` tables below the root, holds the control blocks `S`. -/
def TxCBContainer.Holds (counts : Prop) (h : TxCBLinks T) : TxCBContainer T → Nat → Finset T → Prop
  | .bucket b, depth, S => 0 < depth ∧ ∃ l, b.Holds counts h l ∧ l.toFinset = S
  | .table layer containerArray, depth, S =>
    layer = depth ∧ depth < 40 ∧ ∀ i, (containerArray i).Holds counts h (depth + 1) (slot txID layer i S)

variable {txID} {counts : Prop}

/-- Only the links of the members matter. -/
theorem TxCBContainer.Holds.congr {h h' : TxCBLinks T} {c : TxCBContainer T} {depth : Nat} {S : Finset T}
    (holds : c.Holds txID counts h depth S) (same : ∀ x ∈ S, h.Same h' x) : c.Holds txID counts h' depth S := by
  induction c generalizing depth S with
  | bucket b =>
    obtain ⟨deep, l, inBucket, rfl⟩ := holds
    refine ⟨deep, l, { inBucket with ring := inBucket.ring.congr ?_ }, rfl⟩
    exact fun x member => same x (List.mem_toFinset.mpr member)
  | table layer containerArray ih =>
    obtain ⟨atLayer, bound, children⟩ := holds
    refine ⟨atLayer, bound, fun i => ih i (children i) ?_⟩
    exact fun x member => same x (mem_slot.mp member).1

theorem holds_new {h : TxCBLinks T} {layer : Nat} (bound : layer < 40) :
    (TxCBContainer.new layer).Holds txID counts h layer (∅ : Finset T) := by
  refine ⟨rfl, bound, fun i => ⟨Nat.succ_pos _, [], ⟨trivial, rfl, le_rfl, ?_, fun _ => rfl⟩, ?_⟩⟩
  · intro two
    simp at two
  · simp [slot]

/-- The pool's count is right when the counts of its buckets are. -/
theorem TxCBContainer.Holds.txCount_eq {h : TxCBLinks T} {c : TxCBContainer T} {depth : Nat} {S : Finset T}
    (holds : c.Holds txID True h depth S) : c.txCount = S.card := by
  induction c generalizing depth S with
  | bucket b =>
    obtain ⟨-, l, inBucket, rfl⟩ := holds
    rw [List.toFinset_card_of_nodup inBucket.ring.nodup]
    exact inBucket.exactly trivial
  | table layer containerArray ih =>
    obtain ⟨rfl, bound, children⟩ := holds
    have total : S.card = ∑ i, (slot txID layer i S).card := by
      have slots : ∀ x ∈ S, (targetIndex layer (txID x)).getD 0 ∈ (Finset.univ : Finset (Fin 16)) := fun _ _ =>
        Finset.mem_univ _
      rw [Finset.card_eq_sum_card_fiberwise slots]
      refine Finset.sum_congr rfl fun i _ => congrArg Finset.card (Finset.filter_congr fun x _ => ?_)
      obtain ⟨j, located⟩ := targetIndex_isSome (show layer < 64 by omega) (txID x)
      simp [located]
    rw [total, TxCBContainer.txCount]
    exact Finset.sum_congr rfl fun i _ => ih i (children i)

theorem TxCBContainer.find_run {h : TxCBLinks T} {c : TxCBContainer T} {depth : Nat} {S : Finset T}
    (holds : c.Holds txID counts h depth S) (x : T) {fuel : Nat} (enough : 2 ≤ fuel) :
    ∃ r, c.find txID fuel h x = some r ∧ Finds txID S x r := by
  induction c generalizing depth S with
  | bucket b =>
    obtain ⟨-, l, inBucket, rfl⟩ := holds
    exact b.find_run txID inBucket.ring inBucket.head x (inBucket.length_le.trans enough)
  | table layer containerArray ih =>
    obtain ⟨rfl, bound, children⟩ := holds
    obtain ⟨i, located⟩ := targetIndex_isSome (show layer < 64 by omega) (txID x)
    obtain ⟨r, run, found⟩ := ih i (children i)
    exact ⟨r, by simp [TxCBContainer.find, located, run], found.of_slot bound located⟩

section Add

/-- The calls that adding to a container takes at most. -/
def TxCBContainer.steps : TxCBContainer T → Nat → Nat
  | .bucket _, depth => 2 * (41 - depth) + 5
  | .table .., depth => 2 * (41 - depth) + 4

/-- Adding `x` to a container that holds `S` puts it there and touches no other links. -/
def Adds (counts : Prop) (txID : T → List.Vector UInt8 32)
    (add : TxCBLinks T → TxCBContainer T → T → Option (Int × TxCBLinks T × TxCBContainer T))
    (h : TxCBLinks T) (c : TxCBContainer T) (depth : Nat) (S : Finset T) (x : T) : Prop :=
  ∃ h' c', add h c x = some (0, h', c') ∧ c'.Holds txID counts h' depth (insert x S) ∧
    c'.steps depth ≤ c.steps depth ∧ ∀ y ∉ insert x S, h.Same h' y

/-- The members of the ring move into the new table one by one. -/
theorem autoScaleUpFrom_run {add : TxCBLinks T → TxCBContainer T → T →
    Option (Int × TxCBLinks T × TxCBContainer T)}
    {depth : Nat} {head current : T} {l : List T} {h : TxCBLinks T} {c : TxCBContainer T} {S : Finset T}
    {n bound : Nat} (adds : ∀ h c S x, c.Holds txID counts h depth S → c.steps depth ≤ bound →
    Keyed txID S → Agree txID depth (insert x S) →
      (∀ y ∈ S, comparedBytes (txID y) ≠ comparedBytes (txID x)) → Adds counts txID add h c depth S x)
    (holds : c.Holds txID counts h depth S) (small : c.steps depth ≤ bound)
    (chain : List.IsChain (fun x y => h.next x = some y) (current :: (l ++ [head])))
    (outside : head ∉ l) (distinct : (current :: l).Nodup) (fresh : ∀ x ∈ current :: l, x ∉ S)
    (keyed : Keyed txID (S ∪ (current :: l).toFinset)) (agree : Agree txID depth (S ∪ (current :: l).toFinset))
    (enough : l.length < n) :
    ∃ h' c', autoScaleUpFrom add head n h c current = some (h', c') ∧
      c'.Holds txID counts h' depth (S ∪ (current :: l).toFinset) ∧ c'.steps depth ≤ bound ∧
      ∀ y ∉ S ∪ (current :: l).toFinset, h.Same h' y := by
  induction l generalizing current h c S n with
  | nil =>
    obtain ⟨m, rfl⟩ : ∃ m, n = m + 1 := ⟨n - 1, by simp at enough; omega⟩
    have union : S ∪ [current].toFinset = insert current S := by
      rw [List.toFinset_cons, List.toFinset_nil, insert_empty_eq, Finset.union_singleton]
    rw [union] at keyed agree ⊢
    have absent : ∀ y ∈ S, comparedBytes (txID y) ≠ comparedBytes (txID current) := by
      intro y member same
      have equal := keyed y (Finset.mem_insert_of_mem member) current (Finset.mem_insert_self ..) same
      exact fresh current (List.mem_cons_self ..) (equal ▸ member)
    obtain ⟨h', c', run, holds', fewer, frame⟩ := adds h c S current holds small
      (keyed.mono (Finset.subset_insert ..)) agree absent
    have next : h.next current = some head := (List.isChain_cons_cons.mp chain).1
    exact ⟨h', c', by simp [autoScaleUpFrom, next, run], holds', fewer.trans small, frame⟩
  | cons y l ih =>
    obtain ⟨m, rfl⟩ : ∃ m, n = m + 1 := ⟨n - 1, by simp at enough; omega⟩
    obtain ⟨next, rest⟩ := List.isChain_cons_cons.mp chain
    have union : S ∪ (current :: y :: l).toFinset = insert current S ∪ (y :: l).toFinset := by
      rw [List.toFinset_cons, Finset.union_insert, Finset.insert_union]
    have currentIn : current ∈ S ∪ (current :: y :: l).toFinset := by simp
    have grows : insert current S ⊆ S ∪ (current :: y :: l).toFinset := by
      rw [union]
      exact Finset.subset_union_left
    have absent : ∀ z ∈ S, comparedBytes (txID z) ≠ comparedBytes (txID current) := by
      intro z member same
      have equal := keyed z (Finset.mem_union_left _ member) current currentIn same
      exact fresh current (List.mem_cons_self ..) (equal ▸ member)
    obtain ⟨h₁, c₁, run, holds₁, fewer, frame₁⟩ := adds h c S current holds small
      (keyed.mono Finset.subset_union_left) (agree.mono grows) absent
    have distinct' := List.nodup_cons.mp distinct
    have fresh₁ : ∀ x ∈ y :: l, x ∉ insert current S := by
      intro x member inside
      rcases Finset.mem_insert.mp inside with rfl | old
      · exact distinct'.1 member
      · exact fresh x (List.mem_cons_of_mem _ member) old
    have rest₁ : List.IsChain (fun a b => h₁.next a = some b) (y :: (l ++ [head])) :=
      TxCBLinks.isChain_congr rest fun x member => (frame₁ x (fresh₁ x member)).1
    obtain ⟨h', c', run', holds', fewer', frame'⟩ := ih holds₁ (fewer.trans small) rest₁
      (fun member => outside (List.mem_cons_of_mem _ member)) distinct'.2 fresh₁ (union ▸ keyed) (union ▸ agree)
      (show l.length < m by simpa using enough)
    have different : y ≠ head := fun same => outside (same ▸ List.mem_cons_self ..)
    refine ⟨h', c', by simp [autoScaleUpFrom, next, run, different, run'], union ▸ holds', fewer', ?_⟩
    intro z out
    have one := frame₁ z fun inside => out (grows inside)
    have two := frame' z (union ▸ out)
    exact ⟨two.1.trans one.1, two.2.trans one.2⟩

/-- `add` leaves the pool as it is when it finds the compared bytes. -/
theorem TxCBContainer.add_present {h : TxCBLinks T} {c : TxCBContainer T} {depth parent : Nat}
    {S : Finset T} {x : T} {fuel : Nat} (holds : c.Holds txID counts h depth S)
    (present : ∃ y ∈ S, comparedBytes (txID y) = comparedBytes (txID x)) (enough : c.steps depth ≤ fuel) :
    c.add txID fuel parent h x = some (-1, h, c) := by
  induction c generalizing depth parent S fuel with
  | bucket b =>
    obtain ⟨deep, l, inBucket, rfl⟩ := holds
    simp only [steps] at enough
    obtain ⟨m, rfl⟩ : ∃ m, fuel = m + 1 := ⟨fuel - 1, by omega⟩
    obtain ⟨r, run, found⟩ := b.find_run txID inBucket.ring inBucket.head x
      (show l.length ≤ m by have := inBucket.length_le; omega)
    cases r with
    | none =>
      obtain ⟨y, member, same⟩ := present
      exact absurd same (found y member)
    | some y => simp [add, run]
  | table layer containerArray ih =>
    obtain ⟨rfl, bound, children⟩ := holds
    simp only [steps] at enough
    obtain ⟨m, rfl⟩ : ∃ m, fuel = m + 1 := ⟨fuel - 1, by omega⟩
    obtain ⟨i, located⟩ := targetIndex_isSome (show layer < 64 by omega) (txID x)
    have inner : (containerArray i).steps (layer + 1) ≤ m := by
      cases containerArray i <;> simp only [steps] <;> omega
    obtain ⟨y, member, same⟩ := present
    have inSlot : y ∈ slot txID layer i S := mem_slot.mpr
      ⟨member, by rw [targetIndex_of_comparedBytes same bound, located]⟩
    have run : (containerArray i).add txID m layer h x = some (-1, h, containerArray i) :=
      ih i (children i) ⟨y, inSlot, same⟩ inner
    simp [add, located, run]

/-- The new member ends up in the bucket it belongs to, or in the table that replaces the bucket. -/
theorem TxCBContainer.add_absent {h : TxCBLinks T} {c : TxCBContainer T} {depth : Nat} {S : Finset T} {x : T}
    {fuel : Nat} (holds : c.Holds txID counts h depth S) (keyed : Keyed txID S)
    (agree : Agree txID depth (insert x S))
    (absent : ∀ y ∈ S, comparedBytes (txID y) ≠ comparedBytes (txID x)) (enough : c.steps depth ≤ fuel) :
    Adds counts txID (fun h c x => c.add txID fuel (depth - 1) h x) h c depth S x := by
  induction fuel generalizing h c depth S x with
  | zero => cases c <;> simp [steps] at enough
  | succ fuel ih =>
    cases c with
    | bucket b =>
      obtain ⟨deep, l, inBucket, rfl⟩ := holds
      simp only [steps] at enough
      have short := inBucket.length_le
      obtain ⟨r, run, found⟩ := b.find_run txID inBucket.ring inBucket.head x (show l.length ≤ fuel by omega)
      obtain rfl : r = none := by
        cases r with
        | none => rfl
        | some y => exact absurd found.2 (absent y found.1)
      cases l with
      | nil =>
        have empty : b.txcbHead = none := inBucket.head
        refine ⟨(h.setPrev x (some x)).setNext x (some x),
          .bucket { b with txcbHead := some x, txCount := b.txCount + 1 },
          by simp [add, run, empty], ⟨deep, [x], inBucket.first x, by simp⟩, le_rfl, ?_⟩
        intro y out
        have other : y ≠ x := by simpa using out
        simp [TxCBLinks.Same, TxCBLinks.setNext, TxCBLinks.setPrev, Function.update_of_ne other]
      | cons head t =>
        have start : b.txcbHead = some head := inBucket.head
        have fresh : x ∉ head :: t := fun member => absent x (List.mem_toFinset.mpr member) rfl
        obtain ⟨h₁, appended, ring₁, frame₁⟩ := TxCBLinks.append_run inBucket.ring fresh
        have members : (head :: (t ++ [x])).toFinset = insert x (head :: t).toFinset := by
          ext z
          simp only [List.mem_toFinset, List.mem_cons, List.mem_append, List.not_mem_nil, or_false,
            Finset.mem_insert]
          tauto
        have frame : ∀ y ∉ insert x (head :: t).toFinset, h.Same h₁ y := by
          intro y out
          simp only [Finset.mem_insert, List.mem_toFinset, not_or] at out
          exact frame₁ y out.1 out.2
        by_cases scale : DEFAULT_SCALE_SIZE ≤ b.txCount + 1
        · have first : head ∈ insert x (head :: t).toFinset := by simp
          have shallow : depth < 40 := agree.depth_lt first (Finset.mem_insert_self ..) (absent head (by simp))
          have distinct := ring₁.nodup
          have chain := TxCBLinks.isChain_of_links (show LinkRing.Links h₁.nextPtr h₁.prevPtr (some head)
            ((t ++ [x]).map some) (some head) from ring₁.1)
          have layers : depth - 1 + 1 = depth := by omega
          have keyed' : Keyed txID (∅ ∪ (head :: (t ++ [x])).toFinset) := by
            rw [Finset.empty_union, members]
            exact keyed.insert absent
          have agree' : Agree txID depth (∅ ∪ (head :: (t ++ [x])).toFinset) := by
            rwa [Finset.empty_union, members]
          obtain ⟨h', c', moved, holds', fewer, frame'⟩ := autoScaleUpFrom_run
            (fun h c S x holds small keyed agree absent => ih holds keyed agree absent small)
            (holds_new shallow) (show (new depth).steps depth ≤ fuel by simp only [steps, new]; omega) chain
            (List.nodup_cons.mp distinct).1 distinct (fun _ _ => Finset.notMem_empty _) keyed' agree'
            (show (t ++ [x]).length < fuel by simp at short ⊢; omega)
          rw [Finset.empty_union, members] at holds' frame'
          refine ⟨h', c', ?_, holds', ?_, ?_⟩
          · simp [add, run, start, appended, scale, layers, moved]
          · cases c' <;> simp [steps]
          · intro y out
            exact ⟨(frame' y out).1.trans (frame y out).1, (frame' y out).2.trans (frame y out).2⟩
        · refine ⟨h₁, .bucket { b with txCount := b.txCount + 1 }, by simp [add, run, start, appended, scale],
            ⟨deep, head :: (t ++ [x]), inBucket.push ring₁ (by omega), members⟩, le_rfl, frame⟩
    | table layer containerArray =>
      obtain ⟨rfl, bound, children⟩ := holds
      simp only [steps] at enough
      obtain ⟨i, located⟩ := targetIndex_isSome (show layer < 64 by omega) (txID x)
      have inner : (containerArray i).steps (layer + 1) ≤ fuel := by
        cases containerArray i <;> simp only [steps] <;> omega
      have sub : slot txID layer i S ⊆ S := Finset.filter_subset ..
      have together := agree.slot (i := i)
      rw [slot_insert_same located] at together
      obtain ⟨h', c', run, holds', -, frame⟩ := ih (children i) (keyed.mono sub) together
        (fun y member => absent y (sub member)) inner
      refine ⟨h', .table layer (Function.update containerArray i c'), ?_, ⟨rfl, bound, ?_⟩, le_rfl, ?_⟩
      · simp only [Nat.add_sub_cancel] at run
        simp [add, located, run]
      · intro j
        by_cases same : j = i
        · subst same
          rw [Function.update_self, slot_insert_same located]
          exact holds'
        · rw [Function.update_of_ne same, slot_insert_other located same]
          refine (children j).congr fun y member => frame y ?_
          have elsewhere := (mem_slot.mp member).2
          rintro inside
          rcases Finset.mem_insert.mp inside with rfl | inSlot
          · exact same (Option.some.inj (elsewhere.symm.trans located))
          · exact same (Option.some.inj (elsewhere.symm.trans (mem_slot.mp inSlot).2))
      · intro y out
        refine frame y fun inside => out ?_
        exact Finset.insert_subset_insert x sub inside

end Add

section Remove

variable (txID) in
/-- The bucket that a call for `target` ends in. -/
def TxCBContainer.reached (target : T) : TxCBContainer T → Option (TxCBBucket T)
  | .bucket b => some b
  | .table layer containerArray => do
    let index ← targetIndex layer (txID target)
    (containerArray index).reached target

variable (txID) in
/-- The bucket has the compared bytes at its head, and other members behind it. -/
def TxCBContainer.HeadOfOthers (h : TxCBLinks T) (c : TxCBContainer T) (target : T) : Prop :=
  ∃ b ∈ c.reached txID target, ∃ head ∈ b.txcbHead,
    comparedBytes (txID head) = comparedBytes (txID target) ∧ h.next head ≠ some head

theorem TxCBContainer.Holds.weaken {right : Prop} {h : TxCBLinks T} {c : TxCBContainer T} {depth : Nat}
    {S : Finset T} (holds : c.Holds txID counts h depth S) (weaker : right → counts) :
    c.Holds txID right h depth S := by
  induction c generalizing depth S with
  | bucket b =>
    obtain ⟨deep, l, inBucket, rfl⟩ := holds
    exact ⟨deep, l, { inBucket with exactly := fun r => inBucket.exactly (weaker r) }, rfl⟩
  | table layer containerArray ih =>
    obtain ⟨located, bound, children⟩ := holds
    exact ⟨located, bound, fun i => ih i (children i)⟩

/-- Taking the member that is hit out of the list. -/
theorem toFinset_erase_middle {head x y : T} {before after : List T}
    (distinct : (head :: (before ++ y :: after)).Nodup)
    (only : ∀ z ∈ head :: (before ++ y :: after), comparedBytes (txID z) = comparedBytes (txID x) →
    z = y) (hit : comparedBytes (txID y) = comparedBytes (txID x)) :
    (head :: (before ++ after)).toFinset = others txID (head :: (before ++ y :: after)).toFinset x := by
  have outside : y ∉ head :: (before ++ after) := by
    have front : (y :: (head :: before ++ after)).Nodup := List.nodup_middle.mp distinct
    exact (List.nodup_cons.mp front).1
  ext z
  simp only [others, List.mem_toFinset, Finset.mem_filter]
  constructor
  · intro member
    have inside : z ∈ head :: (before ++ y :: after) := by
      simp only [List.mem_cons, List.mem_append] at member ⊢
      tauto
    exact ⟨inside, fun same => outside (only z inside same ▸ member)⟩
  · rintro ⟨inside, apart⟩
    have ne : z ≠ y := fun same => apart (same ▸ hit)
    simp only [List.mem_cons, List.mem_append] at inside ⊢
    tauto

theorem TxCBBucket.remove_run {h : TxCBLinks T} {b : TxCBBucket T} {l : List T} {x : T} {fuel : Nat}
    (holds : b.Holds counts h l) (keyed : Keyed txID l.toFinset)
    (kept : ∀ head, b.txcbHead = some head → comparedBytes (txID head) = comparedBytes (txID x) →
      h.next head = some head) (enough : 2 ≤ fuel) :
    ∃ h' b' l', b.remove txID fuel h x = some (h', b') ∧
      b'.Holds (counts ∧ ∀ y ∈ l, comparedBytes (txID y) ≠ comparedBytes (txID x)) h' l' ∧
      l'.toFinset = others txID l.toFinset x ∧ ∀ y ∉ l, h.Same h' y := by
  obtain ⟨r, run, found⟩ := b.find_run txID holds.ring holds.head x (holds.length_le.trans enough)
  cases r with
  | none =>
    refine ⟨h, b, l, by simp [remove, run], { holds with exactly := fun r => holds.exactly r.1 }, ?_,
      fun _ _ => ⟨rfl, rfl⟩⟩
    exact (others_eq_self found).symm
  | some y =>
    have member : y ∈ l := List.mem_toFinset.mp found.1
    have only : ∀ z ∈ l, comparedBytes (txID z) = comparedBytes (txID x) → z = y := fun z inZ same =>
      keyed z (List.mem_toFinset.mpr inZ) y found.1 (same.trans found.2.symm)
    have hit : ¬ ∀ z ∈ l, comparedBytes (txID z) ≠ comparedBytes (txID x) := fun none => none y member found.2
    cases l with
    | nil => simp at member
    | cons head t =>
      have start : b.txcbHead = some head := holds.head
      by_cases atHead : y = head
      · subst atHead
        have alone := holds.ring.alone (kept y start found.2)
        subst alone
        refine ⟨h, { b with txcbHead := none }, [],
          by simp [remove, run, start], ⟨trivial, rfl, by simp, ?_, ?_⟩, ?_, fun _ _ => ⟨rfl, rfl⟩⟩
        · intro two
          simp at two
        · exact fun r => absurd r.2 hit
        · simp [others, Finset.filter_singleton, found.2]
      · have inner : y ∈ t := (List.mem_cons.mp member).resolve_left atHead
        obtain ⟨notSelf, notSelf'⟩ := holds.ring.neighbours_ne inner
        obtain ⟨next, inNext, prev, inPrev, atNext, atPrev, -, -⟩ := holds.ring.neighbours member
        have nextNe : next ≠ y := fun same => notSelf (same ▸ atNext)
        have prevNe : prev ≠ y := fun same => notSelf' (same ▸ atPrev)
        obtain ⟨before, after, rfl⟩ := List.append_of_mem inner
        refine ⟨(h.setNext prev (some next)).setPrev next (some prev), b, head :: (before ++ after), ?_,
          ⟨holds.ring.unlink atNext atPrev, start, ?_, ?_, fun r => absurd r.2 hit⟩, ?_, ?_⟩
        · simp [remove, run, start, atHead, nextNe, prevNe, atPrev, atNext, TxCBLinks.setNext,
            Function.update_of_ne prevNe.symm]
        · have counted := holds.counted
          simp at counted ⊢
          omega
        · intro two
          have few := holds.few
          simp at few two
          exact few (by omega)
        · exact toFinset_erase_middle holds.ring.nodup only found.2
        · intro z out
          have notNext : z ≠ next := fun same => out (same ▸ inNext)
          have notPrev : z ≠ prev := fun same => out (same ▸ inPrev)
          simp [TxCBLinks.Same, TxCBLinks.setNext, TxCBLinks.setPrev, notNext, notPrev]

/-- A removal takes out the member that it finds, unless that is the head of others. -/
theorem TxCBContainer.remove_run {h : TxCBLinks T} {c : TxCBContainer T} {depth : Nat} {S : Finset T}
    {x : T} {fuel : Nat} (holds : c.Holds txID counts h depth S) (keyed : Keyed txID S)
    (kept : ¬ c.HeadOfOthers txID h x) (enough : 2 ≤ fuel) :
    ∃ h' c', c.remove txID fuel h x = some (h', c') ∧
      c'.Holds txID (counts ∧ ∀ y ∈ S, comparedBytes (txID y) ≠ comparedBytes (txID x)) h' depth (others txID S x) ∧
      ∀ y ∉ S, h.Same h' y := by
  induction c generalizing depth S with
  | bucket b =>
    obtain ⟨deep, l, inBucket, rfl⟩ := holds
    obtain ⟨h', b', l', run, holds', members, frame⟩ := TxCBBucket.remove_run inBucket keyed
      (fun head start same => by_contra fun other => kept ⟨b, rfl, head, start, same, other⟩) enough
    refine ⟨h', .bucket b', by simp [remove, run], ⟨deep, l', ?_, members⟩, ?_⟩
    · exact { holds' with exactly := fun r => holds'.exactly ⟨r.1, fun y member => r.2 y (List.mem_toFinset.mpr member)⟩ }
    · exact fun y out => frame y fun member => out (List.mem_toFinset.mpr member)
  | table layer containerArray ih =>
    obtain ⟨rfl, bound, children⟩ := holds
    obtain ⟨i, located⟩ := targetIndex_isSome (show layer < 64 by omega) (txID x)
    have sub : slot txID layer i S ⊆ S := Finset.filter_subset ..
    obtain ⟨h', c', run, holds', frame⟩ := ih i (children i) (keyed.mono sub) (by
      rintro ⟨b, reached, head, start, same, other⟩
      exact kept ⟨b, by simpa [TxCBContainer.reached, located] using reached, head, start, same, other⟩)
    refine ⟨h', .table layer (Function.update containerArray i c'),
      by simp [remove, located, run], ⟨rfl, bound, ?_⟩, fun y out => frame y fun member => out (sub member)⟩
    intro j
    by_cases same : j = i
    · subst same
      rw [Function.update_self, slot_others]
      exact holds'.weaken fun r => ⟨r.1, fun y member => r.2 y (sub member)⟩
    · rw [Function.update_of_ne same, slot_others, others_eq_self]
      · refine ((children j).congr fun y member => frame y ?_).weaken And.left
        exact fun inside => same (Option.some.inj ((mem_slot.mp member).2.symm.trans (mem_slot.mp inside).2))
      · intro y member hit
        have elsewhere := (mem_slot.mp member).2
        rw [targetIndex_of_comparedBytes hit bound, located] at elsewhere
        exact same (Option.some.inj elsewhere).symm

end Remove

end MiyaCore.Chain
