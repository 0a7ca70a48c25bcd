import MiyaCore.Index.ItemSet
import MiyaCore.ValueStore.FragmentHeader

/-!
# Node blocks

A node is 103 bytes of the index file, and each field has its place in them. The getters and setters reach a
field through the cache; those of the slot behind the last one reach into the next area.
-/

namespace MiyaCore
open FlatMemory Bytes

def DEFAULT_THRESHOLD : Nat := 4
def DEFAULT_CHILD_COUNT : Nat := DEFAULT_THRESHOLD
def DEFAULT_KEY_COUNT : Nat := DEFAULT_THRESHOLD - 1
def DEFAULT_DATA_OPTR_COUNT : Nat := DEFAULT_THRESHOLD - 1

def KEY_SIZE : Nat := 160 / 8
def DATA_OPTR_SIZE : Nat := 5
def NODE_OPTR_SIZE : Nat := 5
def ELEMENT_COUNT_SIZE : Nat := 1

def KEY_ELEMENT_OFFSET : Nat := NODE_OPTR_SIZE
def CHILD_ELEMENT_OFFSET : Nat := KEY_ELEMENT_OFFSET + (ELEMENT_COUNT_SIZE + KEY_SIZE * DEFAULT_KEY_COUNT)
def DATA_OPTR_ELEMENT_OFFSET : Nat :=
  CHILD_ELEMENT_OFFSET + ELEMENT_COUNT_SIZE + DATA_OPTR_SIZE * DEFAULT_CHILD_COUNT
def O_NODE_ITEMSET_SIZE : Nat :=
  NODE_OPTR_SIZE + (ELEMENT_COUNT_SIZE + KEY_SIZE * DEFAULT_KEY_COUNT) +
    (ELEMENT_COUNT_SIZE + NODE_OPTR_SIZE * DEFAULT_CHILD_COUNT) +
    (ELEMENT_COUNT_SIZE + DATA_OPTR_SIZE * DEFAULT_DATA_OPTR_COUNT)

namespace ONodeItemSet
variable (pageSize fuel : Nat) (t : CacheTable) (optr : Nat)

def clear : Option CacheTable := t.copyIn pageSize fuel optr (List.replicate O_NODE_ITEMSET_SIZE 0)

def parent : Option (Nat × CacheTable) := do
  let (oAddr, t) ← t.copyOut pageSize fuel optr 5
  return (ofBe oAddr, t)

/-- `parent`, the setter; a null node has the null address. -/
def setParent (target : Nat) : Option CacheTable := t.copyIn pageSize fuel optr (be NODE_OPTR_SIZE target)

def keyCount : Option (Nat × CacheTable) := do
  let (count, t) ← t.value pageSize fuel (← Optr.plus optr KEY_ELEMENT_OFFSET)
  return (count.toNat, t)

def setKeyCount (num : Nat) : Option CacheTable := do
  t.setValue pageSize fuel (← Optr.plus optr KEY_ELEMENT_OFFSET) (UInt8.ofNat num)

/-- `key`: where the key lies. -/
def key (index : Nat) : Option (Option Nat × CacheTable) := do
  let (count, t) ← keyCount pageSize fuel t optr
  if index > count then return (none, t)
  return (some (← Optr.plus optr (KEY_ELEMENT_OFFSET + ELEMENT_COUNT_SIZE + index * KEY_SIZE)), t)

def rawKey (index : Nat) : Option (Option Key × CacheTable) := do
  match ← key pageSize fuel t optr index with
  | (none, t) => return (none, t)
  | (some key, t) =>
    let (ret, t) ← t.copyOut pageSize fuel key KEY_SIZE
    return (some (Fin.ofNat _ (ofBe ret)), t)

/-- `key`, the setter. -/
def setKey (index : Nat) (targetKey : Key) : Option CacheTable := do
  if index > DEFAULT_KEY_COUNT then return t
  let key ← Optr.plus optr (KEY_ELEMENT_OFFSET + ELEMENT_COUNT_SIZE + index * KEY_SIZE)
  t.copyIn pageSize fuel key (be KEY_SIZE targetKey)

def childOptrCount : Option (Nat × CacheTable) := do
  let (count, t) ← t.value pageSize fuel (← Optr.plus optr CHILD_ELEMENT_OFFSET)
  return (count.toNat, t)

def setChildOptrCount (num : Nat) : Option CacheTable := do
  t.setValue pageSize fuel (← Optr.plus optr CHILD_ELEMENT_OFFSET) (UInt8.ofNat num)

def childOptr (index : Nat) : Option (Option Nat × CacheTable) := do
  let (count, t) ← childOptrCount pageSize fuel t optr
  if index ≥ count then return (none, t)
  let childHead ← Optr.plus optr (CHILD_ELEMENT_OFFSET + ELEMENT_COUNT_SIZE + index * NODE_OPTR_SIZE)
  let (oAddr, t) ← t.copyOut pageSize fuel childHead 5
  return (some (ofBe oAddr), t)

/-- `childOptr`, the setter; a null pointer has the null address. -/
def setChildOptr (index target : Nat) : Option CacheTable := do
  if index > DEFAULT_CHILD_COUNT then return t
  let childHead ← Optr.plus optr (CHILD_ELEMENT_OFFSET + ELEMENT_COUNT_SIZE + index * NODE_OPTR_SIZE)
  t.copyIn pageSize fuel childHead (be NODE_OPTR_SIZE target)

def dataOptrCount : Option (Nat × CacheTable) := do
  let (count, t) ← t.value pageSize fuel (← Optr.plus optr DATA_OPTR_ELEMENT_OFFSET)
  return (count.toNat, t)

def setDataOptrCount (num : Nat) : Option CacheTable := do
  t.setValue pageSize fuel (← Optr.plus optr DATA_OPTR_ELEMENT_OFFSET) (UInt8.ofNat num)

def dataOptr (index : Nat) : Option (Option Nat × CacheTable) := do
  let (count, t) ← dataOptrCount pageSize fuel t optr
  if index > count then return (none, t)
  let dataHead ← Optr.plus optr (DATA_OPTR_ELEMENT_OFFSET + ELEMENT_COUNT_SIZE + index * DATA_OPTR_SIZE)
  let (retOAddr, t) ← t.copyOut pageSize fuel dataHead DATA_OPTR_SIZE
  return (some (ofBe retOAddr), t)

/-- `dataOptr`, the setter, which checks no index; a null pointer has the null address. -/
def setDataOptr (index target : Nat) : Option CacheTable := do
  let dataHead ← Optr.plus optr (DATA_OPTR_ELEMENT_OFFSET + ELEMENT_COUNT_SIZE + index * NODE_OPTR_SIZE)
  t.copyIn pageSize fuel dataHead (be NODE_OPTR_SIZE target)

end ONodeItemSet

/-- The calls of `ONodeItemSet` that the others are made of. -/
inductive NodeCall
  | clear
  | parent
  | setParent (target : Nat)
  | keyCount
  | setKeyCount (num : Nat)
  | rawKey (index : Nat)
  | setKey (index : Nat) (targetKey : Key)
  | childOptrCount
  | setChildOptrCount (num : Nat)
  | childOptr (index : Nat)
  | setChildOptr (index target : Nat)
  | dataOptrCount
  | setDataOptrCount (num : Nat)
  | dataOptr (index : Nat)
  | setDataOptr (index target : Nat)

/-- The call on the block at an address. A setter hands out nothing. -/
def CacheTable.node (pageSize fuel : Nat) (t : CacheTable) (optr : Nat) : NodeCall → Option (Option Nat × CacheTable)
  | .clear => (ONodeItemSet.clear pageSize fuel t optr).map (none, ·)
  | .parent => (ONodeItemSet.parent pageSize fuel t optr).map fun r => (some r.1, r.2)
  | .setParent target => (ONodeItemSet.setParent pageSize fuel t optr target).map (none, ·)
  | .keyCount => (ONodeItemSet.keyCount pageSize fuel t optr).map fun r => (some r.1, r.2)
  | .setKeyCount num => (ONodeItemSet.setKeyCount pageSize fuel t optr num).map (none, ·)
  | .rawKey index => (ONodeItemSet.rawKey pageSize fuel t optr index).map fun r => (r.1.map Fin.val, r.2)
  | .setKey index targetKey => (ONodeItemSet.setKey pageSize fuel t optr index targetKey).map (none, ·)
  | .childOptrCount => (ONodeItemSet.childOptrCount pageSize fuel t optr).map fun r => (some r.1, r.2)
  | .setChildOptrCount num => (ONodeItemSet.setChildOptrCount pageSize fuel t optr num).map (none, ·)
  | .childOptr index => ONodeItemSet.childOptr pageSize fuel t optr index
  | .setChildOptr index target => (ONodeItemSet.setChildOptr pageSize fuel t optr index target).map (none, ·)
  | .dataOptrCount => (ONodeItemSet.dataOptrCount pageSize fuel t optr).map fun r => (some r.1, r.2)
  | .setDataOptrCount num => (ONodeItemSet.setDataOptrCount pageSize fuel t optr num).map (none, ·)
  | .dataOptr index => ONodeItemSet.dataOptr pageSize fuel t optr index
  | .setDataOptr index target => (ONodeItemSet.setDataOptr pageSize fuel t optr index target).map (none, ·)

namespace ItemSet

/-- What the call hands out, and the block after it. -/
def call (it : ItemSet) : NodeCall → Option Nat × ItemSet
  | .clear => (none, {})
  | .parent => (some it.parent, it)
  | .setParent target => (none, it.setParent target)
  | .keyCount => (some it.keyCount, it)
  | .setKeyCount num => (none, it.setKeyCount num)
  | .rawKey index => ((it.rawKey index).map Fin.val, it)
  | .setKey index targetKey => (none, it.setKey index targetKey)
  | .childOptrCount => (some it.childOptrCount, it)
  | .setChildOptrCount num => (none, it.setChildOptrCount num)
  | .childOptr index => (it.childOptr index, it)
  | .setChildOptr index target => (none, it.setChildOptr index target)
  | .dataOptrCount => (some it.dataOptrCount, it)
  | .setDataOptrCount num => (none, it.setDataOptrCount num)
  | .dataOptr index => (it.dataOptr index, it)
  | .setDataOptr index target => (none, it.setDataOptr index target)

/-- The call stays inside the block, and what it writes fits its field. -/
def Within (it : ItemSet) : NodeCall → Prop
  | .setParent target | .setChildOptr _ target => target < 2 ^ 40
  | .setKeyCount num | .setChildOptrCount num | .setDataOptrCount num => num < 2 ^ 8
  | .rawKey index => index ≤ it.keyCount → index ≤ 3
  | .childOptr index => index < it.childOptrCount → index < 4
  | .dataOptr index => index ≤ it.dataOptrCount → index < 3
  | .setDataOptr index target => index < 3 ∧ target < 2 ^ 40
  | .clear | .parent | .keyCount | .setKey _ _ | .childOptrCount | .dataOptrCount => True

instance decidableWithin (it : ItemSet) : DecidablePred it.Within
  | .setParent target | .setChildOptr _ target => inferInstanceAs (Decidable (target < 2 ^ 40))
  | .setKeyCount num | .setChildOptrCount num | .setDataOptrCount num => inferInstanceAs (Decidable (num < 2 ^ 8))
  | .rawKey index => inferInstanceAs (Decidable (index ≤ it.keyCount → index ≤ 3))
  | .childOptr index => inferInstanceAs (Decidable (index < it.childOptrCount → index < 4))
  | .dataOptr index => inferInstanceAs (Decidable (index ≤ it.dataOptrCount → index < 3))
  | .setDataOptr index target => inferInstanceAs (Decidable (index < 3 ∧ target < 2 ^ 40))
  | .clear | .parent | .keyCount | .setKey _ _ | .childOptrCount | .dataOptrCount => inferInstanceAs (Decidable True)

end ItemSet

/-- The places of a node block. -/
inductive ItemField
  | parent
  | keyCount
  | key (i : Nat)
  | childOptrCount
  | child (i : Nat)
  | dataOptrCount
  | data (i : Nat)
deriving DecidableEq

namespace ItemField

def offset : ItemField → Nat
  | parent => 0
  | keyCount => 5
  | key i => 6 + 20 * i
  | childOptrCount => 66
  | child i => 67 + 5 * i
  | dataOptrCount => 87
  | data i => 88 + 5 * i

def width : ItemField → Nat
  | parent | child _ | data _ => 5
  | keyCount | childOptrCount | dataOptrCount => 1
  | key _ => 20

/-- A block has such a place. -/
def Inside : ItemField → Prop
  | key i | data i => i < 3
  | child i => i < 4
  | parent | keyCount | childOptrCount | dataOptrCount => True

variable {f g : ItemField}

theorem ends (inside : f.Inside) : f.offset + f.width ≤ 103 := by
  cases f <;> simp only [Inside, offset, width] at inside ⊢ <;> omega

theorem apart (insideF : f.Inside) (insideG : g.Inside) (other : g ≠ f) :
    g.offset + g.width ≤ f.offset ∨ f.offset + f.width ≤ g.offset := by
  cases f <;> cases g <;> simp only [Inside, offset, width, ne_eq, key.injEq, child.injEq, data.injEq] at * <;>
    first | omega | exact absurd trivial other

end ItemField

namespace ItemSet
open ItemField

/-- What a place holds. -/
def field (it : ItemSet) : ItemField → Nat
  | .parent => it.parent
  | .keyCount => it.keyCount
  | .key i => it.keySlot i
  | .childOptrCount => it.childOptrCount
  | .child i => it.childSlot i
  | .dataOptrCount => it.dataOptrCount
  | .data i => it.dataSlot i

/-- The block lies in the memory at an address: each place has the bytes of its field. -/
structure LiesAt (it : ItemSet) (m : Memory) (p : Nat) : Prop where
  fits : ∀ f : ItemField, f.Inside → it.field f < 256 ^ f.width
  bytes : ∀ f : ItemField, f.Inside → slice m (p + f.offset) f.width = be f.width (it.field f)

variable {it it' : ItemSet} {m m' : Memory} {p : Nat}

theorem LiesAt.congr (lies : it.LiesAt m p) (same : ∀ f : ItemField, f.Inside → it'.field f = it.field f) :
    it'.LiesAt m p where
  fits f inside := same f inside ▸ lies.fits f inside
  bytes f inside := same f inside ▸ lies.bytes f inside

/-- A block stays where it is when the bytes change beside it. -/
theorem LiesAt.beside (lies : it.LiesAt m p) (same : ∀ i < 103, m' (p + i) = m (p + i)) : it.LiesAt m' p where
  fits := lies.fits
  bytes f inside := by
    rw [← lies.bytes f inside]
    refine slice_congr fun i below => ?_
    have ends := ItemField.ends inside
    rw [Nat.add_assoc]
    exact same _ (by omega)

/-- A field is read where it lies. -/
theorem LiesAt.read (lies : it.LiesAt m p) {f : ItemField} (inside : f.Inside) :
    ofBe (slice m (p + f.offset) f.width) = it.field f := by
  rw [lies.bytes f inside, ofBe_be, Nat.mod_eq_of_lt (lies.fits f inside)]

/-- A field is written where it lies. -/
theorem LiesAt.write (lies : it.LiesAt m p) {f : ItemField} (inside : f.Inside) {v : Nat} (fits : v < 256 ^ f.width)
    (written : it'.field f = v) (others : ∀ g : ItemField, g.Inside → g ≠ f → it'.field g = it.field g) :
    it'.LiesAt (lay m (p + f.offset) (be f.width v)) p where
  fits g insideG := by
    by_cases here : g = f
    · rw [here, written]
      exact fits
    · rw [others g insideG here]
      exact lies.fits g insideG
  bytes g insideG := by
    by_cases here : g = f
    · have back := slice_lay_self m (p + f.offset) (be f.width v)
      rw [length_be] at back
      rw [here, written, back]
    · rw [others g insideG here, ← lies.bytes g insideG]
      have apart := ItemField.apart inside insideG here
      exact slice_lay_of_disjoint m (by rw [length_be]; omega)

theorem liesAt_clear (m : Memory) (p : Nat) : ({} : ItemSet).LiesAt (lay m p (List.replicate 103 0)) p where
  fits f _ := by
    cases f <;> simp [field, width]
  bytes f inside := by
    have ends := ItemField.ends inside
    have zero : ({} : ItemSet).field f = 0 := by cases f <;> rfl
    rw [zero, be_zero]
    refine List.ext_getElem (by simp) fun i inLeft _ => ?_
    rw [length_slice] at inLeft
    simp only [slice, List.getElem_map, List.getElem_range, List.getElem_replicate, Nat.add_assoc]
    rw [lay_of_inside m p (i := f.offset + i) (by rw [List.length_replicate]; omega), List.getElem_replicate]

/-- The bytes before a place's end are written over. -/
theorem LiesAt.writeFront (lies : it.LiesAt m p) {f : ItemField} (inside : f.Inside) {n d : Nat}
    (width : f.width = n + d) (x : Nat)
    (written : it'.field f = 256 ^ d * (x % 256 ^ n) + it.field f % 256 ^ d)
    (others : ∀ g : ItemField, g.Inside → g ≠ f → it'.field g = it.field g) :
    it'.LiesAt (lay m (p + f.offset) (be n x)) p := by
  have last : it.field f % 256 ^ d < 256 ^ d := Nat.mod_lt _ (by positivity)
  have front : x % 256 ^ n < 256 ^ n := Nat.mod_lt _ (by positivity)
  obtain ⟨v, value⟩ : ∃ v, v = 256 ^ d * (x % 256 ^ n) + it.field f % 256 ^ d := ⟨_, rfl⟩
  have fits : v < 256 ^ f.width := by
    rw [width, pow_add, value]
    calc 256 ^ d * (x % 256 ^ n) + it.field f % 256 ^ d < 256 ^ d * (x % 256 ^ n) + 256 ^ d := by omega
      _ = 256 ^ d * (x % 256 ^ n + 1) := by rw [Nat.mul_succ]
      _ ≤ 256 ^ n * 256 ^ d := by rw [mul_comm]; exact Nat.mul_le_mul_right _ front
  have whole := lies.write inside fits (written.trans value.symm) others
  -- the bytes behind those written are there already
  have spelled : be f.width v = be n x ++ be d (it.field f) := by
    rw [width, be_add, ← be_mod n x, ← be_mod d (it.field f), ← be_mod d v, value, Nat.mul_add_mod,
      Nat.mod_mod, Nat.mul_add_div (by positivity), Nat.div_eq_of_lt last, Nat.add_zero]
  have behind : slice m (p + f.offset + n) d = be d (it.field f) := by
    have both := lies.bytes f inside
    rw [width, slice_append, be_add] at both
    exact (List.append_inj both (by simp)).2
  have there : slice (lay m (p + f.offset) (be n x)) (p + f.offset + n) d = be d (it.field f) := by
    rw [← behind]
    exact slice_lay_of_disjoint m (Or.inr (by rw [length_be]))
  rwa [spelled, lay_append, length_be, ← there, lay_slice] at whole

theorem LiesAt.setChild (lies : it.LiesAt m p) {index target : Nat} (slot : index < 4) (small : target < 256 ^ 5) :
    (it.setChildOptr index target).LiesAt (lay m (p + (67 + 5 * index)) (be 5 target)) p := by
  rw [ItemSet.setChildOptr, if_pos slot]
  refine lies.write (f := .child index) slot small (if_pos rfl) fun g _ other => ?_
  cases g with
  | child j => exact if_neg fun here => other (congrArg ItemField.child here)
  | parent | keyCount | key j | childOptrCount | dataOptrCount | data j => rfl

theorem LiesAt.setChildOptrCount (lies : it.LiesAt m p) {num : Nat} (small : num < 256 ^ 1) :
    (it.setChildOptrCount num).LiesAt (lay m (p + 66) (be 1 num)) p := by
  refine lies.write (f := .childOptrCount) trivial small rfl fun g _ other => ?_
  cases g with
  | childOptrCount => exact absurd rfl other
  | parent | keyCount | key j | child j | dataOptrCount | data j => rfl

theorem LiesAt.setDataOptr (lies : it.LiesAt m p) {index target : Nat} (slot : index < 3) (small : target < 256 ^ 5) :
    (it.setDataOptr index target).LiesAt (lay m (p + (88 + 5 * index)) (be 5 target)) p := by
  refine lies.write (f := .data index) slot small (if_pos rfl) fun g _ other => ?_
  cases g with
  | data j => exact if_neg fun here => other (congrArg ItemField.data here)
  | parent | keyCount | key j | childOptrCount | child j | dataOptrCount => rfl

theorem LiesAt.setDataOptrCount (lies : it.LiesAt m p) {num : Nat} (small : num < 256 ^ 1) :
    (it.setDataOptrCount num).LiesAt (lay m (p + 87) (be 1 num)) p := by
  refine lies.write (f := .dataOptrCount) trivial small rfl fun g _ other => ?_
  cases g with
  | dataOptrCount => exact absurd rfl other
  | parent | keyCount | key j | childOptrCount | child j | data j => rfl

/-- The key behind the last one covers the count of the children and their addresses but for the last byte. -/
theorem LiesAt.setKey (lies : it.LiesAt m p) {index : Nat} (inside : index ≤ 3) (k : Key) :
    (it.setKey index k).LiesAt (lay m (p + (6 + 20 * index)) (be 20 k.val)) p := by
  have small : k.val < 256 ^ 20 := k.isLt.trans_eq (by norm_num)
  by_cases slot : index < 3
  · rw [ItemSet.setKey, if_pos slot]
    refine lies.write (f := .key index) slot small (congrArg Fin.val (if_pos rfl)) fun g _ other => ?_
    cases g with
    | key j => exact congrArg Fin.val (if_neg fun here => other (congrArg ItemField.key here))
    | parent | keyCount | childOptrCount | child j | dataOptrCount | data j => rfl
  obtain rfl : index = 3 := by omega
  have spelled : be 20 k.val = be 1 (k.val / 256 ^ 19) ++ be 5 (k.val / 256 ^ 14) ++ be 5 (k.val / 256 ^ 9) ++
      be 5 (k.val / 256 ^ 4) ++ be 4 k.val := by
    rw [be_add 16 4, be_add 11 5, be_add 6 5, be_add 1 5]
    simp only [Nat.div_div_eq_div_mul, ← pow_add]
  have address : ∀ n, n % 256 ^ 5 < 256 ^ 5 := fun n => Nat.mod_lt n (by positivity)
  have counted := lies.setChildOptrCount (show k.val / 256 ^ 19 < 256 ^ 1 from
    Nat.div_lt_of_lt_mul (by rwa [← pow_add]))
  have first := counted.setChild (show 0 < 4 by decide) (address (k.val / 256 ^ 14))
  have second := first.setChild (show 1 < 4 by decide) (address (k.val / 256 ^ 9))
  have third := second.setChild (show 2 < 4 by decide) (address (k.val / 256 ^ 4))
  have last : (it.setKey 3 k).LiesAt (lay _ (p + ItemField.offset (.child 3)) (be 4 k.val)) p :=
    third.writeFront (f := .child 3) (d := 1) (show 3 < 4 by decide) rfl k.val ?_ ?_
  · rw [spelled]
    simp only [lay_append, List.length_append, length_be, be_mod, offset, Nat.add_assoc, Nat.reduceAdd,
      Nat.reduceMul] at last ⊢
    exact last
  · simp [field, ItemSet.setKey, ItemSet.setChildOptr, ItemSet.setChildOptrCount]
    omega
  · intro g inG other
    cases g with
    | child j =>
      have below : j < 3 := by
        have other : j ≠ 3 := fun here => other (congrArg ItemField.child here)
        simp only [Inside] at inG
        omega
      interval_cases j <;> simp [field, ItemSet.setKey, ItemSet.setChildOptr, ItemSet.setChildOptrCount]
    | childOptrCount => simp [field, ItemSet.setKey, ItemSet.setChildOptr, ItemSet.setChildOptrCount]
    | parent | keyCount | key j | dataOptrCount | data j => rfl

/-- The address behind the last one covers the count of the data pointers and most of the first of them. -/
theorem LiesAt.setChildOptr (lies : it.LiesAt m p) {index target : Nat} (inside : index ≤ 4)
    (small : target < 256 ^ 5) :
    (it.setChildOptr index target).LiesAt (lay m (p + (67 + 5 * index)) (be 5 target)) p := by
  by_cases slot : index < 4
  · exact lies.setChild slot small
  obtain rfl : index = 4 := by omega
  have counted := lies.setDataOptrCount (show target / 256 ^ 4 < 256 ^ 1 from
    Nat.div_lt_of_lt_mul (by rwa [← pow_add]))
  have last : (it.setChildOptr 4 target).LiesAt (lay _ (p + ItemField.offset (.data 0)) (be 4 target)) p :=
    counted.writeFront (f := .data 0) (d := 1) (show 0 < 3 by decide) rfl target ?_ ?_
  · rw [be_add 1 4, lay_append, length_be]
    exact last
  · simp [field, ItemSet.setChildOptr, ItemSet.setDataOptrCount]
    omega
  · intro g _ other
    cases g with
    | data j =>
      have other : j ≠ 0 := fun here => other (congrArg ItemField.data here)
      simp [field, ItemSet.setChildOptr, ItemSet.setDataOptrCount, other]
    | dataOptrCount => simp [field, ItemSet.setChildOptr, ItemSet.setDataOptrCount]
    | parent | keyCount | key j | childOptrCount | child j => rfl

theorem LiesAt.setParent (lies : it.LiesAt m p) {target : Nat} (small : target < 256 ^ 5) :
    (it.setParent target).LiesAt (lay m p (be 5 target)) p := by
  refine lies.write (f := .parent) trivial small rfl fun g _ other => ?_
  cases g with
  | parent => exact absurd rfl other
  | keyCount | key j | childOptrCount | child j | dataOptrCount | data j => rfl

theorem LiesAt.setKeyCount (lies : it.LiesAt m p) {num : Nat} (small : num < 256 ^ 1) :
    (it.setKeyCount num).LiesAt (lay m (p + 5) (be 1 num)) p := by
  refine lies.write (f := .keyCount) trivial small rfl fun g _ other => ?_
  cases g with
  | keyCount => exact absurd rfl other
  | parent | key j | childOptrCount | child j | dataOptrCount | data j => rfl

/-- The bytes of a key, and of what `rawKey` reads behind the last one. -/
theorem LiesAt.readKey (lies : it.LiesAt m p) {index : Nat} (inside : index ≤ 3) :
    Fin.ofNat (2 ^ 160) (ofBe (slice m (p + (6 + 20 * index)) 20)) =
      if index < 3 then it.keySlot index else it.pastKeys := by
  split_ifs with slot
  · have read : ofBe (slice m (p + (6 + 20 * index)) 20) = (it.keySlot index).val := lies.read (f := .key index) slot
    rw [read]
    exact Fin.ofNat_val_eq_self _
  obtain rfl : index = 3 := by omega
  have count : it.childOptrCount < 256 ^ 1 := lies.fits .childOptrCount trivial
  have child : ∀ i < 4, it.childSlot i < 256 ^ 5 := fun i inside => lies.fits (.child i) inside
  have bytes : ∀ i < 4, slice m (p + (67 + 5 * i)) 5 = be 5 (it.childSlot i) := fun i inside =>
    lies.bytes (.child i) inside
  have counted : slice m (p + 66) 1 = be 1 it.childOptrCount := lies.bytes .childOptrCount trivial
  have c₀ := child 0 (by decide)
  have c₁ := child 1 (by decide)
  have c₂ := child 2 (by decide)
  have c₃ := child 3 (by decide)
  obtain ⟨N, total⟩ : ∃ N, N = it.childOptrCount * 2 ^ 160 + (it.childSlot 0 * 2 ^ 120 + it.childSlot 1 * 2 ^ 80 +
    it.childSlot 2 * 2 ^ 40 + it.childSlot 3) := ⟨_, rfl⟩
  have part : ∀ n v, n % 256 ^ 5 = v → be 5 n = be 5 v := by
    rintro n _ rfl
    rw [be_mod]
  have area : slice m (p + 66) 21 = be 21 N := by
    have spelled : be 21 N = be 1 (N / 256 ^ 20) ++ be 5 (N / 256 ^ 15) ++ be 5 (N / 256 ^ 10) ++
        be 5 (N / 256 ^ 5) ++ be 5 N := by
      rw [be_add 16 5, be_add 11 5, be_add 6 5, be_add 1 5]
      simp only [Nat.div_div_eq_div_mul, ← pow_add]
    rw [spelled, part (N / 256 ^ 15) (it.childSlot 0) (by omega), part (N / 256 ^ 10) (it.childSlot 1) (by omega),
      part (N / 256 ^ 5) (it.childSlot 2) (by omega), part N (it.childSlot 3) (by omega),
      show N / 256 ^ 20 = it.childOptrCount by omega, ← counted, ← bytes 0 (by decide), ← bytes 1 (by decide),
      ← bytes 2 (by decide), ← bytes 3 (by decide)]
    rw [slice_append m (p + 66) 16 5, slice_append m (p + 66) 11 5, slice_append m (p + 66) 6 5,
      slice_append m (p + 66) 1 5]
  rw [slice_append m (p + 66) 20 1, be_add 20 1] at area
  have front : slice m (p + 66) 20 = be 20 (N / 256 ^ 1) := (List.append_inj area (by simp)).1
  have value : ofBe (slice m (p + 66) 20) = it.childOptrCount * 2 ^ 152 + (it.childSlot 0 * 2 ^ 120 +
      it.childSlot 1 * 2 ^ 80 + it.childSlot 2 * 2 ^ 40 + it.childSlot 3) / 2 ^ 8 := by
    rw [front, ofBe_be]
    omega
  exact congrArg (Fin.ofNat (2 ^ 160)) value

/-- A count is one byte. -/
theorem LiesAt.readCount (lies : it.LiesAt m p) {f : ItemField} (inside : f.Inside) (one : f.width = 1) :
    (m (p + f.offset)).toNat = it.field f := by
  have read := lies.read inside
  rw [one] at read
  rw [← read]
  simp [slice, ofBe, ofLe]

end ItemSet

namespace ONodeItemSet
variable {pageSize fuel : Nat} {t : CacheTable} {m : Memory} {it it' : ItemSet} {p : Nat}

/-- The table shows a memory in which the block lies, with the old bytes beside it. -/
def Holds (t : CacheTable) (m : Memory) (p : Nat) (it : ItemSet) : Prop :=
  ∃ m', t.Shows m' ∧ it.LiesAt m' p ∧ ∀ x, x < p ∨ p + 103 ≤ x → m' x = m x

theorem holds_of_shows (shows : t.Shows m) (lies : it.LiesAt m p) : Holds t m p it :=
  ⟨m, shows, lies, fun _ _ => rfl⟩

section Addresses
variable (low : p + 103 ≤ 2 ^ 24) {index : Nat}
include low

theorem plus_key (inside : index ≤ 3) :
    Optr.plus p (KEY_ELEMENT_OFFSET + ELEMENT_COUNT_SIZE + index * KEY_SIZE) = some (p + (6 + 20 * index)) := by
  rw [show KEY_ELEMENT_OFFSET + ELEMENT_COUNT_SIZE + index * KEY_SIZE = 6 + 20 * index by rw [mul_comm]; rfl]
  exact plus_of_lt (by omega) (by omega)

theorem plus_child (inside : index ≤ 4) :
    Optr.plus p (CHILD_ELEMENT_OFFSET + ELEMENT_COUNT_SIZE + index * NODE_OPTR_SIZE) =
      some (p + (67 + 5 * index)) := by
  rw [show CHILD_ELEMENT_OFFSET + ELEMENT_COUNT_SIZE + index * NODE_OPTR_SIZE = 67 + 5 * index by rw [mul_comm]; rfl]
  exact plus_of_lt (by omega) (by omega)

theorem plus_data (inside : index < 3) :
    Optr.plus p (DATA_OPTR_ELEMENT_OFFSET + ELEMENT_COUNT_SIZE + index * DATA_OPTR_SIZE) =
      some (p + (88 + 5 * index)) := by
  rw [show DATA_OPTR_ELEMENT_OFFSET + ELEMENT_COUNT_SIZE + index * DATA_OPTR_SIZE = 88 + 5 * index by
    rw [mul_comm]; rfl]
  exact plus_of_lt (by omega) (by omega)

end Addresses

section Places
variable (shows : t.Shows m) (aligned : pageSize ∣ frameSize) (enough : CACHE_BLOCK_COUNT ≤ fuel)
  (low : p + 103 ≤ 2 ^ 24)
include shows aligned enough low

/-- Bytes copied to a place of the block. -/
theorem copyIn_holds {k : Nat} {l : List UInt8} (inside : k < 103 ∧ k + l.length ≤ 103)
    (lies : it'.LiesAt (lay m (p + k) l) p) :
    ∃ t', t.copyIn pageSize fuel (p + k) l = some t' ∧ Holds t' m p it' := by
  obtain ⟨t', run, shows'⟩ := CacheTable.copyIn_run shows aligned enough (p + k) l (by omega) (by omega)
  exact ⟨t', run, _, shows', lies, fun x outside => lay_of_outside m (by omega)⟩

theorem setCount_holds {k num : Nat} (inside : k < 103) (lies : it'.LiesAt (lay m (p + k) (be 1 num)) p) :
    ∃ t', (do t.setValue pageSize fuel (← Optr.plus p k) (UInt8.ofNat num)) = some t' ∧ Holds t' m p it' := by
  obtain ⟨t', run, shows'⟩ := CacheTable.setValue_run shows aligned enough (a := p + k) (by omega) (UInt8.ofNat num)
  have one : Function.update m (p + k) (UInt8.ofNat num) = lay m (p + k) (be 1 num) := rfl
  rw [one] at shows'
  refine ⟨t', ?_, _, shows', lies, fun x outside => lay_of_outside m (by rw [length_be]; omega)⟩
  rw [plus_of_lt (by omega) (by omega)]
  exact run

theorem count_run {f : ItemField} (lies : it.LiesAt m p) (inside : f.Inside) (one : f.width = 1) :
    ∃ t', (do
      let (count, t) ← t.value pageSize fuel (← Optr.plus p f.offset)
      return (count.toNat, t)) = some (it.field f, t') ∧ t'.Shows m := by
  have ends := ItemField.ends inside
  obtain ⟨t', run, shows'⟩ := CacheTable.value_run shows aligned enough (a := p + f.offset) (by omega)
  refine ⟨t', ?_, shows'⟩
  rw [plus_of_lt (by omega) (by omega), Option.bind_eq_bind, Option.bind_some, run, Option.bind_eq_bind,
    Option.bind_some, ← lies.readCount inside one]
  rfl

variable (lies : it.LiesAt m p)
include lies

theorem keyCount_run : ∃ t', keyCount pageSize fuel t p = some (it.keyCount, t') ∧ t'.Shows m :=
  count_run shows aligned enough low (f := .keyCount) lies trivial rfl

theorem childOptrCount_run : ∃ t', childOptrCount pageSize fuel t p = some (it.childOptrCount, t') ∧ t'.Shows m :=
  count_run shows aligned enough low (f := .childOptrCount) lies trivial rfl

theorem dataOptrCount_run : ∃ t', dataOptrCount pageSize fuel t p = some (it.dataOptrCount, t') ∧ t'.Shows m :=
  count_run shows aligned enough low (f := .dataOptrCount) lies trivial rfl

theorem parent_run : ∃ t', parent pageSize fuel t p = some (it.parent, t') ∧ t'.Shows m := by
  obtain ⟨t', run, shows'⟩ := CacheTable.copyOut_run shows aligned enough p 5 (by omega) (by decide)
  have read : ofBe (slice m p 5) = it.parent := lies.read (f := .parent) trivial
  refine ⟨t', ?_, shows'⟩
  simp only [parent, run, read, Option.bind_eq_bind, Option.bind_some, Option.pure_def]

theorem rawKey_run {index : Nat} (within : index ≤ it.keyCount → index ≤ 3) :
    ∃ t', rawKey pageSize fuel t p index = some (it.rawKey index, t') ∧ t'.Shows m := by
  obtain ⟨t₁, counted, shows₁⟩ := keyCount_run shows aligned enough low lies
  by_cases past : it.keyCount < index
  · refine ⟨t₁, ?_, shows₁⟩
    simp only [rawKey, key, counted, ItemSet.rawKey, past, gt_iff_lt, if_true, Option.bind_eq_bind, Option.bind_some,
      Option.pure_def]
  have inside := within (by omega)
  obtain ⟨t₂, run, shows₂⟩ := CacheTable.copyOut_run shows₁ aligned enough (p + (6 + 20 * index)) KEY_SIZE
    (by omega) (by decide)
  refine ⟨t₂, ?_, shows₂⟩
  simp only [rawKey, key, counted, plus_key low inside, run, ItemSet.rawKey, past, gt_iff_lt, if_false,
    Option.bind_eq_bind, Option.bind_some, Option.pure_def]
  exact congrArg (fun k => some (some k, t₂)) (lies.readKey inside)

theorem childOptr_run {index : Nat} (within : index < it.childOptrCount → index < 4) :
    ∃ t', childOptr pageSize fuel t p index = some (it.childOptr index, t') ∧ t'.Shows m := by
  obtain ⟨t₁, counted, shows₁⟩ := childOptrCount_run shows aligned enough low lies
  by_cases past : it.childOptrCount ≤ index
  · refine ⟨t₁, ?_, shows₁⟩
    simp only [childOptr, counted, ItemSet.childOptr, past, ge_iff_le, if_true, Option.bind_eq_bind, Option.bind_some,
      Option.pure_def]
  have inside := within (by omega)
  obtain ⟨t₂, run, shows₂⟩ := CacheTable.copyOut_run shows₁ aligned enough (p + (67 + 5 * index)) 5
    (by omega) (by decide)
  have read : ofBe (slice m (p + (67 + 5 * index)) 5) = it.childSlot index := lies.read (f := .child index) inside
  refine ⟨t₂, ?_, shows₂⟩
  simp only [childOptr, counted, plus_child low inside.le, run, read, ItemSet.childOptr, past, ge_iff_le, if_false,
    Option.bind_eq_bind, Option.bind_some, Option.pure_def]

theorem dataOptr_run {index : Nat} (within : index ≤ it.dataOptrCount → index < 3) :
    ∃ t', dataOptr pageSize fuel t p index = some (it.dataOptr index, t') ∧ t'.Shows m := by
  obtain ⟨t₁, counted, shows₁⟩ := dataOptrCount_run shows aligned enough low lies
  by_cases past : it.dataOptrCount < index
  · refine ⟨t₁, ?_, shows₁⟩
    simp only [dataOptr, counted, ItemSet.dataOptr, past, gt_iff_lt, if_true, Option.bind_eq_bind, Option.bind_some,
      Option.pure_def]
  have inside := within (by omega)
  obtain ⟨t₂, run, shows₂⟩ := CacheTable.copyOut_run shows₁ aligned enough (p + (88 + 5 * index)) DATA_OPTR_SIZE
    (by omega) (by decide)
  have read : ofBe (slice m (p + (88 + 5 * index)) DATA_OPTR_SIZE) = it.dataSlot index :=
    lies.read (f := .data index) inside
  refine ⟨t₂, ?_, shows₂⟩
  simp only [dataOptr, counted, plus_data low inside, run, read, ItemSet.dataOptr, past, gt_iff_lt, if_false,
    Option.bind_eq_bind, Option.bind_some, Option.pure_def]

theorem setKey_run (index : Nat) (k : Key) :
    ∃ t', setKey pageSize fuel t p index k = some t' ∧ Holds t' m p (it.setKey index k) := by
  by_cases past : index > 3
  · refine ⟨t, if_pos past, ?_⟩
    rw [ItemSet.setKey, if_neg (by omega), if_neg (by omega)]
    exact holds_of_shows shows lies
  obtain ⟨t', run, holds⟩ := copyIn_holds shows aligned enough low (l := be 20 k.val) (by rw [length_be]; omega)
    (lies.setKey (Nat.le_of_not_gt past) k)
  refine ⟨t', ?_, holds⟩
  rw [setKey, if_neg (show ¬index > DEFAULT_KEY_COUNT from past), plus_key low (Nat.le_of_not_gt past)]
  exact run

theorem setChildOptr_run (index : Nat) {target : Nat} (small : target < 2 ^ 40) :
    ∃ t', setChildOptr pageSize fuel t p index target = some t' ∧ Holds t' m p (it.setChildOptr index target) := by
  by_cases past : index > 4
  · refine ⟨t, if_pos past, ?_⟩
    rw [ItemSet.setChildOptr, if_neg (by omega), if_neg (by omega)]
    exact holds_of_shows shows lies
  obtain ⟨t', run, holds⟩ := copyIn_holds shows aligned enough low (l := be 5 target) (by rw [length_be]; omega)
    (lies.setChildOptr (Nat.le_of_not_gt past) small)
  refine ⟨t', ?_, holds⟩
  rw [setChildOptr, if_neg (show ¬index > DEFAULT_CHILD_COUNT from past), plus_child low (Nat.le_of_not_gt past)]
  exact run

theorem setDataOptr_run {index target : Nat} (slot : index < 3) (small : target < 2 ^ 40) :
    ∃ t', setDataOptr pageSize fuel t p index target = some t' ∧ Holds t' m p (it.setDataOptr index target) := by
  obtain ⟨t', run, holds⟩ := copyIn_holds shows aligned enough low (l := be 5 target) (by rw [length_be]; omega)
    (lies.setDataOptr slot small)
  have plus := plus_data low slot
  refine ⟨t', ?_, holds⟩
  rw [setDataOptr, show NODE_OPTR_SIZE = DATA_OPTR_SIZE from rfl, plus]
  exact run

theorem setParent_run {target : Nat} (small : target < 2 ^ 40) :
    ∃ t', setParent pageSize fuel t p target = some t' ∧ Holds t' m p (it.setParent target) :=
  copyIn_holds shows aligned enough low (k := 0) (l := be 5 target) (by rw [length_be]; omega) (lies.setParent small)

theorem setKeyCount_run {num : Nat} (small : num < 2 ^ 8) :
    ∃ t', setKeyCount pageSize fuel t p num = some t' ∧ Holds t' m p (it.setKeyCount num) :=
  setCount_holds shows aligned enough low (by decide) (lies.setKeyCount small)

theorem setChildOptrCount_run {num : Nat} (small : num < 2 ^ 8) :
    ∃ t', setChildOptrCount pageSize fuel t p num = some t' ∧ Holds t' m p (it.setChildOptrCount num) :=
  setCount_holds shows aligned enough low (by decide) (lies.setChildOptrCount small)

theorem setDataOptrCount_run {num : Nat} (small : num < 2 ^ 8) :
    ∃ t', setDataOptrCount pageSize fuel t p num = some t' ∧ Holds t' m p (it.setDataOptrCount num) :=
  setCount_holds shows aligned enough low (by decide) (lies.setDataOptrCount small)

end Places

/-- A block is cleared whatever was there. -/
theorem clear_run (shows : t.Shows m) (aligned : pageSize ∣ frameSize) (enough : CACHE_BLOCK_COUNT ≤ fuel)
    (low : p + 103 ≤ 2 ^ 24) : ∃ t', clear pageSize fuel t p = some t' ∧ Holds t' m p {} :=
  copyIn_holds shows aligned enough low (k := 0) (l := List.replicate 103 0) (by simp) (ItemSet.liesAt_clear m p)

/-- A call on a block does in the file what it does to the fields, and nothing beside the block. -/
theorem node_run (shows : t.Shows m) (aligned : pageSize ∣ frameSize) (enough : CACHE_BLOCK_COUNT ≤ fuel)
    (low : p + 103 ≤ 2 ^ 24) (lies : it.LiesAt m p) {call : NodeCall} (within : it.Within call) :
    ∃ t', t.node pageSize fuel p call = some ((it.call call).1, t') ∧ Holds t' m p (it.call call).2 := by
  have reads : ∀ {t'}, CacheTable.Shows t' m → Holds t' m p it := fun shows' => holds_of_shows shows' lies
  cases call with
  | clear =>
    obtain ⟨t', run, holds⟩ := clear_run shows aligned enough low
    exact ⟨t', by rw [CacheTable.node, run]; rfl, holds⟩
  | parent =>
    obtain ⟨t', run, shows'⟩ := parent_run shows aligned enough low lies
    exact ⟨t', by rw [CacheTable.node, run]; rfl, reads shows'⟩
  | keyCount =>
    obtain ⟨t', run, shows'⟩ := keyCount_run shows aligned enough low lies
    exact ⟨t', by rw [CacheTable.node, run]; rfl, reads shows'⟩
  | childOptrCount =>
    obtain ⟨t', run, shows'⟩ := childOptrCount_run shows aligned enough low lies
    exact ⟨t', by rw [CacheTable.node, run]; rfl, reads shows'⟩
  | dataOptrCount =>
    obtain ⟨t', run, shows'⟩ := dataOptrCount_run shows aligned enough low lies
    exact ⟨t', by rw [CacheTable.node, run]; rfl, reads shows'⟩
  | rawKey index =>
    obtain ⟨t', run, shows'⟩ := rawKey_run shows aligned enough low lies within
    exact ⟨t', by rw [CacheTable.node, run]; rfl, reads shows'⟩
  | childOptr index =>
    obtain ⟨t', run, shows'⟩ := childOptr_run shows aligned enough low lies within
    exact ⟨t', run, reads shows'⟩
  | dataOptr index =>
    obtain ⟨t', run, shows'⟩ := dataOptr_run shows aligned enough low lies within
    exact ⟨t', run, reads shows'⟩
  | setParent target =>
    obtain ⟨t', run, holds⟩ := setParent_run shows aligned enough low lies within
    exact ⟨t', by rw [CacheTable.node, run]; rfl, holds⟩
  | setKeyCount num =>
    obtain ⟨t', run, holds⟩ := setKeyCount_run shows aligned enough low lies within
    exact ⟨t', by rw [CacheTable.node, run]; rfl, holds⟩
  | setKey index k =>
    obtain ⟨t', run, holds⟩ := setKey_run shows aligned enough low lies index k
    exact ⟨t', by rw [CacheTable.node, run]; rfl, holds⟩
  | setChildOptrCount num =>
    obtain ⟨t', run, holds⟩ := setChildOptrCount_run shows aligned enough low lies within
    exact ⟨t', by rw [CacheTable.node, run]; rfl, holds⟩
  | setChildOptr index target =>
    obtain ⟨t', run, holds⟩ := setChildOptr_run shows aligned enough low lies index within
    exact ⟨t', by rw [CacheTable.node, run]; rfl, holds⟩
  | setDataOptrCount num =>
    obtain ⟨t', run, holds⟩ := setDataOptrCount_run shows aligned enough low lies within
    exact ⟨t', by rw [CacheTable.node, run]; rfl, holds⟩
  | setDataOptr index target =>
    obtain ⟨t', run, holds⟩ := setDataOptr_run shows aligned enough low lies within.1 within.2
    exact ⟨t', by rw [CacheTable.node, run]; rfl, holds⟩

end ONodeItemSet

end MiyaCore
