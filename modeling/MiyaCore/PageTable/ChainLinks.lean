import MiyaCore.LinkRing
import MiyaCore.PageTable.ControlFile
import Mathlib.Tactic.ByContra

namespace MiyaCore.ControlFile
open LinkRing

section Fields
variable (f : ControlFile) (b v x : Nat) (c d : Chain)

@[simp] theorem setPrev_prev : (f.setPrev b v).prev x = if x = b then v else f.prev x := by
  by_cases same : x = b <;> simp [setPrev, setBlock, prev, same]
@[simp] theorem setPrev_next : (f.setPrev b v).next x = f.next x := by
  by_cases same : x = b <;> simp [setPrev, setBlock, next, same]
@[simp] theorem setPrev_mapping : (f.setPrev b v).mapping x = f.mapping x := by
  by_cases same : x = b <;> simp [setPrev, setBlock, mapping, same]
@[simp] theorem setPrev_blockEnd : (f.setPrev b v).blockEnd x = f.blockEnd x := by
  by_cases same : x = b <;> simp [setPrev, setBlock, blockEnd, same]
@[simp] theorem setPrev_head : (f.setPrev b v).head c = f.head c := rfl
@[simp] theorem setPrev_tail : (f.setPrev b v).controlBlockTail = f.controlBlockTail := rfl

@[simp] theorem setNext_next : (f.setNext b v).next x = if x = b then v else f.next x := by
  by_cases same : x = b <;> simp [setNext, setBlock, next, same]
@[simp] theorem setNext_prev : (f.setNext b v).prev x = f.prev x := by
  by_cases same : x = b <;> simp [setNext, setBlock, prev, same]
@[simp] theorem setNext_mapping : (f.setNext b v).mapping x = f.mapping x := by
  by_cases same : x = b <;> simp [setNext, setBlock, mapping, same]
@[simp] theorem setNext_blockEnd : (f.setNext b v).blockEnd x = f.blockEnd x := by
  by_cases same : x = b <;> simp [setNext, setBlock, blockEnd, same]
@[simp] theorem setNext_head : (f.setNext b v).head c = f.head c := rfl
@[simp] theorem setNext_tail : (f.setNext b v).controlBlockTail = f.controlBlockTail := rfl

@[simp] theorem setMapping_mapping : (f.setMapping b v).mapping x = if x = b then v else f.mapping x := by
  by_cases same : x = b <;> simp [setMapping, setBlock, mapping, same]
@[simp] theorem setMapping_prev : (f.setMapping b v).prev x = f.prev x := by
  by_cases same : x = b <;> simp [setMapping, setBlock, prev, same]
@[simp] theorem setMapping_next : (f.setMapping b v).next x = f.next x := by
  by_cases same : x = b <;> simp [setMapping, setBlock, next, same]
@[simp] theorem setMapping_blockEnd : (f.setMapping b v).blockEnd x = f.blockEnd x := by
  by_cases same : x = b <;> simp [setMapping, setBlock, blockEnd, same]
@[simp] theorem setMapping_head : (f.setMapping b v).head c = f.head c := rfl
@[simp] theorem setMapping_tail : (f.setMapping b v).controlBlockTail = f.controlBlockTail := rfl

@[simp] theorem setEnd_blockEnd : (f.setEnd b v).blockEnd x = if x = b then v else f.blockEnd x := by
  by_cases same : x = b <;> simp [setEnd, setBlock, blockEnd, same]
@[simp] theorem setEnd_prev : (f.setEnd b v).prev x = f.prev x := by
  by_cases same : x = b <;> simp [setEnd, setBlock, prev, same]
@[simp] theorem setEnd_next : (f.setEnd b v).next x = f.next x := by
  by_cases same : x = b <;> simp [setEnd, setBlock, next, same]
@[simp] theorem setEnd_mapping : (f.setEnd b v).mapping x = f.mapping x := by
  by_cases same : x = b <;> simp [setEnd, setBlock, mapping, same]
@[simp] theorem setEnd_head : (f.setEnd b v).head c = f.head c := rfl
@[simp] theorem setEnd_tail : (f.setEnd b v).controlBlockTail = f.controlBlockTail := rfl

@[simp] theorem putHead_head : (f.putHead c v).head d = if d = c then v else f.head d := rfl
@[simp] theorem putHead_prev : (f.putHead c v).prev x = f.prev x := rfl
@[simp] theorem putHead_next : (f.putHead c v).next x = f.next x := rfl
@[simp] theorem putHead_mapping : (f.putHead c v).mapping x = f.mapping x := rfl
@[simp] theorem putHead_blockEnd : (f.putHead c v).blockEnd x = f.blockEnd x := rfl
@[simp] theorem putHead_tail : (f.putHead c v).controlBlockTail = f.controlBlockTail := rfl

@[simp] theorem setTail_head : (f.setTail v).head c = f.head c := rfl
@[simp] theorem setTail_prev : (f.setTail v).prev x = f.prev x := rfl
@[simp] theorem setTail_next : (f.setTail v).next x = f.next x := rfl
@[simp] theorem setTail_mapping : (f.setTail v).mapping x = f.mapping x := rfl
@[simp] theorem setTail_blockEnd : (f.setTail v).blockEnd x = f.blockEnd x := rfl
@[simp] theorem setTail_tail : (f.setTail v).controlBlockTail = v := rfl

end Fields

/-- The data half of a control file: which bytes each block maps, and the tail. -/
def SameData (f g : ControlFile) : Prop :=
  (∀ b, g.mapping b = f.mapping b) ∧ (∀ b, g.blockEnd b = f.blockEnd b) ∧
  g.controlBlockTail = f.controlBlockTail

theorem SameData.refl (f : ControlFile) : SameData f f := ⟨fun _ => rfl, fun _ => rfl, rfl⟩

theorem SameData.trans {f g h : ControlFile} (first : SameData f g) (second : SameData g h) : SameData f h :=
  ⟨fun b => (second.1 b).trans (first.1 b), fun b => (second.2.1 b).trans (first.2.1 b),
    second.2.2.trans first.2.2⟩

theorem setHead_sameData (c : Chain) (f : ControlFile) (target : Option Nat) :
    SameData f (setHead c f target) := by
  cases target with
  | none => exact ⟨fun _ => rfl, fun _ => rfl, rfl⟩
  | some t =>
    simp only [setHead]
    split
    · refine ⟨fun b => ?_, fun b => ?_, rfl⟩ <;> simp
    · refine ⟨fun b => ?_, fun b => ?_, rfl⟩ <;> simp

/-- The three chains of a control file, each given by its members in order from
the head. -/
structure Linked (f : ControlFile) (R : Chain → List Nat) : Prop where
  ring : ∀ c, IsRing f.next f.prev (R c)
  head : ∀ c, f.head c = (R c).headD 0
  nonzero : ∀ c, ∀ b ∈ R c, b ≠ 0
  apart : ∀ c d, c ≠ d → ∀ b ∈ R c, b ∉ R d

/-- The chains `R` with the members of chain `c` replaced. -/
def withChain (R : Chain → List Nat) (c : Chain) (l : List Nat) : Chain → List Nat :=
  fun d => if d = c then l else R d

@[simp] theorem withChain_self (R : Chain → List Nat) (c : Chain) (l : List Nat) : withChain R c l c = l := by
  simp [withChain]

@[simp] theorem withChain_other {R : Chain → List Nat} {c d : Chain} {l : List Nat} (different : d ≠ c) :
    withChain R c l d = R d := by
  simp [withChain, different]

namespace Linked
variable {f g : ControlFile} {R : Chain → List Nat}

theorem head_eq_zero_iff (linked : Linked f R) (c : Chain) : f.head c = 0 ↔ R c = [] := by
  rw [linked.head c]
  cases atChain : R c with
  | nil => simp
  | cons h t =>
    have := linked.nonzero c h (by simp [atChain])
    simpa using this

theorem head_mem (linked : Linked f R) {c : Chain} (nonempty : R c ≠ []) : f.head c ∈ R c := by
  rw [linked.head c]
  cases atChain : R c with
  | nil => exact absurd atChain nonempty
  | cons h t => simp

/-- A chain's head is not a member of another chain. -/
theorem head_ne_of_mem (linked : Linked f R) {c d : Chain} (different : c ≠ d) {b : Nat} (member : b ∈ R c) :
    f.head d ≠ b := by
  intro same
  by_cases empty : R d = []
  · exact linked.nonzero c b member (same ▸ (linked.head_eq_zero_iff d).mpr empty)
  · exact linked.apart c d different b member (same ▸ linked.head_mem empty)

/-- Equal links and heads carry the same chains. -/
theorem congr (linked : Linked f R) (next : ∀ b, g.next b = f.next b) (prev : ∀ b, g.prev b = f.prev b)
    (head : ∀ c, g.head c = f.head c) : Linked g R where
  ring c := (linked.ring c).congr (fun b _ => next b) (fun b _ => prev b)
  head c := (head c).trans (linked.head c)
  nonzero := linked.nonzero
  apart := linked.apart

theorem setMapping (linked : Linked f R) (b v : Nat) : Linked (f.setMapping b v) R :=
  linked.congr (by simp) (by simp) (by simp)

theorem setEnd (linked : Linked f R) (b v : Nat) : Linked (f.setEnd b v) R :=
  linked.congr (by simp) (by simp) (by simp)

theorem setTail (linked : Linked f R) (v : Nat) : Linked (f.setTail v) R :=
  linked.congr (by simp) (by simp) (by simp)

/-- A chain with one member can be dropped by clearing its head. -/
theorem clearHead (linked : Linked f R) (c : Chain) : Linked (setHead c f none) (withChain R c []) where
  ring d := by
    by_cases same : d = c
    · simp [withChain, same, IsRing]
    · rw [withChain_other same]
      exact (linked.ring d).congr (fun _ _ => rfl) (fun _ _ => rfl)
  head d := by
    by_cases same : d = c
    · simp [withChain, same, setHead]
    · simpa [withChain, same, setHead] using linked.head d
  nonzero d b member := by
    by_cases same : d = c
    · simp [withChain, same] at member
    · exact linked.nonzero d b (by simpa [withChain, same] using member)
  apart d e different b member := by
    by_cases same : d = c
    · simp [withChain, same] at member
    · by_cases same' : e = c
      · simp [withChain, same']
      · rw [withChain_other same']
        exact linked.apart d e different b (by simpa [withChain, same] using member)

/-- A head setter given a block outside every chain links it in as the new head. -/
theorem setHead_fresh (linked : Linked f R) (c : Chain) {x : Nat} (nonzero : x ≠ 0) (fresh : ∀ d, x ∉ R d) :
    Linked (setHead c f (some x)) (withChain R c (x :: R c)) := by
  have disjoint : ∀ d e, d ≠ e → ∀ b ∈ withChain R c (x :: R c) d, b ∉ withChain R c (x :: R c) e := by
    intro d e different b member
    by_cases same : d = c
    · subst same
      rw [withChain_other (Ne.symm different)]
      rcases List.mem_cons.mp (by simpa using member) with rfl | old
      · exact fresh e
      · exact linked.apart d e different b old
    · rw [withChain_other same] at member
      by_cases same' : e = c
      · subst same'
        rw [withChain_self]
        intro inNew
        rcases List.mem_cons.mp inNew with rfl | old
        · exact fresh d member
        · exact linked.apart d e different b member old
      · rw [withChain_other same']
        exact linked.apart d e different b member
  have positive : ∀ d, ∀ b ∈ withChain R c (x :: R c) d, b ≠ 0 := by
    intro d b member
    by_cases same : d = c
    · subst same
      rcases List.mem_cons.mp (by simpa using member) with rfl | old
      · exact nonzero
      · exact linked.nonzero d b old
    · exact linked.nonzero d b (by simpa [withChain, same] using member)
  cases atChain : R c with
  | nil =>
    have empty : f.head c = 0 := (linked.head_eq_zero_iff c).mpr atChain
    refine ⟨fun d => ?_, fun d => ?_, atChain ▸ positive, atChain ▸ disjoint⟩
    · by_cases same : d = c
      · subst same
        rw [withChain_self]
        exact isRing_singleton (by simp [setHead, empty]) (by simp [setHead, empty])
      · rw [withChain_other same]
        refine (linked.ring d).congr (fun b member => ?_) (fun b member => ?_)
        · have : b ≠ x := fun equal => fresh d (equal ▸ member)
          simp [setHead, empty, this]
        · have : b ≠ x := fun equal => fresh d (equal ▸ member)
          simp [setHead, empty, this]
    · by_cases same : d = c
      · subst same
        simp [setHead, empty]
      · simpa [setHead, empty, same, withChain] using linked.head d
  | cons h t =>
    have headIs : f.head c = h := by rw [linked.head c, atChain]; rfl
    have ringC : IsRing f.next f.prev (h :: t) := atChain ▸ linked.ring c
    have freshC : x ∉ h :: t := atChain ▸ fresh c
    have lastMem : f.prev h ∈ h :: t := ringC.prev_head_mem
    have headNonzero : h ≠ 0 := linked.nonzero c h (by simp [atChain])
    have xh : x ≠ h := fun same => freshC (same ▸ List.mem_cons_self ..)
    have xl : x ≠ f.prev h := fun same => freshC (same ▸ lastMem)
    have nextOf : ∀ y, (setHead c f (some x)).next y =
        if y = f.prev h then x else if y = x then h else f.next y := by
      intro y
      simp [setHead, headIs, headNonzero, xh.symm]
    have prevOf : ∀ y, (setHead c f (some x)).prev y =
        if y = h then x else if y = x then f.prev h else f.prev y := by
      intro y
      simp [setHead, headIs, headNonzero]
    refine ⟨fun d => ?_, fun d => ?_, atChain ▸ positive, atChain ▸ disjoint⟩
    · by_cases same : d = c
      · subst same
        rw [withChain_self]
        refine ringC.insert_head freshC ?_ ?_ ?_ ?_ ?_ ?_
        · rw [nextOf, if_neg xl, if_pos rfl]
        · rw [prevOf, if_neg xh, if_pos rfl]
        · rw [nextOf, if_pos rfl]
        · rw [prevOf, if_pos rfl]
        · intro y member ne
          have : y ≠ x := fun equal => freshC (equal ▸ member)
          rw [nextOf, if_neg ne, if_neg this]
        · intro y member
          have : y ≠ x := fun equal => freshC (equal ▸ List.mem_cons_of_mem _ member)
          have : y ≠ h := fun equal => (List.nodup_cons.mp ringC.nodup).1 (equal ▸ member)
          rw [prevOf, if_neg this, if_neg ‹y ≠ x›]
      · rw [withChain_other same]
        refine (linked.ring d).congr (fun b member => ?_) (fun b member => ?_)
        · have bx : b ≠ x := fun equal => fresh d (equal ▸ member)
          have bl : b ≠ f.prev h := fun equal =>
            linked.apart d c same b member (atChain ▸ equal ▸ lastMem)
          rw [nextOf, if_neg bl, if_neg bx]
        · have bx : b ≠ x := fun equal => fresh d (equal ▸ member)
          have bh : b ≠ h := fun equal =>
            linked.apart d c same b member (by simp [atChain, equal])
          rw [prevOf, if_neg bh, if_neg bx]
    · by_cases same : d = c
      · subst same
        simp [setHead, headIs, headNonzero]
      · simpa [setHead, headIs, headNonzero, same, withChain] using linked.head d

/-- Re-linking only inside chain `c` leaves the other chains as they are. -/
theorem replaceChain (linked : Linked f R) (c : Chain) {l : List Nat} (sub : ∀ b ∈ l, b ∈ R c)
    (ring : IsRing g.next g.prev l) (headC : g.head c = l.headD 0) (heads : ∀ d, d ≠ c → g.head d = f.head d)
    (next : ∀ b, b ∉ R c → g.next b = f.next b) (prev : ∀ b, b ∉ R c → g.prev b = f.prev b) :
    Linked g (withChain R c l) where
  ring d := by
    by_cases same : d = c
    · rw [same, withChain_self]
      exact ring
    · rw [withChain_other same]
      exact (linked.ring d).congr (fun b member => next b (linked.apart d c same b member))
        (fun b member => prev b (linked.apart d c same b member))
  head d := by
    by_cases same : d = c
    · rw [same, withChain_self, headC]
    · rw [withChain_other same, heads d same, linked.head d]
  nonzero d b member := by
    by_cases same : d = c
    · rw [same, withChain_self] at member
      exact linked.nonzero c b (sub b member)
    · exact linked.nonzero d b (by simpa [withChain, same] using member)
  apart d e different b member := by
    by_cases same : d = c
    · rw [same, withChain_self] at member
      rw [withChain_other (fun equal => different (same.trans equal.symm))]
      exact linked.apart c e (same ▸ different) b (sub b member)
    · rw [withChain_other same] at member
      by_cases same' : e = c
      · rw [same', withChain_self]
        exact fun inNew => linked.apart d c same b member (sub b inNew)
      · rw [withChain_other same']
        exact linked.apart d e different b member

/-- A member of a two block chain has the other one on both sides. -/
theorem pair_links (linked : Linked f R) {c : Chain} {x y : Nat} (atChain : R c = [x, y]) :
    f.next x = y ∧ f.prev x = y ∧ f.next y = x ∧ f.prev y = x ∧ x ≠ y := by
  have ring : IsRing f.next f.prev [x, y] := atChain ▸ linked.ring c
  obtain ⟨⟨⟨out, back⟩, out', back'⟩, distinct⟩ := ring
  exact ⟨out, back', out', back, by simpa using distinct⟩

/-- Moving the head of a two block chain to the other block, together with the
unlinking that goes with it, leaves that block alone in the chain. -/
theorem advanceHead_pair (linked : Linked f R) {c : Chain} {x y : Nat} (atChain : R c = [x, y])
    (next : ∀ b, g.next b = if b = y then y else f.next b)
    (prev : ∀ b, g.prev b = if b = y then y else f.prev b)
    (head : ∀ d, g.head d = if d = c then y else f.head d) : Linked g (withChain R c [y]) := by
  refine linked.replaceChain c (by simp [atChain]) ?_ (by simp [head]) (fun d ne => by simp [head, ne]) ?_ ?_
  · exact isRing_singleton (by simp [next]) (by simp [prev])
  · intro b outside
    have : b ≠ y := fun equal => outside (by simp [atChain, equal])
    simp [next, this]
  · intro b outside
    have : b ≠ y := fun equal => outside (by simp [atChain, equal])
    simp [prev, this]

end Linked

end MiyaCore.ControlFile
