import MiyaCore.PageTable.ChainLinks
import Mathlib.Data.List.Perm.Basic

namespace MiyaCore.ControlFile
open LinkRing

/-- Taking the head off an unused chain of at most two blocks leaves the rest of
the chain. With three or more blocks the setter would link the block back in. -/
theorem Linked.useUnUsed {f : ControlFile} {R : Chain → List Nat} (linked : Linked f R) {u : Nat} {t : List Nat}
    (atChain : R .unUsed = u :: t) (short : t.length ≤ 1) :
    ∃ g, f.useUnUsedControlBlockHead = (some u, g) ∧ Linked g (withChain R .unUsed t) ∧ SameData f g := by
  have headIs : f.head .unUsed = u := by rw [linked.head, atChain]; rfl
  have nonzero : u ≠ 0 := linked.nonzero .unUsed u (by simp [atChain])
  cases t with
  | nil =>
    have ring : IsRing f.next f.prev [u] := atChain ▸ linked.ring .unUsed
    refine ⟨_, ?_, linked.clearHead .unUsed, setHead_sameData _ _ _⟩
    simp [useUnUsedControlBlockHead, headIs, nonzero, ring.1.1, unUsedControlBlockHead]
  | cons n t =>
    obtain rfl : t = [] := List.length_eq_zero_iff.mp (by simpa using short)
    obtain ⟨un, up, nn, np, different⟩ := linked.pair_links atChain
    refine ⟨setHead .unUsed ((f.setPrev n n).setNext n n) (some n), ?_, ?_, ?_⟩
    · simp [useUnUsedControlBlockHead, headIs, nonzero, un, up, different, different.symm,
        unUsedControlBlockHead]
    · refine linked.advanceHead_pair atChain ?_ ?_ ?_
      · intro b
        by_cases atN : b = n <;> simp [setHead, headIs, nonzero, up, different, atN]
      · intro b
        by_cases atU : b = u
        · simp [setHead, headIs, nonzero, up, different, atU]
        · by_cases atN : b = n <;> simp [setHead, headIs, nonzero, up, different, atU, atN]
      · intro d
        simp [setHead, headIs, nonzero]
    · have links : SameData f ((f.setPrev n n).setNext n n) := ⟨by simp, by simp, rfl⟩
      exact links.trans (setHead_sameData _ _ _)

theorem Linked.useUnUsed_empty {f : ControlFile} {R : Chain → List Nat} (linked : Linked f R)
    (empty : R .unUsed = []) : f.useUnUsedControlBlockHead = (none, f) := by
  simp [useUnUsedControlBlockHead, (linked.head_eq_zero_iff .unUsed).mpr empty]

/-- Every control block from the first one to the tail is in one of the chains. -/
def Accounted (f : ControlFile) (R : Chain → List Nat) : Prop :=
  ∃ n, f.controlBlockTail = 100 + 20 * n ∧ ∀ b, (∃ c, b ∈ R c) ↔ ∃ i ≤ n, b = 100 + 20 * i

/-- A taken block is outside every chain; the unused chain lost its head, or was empty
and the block is new. -/
structure Taken (f g : ControlFile) (R S : Chain → List Nat) (b : Nat) : Prop where
  linked : Linked g S
  nonzero : b ≠ 0
  fresh : ∀ c, b ∉ S c
  others : ∀ c, c ≠ .unUsed → S c = R c
  unUsed : S .unUsed = (R .unUsed).tail
  mapping : ∀ x, g.mapping x = f.mapping x
  blockEnd : ∀ x, g.blockEnd x = f.blockEnd x
  tail : g.controlBlockTail = if (R .unUsed).length = 0 then f.controlBlockTail + 20 else f.controlBlockTail
  accounted : ∃ n, g.controlBlockTail = 100 + 20 * n ∧ ∀ x, (x = b ∨ ∃ c, x ∈ S c) ↔ ∃ i ≤ n, x = 100 + 20 * i

theorem Linked.take {f : ControlFile} {R : Chain → List Nat} (linked : Linked f R) (accounted : Accounted f R)
    (short : (R .unUsed).length ≤ 2) (room : (R .unUsed).length = 0 → f.controlBlockTail + 20 < 2 ^ 24) :
    ∃ b g, f.takeControlBlock = (b, g) ∧ ∃ S, Taken f g R S b := by
  obtain ⟨n, tail, members⟩ := accounted
  cases atChain : R .unUsed with
  | nil =>
    have low := room (by simp [atChain])
    have exact : optrAdd f.controlBlockTail 20 = f.controlBlockTail + 20 := optrAdd_of_lt (by omega) (by omega)
    refine ⟨f.controlBlockTail + 20, f.setTail (f.controlBlockTail + 20), ?_, R, ?_⟩
    · simp [takeControlBlock, linked.useUnUsed_empty atChain, newControlBlock, exact]
    · have outside : ∀ c, f.controlBlockTail + 20 ∉ R c := by
        intro c member
        obtain ⟨i, bound, value⟩ := (members _).mp ⟨c, member⟩
        omega
      refine ⟨linked.setTail _, by omega, outside, fun _ _ => rfl, by simp [atChain], fun _ => rfl, fun _ => rfl,
        by simp [atChain], n + 1, by simp; omega, fun x => ?_⟩
      constructor
      · rintro (rfl | inChain)
        · exact ⟨n + 1, le_rfl, by omega⟩
        · obtain ⟨i, bound, value⟩ := (members x).mp inChain
          exact ⟨i, by omega, value⟩
      · rintro ⟨i, bound, value⟩
        by_cases last : i = n + 1
        · exact Or.inl (by omega)
        · exact Or.inr ((members x).mpr ⟨i, by omega, value⟩)
  | cons u t =>
    have shortTail : t.length ≤ 1 := by simpa [atChain] using short
    obtain ⟨g, run, linked', data⟩ := linked.useUnUsed atChain shortTail
    have distinct : (u :: t).Nodup := (atChain ▸ linked.ring .unUsed : IsRing f.next f.prev (u :: t)).nodup
    refine ⟨u, g, by simp [takeControlBlock, run], withChain R .unUsed t, ?_⟩
    refine ⟨linked', linked.nonzero .unUsed u (by simp [atChain]), fun c member => ?_,
      fun c ne => withChain_other ne, by simp [atChain], data.1, data.2.1, by simp [atChain, data.2.2],
      n, data.2.2.trans tail, fun x => ?_⟩
    · by_cases same : c = .unUsed
      · rw [same, withChain_self] at member
        exact (List.nodup_cons.mp distinct).1 member
      · rw [withChain_other same] at member
        exact linked.apart c .unUsed same u member (by simp [atChain])
    · rw [← members x]
      constructor
      · rintro (rfl | ⟨c, member⟩)
        · exact ⟨.unUsed, by simp [atChain]⟩
        · by_cases same : c = .unUsed
          · rw [same, withChain_self] at member
            exact ⟨.unUsed, by simp [atChain, member]⟩
          · exact ⟨c, by simpa [withChain, same] using member⟩
      · rintro ⟨c, member⟩
        by_cases same : c = .unUsed
        · rw [same, atChain] at member
          rcases List.mem_cons.mp member with rfl | rest
          · exact Or.inl rfl
          · exact Or.inr ⟨.unUsed, by simpa using rest⟩
        · exact Or.inr ⟨c, by simpa [withChain, same] using member⟩

/-- An inner member of a ring is not its own neighbour. -/
theorem ring_inner_neighbours {f : ControlFile} {h x : Nat} {l r : List Nat}
    (ring : IsRing f.next f.prev (h :: (l ++ x :: r))) : f.prev x ≠ x ∧ f.next x ≠ x := by
  obtain ⟨walk, distinct⟩ := ring
  obtain ⟨left, right⟩ := links_append.mp walk
  have headOut := (List.nodup_cons.mp distinct).1
  have inner := List.nodup_append.mp (List.nodup_cons.mp distinct).2
  constructor
  · intro same
    rcases links_prev_mem left with before | before
    · exact headOut (by simp [← before, same])
    · exact inner.2.2 x (same ▸ before) x (by simp) rfl
  · intro same
    rcases links_next_mem right with after | after
    · exact headOut (by simp [← after, same])
    · exact (List.nodup_cons.mp inner.2.1).1 (same ▸ after)

/-- Unlinking an inner member of chain `c` from its two neighbours. -/
theorem Linked.unlinkInner {f : ControlFile} {R : Chain → List Nat} (linked : Linked f R)
    {c : Chain} {h x : Nat} {l r : List Nat} (atChain : R c = h :: (l ++ x :: r)) :
    Linked ((f.setPrev (f.next x) (f.prev x)).setNext (f.prev x) (f.next x))
      (withChain R c (h :: (l ++ r))) := by
  have ring : IsRing f.next f.prev (h :: (l ++ x :: r)) := atChain ▸ linked.ring c
  have neighbours : f.prev x ∈ R c ∧ f.next x ∈ R c := by
    obtain ⟨left, right⟩ := links_append.mp ring.1
    rw [atChain]
    refine ⟨?_, ?_⟩
    · rcases links_prev_mem left with same | inner
      · simp [same]
      · simp [inner]
    · rcases links_next_mem right with same | inner
      · simp [same]
      · simp [inner]
  refine linked.replaceChain c ?_ ?_ ?_ (fun _ _ => rfl) ?_ ?_
  · intro b member
    rw [atChain]
    simp only [List.mem_cons, List.mem_append] at member ⊢
    tauto
  · exact ring.remove_inner (by simp) (by simp) (fun z _ ne => by simp [ne]) (fun z _ ne => by simp [ne])
  · simp [linked.head c, atChain]
  · intro b outside
    have : b ≠ f.prev x := fun same => outside (same ▸ neighbours.1)
    simp [this]
  · intro b outside
    have : b ≠ f.next x := fun same => outside (same ▸ neighbours.2)
    simp [this]

/-- The chains after block `x` of chain `c` has become the head of the unused chain. -/
def retire (R : Chain → List Nat) (c : Chain) (x : Nat) : Chain → List Nat :=
  withChain (withChain R c ((R c).erase x)) .unUsed (x :: R .unUsed)

/-- `x` put onto the unused chain once it has left its own chain. -/
theorem Linked.retireFresh {f g : ControlFile} {R : Chain → List Nat} (linked : Linked f R)
    {c : Chain} {x : Nat} (used : c ≠ .unUsed) (member : x ∈ R c)
    (left : Linked g (withChain R c ((R c).erase x))) :
    Linked (g.unUsedControlBlockHead (some x)) (retire R c x) := by
  have fresh : ∀ d, x ∉ withChain R c ((R c).erase x) d := by
    intro d
    by_cases same : d = c
    · rw [same, withChain_self]
      exact (linked.ring c).nodup.not_mem_erase
    · rw [withChain_other same]
      exact linked.apart c d (Ne.symm same) x member
  have step := left.setHead_fresh .unUsed (linked.nonzero c x member) fresh
  rwa [withChain_other used.symm] at step

/-- `toUnUsedControlBlock` on a member of the free or the allocated chain. A block that is not the head
may leave a chain of any length; the head may only leave a chain of one or two blocks. -/
theorem Linked.toUnUsed {f : ControlFile} {R : Chain → List Nat} (linked : Linked f R) {c : Chain} {x : Nat}
    (used : c ≠ .unUsed) (member : x ∈ R c) (someFree : R .free ≠ [])
    (short : f.head c = x → (R c).length ≤ 2) :
    ∃ g, f.toUnUsedControlBlock x = .ok g ∧ Linked g (retire R c x) ∧ SameData f g := by
  have freeHead : f.head .free ≠ 0 := fun zero => someFree ((linked.head_eq_zero_iff .free).mp zero)
  have xNonzero : x ≠ 0 := linked.nonzero c x member
  have otherHead : ∀ d, d ≠ c → f.head d ≠ x := fun d ne => linked.head_ne_of_mem ne.symm member
  cases atChain : R c with
  | nil => simp [atChain] at member
  | cons h t =>
    have headIs : f.head c = h := by rw [linked.head c, atChain]; rfl
    have ring : IsRing f.next f.prev (h :: t) := atChain ▸ linked.ring c
    by_cases atHead : h = x
    · subst atHead
      have atMost : t.length ≤ 1 := by simpa [atChain] using short headIs
      have erased : (R c).erase h = t := by simp [atChain]
      cases t with
      | nil =>
        have self : f.prev h = h := ring.1.2
        refine ⟨(setHead c f none).unUsedControlBlockHead (some h), ?_, ?_, ?_⟩
        · cases c with
          | free => simp [toUnUsedControlBlock, self, headIs, xNonzero, freeBlockHead]
          | allocated =>
            simp [toUnUsedControlBlock, self, freeHead, otherHead .free (by decide), headIs, xNonzero,
              allocatedBlockHead]
          | unUsed => exact absurd rfl used
        · exact linked.retireFresh used member (erased ▸ linked.clearHead c)
        · exact (setHead_sameData _ _ _).trans (setHead_sameData _ _ _)
      | cons y t =>
        obtain rfl : t = [] := List.length_eq_zero_iff.mp (by simpa using atMost)
        obtain ⟨xn, xp, yn, yp, different⟩ := linked.pair_links atChain
        have nextOf : ∀ b, (setHead c f (some y)).next b = if b = y then y else f.next b := by
          intro b
          by_cases atY : b = y <;> simp [setHead, headIs, xNonzero, xp, different, atY]
        have prevOf : ∀ b, (setHead c f (some y)).prev b = if b = y then y else f.prev b := by
          intro b
          by_cases atX : b = h
          · simp [setHead, headIs, xNonzero, xp, different, atX]
          · by_cases atY : b = y <;> simp [setHead, headIs, xNonzero, xp, different, atX, atY]
        have headOf : ∀ d, (setHead c f (some y)).head d = if d = c then y else f.head d := by
          intro d
          simp [setHead, headIs, xNonzero]
        refine ⟨(((setHead c f (some y)).setPrev y y).setNext y y).unUsedControlBlockHead (some h), ?_, ?_, ?_⟩
        · cases c with
          | free =>
            simp [toUnUsedControlBlock, xn, xp, different, different.symm, headIs, freeBlockHead,
              nextOf, prevOf]
          | allocated =>
            simp [toUnUsedControlBlock, xn, xp, different, different.symm, headIs, allocatedBlockHead,
              otherHead .free (by decide), nextOf, prevOf]
          | unUsed => exact absurd rfl used
        · refine linked.retireFresh used member (erased ▸ linked.advanceHead_pair atChain ?_ ?_ ?_)
          · intro b
            by_cases atY : b = y <;> simp [nextOf, atY]
          · intro b
            by_cases atY : b = y <;> simp [prevOf, atY]
          · simp [headOf]
        · have links : SameData (setHead c f (some y)) (((setHead c f (some y)).setPrev y y).setNext y y) :=
            ⟨by simp, by simp, rfl⟩
          exact ((setHead_sameData c f (some y)).trans links).trans (setHead_sameData _ _ _)
    · have inner : x ∈ t := by
        rw [atChain] at member
        exact (List.mem_cons.mp member).resolve_left (Ne.symm atHead)
      obtain ⟨l, r, rfl⟩ := List.append_of_mem inner
      obtain ⟨prevNe, nextNe⟩ := ring_inner_neighbours ring
      have erased : (R c).erase x = h :: (l ++ r) := by
        have notLeft : x ∉ l := fun mem =>
          (List.nodup_append.mp (List.nodup_cons.mp ring.2).2).2.2 x mem x (by simp) rfl
        rw [atChain, List.erase_cons_tail (by simpa using atHead), List.erase_append_right _ notLeft,
          List.erase_cons_head]
      have noHead : ∀ d, f.head d ≠ x := by
        intro d
        by_cases same : d = c
        · rw [same, headIs]
          exact atHead
        · exact otherHead d same
      refine ⟨((f.setPrev (f.next x) (f.prev x)).setNext (f.prev x) (f.next x)).unUsedControlBlockHead (some x),
        ?_, ?_, ?_⟩
      · simp [toUnUsedControlBlock, prevNe, nextNe, noHead, nextNe.symm]
      · exact linked.retireFresh used member (erased ▸ linked.unlinkInner atChain)
      · have links : SameData f ((f.setPrev (f.next x) (f.prev x)).setNext (f.prev x) (f.next x)) :=
          ⟨by simp, by simp, rfl⟩
        exact links.trans (setHead_sameData _ _ _)

end MiyaCore.ControlFile
