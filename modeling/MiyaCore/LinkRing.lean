import Mathlib.Data.List.Nodup
import Mathlib.Logic.Function.Basic

/-!
# Circular doubly linked lists

A ring is described by the list of its members starting at the head; the links
are two functions. Nothing here depends on what the nodes carry.
-/

namespace LinkRing

variable {α : Type*}

/-- `Links next prev a l b` is the doubly linked walk from `a` through `l` to `b`. -/
def Links (next prev : α → α) : α → List α → α → Prop
  | a, [], b => next a = b ∧ prev b = a
  | a, x :: l, b => (next a = x ∧ prev x = a) ∧ Links next prev x l b

/-- The members `l`, in order from the head, of a closed walk without repetition;
the empty list is the empty ring. -/
def IsRing (next prev : α → α) : List α → Prop
  | [] => True
  | h :: t => Links next prev h t h ∧ (h :: t).Nodup

theorem links_append {next prev : α → α} {a x b : α} {l r : List α} :
    Links next prev a (l ++ x :: r) b ↔ Links next prev a l x ∧ Links next prev x r b := by
  induction l generalizing a with
  | nil => rfl
  | cons y l ih => simp only [List.cons_append, Links, ih, and_assoc]

/-- Only the links of the walk's own nodes matter. -/
theorem links_congr {next prev next' prev' : α → α} {a b : α} {l : List α}
    (forward : ∀ x, x = a ∨ x ∈ l → next' x = next x)
    (backward : ∀ x, x = b ∨ x ∈ l → prev' x = prev x)
    (walk : Links next prev a l b) : Links next' prev' a l b := by
  induction l generalizing a with
  | nil =>
    refine ⟨?_, ?_⟩
    · rw [forward a (Or.inl rfl), walk.1]
    · rw [backward b (Or.inl rfl), walk.2]
  | cons y l ih =>
    obtain ⟨⟨out, back⟩, rest⟩ := walk
    refine ⟨⟨?_, ?_⟩, ih ?_ ?_ rest⟩
    · rw [forward a (Or.inl rfl), out]
    · rw [backward y (Or.inr (List.mem_cons_self ..)), back]
    · rintro x (rfl | member)
      · exact forward x (Or.inr (List.mem_cons_self ..))
      · exact forward x (Or.inr (List.mem_cons_of_mem _ member))
    · rintro x (rfl | member)
      · exact backward x (Or.inl rfl)
      · exact backward x (Or.inr (List.mem_cons_of_mem _ member))

theorem IsRing.congr {next prev next' prev' : α → α} {l : List α}
    (ring : IsRing next prev l)
    (forward : ∀ x ∈ l, next' x = next x) (backward : ∀ x ∈ l, prev' x = prev x) :
    IsRing next' prev' l := by
  cases l with
  | nil => trivial
  | cons h t =>
    refine ⟨links_congr ?_ ?_ ring.1, ring.2⟩
    · rintro x (rfl | member)
      · exact forward x (List.mem_cons_self ..)
      · exact forward x (List.mem_cons_of_mem _ member)
    · rintro x (rfl | member)
      · exact backward x (List.mem_cons_self ..)
      · exact backward x (List.mem_cons_of_mem _ member)

theorem IsRing.nodup {next prev : α → α} {l : List α} (ring : IsRing next prev l) : l.Nodup := by
  cases l with
  | nil => exact List.nodup_nil
  | cons h t => exact ring.2

/-- The node before the end of a walk is its start or one of its inner nodes. -/
theorem links_prev_mem {next prev : α → α} {a b : α} {l : List α}
    (walk : Links next prev a l b) : prev b = a ∨ prev b ∈ l := by
  induction l generalizing a with
  | nil => exact Or.inl walk.2
  | cons y l ih =>
    rcases ih walk.2 with same | member
    · exact Or.inr (same ▸ List.mem_cons_self ..)
    · exact Or.inr (List.mem_cons_of_mem _ member)

theorem links_next_mem {next prev : α → α} {a b : α} {l : List α}
    (walk : Links next prev a l b) : next a = b ∨ next a ∈ l := by
  cases l with
  | nil => exact Or.inl walk.1
  | cons y l => exact Or.inr (walk.1.1 ▸ List.mem_cons_self ..)

theorem IsRing.prev_head_mem {next prev : α → α} {h : α} {t : List α}
    (ring : IsRing next prev (h :: t)) : prev h ∈ h :: t := by
  rcases links_prev_mem ring.1 with same | member
  · rw [same]
    exact List.mem_cons_self ..
  · exact List.mem_cons_of_mem _ member

/-- The last link of a walk can be turned to a new end `x`. -/
theorem links_retarget {next prev next' prev' : α → α} {a b x : α} {l : List α}
    (walk : Links next prev a l b) (distinct : (a :: l).Nodup)
    (atLast : next' (prev b) = x) (intoNew : prev' x = prev b)
    (forward : ∀ y, y ≠ prev b → y ∈ a :: l → next' y = next y)
    (backward : ∀ y ∈ l, prev' y = prev y) : Links next' prev' a l x := by
  induction l generalizing a with
  | nil => exact ⟨by rw [← walk.2, atLast], by rw [intoNew, walk.2]⟩
  | cons y l ih =>
    obtain ⟨⟨out, back⟩, rest⟩ := walk
    have apart : a ≠ prev b := by
      rintro rfl
      rcases links_prev_mem rest with same | member
      · exact (List.nodup_cons.mp distinct).1 (same ▸ List.mem_cons_self ..)
      · exact (List.nodup_cons.mp distinct).1 (List.mem_cons_of_mem _ member)
    refine ⟨⟨?_, ?_⟩, ih rest (List.nodup_cons.mp distinct).2 ?_ ?_⟩
    · rw [forward a apart (List.mem_cons_self ..), out]
    · rw [backward y (List.mem_cons_self ..), back]
    · exact fun z ne member => forward z ne (List.mem_cons_of_mem _ member)
    · exact fun z member => backward z (List.mem_cons_of_mem _ member)

/-- Linking a new node between the last member and the head makes it the new head. -/
theorem IsRing.insert_head {next prev next' prev' : α → α} {h x : α} {t : List α}
    (ring : IsRing next prev (h :: t)) (fresh : x ∉ h :: t)
    (newNext : next' x = h) (newPrev : prev' x = prev h)
    (lastNext : next' (prev h) = x) (headPrev : prev' h = x)
    (forward : ∀ y ∈ h :: t, y ≠ prev h → next' y = next y)
    (backward : ∀ y ∈ t, prev' y = prev y) : IsRing next' prev' (x :: h :: t) := by
  refine ⟨⟨⟨newNext, headPrev⟩, ?_⟩, List.nodup_cons.mpr ⟨fresh, ring.2⟩⟩
  exact links_retarget ring.1 ring.2 lastNext newPrev (fun y ne member => forward y member ne) backward

/-- The head of a ring of several members can be counted as its last member. -/
theorem IsRing.rotate {next prev : α → α} {h x : α} {t : List α} (ring : IsRing next prev (x :: h :: t)) :
    IsRing next prev (h :: (t ++ [x])) := by
  obtain ⟨⟨first, rest⟩, distinct⟩ := ring
  refine ⟨links_append.mpr ⟨rest, first⟩, ?_⟩
  have rotated : (h :: t ++ [x]).Nodup := List.nodup_append_comm.mp (show ([x] ++ h :: t).Nodup from distinct)
  exact rotated

/-- A walk read backwards. -/
theorem links_reverse {next prev : α → α} {a b : α} {l : List α} (links : Links next prev a l b) :
    Links prev next b l.reverse a := by
  induction l generalizing a with
  | nil => exact ⟨links.2, links.1⟩
  | cons y l ih =>
    obtain ⟨⟨out, back⟩, rest⟩ := links
    rw [List.reverse_cons]
    exact links_append.mpr ⟨ih rest, back, out⟩

/-- The ring in the direction of `prev`, from the same head. -/
theorem IsRing.reverse {next prev : α → α} {h : α} {t : List α} (ring : IsRing next prev (h :: t)) :
    IsRing prev next (h :: t.reverse) := by
  refine ⟨links_reverse ring.1, ?_⟩
  have distinct := List.nodup_cons.mp ring.2
  exact List.nodup_cons.mpr ⟨by simpa using distinct.1, List.nodup_reverse.mpr distinct.2⟩

theorem isRing_singleton {next prev : α → α} {x : α} (out : next x = x) (back : prev x = x) :
    IsRing next prev [x] :=
  ⟨⟨out, back⟩, List.nodup_singleton x⟩

/-- Two adjacent walks joined by bypassing the node between them. -/
theorem links_bypass {next prev next' prev' : α → α} {a y b : α} {l r : List α}
    (left : Links next prev a l y) (right : Links next prev y r b)
    (distinct : (a :: (l ++ y :: r)).Nodup) (outside : b ∉ l ++ y :: r)
    (bridge : next' (prev y) = next y) (bridgeBack : prev' (next y) = prev y)
    (forward : ∀ z ∈ a :: (l ++ r), z ≠ prev y → next' z = next z)
    (backward : ∀ z, z = b ∨ z ∈ l ++ r → z ≠ next y → prev' z = prev z) :
    Links next' prev' a (l ++ r) b := by
  induction l generalizing a with
  | nil =>
    have before : prev y = a := left.2
    cases r with
    | nil => exact ⟨by rw [← before, bridge, right.1], by rw [← right.1, bridgeBack, before]⟩
    | cons z r =>
      obtain ⟨⟨out, back⟩, rest⟩ := right
      refine ⟨⟨by rw [← before, bridge, out], by rw [← out, bridgeBack, before]⟩, ?_⟩
      have tailDistinct := (List.nodup_cons.mp distinct).2
      simp only [List.nil_append, List.nodup_cons, List.mem_cons, not_or] at tailDistinct distinct outside
      refine links_congr ?_ ?_ rest
      · intro w member
        refine forward w ?_ ?_
        · rcases member with rfl | member
          · simp
          · simp [member]
        · rw [before]
          rintro rfl
          rcases member with rfl | member
          · exact distinct.1.2.1 rfl
          · exact distinct.1.2.2 member
      · intro w member
        refine backward w ?_ ?_
        · rcases member with rfl | member
          · exact Or.inl rfl
          · exact Or.inr (by simp [member])
        · rw [out]
          rintro rfl
          rcases member with rfl | member
          · exact outside.2.1 rfl
          · exact tailDistinct.2.1 member
  | cons x l ih =>
    obtain ⟨⟨out, back⟩, rest⟩ := left
    have apart : a ≠ prev y := by
      rintro rfl
      rcases links_prev_mem rest with same | member
      · exact (List.nodup_cons.mp distinct).1 (by simp [same])
      · exact (List.nodup_cons.mp distinct).1 (by simp [member])
    have apart' : x ≠ next y := by
      rintro rfl
      have tailDistinct := (List.nodup_cons.mp distinct).2
      rcases links_next_mem right with same | member
      · exact outside (by simp [same])
      · exact (List.nodup_cons.mp tailDistinct).1 (by simp [member])
    refine ⟨⟨?_, ?_⟩, ih rest (List.nodup_cons.mp distinct).2 ?_ ?_ ?_⟩
    · rw [forward a (List.mem_cons_self ..) apart, out]
    · rw [backward x (Or.inr (by simp)) apart', back]
    · exact fun member => outside (List.mem_cons_of_mem _ member)
    · exact fun z member ne => forward z (List.mem_cons_of_mem _ member) ne
    · rintro z (rfl | member) ne
      · exact backward z (Or.inl rfl) ne
      · exact backward z (Or.inr (List.mem_cons_of_mem _ member)) ne

/-- Unlinking a member that is not the head leaves the ring of the others. -/
theorem IsRing.remove_inner {next prev next' prev' : α → α} {h y : α} {l r : List α}
    (ring : IsRing next prev (h :: (l ++ y :: r)))
    (bridge : next' (prev y) = next y) (bridgeBack : prev' (next y) = prev y)
    (forward : ∀ z ∈ h :: (l ++ r), z ≠ prev y → next' z = next z)
    (backward : ∀ z ∈ h :: (l ++ r), z ≠ next y → prev' z = prev z) :
    IsRing next' prev' (h :: (l ++ r)) := by
  obtain ⟨walk, distinct⟩ := ring
  obtain ⟨left, right⟩ := links_append.mp walk
  refine ⟨links_bypass left right distinct (List.nodup_cons.mp distinct).1 bridge bridgeBack forward ?_, ?_⟩
  · rintro z (rfl | member) ne
    · exact backward z (List.mem_cons_self ..) ne
    · exact backward z (List.mem_cons_of_mem _ member) ne
  · refine distinct.sublist (List.Sublist.cons_cons _ ?_)
    exact List.Sublist.append_left (List.sublist_cons_self y r) l

/-- Inside a walk every link forward is matched by one back. -/
theorem links_step {next prev : α → α} {a b x : α} {l : List α} (links : Links next prev a l b)
    (member : x ∈ a :: l) : prev (next x) = x ∧ (next x = b ∨ next x ∈ l) := by
  induction l generalizing a with
  | nil =>
    obtain rfl := List.mem_singleton.mp member
    exact ⟨by rw [links.1, links.2], Or.inl links.1⟩
  | cons y l ih =>
    obtain ⟨⟨out, back⟩, rest⟩ := links
    rcases List.mem_cons.mp member with rfl | inner
    · exact ⟨by rw [out, back], Or.inr (out ▸ List.mem_cons_self ..)⟩
    · obtain ⟨returns, lands⟩ := ih rest inner
      exact ⟨returns, lands.imp_right (List.mem_cons_of_mem _)⟩

/-- Inside a walk every link back is matched by one forward. -/
theorem links_step_back {next prev : α → α} {a b x : α} {l : List α} (links : Links next prev a l b)
    (member : x = b ∨ x ∈ l) : next (prev x) = x ∧ prev x ∈ a :: l := by
  induction l generalizing a with
  | nil =>
    obtain rfl : x = b := by simpa using member
    exact ⟨by rw [links.2, links.1], by simp [links.2]⟩
  | cons y l ih =>
    obtain ⟨⟨out, back⟩, rest⟩ := links
    by_cases first : x = y
    · subst first
      exact ⟨by rw [back, out], by simp [back]⟩
    · have inner : x = b ∨ x ∈ l := member.imp_right fun inList => (List.mem_cons.mp inList).resolve_left first
      obtain ⟨returns, lands⟩ := ih rest inner
      exact ⟨returns, List.mem_cons_of_mem _ lands⟩

/-- A member's neighbours are members, and lead back to it. -/
theorem IsRing.neighbours {next prev : α → α} {l : List α} (ring : IsRing next prev l) {x : α}
    (member : x ∈ l) :
    next x ∈ l ∧ prev x ∈ l ∧ next (prev x) = x ∧ prev (next x) = x := by
  cases l with
  | nil => simp at member
  | cons h t =>
    obtain ⟨returns, lands⟩ := links_step ring.1 member
    obtain ⟨returns', lands'⟩ := links_step_back ring.1 (List.mem_cons.mp member)
    exact ⟨List.mem_cons.mpr lands, lands', returns', returns⟩

/-- In a ring of several members none is linked to itself. -/
theorem IsRing.neighbours_ne {next prev : α → α} {h x : α} {t : List α} (ring : IsRing next prev (h :: t))
    (member : x ∈ t) : next x ≠ x ∧ prev x ≠ x := by
  obtain ⟨l, r, rfl⟩ := List.append_of_mem member
  obtain ⟨links, distinct⟩ := ring
  obtain ⟨before, after⟩ := links_append.mp links
  obtain ⟨notHead, apart⟩ := List.nodup_cons.mp distinct
  obtain ⟨-, tail, cross⟩ := List.nodup_append.mp apart
  have headNe : h ≠ x := fun same => notHead (same ▸ member)
  constructor
  · rcases links_next_mem after with atHead | later
    · rwa [atHead]
    · exact fun same => (List.nodup_cons.mp tail).1 (same ▸ later)
  · rcases links_prev_mem before with atHead | earlier
    · rwa [atHead]
    · exact cross _ earlier x (List.mem_cons_self ..)

/-- `walk next stop n a` lists `a` and its successors up to the one before `stop`,
giving up after `n` nodes. -/
def walk [DecidableEq α] (next : α → α) (stop : α) : Nat → α → List α
  | 0, _ => []
  | n + 1, a => a :: if next a = stop then [] else walk next stop n (next a)

theorem walk_links [DecidableEq α] {next prev : α → α} {a b : α} {l : List α}
    (links : Links next prev a l b) (outside : b ∉ l) {n : Nat} (enough : l.length < n) :
    walk next b n a = a :: l := by
  induction l generalizing a n with
  | nil =>
    obtain ⟨m, rfl⟩ : ∃ m, n = m + 1 := ⟨n - 1, by simp at enough; omega⟩
    simp [walk, links.1]
  | cons y l ih =>
    obtain ⟨m, rfl⟩ : ∃ m, n = m + 1 := ⟨n - 1, by simp at enough; omega⟩
    obtain ⟨⟨out, _⟩, rest⟩ := links
    have different : y ≠ b := fun same => outside (same ▸ List.mem_cons_self ..)
    simp only [walk, out, different, if_false]
    rw [ih rest (fun member => outside (List.mem_cons_of_mem _ member)) (by simpa using enough)]

/-- Following `next` once around from the head lists exactly the members. -/
theorem IsRing.walk_eq [DecidableEq α] {next prev : α → α} {h : α} {t : List α}
    (ring : IsRing next prev (h :: t)) {n : Nat} (enough : t.length < n) :
    walk next h n h = h :: t :=
  walk_links ring.1 (List.nodup_cons.mp ring.2).1 enough

end LinkRing
