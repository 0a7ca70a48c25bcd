import MiyaCore.SearchTree.Labels

/-!
# Below a node

What is below one node of a tree, whatever the rest of the tree is: the entries in order when a part of the
node is replaced, and what stays when nodes elsewhere change.
-/

namespace SearchTree
variable {ι κ δ : Type*}

section Weave
variable {α : Type*} {A B : List (List α)} {X Y : List α}

/-- Two neighbours and the element between them are one run of the whole. -/
theorem weave_join (place : A.length = X.length) (l r : List α) (w : α) :
    weave (A ++ l :: r :: B) (X ++ w :: Y) = weave (A ++ (l ++ w :: r) :: B) (X ++ Y) := by
  induction A generalizing X with
  | nil =>
    obtain rfl := List.length_eq_zero_iff.mp place.symm
    cases Y <;> simp [weave]
  | cons a A ih =>
    cases X with
    | nil => cases place
    | cons x X => simp [weave, ih (Nat.succ.inj place)]

theorem weave_rotate (place : A.length = X.length) {l r l' r' : List α} {w z : α}
    (entries : l ++ w :: r = l' ++ z :: r') :
    weave (A ++ l :: r :: B) (X ++ w :: Y) = weave (A ++ l' :: r' :: B) (X ++ z :: Y) := by
  rw [weave_join place, weave_join place, entries]

/-- One list more at the end. -/
theorem weave_snoc {ls : List (List α)} {xs : List α} (fits : ls.length = xs.length + 1) (w : α) (l : List α) :
    weave (ls ++ [l]) (xs ++ [w]) = weave ls xs ++ w :: l := by
  induction xs generalizing ls with
  | nil =>
    obtain ⟨a, rfl⟩ := List.length_eq_one_iff.mp fits
    simp [weave]
  | cons x xs ih =>
    obtain ⟨a, ls, rfl⟩ := List.exists_cons_of_length_eq_add_one fits
    simp [weave, ih (Nat.succ.inj fits)]

/-- What is before one of the lists, and what is after it. -/
theorem weave_focus (place : A.length = X.length) (B : List (List α)) (Y : List α) :
    ∃ F G, ∀ l, weave (A ++ l :: B) (X ++ Y) = F ++ l ++ G := by
  induction A generalizing X with
  | nil =>
    obtain rfl := List.length_eq_zero_iff.mp place.symm
    cases Y with
    | nil => exact ⟨[], [], fun l => by simp [weave]⟩
    | cons y Y => exact ⟨[], y :: weave B Y, fun l => by simp [weave]⟩
  | cons a A ih =>
    cases X with
    | nil => cases place
    | cons x X =>
      obtain ⟨F, G, split⟩ := ih (Nat.succ.inj place)
      exact ⟨a ++ x :: F, G, fun l => by simp [weave, split]⟩

end Weave

section Sorted
variable [LinearOrder κ]

/-- A key occurs once, so taking its entry out leaves what is around it. -/
theorem filter_ne_key {F G : List (κ × δ)} {x : κ × δ}
    (sorted : (F ++ [x] ++ G).Pairwise fun a b => a.1 < b.1) :
    (F ++ [x] ++ G).filter (·.1 ≠ x.1) = F ++ [] ++ G := by
  rw [List.append_assoc, List.singleton_append, List.pairwise_append, List.pairwise_cons] at sorted
  obtain ⟨-, ⟨after, -⟩, across⟩ := sorted
  have front : F.filter (·.1 ≠ x.1) = F :=
    List.filter_eq_self.mpr fun y member => by simpa using (across y member x List.mem_cons_self).ne
  have back : G.filter (·.1 ≠ x.1) = G :=
    List.filter_eq_self.mpr fun y member => by simpa using (after y member).ne'
  rw [List.filter_append, List.filter_append, front, back]
  simp

/-- Lists with something in them stand at one place each. -/
theorem nodup_of_weave {L : ι → List (κ × δ)} {cs : List ι} {xs : List (κ × δ)}
    (fits : cs.length = xs.length + 1) (sorted : (weave (cs.map L) xs).Pairwise fun a b => a.1 < b.1)
    (filled : ∀ c ∈ cs, L c ≠ []) : cs.Nodup := by
  induction xs generalizing cs with
  | nil =>
    obtain ⟨c, rfl⟩ := List.length_eq_one_iff.mp fits
    exact List.nodup_singleton c
  | cons x xs ih =>
    obtain ⟨c, cs, rfl⟩ := List.exists_cons_of_length_eq_add_one fits
    have fits' : cs.length = xs.length + 1 := Nat.succ.inj fits
    rw [List.map_cons, weave, List.pairwise_append, List.pairwise_cons] at sorted
    obtain ⟨-, ⟨after, rest⟩, across⟩ := sorted
    refine List.nodup_cons.mpr ⟨fun again => ?_, ih fits' rest fun c member =>
      filled c (List.mem_cons_of_mem _ member)⟩
    -- an entry of the list would be on both sides of `x`
    obtain ⟨y, member⟩ := List.exists_mem_of_ne_nil _ (filled c List.mem_cons_self)
    have below := across y member x List.mem_cons_self
    have above := after y ((mem_weave (by simpa using fits') y).mpr
      (Or.inr ⟨L c, List.mem_map_of_mem again, member⟩))
    exact lt_asymm below above

end Sorted

section Below
variable {V V' : Nodes ι κ δ} {P P' : Nat → ι → ι → Prop}

/-- Each node below a node, with its height. -/
inductive Within (V : Nodes ι κ δ) : Nat → ι → Nat → ι → Prop
  | top {h : Nat} {p : ι} : Within V h p h p
  | kid {h j : Nat} {p c x : ι} : c ∈ V.kids p → Within V h c j x → Within V (h + 1) p j x

theorem Within.le {h j : Nat} {p x : ι} (within : Within V h p j x) : j ≤ h := by
  induction within with
  | top => exact le_rfl
  | kid isKid below ih => omega

theorem Within.eq_top {h : Nat} {p x : ι} (within : Within V h p h x) : x = p := by
  cases within with
  | top => rfl
  | kid isKid below => exact absurd below.le (by omega)

theorem Within.mem_kids {h : Nat} {p x : ι} (within : Within V (h + 1) p h x) : x ∈ V.kids p := by
  cases within with
  | kid isKid below =>
    rw [below.eq_top]
    exact isKid

theorem Built.within {h j : Nat} {q p x : ι} (built : Built V P h q p) (within : Within V h p j x) :
    ∃ q', Built V P j q' x := by
  induction within generalizing q with
  | top => exact ⟨q, built⟩
  | kid isKid below ih => exact ih (built.2.2 _ isKid)

theorem Built.kid {h : Nat} {q p c : ι} (built : Built V P h q p) (isKid : c ∈ V.kids p) :
    ∃ h', Built V P h' p c := by
  cases h with
  | zero =>
    rw [built.2] at isKid
    cases isKid
  | succ h => exact ⟨h, built.2.2 c isKid⟩

/-- A node has one height. -/
theorem Built.height_unique {h h' : Nat} {q q' p : ι} (built : Built V P h q p) (other : Built V P' h' q' p) :
    h = h' := by
  induction h generalizing h' q q' p with
  | zero =>
    cases h' with
    | zero => rfl
    | succ h' =>
      have fits := other.2.1
      rw [built.2] at fits
      cases fits
  | succ h ih =>
    cases h' with
    | zero =>
      have fits := built.2.1
      rw [other.2] at fits
      cases fits
    | succ h' =>
      obtain ⟨c, isKid⟩ : ∃ c, c ∈ V.kids p := List.exists_mem_of_length_pos (by rw [built.2.1]; omega)
      rw [ih (built.2.2 c isKid) (other.2.2 c isKid)]

/-- A tree whose nodes below the top stay as they are is there still, under the top as it is now. -/
theorem Built.frame {h : Nat} {q q' p : ι} (built : Built V P h q p) (own : P' h q' p)
    (items : V'.items p = V.items p) (kids : V'.kids p = V.kids p)
    (below : ∀ j x, j < h → Within V h p j x → V'.items x = V.items x ∧ V'.kids x = V.kids x ∧
      ∀ u, P j u x → P' j u x) : Built V' P' h q' p ∧ inorder V' h p = inorder V h p := by
  induction h generalizing q q' p with
  | zero => exact ⟨⟨own, kids.trans built.2⟩, items⟩
  | succ h ih =>
    have each : ∀ c ∈ V.kids p, Built V' P' h p c ∧ inorder V' h c = inorder V h c := by
      intro c isKid
      obtain ⟨sameItems, sameKids, keeps⟩ := below h c (Nat.lt_succ_self h) (.kid isKid .top)
      exact ih (built.2.2 c isKid) (keeps p (built.2.2 c isKid).local) sameItems sameKids
        fun j x lower within => below j x (by omega) (.kid isKid within)
    refine ⟨⟨own, by rw [kids, items]; exact built.2.1, fun c isKid => (each c (kids ▸ isKid)).1⟩, ?_⟩
    rw [inorder, inorder, items, kids, List.map_congr_left fun c isKid => (each c isKid).2]

end Below

end SearchTree
