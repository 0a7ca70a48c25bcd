import MiyaCore.Chain.TransactionPool

/-!
# What the buckets and tables of the pool hold
-/

namespace MiyaCore.Chain

variable {T : Type}

section Symbols

theorem high_nibble (b : UInt8) : ((b &&& 0xf0) >>> 4).toNat = b.toNat / 16 := by
  have all : ∀ n : Fin 256, ((UInt8.ofFin n &&& 0xf0) >>> 4).toNat = (UInt8.ofFin n).toNat / 16 := by
    decide +kernel
  exact all b.toFin

theorem low_nibble (b : UInt8) : (b &&& 0x0f).toNat = b.toNat % 16 := by
  have all : ∀ n : Fin 256, (UInt8.ofFin n &&& 0x0f).toNat = (UInt8.ofFin n).toNat % 16 := by decide +kernel
  exact all b.toFin

theorem targetIndex_isSome {layer : Nat} (inside : layer < 64) (a : List.Vector UInt8 32) :
    ∃ i, targetIndex layer a = some i := by
  have bound : layer / 2 < a.toList.length := by rw [a.toList_length]; omega
  simp [targetIndex, List.getElem?_eq_getElem bound]

/-- IDs that `find` does not tell apart take the same way down the tables. -/
theorem targetIndex_of_comparedBytes {a b : List.Vector UInt8 32} (same : comparedBytes a = comparedBytes b)
    {layer : Nat} (inside : layer < 40) : targetIndex layer a = targetIndex layer b := by
  have byte : a.toList[layer / 2]? = b.toList[layer / 2]? := by
    have left := List.getElem?_take_of_lt (l := a.toList) (show layer / 2 < 20 by omega)
    have right := List.getElem?_take_of_lt (l := b.toList) (show layer / 2 < 20 by omega)
    rw [← left, ← right]
    exact congrArg (·[layer / 2]?) same
  simp only [targetIndex, byte]

/-- Forty equal nibbles are twenty equal bytes. -/
theorem comparedBytes_of_targetIndex {a b : List.Vector UInt8 32}
    (same : ∀ layer < 40, targetIndex layer a = targetIndex layer b) : comparedBytes a = comparedBytes b := by
  refine List.ext_getElem (by simp [comparedBytes]) ?_
  intro n inA inB
  have bound : n < 20 := by
    simp only [comparedBytes, List.length_take] at inA
    omega
  have atA : n < a.toList.length := by rw [a.toList_length]; omega
  have atB : n < b.toList.length := by rw [b.toList_length]; omega
  have high := same (2 * n) (by omega)
  have low := same (2 * n + 1) (by omega)
  have half : (2 * n + 1) / 2 = n := by omega
  simp only [targetIndex, show 2 * n / 2 = n by omega, half, List.getElem?_eq_getElem atA, List.getElem?_eq_getElem atB,
    show 2 * n % 2 = 0 by omega, show (2 * n + 1) % 2 = 1 by omega, Option.bind_eq_bind, Option.bind_some, if_true,
    one_ne_zero, if_false, Option.pure_def, Option.some.injEq, Fin.ext_iff, Fin.val_ofNat,
    high_nibble, low_nibble] at high low
  simp only [comparedBytes, List.getElem_take]
  refine UInt8.toNat_inj.mp ?_
  have smallA := a.toList[n].toNat_lt
  have smallB := b.toList[n].toNat_lt
  omega

end Symbols

namespace TxCBLinks

/-- The links as functions on pointers. -/
def nextPtr (h : TxCBLinks T) (p : Option T) : Option T := p.bind h.next

def prevPtr (h : TxCBLinks T) (p : Option T) : Option T := p.bind h.prev

/-- The ring of `l`, whose first member is the head. -/
def Ring (h : TxCBLinks T) (l : List T) : Prop := LinkRing.IsRing h.nextPtr h.prevPtr (l.map some)

/-- The links of `S` are the same in both. -/
def Same (h h' : TxCBLinks T) (x : T) : Prop := h'.next x = h.next x ∧ h'.prev x = h.prev x

theorem Ring.congr {h h' : TxCBLinks T} {l : List T} (ring : h.Ring l) (same : ∀ x ∈ l, h.Same h' x) :
    h'.Ring l := by
  refine LinkRing.IsRing.congr ring ?_ ?_
  all_goals
    intro p member
    obtain ⟨x, inList, rfl⟩ := List.mem_map.mp member
  · exact (same x inList).1
  · exact (same x inList).2

theorem Ring.nodup {h : TxCBLinks T} {l : List T} (ring : h.Ring l) : l.Nodup :=
  List.Nodup.of_map some (LinkRing.IsRing.nodup ring)

/-- The neighbours of a member are members. -/
theorem Ring.neighbours {h : TxCBLinks T} {l : List T} (ring : h.Ring l) {x : T} (member : x ∈ l) :
    ∃ y ∈ l, ∃ z ∈ l, h.next x = some y ∧ h.prev x = some z ∧ h.prev y = some x ∧ h.next z = some x := by
  obtain ⟨next, prev, returns, returns'⟩ := LinkRing.IsRing.neighbours ring
    (List.mem_map_of_mem (f := some) member)
  obtain ⟨y, inY, atY⟩ := List.mem_map.mp next
  obtain ⟨z, inZ, atZ⟩ := List.mem_map.mp prev
  refine ⟨y, inY, z, inZ, atY.symm, atZ.symm, ?_, ?_⟩
  · rw [← atY] at returns'
    exact returns'
  · rw [← atZ] at returns
    exact returns

theorem Ring.neighbours_ne {h : TxCBLinks T} {head x : T} {t : List T} (ring : h.Ring (head :: t))
    (member : x ∈ t) :
    h.next x ≠ some x ∧ h.prev x ≠ some x :=
  LinkRing.IsRing.neighbours_ne ring (List.mem_map_of_mem (f := some) member)

/-- A head linked to itself is alone. -/
theorem Ring.alone {h : TxCBLinks T} {head : T} {t : List T} (ring : h.Ring (head :: t))
    (self : h.next head = some head) : t = [] := by
  cases t with
  | nil => rfl
  | cons y t =>
    have next : h.next head = some y := ring.1.1.1
    have distinct := List.nodup_cons.mp ring.nodup
    obtain rfl : head = y := Option.some.inj (self.symm.trans next)
    exact absurd (List.mem_cons_self ..) distinct.1

/-- A control block linked to itself. -/
theorem ring_singleton {h : TxCBLinks T} {x : T} (out : h.next x = some x) (back : h.prev x = some x) :
    h.Ring [x] :=
  LinkRing.isRing_singleton out back

theorem Ring.insert_last {h h' : TxCBLinks T} {head tail x : T} {t : List T} (ring : h.Ring (head :: t))
    (atTail : h.prev head = some tail) (fresh : x ∉ head :: t)
    (newNext : h'.next x = some head) (newPrev : h'.prev x = some tail)
    (lastNext : h'.next tail = some x) (headPrev : h'.prev head = some x)
    (forward : ∀ y ∈ head :: t, y ≠ tail → h'.next y = h.next y) (backward : ∀ y ∈ t, h'.prev y = h.prev y) :
    h'.Ring (head :: (t ++ [x])) := by
  have inserted : LinkRing.IsRing h'.nextPtr h'.prevPtr (some x :: some head :: t.map some) := by
    have last : h.prevPtr (some head) = some tail := atTail
    refine LinkRing.IsRing.insert_head ring ?_ newNext ?_ ?_ headPrev ?_ ?_
    · simpa using fresh
    · rw [last]
      exact newPrev
    · rw [last]
      exact lastNext
    · intro p member ne
      obtain ⟨y, inList, rfl⟩ : ∃ y ∈ head :: t, some y = p := List.mem_map.mp member
      exact forward y inList fun same => ne (by rw [last, same])
    · intro p member
      obtain ⟨y, inList, rfl⟩ := List.mem_map.mp member
      exact backward y inList
  have rotated := inserted.rotate
  simpa [Ring] using rotated

/-- A walk as the chain of its `next` links. -/
theorem isChain_of_links {h : TxCBLinks T} {a b : T} {l : List T}
    (links : LinkRing.Links h.nextPtr h.prevPtr (some a) (l.map some) (some b)) :
    List.IsChain (fun x y => h.next x = some y) (a :: (l ++ [b])) := by
  induction l generalizing a with
  | nil => exact List.IsChain.cons_cons links.1 (List.IsChain.singleton b)
  | cons y l ih => exact List.isChain_cons_cons.mpr ⟨links.1.1, ih links.2⟩

theorem isChain_congr {h h' : TxCBLinks T} {a b : T} {l : List T}
    (chain : List.IsChain (fun x y => h.next x = some y) (a :: (l ++ [b])))
    (same : ∀ x ∈ a :: l, h'.next x = h.next x) :
    List.IsChain (fun x y => h'.next x = some y) (a :: (l ++ [b])) := by
  induction l generalizing a with
  | nil =>
    refine List.IsChain.cons_cons ?_ (List.IsChain.singleton b)
    rw [same a (List.mem_cons_self ..)]
    exact (List.isChain_cons_cons.mp chain).1
  | cons y l ih =>
    obtain ⟨first, rest⟩ := List.isChain_cons_cons.mp chain
    refine List.IsChain.cons_cons ?_ (ih rest fun x member => same x (List.mem_cons_of_mem _ member))
    rw [same a (List.mem_cons_self ..)]
    exact first

variable [DecidableEq T]

/-- Linking a new control block behind the last member. -/
theorem append_run {h : TxCBLinks T} {head x : T} {t : List T} (ring : h.Ring (head :: t))
    (fresh : x ∉ head :: t) :
    ∃ h', h.append head x = some h' ∧ h'.Ring (head :: (t ++ [x])) ∧
      ∀ y, y ≠ x → y ∉ head :: t → h.Same h' y := by
  obtain ⟨-, -, tail, inTail, -, atTail, -, closes⟩ := ring.neighbours (List.mem_cons_self ..)
  have apart : x ≠ tail := fun same => fresh (same ▸ inTail)
  have apart' : x ≠ head := fun same => fresh (same ▸ List.mem_cons_self ..)
  have distinct := List.nodup_cons.mp ring.nodup
  refine ⟨{ next := Function.update (Function.update h.next x (some head)) tail (some x)
            prev := Function.update (Function.update h.prev x (some tail)) head (some x) }, ?_, ?_, ?_⟩
  · simp [append, atTail, closes, setNext, setPrev, Function.update_of_ne apart.symm]
  · refine ring.insert_last atTail fresh ?_ ?_ (Function.update_self ..) (Function.update_self ..) ?_ ?_
    · simp [Function.update_of_ne apart]
    · simp [Function.update_of_ne apart']
    · intro y inList ne
      have old : y ≠ x := fun same => fresh (same ▸ inList)
      simp [Function.update_of_ne ne, Function.update_of_ne old]
    · intro y inList
      have old : y ≠ x := fun same => fresh (same ▸ List.mem_cons_of_mem _ inList)
      have inner : y ≠ head := fun same => distinct.1 (same ▸ inList)
      simp [Function.update_of_ne inner, Function.update_of_ne old]
  · intro y ne outside
    have notHead : y ≠ head := fun same => outside (same ▸ List.mem_cons_self ..)
    have notTail : y ≠ tail := fun same => outside (same ▸ inTail)
    simp [Same, Function.update_of_ne, notHead, notTail, ne]

/-- Unlinking a member that is not the head. -/
theorem Ring.unlink {h : TxCBLinks T} {head x next prev : T} {l r : List T}
    (ring : h.Ring (head :: (l ++ x :: r))) (atNext : h.next x = some next) (atPrev : h.prev x = some prev) :
    ((h.setNext prev (some next)).setPrev next (some prev)).Ring (head :: (l ++ r)) := by
  have shape : LinkRing.IsRing h.nextPtr h.prevPtr (some head :: (l.map some ++ some x :: r.map some)) := by
    simpa [Ring] using ring
  suffices removed : LinkRing.IsRing ((h.setNext prev (some next)).setPrev next (some prev)).nextPtr
      ((h.setNext prev (some next)).setPrev next (some prev)).prevPtr
      (some head :: (l.map some ++ r.map some)) by
    simpa [Ring] using removed
  refine shape.remove_inner ?_ ?_ ?_ ?_
  · simp [nextPtr, prevPtr, atNext, atPrev, setNext, setPrev]
  · simp [nextPtr, prevPtr, atNext, atPrev, setNext, setPrev]
  · intro p member ne
    obtain ⟨y, rfl⟩ : ∃ y, p = some y := by
      cases p with
      | none => simp at member
      | some y => exact ⟨y, rfl⟩
    have other : y ≠ prev := by simpa [prevPtr, atPrev] using ne
    simp [nextPtr, setNext, setPrev, Function.update_of_ne other]
  · intro p member ne
    obtain ⟨y, rfl⟩ : ∃ y, p = some y := by
      cases p with
      | none => simp at member
      | some y => exact ⟨y, rfl⟩
    have other : y ≠ next := by simpa [nextPtr, atNext] using ne
    simp [prevPtr, setNext, setPrev, Function.update_of_ne other]

end TxCBLinks

variable [DecidableEq T] (txID : T → List.Vector UInt8 32)

/-- `r` is what a search among `S` by the compared bytes may answer. -/
def Finds (S : Finset T) (x : T) : Option T → Prop
  | some y => y ∈ S ∧ comparedBytes (txID y) = comparedBytes (txID x)
  | none => ∀ y ∈ S, comparedBytes (txID y) ≠ comparedBytes (txID x)

theorem TxCBBucket.findFrom_run {h : TxCBLinks T} {head current x : T} {l : List T}
    (links : LinkRing.Links h.prevPtr h.nextPtr (some current) (l.map some) (some head)) (outside : head ∉ l)
    {n : Nat} (enough : l.length < n) :
    ∃ r, TxCBBucket.findFrom txID h head x n current = some r ∧ Finds txID (current :: l).toFinset x r := by
  induction l generalizing current n with
  | nil =>
    obtain ⟨m, rfl⟩ : ∃ m, n = m + 1 := ⟨n - 1, by simp at enough; omega⟩
    have back : h.prev current = some head := links.1
    by_cases same : comparedBytes (txID current) = comparedBytes (txID x)
    · exact ⟨some current, by simp [findFrom, same], by simp [Finds, same]⟩
    · exact ⟨none, by simp [findFrom, same, back], by simp [Finds, same]⟩
  | cons y l ih =>
    obtain ⟨m, rfl⟩ : ∃ m, n = m + 1 := ⟨n - 1, by simp at enough; omega⟩
    obtain ⟨⟨back, -⟩, rest⟩ := links
    have back' : h.prev current = some y := back
    have different : y ≠ head := fun same => outside (same ▸ List.mem_cons_self ..)
    by_cases same : comparedBytes (txID current) = comparedBytes (txID x)
    · exact ⟨some current, by simp [findFrom, same], by simp [Finds, same]⟩
    · obtain ⟨r, run, found⟩ := ih rest (fun member => outside (List.mem_cons_of_mem _ member))
        (show l.length < m by simpa using enough)
      refine ⟨r, by simp [findFrom, same, back', different, run], ?_⟩
      cases r with
      | none => simpa [Finds, same] using found
      | some z =>
        refine ⟨?_, found.2⟩
        rw [List.toFinset_cons]
        exact Finset.mem_insert_of_mem found.1

theorem TxCBBucket.find_run {h : TxCBLinks T} {b : TxCBBucket T} {l : List T} (ring : h.Ring l)
    (head : b.txcbHead = l.head?) (x : T) {fuel : Nat} (enough : l.length ≤ fuel) :
    ∃ r, b.find txID fuel h x = some r ∧ Finds txID l.toFinset x r := by
  cases l with
  | nil =>
    have empty : b.txcbHead = none := head
    refine ⟨none, by simp [find, empty], fun y member => ?_⟩
    rw [List.toFinset_nil] at member
    exact absurd member (Finset.notMem_empty y)
  | cons first t =>
    have start : b.txcbHead = some first := head
    have backwards : LinkRing.Links h.prevPtr h.nextPtr (some first) (t.reverse.map some) (some first) := by
      simpa [TxCBLinks.Ring] using (LinkRing.IsRing.reverse ring).1
    have distinct := List.nodup_cons.mp ring.nodup
    obtain ⟨r, run, found⟩ := findFrom_run txID (x := x) backwards (by simpa using distinct.1)
      (show t.reverse.length < fuel by
        rw [List.length_reverse]
        exact enough)
    refine ⟨r, by simp [find, start, run], ?_⟩
    have sameSet : (first :: t.reverse).toFinset = (first :: t).toFinset := by
      ext z
      simp
    rwa [sameSet] at found

end MiyaCore.Chain
