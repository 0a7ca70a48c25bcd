import MiyaCore.PageTable.Regions

namespace MiyaCore.ControlFile
open LinkRing

/-- The first byte and the length of the bytes of an allocated block. -/
def region (f : ControlFile) (b : Nat) : Nat × Nat := (f.mapping b, f.blockEnd b - f.mapping b)

/-- The state between two calls, for the chains `R` and the regions handed out and
not yet given back. -/
structure Sound (f : ControlFile) (R : Chain → List Nat) (live : List (Nat × Nat)) : Prop where
  linked : Linked f R
  accounted : Accounted f R
  low : f.controlBlockTail < 2 ^ 24
  placed : Placed f R
  live : live.Perm ((R .allocated).map f.region)

theorem map_region_congr {f g : ControlFile} {l : List Nat}
    (mapping : ∀ b ∈ l, g.mapping b = f.mapping b) (ends : ∀ b ∈ l, g.blockEnd b = f.blockEnd b) :
    l.map g.region = l.map f.region := by
  refine List.map_congr_left fun b member => ?_
  rw [region, region, mapping b member, ends b member]

theorem Sound.freeHead_ne {f : ControlFile} {R : Chain → List Nat} {live : List (Nat × Nat)}
    (sound : Sound f R live) : f.head .free ≠ 0 := by
  obtain ⟨b, member, _⟩ := sound.placed.endless
  rw [ne_eq, sound.linked.head_eq_zero_iff]
  exact List.ne_nil_of_mem member

/-- A block outside the chains that is put at the head of one of them. -/
theorem accounted_push {f g : ControlFile} {S : Chain → List Nat} {b : Nat}
    (outside : ∃ n, f.controlBlockTail = 100 + 20 * n ∧ ∀ x, (x = b ∨ ∃ c, x ∈ S c) ↔ ∃ i ≤ n, x = 100 + 20 * i)
    (tail : g.controlBlockTail = f.controlBlockTail) (c : Chain) : Accounted g (withChain S c (b :: S c)) := by
  obtain ⟨n, tailIs, members⟩ := outside
  refine ⟨n, tail.trans tailIs, fun x => ?_⟩
  rw [← members x]
  constructor
  · rintro ⟨d, member⟩
    by_cases same : d = c
    · rw [same, withChain_self] at member
      rcases List.mem_cons.mp member with rfl | old
      · exact Or.inl rfl
      · exact Or.inr ⟨c, old⟩
    · exact Or.inr ⟨d, by simpa [withChain, same] using member⟩
  · rintro (rfl | ⟨d, member⟩)
    · exact ⟨c, by simp⟩
    · by_cases same : d = c
      · exact ⟨c, by simp [← same, member]⟩
      · exact ⟨d, by simpa [withChain, same] using member⟩

/-- A retired block only changes its chain. -/
theorem mem_retire {R : Chain → List Nat} {c : Chain} {x : Nat} (used : c ≠ .unUsed)
    (member : x ∈ R c) (b : Nat) :
    (∃ d, b ∈ retire R c x d) ↔ ∃ d, b ∈ R d := by
  constructor
  · rintro ⟨d, inNew⟩
    by_cases atUnUsed : d = .unUsed
    · rw [atUnUsed, retire, withChain_self] at inNew
      rcases List.mem_cons.mp inNew with rfl | old
      · exact ⟨c, member⟩
      · exact ⟨.unUsed, old⟩
    · rw [retire, withChain_other atUnUsed] at inNew
      by_cases same : d = c
      · rw [same, withChain_self] at inNew
        exact ⟨c, List.mem_of_mem_erase inNew⟩
      · exact ⟨d, by simpa [withChain, same] using inNew⟩
  · rintro ⟨d, old⟩
    by_cases isX : b = x
    · exact ⟨.unUsed, by simp [retire, isX]⟩
    · refine ⟨d, ?_⟩
      by_cases atUnUsed : d = .unUsed
      · subst atUnUsed
        simp [retire, old]
      · rw [retire, withChain_other atUnUsed]
        by_cases same : d = c
        · subst same
          rw [withChain_self]
          exact (List.mem_erase_of_ne isX).mpr old
        · simpa [withChain, same] using old

theorem accounted_retire {f g : ControlFile} {R : Chain → List Nat} {c : Chain} {x : Nat}
    (accounted : Accounted f R) (tail : g.controlBlockTail = f.controlBlockTail) (used : c ≠ .unUsed)
    (member : x ∈ R c) :
    Accounted g (retire R c x) := by
  obtain ⟨n, tailIs, members⟩ := accounted
  exact ⟨n, tail.trans tailIs, fun b => (mem_retire used member b).trans (members b)⟩

@[simp] theorem retire_self {R : Chain → List Nat} {c : Chain} {x : Nat} (used : c ≠ .unUsed) :
    retire R c x c = (R c).erase x := by
  simp [retire, used]

@[simp] theorem retire_other {R : Chain → List Nat} {c d : Chain} {x : Nat} (different : d ≠ c)
    (used : d ≠ .unUsed) :
    retire R c x d = R d := by
  simp [retire, different, used]

@[simp] theorem retire_unUsed {R : Chain → List Nat} {c : Chain} {x : Nat} :
    retire R c x .unUsed = x :: R .unUsed := by
  simp [retire]

/-- A taken block whose bytes are set is still outside the chains. -/
theorem Taken.setRegion {f g : ControlFile} {R S : Chain → List Nat} {b : Nat} (taken : Taken f g R S b)
    (m e : Nat) :
    Linked ((g.setMapping b m).setEnd b e) S :=
  (taken.linked.setMapping b m).setEnd b e

/-- Taking a block, giving it bytes and putting it on a chain. -/
theorem Taken.enlist {f g : ControlFile} {R S : Chain → List Nat} {b : Nat}
    (taken : Taken f g R S b) (m e : Nat) (c : Chain) :
    Linked (setHead c ((g.setMapping b m).setEnd b e) (some b)) (withChain S c (b :: S c)) ∧
      Accounted (setHead c ((g.setMapping b m).setEnd b e) (some b)) (withChain S c (b :: S c)) := by
  have data := setHead_sameData c ((g.setMapping b m).setEnd b e) (some b)
  exact ⟨(taken.setRegion m e).setHead_fresh c taken.nonzero taken.fresh,
    accounted_push taken.accounted data.2.2 c⟩

theorem enlist_mapping (c : Chain) (g : ControlFile) (b m e x : Nat) :
    (setHead c ((g.setMapping b m).setEnd b e) (some b)).mapping x = if x = b then m else g.mapping x := by
  rw [(setHead_sameData c _ _).1]
  simp

theorem enlist_blockEnd (c : Chain) (g : ControlFile) (b m e x : Nat) :
    (setHead c ((g.setMapping b m).setEnd b e) (some b)).blockEnd x = if x = b then e else g.blockEnd x := by
  rw [(setHead_sameData c _ _).2.1]
  simp

theorem enlist_tail (c : Chain) (g : ControlFile) (b m e : Nat) :
    (setHead c ((g.setMapping b m).setEnd b e) (some b)).controlBlockTail = g.controlBlockTail :=
  (setHead_sameData c _ _).2.2

section Placement
variable {f g : ControlFile} {R S : Chain → List Nat}

theorem owners_erase_congr {l : List Nat} {t : Nat} (member : t ∈ l) (x : Nat)
    (same : ∀ b ∈ l.erase t, g.mapping b = f.mapping b ∧ g.blockEnd b = f.blockEnd b) :
    f.owners l x = g.owners (l.erase t) x + if f.Holds t x then 1 else 0 := by
  rw [f.owners_erase member x, owners_congr x (fun b inner => (same b inner).1)
    (fun b inner => (same b inner).2)]

/-- The block without end is still there when a bounded one leaves the free chain. -/
theorem Placed.endless_erase (placed : Placed f R) {t : Nat} (bounded : f.blockEnd t ≠ 0) :
    ∃ b ∈ (R .free).erase t, f.blockEnd b = 0 := by
  obtain ⟨b, member, null⟩ := placed.endless
  exact ⟨b, (List.mem_erase_of_ne fun (same : b = t) => bounded (same ▸ null)).mpr member, null⟩

/-- The front of a free block handed out, the rest of it a new free block. -/
theorem Placed.split (placed : Placed f R) {t a n size : Nat} (member : t ∈ R .free) (positive : 0 < size)
    (fits : f.blockEnd t = 0 ∨ f.mapping t + size < f.blockEnd t) (room : f.mapping t + size < 2 ^ 24)
    (free : S .free = n :: (R .free).erase t) (used : S .allocated = a :: R .allocated)
    (same : ∀ b, b ∈ R .free ∨ b ∈ R .allocated → g.mapping b = f.mapping b ∧ g.blockEnd b = f.blockEnd b)
    (atA : g.mapping a = f.mapping t ∧ g.blockEnd a = f.mapping t + size)
    (atN : g.mapping n = f.mapping t + size ∧ g.blockEnd n = f.blockEnd t) : Placed g S := by
  have inErase : ∀ b ∈ (R .free).erase t, g.mapping b = f.mapping b ∧ g.blockEnd b = f.blockEnd b :=
    fun b inner => same b (Or.inl (List.mem_of_mem_erase inner))
  obtain ⟨_, lowEnd, _⟩ := placed.free t member
  refine ⟨fun b inS => ?_, fun b inS => ?_, ?_, fun x => ?_⟩
  · rw [free] at inS
    rcases List.mem_cons.mp inS with rfl | inner
    · rw [atN.1, atN.2]
      omega
    · rw [(inErase b inner).1, (inErase b inner).2]
      exact placed.free b (List.mem_of_mem_erase inner)
  · rw [used] at inS
    rcases List.mem_cons.mp inS with rfl | inner
    · rw [atA.1, atA.2]
      omega
    · rw [(same b (Or.inr inner)).1, (same b (Or.inr inner)).2]
      exact placed.used b inner
  · rw [free]
    by_cases null : f.blockEnd t = 0
    · exact ⟨n, List.mem_cons_self .., atN.2.trans null⟩
    · obtain ⟨b, inner, atEnd⟩ := placed.endless_erase null
      exact ⟨b, List.mem_cons_of_mem _ inner, (inErase b inner).2.trans atEnd⟩
  · have before := placed.once x
    rw [owners_erase_congr member x inErase] at before
    have shared : (if g.Holds n x then 1 else 0) + (if g.Holds a x then 1 else 0) = if f.Holds t x
      then 1 else 0 := by
      simp only [holds_iff, atN.1, atN.2, atA.1, atA.2]
      split_ifs <;> omega
    rw [free, used, owners_cons, owners_cons,
      owners_congr x (fun b inner => (same b (Or.inr inner)).1) (fun b inner => (same b (Or.inr inner)).2)]
    omega

/-- A free block handed out whole. -/
theorem Placed.exact (placed : Placed f R) {t a size : Nat} (member : t ∈ R .free) (positive : 0 < size)
    (fits : f.blockEnd t = f.mapping t + size)
    (free : S .free = (R .free).erase t) (used : S .allocated = a :: R .allocated)
    (same : ∀ b, b ∈ R .free ∨ b ∈ R .allocated → g.mapping b = f.mapping b ∧ g.blockEnd b = f.blockEnd b)
    (atA : g.mapping a = f.mapping t ∧ g.blockEnd a = f.mapping t + size) : Placed g S := by
  have inErase : ∀ b ∈ (R .free).erase t, g.mapping b = f.mapping b ∧ g.blockEnd b = f.blockEnd b :=
    fun b inner => same b (Or.inl (List.mem_of_mem_erase inner))
  obtain ⟨_, lowEnd, _⟩ := placed.free t member
  refine ⟨fun b inS => ?_, fun b inS => ?_, ?_, fun x => ?_⟩
  · rw [free] at inS
    rw [(inErase b inS).1, (inErase b inS).2]
    exact placed.free b (List.mem_of_mem_erase inS)
  · rw [used] at inS
    rcases List.mem_cons.mp inS with rfl | inner
    · rw [atA.1, atA.2]
      omega
    · rw [(same b (Or.inr inner)).1, (same b (Or.inr inner)).2]
      exact placed.used b inner
  · rw [free]
    obtain ⟨b, inner, atEnd⟩ := placed.endless_erase (t := t) (by omega)
    exact ⟨b, inner, (inErase b inner).2.trans atEnd⟩
  · have before := placed.once x
    rw [owners_erase_congr member x inErase] at before
    have moved : (if g.Holds a x then 1 else 0) = if f.Holds t x then 1 else 0 := by
      simp only [holds_iff, fits, atA.1, atA.2]
    rw [free, used, owners_cons,
      owners_congr x (fun b inner => (same b (Or.inr inner)).1) (fun b inner => (same b (Or.inr inner)).2)]
    omega

/-- An allocated block given back as a new free block. -/
theorem Placed.release (placed : Placed f R) {t n : Nat} (member : t ∈ R .allocated)
    (free : S .free = n :: R .free) (used : S .allocated = (R .allocated).erase t)
    (same : ∀ b, b ∈ R .free ∨ b ∈ R .allocated → g.mapping b = f.mapping b ∧ g.blockEnd b = f.blockEnd b)
    (atN : g.mapping n = f.mapping t ∧ g.blockEnd n = f.blockEnd t) : Placed g S := by
  have inErase : ∀ b ∈ (R .allocated).erase t, g.mapping b = f.mapping b ∧ g.blockEnd b = f.blockEnd b :=
    fun b inner => same b (Or.inr (List.mem_of_mem_erase inner))
  obtain ⟨shape, lowEnd⟩ := placed.used t member
  refine ⟨fun b inS => ?_, fun b inS => ?_, ?_, fun x => ?_⟩
  · rw [free] at inS
    rcases List.mem_cons.mp inS with rfl | inner
    · rw [atN.1, atN.2]
      omega
    · rw [(same b (Or.inl inner)).1, (same b (Or.inl inner)).2]
      exact placed.free b inner
  · rw [used] at inS
    rw [(inErase b inS).1, (inErase b inS).2]
    exact placed.used b (List.mem_of_mem_erase inS)
  · rw [free]
    obtain ⟨b, inner, atEnd⟩ := placed.endless
    exact ⟨b, List.mem_cons_of_mem _ inner, (same b (Or.inl inner)).2.trans atEnd⟩
  · have before := placed.once x
    rw [owners_erase_congr member x inErase] at before
    have moved : (if g.Holds n x then 1 else 0) = if f.Holds t x then 1 else 0 := by
      simp only [holds_iff, atN.1, atN.2]
    rw [free, used, owners_cons,
      owners_congr x (fun b inner => (same b (Or.inl inner)).1) (fun b inner => (same b (Or.inl inner)).2)]
    omega

/-- The head of the free chain grown over the free block that starts at its end. -/
theorem Placed.join (placed : Placed f R) {h m : Nat} {t : List Nat} (atFree : R .free = h :: t)
    (member : m ∈ t) (outside : h ∉ t) (bounded : f.blockEnd h ≠ 0) (touching : f.mapping m = f.blockEnd h)
    (free : S .free = h :: t.erase m) (used : S .allocated = R .allocated) (apart : h ∉ R .allocated)
    (same : ∀ b, b ≠ h → g.mapping b = f.mapping b ∧ g.blockEnd b = f.blockEnd b)
    (atH : g.mapping h = f.mapping h ∧ g.blockEnd h = f.blockEnd m) : Placed g S := by
  have inErase : ∀ b ∈ t.erase m, g.mapping b = f.mapping b ∧ g.blockEnd b = f.blockEnd b :=
    fun b inner => same b fun atHead => outside (atHead ▸ List.mem_of_mem_erase inner)
  have inUsed : ∀ b ∈ R .allocated, g.mapping b = f.mapping b ∧ g.blockEnd b = f.blockEnd b :=
    fun b inner => same b fun atHead => apart (atHead ▸ inner)
  have shapeH := placed.free h (by simp [atFree])
  have shapeM := placed.free m (by simp [atFree, member])
  refine ⟨fun b inS => ?_, fun b inS => ?_, ?_, fun x => ?_⟩
  · rw [free] at inS
    rcases List.mem_cons.mp inS with rfl | inner
    · rw [atH.1, atH.2]
      omega
    · rw [(inErase b inner).1, (inErase b inner).2]
      exact placed.free b (by simp [atFree, List.mem_of_mem_erase inner])
  · rw [used] at inS
    rw [(inUsed b inS).1, (inUsed b inS).2]
    exact placed.used b inS
  · rw [free]
    obtain ⟨b, inFree, atEnd⟩ := placed.endless
    have inner : b ∈ t := by
      rw [atFree] at inFree
      exact (List.mem_cons.mp inFree).resolve_left fun atHead => bounded (atHead ▸ atEnd)
    by_cases isM : b = m
    · exact ⟨h, List.mem_cons_self .., atH.2.trans (isM ▸ atEnd)⟩
    · have left : b ∈ t.erase m := (List.mem_erase_of_ne isM).mpr inner
      exact ⟨b, List.mem_cons_of_mem _ left, (inErase b left).2.trans atEnd⟩
  · have before := placed.once x
    rw [atFree, owners_cons, owners_erase_congr member x inErase] at before
    have joined : (if g.Holds h x then 1 else 0) = (if f.Holds h x then 1 else 0) + if f.Holds m x
      then 1 else 0 := by
      simp only [holds_iff, atH.1, atH.2]
      split_ifs <;> omega
    rw [free, used, owners_cons, owners_congr x (fun b inner => (inUsed b inner).1)
      (fun b inner => (inUsed b inner).2)]
    omega

end Placement

/-- `allocate` halfway: the new block `a` is on the allocated chain and stands for
the first `size` bytes of the free block `t`, which is still on its own chain. -/
structure Granted (f h : ControlFile) (R T : Chain → List Nat) (t a size : Nat) : Prop where
  linked : Linked h T
  accounted : Accounted h T
  free : T .free = R .free
  used : T .allocated = a :: R .allocated
  unUsed : T .unUsed = (R .unUsed).tail
  tail : h.controlBlockTail = if (R .unUsed).length = 0 then f.controlBlockTail + 20 else f.controlBlockTail
  atA : h.mapping a = f.mapping t ∧ h.blockEnd a = f.mapping t + size
  same : ∀ x, x ≠ a → h.mapping x = f.mapping x ∧ h.blockEnd x = f.blockEnd x
  apart : a ∉ R .free ∧ a ∉ R .allocated

/-- What `allocate` does to the free chain when it cuts `size` bytes from the block `t`, and how many control
blocks it needs. -/
structure Cut (f g : ControlFile) (R S : Chain → List Nat) (t size : Nat) : Prop where
  same : ∀ b ∈ (R .free).erase t, g.mapping b = f.mapping b ∧ g.blockEnd b = f.blockEnd b
  free : S .free = (R .free).erase t ∨
    ∃ n, S .free = n :: (R .free).erase t ∧ g.mapping n = f.mapping t + size ∧ g.blockEnd n = f.blockEnd t
  unUsed : 0 < (S .unUsed).length ∧ (S .unUsed).length ≤ max 1 (R .unUsed).length
  tail : g.controlBlockTail ≤ f.controlBlockTail + 20 * (2 - (R .unUsed).length)

theorem Sound.granted {f g : ControlFile} {R S : Chain → List Nat} {live : List (Nat × Nat)} {a t size : Nat}
    (sound : Sound f R live) (taken : Taken f g R S a) (member : t ∈ R .free)
    (room : f.mapping t + size < 2 ^ 24) :
    ∃ h, ((g.setMapping a (g.mapping t)).setEnd a
        (optrAdd ((g.setMapping a (g.mapping t)).mapping a) size)).allocatedBlockHead (some a) = h ∧
      Granted f h R (withChain S .allocated (a :: S .allocated)) t a size := by
  have start : optrAdd (f.mapping t) size = f.mapping t + size :=
    optrAdd_of_lt (sound.placed.free t member).1 (by omega)
  obtain ⟨linked, accounted⟩ := taken.enlist (f.mapping t) (f.mapping t + size) .allocated
  have freeS : S .free = R .free := taken.others .free (by decide)
  have usedS : S .allocated = R .allocated := taken.others .allocated (by decide)
  refine ⟨_, rfl, ?_⟩
  simp only [setMapping_mapping, if_true, taken.mapping, start, allocatedBlockHead]
  refine ⟨linked, accounted, by simp [freeS], by simp [usedS], by simp [taken.unUsed], ?_, ?_, fun x different => ?_, ?_⟩
  · rw [enlist_tail, taken.tail]
  · simp [enlist_mapping, enlist_blockEnd]
  · simp [enlist_mapping, enlist_blockEnd, different, taken.mapping, taken.blockEnd]
  · exact ⟨freeS ▸ taken.fresh .free, usedS ▸ taken.fresh .allocated⟩

theorem freeBlockSize_congr {f g : ControlFile} {b : Nat}
    (same : g.mapping b = f.mapping b ∧ g.blockEnd b = f.blockEnd b) :
    g.freeBlockSize b = f.freeBlockSize b := by
  simp only [freeBlockSize, same.1, same.2]

namespace Granted
variable {f h : ControlFile} {R T : Chain → List Nat} {live : List (Nat × Nat)} {t a size : Nat}

theorem same_of_mem (granted : Granted f h R T t a size) {b : Nat} (member : b ∈ R .free ∨ b ∈ R .allocated) :
    h.mapping b = f.mapping b ∧ h.blockEnd b = f.blockEnd b := by
  refine granted.same b ?_
  rintro rfl
  rcases member with inFree | inUsed
  · exact granted.apart.1 inFree
  · exact granted.apart.2 inUsed

/-- The free chain is as it was, so its head is too. -/
theorem head_free (granted : Granted f h R T t a size) (linked : Linked f R) : h.head .free = f.head .free := by
  rw [granted.linked.head, linked.head, granted.free]

theorem live_perm {k : ControlFile} {S : Chain → List Nat} (granted : Granted f h R T t a size)
    (sound : Sound f R live) (data : ∀ b, b = a ∨ b ∈ R .allocated → k.mapping b = h.mapping b ∧
    k.blockEnd b = h.blockEnd b)
    (used : S .allocated = a :: R .allocated) :
    ((k.mapping a, size) :: live).Perm ((S .allocated).map k.region) := by
  have onUsed : ∀ b ∈ R .allocated, k.mapping b = f.mapping b ∧ k.blockEnd b = f.blockEnd b := by
    intro b member
    have first := data b (Or.inr member)
    have second := granted.same_of_mem (Or.inr member)
    exact ⟨first.1.trans second.1, first.2.trans second.2⟩
  rw [used, List.map_cons, map_region_congr (fun b m => (onUsed b m).1) (fun b m => (onUsed b m).2), region,
    (data a (Or.inl rfl)).1, (data a (Or.inl rfl)).2, granted.atA.1, granted.atA.2, Nat.add_sub_cancel_left]
  exact List.Perm.cons _ sound.live

/-- The target is used up. -/
theorem whole (granted : Granted f h R T t a size) (sound : Sound f R live) (member : t ∈ R .free)
    (positive : 0 < size) (fits : f.blockEnd t = f.mapping t + size) (low : h.controlBlockTail < 2 ^ 24)
    (short : f.head .free = t → (R .free).length ≤ 2) :
    ∃ k S, h.toUnUsedControlBlock t = .ok k ∧ Sound k S ((k.mapping a, size) :: live) ∧
      k.mapping a = f.mapping t ∧
      Cut f k R S t size := by
  have memberT : t ∈ T .free := granted.free ▸ member
  obtain ⟨k, retired, linkedK, data⟩ := granted.linked.toUnUsed (c := .free) (by decide) memberT
    (List.ne_nil_of_mem memberT) (by rw [granted.free, granted.head_free sound.linked]; exact short)
  have used : retire T .free t .allocated = a :: R .allocated := by simp [granted.used]
  refine ⟨k, retire T .free t, retired,
    ⟨linkedK, accounted_retire granted.accounted data.2.2 (by decide) memberT, ?_, ?_, ?_⟩,
    (data.1 a).trans granted.atA.1, ⟨fun b inner => ?_, Or.inl (by simp [granted.free]), ?_, ?_⟩⟩
  · rw [data.2.2]
    exact low
  · refine sound.placed.exact member positive fits (by simp [granted.free]) used ?_ ?_
    · intro b inChain
      rw [data.1, data.2.1]
      exact granted.same_of_mem inChain
    · rw [data.1, data.2.1]
      exact granted.atA
  · exact granted.live_perm sound (fun b _ => ⟨data.1 b, data.2.1 b⟩) used
  · rw [data.1, data.2.1]
    exact granted.same_of_mem (Or.inl (List.mem_of_mem_erase inner))
  · rw [retire_unUsed, List.length_cons, granted.unUsed, List.length_tail]
    omega
  · rw [data.2.2, granted.tail]
    split_ifs <;> omega

/-- The rest of the target becomes a new free block. -/
theorem split (granted : Granted f h R T t a size) (sound : Sound f R live) (member : t ∈ R .free)
    (positive : 0 < size) (fits : f.blockEnd t = 0 ∨ f.mapping t + size < f.blockEnd t)
    (room : f.mapping t + size < 2 ^ 24) (short : f.head .free = t → (R .free).length ≤ 2)
    (shortUnUsed : (T .unUsed).length ≤ 2) (low : h.controlBlockTail < 2 ^ 24)
    (roomBlock : (T .unUsed).length = 0 → h.controlBlockTail + 20 < 2 ^ 24) :
    ∃ n g k S, h.takeControlBlock = (n, g) ∧
      ((g.setMapping n (optrAdd (g.mapping a) size)).setEnd n
        ((g.setMapping n (optrAdd (g.mapping a) size)).blockEnd t)).toUnUsedControlBlock t = .ok k ∧
      Sound (k.freeBlockHead (some n)) S (((k.freeBlockHead (some n)).mapping a, size) :: live) ∧
      (k.freeBlockHead (some n)).mapping a = f.mapping t ∧ Cut f (k.freeBlockHead (some n)) R S t size := by
  obtain ⟨n, g, take, U, taken⟩ := granted.linked.take granted.accounted shortUnUsed roomBlock
  have freeU : U .free = R .free := (taken.others .free (by decide)).trans granted.free
  have usedU : U .allocated = a :: R .allocated := (taken.others .allocated (by decide)).trans granted.used
  have memberU : t ∈ U .free := freeU ▸ member
  have start : optrAdd (g.mapping a) size = f.mapping t + size := by
    rw [taken.mapping, granted.atA.1]
    exact optrAdd_of_lt (sound.placed.free t member).1 (by omega)
  have tailEnd : g.blockEnd t = f.blockEnd t := by
    rw [taken.blockEnd, (granted.same_of_mem (Or.inl member)).2]
  have linked := taken.setRegion (f.mapping t + size) (f.blockEnd t)
  obtain ⟨k, retired, linkedK, data⟩ := linked.toUnUsed (c := .free) (by decide) memberU
    (List.ne_nil_of_mem memberU) (by rw [linked.head, freeU, ← sound.linked.head]; exact short)
  have fresh : ∀ d, n ∉ retire U .free t d := fun d inNew =>
    (mem_retire (by decide) memberU n).not.mpr (fun ⟨c, old⟩ => taken.fresh c old) ⟨d, inNew⟩
  have last := setHead_sameData .free k (some n)
  have atN : (k.freeBlockHead (some n)).mapping n = f.mapping t + size ∧
      (k.freeBlockHead (some n)).blockEnd n = f.blockEnd t := by
    rw [freeBlockHead, last.1, last.2.1, data.1, data.2.1]
    simp
  have others : ∀ b, b ≠ n → (k.freeBlockHead (some n)).mapping b = h.mapping b ∧
      (k.freeBlockHead (some n)).blockEnd b = h.blockEnd b := by
    intro b different
    rw [freeBlockHead, last.1, last.2.1, data.1, data.2.1]
    simp [different, taken.mapping, taken.blockEnd]
  have notN : ∀ b, b = a ∨ b ∈ R .free ∨ b ∈ R .allocated → b ≠ n := by
    rintro b (rfl | inFree | inUsed) rfl
    · exact taken.fresh .allocated (by simp [usedU])
    · exact taken.fresh .free (freeU ▸ inFree)
    · exact taken.fresh .allocated (by simp [usedU, inUsed])
  have lastTail : (k.freeBlockHead (some n)).controlBlockTail =
      if (T .unUsed).length = 0 then h.controlBlockTail + 20 else h.controlBlockTail := by
    rw [freeBlockHead, last.2.2, data.2.2, setEnd_tail, setMapping_tail, taken.tail]
  refine ⟨n, g, k, withChain (retire U .free t) .free (n :: retire U .free t .free), take, ?_, ?_,
    (others a (notN a (Or.inl rfl))).1.trans granted.atA.1,
    ⟨fun b inner => ?_, Or.inr ⟨n, by simp [freeU], atN⟩, ?_, ?_⟩⟩
  · rw [setMapping_blockEnd, start, tailEnd]
    exact retired
  · refine ⟨linkedK.setHead_fresh .free taken.nonzero fresh, ?_, ?_, ?_, ?_⟩
    · refine accounted_push (f := k) ?_ last.2.2 .free
      obtain ⟨m, tail, members⟩ := taken.accounted
      refine ⟨m, data.2.2.trans tail, fun x => ?_⟩
      rw [mem_retire (by decide) memberU]
      exact members x
    · rw [lastTail]
      split_ifs <;> omega
    · refine sound.placed.split (a := a) member positive fits room (by simp [freeU]) (by simp [usedU]) ?_ ?_ atN
      · intro b inChain
        have first := others b (notN b (Or.inr inChain))
        have second := granted.same_of_mem inChain
        exact ⟨first.1.trans second.1, first.2.trans second.2⟩
      · have first := others a (notN a (Or.inl rfl))
        exact ⟨first.1.trans granted.atA.1, first.2.trans granted.atA.2⟩
    · refine granted.live_perm sound (fun b inChain => others b (notN b ?_)) (by simp [usedU])
      rcases inChain with same | inUsed
      · exact Or.inl same
      · exact Or.inr (Or.inr inUsed)
  · have inFree := List.mem_of_mem_erase inner
    have first := others b (notN b (Or.inr (Or.inl inFree)))
    have second := granted.same_of_mem (Or.inl inFree)
    exact ⟨first.1.trans second.1, first.2.trans second.2⟩
  · rw [withChain_other (by decide), retire_unUsed, List.length_cons, taken.unUsed, granted.unUsed,
      List.length_tail, List.length_tail]
    omega
  · rw [lastTail, granted.unUsed, List.length_tail, granted.tail]
    split_ifs <;> omega

end Granted

/-- `allocate` hands out bytes that no live region has, when it retires the free
head from a chain of at most two blocks and takes control blocks from a chain
of at most two. -/
theorem Sound.allocate {f : ControlFile} {R : Chain → List Nat} {live : List (Nat × Nat)}
    (sound : Sound f R live) {size : Nat} (positive : 0 < size) (shortUnUsed : (R .unUsed).length ≤ 2)
    (roomBlocks : f.controlBlockTail + 20 * (2 - (R .unUsed).length) < 2 ^ 24)
    (atTarget : ∀ t, f.findFreeBlock (f.head .free) size = .ok t →
      f.mapping t + size < 2 ^ 24 ∧ (f.head .free = t → (R .free).length ≤ 2)) :
    ∃ t g S, t ∈ R .free ∧ (f.blockEnd t = 0 ∨ f.mapping t + size ≤ f.blockEnd t) ∧
      f.allocate size = .ok (f.mapping t, g) ∧
      Sound g S ((f.mapping t, size) :: live) ∧ Cut f g R S t size := by
  obtain ⟨t, member, found, fits⟩ := sound.linked.findFreeBlock_ok sound.accounted sound.placed size
  obtain ⟨room, short⟩ := atTarget t found
  have shape := sound.placed.free t member
  rw [Nat.mod_eq_of_lt (by omega)] at fits
  obtain ⟨a, g, take, S, taken⟩ := sound.linked.take sound.accounted shortUnUsed (by omega)
  obtain ⟨h, hIs, granted⟩ := sound.granted taken member room
  have low : h.controlBlockTail < 2 ^ 24 := by
    rw [granted.tail]
    split_ifs <;> omega
  have sizeIs : h.freeBlockSize t = f.blockEnd t - f.mapping t := by
    rw [freeBlockSize_congr (granted.same_of_mem (Or.inl member)), freeBlockSize_eq
      ⟨shape.1, shape.2.1⟩ shape.2.2]
  by_cases splits : f.blockEnd t = 0 ∨ f.mapping t + size < f.blockEnd t
  · have taking : h.freeBlockSize t = 0 ∨ size < h.freeBlockSize t := by omega
    have lengthT : (withChain S .allocated (a :: S .allocated) .unUsed).length = (R .unUsed).length - 1 := by
      rw [granted.unUsed, List.length_tail]
    obtain ⟨n, g', k, S', take', retired, sound', address, cut⟩ :=
      granted.split sound member positive splits room short (by omega) low
      (by
        rw [lengthT, granted.tail]
        split_ifs <;> omega)
    refine ⟨t, k.freeBlockHead (some n), S', member, fits, ?_, address ▸ sound', cut⟩
    rw [← address]
    simp only [ControlFile.allocate, sound.freeHead_ne, if_false, found, take, bind, Except.bind, hIs,
      taking, if_true, take', retired]
    rfl
  · have taking : ¬(h.freeBlockSize t = 0 ∨ size < h.freeBlockSize t) := by omega
    obtain ⟨k, S', retired, sound', address, cut⟩ := granted.whole sound member positive (by omega) low short
    refine ⟨t, k, S', member, fits, ?_, address ▸ sound', cut⟩
    rw [← address]
    simp only [ControlFile.allocate, sound.freeHead_ne, if_false, found, take, bind, Except.bind, hIs,
      taking, retired]
    rfl

/-- One round of `mergeControlBlock`: the free block `m` that starts at the end of
the free head goes into it. It is never the head itself, so it may leave a
chain of any length. -/
theorem Sound.joinStep {f : ControlFile} {R : Chain → List Nat} {live : List (Nat × Nat)}
    (sound : Sound f R live) {h m : Nat} {t : List Nat} (atFree : R .free = h :: t)
    (bounded : f.blockEnd h ≠ 0) (member : m ∈ h :: t) (touching : f.mapping m = f.blockEnd h) :
    ∃ g, (f.setEnd h (f.blockEnd m)).toUnUsedControlBlock m = .ok g ∧ Sound g (retire R .free m) live ∧
      retire R .free m .free = h :: t.erase m ∧ m ∈ t ∧ g.mapping h = f.mapping h ∧
      ∀ b, b ≠ h → g.mapping b = f.mapping b ∧ g.blockEnd b = f.blockEnd b := by
  have shape := sound.placed.free h (by simp [atFree])
  have different : h ≠ m := by
    rintro rfl
    omega
  have inner : m ∈ t := (List.mem_cons.mp member).resolve_left different.symm
  have outside : h ∉ t := (List.nodup_cons.mp (atFree ▸ (sound.linked.ring .free).nodup)).1
  have memberR : m ∈ R .free := atFree ▸ member
  have linked := sound.linked.setEnd h (f.blockEnd m)
  obtain ⟨g, retired, linkedG, data⟩ := linked.toUnUsed (c := .free) (by decide) memberR (by simp [atFree]) (by
    intro atHead
    rw [linked.head, atFree] at atHead
    exact absurd atHead different)
  have free : retire R .free m .free = h :: t.erase m := by
    simp [atFree, List.erase_cons_tail, different]
  have used : retire R .free m .allocated = R .allocated := by simp
  have apart : h ∉ R .allocated := sound.linked.apart .free .allocated (by decide) h (by simp [atFree])
  have others : ∀ b, b ≠ h → g.mapping b = f.mapping b ∧ g.blockEnd b = f.blockEnd b := by
    intro b ne
    rw [data.1, data.2.1]
    simp [ne]
  have atH : g.mapping h = f.mapping h ∧ g.blockEnd h = f.blockEnd m := by
    rw [data.1, data.2.1]
    simp
  refine ⟨g, retired, ⟨linkedG, ?_, ?_, ?_, ?_⟩, free, inner, atH.1, others⟩
  · exact accounted_retire sound.accounted data.2.2 (by decide) memberR
  · rw [data.2.2]
    exact sound.low
  · exact sound.placed.join atFree inner outside bounded touching free used apart others atH
  · have onUsed : ∀ b ∈ R .allocated, g.mapping b = f.mapping b ∧ g.blockEnd b = f.blockEnd b :=
      fun b inUsed => others b fun same => apart (same ▸ inUsed)
    rw [used, map_region_congr (fun b inUsed => (onUsed b inUsed).1) (fun b inUsed => (onUsed b inUsed).2)]
    exact sound.live

/-- What merging at the free head `h` leaves of the free chain `h :: t`: no free block starts where the head
ends any more. -/
structure Merged (f g : ControlFile) (S : Chain → List Nat) (h : Nat) (t : List Nat) : Prop where
  free : ∃ rest, S .free = h :: rest ∧ rest ⊆ t
  start : g.mapping h = f.mapping h
  same : ∀ b, b ≠ h → g.mapping b = f.mapping b ∧ g.blockEnd b = f.blockEnd b
  done : g.blockEnd h = 0 ∨ ∀ m ∈ S .free, g.mapping m ≠ g.blockEnd h

/-- Merging at the free head ends, since each round takes a block off the free chain. -/
theorem Sound.mergeFuel {f : ControlFile} {R : Chain → List Nat} {live : List (Nat × Nat)}
    (sound : Sound f R live) {h : Nat} {t : List Nat} (atFree : R .free = h :: t) {n : Nat}
    (enough : t.length < n) :
    ∃ g S, mergeControlBlockFuel n f h = .ok g ∧ Sound g S live ∧ Merged f g S h t := by
  induction n generalizing f R t with
  | zero => omega
  | succ n ih =>
    by_cases null : f.blockEnd h = 0
    · exact ⟨f, R, by simp [mergeControlBlockFuel, null], sound,
        ⟨t, atFree, fun _ member => member⟩, rfl, fun _ _ => ⟨rfl, rfl⟩, Or.inl null⟩
    · have search := sound.linked.findMapped_eq sound.accounted .free (f.blockEnd h)
      rw [atFree] at search
      cases found : (h :: t).find? (fun b => decide (f.mapping b = f.blockEnd h)) with
      | none =>
        rw [found] at search
        refine ⟨f, R, ?_, sound, ⟨t, atFree, fun _ member => member⟩, rfl, fun _ _ => ⟨rfl, rfl⟩, Or.inr
          fun m member => ?_⟩
        · simp only [mergeControlBlockFuel, null, if_false, findFreeBlockAt, search, bind, Except.bind]
          rfl
        · simpa using List.find?_eq_none.mp found m (atFree ▸ member)
      | some m =>
        rw [found] at search
        have touching : f.mapping m = f.blockEnd h := by simpa using List.find?_some found
        obtain ⟨g, retired, soundG, freeG, inner, start, same⟩ :=
          sound.joinStep atFree null (List.mem_of_find?_eq_some found) touching
        have shorter := List.length_erase_of_mem inner
        have positive := List.length_pos_of_mem inner
        obtain ⟨k, S, rest, soundK, ⟨left, freeK, sub⟩, startK, sameK, done⟩ := ih soundG freeG (by omega)
        refine ⟨k, S, ?_, soundK, ⟨left, freeK, fun b member => List.mem_of_mem_erase (sub member)⟩,
          startK.trans start,
          fun b ne => ⟨(sameK b ne).1.trans (same b ne).1, (sameK b ne).2.trans (same b ne).2⟩, done⟩
        simp only [mergeControlBlockFuel, null, if_false, findFreeBlockAt, search, bind, Except.bind,
          retired, rest]

/-- Two allocated blocks have no byte in common. -/
theorem Placed.used_apart {f : ControlFile} {R : Chain → List Nat} (placed : Placed f R) :
    (R .allocated).Pairwise (fun b c => ∀ x, ¬(f.Holds b x ∧ f.Holds c x)) := by
  rw [List.pairwise_iff_forall_sublist]
  rintro b c sub x ⟨holdsB, holdsC⟩
  have both : f.owners [b, c] x = 2 := by simp [owners, holdsB, holdsC]
  have two : 2 ≤ f.owners (R .allocated) x := both ▸ sub.countP_le
  have := placed.once x
  omega

theorem Placed.holds_start {f : ControlFile} {R : Chain → List Nat} (placed : Placed f R) {b : Nat}
    (member : b ∈ R .allocated) : f.Holds b (f.mapping b) :=
  ⟨le_rfl, Or.inr (placed.used b member).1⟩

/-- No two live regions start at the same byte. -/
theorem Sound.starts {f : ControlFile} {R : Chain → List Nat} {live : List (Nat × Nat)}
    (sound : Sound f R live) :
    live.Pairwise (fun r s => r.1 ≠ s.1) := by
  have onBlocks : ((R .allocated).map f.region).Pairwise (fun r s => r.1 ≠ s.1) := by
    refine List.pairwise_map.mpr (sound.placed.used_apart.imp_of_mem fun {b c} inB inC apart same => ?_)
    have holdsC := sound.placed.holds_start inC
    exact apart (f.mapping b) ⟨sound.placed.holds_start inB,
      (show f.mapping b = f.mapping c from same) ▸ holdsC⟩
  exact sound.live.symm.pairwise onBlocks fun ne => Ne.symm ne

/-- Forgetting the live region that starts where block `a` does. -/
theorem Sound.live_erase {f : ControlFile} {R : Chain → List Nat} {live : List (Nat × Nat)}
    (sound : Sound f R live) {a : Nat} (member : a ∈ R .allocated) :
    (live.eraseP (fun r => decide (r.1 = f.mapping a))).Perm (((R .allocated).erase a).map f.region) := by
  have split : live.Perm (f.region a :: ((R .allocated).erase a).map f.region) :=
    sound.live.trans ((List.perm_cons_erase member).map f.region)
  have unique : live.Pairwise (fun r s => decide (r.1 = f.mapping a) = true →
    decide (s.1 = f.mapping a) = true → False) := by
    refine sound.starts.imp ?_
    intro r s different first second
    simp only [decide_eq_true_eq] at first second
    exact different (first.trans second.symm)
  have erased := List.Perm.eraseP _ unique split
  rwa [List.eraseP_cons_of_pos (by simp [region])] at erased

/-- What `deallocate` of the region that starts at `p` leaves of the free chain: a new head in its place, behind
which no free block starts, and some of the blocks that were free before. -/
def Released (f g : ControlFile) (R S : Chain → List Nat) (p : Nat) : Prop :=
  ∃ n rest, S .free = n :: rest ∧ g.mapping n = p ∧
  (g.blockEnd n = 0 ∨ ∀ m ∈ S .free, g.mapping m ≠ g.blockEnd n) ∧
    ∀ b ∈ rest, b ∈ R .free ∧ g.mapping b = f.mapping b ∧ g.blockEnd b = f.blockEnd b

/-- `deallocate` of a live region gives its bytes back, when it takes a control
block from a chain of at most two and retires the allocated head only from a
chain of at most two. -/
theorem Sound.deallocate {f : ControlFile} {R : Chain → List Nat} {live : List (Nat × Nat)}
    (sound : Sound f R live) {p : Nat} (isLive : ∃ size, (p, size) ∈ live)
    (shortUnUsed : (R .unUsed).length ≤ 2)
    (roomBlock : f.controlBlockTail + 20 * (1 - (R .unUsed).length) < 2 ^ 24)
    (atHead : f.mapping (f.head .allocated) = p → (R .allocated).length ≤ 2) :
    ∃ g S, f.deallocate p = .ok g ∧ Sound g S (live.eraseP (fun r => decide (r.1 = p))) ∧
      Released f g R S p := by
  have search := sound.linked.findMapped_eq sound.accounted .allocated p
  obtain ⟨a, found, member, starts⟩ : ∃ a, (R .allocated).find? (fun b => decide (f.mapping b = p)) = some a ∧
      a ∈ R .allocated ∧ f.mapping a = p := by
    obtain ⟨size, inLive⟩ := isLive
    obtain ⟨b, inUsed, regionIs⟩ := List.mem_map.mp (sound.live.mem_iff.mp inLive)
    have hit : ((R .allocated).find? (fun b => decide (f.mapping b = p))).isSome := by
      rw [List.find?_isSome]
      exact ⟨b, inUsed, by simpa [region] using congrArg Prod.fst regionIs⟩
    obtain ⟨a, found⟩ := Option.isSome_iff_exists.mp hit
    exact ⟨a, found, List.mem_of_find?_eq_some found, by simpa using List.find?_some found⟩
  rw [found] at search
  obtain ⟨n, g, take, S, taken⟩ := sound.linked.take sound.accounted shortUnUsed (by omega)
  have freeS : S .free = R .free := taken.others .free (by decide)
  have usedS : S .allocated = R .allocated := taken.others .allocated (by decide)
  obtain ⟨linked, accounted⟩ := taken.enlist p (f.blockEnd a) .free
  generalize headIs : setHead .free ((g.setMapping n p).setEnd n (f.blockEnd a))
    (some n) = h at linked accounted
  have memberH : a ∈ withChain S .free (n :: S .free) .allocated := by simpa [usedS] using member
  obtain ⟨k, retired, linkedK, data⟩ := linked.toUnUsed (c := .allocated) (by decide) memberH (by simp) (by
    intro isHead
    rw [linked.head] at isHead
    simp only [ne_eq, reduceCtorEq, not_false_eq_true, withChain_other, usedS] at isHead ⊢
    rw [← sound.linked.head] at isHead
    exact atHead (by rw [isHead, starts]))
  have freeK : retire (withChain S .free (n :: S .free)) .allocated a .free = n :: R .free := by simp [freeS]
  have usedK : retire (withChain S .free (n :: S .free)) .allocated a .allocated = (R .allocated).erase a := by
    simp [usedS]
  have atN : k.mapping n = f.mapping a ∧ k.blockEnd n = f.blockEnd a := by
    rw [data.1, data.2.1, ← headIs, enlist_mapping, enlist_blockEnd]
    simp [starts]
  have same : ∀ b, b ∈ R .free ∨ b ∈ R .allocated → k.mapping b = f.mapping b ∧
    k.blockEnd b = f.blockEnd b := by
    intro b inChain
    have notN : b ≠ n := by
      rintro rfl
      rcases inChain with inFree | inUsed
      · exact taken.fresh .free (freeS ▸ inFree)
      · exact taken.fresh .allocated (usedS ▸ inUsed)
    rw [data.1, data.2.1, ← headIs, enlist_mapping, enlist_blockEnd]
    simp [notN, taken.mapping, taken.blockEnd]
  have soundK : Sound k (retire (withChain S .free (n :: S .free)) .allocated a)
      (live.eraseP (fun r => decide (r.1 = p))) := by
    refine ⟨linkedK, accounted_retire accounted data.2.2 (by decide) memberH, ?_, ?_, ?_⟩
    · rw [data.2.2, ← headIs, enlist_tail, taken.tail]
      have := sound.low
      split_ifs <;> omega
    · exact sound.placed.release member freeK usedK same atN
    · have onUsed : ∀ b ∈ (R .allocated).erase a, k.mapping b = f.mapping b ∧ k.blockEnd b = f.blockEnd b :=
        fun b inner => same b (Or.inr (List.mem_of_mem_erase inner))
      rw [usedK, map_region_congr (fun b inner => (onUsed b inner).1)
        (fun b inner => (onUsed b inner).2), ← starts]
      exact sound.live_erase member
  have bound := linkedK.length_le soundK.accounted .free
  rw [freeK] at bound
  obtain ⟨m, U, merged, soundM, ⟨rest, freeM, sub⟩, start, sameM, done⟩ := soundK.mergeFuel freeK bound
  have notN : n ∉ rest := (List.nodup_cons.mp (freeM ▸ (soundM.linked.ring .free).nodup)).1
  refine ⟨m, U, ?_, soundM, n, rest, freeM, (start.trans atN.1).trans starts, done, fun b inner => ?_⟩
  · have endSame : (g.setMapping n p).blockEnd a = f.blockEnd a := by simp [taken.blockEnd]
    simp only [ControlFile.deallocate, findAllocatedBlock, search, take, bind, Except.bind, endSame,
      freeBlockHead, headIs, retired, mergeControlBlock, merged]
  · have first := sameM b fun isN => notN (isN ▸ inner)
    have second := same b (Or.inl (sub inner))
    exact ⟨sub inner, first.1.trans second.1, first.2.trans second.2⟩

end MiyaCore.ControlFile
