import MiyaCore.Chain.PoolSet

/-!
# Runs of the transaction pool

The pool against a set keyed by the whole transaction ID.
-/

namespace MiyaCore.Chain

variable {T : Type} [DecidableEq T]

/-- `TransactionPool`, with the links of all control blocks. -/
structure TransactionPool (T : Type) where
  links : TxCBLinks T := ⟨fun _ => none, fun _ => none⟩
  rootTable : TxCBContainer T := .new 0

inductive PoolCall (T : Type) where
  | add (target : T)
  | find (target : T)
  | remove (target : T)

def PoolCall.target : PoolCall T → T
  | .add target | .find target | .remove target => target

/-- What the call wants to remove. -/
def PoolCall.removal : PoolCall T → Option T
  | .remove target => some target
  | _ => none

inductive PoolAnswer (T : Type) where
  | added (status : Int)
  | found (result : Option T)
  | removed
deriving DecidableEq

variable (txID : T → List.Vector UInt8 32)

namespace TransactionPool

def call (fuel : Nat) (p : TransactionPool T) : PoolCall T → Option (PoolAnswer T × TransactionPool T)
  | .add target => do
    let (status, links, rootTable) ← p.rootTable.add txID fuel 0 p.links target
    return (.added status, { links, rootTable })
  | .find target => do
    let result ← p.rootTable.find txID fuel p.links target
    return (.found result, p)
  | .remove target => do
    let (links, rootTable) ← p.rootTable.remove txID fuel p.links target
    return (.removed, { links, rootTable })

def run (fuel : Nat) : TransactionPool T → List (PoolCall T) → Option (List (PoolAnswer T) × TransactionPool T)
  | p, [] => some ([], p)
  | p, c :: calls => do
    let (answer, p) ← p.call txID fuel c
    let (answers, p) ← run fuel p calls
    return (answer :: answers, p)

end TransactionPool

/-- What a set keyed by the transaction ID answers. -/
def setCall (S : List T) : PoolCall T → PoolAnswer T × List T
  | .add target => if ∃ y ∈ S, txID y = txID target then (.added (-1), S) else (.added 0, target :: S)
  | .find target => (.found (S.find? fun y => txID y = txID target), S)
  | .remove target => (.removed, S.filter fun y => txID y ≠ txID target)

def setRun : List T → List (PoolCall T) → List (PoolAnswer T) × List T
  | S, [] => ([], S)
  | S, c :: calls =>
    let (answer, S) := setCall txID S c
    let (answers, S) := setRun S calls
    (answer :: answers, S)

/-- The calls on an empty pool get the answers of the set, and the pool counts the set's members. -/
def KeyedSet (fuel : Nat) (calls : List (PoolCall T)) : Prop :=
  ∃ answers p, TransactionPool.run txID fuel {} calls = some (answers, p) ∧
    answers = (setRun txID [] calls).1 ∧ p.rootTable.txCount = (setRun txID [] calls).2.length

/-- No stored ID agrees with the ID of the call in the compared bytes alone, and a removal does not
find its target at the head of others. -/
def Apart (p : TransactionPool T) (S : List T) (c : PoolCall T) : Prop :=
  (∀ y ∈ S, comparedBytes (txID y) = comparedBytes (txID c.target) → txID y = txID c.target) ∧
    ∀ target ∈ c.removal, ¬ p.rootTable.HeadOfOthers txID p.links target

/-- Every call of the run is `Apart` in the state before it. -/
def ApartRun (fuel : Nat) : TransactionPool T → List T → List (PoolCall T) → Prop
  | _, _, [] => True
  | p, S, c :: calls =>
    Apart txID p S c ∧
      match p.call txID fuel c with
      | none => True
      | some (_, p') => ApartRun fuel p' (setCall txID S c).2 calls

/-- No removal of the run hits a stored transaction. -/
def MissRun : List T → List (PoolCall T) → Prop
  | _, [] => True
  | S, c :: calls =>
    (∀ target ∈ c.removal, ∀ y ∈ S, txID y ≠ txID target) ∧ MissRun (setCall txID S c).2 calls

/-- The pool holds the transactions of `S`. -/
structure TransactionPool.Stores (counts : Prop) (p : TransactionPool T) (S : List T) : Prop where
  holds : p.rootTable.Holds txID counts p.links 0 S.toFinset
  keyed : Keyed txID S.toFinset
  nodup : S.Nodup

variable {txID} {counts : Prop}

theorem stores_empty (counts : Prop) : TransactionPool.Stores txID counts ({} : TransactionPool T) [] where
  holds := holds_new (by decide)
  keyed := fun y member => absurd member (Finset.notMem_empty y)
  nodup := List.nodup_nil

/-- Among IDs told apart by the compared bytes, a search by these is a search by the ID. -/
theorem find?_of_finds {S : List T} {x : T} {r : Option T} (keyed : Keyed txID S.toFinset)
    (apart : ∀ y ∈ S, comparedBytes (txID y) = comparedBytes (txID x) → txID y = txID x)
    (found : Finds txID S.toFinset x r) : S.find? (fun y => txID y = txID x) = r := by
  cases r with
  | none =>
    refine List.find?_eq_none.mpr fun y member same => ?_
    exact found y (List.mem_toFinset.mpr member) (by rw [of_decide_eq_true same])
  | some y =>
    have member : y ∈ S := List.mem_toFinset.mp found.1
    obtain ⟨z, atZ⟩ : ∃ z, S.find? (fun y => txID y = txID x) = some z :=
      Option.isSome_iff_exists.mp (List.find?_isSome.mpr ⟨y, member, decide_eq_true (apart y member found.2)⟩)
    have same : txID z = txID x := by simpa using List.find?_some atZ
    have inZ : z ∈ S.toFinset := List.mem_toFinset.mpr (List.mem_of_find?_eq_some atZ)
    rw [atZ, keyed z inZ y found.1 (by rw [same, found.2])]

theorem TransactionPool.Stores.add {p : TransactionPool T} {S : List T} {x : T} {fuel : Nat}
    (stores : p.Stores txID counts S)
    (apart : ∀ y ∈ S, comparedBytes (txID y) = comparedBytes (txID x) → txID y = txID x) (enough : 90 ≤ fuel) :
    ∃ p', p.call txID fuel (.add x) = some ((setCall txID S (.add x)).1, p') ∧
      p'.Stores txID counts (setCall txID S (.add x)).2 := by
  have steps : p.rootTable.steps 0 ≤ fuel := by
    cases p.rootTable <;> simp only [TxCBContainer.steps] <;> omega
  by_cases present : ∃ y ∈ S, txID y = txID x
  · have stays : setCall txID S (.add x) = (.added (-1), S) := if_pos present
    obtain ⟨y, member, same⟩ := present
    have run : p.rootTable.add txID fuel 0 p.links x = some (-1, p.links, p.rootTable) :=
      TxCBContainer.add_present stores.holds ⟨y, List.mem_toFinset.mpr member, by rw [same]⟩ steps
    rw [stays]
    exact ⟨p, by simp [call, run], stores⟩
  · have grows : setCall txID S (.add x) = (.added 0, x :: S) := if_neg present
    have absent : ∀ y ∈ S.toFinset, comparedBytes (txID y) ≠ comparedBytes (txID x) := fun y member same =>
      present ⟨y, List.mem_toFinset.mp member, apart y (List.mem_toFinset.mp member) same⟩
    obtain ⟨h', c', run, holds', -, -⟩ := TxCBContainer.add_absent stores.holds stores.keyed
      (fun _ _ _ _ layer below => absurd below (Nat.not_lt_zero layer)) absent steps
    have run' : p.rootTable.add txID fuel 0 p.links x = some (0, h', c') := run
    rw [grows]
    refine ⟨⟨h', c'⟩, by simp [call, run'], ?_, ?_, ?_⟩
    · rw [List.toFinset_cons]
      exact holds'
    · rw [List.toFinset_cons]
      exact stores.keyed.insert absent
    · exact List.nodup_cons.mpr ⟨fun member => present ⟨x, member, rfl⟩, stores.nodup⟩

theorem TransactionPool.Stores.find {p : TransactionPool T} {S : List T} {x : T} {fuel : Nat}
    (stores : p.Stores txID counts S)
    (apart : ∀ y ∈ S, comparedBytes (txID y) = comparedBytes (txID x) → txID y = txID x) (enough : 90 ≤ fuel) :
    p.call txID fuel (.find x) = some ((setCall txID S (.find x)).1, p) := by
  obtain ⟨r, run, found⟩ := TxCBContainer.find_run stores.holds x (show 2 ≤ fuel by omega)
  simp only [call, run, setCall, find?_of_finds stores.keyed apart found, Option.bind_eq_bind, Option.bind_some,
    Option.pure_def]

theorem TransactionPool.Stores.remove {p : TransactionPool T} {S : List T} {x : T} {fuel : Nat}
    (stores : p.Stores txID counts S)
    (apart : ∀ y ∈ S, comparedBytes (txID y) = comparedBytes (txID x) → txID y = txID x)
    (kept : ¬ p.rootTable.HeadOfOthers txID p.links x) (misses : counts → ∀ y ∈ S, txID y ≠ txID x)
    (enough : 90 ≤ fuel) :
    ∃ p', p.call txID fuel (.remove x) = some (.removed, p') ∧
      p'.Stores txID counts (S.filter fun y => txID y ≠ txID x) := by
  obtain ⟨h', c', run, holds', -⟩ := TxCBContainer.remove_run stores.holds stores.keyed kept
    (show 2 ≤ fuel by omega)
  have members : (S.filter fun y => txID y ≠ txID x).toFinset = others txID S.toFinset x := by
    ext y
    simp only [others, List.mem_toFinset, List.mem_filter, Finset.mem_filter, decide_eq_true_eq]
    refine and_congr_right fun member => not_congr ⟨fun same => by rw [same], apart y member⟩
  refine ⟨⟨h', c'⟩, by simp [call, run], ?_, ?_, stores.nodup.filter _⟩
  · rw [members]
    refine holds'.weaken fun right => ⟨right, fun y member same => ?_⟩
    exact misses right y (List.mem_toFinset.mp member) (apart y (List.mem_toFinset.mp member) same)
  · rw [members]
    exact stores.keyed.mono (Finset.filter_subset ..)

/-- One call of the pool is one call of the set. -/
theorem TransactionPool.Stores.call {p : TransactionPool T} {S : List T} {c : PoolCall T} {fuel : Nat}
    (stores : p.Stores txID counts S) (apart : Apart txID p S c)
    (misses : counts → ∀ target ∈ c.removal, ∀ y ∈ S, txID y ≠ txID target) (enough : 90 ≤ fuel) :
    ∃ p', p.call txID fuel c = some ((setCall txID S c).1, p') ∧
      p'.Stores txID counts (setCall txID S c).2 := by
  cases c with
  | add x => exact stores.add apart.1 enough
  | find x => exact ⟨p, stores.find apart.1 enough, stores⟩
  | remove x => exact stores.remove apart.1 (apart.2 x rfl) (fun right => misses right x rfl) enough

theorem TransactionPool.Stores.run {p : TransactionPool T} {S : List T} {calls : List (PoolCall T)} {fuel : Nat}
    (stores : p.Stores txID counts S) (apart : ApartRun txID fuel p S calls)
    (misses : counts → MissRun txID S calls) (enough : 90 ≤ fuel) :
    ∃ p', TransactionPool.run txID fuel p calls = some ((setRun txID S calls).1, p') ∧
      p'.Stores txID counts (setRun txID S calls).2 := by
  induction calls generalizing p S with
  | nil => exact ⟨p, rfl, stores⟩
  | cons c calls ih =>
    obtain ⟨p₁, first, stores₁⟩ := stores.call apart.1 (fun right => (misses right).1) enough
    have later := apart.2
    simp only [first] at later
    obtain ⟨p₂, rest, stores₂⟩ := ih stores₁ later fun right => (misses right).2
    exact ⟨p₂, by simp [TransactionPool.run, first, rest, setRun], stores₂⟩

/-- In a run whose calls are `Apart` the pool answers as the set does; it also counts the stored
transactions when no removal has hit one. -/
theorem answers_of_apartRun (fuel : Nat) (calls : List (PoolCall T)) (enough : 90 ≤ fuel)
    (apart : ApartRun txID fuel {} [] calls) :
    (∃ p, TransactionPool.run txID fuel {} calls = some ((setRun txID [] calls).1, p)) ∧
      (MissRun txID [] calls → KeyedSet txID fuel calls) := by
  constructor
  · obtain ⟨p, run, -⟩ := TransactionPool.Stores.run (stores_empty False) apart False.elim enough
    exact ⟨p, run⟩
  · intro misses
    obtain ⟨p, run, stores⟩ := TransactionPool.Stores.run (stores_empty True) apart (fun _ => misses) enough
    refine ⟨_, p, run, rfl, ?_⟩
    rw [stores.holds.txCount_eq, List.toFinset_card_of_nodup stores.nodup]

instance decidableHeadOfOthers (h : TxCBLinks T) (c : TxCBContainer T) (target : T) :
    Decidable (c.HeadOfOthers txID h target) :=
  inferInstanceAs (Decidable (∃ b ∈ c.reached txID target, ∃ head ∈ b.txcbHead,
    comparedBytes (txID head) = comparedBytes (txID target) ∧ h.next head ≠ some head))

instance decidableApart (p : TransactionPool T) (S : List T) (c : PoolCall T) : Decidable (Apart txID p S c) :=
  inferInstanceAs (Decidable
    ((∀ y ∈ S, comparedBytes (txID y) = comparedBytes (txID c.target) → txID y = txID c.target) ∧
      ∀ target ∈ c.removal, ¬ p.rootTable.HeadOfOthers txID p.links target))

instance decidableApartRun (fuel : Nat) : ∀ (p : TransactionPool T) (S : List T) (calls : List (PoolCall T)),
    Decidable (ApartRun txID fuel p S calls)
  | _, _, [] => isTrue trivial
  | p, S, c :: calls => by
    unfold ApartRun
    cases p.call txID fuel c with
    | none => infer_instance
    | some result =>
      have := decidableApartRun fuel result.2 (setCall txID S c).2 calls
      infer_instance

instance decidableMissRun : ∀ (S : List T) (calls : List (PoolCall T)), Decidable (MissRun txID S calls)
  | _, [] => isTrue trivial
  | S, c :: calls =>
    have := decidableMissRun (setCall txID S c).2 calls
    inferInstanceAs (Decidable ((∀ target ∈ c.removal, ∀ y ∈ S, txID y ≠ txID target) ∧
      MissRun txID (setCall txID S c).2 calls))

/-- IDs that differ in their second byte alone. -/
def sampleID (n : Nat) : List.Vector UInt8 32 := List.Vector.ofFn fun i => if i = 1 then UInt8.ofNat n else 0

/-- A run that scales a bucket up, and one more without a removal. -/
theorem answers_of_apartRun_scaled :
    (∃ p, TransactionPool.run sampleID 90 {} [.add 0, .add 1, .add 16, .add 1, .remove 1, .find 1, .find 16] =
      some ([.added 0, .added 0, .added 0, .added (-1), .removed, .found none, .found (some 16)], p)) ∧
      KeyedSet sampleID 90 [.add 0, .add 1, .add 16, .find 1] := by
  have answers : (setRun sampleID [] [.add 0, .add 1, .add 16, .add 1, .remove 1, .find 1, .find 16]).1 =
      [.added 0, .added 0, .added 0, .added (-1), .removed, .found none, .found (some 16)] := by decide +kernel
  rw [← answers]
  exact ⟨(answers_of_apartRun 90 _ le_rfl (by decide +kernel)).1,
    (answers_of_apartRun 90 _ le_rfl (by decide +kernel)).2 (by decide +kernel)⟩

/-- Removing the head of a bucket makes its other member unfindable. -/
theorem keyedSet_fails : ¬ KeyedSet sampleID 90 [.add 0, .add 1, .remove 0, .find 1] := by
  rintro ⟨answers, p, run, same, -⟩
  have lost : (TransactionPool.run sampleID 90 {} [.add 0, .add 1, .remove 0, .find 1]).map Prod.fst =
      some [.added 0, .added 0, .removed, .found none] := by decide +kernel
  have kept : (setRun sampleID [] [.add 0, .add 1, .remove 0, .find 1]).1 =
      [.added 0, .added 0, .removed, .found (some 1)] := by decide +kernel
  rw [run, same, kept] at lost
  simp at lost

end MiyaCore.Chain
