import MiyaCore.Chain.Acceptance

namespace MiyaCore.Chain

variable {PKey : Type} {c : Crypto PKey}

/-- The setter `BlockHeader::nBits`. -/
def BlockHeader.setNBits (h : BlockHeader) (target : UInt32) : BlockHeader := { h with nBits := target }

/-- The setter `BlockHeader::nonce`. -/
def BlockHeader.setNonce (h : BlockHeader) (target : UInt32) : BlockHeader := { h with nonce := target }

/-- Copying bytes over those at an offset. -/
def overwrite (raw : List UInt8) (offset : Nat) (bytes : List UInt8) : List UInt8 :=
  raw.take offset ++ bytes ++ raw.drop (offset + bytes.length)

/-- The loop of `simpleMining`. The candidate is a `uint32_t`; its bytes lie in the exported header. -/
def miningLoop (c : Crypto PKey) (mask : List UInt8) (nonceOffset : Nat) :
    Nat → List UInt8 → UInt32 → Option UInt32
  | 0, _, _ => none
  | fuel + 1, rawBlockHeader, candidateNonce =>
    if mbitcmp mask (c.sha256 rawBlockHeader) then some candidateNonce
    else
      let candidateNonce := candidateNonce + 1
      miningLoop c mask nonceOffset fuel
        (overwrite rawBlockHeader nonceOffset (Bytes.le 4 candidateNonce.toNat)) candidateNonce

/-- `simpleMining`: the nonce, and the header, which keeps the `nBits` it was given. -/
def simpleMining (c : Crypto PKey) (fuel : Nat) (nBits : UInt32) (blockHeader : BlockHeader) :
    Option (UInt32 × BlockHeader) := do
  let blockHeader := blockHeader.setNBits nBits
  let rawBlockHeader := blockHeader.exportRaw
  let nBitsMask ← generatenBitMask nBits
  let nonceOffset := (rawBlockHeader.length - 4) % 2 ^ 16
  let nonce ← miningLoop c nBitsMask nonceOffset fuel (overwrite rawBlockHeader nonceOffset (Bytes.le 4 0)) 0
  return (nonce, blockHeader)

/-- The first byte of `nBits`. -/
def exponent (nBits : UInt32) : Nat := nBits.toNat / 256 ^ 3

/-- The number that `nBits` writes as a coefficient and a power of 256. -/
def wholeTarget (nBits : UInt32) : Nat :=
  let coefficient := nBits.toNat % 256 ^ 3
  if 3 ≤ exponent nBits then coefficient * 256 ^ (exponent nBits - 3)
  else coefficient / 256 ^ (3 - exponent nBits)

/-- A hash that meets the target, which must itself be a number of 256 bits. -/
def Meets (nBits : UInt32) (hash : List UInt8) : Prop :=
  wholeTarget nBits < 2 ^ 256 ∧ Bytes.ofBe hash ≤ wholeTarget nBits

/-- What the check of the target is for: the mask is written inside its bytes, and comparing with it
is comparing with the target. -/
structure ChecksTarget (nBits : UInt32) : Prop where
  inside : (generatenBitMask nBits).isSome
  compares : ∀ mask, generatenBitMask nBits = some mask → ∀ hash : List.Vector UInt8 32,
    mbitcmp mask hash.toList = true ↔ Meets nBits hash.toList
  verifies : ∀ (PKey : Type) (c : Crypto PKey) (h : BlockHeader), h.nBits = nBits →
    (h.verify c = some true ↔ Meets nBits (h.headerHash c))

theorem generatenBitMask_isSome_iff (nBits : UInt32) :
    (generatenBitMask nBits).isSome ↔ 3 ≤ exponent nBits ∧ exponent nBits ≤ 32 := by
  have small := nBits.toNat_lt
  have byte : (UInt8.ofNat (nBits.toNat / 256 ^ 3)).toNat = exponent nBits := by
    rw [UInt8.toNat_ofNat', exponent]
    omega
  have bound : exponent nBits < 256 := by
    rw [exponent]
    omega
  simp only [generatenBitMask, byte]
  split_ifs with inside
  · simp only [Option.isSome_some, true_iff]
    omega
  · simp only [Option.isSome_none, Bool.false_eq_true, false_iff]
    omega

theorem wholeTarget_eq {nBits : UInt32} (low : 3 ≤ exponent nBits) : wholeTarget nBits = target nBits := by
  simp only [wholeTarget, if_pos low]
  rfl

/-- The target is checked just for exponents from 3 to 32; for any other one the mask is written
outside its bytes. -/
theorem checksTarget_iff (nBits : UInt32) : ChecksTarget nBits ↔ 3 ≤ exponent nBits ∧ exponent nBits ≤ 32 := by
  rw [← generatenBitMask_isSome_iff]
  refine ⟨fun checks => checks.inside, fun inside => ?_⟩
  obtain ⟨low, -⟩ := (generatenBitMask_isSome_iff nBits).mp inside
  obtain ⟨mask, made⟩ := Option.isSome_iff_exists.mp inside
  obtain ⟨length, value⟩ := generatenBitMask_eq made
  have fits : wholeTarget nBits < 2 ^ 256 := by
    rw [wholeTarget_eq low, ← value]
    have below := Bytes.ofBe_lt mask
    rw [length] at below
    omega
  refine ⟨inside, fun mask' made' hash => ?_, fun PKey c h same => ?_⟩
  · obtain rfl : mask = mask' := Option.some.inj (made.symm.trans made')
    rw [mbitcmp_iff (by rw [length, hash.toList_length]), value, Meets, wholeTarget_eq low]
    rw [wholeTarget_eq low] at fits
    exact ⟨fun meets => ⟨fits, meets⟩, fun meets => meets.2⟩
  · rw [BlockHeader.verify_iff, same, Meets, wholeTarget_eq low]
    rw [wholeTarget_eq low] at fits
    exact ⟨fun accepted => ⟨fits, accepted.2⟩, fun meets => ⟨inside, meets.2⟩⟩

/-- An exponent of 33 with a coefficient of one is a target below `2 ^ 256`, met by the hash zero. -/
theorem checksTarget_fails : ¬ChecksTarget 0x21000001 ∧ Meets 0x21000001 (List.replicate 32 0) := by
  refine ⟨fun checks => absurd checks.inside (by decide), ?_⟩
  rw [Meets]
  decide +kernel

/-- The bytes of the nonce are the last four of the header. -/
theorem overwrite_exportRaw (h : BlockHeader) (nonce : UInt32) :
    overwrite h.exportRaw 76 (Bytes.le 4 nonce.toNat) = (h.setNonce nonce).exportRaw := by
  have front : ∀ n : UInt32, (h.setNonce n).exportRaw =
      (Bytes.le 4 h.version.toNat ++ h.previousBlockHeaderHash.toList ++ h.merkleRoot.toList ++
        Bytes.le 4 h.time.toNat ++ Bytes.le 4 h.nBits.toNat) ++ Bytes.le 4 n.toNat := fun n => rfl
  have here : h.exportRaw = _ := front h.nonce
  have cut : (Bytes.le 4 h.version.toNat ++ h.previousBlockHeaderHash.toList ++ h.merkleRoot.toList ++
      Bytes.le 4 h.time.toNat ++ Bytes.le 4 h.nBits.toNat).length = 76 := by simp
  rw [front nonce, overwrite, here, Bytes.length_le, List.take_left' cut, List.drop_eq_nil_of_le
    (by simp), List.append_nil]

/-- Trying the words one after the other. -/
def search (passes : UInt32 → Bool) : Nat → UInt32 → Option UInt32
  | 0, _ => none
  | fuel + 1, candidate => if passes candidate then some candidate else search passes fuel (candidate + 1)

theorem miningLoop_eq {h : BlockHeader} {mask : List UInt8} (fuel : Nat) (candidate : UInt32) :
    miningLoop c mask 76 fuel (h.setNonce candidate).exportRaw candidate =
      search (fun nonce => mbitcmp mask ((h.setNonce nonce).headerHash c)) fuel candidate := by
  induction fuel generalizing candidate with
  | zero => rfl
  | succ fuel ih =>
    have next : overwrite (h.setNonce candidate).exportRaw 76 (Bytes.le 4 (candidate + 1).toNat) =
        (h.setNonce (candidate + 1)).exportRaw := overwrite_exportRaw _ _
    rw [miningLoop, search]
    simp only [next, ih]
    rfl

/-- The search stops at the first word that passes. -/
theorem search_iff {passes : UInt32 → Bool} {fuel : Nat} {candidate word : UInt32} :
    search passes fuel candidate = some word ↔
      ∃ steps < fuel, word = candidate + UInt32.ofNat steps ∧ passes word = true ∧
        ∀ before < steps, passes (candidate + UInt32.ofNat before) = false := by
  have start : candidate + UInt32.ofNat 0 = candidate := UInt32.add_zero candidate
  induction fuel generalizing candidate with
  | zero => simp [search]
  | succ fuel ih =>
    have shift : ∀ steps, candidate + 1 + UInt32.ofNat steps = candidate + UInt32.ofNat (steps + 1) := by
      intro steps
      rw [UInt32.add_assoc, UInt32.ofNat_add, UInt32.add_comm 1]
      rfl
    rw [search]
    cases found : passes candidate with
    | true =>
      simp only [if_true, Option.some.injEq]
      constructor
      · rintro rfl
        exact ⟨0, Nat.succ_pos _, start.symm, found, fun before below => absurd below (Nat.not_lt_zero _)⟩
      · rintro ⟨steps, -, rfl, -, failed⟩
        obtain _ | steps := steps
        · exact start.symm
        · have first := failed 0 (Nat.succ_pos _)
          rw [start, found] at first
          exact absurd first (by decide)
    | false =>
      simp only [Bool.false_eq_true, if_false, ih (UInt32.add_zero _), shift]
      constructor
      · rintro ⟨steps, below, rfl, passed, failed⟩
        refine ⟨steps + 1, by omega, rfl, passed, fun before lower => ?_⟩
        obtain _ | before := before
        · rw [start, found]
        · exact failed before (by omega)
      · rintro ⟨steps, below, rfl, passed, failed⟩
        obtain _ | steps := steps
        · rw [start, found] at passed
          exact absurd passed Bool.false_ne_true
        · exact ⟨steps, by omega, rfl, passed, fun before lower => failed (before + 1) (by omega)⟩

/-- From zero on, the search finds the least word that passes: once around, it has tried them all. -/
theorem search_zero_iff {passes : UInt32 → Bool} {word : UInt32} :
    (∃ fuel, search passes fuel 0 = some word) ↔ passes word = true ∧ ∀ before < word,
      passes before = false := by
  simp only [search_iff, UInt32.zero_add]
  constructor
  · rintro ⟨fuel, steps, -, rfl, passed, failed⟩
    refine ⟨passed, fun before below => ?_⟩
    have least : steps < 2 ^ 32 := by
      by_contra around
      have again := failed (steps - 2 ^ 32) (by omega)
      have same : UInt32.ofNat (steps - 2 ^ 32) = UInt32.ofNat steps := by
        apply UInt32.toNat_inj.mp
        simp only [UInt32.toNat_ofNat']
        omega
      rw [same, passed] at again
      exact absurd again (by decide)
    rw [UInt32.lt_iff_toNat_lt, UInt32.toNat_ofNat', Nat.mod_eq_of_lt least] at below
    simpa using failed before.toNat below
  · rintro ⟨passed, failed⟩
    refine ⟨word.toNat + 1, word.toNat, Nat.lt_succ_self _, UInt32.ofNat_toNat.symm, passed,
      fun before below => failed _ ?_⟩
    rw [UInt32.lt_iff_toNat_lt, UInt32.toNat_ofNat', Nat.mod_eq_of_lt (below.trans word.toNat_lt)]
    exact below

/-- Mining comes back with a nonce when it is the first one with which the header verifies, and with
no other. -/
theorem simpleMining_iff (c : Crypto PKey) (nBits : UInt32) (blockHeader : BlockHeader) (nonce : UInt32) :
    (∃ fuel, simpleMining c fuel nBits blockHeader = some (nonce, blockHeader.setNBits nBits)) ↔
      ((blockHeader.setNBits nBits).setNonce nonce).verify c = some true ∧
        ∀ before < nonce, ((blockHeader.setNBits nBits).setNonce before).verify c = some false := by
  have verdict : ∀ n, ((blockHeader.setNBits nBits).setNonce n).verify c =
      (generatenBitMask nBits).map fun mask => mbitcmp mask
      (((blockHeader.setNBits nBits).setNonce n).headerHash c) := by
    intro n
    have same : ((blockHeader.setNBits nBits).setNonce n).nBits = nBits := rfl
    rw [BlockHeader.verify, same]
    exact Option.map_eq_bind.symm
  simp only [verdict]
  cases made : generatenBitMask nBits with
  | none => simp [simpleMining, made]
  | some mask =>
    let passes (n : UInt32) : Bool := mbitcmp mask (((blockHeader.setNBits nBits).setNonce n).headerHash c)
    have least : (∃ fuel, search passes fuel 0 = some nonce) ↔ passes nonce = true ∧ ∀ before < nonce,
      passes before = false :=
      search_zero_iff
    have patched := overwrite_exportRaw (blockHeader.setNBits nBits) 0
    have mined : ∀ fuel, simpleMining c fuel nBits blockHeader =
        (search (fun n => mbitcmp mask (((blockHeader.setNBits nBits).setNonce n).headerHash c)) fuel 0).map
          fun n => (n, blockHeader.setNBits nBits) := by
      intro fuel
      rw [← miningLoop_eq, ← patched]
      simp only [simpleMining, made, BlockHeader.length_exportRaw, Option.bind_eq_bind, Option.bind_some]
      exact Option.map_eq_bind.symm
    simp only [Option.map_some, Option.some.injEq, mined, Option.map_eq_some_iff, Prod.mk.injEq,
      and_true, exists_eq_right]
    exact least

end MiyaCore.Chain
