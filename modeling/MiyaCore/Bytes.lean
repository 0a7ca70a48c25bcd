import Mathlib.Data.Nat.Digits.Lemmas

namespace MiyaCore.Bytes

/-- The number that bytes spell, lowest byte first. -/
def ofLe (l : List UInt8) : Nat := Nat.ofDigits 256 (l.map UInt8.toNat)

/-- The number that bytes spell, highest byte first. -/
def ofBe (l : List UInt8) : Nat := ofLe l.reverse

/-- The low `w` bytes of a number, lowest byte first. -/
def le : Nat → Nat → List UInt8
  | 0, _ => []
  | w + 1, n => UInt8.ofNat n :: le w (n / 256)

/-- The low `w` bytes of a number, highest byte first. -/
def be (w n : Nat) : List UInt8 := (le w n).reverse

@[simp] theorem length_le (w n : Nat) : (le w n).length = w := by
  induction w generalizing n with
  | zero => rfl
  | succ w ih => simp [le, ih]

@[simp] theorem length_be (w n : Nat) : (be w n).length = w := by simp [be]

theorem ofLe_cons (a : UInt8) (l : List UInt8) : ofLe (a :: l) = a.toNat + 256 * ofLe l := by
  simp [ofLe, Nat.ofDigits_cons]

theorem ofLe_append (l r : List UInt8) : ofLe (l ++ r) = ofLe l + 256 ^ l.length * ofLe r := by
  simp [ofLe, Nat.ofDigits_append]

@[simp] theorem ofLe_le (w n : Nat) : ofLe (le w n) = n % 256 ^ w := by
  induction w generalizing n with
  | zero => simp [le, ofLe, Nat.mod_one]
  | succ w ih =>
    rw [le, ofLe_cons, ih, pow_succ', Nat.mod_mul]
    simp

@[simp] theorem ofBe_be (w n : Nat) : ofBe (be w n) = n % 256 ^ w := by simp [ofBe, be]

theorem ofLe_lt (l : List UInt8) : ofLe l < 256 ^ l.length := by
  have digits : ∀ d ∈ l.map UInt8.toNat, d < 256 := by
    intro d member
    obtain ⟨a, -, rfl⟩ := List.mem_map.mp member
    exact a.toNat_lt
  simpa [ofLe] using Nat.ofDigits_lt_base_pow_length (by norm_num) digits

@[simp] theorem le_ofLe (l : List UInt8) : le l.length (ofLe l) = l := by
  induction l with
  | nil => rfl
  | cons a l ih =>
    have low := a.toNat_lt
    have head : UInt8.ofNat (a.toNat + 256 * ofLe l) = a := by
      rw [← UInt8.toNat_inj, UInt8.toNat_ofNat']
      omega
    have tail : (a.toNat + 256 * ofLe l) / 256 = ofLe l := by omega
    rw [List.length_cons, ofLe_cons, le, head, tail, ih]

@[simp] theorem be_ofBe (l : List UInt8) : be l.length (ofBe l) = l := by
  have reversed := le_ofLe l.reverse
  rw [List.length_reverse] at reversed
  rw [be, ofBe, reversed, List.reverse_reverse]

theorem ofBe_cons (a : UInt8) (l : List UInt8) : ofBe (a :: l) = 256 ^ l.length * a.toNat + ofBe l := by
  rw [ofBe, List.reverse_cons, ofLe_append, ofLe_cons, ofBe]
  simp [ofLe, add_comm]

theorem ofBe_lt (l : List UInt8) : ofBe l < 256 ^ l.length := by simpa [ofBe] using ofLe_lt l.reverse

theorem ofBe_append (l r : List UInt8) : ofBe (l ++ r) = 256 ^ r.length * ofBe l + ofBe r := by
  simp [ofBe, ofLe_append, add_comm]

@[simp] theorem ofLe_replicate_zero (n : Nat) : ofLe (List.replicate n 0) = 0 := by
  induction n with
  | zero => rfl
  | succ n ih => simp [List.replicate_succ, ofLe_cons, ih]

@[simp] theorem ofBe_replicate_zero (n : Nat) : ofBe (List.replicate n 0) = 0 := by simp [ofBe]

/-- The bytes that spell a number are its bytes. -/
theorem be_of_spells {w n : Nat} {l : List UInt8} (length : l.length = w) (spells : ofBe l = n) : be w n = l := by
  rw [← length, ← spells, be_ofBe]

theorem be_zero (w : Nat) : be w 0 = List.replicate w 0 :=
  be_of_spells List.length_replicate (ofBe_replicate_zero w)

/-- Bytes spell a number as far as they go. -/
theorem be_mod (w n : Nat) : be w (n % 256 ^ w) = be w n :=
  be_of_spells (length_be w n) (ofBe_be w n)

/-- The bytes of a number in two parts. -/
theorem be_add (a b n : Nat) : be (a + b) n = be a (n / 256 ^ b) ++ be b n := by
  rw [← be_mod (a + b) n]
  refine be_of_spells (by simp) ?_
  rw [ofBe_append, ofBe_be, ofBe_be, length_be, pow_add, mul_comm (256 ^ a), Nat.mod_mul, Nat.add_comm]

/-- The first byte decides, then the rest. -/
theorem ofBe_cons_le_iff {a b : UInt8} {l r : List UInt8} (length : l.length = r.length) :
    ofBe (a :: l) ≤ ofBe (b :: r) ↔ a < b ∨ a = b ∧ ofBe l ≤ ofBe r := by
  have lowL := ofBe_lt l
  have lowR := ofBe_lt r
  rw [ofBe_cons, ofBe_cons, ← length]
  rw [← length] at lowR
  rcases lt_trichotomy a.toNat b.toNat with below | same | above
  · have step : 256 ^ l.length * (a.toNat + 1) ≤ 256 ^ l.length * b.toNat := Nat.mul_le_mul_left _ below
    have first : a < b := UInt8.lt_iff_toNat_lt.mpr below
    simp only [first, true_or, iff_true]
    rw [mul_add] at step
    omega
  · obtain rfl := UInt8.toNat_inj.mp same
    simp
  · have step : 256 ^ l.length * (b.toNat + 1) ≤ 256 ^ l.length * a.toNat := Nat.mul_le_mul_left _ above
    have notLt : ¬a < b := by rw [UInt8.lt_iff_toNat_lt]; omega
    have notEq : a ≠ b := by rintro rfl; omega
    simp only [notLt, notEq, false_and, or_false, iff_false]
    rw [mul_add] at step
    omega

/-- Reading a field of `n` bytes at the front; there is nothing to read past the end. -/
def take? (n : Nat) (l : List UInt8) : Option (List UInt8) := if n ≤ l.length then some (l.take n) else none

@[simp] theorem ofNat_ofLe_le (n : UInt32) : UInt32.ofNat (ofLe (le 4 n.toNat)) = n := by
  rw [ofLe_le, Nat.mod_eq_of_lt (by simpa using n.toNat_lt), UInt32.ofNat_toNat]

@[simp] theorem ofNat_ofLe_le8 (n : UInt64) : UInt64.ofNat (ofLe (le 8 n.toNat)) = n := by
  rw [ofLe_le, Nat.mod_eq_of_lt (by simpa using n.toNat_lt), UInt64.ofNat_toNat]

@[simp] theorem ofNat_ofBe_be (n : UInt32) : UInt32.ofNat (ofBe (be 4 n.toNat)) = n := by
  rw [ofBe_be, Nat.mod_eq_of_lt (by simpa using n.toNat_lt), UInt32.ofNat_toNat]

@[simp] theorem ofNat_ofBe_be8 (n : UInt64) : UInt64.ofNat (ofBe (be 8 n.toNat)) = n := by
  rw [ofBe_be, Nat.mod_eq_of_lt (by simpa using n.toNat_lt), UInt64.ofNat_toNat]

theorem take?_append {n : Nat} {field : List UInt8} (length : field.length = n) (rest : List UInt8) :
    take? n (field ++ rest) = some field := by
  subst length
  simp [take?]

end MiyaCore.Bytes
