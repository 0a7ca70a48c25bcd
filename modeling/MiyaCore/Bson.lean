import MiyaCore.Bytes

/-!
# BSON documents

The reader and the writer of a document, as far as the fields of its top level go: what is
nested is read over.
-/

namespace Bson

open MiyaCore.Bytes

/-- A value of a field. -/
inductive Value where
  | null
  | boolean (b : Bool)
  | integer (n : Int)
  | float (bits : List UInt8)
  | string (s : List UInt8)
  | binary (l : List UInt8)
  | array
  | object
deriving DecidableEq

/-- The fields of a document, in the order they are read. -/
abbrev Document := List (List UInt8 × Value)

/-- The value of a field; a field read twice has the value read last. -/
def Document.get (d : Document) (key : List UInt8) : Option Value :=
  (d.reverse.find? fun f => f.1 = key).map Prod.snd

/-- The first `n` bytes, and the rest. -/
def split? (n : Nat) (l : List UInt8) : Option (List UInt8 × List UInt8) :=
  if n ≤ l.length then some (l.take n, l.drop n) else none

/-- The number that bytes in two's complement spell, lowest byte first. -/
def signed (l : List UInt8) : Int := if 2 * ofLe l < 256 ^ l.length then ofLe l else ofLe l - 256 ^ l.length

/-- The `w` bytes of a number in two's complement. -/
def twos (w : Nat) (n : Int) : List UInt8 := le w (n % 256 ^ w).toNat

/-- The bytes in front of a zero. -/
def cstring : List UInt8 → Option (List UInt8 × List UInt8)
  | [] => none
  | b :: rest => if b = 0 then some ([], rest) else (cstring rest).map fun r => (b :: r.1, r.2)

/-- The value of an element of this type. A boolean at the end of the input is read as true. -/
def value (nested : List UInt8 → Option (List UInt8)) (type : UInt8) (l : List UInt8) :
    Option (Value × List UInt8) :=
  if type = 0x01 then (split? 8 l).map fun r => (.float r.1, r.2)
  else if type = 0x02 then
    (split? 4 l).bind fun size =>
      if signed size.1 < 1 then none
      else (split? ((signed size.1).toNat - 1) size.2).bind
        fun s => (split? 1 s.2).map fun r => (.string s.1, r.2)
  else if type = 0x03 then (split? 4 l).bind fun size => (nested size.2).map fun r => (.object, r)
  else if type = 0x04 then (split? 4 l).bind fun size => (nested size.2).map fun r => (.array, r)
  else if type = 0x05 then
    (split? 4 l).bind fun size =>
      if signed size.1 < 0 then none
      else (split? 1 size.2).bind fun subtype => (split? (signed size.1).toNat subtype.2).map
        fun r => (.binary r.1, r.2)
  else if type = 0x08 then some (.boolean (l.head? ≠ some 0), l.tail)
  else if type = 0x0a then some (.null, l)
  else if type = 0x10 then (split? 4 l).map fun r => (.integer (signed r.1), r.2)
  else if type = 0x12 then (split? 8 l).map fun r => (.integer (signed r.1), r.2)
  else none

/-- The elements in front of a zero. -/
def elements : Nat → List UInt8 → Option (Document × List UInt8)
  | 0, _ => none
  | _ + 1, [] => none
  | fuel + 1, type :: l =>
    if type = 0 then some ([], l)
    else
      (cstring l).bind fun key => (value (fun l => (elements fuel l).map Prod.snd) type key.2).bind fun v =>
        (elements fuel v.2).map fun more => ((key.1, v.1) :: more.1, more.2)

/-- The document that the whole input spells; its size is not looked at. -/
def read (raw : List UInt8) : Option Document :=
  (split? 4 raw).bind fun size => (elements raw.length size.2).bind fun r => if r.2 = [] then some r.1 else none

/-- An element; a value of a type that is not written has no bytes. -/
def element (f : List UInt8 × Value) : List UInt8 :=
  match f.2 with
  | .integer n =>
    if -2 ^ 31 ≤ n ∧ n < 2 ^ 31 then 0x10 :: f.1 ++ 0 :: twos 4 n else 0x12 :: f.1 ++ 0 :: twos 8 n
  | .binary l => 0x05 :: f.1 ++ 0 :: (twos 4 l.length ++ 0 :: l)
  | _ => []

def write (d : Document) : List UInt8 :=
  let body := d.flatMap element
  le 4 (body.length + 5) ++ body ++ [0]

/-- A field that can be written: a name without a zero, with a number of 64 bits or bytes whose length
is one of 31 bits. -/
structure Writable (f : List UInt8 × Value) : Prop where
  name : 0 ∉ f.1
  value : match f.2 with
    | .integer n => -2 ^ 63 ≤ n ∧ n < 2 ^ 63
    | .binary l => l.length < 2 ^ 31
    | _ => False

theorem split?_append (l r : List UInt8) : split? l.length (l ++ r) = some (l, r) := by simp [split?]

theorem cstring_append {name : List UInt8} (nonzero : 0 ∉ name) (rest : List UInt8) :
    cstring (name ++ 0 :: rest) = some (name, rest) := by
  induction name with
  | nil => rfl
  | cons b name ih =>
    obtain ⟨first, others⟩ := not_or.mp (mt List.mem_cons.mpr nonzero)
    simp [cstring, Ne.symm first, ih others]

theorem split?_twos (w : Nat) (n : Int) (rest : List UInt8) :
    split? w (twos w n ++ rest) = some (twos w n, rest) := by
  have whole := split?_append (twos w n) rest
  rwa [twos, length_le, ← twos] at whole

theorem signed_twos {w : Nat} {n : Int} (low : -256 ^ w ≤ 2 * n) (high : 2 * n < 256 ^ w) :
    signed (twos w n) = n := by
  have positive : (0 : Int) < 256 ^ w := by positivity
  have inside := Int.emod_nonneg n positive.ne'
  have below := Int.emod_lt_of_pos n positive
  have size : ((n % 256 ^ w).toNat : Int) = n % 256 ^ w := Int.toNat_of_nonneg inside
  have small : (n % 256 ^ w).toNat < 256 ^ w := by
    zify
    rw [size]
    exact below
  rw [signed, twos, length_le, ofLe_le, Nat.mod_eq_of_lt small]
  rcases lt_or_ge n 0 with negative | natural
  · have wraps : n % 256 ^ w = n + 256 ^ w := by
      rw [← Int.add_emod_right, Int.emod_eq_of_lt (by omega) (by omega)]
    rw [if_neg, size, wraps]
    · omega
    · zify
      rw [size, wraps]
      omega
  · have stays : n % 256 ^ w = n := Int.emod_eq_of_lt natural (by omega)
    rw [if_pos, size, stays]
    zify
    rw [size, stays]
    exact high

/-- An element is read as the field it was written for. -/
theorem elements_element {f : List UInt8 × Value} (writable : Writable f) (fuel : Nat) (rest : List UInt8) :
    elements (fuel + 1) (element f ++ rest) = (elements fuel rest).map fun more => (f :: more.1, more.2) := by
  obtain ⟨name, v⟩ := f
  have fits := writable.value
  have written : ∀ type payload, type ≠ 0 →
      (∀ nested, value nested type (payload ++ rest) = some (v, rest)) →
      element (name, v) = type :: name ++ 0 :: payload →
      elements (fuel + 1) (element (name, v) ++ rest) = (elements fuel rest).map
      fun more => ((name, v) :: more.1, more.2) := by
    intro type payload nonzero reads bytes
    have line : element (name, v) ++ rest = type :: (name ++ 0 :: (payload ++ rest)) := by simp [bytes]
    rw [line, elements, if_neg nonzero, cstring_append writable.name]
    simp [reads]
  cases v with
  | integer n =>
    by_cases short : -2 ^ 31 ≤ n ∧ n < 2 ^ 31
    · have number : signed (twos 4 n) = n := signed_twos (by omega) (by omega)
      have bytes : element (name, .integer n) = 0x10 :: name ++ 0 :: twos 4 n := if_pos short
      refine written 0x10 (twos 4 n) (by decide) (fun nested => ?_) bytes
      simp [value, split?_twos, number]
    · have number : signed (twos 8 n) = n := signed_twos (by omega) (by omega)
      have bytes : element (name, .integer n) = 0x12 :: name ++ 0 :: twos 8 n := if_neg short
      refine written 0x12 (twos 8 n) (by decide) (fun nested => ?_) bytes
      simp [value, split?_twos, number]
  | binary l =>
    have small : (l.length : Int) < 2 ^ 31 := by exact_mod_cast fits
    have number : signed (twos 4 l.length) = l.length := signed_twos (by omega) (by omega)
    refine written 0x05 (twos 4 l.length ++ 0 :: l) (by decide) (fun nested => ?_) rfl
    have subtype : split? 1 (0 :: (l ++ rest)) = some ([0], l ++ rest) := split?_append [0] (l ++ rest)
    have natural : ¬(l.length : Int) < 0 := by omega
    simp [value, split?_twos, number, subtype, split?_append, natural]
  | null | boolean b | float bits | string s | array | object => exact absurd fits id

theorem elements_document {d : Document} (writable : ∀ f ∈ d, Writable f) {fuel : Nat}
    (enough : d.length < fuel) (rest : List UInt8) :
    elements fuel (d.flatMap element ++ 0 :: rest) = some (d, rest) := by
  induction d generalizing fuel with
  | nil =>
    obtain ⟨fuel, rfl⟩ := Nat.exists_eq_add_one_of_ne_zero (Nat.ne_of_gt enough)
    rfl
  | cons f d ih =>
    obtain ⟨first, others⟩ := List.forall_mem_cons.mp writable
    obtain ⟨fuel, rfl⟩ := Nat.exists_eq_add_one_of_ne_zero (Nat.ne_of_gt (Nat.zero_lt_of_lt enough))
    have line : (f :: d).flatMap element ++ 0 :: rest = element f ++ (d.flatMap element ++ 0 :: rest) := by simp
    rw [line, elements_element first, ih others (by simpa using enough)]
    rfl

theorem length_element {f : List UInt8 × Value} (writable : Writable f) : 0 < (element f).length := by
  obtain ⟨name, v⟩ := f
  have fits := writable.value
  cases v with
  | integer n =>
    simp only [element]
    split_ifs <;> simp
  | binary l => simp [element]
  | null | boolean b | float bits | string s | array | object => exact absurd fits id

theorem length_le_body {d : Document} (writable : ∀ f ∈ d, Writable f) :
    d.length ≤ (d.flatMap element).length := by
  induction d with
  | nil => simp
  | cons f d ih =>
    obtain ⟨first, others⟩ := List.forall_mem_cons.mp writable
    have here := length_element first
    have more := ih others
    simp only [List.flatMap_cons, List.length_append, List.length_cons]
    omega

/-- What is written is read back. -/
theorem read_write {d : Document} (writable : ∀ f ∈ d, Writable f) : read (write d) = some d := by
  have front : split? 4 (write d) = some (le 4 ((d.flatMap element).length + 5), d.flatMap element ++ [0]) := by
    have whole := split?_append (le 4 ((d.flatMap element).length + 5)) (d.flatMap element ++ [0])
    rw [length_le] at whole
    simpa [write] using whole
  have enough : d.length < (write d).length := by
    have body := length_le_body writable
    simp only [write, List.length_append, length_le, List.length_singleton]
    omega
  simp only [read, front, Option.bind_some, elements_document writable enough []]
  rfl

theorem split?_extend {n : Nat} {l a r : List UInt8} (cut : split? n l = some (a, r)) (t : List UInt8) :
    split? n (l ++ t) = some (a, r ++ t) := by
  rw [split?] at cut ⊢
  split_ifs at cut with size
  obtain ⟨rfl, rfl⟩ := Prod.mk.inj (Option.some.inj cut)
  rw [if_pos (by rw [List.length_append]; omega), List.take_append_of_le_length size,
    List.drop_append_of_le_length size]

theorem cstring_extend {l a r : List UInt8} (cut : cstring l = some (a, r)) (t : List UInt8) :
    cstring (l ++ t) = some (a, r ++ t) := by
  induction l generalizing a with
  | nil => simp [cstring] at cut
  | cons b l ih =>
    rw [List.cons_append, cstring]
    rw [cstring] at cut
    split_ifs at cut ⊢ with zero
    · obtain ⟨rfl, rfl⟩ := Prod.mk.inj (Option.some.inj cut)
      rfl
    · obtain ⟨⟨a', r'⟩, rest, result⟩ := Option.map_eq_some_iff.mp cut
      obtain ⟨rfl, rfl⟩ := Prod.mk.inj result
      rw [ih rest]
      rfl

theorem map_split?_extend {n : Nat} {l r : List UInt8} {v : Value} {g : List UInt8 → Value}
    (cut : (split? n l).map (fun r => (g r.1, r.2)) = some (v, r)) (t : List UInt8) :
    (split? n (l ++ t)).map (fun r => (g r.1, r.2)) = some (v, r ++ t) := by
  obtain ⟨⟨a, r'⟩, front, result⟩ := Option.map_eq_some_iff.mp cut
  obtain ⟨rfl, rfl⟩ := Prod.mk.inj result
  rw [split?_extend front t]
  rfl

/-- A value is read alike with more input behind it, except for a boolean at the end of the input. -/
theorem value_extend {nested nested' : List UInt8 → Option (List UInt8)} {t : List UInt8}
    (more : ∀ l r, nested l = some r → nested' (l ++ t) = some (r ++ t)) {type : UInt8}
    {l r : List UInt8} {v : Value} (cut : value nested type l = some (v, r)) (inside : l ≠ [] ∨ type ≠ 0x08) :
    value nested' type (l ++ t) = some (v, r ++ t) := by
  rw [value] at cut ⊢
  by_cases float : type = 0x01
  · rw [if_pos float] at cut ⊢
    exact map_split?_extend cut t
  rw [if_neg float] at cut ⊢
  by_cases string : type = 0x02
  · rw [if_pos string] at cut ⊢
    obtain ⟨⟨size, l₁⟩, front, rest⟩ := Option.bind_eq_some_iff.mp cut
    rw [split?_extend front t, Option.bind_some]
    split_ifs at rest ⊢ with negative
    obtain ⟨⟨s, l₂⟩, text, rest⟩ := Option.bind_eq_some_iff.mp rest
    rw [split?_extend text t, Option.bind_some]
    obtain ⟨⟨zero, l₃⟩, last, result⟩ := Option.map_eq_some_iff.mp rest
    obtain ⟨rfl, rfl⟩ := Prod.mk.inj result
    rw [split?_extend last t]
    rfl
  have document : ∀ g : Value, ((split? 4 l).bind fun size => (nested size.2).map fun r => (g, r)) =
    some (v, r) →
      ((split? 4 (l ++ t)).bind fun size => (nested' size.2).map fun r => (g, r)) = some (v, r ++ t) := by
    intro g cut
    obtain ⟨⟨size, l₁⟩, front, rest⟩ := Option.bind_eq_some_iff.mp cut
    obtain ⟨l₂, inner, result⟩ := Option.map_eq_some_iff.mp rest
    obtain ⟨rfl, rfl⟩ := Prod.mk.inj result
    rw [split?_extend front t, Option.bind_some, more l₁ l₂ inner]
    rfl
  rw [if_neg string] at cut ⊢
  by_cases object : type = 0x03
  · rw [if_pos object] at cut ⊢
    exact document .object cut
  rw [if_neg object] at cut ⊢
  by_cases array : type = 0x04
  · rw [if_pos array] at cut ⊢
    exact document .array cut
  rw [if_neg array] at cut ⊢
  by_cases binary : type = 0x05
  · rw [if_pos binary] at cut ⊢
    obtain ⟨⟨size, l₁⟩, front, rest⟩ := Option.bind_eq_some_iff.mp cut
    rw [split?_extend front t, Option.bind_some]
    split_ifs at rest ⊢ with negative
    obtain ⟨⟨subtype, l₂⟩, one, rest⟩ := Option.bind_eq_some_iff.mp rest
    rw [split?_extend one t, Option.bind_some]
    exact map_split?_extend rest t
  rw [if_neg binary] at cut ⊢
  by_cases boolean : type = 0x08
  · rw [if_pos boolean] at cut ⊢
    obtain ⟨b, l, rfl⟩ := List.exists_cons_of_ne_nil (inside.resolve_right (not_not.mpr boolean))
    obtain ⟨rfl, rfl⟩ := Prod.mk.inj (Option.some.inj cut)
    rfl
  rw [if_neg boolean] at cut ⊢
  by_cases null : type = 0x0a
  · rw [if_pos null] at cut ⊢
    obtain ⟨rfl, rfl⟩ := Prod.mk.inj (Option.some.inj cut)
    rfl
  rw [if_neg null] at cut ⊢
  by_cases int32 : type = 0x10
  · rw [if_pos int32] at cut ⊢
    exact @map_split?_extend 4 l r v (fun b => .integer (signed b)) cut t
  rw [if_neg int32] at cut ⊢
  by_cases int64 : type = 0x12
  · rw [if_pos int64] at cut ⊢
    exact @map_split?_extend 8 l r v (fun b => .integer (signed b)) cut t
  · rw [if_neg int64] at cut
    simp at cut

theorem elements_extend {fuel fuel' : Nat} (enough : fuel ≤ fuel') {l r : List UInt8} {d : Document}
    (cut : elements fuel l = some (d, r)) (t : List UInt8) : elements fuel' (l ++ t) = some (d, r ++ t) := by
  induction fuel generalizing fuel' l r d with
  | zero => simp [elements] at cut
  | succ fuel ih =>
    obtain ⟨fuel', rfl⟩ := Nat.exists_eq_add_one_of_ne_zero (Nat.ne_of_gt (Nat.zero_lt_of_lt enough))
    obtain _ | ⟨type, l⟩ := l
    · simp [elements] at cut
    rw [List.cons_append, elements]
    rw [elements] at cut
    split_ifs at cut ⊢ with final
    · obtain ⟨rfl, rfl⟩ := Prod.mk.inj (Option.some.inj cut)
      rfl
    obtain ⟨⟨name, l₁⟩, key, rest⟩ := Option.bind_eq_some_iff.mp cut
    obtain ⟨⟨v, l₂⟩, first, rest⟩ := Option.bind_eq_some_iff.mp rest
    obtain ⟨⟨others, l₃⟩, tail, result⟩ := Option.map_eq_some_iff.mp rest
    obtain ⟨rfl, rfl⟩ := Prod.mk.inj result
    have within : fuel ≤ fuel' := by omega
    have later := ih within tail
    -- with nothing behind a boolean, no element list can end
    have inside : l₁ ≠ [] ∨ type ≠ 0x08 := by
      by_contra neither
      obtain ⟨rfl, rfl⟩ : l₁ = [] ∧ type = 0x08 := by simpa using neither
      obtain ⟨-, rfl⟩ : Value.boolean true = v ∧ [] = l₂ := by simpa [value] using first
      obtain _ | fuel := fuel <;> simp [elements] at tail
    have here : value (fun l => (elements fuel' l).map Prod.snd) type (l₁ ++ t) = some (v, l₂ ++ t) := by
      refine value_extend (fun l r nested => ?_) first inside
      obtain ⟨⟨doc, r'⟩, inner, result⟩ := Option.map_eq_some_iff.mp nested
      obtain rfl : r' = r := result
      rw [ih within inner]
      rfl
    rw [cstring_extend key t, Option.bind_some, here, Option.bind_some, later]
    rfl

/-- A document that is cut short is none. -/
theorem read_cut {raw p t : List UInt8} {d : Document} (whole : read raw = some d) (cut : raw = p ++ t)
    (short : t ≠ []) :
    read p = none := by
  by_contra reads
  obtain ⟨d', reads⟩ := Option.ne_none_iff_exists'.mp reads
  obtain ⟨⟨size, l⟩, front, rest⟩ := Option.bind_eq_some_iff.mp reads
  obtain ⟨⟨doc, r⟩, body, result⟩ := Option.bind_eq_some_iff.mp rest
  split_ifs at result with ended
  obtain rfl : r = [] := ended
  have longer : p.length ≤ raw.length := by rw [cut, List.length_append]; omega
  have whole' : elements raw.length (l ++ t) = some (doc, t) := elements_extend longer body t
  rw [read, cut, split?_extend front t, Option.bind_some, ← cut, whole', Option.bind_some,
    if_neg short] at whole
  simp at whole

end Bson
