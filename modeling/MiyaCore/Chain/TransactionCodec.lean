import MiyaCore.Chain.TxFields

namespace MiyaCore.Chain

open Chunks

variable {PKey : Type} {c : Crypto PKey}

/-- Members that are each read back from their bytes are read back one after the other. -/
theorem importAll_flatten {α : Type} {read : List UInt8 → Option (α × Nat)} {parts : List (List UInt8)}
    {xs : List α} (reads : List.Forall₂ (fun part x => ∀ rest,
    read (part ++ rest) = some (x, part.length)) parts xs) (rest : List UInt8) :
    importAll read parts.length (parts.flatten ++ rest) = some (xs, parts.flatten.length) := by
  induction reads with
  | nil => rfl
  | @cons part x parts xs first _ ih =>
    rw [List.length_cons, List.flatten_cons, List.append_assoc, importAll, first]
    simp only [Option.bind_eq_bind, Option.bind_some, List.drop_left, ih, List.length_append, Option.pure_def]

theorem importAll_succ {α : Type} {read : List UInt8 → Option (α × Nat)} {n : Nat} {raw : List UInt8}
    {r : List α × Nat} :
    importAll read (n + 1) raw = some r ↔ ∃ x size xs sizes, read raw = some (x, size) ∧
      importAll read n (raw.drop size) = some (xs, sizes) ∧ r = (x :: xs, size + sizes) := by
  simp only [importAll, Option.bind_eq_bind, Option.bind_eq_some_iff, Option.pure_def, Option.some.injEq]
  constructor
  · rintro ⟨⟨x, size⟩, first, ⟨xs, sizes⟩, others, rfl⟩
    exact ⟨x, size, xs, sizes, first, others, rfl⟩
  · rintro ⟨x, size, xs, sizes, first, others, rfl⟩
    exact ⟨(x, size), first, (xs, sizes), others, rfl⟩

theorem length_importAll {α : Type} {read : List UInt8 → Option (α × Nat)} {n : Nat} {raw : List UInt8}
    {r : List α × Nat} (run : importAll read n raw = some r) : r.1.length = n := by
  induction n generalizing raw r with
  | zero =>
    obtain rfl := Option.some.inj run
    rfl
  | succ n ih =>
    obtain ⟨x, size, xs, sizes, first, others, rfl⟩ := importAll_succ.mp run
    exact congrArg Nat.succ (ih others)

/-- What holds of every member that is read holds of all of them. -/
theorem forall_mem_importAll {α : Type} {read : List UInt8 → Option (α × Nat)} {p : α → Prop}
    (each : ∀ raw x size, read raw = some (x, size) → p x) {n : Nat} {raw : List UInt8} {r : List α × Nat}
    (run : importAll read n raw = some r) : ∀ x ∈ r.1, p x := by
  induction n generalizing raw r with
  | zero =>
    obtain rfl := Option.some.inj run
    simp
  | succ n ih =>
    obtain ⟨x, size, xs, sizes, first, others, rfl⟩ := importAll_succ.mp run
    exact List.forall_mem_cons.mpr ⟨each raw x size first, ih others⟩

theorem exportAll_cons {α : Type} {write : α → Option (List UInt8 × α)} {x : α} {l : List α}
    {r : List UInt8 × List α} :
    exportAll write (x :: l) = some r ↔ ∃ raw x' raws l', write x = some (raw, x') ∧
      exportAll write l = some (raws, l') ∧
      r = (raw ++ raws, x' :: l') := by
  simp only [exportAll_eq_some, mapM_cons_eq_some]
  constructor
  · rintro ⟨_, ⟨⟨raw, x'⟩, parts, first, others, rfl⟩, bytes, members⟩
    exact ⟨raw, x', _, _, first, ⟨parts, others, rfl, rfl⟩, Prod.ext bytes.symm members.symm⟩
  · rintro ⟨raw, x', _, _, first, ⟨parts, others, rfl, rfl⟩, rfl⟩
    exact ⟨_, ⟨_, _, first, others, rfl⟩, rfl, rfl⟩

theorem exportAll_cons_fst {α : Type} (write : α → Option (List UInt8 × α)) (x : α) (l : List α) :
    (exportAll write (x :: l)).map Prod.fst = ((write x).map Prod.fst).bind fun first =>
      ((exportAll write l).map Prod.fst).map (first ++ ·) := by
  rw [exportAll, List.mapM_cons, exportAll]
  cases write x with
  | none => rfl
  | some first => cases l.mapM write <;> rfl

/-- The bytes of a list are those of its members. -/
theorem exportAll_congr {α : Type} {write : α → Option (List UInt8 × α)} {l l' : List α}
    (same : List.Forall₂ (fun x y => (write x).map Prod.fst = (write y).map Prod.fst) l l') :
    (exportAll write l).map Prod.fst = (exportAll write l').map Prod.fst := by
  induction same with
  | nil => rfl
  | cons first _ ih => rw [exportAll_cons_fst, exportAll_cons_fst, first, ih]

/-- Members that are each read back, as what they say, from the bytes they are exported to are read
back one after the other. -/
theorem exportAll_reads {α β : Type} {write : α → Option (List UInt8 × α)}
    {read : List UInt8 → Option (α × Nat)} {f : α → β} {p : α → Prop} {q : List UInt8 → Prop}
    (each : ∀ x, p x → ∃ part x' y, write x = some (part, x') ∧ q part ∧
    (∀ rest, read (part ++ rest) = some (y, part.length)) ∧ f y = f x) {l : List α} (all : ∀ x ∈ l, p x) :
    ∃ parts l' ys, exportAll write l = some (parts.flatten, l') ∧ (∀ part ∈ parts, q part) ∧
      List.Forall₂ (fun part y => ∀ rest, read (part ++ rest) = some (y, part.length)) parts ys ∧
      ys.map f = l.map f := by
  induction l with
  | nil => exact ⟨[], [], [], rfl, by simp, .nil, rfl⟩
  | cons x l ih =>
    obtain ⟨first, others⟩ := List.forall_mem_cons.mp all
    obtain ⟨parts, l', ys, written, qs, reads, same⟩ := ih others
    obtain ⟨part, x', y, one, q1, read1, same1⟩ := each x first
    refine ⟨part :: parts, x' :: l', y :: ys, ?_, List.forall_mem_cons.mpr ⟨q1, qs⟩, .cons read1 reads, ?_⟩
    · exact exportAll_cons.mpr ⟨_, _, _, _, one, written, by rw [List.flatten_cons]⟩
    · rw [List.map_cons, List.map_cons, same, same1]

namespace TxOut

/-- The bytes of the script that locks an output to a key hash, opcode by opcode. -/
def lock (hash : List.Vector UInt8 20) : List (Chunk dataSize) :=
  [⟨0x76, [], rfl⟩, ⟨0xa9, [], rfl⟩, ⟨0x14, hash.toList, hash.toList_length⟩, ⟨0x88, [], rfl⟩, ⟨0xac, [], rfl⟩]

theorem length_lock (hash : List.Vector UInt8 20) : (join (lock hash)).length = 25 := by simp [lock]

/-- An output locked to a key hash, as it is exported. -/
def raw (value : UInt64) (hash : List.Vector UInt8 20) : List UInt8 :=
  Bytes.be 8 value.toNat ++ (Bytes.be 8 (join (lock hash)).length ++ join (lock hash))

theorem length_raw (value : UInt64) (hash : List.Vector UInt8 20) : (raw value hash).length = 41 := by
  simp [raw, length_lock]

/-- The output has the hash of a key. -/
def Locked (x : TxOut) : Prop := ∃ hash : List.Vector UInt8 20, x.pubKeyHash = some hash.toList

theorem exportRaw_p2pkhPkScript (bytes : List UInt8) :
    (p2pkhPkScript bytes).exportRaw = (Bytes.take? 20 bytes).map
      fun hash => 0x76 :: 0xa9 :: 0x14 :: (hash ++ [0x88, 0xac]) := by
  have data : Buffer.read (some bytes) (OpCode.data 0x14).dataLength = Bytes.take? 20 bytes := read_eq ..
  cases taken : Bytes.take? 20 bytes with
  | none =>
    simp [Script.exportRaw, p2pkhPkScript, List.mapM_cons, data, taken, Script.exportElement, OpCode.isData]
  | some hash =>
    obtain ⟨there, rfl⟩ := Script.take?_eq_some taken
    simp [Script.exportRaw, p2pkhPkScript, List.mapM_cons, data, taken, Script.exportElement,
      OpCode.isData, OpCode.raw, guard, there]

theorem exportRaw_locked {x : TxOut} {hash : List.Vector UInt8 20} (locked : x.pubKeyHash = some hash.toList) :
    ∃ x', x.exportRaw = some (raw x.value hash, x') := by
  have taken : Bytes.take? 20 hash.toList = some hash.toList := by
    simpa using Bytes.take?_append hash.toList_length []
  simp [exportRaw, locked, exportRaw_p2pkhPkScript, taken, raw, lock]

/-- An output locked to a key hash, as it is read back. -/
def imported (value : UInt64) (hash : List.Vector UInt8 20) : TxOut where
  value := value
  pkScriptBytes := UInt64.ofNat (join (lock hash)).length
  pkScript := Script.ofChunks (lock hash)
  pubKeyHash := some hash.toList

theorem importRaw_raw (value : UInt64) (hash : List.Vector UInt8 20) (rest : List UInt8) :
    importRaw (raw value hash ++ rest) = some (imported value hash, (raw value hash).length) := by
  have small : (join (lock hash)).length < 2 ^ 31 := by rw [length_lock]; norm_num
  have some : hash.toList ≠ [] := List.ne_nil_of_length_pos (by simp)
  have run := importRaw_join small value rest
  rw [length_raw, raw, List.append_assoc, List.append_assoc, run, length_lock]
  simp [lock, imported, Script.element, some]

/-- What an output says: its value and its key hash. -/
def fields (x : TxOut) : UInt64 × Buffer := (x.value, x.pubKeyHash)

/-- The bytes of an output depend on what it says. -/
theorem exportRaw_congr {x y : TxOut} (same : x.fields = y.fields) :
    x.exportRaw.map Prod.fst = y.exportRaw.map Prod.fst := by
  obtain ⟨value, pubKeyHash⟩ := Prod.mk.inj same
  rw [exportRaw, exportRaw, value, pubKeyHash]
  cases y.pubKeyHash with
  | none => rfl
  | some key => cases (p2pkhPkScript key).exportRaw <;> rfl

theorem exportAll_of_fields {l l' : List TxOut} (same : l.map fields = l'.map fields) :
    (exportAll exportRaw l).map Prod.fst = (exportAll exportRaw l').map Prod.fst := by
  refine exportAll_congr ?_
  rw [← List.forall₂_eq_eq_eq, List.forall₂_map_left_iff, List.forall₂_map_right_iff] at same
  exact same.imp fun _ _ => exportRaw_congr

/-- Exporting leaves what an output says as it is. -/
theorem fields_of_exportRaw {x x' : TxOut} {bytes : List UInt8}
    (written : x.exportRaw = some (bytes, x')) : x'.fields = x.fields := by
  rw [exportRaw] at written
  cases has : x.pubKeyHash with
  | none =>
    rw [has] at written
    obtain ⟨-, rfl⟩ := Prod.mk.inj (Option.some.inj written)
    rfl
  | some key =>
    simp only [has, Option.bind_eq_bind, Option.bind_eq_some_iff, Option.pure_def, Option.some.injEq,
      Prod.mk.injEq] at written
    obtain ⟨_, -, -, rfl⟩ := written
    rw [fields, fields, has]

theorem fields_of_exportAll {outs after : List TxOut} {bytes : List UInt8}
    (written : exportAll exportRaw outs = some (bytes, after)) :
    after.map fields = outs.map fields := by
  induction outs generalizing bytes after with
  | nil =>
    obtain ⟨-, rfl⟩ := Prod.mk.inj (Option.some.inj written)
    rfl
  | cons x outs ih =>
    obtain ⟨first, x', others, after', writtenFirst, writtenOthers, result⟩ := exportAll_cons.mp written
    obtain ⟨-, rfl⟩ := Prod.mk.inj result
    rw [List.map_cons, List.map_cons, fields_of_exportRaw writtenFirst, ih writtenOthers]

/-- Outputs locked to key hashes are exported to parts of 41 bytes, each of which is read back. -/
theorem exportAll_locked {outs : List TxOut} (locked : ∀ x ∈ outs, Locked x) : ∃ parts outs' ys,
    exportAll exportRaw outs = some (parts.flatten, outs') ∧ parts.flatten.length = 41 * outs.length ∧
    List.Forall₂ (fun part y => ∀ rest, importRaw (part ++ rest) = some (y, part.length)) parts ys ∧
    ys.map fields = outs.map fields := by
  have each : ∀ x, Locked x → ∃ part x' y, x.exportRaw = some (part, x') ∧ part.length = 41 ∧
      (∀ rest, importRaw (part ++ rest) = some (y, part.length)) ∧ y.fields = x.fields := by
    rintro x ⟨hash, has⟩
    obtain ⟨x', one⟩ := exportRaw_locked has
    exact ⟨_, x', _, one, length_raw .., importRaw_raw x.value hash, Prod.ext rfl has.symm⟩
  obtain ⟨parts, outs', ys, written, sizes, reads, same⟩ := exportAll_reads each locked
  refine ⟨parts, outs', ys, written, ?_, reads, same⟩
  rw [List.length_flatten, List.sum_eq_card_nsmul _ 41 (List.forall_mem_map.mpr sizes), List.length_map,
    reads.length_eq, ← List.length_map fields, same, List.length_map, nsmul_eq_mul, Nat.cast_id, mul_comm]

/-- An output is exported to nothing, or with the first 20 bytes of its key hash. -/
theorem exportRaw_cases {x x' : TxOut} {bytes : List UInt8} (written : x.exportRaw = some (bytes, x')) :
    x.pubKeyHash = none ∧ bytes = [] ∨
    ∃ (key : List UInt8) (hash : List.Vector UInt8 20), x.pubKeyHash = some key ∧ hash.toList = key.take 20 ∧
      bytes = raw x.value hash := by
  rw [exportRaw] at written
  cases has : x.pubKeyHash with
  | none =>
    rw [has] at written
    exact Or.inl ⟨rfl, (congrArg Prod.fst (Option.some.inj written)).symm⟩
  | some key =>
    rw [has] at written
    simp only [exportRaw_p2pkhPkScript, Option.bind_eq_bind, Option.bind_eq_some_iff,
      Option.map_eq_some_iff, Option.pure_def, Option.some.injEq, Prod.mk.injEq] at written
    obtain ⟨_, ⟨hash, taken, rfl⟩, rfl, -⟩ := written
    obtain ⟨there, rfl⟩ := Script.take?_eq_some taken
    exact Or.inr ⟨key, ⟨key.take 20, List.length_take_of_le there⟩, rfl, rfl, by simp [raw, lock]⟩

/-- What is read first from exported outputs has a key hash. -/
theorem pubKeyHash_of_importRaw {outs after : List TxOut} {bytes : List UInt8} {y : TxOut} {n : Nat}
    (written : exportAll exportRaw outs = some (bytes, after)) (read : importRaw bytes = some (y, n)) :
    y.pubKeyHash ≠ none := by
  induction outs generalizing bytes after with
  | nil =>
    obtain rfl : [] = bytes := congrArg Prod.fst (Option.some.inj written)
    simp [importRaw, Bytes.take?] at read
  | cons x outs ih =>
    obtain ⟨first, x', others, after', writtenFirst, writtenOthers, result⟩ := exportAll_cons.mp written
    obtain ⟨rfl, -⟩ := Prod.mk.inj result
    obtain ⟨-, rfl⟩ | ⟨key, hash, -, -, rfl⟩ := exportRaw_cases writtenFirst
    · exact ih writtenOthers read
    · rw [importRaw_raw] at read
      obtain ⟨rfl, -⟩ := Prod.mk.inj (Option.some.inj read)
      exact Option.some_ne_none _

/-- Outputs that are read back from what they are exported to are locked to key hashes. -/
theorem locked_of_readBack {outs after ys : List TxOut} {bytes : List UInt8} {n : Nat}
    (written : exportAll exportRaw outs = some (bytes, after))
    (read : importAll importRaw outs.length bytes = some (ys, n))
    (same : ys.map fields = outs.map fields) : ∀ x ∈ outs, Locked x := by
  induction outs generalizing bytes after ys n with
  | nil => simp
  | cons x outs ih =>
    obtain ⟨first, x', others, after', writtenFirst, writtenOthers, result⟩ := exportAll_cons.mp written
    obtain ⟨rfl, -⟩ := Prod.mk.inj result
    obtain ⟨y, size, ys', sizes, readFirst, readOthers, result⟩ := importAll_succ.mp read
    obtain ⟨rfl, -⟩ := Prod.mk.inj result
    rw [List.map_cons, List.map_cons] at same
    obtain ⟨sameFirst, sameOthers⟩ := List.cons.inj same
    have hashes : y.pubKeyHash = x.pubKeyHash := congrArg Prod.snd sameFirst
    obtain ⟨none, rfl⟩ | ⟨key, hash, has, cut, rfl⟩ := exportRaw_cases writtenFirst
    · exact absurd (hashes.trans none) (pubKeyHash_of_importRaw writtenOthers readFirst)
    · rw [importRaw_raw] at readFirst
      obtain ⟨rfl, rfl⟩ := Prod.mk.inj (Option.some.inj readFirst)
      rw [List.drop_left] at readOthers
      exact List.forall_mem_cons.mpr ⟨⟨hash, hashes.symm⟩, ih writtenOthers readOthers sameOthers⟩

end TxOut

/-- An imported input is not taken for signed. -/
theorem TxIn.isSigned_of_importRaw {raw : List UInt8} {x : TxIn PKey} {n : Nat}
    (run : importRaw c raw = some (x, n)) :
    x.isSigned = false := by
  simp only [importRaw, Option.bind_eq_bind, Option.bind_eq_some_iff] at run
  obtain ⟨_, -, _, -, ⟨signatureScript, m⟩, imported, _, -, _, -, _, -, result⟩ := run
  obtain ⟨rfl, -⟩ := Prod.mk.inj (Option.some.inj result)
  change signatureScript.isSigned = false
  rw [SignatureScript.importRaw] at imported
  split_ifs at imported with short
  · obtain ⟨rfl, -⟩ := Prod.mk.inj (Option.some.inj imported)
    rfl
  · simp only [Option.bind_eq_bind, Option.bind_eq_some_iff] at imported
    obtain ⟨_, -, _, -, _, -, _, -, result⟩ := imported
    obtain ⟨rfl, -⟩ := Prod.mk.inj (Option.some.inj result)
    rfl

/-- What an input says: its outpoint, its sequence, its signature and its public key. -/
def TxIn.fields (x : TxIn PKey) : PrevOut × UInt32 × Buffer × Option PKey :=
  (x.prevOut, x.sequence, x.signatureScript.sign, x.signatureScript.pkey)

namespace P2PKH

theorem length_frame (t : P2PKH PKey) (ins outs : List UInt8) :
    (t.frame ins outs).length = 12 + ins.length + outs.length := by
  simp only [frame, List.length_append, Bytes.length_le, Bytes.length_be]
  omega

/-- A transaction is read back from its frame when its inputs and outputs are. -/
theorem importRawSequentially_frame {t : P2PKH PKey} {rawIns rawOuts : List (List UInt8)}
    {ins : List (TxIn PKey)} {outs : List TxOut}
    (readsIns : List.Forall₂ (fun part x => ∀ rest, TxIn.importRaw c (part ++ rest) = some (x, part.length))
      rawIns ins)
      (readsOuts : List.Forall₂ (fun part x => ∀ rest,
    TxOut.importRaw (part ++ rest) = some (x, part.length)) rawOuts outs)
    (countIns : rawIns.length = t.ins.length) (countOuts : rawOuts.length = t.outs.length)
    (fewIns : t.ins.length < 2 ^ 32)
    (fewOuts : t.outs.length < 2 ^ 32) (rest : List UInt8) :
    importRawSequentially c (t.frame rawIns.flatten rawOuts.flatten ++ rest) =
      some ({ version := t.version, ins := ins, outs := outs },
      (t.frame rawIns.flatten rawOuts.flatten).length) := by
  have shape : t.frame rawIns.flatten rawOuts.flatten ++ rest = Bytes.le 4 t.version.toNat ++
    (Bytes.be 4 t.ins.length ++
      (rawIns.flatten ++ (Bytes.be 4 t.outs.length ++ (rawOuts.flatten ++ rest)))) := by
    simp only [frame, List.append_assoc]
  have atIns : ∀ tail : List UInt8, (Bytes.le 4 t.version.toNat ++
    (Bytes.be 4 t.ins.length ++ tail)).drop 8 = tail := by
    intro tail
    rw [← List.append_assoc]
    exact List.drop_left' (by simp)
  have atCount : ∀ tail : List UInt8, (Bytes.le 4 t.version.toNat ++ (Bytes.be 4 t.ins.length ++
      (rawIns.flatten ++ tail))).drop (8 + rawIns.flatten.length) = tail := by
    intro tail
    rw [← List.append_assoc, ← List.append_assoc]
    exact List.drop_left' (by simp only [List.length_append, Bytes.length_le, Bytes.length_be])
  have atOuts : ∀ tail : List UInt8, (Bytes.le 4 t.version.toNat ++ (Bytes.be 4 t.ins.length ++
      (rawIns.flatten ++ (Bytes.be 4 t.outs.length ++ tail)))).drop (8 + rawIns.flatten.length + 4) = tail := by
    intro tail
    rw [← List.append_assoc, ← List.append_assoc, ← List.append_assoc]
    exact List.drop_left' (by simp only [List.length_append, Bytes.length_le, Bytes.length_be])
  have inCount : Bytes.ofBe (Bytes.be 4 t.ins.length) = rawIns.length := by
    rw [Bytes.ofBe_be, Nat.mod_eq_of_lt (by omega), countIns]
  have outCount : Bytes.ofBe (Bytes.be 4 t.outs.length) = rawOuts.length := by
    rw [Bytes.ofBe_be, Nat.mod_eq_of_lt (by omega), countOuts]
  rw [shape, importRawSequentially]
  simp only [Bytes.take?_append (Bytes.length_le 4 _), Bytes.take?_append (Bytes.length_be 4 _),
    List.drop_left' (Bytes.length_le 4 _), Option.bind_eq_bind, Option.bind_some, atIns, atCount,
    atOuts, inCount, outCount, importAll_flatten readsIns, importAll_flatten readsOuts,
    Bytes.ofNat_ofLe_le, Option.pure_def, length_frame]
  congr 2
  omega

/-- A transaction is read back from what it is exported to, whatever follows: all of it is read, it
says the same, and it has the same bytes and the same id. -/
def RoundTrip (c : Crypto PKey) (t : P2PKH PKey) : Prop :=
  ∃ raw after, t.exportRaw c = some (raw, after) ∧ ∀ rest, ∃ y, importRawSequentially c
  (raw ++ rest) = some (y, raw.length) ∧
    y.version = t.version ∧ y.ins.map TxIn.fields = t.ins.map TxIn.fields ∧
    y.outs.map TxOut.fields = t.outs.map TxOut.fields ∧ (y.exportRaw c).map Prod.fst = some raw ∧
    (y.calcTxID c).map Prod.fst = (t.calcTxID c).map Prod.fst

theorem exportRaw_eq_some {t : P2PKH PKey} {r : List UInt8 × P2PKH PKey}
    (signed : t.ins.all TxIn.isSigned = true) :
    t.exportRaw c = some r ↔ ∃ rawIns ins rawOuts outs,
      exportAll (TxIn.exportRawWithSignatureScript c) t.ins = some (rawIns, ins) ∧
      exportAll TxOut.exportRaw t.outs = some (rawOuts, outs) ∧ (t.frame rawIns rawOuts).length < 2 ^ 32 ∧
      r = (t.frame rawIns rawOuts, { t with ins := ins, outs := outs }) := by
  rw [exportRaw, if_pos signed]
  simp only [Option.bind_eq_bind, Option.bind_eq_some_iff, Option.guard_eq_some', Option.pure_def,
    Option.some.injEq]
  constructor
  · rintro ⟨⟨rawIns, ins⟩, writtenIns, ⟨rawOuts, outs⟩, writtenOuts, -, fits, rfl⟩
    exact ⟨rawIns, ins, rawOuts, outs, writtenIns, writtenOuts, fits, rfl⟩
  · rintro ⟨rawIns, ins, rawOuts, outs, writtenIns, writtenOuts, fits, rfl⟩
    exact ⟨(rawIns, ins), writtenIns, (rawOuts, outs), writtenOuts, (), fits, rfl⟩

theorem importRawSequentially_eq_some {raw : List UInt8} {r : P2PKH PKey × Nat}
    (run : importRawSequentially c raw = some r) :
    4 ≤ raw.length ∧ ∃ n m, importAll (TxIn.importRaw c) (Bytes.ofBe ((raw.drop 4).take 4))
      (raw.drop 8) = some (r.1.ins, n) ∧
      importAll TxOut.importRaw (Bytes.ofBe ((raw.drop (8 + n)).take 4))
      (raw.drop (8 + n + 4)) = some (r.1.outs, m) := by
  simp only [importRawSequentially, Option.bind_eq_bind, Option.bind_eq_some_iff, Option.pure_def,
    Option.some.injEq] at run
  obtain ⟨version, first, inCount, second, ⟨ins, n⟩, readIns, outCount, third, ⟨outs, m⟩, readOuts, rfl⟩ := run
  obtain ⟨there, -⟩ := Script.take?_eq_some first
  obtain ⟨-, rfl⟩ := Script.take?_eq_some second
  obtain ⟨-, rfl⟩ := Script.take?_eq_some third
  exact ⟨there, n, m, readIns, readOuts⟩

/-- An imported transaction with an input is exported to nothing. -/
theorem exportRaw_imported {raw : List UInt8} {y : P2PKH PKey} {n : Nat}
    (run : importRawSequentially c raw = some (y, n)) (inputs : y.ins ≠ []) : y.exportRaw c = some ([], y) := by
  obtain ⟨-, n, m, readIns, -⟩ := importRawSequentially_eq_some run
  have unsigned := forall_mem_importAll (fun _ _ _ => TxIn.isSigned_of_importRaw) readIns
  obtain ⟨x, member⟩ := List.exists_mem_of_ne_nil _ inputs
  have stops : ¬y.ins.all TxIn.isSigned = true := by
    intro all
    exact absurd (List.all_eq_true.mp all x member) (by rw [unsigned x member]; exact Bool.false_ne_true)
  rw [exportRaw, if_neg stops]

theorem calcTxID_fst (t : P2PKH PKey) : (t.calcTxID c).map Prod.fst =
    ((t.exportRaw c).map Prod.fst).map c.sha256 := by
  rw [calcTxID]
  cases t.exportRaw c <;> rfl

/-- Without inputs there are the outputs to export. -/
theorem exportRaw_noInput {t : P2PKH PKey} (none : t.ins = []) : (t.exportRaw c).map Prod.fst =
    ((exportAll TxOut.exportRaw t.outs).map Prod.fst).bind fun rawOuts =>
      if (t.frame [] rawOuts).length < 2 ^ 32 then some (t.frame [] rawOuts) else Option.none := by
  rw [exportRaw, none, if_pos (by rfl)]
  cases exportAll TxOut.exportRaw t.outs with
  | none => rfl
  | some outs =>
    simp only [exportAll, List.mapM_nil, Option.pure_def, Option.bind_eq_bind, Option.bind_some,
      List.map_nil, List.flatten_nil, Option.map_some, guard]
    split_ifs <;> rfl

/-- An imported input is not marked as signed, so the round trip is made just by the transactions that
have no input, have a key hash in every output, and fit into the lengths of the export. -/
theorem importRawSequentially_exportRaw_iff (c : Crypto PKey) (t : P2PKH PKey) :
    RoundTrip c t ↔ t.ins = [] ∧ (∀ x ∈ t.outs, x.Locked) ∧ 12 + 41 * t.outs.length < 2 ^ 32 := by
  constructor
  · rintro ⟨raw, after, written, back⟩
    obtain ⟨y, read, -, sameIns, sameOuts, again, -⟩ := back []
    rw [List.append_nil] at read
    obtain ⟨long, n, m, readIns, readOuts⟩ := importRawSequentially_eq_some read
    have none : t.ins = [] := by
      by_contra inputs
      have inputs' : y.ins ≠ [] := by
        rintro empty
        rw [empty] at sameIns
        exact inputs (by simpa using sameIns.symm)
      rw [exportRaw_imported read inputs'] at again
      obtain rfl : [] = raw := Option.some.inj again
      simp at long
    have none' : y.ins = [] := by
      rw [none] at sameIns
      simpa using sameIns
    obtain ⟨rawIns, ins, rawOuts, outs, writtenIns, writtenOuts, fits, result⟩ :=
      (exportRaw_eq_some (by rw [none]; rfl)).mp written
    obtain ⟨rfl, -⟩ := Prod.mk.inj result
    rw [none] at writtenIns
    obtain rfl : [] = rawIns := congrArg Prod.fst (Option.some.inj writtenIns)
    have count := length_importAll readIns
    rw [none'] at count
    rw [← count] at readIns
    obtain rfl : 0 = n := congrArg Prod.snd (Option.some.inj readIns)
    have atOuts : (t.frame [] rawOuts).drop (8 + 0 + 4) = rawOuts := by
      rw [frame, List.append_nil]
      exact List.drop_left' (by simp)
    have countOuts := (length_importAll readOuts).symm.trans
      (by rw [← List.length_map TxOut.fields, sameOuts, List.length_map])
    rw [countOuts, atOuts] at readOuts
    have locked := TxOut.locked_of_readBack writtenOuts readOuts sameOuts
    obtain ⟨parts, outs', ys, writtenParts, size, -, -⟩ := TxOut.exportAll_locked locked
    obtain ⟨rfl, -⟩ := Prod.mk.inj (Option.some.inj (writtenOuts.symm.trans writtenParts))
    rw [length_frame, size, List.length_nil] at fits
    exact ⟨none, locked, fits⟩
  · rintro ⟨none, locked, fits⟩
    obtain ⟨parts, outs', ys, written, size, reads, same⟩ := TxOut.exportAll_locked locked
    have small : (t.frame [] parts.flatten).length < 2 ^ 32 := by
      rw [length_frame, size, List.length_nil]; exact fits
    have lengths : parts.length = t.outs.length := by
      rw [reads.length_eq, ← List.length_map TxOut.fields, same, List.length_map]
    have exported : t.exportRaw c = some (t.frame [] parts.flatten, { t with outs := outs' }) := by
      refine (exportRaw_eq_some (by rw [none]; rfl)).mpr ⟨[], [], _, _, by rw [none]; rfl, written, small, ?_⟩
      rw [none]
    have readsIns : List.Forall₂
        (fun part x => ∀ rest, TxIn.importRaw c (part ++ rest) = some (x, part.length)) [] [] := .nil
    have again : (exportRaw c { version := t.version, ins := [], outs := ys }).map Prod.fst =
      (t.exportRaw c).map Prod.fst := by
      rw [exportRaw_noInput none, exportRaw_noInput rfl, TxOut.exportAll_of_fields same]
      simp only [frame, none, ← lengths, reads.length_eq]
      rfl
    refine ⟨_, _, exported, fun rest => ⟨{ version := t.version, ins := [], outs := ys }, ?_, rfl,
      by rw [none], same, ?_, ?_⟩⟩
    · exact importRawSequentially_frame readsIns reads (by rw [none]; rfl) lengths
        (by rw [none]; norm_num) (by omega) rest
    · rw [again, exported]
      rfl
    · rw [calcTxID_fst, calcTxID_fst, again]

/-- A signed transaction with one input is read back, but has nothing to export any more. -/
theorem importRawSequentially_exportRaw_fails :
    ((exportRaw (Block.sample true) (Block.sampleTx [Block.sampleOut])).bind fun r =>
      (importRawSequentially (Block.sample true) r.1).map fun y =>
        (r.1.length, y.2, ((exportRaw (Block.sample true) y.1).map Prod.fst))) = some (216, 216, some []) ∧
    ¬RoundTrip (Block.sample true) (Block.sampleTx [Block.sampleOut]) := by
  refine ⟨by decide +kernel, ?_⟩
  rintro ⟨raw, after, -, back⟩
  obtain ⟨y, read, -, ins, -, again, -⟩ := back []
  have inputs : y.ins ≠ [] := by
    intro empty
    rw [empty] at ins
    simp [Block.sampleTx] at ins
  rw [exportRaw_imported read inputs] at again
  obtain ⟨long, -⟩ := importRawSequentially_eq_some read
  obtain rfl : [] = raw := Option.some.inj again
  simp at long

end P2PKH

end MiyaCore.Chain
