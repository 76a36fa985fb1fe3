import Mathlib.Data.List.Basic
import Mathlib.Data.List.GetD
import Mathlib.Tactic.Ring

/-!
# Byte memory

A memory is a function from addresses to bytes. `write` stores a list of bytes from an address on,
`read` loads a number of bytes. The lemmas say what a read sees after a write: the written bytes
where the ranges meet, the old ones elsewhere.

A read is compared with a write in one of three positions: at the same place (`read_write_same`),
inside the range written (`read_write_inside`), or apart from it (`read_write_disjoint`). In the
fourth (`read_write_overlay`) the read runs past the end of the write, as where a short record
replaces a longer one in the same buffer.
-/

abbrev Mem := Nat → UInt8

namespace Mem

/-- Store `bs` at `a`, `a + 1`, … -/
def write (m : Mem) (a : Nat) (bs : List UInt8) : Mem := fun x =>
  if a ≤ x then bs.getD (x - a) (m x) else m x

/-- Load the `n` bytes from `a` on. -/
def read (m : Mem) (a n : Nat) : List UInt8 := (List.range n).map fun k => m (a + k)

variable {m m' : Mem} {a b n k : Nat} {bs : List UInt8}

@[simp] theorem read_length : (m.read a n).length = n := by simp [read]

@[simp] theorem read_zero : m.read a 0 = [] := rfl

theorem write_apply_of_lt {x : Nat} (h : x < a) : m.write a bs x = m x := by
  simp [write, Nat.not_le.mpr h]

theorem write_apply_of_ge {x : Nat} (h : a + bs.length ≤ x) : m.write a bs x = m x := by
  have ha : a ≤ x := by omega
  rw [write, if_pos ha]
  exact List.getD_eq_default _ _ (by omega)

/-- A write inside a range changes no byte outside it. -/
theorem write_apply_outside {x : Nat} (h : x < b ∨ b + n ≤ x) (hlo : b ≤ a)
    (hhi : a + bs.length ≤ b + n) : m.write a bs x = m x := by
  rcases h with h | h
  · exact write_apply_of_lt (Nat.lt_of_lt_of_le h hlo)
  · exact write_apply_of_ge (Nat.le_trans hhi h)

theorem write_apply_add (h : k < bs.length) : m.write a bs (a + k) = bs[k] := by
  simp [write, h]

theorem read_congr (h : ∀ k < n, m (a + k) = m' (a + k)) : m.read a n = m'.read a n := by
  refine List.map_congr_left fun k hk => h k ?_
  simpa using hk

theorem read_succ : m.read a (n + 1) = m a :: m.read (a + 1) n := by
  simp only [read, List.range_succ_eq_map, List.map_cons, List.map_map, Nat.add_zero]
  congr 1
  refine List.map_congr_left fun k _ => ?_
  simp only [Function.comp, Nat.succ_eq_add_one]
  congr 1
  omega

theorem read_add : m.read a (n + k) = m.read a n ++ m.read (a + n) k := by
  induction n generalizing a with
  | zero => simp
  | succ n ih =>
    rw [show n + 1 + k = (n + k) + 1 from by omega, read_succ, read_succ, ih, List.cons_append,
      show a + 1 + n = a + (n + 1) from by omega]

theorem read_take (h : k ≤ n) : (m.read a n).take k = m.read a k := by
  obtain ⟨j, rfl⟩ := Nat.exists_eq_add_of_le h
  rw [read_add, List.take_append_of_le_length (by simp), List.take_of_length_le (by simp)]

theorem read_drop : (m.read a (k + n)).drop k = m.read (a + k) n := by
  rw [read_add, List.drop_append_of_le_length (by simp), List.drop_of_length_le (by simp),
    List.nil_append]

/-- A read of exactly the range written returns what was written. -/
@[simp] theorem read_write_same : (m.write a bs).read a bs.length = bs := by
  refine List.ext_getElem (by simp) fun k h₁ h₂ => ?_
  simp [read, write_apply_add h₂]

theorem read_write_of_length (h : bs.length = n) : (m.write a bs).read a n = bs := by
  rw [← h]
  exact read_write_same

/-- A read inside the range written returns that part of what was written. -/
theorem read_write_inside (h : k + n ≤ bs.length) :
    (m.write a bs).read (a + k) n = (bs.drop k).take n := by
  have hwhole : (m.write a bs).read a (k + (n + (bs.length - (k + n)))) = bs := by
    rw [show k + (n + (bs.length - (k + n))) = bs.length from by omega]
    exact read_write_same
  calc (m.write a bs).read (a + k) n
      = ((m.write a bs).read (a + k) (n + (bs.length - (k + n)))).take n :=
        (read_take (by omega)).symm
    _ = (((m.write a bs).read a (k + (n + (bs.length - (k + n))))).drop k).take n := by
        rw [read_drop]
    _ = (bs.drop k).take n := by rw [hwhole]

/-- A read that does not meet the range written returns the old bytes. -/
theorem read_write_disjoint (h : b + n ≤ a ∨ a + bs.length ≤ b) :
    (m.write a bs).read b n = m.read b n := by
  refine read_congr fun k hk => ?_
  rcases h with h | h
  · exact write_apply_of_lt (by omega)
  · exact write_apply_of_ge (by omega)

/-- A read that starts inside the range written and may run past its end: first what was written,
then the old bytes. -/
theorem read_write_overlay :
    (m.write a bs).read (a + k) n =
      (bs.drop k).take n ++ (m.read (a + k) n).drop (bs.length - k) := by
  refine List.ext_getElem (by simp; omega) fun j h₁ h₂ => ?_
  have hj : j < n := by simpa using h₁
  simp only [read, List.getElem_map, List.getElem_range]
  by_cases hin : k + j < bs.length
  · rw [List.getElem_append_left (by simp; omega), Nat.add_assoc, write_apply_add hin]
    simp
  · rw [List.getElem_append_right (by simp; omega), write_apply_of_ge (by omega)]
    simp only [List.length_take, List.length_drop, List.getElem_drop, List.getElem_map,
      List.getElem_range]
    congr 1
    omega

end Mem

/-! ## Little-endian words

A word in memory is its bytes, low byte first. Loading and `le16`, `le32` are inverse, so what is
known of the bytes of a range is known of the words in it.
-/

/-- The two bytes of a 16-bit word, low byte first. -/
def le16 (v : UInt16) : List UInt8 :=
  [UInt8.ofNat v.toNat, UInt8.ofNat (v.toNat / 256)]

/-- The four bytes of a 32-bit word, low byte first. -/
def le32 (v : UInt32) : List UInt8 :=
  [UInt8.ofNat v.toNat, UInt8.ofNat (v.toNat / 256), UInt8.ofNat (v.toNat / 65536),
    UInt8.ofNat (v.toNat / 16777216)]

@[simp] theorem le16_length (v : UInt16) : (le16 v).length = 2 := rfl

@[simp] theorem le32_length (v : UInt32) : (le32 v).length = 4 := rfl

namespace Mem

/-- The 16-bit word stored at `a`. -/
def load16 (m : Mem) (a : Nat) : UInt16 :=
  UInt16.ofNat ((m a).toNat + 256 * (m (a + 1)).toNat)

/-- The 32-bit word stored at `a`. -/
def load32 (m : Mem) (a : Nat) : UInt32 :=
  UInt32.ofNat ((m a).toNat + 256 * (m (a + 1)).toNat + 65536 * (m (a + 2)).toNat
    + 16777216 * (m (a + 3)).toNat)

/-- The word loaded depends on its four bytes only. -/
theorem load32_of_read {m : Mem} {a : Nat} {v : UInt32} (h : m.read a 4 = le32 v) :
    m.load32 a = v := by
  simp only [read, List.range_succ_eq_map, List.range_zero, List.map_nil, List.map_cons,
    Nat.succ_eq_add_one, Nat.add_zero, Nat.zero_add, le32,
    List.cons.injEq, and_true] at h
  obtain ⟨h0, h1, h2, h3⟩ := h
  have hv : v.toNat < 4294967296 := v.toNat_lt
  unfold load32
  rw [h0, h1, h2, h3]
  apply UInt32.toNat.inj
  simp only [UInt8.toNat_ofNat', UInt32.toNat_ofNat']
  omega

/-- The four bytes loaded as a word are the bytes of that word. -/
theorem read_eq_le32_load32 (m : Mem) (a : Nat) : m.read a 4 = le32 (m.load32 a) := by
  have h0 := (m a).toNat_lt
  have h1 := (m (a + 1)).toNat_lt
  have h2 := (m (a + 2)).toNat_lt
  have h3 := (m (a + 3)).toNat_lt
  have hw : (m.load32 a).toNat = (m a).toNat + 256 * (m (a + 1)).toNat
      + 65536 * (m (a + 2)).toNat + 16777216 * (m (a + 3)).toNat := by
    simp only [load32, UInt32.toNat_ofNat']
    omega
  simp only [read, List.range_succ_eq_map, List.range_zero, List.map_nil, List.map_cons,
    Nat.succ_eq_add_one, Nat.add_zero, Nat.zero_add, Nat.reduceAdd, le32, hw, List.cons.injEq,
    and_true]
  refine ⟨?_, ?_, ?_, ?_⟩ <;> apply UInt8.toNat.inj <;> simp only [UInt8.toNat_ofNat'] <;> omega

theorem load32_eq_iff {m : Mem} {a : Nat} {v : UInt32} : m.load32 a = v ↔ m.read a 4 = le32 v :=
  ⟨fun h => h ▸ read_eq_le32_load32 m a, load32_of_read⟩

end Mem
