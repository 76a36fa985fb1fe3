import Mathlib.Data.List.TakeWhile
import Lanes.Lib.Mem

/-!
# C strings

A C string is a list of bytes without a NUL. The functions of `<string.h>` and `<stdlib.h>` that
read or write such strings are defined on it; arrays of `char` are parts of a byte memory.

* `CStr` carries the absence of a NUL, so no operation on strings has it as a hypothesis. `cstr`
  cuts any bytes at the first NUL and is how an array becomes a string.
* `Mem.strncpy`, `Mem.strncat` and `Mem.vsnprintf` are writes to a byte memory, and as in C they
  write where they are told: an array that is too short is overrun, and a copy may have no NUL.
* The lemmas give the string that an array holds after each of them, where there is room, and the
  bytes outside the array that stay.
-/

/-- The bytes of a C string, without the terminator. -/
abbrev CStr := { bs : List UInt8 // (0 : UInt8) ∉ bs }

/-- The string at the start of `bs`: everything before the first NUL. -/
def cstr (bs : List UInt8) : CStr where
  val := bs.takeWhile (· != 0)
  property h := by simpa using List.mem_takeWhile_imp h

/-- A string literal of the source. -/
def CStr.ofString (s : String) : CStr := cstr (s.toList.map fun c => c.toNat.toUInt8)

instance : Coe String CStr := ⟨CStr.ofString⟩

/-- `strlen`. -/
def CStr.length (s : CStr) : Nat := s.val.length

/-- `strncmp (a, b, n) == 0`. -/
def strncmpEq (a b : CStr) (n : Nat) : Bool := a.val.take n == b.val.take n

/-- `s` is `t`, or `t` with more behind it. -/
def CStr.Extends (s t : CStr) : Prop := t.val <+: s.val

instance (s t : CStr) : Decidable (s.Extends t) := inferInstanceAs (Decidable (_ <+: _))

/-- The value of the decimal digits at the start of `bs`. -/
def digitsValue : List UInt8 → Nat → Nat
  | [], acc => acc
  | b :: bs, acc => if 48 ≤ b ∧ b ≤ 57 then digitsValue bs (10 * acc + (b - 48).toNat) else acc

/-- `atoi`: `strtol` with its range of 64 bits, cut to an `int`. -/
def atoi (s : CStr) : Int :=
  let bs := s.val.dropWhile fun b => b == 32 || (9 ≤ b && b ≤ 13)
  let v : Int := match bs with
    | 45 :: ds => -(digitsValue ds 0 : Int)
    | 43 :: ds => digitsValue ds 0
    | ds => digitsValue ds 0
  let v := max (-2 ^ 63) (min v (2 ^ 63 - 1))
  (v + 2 ^ 31) % 2 ^ 32 - 2 ^ 31

namespace Mem

/-- The bytes that `strncpy (dst, s, n)` stores: `s`, cut or padded with NULs to `n` bytes. -/
def strncpyBytes (s : CStr) (n : Nat) : List UInt8 :=
  s.val.take n ++ List.replicate (n - s.length) 0

/-- `strncpy` to address `a`. -/
def strncpy (m : Mem) (a : Nat) (s : CStr) (n : Nat) : Mem := m.write a (strncpyBytes s n)

/-- The string in the array of `n` bytes at `a`. -/
def str (m : Mem) (a n : Nat) : CStr := cstr (m.read a n)

/-- `strncat (dst, s, n)` to the array of `k` bytes at `a`; nothing keeps it inside the array. -/
def strncat (m : Mem) (a k : Nat) (s : CStr) (n : Nat) : Mem :=
  m.write (a + (m.str a k).length) (s.val.take n ++ [0])

/-- What `vsnprintf (buf, n, …)` stores of the formatted text. -/
def vsnprintf (m : Mem) (a n : Nat) (text : List UInt8) : Mem :=
  if n = 0 then m else m.write a (text.take (n - 1) ++ [0])

/-- The array of `n` bytes at `a` holds a NUL. -/
def Terminated (m : Mem) (a n : Nat) : Prop := (0 : UInt8) ∈ m.read a n

end Mem

/-! ## Lemmas

First comparison, where the number of bytes compared decides between equality and being a prefix;
then what arrays hold.
-/

theorem cstr_of_not_mem {bs : List UInt8} (h : (0 : UInt8) ∉ bs) : (cstr bs).val = bs := by
  refine List.takeWhile_eq_self_iff.mpr fun b hb => ?_
  have : b ≠ 0 := fun he => h (he ▸ hb)
  simpa using this

/-- Nothing behind a NUL counts. -/
theorem cstr_append_nul (bs rest : List UInt8) : cstr (bs ++ 0 :: rest) = cstr bs := by
  refine Subtype.ext ?_
  show (bs ++ 0 :: rest).takeWhile (· != 0) = bs.takeWhile (· != 0)
  rw [List.takeWhile_append]
  split
  · rename_i hall
    rw [(List.takeWhile_prefix _).eq_of_length hall]
    exact List.append_nil bs
  · rfl

theorem cstr_append_zero (s : CStr) (bs : List UInt8) : cstr (s.val ++ 0 :: bs) = s := by
  rw [cstr_append_nul]
  exact Subtype.ext (cstr_of_not_mem s.property)

/-- Compared as far as both of them go, strings are the same or they differ. -/
theorem strncmpEq_iff_eq {a b : CStr} {n : Nat} (ha : a.length ≤ n) (hb : b.length ≤ n) :
    strncmpEq a b n = true ↔ a = b := by
  rw [strncmpEq, List.take_of_length_le ha, List.take_of_length_le hb, beq_iff_eq, Subtype.ext_iff]

/-- Compared as far as the first of them goes, the second may go on. -/
theorem strncmpEq_length_iff {a b : CStr} : strncmpEq a b a.length = true ↔ b.Extends a := by
  rw [strncmpEq, beq_iff_eq, CStr.Extends, List.prefix_iff_eq_take, CStr.length, List.take_length]

/-- Compared farther than the second of them goes, strings are the same or they differ. -/
theorem strncmpEq_iff_eq_of_lt {a b : CStr} {n : Nat} (hb : b.length < n) :
    strncmpEq a b n = true ↔ a = b := by
  refine ⟨fun h => ?_, fun h => h ▸ (strncmpEq_iff_eq (Nat.le_of_lt hb) (Nat.le_of_lt hb)).mpr rfl⟩
  refine (strncmpEq_iff_eq ?_ (Nat.le_of_lt hb)).mp h
  rw [strncmpEq, beq_iff_eq, List.take_of_length_le (Nat.le_of_lt hb)] at h
  have hlen : (a.val.take n).length < n := h ▸ hb
  rw [List.length_take] at hlen
  show a.val.length ≤ n
  omega

namespace CStr

variable {s t u : CStr}

theorem Extends.refl (s : CStr) : s.Extends s := List.prefix_refl s.val

theorem Extends.trans (h : s.Extends t) (h' : t.Extends u) : s.Extends u := List.IsPrefix.trans h' h

theorem Extends.length_le (h : s.Extends t) : t.length ≤ s.length := List.IsPrefix.length_le h

end CStr

theorem cstr_length_le (bs : List UInt8) : (cstr bs).length ≤ bs.length :=
  (List.takeWhile_sublist _).length_le

/-- Comparing a whole string with itself. -/
@[simp] theorem strncmpEq_self (s : CStr) (n : Nat) : strncmpEq s s n = true := by
  simp [strncmpEq]

namespace Mem

variable {m m' : Mem} {a b j k n : Nat} {s : CStr}

@[simp] theorem strncpyBytes_length (s : CStr) (n : Nat) : (strncpyBytes s n).length = n := by
  simp only [strncpyBytes, List.length_append, List.length_take, List.length_replicate,
    CStr.length]
  omega

theorem strncpy_apply_of_lt {x : Nat} (h : x < a) : m.strncpy a s n x = m x :=
  write_apply_of_lt h

theorem strncpy_apply_of_ge {x : Nat} (h : a + n ≤ x) : m.strncpy a s n x = m x :=
  write_apply_of_ge (by simpa using h)

theorem strncpy_apply_outside {x : Nat} (h : x < a ∨ a + n ≤ x) : m.strncpy a s n x = m x :=
  h.elim strncpy_apply_of_lt strncpy_apply_of_ge

/-- Byte `j` of the copy, NUL behind the end of the string. -/
theorem strncpy_apply_add (h : j < n) : m.strncpy a s n (a + j) = s.val.getD j 0 := by
  have hj : j < (strncpyBytes s n).length := by simpa using h
  rw [strncpy, write_apply_add hj, ← List.getD_eq_getElem _ 0 hj, strncpyBytes]
  rcases Nat.lt_or_ge j s.length with hlt | hge
  · have htake : j < (s.val.take n).length := by
      simp only [List.length_take, CStr.length] at *
      omega
    rw [List.getD_append _ _ _ _ htake]
    simp [List.getD, h]
  · have htake : (s.val.take n).length ≤ j := by
      simp only [List.length_take, CStr.length] at *
      omega
    rw [List.getD_append_right _ _ _ _ htake, List.getD_eq_default s.val 0 hge]
    simp only [List.getD, List.getElem?_replicate]
    split <;> rfl

/-- A string that is shorter than the copy comes back from any array that holds the copy. -/
theorem str_strncpy (hs : s.length < n) (hn : n ≤ k) : (m.strncpy a s n).str a k = s := by
  have hcopy : (m.strncpy a s n).read a n = strncpyBytes s n :=
    read_write_of_length (strncpyBytes_length s n)
  have hbytes : strncpyBytes s n = s.val ++ 0 :: List.replicate (n - s.length - 1) 0 := by
    rw [strncpyBytes, List.take_of_length_le (by simp only [CStr.length] at hs; omega),
      ← List.replicate_succ, show n - s.length - 1 + 1 = n - s.length from by omega]
  obtain ⟨j, rfl⟩ := Nat.exists_eq_add_of_le hn
  rw [str, read_add, hcopy, hbytes, List.append_assoc, List.cons_append]
  exact cstr_append_zero s _

theorem str_congr (h : ∀ k < n, m (a + k) = m' (a + k)) : m.str a n = m'.str a n := by
  rw [str, str, read_congr h]

/-- An array that starts with the bytes of a string and a NUL holds the string. -/
theorem str_of_bytes (hlen : s.length < n) (h : ∀ k ≤ s.length, m (a + k) = s.val.getD k 0) :
    m.str a n = s := by
  have hread : m.read a s.length = s.val := by
    refine List.ext_getElem (by simp [CStr.length]) fun k hk hk' => ?_
    have hk'' : k < s.length := hk'
    simp only [read, List.getElem_map, List.getElem_range]
    rw [h k (by omega), List.getD_eq_getElem _ _ hk']
  have hzero : m (a + s.length) = 0 := by
    rw [h _ (Nat.le_refl _)]
    exact List.getD_eq_default _ _ (Nat.le_refl _)
  rw [str, show n = s.length + (n - s.length - 1 + 1) by omega, read_add, read_succ, hread, hzero]
  exact cstr_append_zero s _

/-- The bytes of the string in an array. -/
theorem str_getD (h : j < (m.str a n).length) : m (a + j) = (m.str a n).val.getD j 0 := by
  have hpre : (m.str a n).val <+: m.read a n := List.takeWhile_prefix _
  have hj : j < (m.read a n).length := Nat.lt_of_lt_of_le h hpre.length_le
  rw [List.getD_eq_getElem _ _ h, hpre.getElem h]
  simp [read]

theorem strncat_apply_outside {x : Nat} (hs : s.length ≤ n) (hk : (m.str a k).length + s.length < k)
    (hx : x < a ∨ a + k ≤ x) : m.strncat a k s n x = m x := by
  have hlen : (s.val.take n ++ [0]).length = s.length + 1 := by
    rw [List.take_of_length_le hs, List.length_append, List.length_singleton, CStr.length]
  exact write_apply_outside hx (Nat.le_add_right ..) (by omega)

theorem vsnprintf_apply_outside {x : Nat} {text : List UInt8} (hx : x < a ∨ a + n ≤ x) :
    m.vsnprintf a n text x = m x := by
  unfold vsnprintf
  split
  · rfl
  · have hlen : (text.take (n - 1) ++ [0]).length ≤ n := by
      rw [List.length_append, List.length_take, List.length_singleton]
      omega
    exact write_apply_outside hx (Nat.le_refl a) (by omega)

/-- A byte after `vsnprintf` depends on what it was and on the text. -/
theorem vsnprintf_apply_congr {x : Nat} {text : List UInt8} (h : m x = m' x) :
    m.vsnprintf a n text x = m'.vsnprintf a n text x := by
  unfold vsnprintf
  split
  · exact h
  · simp only [write, h]

/-- A string appended to an array that has room for it. -/
theorem str_strncat (hs : s.length ≤ n) (hk : (m.str a k).length + s.length < k) :
    ((m.strncat a k s n).str a k).val = (m.str a k).val ++ s.val := by
  have hfree : (0 : UInt8) ∉ (m.str a k).val ++ s.val := fun h =>
    (List.mem_append.mp h).elim (m.str a k).property s.property
  have hstr : (m.strncat a k s n).str a k = ⟨(m.str a k).val ++ s.val, hfree⟩ := by
    refine str_of_bytes (by simpa [CStr.length] using hk) fun j hj => ?_
    simp only [CStr.length, List.length_append] at hj hs
    rw [strncat, List.take_of_length_le hs]
    rcases Nat.lt_or_ge j (m.str a k).length with hlt | hge
    · -- the old string stays
      rw [write_apply_of_lt (by omega), str_getD hlt, List.getD_append _ _ _ _ hlt]
    · obtain ⟨i, rfl⟩ := Nat.exists_eq_add_of_le hge
      simp only [CStr.length] at hj
      have hi : i < (s.val ++ [0]).length := by
        rw [List.length_append, List.length_singleton]
        omega
      rw [← Nat.add_assoc, write_apply_add hi, List.getD_append_right _ _ _ _ hge,
        ← List.getD_eq_getElem _ 0 hi]
      show (s.val ++ [0]).getD i 0 = s.val.getD ((m.str a k).val.length + i - _) 0
      rw [Nat.add_sub_cancel_left]
      rcases Nat.lt_or_ge i s.val.length with hlt | hge
      · rw [List.getD_append _ _ _ _ hlt]
      · rw [List.getD_append_right _ _ _ _ hge, List.getD_eq_default s.val 0 hge]
        cases i - s.val.length <;> rfl
  rw [hstr]

theorem str_vsnprintf {text : List UInt8} (hn : 0 < n) :
    (m.vsnprintf a n text).str a n = cstr (text.take (n - 1)) := by
  have hlen : (text.take (n - 1) ++ [0]).length ≤ n := by
    rw [List.length_append, List.length_take, List.length_singleton]
    omega
  have hread : (m.write a (text.take (n - 1) ++ [0])).read (a + 0) n = _ := read_write_overlay
  rw [Nat.add_zero, List.drop_zero, List.take_of_length_le hlen, List.append_assoc] at hread
  rw [str, vsnprintf, if_neg (Nat.ne_of_gt hn), hread]
  exact cstr_append_nul _ _

theorem terminated_iff : m.Terminated a n ↔ ∃ k < n, m (a + k) = 0 := by
  simp only [Terminated, read, List.mem_map, List.mem_range]

/-- An array holds the empty string exactly if it starts with a NUL. -/
theorem str_eq_nil_iff (hn : 0 < n) : (m.str a n).val = [] ↔ m a = 0 := by
  obtain ⟨n, rfl⟩ := Nat.exists_eq_succ_of_ne_zero (Nat.ne_of_gt hn)
  show ((m.read a (n + 1)).takeWhile (· != 0)) = [] ↔ _
  rw [read_succ, List.takeWhile_cons]
  split
  · rename_i hne
    simpa using hne
  · rename_i hzero
    simpa using hzero

end Mem
