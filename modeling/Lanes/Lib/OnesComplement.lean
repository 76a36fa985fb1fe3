import Mathlib.Data.List.Basic
import Mathlib.Tactic.Ring
import Mathlib.Algebra.BigOperators.Group.List.Basic

/-!
# One's complement sums of 16-bit words

The sum with end-around carry that the Internet checksum is made of. It is the representative of
the plain sum modulo `2 ^ 16 - 1` in which 0 stands for a list of zeros only, so that a checksum
verifies exactly when the plain sum is a positive multiple of `2 ^ 16 - 1`, in either byte order.
-/

namespace OnesComplement

/-- Addition of two 16-bit words with end-around carry. -/
def add (a b : Nat) : Nat := if a + b < 2 ^ 16 then a + b else a + b - (2 ^ 16 - 1)

/-- The one's complement sum of a list of words. -/
def sum (ws : List Nat) : Nat := ws.foldl add 0

/-- The words of a byte list, high byte first. A single byte at the end is no word. -/
def bigEndian : List UInt8 → List Nat
  | a :: b :: bs => (256 * a.toNat + b.toNat) :: bigEndian bs
  | _ => []

/-- The words of a byte list, low byte first. -/
def littleEndian : List UInt8 → List Nat
  | a :: b :: bs => (a.toNat + 256 * b.toNat) :: littleEndian bs
  | _ => []

/-! ## The sum and the plain sum

`Represents total s` determines `s`. The end-around carry keeps it from one word to the next, so the
sum is known from the plain sum alone, whatever the order of the words.
-/

/-- The number is the plain sum modulo `2 ^ 16 - 1`, and 0 only if that is 0. -/
structure Represents (total : Nat) (s : Nat) : Prop where
  lt : s < 2 ^ 16
  mod : s % (2 ^ 16 - 1) = total % (2 ^ 16 - 1)
  zero : s = 0 ↔ total = 0

theorem Represents.unique {total s s' : Nat} (h : Represents total s) (h' : Represents total s') :
    s = s' := by
  have hlt := h.lt
  have hlt' := h'.lt
  have hmod := h.mod.trans h'.mod.symm
  have hzero := h.zero.trans h'.zero.symm
  omega

theorem Represents.add {total s w : Nat} (h : Represents total s) (hw : w < 2 ^ 16) :
    Represents (total + w) (add s w) := by
  have hlt := h.lt
  have hmod := h.mod
  have hzero := h.zero
  unfold OnesComplement.add
  split
  · exact ⟨by omega, by omega, by omega⟩
  · exact ⟨by omega, by omega, by omega⟩

theorem foldl_represents {ws : List Nat} (hws : ∀ w ∈ ws, w < 2 ^ 16) {total s : Nat}
    (h : Represents total s) : Represents (total + ws.sum) (ws.foldl add s) := by
  induction ws generalizing total s with
  | nil => exact h
  | cons w ws ih =>
    rw [List.sum_cons, ← Nat.add_assoc]
    exact ih (fun w' hw' => hws w' (List.mem_cons_of_mem _ hw'))
      (h.add (hws w (List.mem_cons_self ..)))

theorem sum_represents {ws : List Nat} (hws : ∀ w ∈ ws, w < 2 ^ 16) :
    Represents ws.sum (sum ws) := by
  have hzero : Represents 0 0 := ⟨by decide, rfl, Iff.rfl⟩
  have := foldl_represents hws hzero
  rwa [Nat.zero_add] at this

/-- The order of the words does not matter. -/
theorem sum_perm {ws ws' : List Nat} (h : ws.Perm ws') (hws : ∀ w ∈ ws, w < 2 ^ 16) :
    sum ws = sum ws' := by
  have hrep := sum_represents hws
  rw [h.sum_eq] at hrep
  exact hrep.unique (sum_represents fun w hw => hws w (h.mem_iff.mpr hw))

/-- A checksum verifies when the plain sum is a positive multiple of `2 ^ 16 - 1`. -/
theorem sum_eq_max_iff {ws : List Nat} (hws : ∀ w ∈ ws, w < 2 ^ 16) :
    sum ws = 2 ^ 16 - 1 ↔ ws.sum % (2 ^ 16 - 1) = 0 ∧ 0 < ws.sum := by
  obtain ⟨hlt, hmod, hzero⟩ := sum_represents hws
  omega

/-- Adding the complement of a sum to a total makes a multiple of `2 ^ 16 - 1` if and only if the
sum represents the total. -/
theorem complement_mod_eq_zero {total s : Nat} (hs : s < 2 ^ 16) :
    (total + (2 ^ 16 - 1 - s)) % (2 ^ 16 - 1) = 0 ↔ s % (2 ^ 16 - 1) = total % (2 ^ 16 - 1) := by
  rcases Nat.lt_or_ge s (2 ^ 16 - 1) with hlt | hge
  · rw [Nat.mod_eq_of_lt hlt]
    constructor
    · intro h
      omega
    · intro h
      omega
  · rw [show s = 2 ^ 16 - 1 by omega, Nat.sub_self, Nat.add_zero, Nat.mod_self]
    exact eq_comm

/-! ## Byte order

`2 ^ 16` is one modulo `2 ^ 16 - 1`, so swapping the bytes of all words multiplies their sum by 256,
and multiplying twice brings it back.
-/

theorem bigEndian_lt (bs : List UInt8) : ∀ w ∈ bigEndian bs, w < 2 ^ 16 := by
  induction bs using bigEndian.induct with
  | case1 a b bs ih =>
    intro w hw
    rcases List.mem_cons.mp hw with rfl | hw
    · have := a.toNat_lt
      have := b.toNat_lt
      omega
    · exact ih w hw
  | case2 bs h =>
    intro w hw
    rw [bigEndian.eq_def] at hw
    split at hw
    · exact absurd rfl (h _ _ _)
    · cases hw

/-- Swapping the bytes of every word multiplies the sum by 256. -/
theorem bigEndian_sum_mod (bs : List UInt8) :
    (bigEndian bs).sum % (2 ^ 16 - 1) = 256 * (littleEndian bs).sum % (2 ^ 16 - 1) := by
  induction bs using bigEndian.induct with
  | case1 a b bs ih =>
    simp only [bigEndian, littleEndian, List.sum_cons]
    omega
  | case2 bs h =>
    rw [bigEndian.eq_def, littleEndian.eq_def]
    split
    · exact absurd rfl (h _ _ _)
    · rfl

/-- Whether the sum is a multiple of `2 ^ 16 - 1` does not depend on the byte order. -/
theorem bigEndian_sum_mod_eq_zero (bs : List UInt8) :
    (bigEndian bs).sum % (2 ^ 16 - 1) = 0 ↔ (littleEndian bs).sum % (2 ^ 16 - 1) = 0 := by
  have hmod := bigEndian_sum_mod bs
  constructor
  · intro h
    rw [hmod] at h
    -- multiply by 256 once more: `256 * 256` is one modulo `2 ^ 16 - 1`
    omega
  · intro h
    omega

end OnesComplement
