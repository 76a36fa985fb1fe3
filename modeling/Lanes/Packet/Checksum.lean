import Lanes.Lib.OnesComplement
import Lanes.Packet.Transfer

/-!
# The Internet checksum

`csum` adds the words of a buffer in an `unsigned long` without folding a carry, folds twice at the
end and keeps the complement of the low 16 bits. Up to 65537 words the plain sum fits 32 bits, so
that the two folds reach the one's complement sum.

What that sum is, and that neither the order of the words nor that of their bytes matters to whether
it verifies, is `Lib.OnesComplement`. Here `csum_toNat` says that `csum` is its complement, whatever
the width of `unsigned long` from 32 bits on, and `csum_internet` that a buffer verifies once the
checksum is stored in it.
-/

namespace Lanes

section Checksum

variable {w : Nat}

/-! ## The words and their sum

A sum that fits its `unsigned long` is the plain sum: no addition of the loop wraps.
-/

theorem words_lt (buf : List UInt16) : ∀ v ∈ buf.map UInt16.toNat, v < 2 ^ 16 := by
  intro v hv
  obtain ⟨word, -, rfl⟩ := List.mem_map.mp hv
  exact word.toNat_lt

theorem words_sum_le (buf : List UInt16) :
    (buf.map UInt16.toNat).sum ≤ buf.length * (2 ^ 16 - 1) := by
  induction buf with
  | nil => exact Nat.le_refl 0
  | cons word buf ih =>
    have := word.toNat_lt
    rw [List.map_cons, List.sum_cons, List.length_cons, Nat.add_mul]
    omega

/-- 65537 words are the most whose plain sum fits 32 bits whatever they are. -/
theorem words_sum_lt {buf : List UInt16} (h : buf.length ≤ 65537) :
    (buf.map UInt16.toNat).sum < 2 ^ 32 := by
  have hle := words_sum_le buf
  have : buf.length * (2 ^ 16 - 1) ≤ 65537 * (2 ^ 16 - 1) := Nat.mul_le_mul_right _ h
  omega

/-- Adding a word that fits does not overflow the `unsigned long`. -/
theorem csum_foldl {buf : List UInt16} {s : Nat}
    (h : s + (buf.map UInt16.toNat).sum < 2 ^ w) :
    buf.foldl (fun sum word => (sum + word.toNat) % 2 ^ w) s =
      s + (buf.map UInt16.toNat).sum := by
  induction buf generalizing s with
  | nil => rfl
  | cons word buf ih =>
    rw [List.map_cons, List.sum_cons] at h
    have hmod : (s + word.toNat) % 2 ^ w = s + word.toNat := Nat.mod_eq_of_lt (by omega)
    rw [List.foldl_cons, hmod, ih (by omega), List.map_cons, List.sum_cons, Nat.add_assoc]

/-! ## Folding the carries

A fold keeps the sum modulo `2 ^ 16 - 1`. The first one leaves at most one carry, the second at most
a carry into bit 16, where the result is cut.
-/

/-- One fold of `csum`: the carries above the low 16 bits come back in at the bottom. -/
def foldCarry (total : Nat) : Nat := total / 2 ^ 16 + total % 2 ^ 16

/-- Two folds bring a sum of 32 bits down to its one's complement representative. The second one
may leave a carry in bit 16, which the cast to 16 bits drops. -/
theorem fold_represents {total : Nat} (h : total < 2 ^ 32) :
    OnesComplement.Represents total ((foldCarry total + foldCarry total / 2 ^ 16) % 2 ^ 16) := by
  obtain ⟨once, honce⟩ : ∃ once, once = foldCarry total := ⟨_, rfl⟩
  rw [← honce]
  unfold foldCarry at honce
  have hmod : once % (2 ^ 16 - 1) = total % (2 ^ 16 - 1) := by omega
  rcases Nat.lt_or_ge once (2 ^ 16) with hlt | hge
  · -- no carry is left: the second fold changes nothing
    rw [show (once + once / 2 ^ 16) % 2 ^ 16 = once by omega]
    exact ⟨hlt, hmod, by omega⟩
  · have hhigh : total / 2 ^ 16 < 2 ^ 16 := by omega
    have hone : once / 2 ^ 16 = 1 := by omega
    rw [hone, show (once + 1) % 2 ^ 16 = once - (2 ^ 16 - 1) by omega]
    exact ⟨by omega, by omega, by omega⟩

/-- The complement taken over the whole `unsigned long` has the complement of the low 16 bits at
the bottom. -/
theorem complement_low {s : Nat} (hw : 32 ≤ w) (hs : s < 2 ^ 32) :
    (2 ^ w - 1 - s) % 2 ^ 16 = 2 ^ 16 - 1 - s % 2 ^ 16 := by
  obtain ⟨high, hhigh⟩ : ∃ high, 2 ^ w = 2 ^ 32 * high :=
    ⟨2 ^ (w - 32), by rw [← Nat.pow_add, Nat.add_sub_cancel' hw]⟩
  have hpos : 0 < high := Nat.pos_of_ne_zero fun h0 => by
    rw [h0, Nat.mul_zero] at hhigh
    exact absurd hhigh (Nat.ne_of_gt (Nat.two_pow_pos w))
  rw [hhigh]
  omega

/-- `csum` is the complement of the one's complement sum. -/
theorem csum_toNat {buf : List UInt16} (hw : 32 ≤ w) (h : buf.length ≤ 65537) :
    (csum w buf).toNat = 2 ^ 16 - 1 - OnesComplement.sum (buf.map UInt16.toNat) := by
  have hpow : 2 ^ 32 ≤ 2 ^ w := Nat.pow_le_pow_right (by decide) hw
  have hlt := words_sum_lt h
  have hfoldl := @csum_foldl w buf 0 (by omega)
  rw [Nat.zero_add] at hfoldl
  have hrep := fold_represents hlt
  have htwice : foldCarry (buf.map UInt16.toNat).sum +
      foldCarry (buf.map UInt16.toNat).sum / 2 ^ 16 < 2 ^ 32 := by
    unfold foldCarry
    omega
  calc (csum w buf).toNat
      = (2 ^ w - 1 - (foldCarry (buf.map UInt16.toNat).sum +
          foldCarry (buf.map UInt16.toNat).sum / 2 ^ 16) % 2 ^ w) % 2 ^ 16 := by
        simp only [csum, hfoldl, UInt16.toNat_ofNat', foldCarry]
    _ = 2 ^ 16 - 1 - (foldCarry (buf.map UInt16.toNat).sum +
          foldCarry (buf.map UInt16.toNat).sum / 2 ^ 16) % 2 ^ 16 := by
        rw [Nat.mod_eq_of_lt (Nat.lt_of_lt_of_le htwice hpow), complement_low hw htwice]
    _ = 2 ^ 16 - 1 - OnesComplement.sum (buf.map UInt16.toNat) := by
        rw [hrep.unique (OnesComplement.sum_represents (words_lt buf))]

/-! ## Storing the checksum -/

/-- A word that was zero takes the stored value into the sum. -/
theorem words_sum_set {buf : List UInt16} {i : Nat} (hi : i < buf.length) (hzero : buf[i] = 0)
    (c : UInt16) :
    ((buf.set i c).map UInt16.toNat).sum = (buf.map UInt16.toNat).sum + c.toNat := by
  induction buf generalizing i with
  | nil => cases hi
  | cons word buf ih =>
    cases i with
    | zero =>
      rw [List.getElem_cons_zero] at hzero
      subst hzero
      simp only [List.set_cons_zero, List.map_cons, List.sum_cons, UInt16.toNat_zero]
      omega
    | succ i =>
      rw [List.getElem_cons_succ] at hzero
      simp only [List.set_cons_succ, List.map_cons, List.sum_cons,
        ih (Nat.lt_of_succ_lt_succ hi) hzero, Nat.add_assoc]

/-- With the complement of its sum stored in it, a list sums to all ones. -/
theorem sum_set_csum {buf : List UInt16} {i : Nat} (hw : 32 ≤ w) (h : buf.length ≤ 65537)
    (hi : i < buf.length) (hzero : buf[i] = 0) :
    OnesComplement.sum ((buf.set i (csum w buf)).map UInt16.toNat) = 2 ^ 16 - 1 := by
  have hrep := OnesComplement.sum_represents (words_lt buf)
  rw [OnesComplement.sum_eq_max_iff (words_lt _), words_sum_set hi hzero, csum_toNat hw h]
  refine ⟨(OnesComplement.complement_mod_eq_zero hrep.lt).mpr hrep.mod, ?_⟩
  -- a sum that is zero is complemented to 0xFFFF
  have hnone := hrep.zero
  omega

/-- **The Internet checksum.** `csum` is the complement of the one's complement sum of the words,
in whatever order they are added, and the list verifies once it is stored in a word that was
zero. -/
theorem csum_internet (hw : 33 ≤ w) (buf : List UInt16) (h : buf.length ≤ 65537) :
    (∀ ws : List UInt16, ws.Perm buf →
      (csum w buf).toNat = 2 ^ 16 - 1 - OnesComplement.sum (ws.map UInt16.toNat)) ∧
    ∀ (i : Nat) (hi : i < buf.length), buf[i] = 0 → csum w (buf.set i (csum w buf)) = 0 := by
  refine ⟨fun ws hws => ?_, fun i hi hzero => ?_⟩
  · rw [OnesComplement.sum_perm (hws.map _) (words_lt ws)]
    exact csum_toNat (by omega) h
  · apply UInt16.toNat.inj
    rw [csum_toNat (by omega) (by rwa [List.length_set]), sum_set_csum (by omega) h hi hzero,
      Nat.sub_self, UInt16.toNat_zero]

/-- Stored in front of the word `0xFFFF`, and with the words added in the other order. -/
theorem csum_internet_two :
    (csum 64 [0, 0xFFFF]).toNat =
        2 ^ 16 - 1 - OnesComplement.sum ([(0xFFFF : UInt16), 0].map UInt16.toNat) ∧
      csum 64 ([0, 0xFFFF].set 0 (csum 64 [0, 0xFFFF])) = 0 :=
  have h := csum_internet (w := 64) (by decide) [0, 0xFFFF] (by decide)
  ⟨h.1 [0xFFFF, 0] (List.Perm.swap ..), h.2 0 (by decide) rfl⟩

end Checksum

end Lanes
