import Mathlib.Data.Nat.Digits.Defs
import Mathlib.Tactic.Ring
import Lanes.Lib.CString

/-!
# Decimal numbers

`decimal n` is the string that is written for `n`, and `atoi` reads it back. The digits come from
`Nat.digits`, with the last one first, so the string is their reverse; that no digit is a NUL makes
it a C string, and that none is a blank or a sign takes `atoi` straight to the digits.

* `digitsValue_reverse` relates the loop of `atoi`, which multiplies what it has by ten, to
  `Nat.ofDigits`.
* `atoi_decimal` is the round trip, for the numbers that an `int` holds.
-/

/-- The character of a decimal digit. -/
def digitByte (d : Nat) : UInt8 := (48 + d).toUInt8

section Digits

variable {d : Nat}

theorem digitByte_toNat (h : d < 10) : (digitByte d).toNat = 48 + d := by
  rw [digitByte, UInt8.toNat_ofNat']
  omega

theorem digitByte_range (h : d < 10) : 48 ≤ digitByte d ∧ digitByte d ≤ 57 := by
  rw [UInt8.le_iff_toNat_le, UInt8.le_iff_toNat_le, digitByte_toNat h]
  exact ⟨Nat.le_add_right 48 d, show 48 + d ≤ 57 by omega⟩

theorem digitByte_sub (h : d < 10) : (digitByte d - 48).toNat = d := by
  rw [UInt8.toNat_sub_of_le _ _ (digitByte_range h).1, digitByte_toNat h]
  exact Nat.add_sub_cancel_left 48 d

end Digits

/-- The number in decimal digits. -/
def decimal (n : Nat) : CStr where
  val := (Nat.digits 10 n).reverse.map digitByte
  property h := by
    obtain ⟨d, hd, hzero⟩ := List.mem_map.mp h
    have hrange := digitByte_range (Nat.digits_lt_base (by decide) (List.mem_reverse.mp hd))
    rw [hzero] at hrange
    exact absurd hrange.1 (by decide)

/-- The value of digits with the last one first. -/
theorem digitsValue_reverse {ds : List Nat} (h : ∀ d ∈ ds, d < 10) :
    digitsValue (ds.reverse.map digitByte) 0 = Nat.ofDigits 10 ds := by
  have happend : ∀ (xs : List Nat) (bs : List UInt8) (acc : Nat), (∀ d ∈ xs, d < 10) →
      digitsValue (xs.map digitByte ++ bs) acc =
        digitsValue bs (digitsValue (xs.map digitByte) acc) := by
    -- what comes before is the accumulator of what comes after
    intro xs bs
    induction xs with
    | nil => exact fun _ _ => rfl
    | cons x xs ih =>
      intro acc hxs
      have hrange := digitByte_range (hxs x (List.mem_cons_self ..))
      simp only [List.map_cons, List.cons_append, digitsValue, if_pos hrange]
      exact ih _ fun d hd => hxs d (List.mem_cons_of_mem _ hd)
  induction ds with
  | nil => rfl
  | cons d ds ih =>
    have hd := h d (List.mem_cons_self ..)
    have hds : ∀ d ∈ ds, d < 10 := fun d hd => h d (List.mem_cons_of_mem _ hd)
    rw [List.reverse_cons, List.map_append,
      happend _ _ _ fun d hd => hds d (List.mem_reverse.mp hd), ih hds]
    simp only [List.map_cons, List.map_nil, digitsValue, if_pos (digitByte_range hd),
      digitByte_sub hd, Nat.ofDigits_cons]
    exact Nat.add_comm ..

/-- `atoi` of a number that an `int` holds. -/
theorem atoi_decimal {n : Nat} (h : n < 2 ^ 31) : atoi (decimal n) = n := by
  have hlt : ∀ d ∈ Nat.digits 10 n, d < 10 := fun d hd => Nat.digits_lt_base (by decide) hd
  have hvalue : digitsValue (decimal n).val 0 = n := by
    rw [show (decimal n).val = (Nat.digits 10 n).reverse.map digitByte from rfl,
      digitsValue_reverse hlt, Nat.ofDigits_digits]
  have hdigit : ∀ b ∈ (decimal n).val, 48 ≤ b := by
    intro b hb
    obtain ⟨d, hd, rfl⟩ := List.mem_map.mp hb
    exact (digitByte_range (hlt d (List.mem_reverse.mp hd))).1
  have hrange : ((max (-2 ^ 63) (min (n : Int) (2 ^ 63 - 1))) + 2 ^ 31) % 2 ^ 32 - 2 ^ 31 = n := by
    omega
  unfold atoi
  cases hval : (decimal n).val with
  | nil =>
    rw [hval] at hvalue
    rw [← hrange, ← hvalue]
    rfl
  | cons b bs =>
    -- no blank and no sign stands in front of a digit
    have hb : 48 ≤ b := hdigit b (hval ▸ List.mem_cons_self ..)
    rw [UInt8.le_iff_toNat_le, show UInt8.toNat 48 = 48 from rfl] at hb
    have hlow : ∀ c : UInt8, c.toNat < 48 → b ≠ c := fun c hc he => by
      rw [he] at hb
      omega
    have hle : ¬ b ≤ 13 := by
      rw [UInt8.le_iff_toNat_le, show UInt8.toNat 13 = 13 from rfl]
      omega
    rw [List.dropWhile_cons_of_neg (by simp [hlow 32 (by decide), hle])]
    rw [hval] at hvalue
    simp only
    split
    · rename_i ds heq
      exact absurd (List.cons.inj heq).1 (hlow 45 (by decide))
    · rename_i ds heq
      exact absurd (List.cons.inj heq).1 (hlow 43 (by decide))
    · rw [hvalue]
      exact hrange
