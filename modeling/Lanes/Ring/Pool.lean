import Lanes.Ring.Slots

/-!
# What `init_ring_buffer` leaves in the data pool

Every slot of a fresh pool starts with the header template and ends with the footer, so that the
validation at the end of `init_ring_buffer` never dies.

The slot loop writes the footer of a slot before its headers, and slot after slot. `initPool_fresh`
is the induction over its passes: a pass writes inside its own slot (`initSlotBytes_of_outside`) and
leaves that slot fresh (`initSlotBytes_fresh`), as long as no offset wraps on 32 bits.
`initRingBuffer_eq` then removes the validation from the function.
-/

namespace Lanes

/-- The bytes of the template: Ethernet header, then IPv4 header. -/
def Headers.bytes (hdr : Headers) : List UInt8 := hdr.eh.bytes ++ hdr.iph.bytes

@[simp] theorem Headers.bytes_length (hdr : Headers) : hdr.bytes.length = 34 := by
  simp [Headers.bytes]

/-- Slot `i` is as `init_ring_buffer` leaves it. -/
structure FreshSlot (mtu : Nat) (hdr : Headers) (pool : Mem) (i : Nat) : Prop where
  header : pool.read (i * (mtu + 4)) 34 = hdr.bytes
  footer : pool.read (i * (mtu + 4) + mtu) 4 = le32 ringFooter

section Init

variable {mtu n i x : Nat} {hdr : Headers} {pool : Mem}

/-- The product that places slot `i` does not wrap. -/
theorem mul32_of_le (hi : i ≤ n) (hpool : n * (mtu + 4) < 2 ^ 32) :
    mul32 i (mtu + 4) = i * (mtu + 4) :=
  Nat.mod_eq_of_lt (lt_of_le_of_lt (Nat.mul_le_mul_right _ hi) hpool)

theorem initSlot_footer (hi : i < n) (hpool : n * (mtu + 4) < 2 ^ 32) (r : RNG) :
    (initSlot (mtu + 4) i r).footer = i * (mtu + 4) + mtu := by
  have hmul : mul32 (i + 1) (mtu + 4) = (i + 1) * (mtu + 4) := mul32_of_le hi hpool
  simp only [initSlot, hmul, Nat.add_mul]
  omega

/-- The slot loop stays inside the slot of its pass. -/
theorem initSlotBytes_of_outside (h34 : 34 ≤ mtu) (hi : i < n) (hpool : n * (mtu + 4) < 2 ^ 32)
    (h : x < i * (mtu + 4) ∨ i * (mtu + 4) + (mtu + 4) ≤ x) :
    initSlotBytes (initSlot (mtu + 4) i zeroSlot) hdr pool x = pool x := by
  have hplace := initSlot_placed hi hpool zeroSlot
  have hfoot := initSlot_footer hi hpool zeroSlot
  simp only [initSlotBytes, hplace.ip, hplace.eth, hfoot]
  rcases h with h | h
  · rw [Mem.write_apply_of_lt (by omega), Mem.write_apply_of_lt (by omega),
      Mem.write_apply_of_lt (by omega)]
  · rw [Mem.write_apply_of_ge (by simp; omega), Mem.write_apply_of_ge (by simp; omega),
      Mem.write_apply_of_ge (by simp; omega)]

theorem initSlotBytes_fresh (h34 : 34 ≤ mtu) (hi : i < n) (hpool : n * (mtu + 4) < 2 ^ 32) :
    FreshSlot mtu hdr (initSlotBytes (initSlot (mtu + 4) i zeroSlot) hdr pool) i := by
  have hplace := initSlot_placed hi hpool zeroSlot
  have hfoot := initSlot_footer hi hpool zeroSlot
  have hip : (initSlot (mtu + 4) i zeroSlot).ipheader = i * (mtu + 4) + 14 := by
    rw [hplace.ip, hplace.eth]
  constructor
  · have hread : ∀ (m : Mem) a, ((m.write a hdr.eh.bytes).write (a + 14) hdr.iph.bytes).read a 34 =
        hdr.bytes := fun m a => by
      have heh : ((m.write a hdr.eh.bytes).write (a + 14) hdr.iph.bytes).read a 14 =
          hdr.eh.bytes := by
        rw [Mem.read_write_disjoint (by omega)]
        exact Mem.read_write_of_length hdr.eh.bytes_length
      have hiph : ((m.write a hdr.eh.bytes).write (a + 14) hdr.iph.bytes).read (a + 14) 20 =
          hdr.iph.bytes := Mem.read_write_of_length hdr.iph.bytes_length
      rw [show 34 = 14 + 20 from rfl, Mem.read_add, heh, hiph, Headers.bytes]
    simp only [initSlotBytes, hip, hplace.eth]
    exact hread _ _
  · simp only [initSlotBytes, hip, hplace.eth, hfoot]
    rw [Mem.read_write_disjoint (by simp; omega), Mem.read_write_disjoint (by simp; omega)]
    exact Mem.read_write_same

/-- After `n` passes the first `n` slots are fresh: each pass keeps the slots before it. -/
theorem initPool_fresh (hdr : Headers) (pool : Mem) (h34 : 34 ≤ mtu)
    (hpool : n * (mtu + 4) < 2 ^ 32) (hi : i < n) :
    FreshSlot mtu hdr (initPool (mtu + 4) hdr pool n) i := by
  induction n with
  | zero => omega
  | succ n ih =>
    rcases Nat.lt_succ_iff_lt_or_eq.mp hi with hlt | rfl
    · have hfresh := ih (lt_of_le_of_lt (Nat.mul_le_mul_right _ (Nat.le_succ n)) hpool) hlt
      have hbelow : (i + 1) * (mtu + 4) ≤ n * (mtu + 4) := Nat.mul_le_mul_right _ hlt
      rw [Nat.add_mul] at hbelow
      have hkeep : ∀ x, x < n * (mtu + 4) → initPool (mtu + 4) hdr pool (n + 1) x =
          initPool (mtu + 4) hdr pool n x := fun x hx =>
        initSlotBytes_of_outside h34 (Nat.lt_succ_self n) hpool (Or.inl hx)
      constructor
      · rw [← hfresh.header]
        exact Mem.read_congr fun k hk => hkeep _ (by omega)
      · rw [← hfresh.footer]
        exact Mem.read_congr fun k hk => hkeep _ (by omega)
    · exact initSlotBytes_fresh h34 (Nat.lt_succ_self i) hpool

/-- `init_ring_buffer` succeeds whenever its allocations do. -/
theorem initRingBuffer_eq {size : Nat} (q : Q) (hdr : Headers) (h34 : 34 ≤ mtu)
    (hmtu : mtu + 4 < 2 ^ 32) (hsize : size < 2 ^ 32) :
    initRingBuffer q size mtu hdr true =
      some ({ q with
        bsz := mtu + 4
        rsz := size / (mtu + 4)
        lock := false
        full := false
        R := fun i => if i < size / (mtu + 4) then initSlot (mtu + 4) i zeroSlot else zeroSlot },
        initPool (mtu + 4) hdr (fun _ => 0) (size / (mtu + 4))) := by
  have hbsz : (mtu + 4) % 2 ^ 32 = mtu + 4 := Nat.mod_eq_of_lt hmtu
  have hpool : size / (mtu + 4) * (mtu + 4) < 2 ^ 32 :=
    lt_of_le_of_lt (Nat.div_mul_le_self _ _) hsize
  unfold initRingBuffer
  simp only [hbsz, if_true]
  refine if_pos (List.all_eq_true.mpr fun i hi => ?_)
  have hi' : i < size / (mtu + 4) := List.mem_range.mp hi
  have hfoot := (initPool_fresh hdr (fun _ => 0) h34 hpool hi').footer
  rw [if_pos hi', validRNG, initSlot_footer hi' hpool, hfoot]
  simp [initSlot]

/-- A fresh ring: every slot is in its place, with the template and the footer in it. -/
theorem initRingBuffer_fresh {size : Nat} {q q' : Q} (h34 : 34 ≤ mtu) (hmtu : mtu + 4 < 2 ^ 32)
    (hsize : size < 2 ^ 32) (hinit : initRingBuffer q size mtu hdr true = some (q', pool)) :
    Layout mtu q' ∧ ∀ i < q'.rsz, FreshSlot mtu hdr pool i := by
  rw [initRingBuffer_eq q hdr h34 hmtu hsize] at hinit
  cases hinit
  have hpool : size / (mtu + 4) * (mtu + 4) < 2 ^ 32 :=
    lt_of_le_of_lt (Nat.div_mul_le_self _ _) hsize
  refine ⟨fun i hi => ?_, fun i hi => initPool_fresh hdr (fun _ => 0) h34 hpool hi⟩
  show Placed mtu i (if i < size / (mtu + 4) then _ else _)
  rw [if_pos hi]
  exact initSlot_placed hi hpool _

end Init

end Lanes
