import Lanes.Ring.Pool

/-!
# Slots keep apart

`init_ring_buffer` lays the slots out one after the other, each with the header template in front
and the footer behind. The threads that hold a slot later bound their writes by the MTU of the
session, not by the size of a slot. Those bounds leave the footer alone, so that `valid_RNG` stays
true and no slot sees a write to another one.

**`slot_integrity`** states both, the layout of the fresh ring and what any sequence of writes
keeps of it, for every size and MTU; the offsets are computed on 32 bits as in the source, and the
bound on the size is what keeps them from wrapping.
-/

namespace Lanes

/-! ## The writes into a slot

The order of the writes is left open, and so is which thread makes them: a sequence of writes is
any list of them, each with its slot. -/

/-- What a thread does to a slot it holds: the parts of the read loops of `tx_io` and `rx_io`, each
on its own. -/
inductive SlotWrite where
  /-- `tx_io` reads at `data`; `none` is a read that fails. -/
  | txRead (got : Option (List UInt8))
  /-- `tx_io` updates the header, for whatever length the slot has. -/
  | txUpdate
  /-- `rx_io` reads at `ethernet_frame`; `none` is a read that fails. -/
  | rxRead (got : Option (List UInt8))
  /-- `data->len` is assigned without a read, as `tx`, `rx` and `reset_ring` do. -/
  | setLen (len : Int)

def SlotWrite.apply (mtu : Nat) (pool : Mem) (r : RNG) : SlotWrite → Mem × RNG
  | .txRead none => (pool, { r with len := -1 })
  | .txRead (some frame) =>
    let bytes := limitedRead (txReadCount mtu) frame
    (pool.write r.data bytes, { r with len := bytes.length })
  | .txUpdate => (txHeader pool r, r)
  | .rxRead got => rxIoRead mtu pool r got
  | .setLen len => (pool, { r with len := len })

/-- One pass of `tx_io` is a read followed by an update. -/
theorem txIoRead_eq_writes (mtu : Nat) (pool : Mem) (r : RNG) (frame : List UInt8) :
    txIoRead mtu pool r (some frame) =
      let read := SlotWrite.apply mtu pool r (.txRead (some frame))
      SlotWrite.apply mtu read.1 read.2 .txUpdate :=
  rfl

/-- A sequence of writes, each into the slot named with it. -/
def writeSlots (mtu : Nat) : Mem → Q → List (Nat × SlotWrite) → Mem × Q
  | pool, q, [] => (pool, q)
  | pool, q, (i, w) :: rest =>
    let (pool, r) := w.apply mtu pool (q.R i)
    writeSlots mtu pool (q.setSlot i r) rest

/-- All bytes of slot `j`, header and footer included. -/
def slotBytes (mtu : Nat) (pool : Mem) (j : Nat) : List UInt8 :=
  pool.read (j * (mtu + 4)) (mtu + 4)

/-- The ring as `init_ring_buffer` lays it out over a pool of `(rsz + 1) * bsz` bytes. -/
structure FreshRing (size mtu : Nat) (hdr : Headers) (q : Q) (pool : Mem) : Prop where
  bsz : q.bsz = mtu + 4
  rsz : q.rsz = size / (mtu + 4)
  layout : Layout mtu q
  footer : ∀ i < q.rsz, (q.R i).footer = (q.R i).ethernetFrame + mtu
  /-- The largest offset that the slot loop computes. -/
  noWrap : q.rsz * (mtu + 4) < 2 ^ 32
  inside : ∀ i < q.rsz, (q.R i).ethernetFrame + q.bsz ≤ (q.rsz + 1) * q.bsz
  disjoint : ∀ i j, i < j → j < q.rsz → (q.R i).ethernetFrame + q.bsz ≤ (q.R j).ethernetFrame
  fresh : ∀ i < q.rsz, FreshSlot mtu hdr pool i

/-- Every slot is where `init_ring_buffer` put it and carries both marks. -/
structure Intact (mtu : Nat) (pool : Mem) (q : Q) : Prop where
  layout : Layout mtu q
  header : ∀ i < q.rsz, (q.R i).header = ringHeader
  footer : ∀ i < q.rsz, (q.R i).footer = i * (mtu + 4) + mtu
  mark : ∀ i < q.rsz, pool.read (i * (mtu + 4) + mtu) 4 = le32 ringFooter

section Writes

variable {mtu size n i j x : Nat} {pool : Mem} {r : RNG} {q q' : Q} {hdr : Headers}

theorem limitedRead_length_le (count : Nat) (frame : List UInt8) :
    (limitedRead count frame).length ≤ count := by
  simp [limitedRead]

/-- A slot ends before the next one starts. -/
theorem slot_end_le (h : i < j) : i * (mtu + 4) + (mtu + 4) ≤ j * (mtu + 4) := by
  have hle : (i + 1) * (mtu + 4) ≤ j * (mtu + 4) := Nat.mul_le_mul_right _ h
  rwa [Nat.add_mul, Nat.one_mul] at hle

/-- A byte of slot `j` or of the footer of slot `i` is none of the `mtu` bytes of slot `i`. -/
theorem outside_of_slot (hne : j ≠ i) (h : x < mtu + 4) :
    j * (mtu + 4) + x < i * (mtu + 4) ∨ i * (mtu + 4) + mtu ≤ j * (mtu + 4) + x := by
  rcases Nat.lt_or_gt_of_ne hne with hlt | hgt
  · have hend : j * (mtu + 4) + (mtu + 4) ≤ i * (mtu + 4) := slot_end_le hlt
    omega
  · have hend : i * (mtu + 4) + (mtu + 4) ≤ j * (mtu + 4) := slot_end_le hgt
    omega

/-! ## One write

A write is bounded by the MTU, hence by the bytes of its slot below the footer. -/

/-- A write changes no byte outside the first `mtu` bytes of its slot. -/
theorem SlotWrite.apply_of_outside (h34 : 34 ≤ mtu) (hmtu : mtu < 2 ^ 31) (hr : Placed mtu i r)
    (w : SlotWrite) (h : x < i * (mtu + 4) ∨ i * (mtu + 4) + mtu ≤ x) :
    (w.apply mtu pool r).1 x = pool x := by
  have heth := hr.eth
  have hip := hr.ip
  have hdata := hr.data
  have hwrite : ∀ a (bs : List UInt8), i * (mtu + 4) ≤ a →
      a + bs.length ≤ i * (mtu + 4) + mtu → pool.write a bs x = pool x := fun _ _ =>
    Mem.write_apply_outside h
  cases w with
  | txRead got =>
    cases got with
    | none => rfl
    | some frame =>
      -- at most `mtu - 34` bytes from byte 34 of the slot on
      have hlen := limitedRead_length_le (txReadCount mtu) frame
      rw [txReadCount_eq h34 hmtu] at hlen
      exact hwrite _ _ (by omega) (by rw [txReadCount_eq h34 hmtu]; omega)
  | txUpdate => exact txHeader_of_outside (by omega)
  | rxRead got =>
    cases got with
    | none => rfl
    | some frame =>
      -- at most `mtu` bytes from the start of the slot on
      have hlen := limitedRead_length_le mtu frame
      exact hwrite _ _ (by omega) (by omega)
  | setLen len => rfl

theorem SlotWrite.apply_same (w : SlotWrite) : SamePlace r (w.apply mtu pool r).2 := by
  rcases w with (_ | _) | _ | (_ | _) | _ <;> exact ⟨rfl, rfl, rfl⟩

/-- A write moves neither the mark at the start of the slot structure nor the pointer to the one
at its end. -/
theorem SlotWrite.apply_marks (mtu : Nat) (pool : Mem) (r : RNG) (w : SlotWrite) :
    (w.apply mtu pool r).2.header = r.header ∧ (w.apply mtu pool r).2.footer = r.footer := by
  rcases w with (_ | _) | _ | (_ | _) | _ <;> exact ⟨rfl, rfl⟩

theorem slotBytes_apply (h34 : 34 ≤ mtu) (hmtu : mtu < 2 ^ 31) (hr : Placed mtu i r) (w : SlotWrite)
    (hne : j ≠ i) : slotBytes mtu (w.apply mtu pool r).1 j = slotBytes mtu pool j :=
  Mem.read_congr fun _ hk => w.apply_of_outside h34 hmtu hr (outside_of_slot hne hk)

/-! ## Any sequence of writes

Induction on the list: a write keeps every slot intact, the one written to included. -/

theorem Intact.write (h34 : 34 ≤ mtu) (hmtu : mtu < 2 ^ 31) (h : Intact mtu pool q) (hi : i < q.rsz)
    (w : SlotWrite) :
    Intact mtu (w.apply mtu pool (q.R i)).1 (q.setSlot i (w.apply mtu pool (q.R i)).2) := by
  have hmarks := SlotWrite.apply_marks mtu pool (q.R i) w
  refine ⟨h.layout.of_same rfl fun _ => samePlace_update w.apply_same _, fun k hk => ?_,
    fun k hk => ?_, fun k hk => ?_⟩
  · rw [← h.header k hk]
    by_cases hki : k = i
    · subst hki
      simpa [Q.setSlot] using hmarks.1
    · simp [Q.setSlot, Function.update_of_ne hki]
  · rw [← h.footer k hk]
    by_cases hki : k = i
    · subst hki
      simpa [Q.setSlot] using hmarks.2
    · simp [Q.setSlot, Function.update_of_ne hki]
  · rw [← h.mark k hk]
    refine Mem.read_congr fun b hb => w.apply_of_outside h34 hmtu (h.layout i hi) ?_
    -- the footer lies behind the bytes of its own slot and inside no other one
    by_cases hki : k = i
    · subst hki
      omega
    · rw [Nat.add_assoc]
      exact outside_of_slot hki (by omega)

theorem Intact.writes (h34 : 34 ≤ mtu) (hmtu : mtu < 2 ^ 31) (writes : List (Nat × SlotWrite))
    (h : Intact mtu pool q) (hin : ∀ e ∈ writes, e.1 < q.rsz) :
    (writeSlots mtu pool q writes).2.rsz = q.rsz ∧
      Intact mtu (writeSlots mtu pool q writes).1 (writeSlots mtu pool q writes).2 := by
  induction writes generalizing pool q with
  | nil => exact ⟨rfl, h⟩
  | cons e rest ih =>
    exact ih (h.write h34 hmtu (hin e (List.mem_cons_self ..)) e.2)
      fun e' he' => hin e' (List.mem_cons_of_mem _ he')

theorem Intact.valid (h : Intact mtu pool q) (hi : i < q.rsz) : validRNG pool (q.R i) = true := by
  simp [validRNG, h.header i hi, h.footer i hi, h.mark i hi]

/-! ## The fresh ring

What `init_ring_buffer` lays out, from the results about the pool in `Ring/Pool.lean`. -/

/-- What `init_ring_buffer` returns, for an MTU that fits and a size that is an `int`. -/
theorem freshRing_of_init (h34 : 34 ≤ mtu) (hmtu : mtu ≤ 65535) (hsize : size < 2 ^ 31)
    (hinit : initRingBuffer q size mtu hdr true = some (q', pool)) :
    FreshRing size mtu hdr q' pool ∧ Intact mtu pool q' := by
  obtain ⟨hlayout, hfresh⟩ := initRingBuffer_fresh h34 (by omega) (by omega) hinit
  rw [initRingBuffer_eq q hdr h34 (by omega) (by omega)] at hinit
  cases hinit
  have hpool : size / (mtu + 4) * (mtu + 4) < 2 ^ 32 :=
    lt_of_le_of_lt (Nat.div_mul_le_self _ _) (by omega)
  have hslot : ∀ k < size / (mtu + 4),
      (if k < size / (mtu + 4) then initSlot (mtu + 4) k zeroSlot else zeroSlot) =
        initSlot (mtu + 4) k zeroSlot := fun k hk => if_pos hk
  have hfoot : ∀ k < size / (mtu + 4), (initSlot (mtu + 4) k zeroSlot).footer =
      k * (mtu + 4) + mtu := fun k hk => initSlot_footer hk hpool zeroSlot
  refine ⟨⟨rfl, rfl, hlayout, fun k hk => ?_, hpool, fun k hk => ?_, fun k l hkl hl => ?_, hfresh⟩,
    ⟨hlayout, fun k hk => ?_, fun k hk => ?_, fun k hk => (hfresh k hk).footer⟩⟩
  · rw [(hlayout k hk).eth]
    simp only [hslot k hk, hfoot k hk]
  · rw [(hlayout k hk).eth]
    exact Nat.le_trans (slot_end_le hk) (Nat.mul_le_mul_right _ (Nat.le_succ _))
  · rw [(hlayout k (Nat.lt_trans hkl hl)).eth, (hlayout l hl).eth]
    exact slot_end_le hkl
  · simp only [hslot k hk]
    rfl
  · simp only [hslot k hk, hfoot k hk]

/-- **Slot layout and footer integrity.** Once its allocations succeed `init_ring_buffer` never
dies, and whatever is read into the slots of the ring it returns, every slot stays valid and no
slot sees a write to another one. -/
theorem slot_integrity (h34 : 34 ≤ mtu) (hmtu : mtu ≤ 65535) (hsize : size < 2 ^ 31) (q : Q)
    (hdr : Headers) :
    ∃ q' pool, initRingBuffer q size mtu hdr true = some (q', pool) ∧
      FreshRing size mtu hdr q' pool ∧
      ∀ writes : List (Nat × SlotWrite), (∀ e ∈ writes, e.1 < q'.rsz) →
        (∀ i < q'.rsz, validRNG (writeSlots mtu pool q' writes).1
          ((writeSlots mtu pool q' writes).2.R i) = true) ∧
        ∀ i < q'.rsz, ∀ j < q'.rsz, j ≠ i → ∀ w : SlotWrite,
          slotBytes mtu (w.apply mtu (writeSlots mtu pool q' writes).1
              ((writeSlots mtu pool q' writes).2.R i)).1 j =
            slotBytes mtu (writeSlots mtu pool q' writes).1 j := by
  have hinit := @initRingBuffer_eq mtu size q hdr h34 (by omega) (by omega)
  obtain ⟨hfresh, hintact⟩ := freshRing_of_init h34 hmtu hsize hinit
  refine ⟨_, _, hinit, hfresh, fun writes hin => ?_⟩
  obtain ⟨hrsz, hafter⟩ := hintact.writes h34 (by omega) writes hin
  rw [← hrsz]
  exact ⟨fun i hi => hafter.valid hi, fun i hi j _ hne w =>
    slotBytes_apply h34 (by omega) (hafter.layout i hi) w hne⟩

end Writes

/-- A ring of two slots for the smallest MTU. -/
theorem slot_integrity_two :
    ∃ q' pool, initRingBuffer (emptyRing 0 0) 76 34 (fillHeaders 7 9 ⟨Vector.replicate 6 1, none⟩)
        true = some (q', pool) ∧
      FreshRing 76 34 (fillHeaders 7 9 ⟨Vector.replicate 6 1, none⟩) q' pool ∧
      ∀ writes : List (Nat × SlotWrite), (∀ e ∈ writes, e.1 < q'.rsz) →
        (∀ i < q'.rsz, validRNG (writeSlots 34 pool q' writes).1
          ((writeSlots 34 pool q' writes).2.R i) = true) ∧
        ∀ i < q'.rsz, ∀ j < q'.rsz, j ≠ i → ∀ w : SlotWrite,
          slotBytes 34 (w.apply 34 (writeSlots 34 pool q' writes).1
              ((writeSlots 34 pool q' writes).2.R i)).1 j =
            slotBytes 34 (writeSlots 34 pool q' writes).1 j :=
  slot_integrity (by decide) (by decide) (by decide) _ _

end Lanes
