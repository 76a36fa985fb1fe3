import Lanes.Packet.Headers
import Lanes.Ring.Basic

/-!
# `init_ring_buffer`

The queue structure comes from `malloc`, so its previous contents are arbitrary; the slot array
and the data pool come from `calloc`.
-/

namespace Lanes

/-- The constants `HEADER` and `FOOTER` of `ring.h`. -/
def ringHeader : UInt32 := 0xf01abcde
def ringFooter : UInt32 := 0xcafeface

/-- A slot as `calloc` leaves it. -/
def zeroSlot : RNG where
  header := 0
  footer := 0
  len := 0
  index := 0
  lock := false
  ethernetFrame := 0
  ipheader := 0
  data := 0

/-- `x * y` on `uint32_t`. -/
def mul32 (x y : Nat) : Nat := x * y % 2 ^ 32

/-- One pass of the slot loop: the slot structure. -/
def initSlot (bsz i : Nat) (r : RNG) : RNG :=
  { r with
    header := ringHeader
    ethernetFrame := mul32 i bsz
    ipheader := mul32 i bsz + ethHdrLen
    data := mul32 i bsz + ethIp4
    index := i
    footer := mul32 (i + 1) bsz - 4
    lock := false }

/-- One pass of the slot loop: the bytes of the slot in the pool, footer first. -/
def initSlotBytes (r : RNG) (hdr : Headers) (pool : Mem) : Mem :=
  let pool := pool.write r.footer (le32 ringFooter)
  let pool := pool.write r.ethernetFrame hdr.eh.bytes
  pool.write r.ipheader hdr.iph.bytes

/-- The first `n` passes of the slot loop. -/
def initPool (bsz : Nat) (hdr : Headers) (pool : Mem) : Nat → Mem
  | 0 => pool
  | n + 1 => initSlotBytes (initSlot bsz n zeroSlot) hdr (initPool bsz hdr pool n)

/-- `valid_RNG`. -/
def validRNG (pool : Mem) (r : RNG) : Bool :=
  r.header == ringHeader && pool.read r.footer 4 == le32 ringFooter

/-- `init_ring_buffer`; `allocated` says whether both `calloc` calls succeed. `none` is a `die`. -/
def initRingBuffer (q : Q) (size chunks : Nat) (hdr : Headers) (allocated : Bool) :
    Option (Q × Mem) :=
  let bsz := (chunks + 4) % 2 ^ 32
  let rsz := size / bsz
  if allocated then
    let R := fun i => if i < rsz then initSlot bsz i zeroSlot else zeroSlot
    let pool := initPool bsz hdr (fun _ => 0) rsz
    if (List.range rsz).all fun i => validRNG pool (R i) then
      some ({ q with bsz := bsz, rsz := rsz, lock := false, full := false, R := R }, pool)
    else none
  else none

/-- The cursors, the count and the id are what they were; every slot comes out unlocked. -/
theorem initRingBuffer_some {q q' : Q} {size chunks : Nat} {hdr : Headers} {allocated : Bool}
    {pool : Mem} (hinit : initRingBuffer q size chunks hdr allocated = some (q', pool)) :
    ∃ bsz rsz R, q' = { q with bsz := bsz, rsz := rsz, lock := false, full := false, R := R } ∧
      ∀ i, (R i).lock = false := by
  unfold initRingBuffer at hinit
  simp only at hinit
  split at hinit
  · split at hinit
    · cases hinit
      refine ⟨_, _, _, rfl, fun i => ?_⟩
      split <;> rfl
    · cases hinit
  · cases hinit

/-- The ring of `n` slots for an interface MTU `mtu`, with both cursors and the count at zero. -/
def emptyRing (n mtu : Nat) : Q where
  id := 0
  bsz := mtu + 4
  rsz := n
  inIdx := 0
  outIdx := 0
  sz := 0
  lock := false
  full := false
  R := fun i => initSlot (mtu + 4) i zeroSlot

end Lanes
