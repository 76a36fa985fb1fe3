import Lanes.Packet.Headers
import Lanes.Ring.Basic

/-!
# Moving packets through a slot

What the four threads of `workers.c` do with the slot that `push` or `pop` gave them: `tx_io` and
`rx_io` read a frame into it, `tx` and `rx` send it on. The ring slots live in one data pool, a
byte memory; a slot names its parts by offsets into the pool.

The functions take the pool and the slot's record and give both back, or the bytes that a system
call is handed. They check no bound: whether a write stays inside the slot follows from the counts,
and is proved where the layout of the pool is known.
-/

namespace Lanes

/-! ## Reading -/

/-- `read (fd, buf, count)` when `frame` is waiting: a tunnel or packet socket hands over at most
`count` bytes and drops the rest of the frame. -/
def limitedRead (count : Nat) (frame : List UInt8) : List UInt8 := frame.take count

/-- `h->mtu - hdr_sz`, where `hdr_sz` is `unsigned int`. -/
def txReadCount (mtu : Nat) : Nat := (mtu + (2 ^ 32 - (ethHdrLen + ip4HdrLen))) % 2 ^ 32

theorem txReadCount_eq {mtu : Nat} (h : 34 ≤ mtu) (hm : mtu < 2 ^ 31) :
    txReadCount mtu = mtu - 34 := by
  simp only [txReadCount, ethHdrLen_eq, ip4HdrLen_eq]
  omega

/-! ## `csum` -/

/-- The width of `unsigned long` on the platforms the program is built for. -/
def ulongBits : Nat := 64

/-- `csum`: add the words in an `unsigned long` of `w` bits, fold the carries twice and complement
the low 16 bits. -/
def csum (w : Nat) (buf : List UInt16) : UInt16 :=
  let sum := buf.foldl (fun sum word => (sum + word.toNat) % 2 ^ w) 0
  let sum := sum / 2 ^ 16 + sum % 2 ^ 16
  let sum := (sum + sum / 2 ^ 16) % 2 ^ w
  UInt16.ofNat (2 ^ w - 1 - sum)

/-- The `n` words from address `a` on. -/
def wordsAt (m : Mem) (a n : Nat) : List UInt16 :=
  (List.range n).map fun k => m.load16 (a + 2 * k)

/-! ## `tx_io`

The frame of the tunnel goes behind the outer headers, of which only the length and the checksum are
then rewritten.
-/

/-- The header update of `tx_io`: `tot_len` and `check`. The checksum is taken over the ten words
at `data->data + sizeof (struct ethhdr)`. -/
def txHeader (pool : Mem) (r : RNG) : Mem :=
  let pool := pool.write (r.ipheader + 2) (le16 (UInt16.ofNat ((r.len + ip4HdrLen) % 2 ^ 16).toNat))
  pool.write (r.ipheader + 10) (le16 (csum ulongBits (wordsAt pool (r.data + 14) 10)))

/-- One pass of the read loop of `tx_io` in which the tunnel is readable. `none` is a read that
fails: `data->len` becomes `-1` and the headers stay as they are. -/
def txIoRead (mtu : Nat) (pool : Mem) (r : RNG) : Option (List UInt8) → Mem × RNG
  | none => (pool, { r with len := -1 })
  | some frame =>
    let bytes := limitedRead (txReadCount mtu) frame
    let r := { r with len := bytes.length }
    (txHeader (pool.write r.data bytes) r, r)

/-! ## `tx` -/

/-- What `tx` hands to `sendto`: nothing unless `data->len > 14`. -/
def txSend (pool : Mem) (r : RNG) : Option (List UInt8) :=
  if r.len > 14 then
    some (pool.read r.ethernetFrame (r.len + (ethHdrLen + ip4HdrLen : Nat)).toNat)
  else none

/-! ## `rx_io`

The frame of the wire comes with its own outer headers and goes to the start of the slot. The length
is the whole frame's until `rxIoTrim` takes the headers off.
-/

/-- One pass of the read loop of `rx_io` in which the packet socket is readable. -/
def rxIoRead (mtu : Nat) (pool : Mem) (r : RNG) : Option (List UInt8) → Mem × RNG
  | none => (pool, { r with len := -1 })
  | some frame =>
    let bytes := limitedRead mtu frame
    (pool.write r.ethernetFrame bytes, { r with len := bytes.length })

/-- The check of `rx_io` after the read: `nope == 0`. -/
def rxIoAccepts (pool : Mem) (r : RNG) (peerIp : UInt32) : Bool :=
  if r.len < 1 then false
  -- bytes 26 to 29 of the slot, also when the frame is shorter
  else if pool.load32 (r.ipheader + 12) ≠ peerIp then false
  else true

/-- A frame that fits and carries the peer's source address passes the check. -/
theorem rxIoAccepts_of_source {mtu : Nat} {pool : Mem} {r : RNG} {frame : List UInt8}
    {peerIp : UInt32} (hip : r.ipheader = r.ethernetFrame + 14) (hfit : frame.length ≤ mtu)
    (hlen : 30 ≤ frame.length) (hsrc : (frame.drop 26).take 4 = le32 peerIp) :
    rxIoAccepts (rxIoRead mtu pool r (some frame)).1 (rxIoRead mtu pool r (some frame)).2 peerIp =
      true := by
  have hwhole : limitedRead mtu frame = frame := List.take_of_length_le hfit
  have hload : (pool.write r.ethernetFrame frame).load32 (r.ipheader + 12) = peerIp := by
    refine Mem.load32_of_read ?_
    rw [hip, show r.ethernetFrame + 14 + 12 = r.ethernetFrame + 26 from by omega,
      Mem.read_write_inside (by omega), hsrc]
  have hpos : ¬ (frame.length : Int) < 1 := by omega
  simp [rxIoAccepts, rxIoRead, hwhole, hload, hpos]

/-- `data->len -= ETHIP4`, after the loop. -/
def rxIoTrim (r : RNG) : RNG := { r with len := r.len - ethIp4 }

/-! ## `rx` -/

/-- What `rx` hands to `write`: nothing unless `data->len > 14`. -/
def rxWrite (pool : Mem) (r : RNG) : Option (List UInt8) :=
  if r.len > 14 then
    some (pool.read (r.ethernetFrame + (ethHdrLen + ip4HdrLen)) r.len.toNat)
  else none

end Lanes
