import Lanes.Ring.Pool

/-!
# From tunnel to tunnel

A frame read by `tx_io` on one host leaves in the packet that `tx` sends, and comes out of `rx` on
the other host as it went in, provided that it fits the limited read of `tx_io`. The tunnel MTU
that `tx_session` sets admits frames up to 14 bytes longer than that read.

* `FromHost` is what `init_ring_buffer` establishes and the reads of `tx_io` keep: the layout of the
  slots and the source address in each of their headers. So the slot that a packet is read into may
  be one used many times before.
* `encapsulation_roundTrip` takes one frame through both hosts.
* `pathFits_iff` says which frames get through unharmed: the bound is a length, and the tunnel's MTU
  is not that bound.
-/

namespace Lanes

/-! ## Traffic through a ring

A read touches the slot that it goes to and there only the frame and two fields of the header. So
the other bytes of all headers stay, over any number of reads into any of the slots.
-/

/-- The reads that `tx_io` makes one after the other, each into the slot that `push` gave it. -/
def txIoTraffic (mtu : Nat) : Mem → Q → List (Nat × Option (List UInt8)) → Mem × Q
  | pool, q, [] => (pool, q)
  | pool, q, (i, got) :: rest =>
    let (pool, r) := txIoRead mtu pool (q.R i) got
    txIoTraffic mtu pool (q.setSlot i r) rest

/-- Every slot is in its place and carries the source address `myip` in its header. -/
structure FromHost (mtu : Nat) (myip : UInt32) (pool : Mem) (q : Q) : Prop where
  layout : Layout mtu q
  saddr : ∀ i < q.rsz, pool.read (i * (mtu + 4) + 26) 4 = le32 myip

section Traffic

variable {mtu i j : Nat} {myip : UInt32} {pool : Mem} {q : Q} {r : RNG}

/-- Bytes 26 to 29 of the outer headers are the source address. -/
theorem Headers.bytes_saddr (hdr : Headers) : (hdr.bytes.drop 26).take 4 = le32 hdr.iph.saddr := by
  have heh : hdr.eh.bytes.drop 26 = [] := List.drop_of_length_le (by simp)
  rw [Headers.bytes, List.drop_append, heh]
  simp [IpHdr.bytes, le16, le32]

/-- The `n` bytes from byte `a` of a slot on are header bytes that `tx_io` does not rewrite. -/
structure KeptHeader (a n : Nat) : Prop where
  header : a + n ≤ 34
  totLen : a + n ≤ 16 ∨ 18 ≤ a
  check : a + n ≤ 24 ∨ 26 ≤ a

/-- A read of `tx_io` into any slot leaves the rest of the header of every slot as it is. -/
theorem txIoRead_header {a n : Nat} (ha : KeptHeader a n) (h34 : 34 ≤ mtu) (hmtu : mtu < 2 ^ 31)
    (hr : Placed mtu i r) (got : Option (List UInt8)) :
    (txIoRead mtu pool r got).1.read (j * (mtu + 4) + a) n =
      pool.read (j * (mtu + 4) + a) n := by
  have hend := ha.header
  have htot := ha.totLen
  have hcheck := ha.check
  cases got with
  | none => rfl
  | some frame =>
    have hip := hr.ip
    have hdata := hr.data
    by_cases he : j = i
    · -- the slot itself: the frame goes behind the header
      subst he
      rw [← hr.eth]
      calc _ = (pool.write r.data (limitedRead (txReadCount mtu) frame)).read
              (r.ethernetFrame + a) n := by
            refine Mem.read_congr fun k hk => txHeader_of_other ?_ ?_
            · show r.ethernetFrame + a + k < r.ipheader + 2 ∨
                r.ipheader + 4 ≤ r.ethernetFrame + a + k
              omega
            · show r.ethernetFrame + a + k < r.ipheader + 10 ∨
                r.ipheader + 12 ≤ r.ethernetFrame + a + k
              omega
        _ = _ := Mem.read_write_disjoint (Or.inl (by omega))
    · -- another slot: the read stays inside its own frame area
      have houtside : ∀ x, x < r.ethernetFrame ∨ r.ethernetFrame + mtu ≤ x →
          (txIoRead mtu pool r (some frame)).1 x = pool x := fun x =>
        (readSlot_of_outside hr.ip hr.data (some frame) :
          _ → (readSlot ⟨.egress, mtu, 0, h34, hmtu⟩ pool r (some frame)).1 x = pool x)
      refine Mem.read_congr fun k hk => houtside _ ?_
      rw [hr.eth]
      rcases Nat.lt_or_gt_of_ne he with hlt | hgt
      · left
        have : (j + 1) * (mtu + 4) ≤ i * (mtu + 4) := Nat.mul_le_mul_right _ hlt
        rw [Nat.add_mul] at this
        omega
      · right
        have : (i + 1) * (mtu + 4) ≤ j * (mtu + 4) := Nat.mul_le_mul_right _ hgt
        rw [Nat.add_mul] at this
        omega

theorem txIoRead_saddr (h34 : 34 ≤ mtu) (hmtu : mtu < 2 ^ 31) (hr : Placed mtu i r)
    (got : Option (List UInt8)) :
    (txIoRead mtu pool r got).1.read (j * (mtu + 4) + 26) 4 =
      pool.read (j * (mtu + 4) + 26) 4 :=
  txIoRead_header ⟨by omega, by omega, by omega⟩ h34 hmtu hr got

theorem txIoRead_same (got : Option (List UInt8)) : SamePlace r (txIoRead mtu pool r got).2 := by
  cases got <;> exact ⟨rfl, rfl, rfl⟩

theorem FromHost.read (h : FromHost mtu myip pool q) (h34 : 34 ≤ mtu) (hmtu : mtu < 2 ^ 31)
    (hi : i < q.rsz) (got : Option (List UInt8)) :
    FromHost mtu myip (txIoRead mtu pool (q.R i) got).1
      (q.setSlot i (txIoRead mtu pool (q.R i) got).2) where
  layout := h.layout.of_same rfl fun _ => samePlace_update (txIoRead_same got) _
  saddr k hk := (txIoRead_saddr h34 hmtu (h.layout i hi) got).trans (h.saddr k hk)

theorem FromHost.traffic (h34 : 34 ≤ mtu) (hmtu : mtu < 2 ^ 31)
    (traffic : List (Nat × Option (List UInt8))) (h : FromHost mtu myip pool q)
    (htraffic : ∀ e ∈ traffic, e.1 < q.rsz) :
    FromHost mtu myip (txIoTraffic mtu pool q traffic).1 (txIoTraffic mtu pool q traffic).2 ∧
      (txIoTraffic mtu pool q traffic).2.rsz = q.rsz := by
  induction traffic generalizing pool q with
  | nil => exact ⟨h, rfl⟩
  | cons e rest ih =>
    have hi : e.1 < q.rsz := htraffic e (List.mem_cons_self ..)
    exact ih (h.read h34 hmtu hi e.2) fun e' he' => htraffic e' (List.mem_cons_of_mem _ he')

/-- The template of `fill_headers` puts the host's address in every slot. -/
theorem fromHost_of_init {q' : Q} {size : Nat} {peerip : UInt32} {link : LinkInfo}
    (h34 : 34 ≤ mtu) (hmtu : mtu < 2 ^ 31) (hsize : size < 2 ^ 32)
    (hinit : initRingBuffer q size mtu (fillHeaders myip peerip link) true = some (q', pool)) :
    FromHost mtu myip pool q' := by
  obtain ⟨hlayout, hfresh⟩ := initRingBuffer_fresh h34 (by omega) hsize hinit
  refine ⟨hlayout, fun i hi => ?_⟩
  calc _ = ((pool.read (i * (mtu + 4)) (26 + 8)).drop 26).take 4 := by
        rw [Mem.read_drop, Mem.read_take (by omega)]
    _ = ((fillHeaders myip peerip link).bytes.drop 26).take 4 := by rw [(hfresh i hi).header]
    _ = le32 myip := Headers.bytes_saddr _

end Traffic

/-! ## One packet

`tx_io` stores it behind the headers, `tx` sends from the start of the slot, `rx_io` stores what
arrives at the start of its own slot, and `rx` writes what follows the headers there.
-/

section Packet

variable {m i j : Nat} {myip : UInt32} {pool rpool : Mem} {r rr : RNG} {f pkt : List UInt8}

/-- A frame within the read limit is in the slot after the read, and its length is recorded. -/
theorem txIoRead_whole (pool : Mem) (h34 : 34 ≤ m) (hm : m < 2 ^ 31) (hr : Placed m i r)
    (hf : f.length ≤ m - 34) :
    (txIoRead m pool r (some f)).2.len = f.length ∧
      (txIoRead m pool r (some f)).1.read (r.ethernetFrame + 34) f.length = f := by
  have hwhole : limitedRead (txReadCount m) f = f := by
    rw [limitedRead, txReadCount_eq h34 hm]
    exact List.take_of_length_le hf
  have hread : (txIoRead m pool r (some f)).1.read r.data f.length =
      (pool.write r.data f).read r.data f.length := by
    simp only [txIoRead, hwhole]
    refine Mem.read_congr fun k _ => txHeader_of_outside (Or.inr ?_)
    have hip := hr.ip
    have hdata := hr.data
    simp only
    omega
  refine ⟨by simp only [txIoRead, hwhole], ?_⟩
  rw [← hr.data, hread]
  exact Mem.read_write_same

/-- The packet that `tx` sends: 34 header bytes with the host's address, then the frame. -/
theorem txSend_whole (pool : Mem) (hlen : r.len = f.length) (hf : 14 < f.length)
    (hdata : pool.read (r.ethernetFrame + 34) f.length = f)
    (hsaddr : pool.read (r.ethernetFrame + 26) 4 = le32 myip) :
    ∃ pkt, txSend pool r = some pkt ∧ pkt.length = f.length + 34 ∧ pkt.drop 34 = f ∧
      (pkt.drop 26).take 4 = le32 myip := by
  have hcount : (r.len + (ethHdrLen + ip4HdrLen : Nat)).toNat = 34 + f.length := by
    rw [hlen, ethHdrLen_eq, ip4HdrLen_eq]
    omega
  have hsend : txSend pool r = some (pool.read r.ethernetFrame (34 + f.length)) := by
    rw [txSend, if_pos (by omega), hcount]
  refine ⟨_, hsend, by simp; omega, ?_, ?_⟩
  · rw [Mem.read_drop, hdata]
  · rw [show 34 + f.length = 26 + (8 + f.length) by omega, Mem.read_drop,
      Mem.read_take (by omega), hsaddr]

/-- What `rx` writes of a packet read whole is everything after the outer headers. -/
theorem rxWrite_whole (hfit : pkt.length ≤ m) (hlen : pkt.length = f.length + 34)
    (hf : 14 < f.length) (hdrop : pkt.drop 34 = f) :
    rxWrite (rxIoRead m rpool rr (some pkt)).1 (rxIoTrim (rxIoRead m rpool rr (some pkt)).2) =
      some f := by
  have hwhole : limitedRead m pkt = pkt := List.take_of_length_le hfit
  have htrim : (pkt.length : Int) - ethIp4 = f.length := by
    rw [hlen, ethIp4_eq]
    omega
  have hpayload : (rpool.write rr.ethernetFrame pkt).read (rr.ethernetFrame + 34) f.length = f := by
    rw [Mem.read_write_inside (by omega), hdrop, List.take_length]
  simp only [rxWrite, rxIoRead, rxIoTrim, hwhole, htrim]
  rw [if_pos (by omega)]
  exact congrArg some hpayload

end Packet

/-- **Encapsulation round trip.** A frame that `tx_io` reads into a slot of a used ring is sent as
a packet of 34 more bytes; on a host with the same MTU whose peer is the sender, `rx_io` accepts
that packet into any slot, whatever it holds, and `rx` writes the frame. -/
theorem encapsulation_roundTrip {m : Nat} (hm : 49 ≤ m) (hint : m < 2 ^ 31)
    -- the sender: its ring, the traffic it carried so far and the slot of the frame
    {qs qs' : Q} {size i : Nat} {myip peerip : UInt32} {link : LinkInfo} {pool : Mem}
    (hsize : size < 2 ^ 32)
    (hinit : initRingBuffer qs size m (fillHeaders myip peerip link) true = some (qs', pool))
    (traffic : List (Nat × Option (List UInt8))) (htraffic : ∀ e ∈ traffic, e.1 < qs'.rsz)
    (hi : i < qs'.rsz)
    -- the receiver: its ring, and any contents of its pool and of the slot
    {qr qr' : Q} {rsize j : Nat} {rhdr : Headers} {rinit : Mem} (hrsize : rsize < 2 ^ 32)
    (hrinit : initRingBuffer qr rsize m rhdr true = some (qr', rinit)) (hj : j < qr'.rsz)
    (rpool : Mem) (stale : Int)
    {f : List UInt8} (hf : 14 < f.length) (hf' : f.length ≤ m - 34) :
    let used := txIoTraffic m pool qs' traffic
    let sent := txIoRead m used.1 (used.2.R i) (some f)
    ∃ pkt, txSend sent.1 sent.2 = some pkt ∧ pkt.length = f.length + 34 ∧
      let got := rxIoRead m rpool { qr'.R j with len := stale } (some pkt)
      rxIoAccepts got.1 got.2 myip = true ∧ rxWrite got.1 (rxIoTrim got.2) = some f := by
  intro used sent
  have hfrom : FromHost m myip used.1 used.2 ∧ used.2.rsz = qs'.rsz :=
    FromHost.traffic (by omega) hint traffic (fromHost_of_init (by omega) hint hsize hinit) htraffic
  have hi' : i < used.2.rsz := hfrom.2 ▸ hi
  have hslot := hfrom.1.layout i hi'
  have hsame : SamePlace (used.2.R i) sent.2 := txIoRead_same (some f)
  obtain ⟨hlen, hdata⟩ := txIoRead_whole used.1 (by omega) hint hslot hf'
  have hsaddr : sent.1.read ((used.2.R i).ethernetFrame + 26) 4 = le32 myip := by
    rw [hslot.eth]
    exact (txIoRead_saddr (by omega) hint hslot (some f)).trans (hfrom.1.saddr i hi')
  obtain ⟨pkt, hsend, hpktlen, hdrop, hsrc⟩ :=
    txSend_whole sent.1 hlen hf (hsame.eth ▸ hdata) (hsame.eth ▸ hsaddr)
  have hplace : Placed m j (qr'.R j) :=
    (initRingBuffer_fresh (by omega) (by omega) hrsize hrinit).1 j hj
  refine ⟨pkt, hsend, hpktlen, ?_, ?_⟩
  · exact rxIoAccepts_of_source (r := { qr'.R j with len := stale }) hplace.ip (by omega) (by omega)
      hsrc
  · exact rxWrite_whole (by omega) hpktlen hf hdrop

theorem encapsulation_roundTrip_short :
    ∃ qs pool qr rinit,
      initRingBuffer (emptyRing 3 60) 192 60 (fillHeaders 7 9 ⟨Vector.replicate 6 1, none⟩) true =
        some (qs, pool) ∧
      initRingBuffer (emptyRing 3 60) 192 60 (fillHeaders 9 7 ⟨Vector.replicate 6 2, none⟩) true =
        some (qr, rinit) ∧
      let used := txIoTraffic 60 pool qs [(1, some [1, 2, 3]), (2, none)]
      let sent := txIoRead 60 used.1 (used.2.R 1) (some (List.replicate 15 5))
      ∃ pkt, txSend sent.1 sent.2 = some pkt ∧ pkt.length = 15 + 34 ∧
        let got := rxIoRead 60 (fun _ => 255) { qr.R 0 with len := -1 } (some pkt)
        rxIoAccepts got.1 got.2 7 = true ∧
          rxWrite got.1 (rxIoTrim got.2) = some (List.replicate 15 5) := by
  have hs := initRingBuffer_eq (emptyRing 3 60) (fillHeaders 7 9 ⟨Vector.replicate 6 1, none⟩)
    (by decide : 34 ≤ 60) (by decide) (by decide : 192 < 2 ^ 32)
  have hr := initRingBuffer_eq (emptyRing 3 60) (fillHeaders 9 7 ⟨Vector.replicate 6 2, none⟩)
    (by decide : 34 ≤ 60) (by decide) (by decide : 192 < 2 ^ 32)
  exact ⟨_, _, _, _, hs, hr,
    encapsulation_roundTrip (by decide) (by decide) (by decide) hs [(1, some [1, 2, 3]), (2, none)]
      (by decide) (by decide) (by decide) hr (by decide) (fun _ => 255) (-1) (by decide)
      (by decide)⟩

/-! ## Frames of the tunnel interface

The interface hands over an Ethernet header with each packet, which the MTU does not count, and
`tx_io` reads `mtu - 34` bytes, which is the MTU itself.
-/

/-- The MTU that `tx_session` sets on the tunnel interface. -/
def tunnelMtu (mtu : Nat) : Nat := mtu - (ethHdrLen + ip4HdrLen)

/-- A frame handed over by the tunnel passes through unharmed: `tx_io` reads it whole, it ends
before the footer of its slot, the outer packet fits the link, and `rx_io` reads that whole. -/
structure PathFits (m : Nat) (pool : Mem) (r : RNG) (f : List UInt8) : Prop where
  readWhole : (txIoRead m pool r (some f)).2.len = f.length ∧
    (txIoRead m pool r (some f)).1.read r.data f.length = f
  inSlot : r.data + f.length ≤ r.footer ∧
    (txIoRead m pool r (some f)).1.read r.footer 4 = pool.read r.footer 4
  onLink : ∀ pkt, txSend (txIoRead m pool r (some f)).1 (txIoRead m pool r (some f)).2 = some pkt →
    pkt.length - ethHdrLen ≤ m
  rxWhole : ∀ pkt, txSend (txIoRead m pool r (some f)).1 (txIoRead m pool r (some f)).2 = some pkt →
    limitedRead m pkt = pkt

section Path

variable {m i n : Nat} {pool : Mem} {r : RNG} {f : List UInt8}

/-- `tx_io` reads at most `m - 34` bytes, so what `tx` sends is at most `m` bytes long. -/
theorem txSend_length_le (h34 : 34 ≤ m) (hm : m < 2 ^ 31) {pkt : List UInt8}
    (hsend : txSend (txIoRead m pool r (some f)).1 (txIoRead m pool r (some f)).2 = some pkt) :
    pkt.length ≤ m := by
  have hcount := txReadCount_eq h34 hm
  have hlen : (txIoRead m pool r (some f)).2.len = (limitedRead (txReadCount m) f).length := rfl
  have hle : (limitedRead (txReadCount m) f).length ≤ m - 34 := by
    rw [limitedRead, List.length_take, hcount]
    exact Nat.min_le_left _ _
  unfold txSend at hsend
  split at hsend
  · obtain rfl := Option.some.inj hsend
    rw [Mem.read_length, hlen, ethHdrLen_eq, ip4HdrLen_eq]
    omega
  · cases hsend

/-- The limited read of `tx_io` keeps clear of the footer. -/
theorem txIoRead_footer (h34 : 34 ≤ m) (hm : m < 2 ^ 31) (hr : Placed m i r)
    (hfoot : r.footer = i * (m + 4) + m) :
    (txIoRead m pool r (some f)).1.read r.footer 4 = pool.read r.footer 4 :=
  Mem.read_congr fun k _ =>
    (readSlot_of_outside hr.ip hr.data (some f)
      (Or.inr (by rw [hfoot, hr.eth]; exact Nat.le_add_right _ _)) :
      (readSlot ⟨.egress, m, 0, h34, hm⟩ pool r (some f)).1 (r.footer + k) = pool (r.footer + k))

/-- A frame passes through unharmed if and only if all of it, its own Ethernet header included, is
within the tunnel MTU. The tunnel hands over frames of up to `tunnelMtu m + ethHdrLen` bytes. -/
theorem pathFits_iff (h68 : 68 ≤ m) (hm : m < 2 ^ 31) (hi : i < n) (hpool : n * (m + 4) < 2 ^ 32)
    (pool : Mem) (r₀ : RNG) (f : List UInt8) :
    PathFits m pool (initSlot (m + 4) i r₀) f ↔ f.length ≤ tunnelMtu m := by
  have htun : tunnelMtu m = m - 34 := rfl
  rw [htun]
  have hplace := initSlot_placed hi hpool r₀
  have hfoot := initSlot_footer hi hpool r₀
  constructor
  · intro h
    have hlen := h.readWhole.1
    rw [show (txIoRead m pool (initSlot (m + 4) i r₀) (some f)).2.len =
      (limitedRead (txReadCount m) f).length from rfl, limitedRead,
      txReadCount_eq (by omega) hm, List.length_take] at hlen
    omega
  · intro hle
    obtain ⟨hlen, hdata⟩ := txIoRead_whole pool (by omega) hm hplace hle
    exact
      { readWhole := ⟨hlen, hplace.data ▸ hdata⟩
        inSlot := by
          refine ⟨?_, txIoRead_footer (by omega) hm hplace hfoot⟩
          rw [hplace.data, hplace.eth, hfoot]
          omega
        onLink := fun pkt hsend => by
          have := txSend_length_le (by omega) hm hsend
          omega
        rxWhole := fun pkt hsend =>
          List.take_of_length_le (txSend_length_le (by omega) hm hsend) }

end Path

/-- With the smallest MTU a frame of 34 bytes passes, and one that fills the tunnel's does not. -/
theorem pathFits_minMtu :
    PathFits 68 (fun _ => 255) (initSlot 72 1 zeroSlot) (List.replicate 34 5) ∧
      ¬ PathFits 68 (fun _ => 255) (initSlot 72 1 zeroSlot) (List.replicate 48 5) :=
  ⟨(pathFits_iff (by decide) (by decide) (by decide : 1 < 2) (by decide) _ zeroSlot _).mpr
      (by decide),
    fun h => absurd ((pathFits_iff (by decide) (by decide) (by decide : 1 < 2) (by decide) _
      zeroSlot _).mp h) (by decide)⟩

/-- With an MTU of 68 the tunnel hands over frames of up to 48 bytes; 34 of them are read. -/
theorem pathFits_fails :
    ¬ ∀ (m i n : Nat) (pool : Mem) (r₀ : RNG) (f : List UInt8), 68 ≤ m → m < 2 ^ 31 → i < n →
      n * (m + 4) < 2 ^ 32 → ethHdrLen ≤ f.length → f.length ≤ tunnelMtu m + ethHdrLen →
      PathFits m pool (initSlot (m + 4) i r₀) f := by
  intro hall
  have h := hall 68 0 1 (fun _ => 0) zeroSlot (List.replicate 48 5) (by decide) (by decide)
    (by decide) (by decide) (by decide) (by decide)
  have hlen : (txIoRead 68 (fun _ => 0) (initSlot 72 0 zeroSlot)
      (some (List.replicate 48 5))).2.len = 34 := by decide
  have := h.readWhole.1
  rw [hlen] at this
  simp at this

end Lanes
