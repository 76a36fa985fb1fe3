import Lanes.Packet.Checksum
import Lanes.Packet.RoundTrip

/-!
# The outer IPv4 header on the wire

`init_ring_buffer` copies the template of `fill_headers` into every slot; from then on `tx_io`
rewrites the total length and the checksum for each packet and nothing else. The length is stored in
host byte order, and the checksum is taken over the ten words that start 14 bytes into the payload.

So most packets leave with a header that a receiver has to reject. `sendsValid_iff` gives the frames
for which it is valid all the same: the total length has two equal bytes, and the words summed
happen to have the sum of the header.

* `Templated` is the invariant of a slot, set up by `init_ring_buffer` and kept by any reads.
* `txSend_header` computes the header sent, and `checksum_iff` decides its checksum through the
  one's complement sums of both ranges.
-/

namespace Lanes

/-! ## The header of a slot

The header is split into the two fields that `tx_io` writes and the three ranges around them, each
of which is read back on its own.
-/

/-- The fields of the outer header that `tx_io` does not rewrite are those of the template. -/
structure Templated (iph : IpHdr) (pool : Mem) (r : RNG) : Prop where
  ip : r.ipheader = r.ethernetFrame + 14
  data : r.data = r.ethernetFrame + 34
  front : pool.read r.ipheader 2 = [iph.version * 16 + iph.ihl, iph.tos]
  middle : pool.read (r.ipheader + 4) 6 = le16 iph.id ++ le16 iph.fragOff ++ [iph.ttl, iph.protocol]
  addrs : pool.read (r.ipheader + 12) 8 = le32 iph.saddr ++ le32 iph.daddr

/-- The payload words that the checksum is taken over: ten from byte 14 of the payload on, the
frame `f` as far as it goes and what the slot held before behind it. -/
def checkedWords (pool : Mem) (r : RNG) (f : List UInt8) : List Nat :=
  (wordsAt (pool.write r.data f) (r.data + 14) 10).map UInt16.toNat

/-- The header as `tx_io` leaves it for a frame `f`. -/
def sentHeader (iph : IpHdr) (pool : Mem) (r : RNG) (f : List UInt8) : IpHdr :=
  { iph with
    totLen := UInt16.ofNat (20 + f.length)
    check := csum ulongBits (wordsAt (pool.write r.data f) (r.data + 14) 10) }

section Sent

variable {iph : IpHdr} {m : Nat} {pool : Mem} {r : RNG} {f : List UInt8}

/-- Writing the header moves none of the words behind it. -/
theorem wordsAt_write_below {a b : Nat} {bs : List UInt8} (n : Nat) (h : b + bs.length ≤ a) :
    wordsAt (pool.write b bs) a n = wordsAt pool a n := by
  refine List.map_congr_left fun k _ => ?_
  unfold Mem.load16
  rw [Mem.write_apply_of_ge (by omega), Mem.write_apply_of_ge (by omega)]

/-- The update of `tx_io` turns the header of a slot into the one it sends. -/
theorem txHeader_read {n : Nat} (hip : r.data = r.ipheader + 20) (hlen : r.len = n)
    (hfront : pool.read r.ipheader 2 = [iph.version * 16 + iph.ihl, iph.tos])
    (hmiddle : pool.read (r.ipheader + 4) 6 =
      le16 iph.id ++ le16 iph.fragOff ++ [iph.ttl, iph.protocol])
    (haddrs : pool.read (r.ipheader + 12) 8 = le32 iph.saddr ++ le32 iph.daddr) :
    (txHeader pool r).read r.ipheader 20 =
      { iph with
        totLen := UInt16.ofNat (20 + n)
        check := csum ulongBits (wordsAt pool (r.data + 14) 10) : IpHdr }.bytes := by
  have htot : UInt16.ofNat ((r.len + ip4HdrLen) % 2 ^ 16).toNat = UInt16.ofNat (20 + n) := by
    apply UInt16.toNat.inj
    rw [UInt16.toNat_ofNat', UInt16.toNat_ofNat', hlen, ip4HdrLen_eq]
    omega
  -- the two fields rewritten and the three parts between them
  have hsplit : ∀ (pool' : Mem) (a : Nat), pool'.read a 20 = pool'.read a 2 ++
      pool'.read (a + 2) 2 ++ pool'.read (a + 4) 6 ++ pool'.read (a + 10) 2 ++
      pool'.read (a + 12) 8 := fun pool' a => by
    rw [show 20 = 2 + (2 + (6 + (2 + 8))) from rfl, Mem.read_add, Mem.read_add, Mem.read_add,
      Mem.read_add]
    simp only [List.append_assoc, Nat.add_assoc, Nat.reduceAdd]
  obtain ⟨tot, htotdef⟩ : ∃ tot, tot = UInt16.ofNat (20 + n) := ⟨_, rfl⟩
  obtain ⟨check, hcheck⟩ : ∃ check,
      check = csum ulongBits (wordsAt pool (r.data + 14) 10) := ⟨_, rfl⟩
  have hupdate : txHeader pool r =
      (pool.write (r.ipheader + 2) (le16 tot)).write (r.ipheader + 10) (le16 check) := by
    simp only [txHeader, htot]
    rw [wordsAt_write_below 10 (by rw [le16_length]; omega), ← hcheck, ← htotdef]
  rw [← htotdef, ← hcheck, hupdate, hsplit,
    Mem.read_write_of_length (le16_length check),
    Mem.read_write_disjoint (a := r.ipheader + 10) (b := r.ipheader) (by simp),
    Mem.read_write_disjoint (a := r.ipheader + 10) (b := r.ipheader + 2) (by simp),
    Mem.read_write_disjoint (a := r.ipheader + 10) (b := r.ipheader + 4) (by simp),
    Mem.read_write_disjoint (a := r.ipheader + 10) (b := r.ipheader + 12) (by simp),
    Mem.read_write_of_length (le16_length tot),
    Mem.read_write_disjoint (a := r.ipheader + 2) (b := r.ipheader) (by simp),
    Mem.read_write_disjoint (a := r.ipheader + 2) (b := r.ipheader + 4) (by simp),
    Mem.read_write_disjoint (a := r.ipheader + 2) (b := r.ipheader + 12) (by simp),
    hfront, hmiddle, haddrs]
  simp only [IpHdr.bytes, List.append_assoc]

/-- What `tx` sends after `tx_io` read the frame `f`: the template with its length and checksum. -/
theorem txSend_header (h : Templated iph pool r) (h34 : 34 ≤ m) (hm : m < 2 ^ 31)
    (hf : f.length ≤ m - 34) {pkt : List UInt8}
    (hsend : txSend (txIoRead m pool r (some f)).1 (txIoRead m pool r (some f)).2 = some pkt) :
    (pkt.drop 14).take 20 = (sentHeader iph pool r f).bytes := by
  have hip := h.ip
  have hdata := h.data
  have hwhole : limitedRead (txReadCount m) f = f := by
    rw [limitedRead, txReadCount_eq h34 hm]
    exact List.take_of_length_le hf
  have hread : txIoRead m pool r (some f) =
      (txHeader (pool.write r.data f) { r with len := f.length }, { r with len := f.length }) := by
    simp only [txIoRead, hwhole]
  rw [hread] at hsend
  unfold txSend at hsend
  split at hsend
  · obtain rfl := Option.some.inj hsend
    have hcount : ((f.length : Int) + (ethHdrLen + ip4HdrLen : Nat)).toNat =
        14 + (20 + f.length) := by
      rw [ethHdrLen_eq, ip4HdrLen_eq]
      omega
    simp only [hcount]
    rw [Mem.read_drop, Mem.read_take (by omega), ← hip]
    -- the frame is stored behind the header, so the rest of the header is the slot's
    refine txHeader_read (r := { r with len := f.length }) (n := f.length) ?_ rfl ?_ ?_ ?_
    · show r.data = r.ipheader + 20
      omega
    · rw [← h.front]
      exact Mem.read_write_disjoint (Or.inl (show r.ipheader + 2 ≤ r.data by omega))
    · rw [← h.middle]
      exact Mem.read_write_disjoint (Or.inl (show r.ipheader + 4 + 6 ≤ r.data by omega))
    · rw [← h.addrs]
      exact Mem.read_write_disjoint (Or.inl (show r.ipheader + 12 + 8 ≤ r.data by omega))
  · cases hsend

end Sent

/-! ## The template stays in every slot

With `txIoRead_header`, once for each range of the header that is not rewritten.
-/

section Traffic

variable {mtu i j : Nat} {pool : Mem} {q : Q}

/-- The reads of `tx_io` keep the layout and the rest of every header. -/
theorem txIoTraffic_header (h34 : 34 ≤ mtu) (hmtu : mtu < 2 ^ 31)
    (traffic : List (Nat × Option (List UInt8))) (hlayout : Layout mtu q)
    (htraffic : ∀ e ∈ traffic, e.1 < q.rsz) :
    Layout mtu (txIoTraffic mtu pool q traffic).2 ∧
      (txIoTraffic mtu pool q traffic).2.rsz = q.rsz ∧
      ∀ a n, KeptHeader a n →
        (txIoTraffic mtu pool q traffic).1.read (j * (mtu + 4) + a) n =
          pool.read (j * (mtu + 4) + a) n := by
  induction traffic generalizing pool q with
  | nil => exact ⟨hlayout, rfl, fun _ _ _ => rfl⟩
  | cons e rest ih =>
    have hi : e.1 < q.rsz := htraffic e (List.mem_cons_self ..)
    have hnext : Layout mtu (q.setSlot e.1 (txIoRead mtu pool (q.R e.1) e.2).2) :=
      hlayout.of_same rfl fun _ => samePlace_update (txIoRead_same e.2) _
    obtain ⟨hl, hrsz, hkept⟩ := @ih (txIoRead mtu pool (q.R e.1) e.2).1 _ hnext
      fun e' he' => htraffic e' (List.mem_cons_of_mem _ he')
    exact ⟨hl, hrsz, fun a n ha =>
      (hkept a n ha).trans (txIoRead_header ha h34 hmtu (hlayout e.1 hi) e.2)⟩

theorem FreshSlot.read {hdr : Headers} (h : FreshSlot mtu hdr pool i) {a n : Nat}
    (ha : a + n ≤ 34) : pool.read (i * (mtu + 4) + a) n = (hdr.bytes.drop a).take n := by
  rw [← h.header, show 34 = a + (34 - a) by omega, Mem.read_drop, Mem.read_take (by omega)]

/-- Whatever `tx_io` read before, the slots of a ring carry the template. -/
theorem templated_of_traffic {q q' : Q} {size : Nat} {hdr : Headers} (h34 : 34 ≤ mtu)
    (hmtu : mtu < 2 ^ 31) (hsize : size < 2 ^ 32)
    (hinit : initRingBuffer q size mtu hdr true = some (q', pool))
    (traffic : List (Nat × Option (List UInt8))) (htraffic : ∀ e ∈ traffic, e.1 < q'.rsz)
    (hi : i < q'.rsz) :
    Templated hdr.iph (txIoTraffic mtu pool q' traffic).1
      ((txIoTraffic mtu pool q' traffic).2.R i) := by
  obtain ⟨hlayout, hfresh⟩ := initRingBuffer_fresh h34 (by omega) hsize hinit
  obtain ⟨hl, hrsz, hkept⟩ :=
    txIoTraffic_header h34 hmtu traffic hlayout htraffic
  have hplace := hl i (hrsz ▸ hi)
  -- the IP header starts behind the 14 bytes of the Ethernet header
  have hiph : ∀ a, hdr.bytes.drop (14 + a) = hdr.iph.bytes.drop a := fun a => by
    rw [show hdr.bytes = hdr.eh.bytes ++ hdr.iph.bytes from rfl, List.drop_append,
      EthHdr.bytes_length, ethHdrLen_eq, Nat.add_sub_cancel_left,
      List.drop_of_length_le (by simp), List.nil_append]
  have hread : ∀ a n, KeptHeader (14 + a) n →
      (txIoTraffic mtu pool q' traffic).1.read (i * (mtu + 4) + (14 + a)) n =
        (hdr.iph.bytes.drop a).take n := fun a n ha => by
    rw [hkept _ n ha, (hfresh i hi).read ha.header, hiph]
  exact
    { ip := hplace.ip
      data := hplace.data
      front := by
        rw [hplace.ip, hplace.eth]
        exact hread 0 2 ⟨by omega, by omega, by omega⟩
      middle := by
        rw [hplace.ip, hplace.eth, Nat.add_assoc]
        exact hread 4 6 ⟨by omega, by omega, by omega⟩
      addrs := by
        rw [hplace.ip, hplace.eth, Nat.add_assoc]
        exact hread 12 8 ⟨by omega, by omega, by omega⟩ }

end Traffic

/-! ## When the header is valid

`OuterHeaderValid` is what a receiver checks, in network byte order. It is decided field by field:
version, header length and addresses are the template's, and the total length and the checksum
remain.
-/

/-- A valid outer header of a packet that carries `n` bytes from `myip` to `peerip`. -/
structure OuterHeaderValid (myip peerip : UInt32) (n : Nat) (ip : List UInt8) : Prop where
  version : (ip.getD 0 0).toNat / 16 = 4
  ihl : (ip.getD 0 0).toNat % 16 = 5
  totLen : 256 * (ip.getD 2 0).toNat + (ip.getD 3 0).toNat = 20 + n
  saddr : (ip.drop 12).take 4 = le32 myip
  daddr : (ip.drop 16).take 4 = le32 peerip
  checksum : OnesComplement.sum (OnesComplement.bigEndian ip) = 2 ^ 16 - 1

/-- If `tx` sends the frame `f` that `tx_io` just read, its outer header is valid. -/
def SendsValid (m : Nat) (myip peerip : UInt32) (pool : Mem) (r : RNG) (f : List UInt8) : Prop :=
  ∀ pkt, txSend (txIoRead m pool r (some f)).1 (txIoRead m pool r (some f)).2 = some pkt →
    OuterHeaderValid myip peerip f.length ((pkt.drop 14).take 20)

/-- The total length reads the same in both byte orders, and the words the checksum is taken over
have the same one's complement sum as the header without its checksum. -/
def LooksValid (iph : IpHdr) (pool : Mem) (r : RNG) (f : List UInt8) : Prop :=
  (20 + f.length < 2 ^ 16 ∧ (20 + f.length) / 256 = (20 + f.length) % 256) ∧
    (checkedWords pool r f).sum % (2 ^ 16 - 1) =
      (OnesComplement.littleEndian { sentHeader iph pool r f with check := 0 }.bytes).sum %
        (2 ^ 16 - 1)

instance (iph : IpHdr) (pool : Mem) (r : RNG) (f : List UInt8) :
    Decidable (LooksValid iph pool r f) := inferInstanceAs (Decidable (_ ∧ _))

section Valid

variable {m n : Nat} {myip peerip : UInt32} {link : LinkInfo} {pool : Mem} {r : RNG}
  {f : List UInt8}

theorem littleEndian_le16 (v : UInt16) (bs : List UInt8) :
    OnesComplement.littleEndian (le16 v ++ bs) = v.toNat :: OnesComplement.littleEndian bs := by
  have hv := v.toNat_lt
  have hw : (UInt8.ofNat v.toNat).toNat + 256 * (UInt8.ofNat (v.toNat / 256)).toNat = v.toNat := by
    rw [UInt8.toNat_ofNat', UInt8.toNat_ofNat']
    omega
  simp only [le16, List.cons_append, List.nil_append, OnesComplement.littleEndian, hw]

/-- The checksum is one word of the header. -/
theorem IpHdr.sum_check (h : IpHdr) :
    (OnesComplement.littleEndian h.bytes).sum =
      (OnesComplement.littleEndian { h with check := 0 }.bytes).sum + h.check.toNat := by
  simp only [IpHdr.bytes, List.append_assoc, List.cons_append, List.nil_append,
    OnesComplement.littleEndian, littleEndian_le16, List.sum_cons, UInt16.toNat_zero]
  omega

/-- The stored checksum makes the header verify if and only if the words it was taken over have the
sum of the header. -/
theorem checksum_iff (iph : IpHdr) (hpos : 0 < iph.version * 16 + iph.ihl) :
    OnesComplement.sum (OnesComplement.bigEndian (sentHeader iph pool r f).bytes) = 2 ^ 16 - 1 ↔
      (checkedWords pool r f).sum % (2 ^ 16 - 1) =
        (OnesComplement.littleEndian { sentHeader iph pool r f with check := 0 }.bytes).sum %
          (2 ^ 16 - 1) := by
  have hfirst : 0 < (OnesComplement.bigEndian (sentHeader iph pool r f).bytes).sum := by
    have : 0 < (iph.version * 16 + iph.ihl).toNat := hpos
    simp only [sentHeader, IpHdr.bytes, List.append_assoc, List.cons_append, List.nil_append,
      OnesComplement.bigEndian, List.sum_cons]
    omega
  have hcheck : (sentHeader iph pool r f).check.toNat =
      2 ^ 16 - 1 - OnesComplement.sum (checkedWords pool r f) :=
    csum_toNat (by decide) (by simp [wordsAt])
  obtain ⟨hlt, hmod, -⟩ : OnesComplement.Represents (checkedWords pool r f).sum
      (OnesComplement.sum (checkedWords pool r f)) := OnesComplement.sum_represents (words_lt _)
  rw [OnesComplement.sum_eq_max_iff (OnesComplement.bigEndian_lt _),
    and_iff_left hfirst, OnesComplement.bigEndian_sum_mod_eq_zero, IpHdr.sum_check, hcheck, ← hmod]
  exact OnesComplement.complement_mod_eq_zero hlt

/-- A number is its own low 16 bits with the bytes swapped if and only if it has 16 bits and its
bytes are equal. -/
theorem swapped_eq_iff (x : Nat) :
    256 * (x % 2 ^ 16 % 2 ^ 8) + x % 2 ^ 16 / 256 % 2 ^ 8 = x ↔ x < 2 ^ 16 ∧ x / 256 = x % 256 := by
  constructor
  · intro h
    have hlt : x < 2 ^ 16 := by omega
    rw [Nat.mod_eq_of_lt hlt] at h
    exact ⟨hlt, by omega⟩
  · rintro ⟨hlt, h⟩
    rw [Nat.mod_eq_of_lt hlt]
    omega

/-- All of the header but its length and its checksum is always right. -/
theorem outerHeaderValid_iff :
    OuterHeaderValid myip peerip f.length
        (sentHeader (fillHeaders myip peerip link).iph pool r f).bytes ↔
      LooksValid (fillHeaders myip peerip link).iph pool r f := by
  have hpos : 0 < (fillHeaders myip peerip link).iph.version * 16 +
      (fillHeaders myip peerip link).iph.ihl := show (0 : UInt8) < 4 * 16 + 5 by decide
  have hsum : OnesComplement.sum (OnesComplement.bigEndian
      (sentHeader (fillHeaders myip peerip link).iph pool r f).bytes) = 2 ^ 16 - 1 ↔ _ :=
    checksum_iff _ hpos
  have htot : 256 * (((sentHeader (fillHeaders myip peerip link).iph pool r f).bytes).getD 2
        0).toNat + (((sentHeader (fillHeaders myip peerip link).iph pool r f).bytes).getD 3
        0).toNat = 20 + f.length ↔
      20 + f.length < 2 ^ 16 ∧ (20 + f.length) / 256 = (20 + f.length) % 256 := by
    simp only [sentHeader, IpHdr.bytes, le16, List.cons_append, List.nil_append,
      List.getD_cons_succ, List.getD_cons_zero, UInt8.toNat_ofNat', UInt16.toNat_ofNat']
    exact swapped_eq_iff _
  constructor
  · intro h
    exact ⟨htot.mp h.totLen, hsum.mp h.checksum⟩
  · rintro ⟨hlen, hwords⟩
    exact
      { version := by
          show (((4 : UInt8) * 16 + 5).toNat) / 16 = 4
          decide
        ihl := by
          show (((4 : UInt8) * 16 + 5).toNat) % 16 = 5
          decide
        totLen := htot.mpr hlen
        saddr := by simp [sentHeader, fillHeaders, IpHdr.bytes, le16, le32]
        daddr := by simp [sentHeader, fillHeaders, IpHdr.bytes, le16, le32]
        checksum := hsum.mpr hwords }

/-- **Outer header.** The header that `tx` sends with a frame of `n` bytes is valid exactly when
nothing is sent (`n` is at most 14) or it happens to look valid. -/
theorem sendsValid_iff (h34 : 34 ≤ m) (hm : m < 2 ^ 31)
    (h : Templated (fillHeaders myip peerip link).iph pool r) (hf : f.length ≤ m - 34) :
    SendsValid m myip peerip pool r f ↔
      f.length ≤ 14 ∨ LooksValid (fillHeaders myip peerip link).iph pool r f := by
  have hlen : (txIoRead m pool r (some f)).2.len = f.length := by
    have hwhole : limitedRead (txReadCount m) f = f := by
      rw [limitedRead, txReadCount_eq h34 hm]
      exact List.take_of_length_le hf
    simp only [txIoRead, hwhole]
  by_cases hshort : f.length ≤ 14
  · refine iff_of_true (fun pkt hsend => ?_) (Or.inl hshort)
    rw [txSend, if_neg (by omega)] at hsend
    cases hsend
  · rw [or_iff_right hshort, ← outerHeaderValid_iff]
    have hsent : ∃ pkt, txSend (txIoRead m pool r (some f)).1
        (txIoRead m pool r (some f)).2 = some pkt := ⟨_, if_pos (by omega)⟩
    constructor
    · intro hall
      obtain ⟨pkt, hsend⟩ := hsent
      rw [← txSend_header h h34 hm hf hsend]
      exact hall pkt hsend
    · intro hvalid pkt hsend
      rw [txSend_header h h34 hm hf hsend]
      exact hvalid

end Valid

/-- The first slot of a ring for hosts 7 and 9, as `init_ring_buffer` leaves it. -/
def templatePool : Mem := fun x =>
  (fillHeaders 7 9 ⟨Vector.replicate 6 1, none⟩).bytes.getD x 0

theorem templatePool_templated {r : RNG} (heth : r.ethernetFrame = 0) (hip : r.ipheader = 14)
    (hdata : r.data = 34) :
    Templated (fillHeaders 7 9 ⟨Vector.replicate 6 1, none⟩).iph templatePool r where
  ip := by rw [hip, heth]
  data := by rw [hdata, heth]
  front := by
    rw [hip]
    decide
  middle := by
    rw [hip]
    decide
  addrs := by
    rw [hip]
    decide

/-- A frame of 237 bytes, so that its total length is 0x0101, with the header it will be sent under
in the ten words that the checksum is taken over. -/
def luckyFrame : List UInt8 :=
  List.replicate 14 0 ++
    { (fillHeaders 7 9 ⟨Vector.replicate 6 1, none⟩).iph with totLen := 257 : IpHdr }.bytes ++
    List.replicate 203 5

/-- It goes out in a packet of 271 bytes, behind a header that verifies. -/
theorem sendsValid_lucky :
    SendsValid 300 7 9 templatePool (initSlot 304 0 zeroSlot) luckyFrame ∧
      (txSend (txIoRead 300 templatePool (initSlot 304 0 zeroSlot) (some luckyFrame)).1
        (txIoRead 300 templatePool (initSlot 304 0 zeroSlot) (some luckyFrame)).2).map
          (fun pkt => (pkt.length, (pkt.drop 14).take 20)) =
        some (271, [69, 0, 1, 1, 0, 0, 0, 0, 255, 1, 170, 252, 7, 0, 0, 0, 9, 0, 0, 0]) :=
  ⟨(sendsValid_iff (by decide) (by decide) (templatePool_templated rfl rfl rfl)
      (by decide +kernel)).mpr (Or.inr (by decide +kernel)), by decide +kernel⟩

/-- A frame of 15 bytes goes out with a total length of 8960. -/
theorem sendsValid_fails :
    ¬ ∀ (m : Nat) (myip peerip : UInt32) (link : LinkInfo) (pool : Mem) (r : RNG)
      (f : List UInt8), 34 ≤ m → m < 2 ^ 31 →
      Templated (fillHeaders myip peerip link).iph pool r → f.length ≤ m - 34 →
      SendsValid m myip peerip pool r f := by
  intro hall
  have hvalid := hall 60 7 9 ⟨Vector.replicate 6 1, none⟩ templatePool (initSlot 64 0 zeroSlot)
    (List.replicate 15 5) (by decide) (by decide) (templatePool_templated rfl rfl rfl) (by decide)
  obtain ⟨pkt, hsend⟩ : ∃ pkt, txSend
      (txIoRead 60 templatePool (initSlot 64 0 zeroSlot) (some (List.replicate 15 5))).1
      (txIoRead 60 templatePool (initSlot 64 0 zeroSlot) (some (List.replicate 15 5))).2 =
        some pkt := ⟨_, if_pos (by decide)⟩
  have htot := (hvalid pkt hsend).totLen
  rw [txSend_header (templatePool_templated rfl rfl rfl) (by decide) (by decide) (by decide)
    hsend] at htot
  exact absurd htot (by decide)

end Lanes
