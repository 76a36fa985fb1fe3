import Lanes.Packet.Headers

/-!
# ARP resolution

`arp_request` sends its request from the buffer that it then receives every frame of the interface
into, and stops when the four bytes at the sender address of the ARP header are the address it asked
for. Nothing else of the frame is looked at, a short frame leaves the bytes of earlier ones, and an
interrupted call leaves zeros.

**`trustsArp_iff`** says when the result rests on an ARP packet after all, as a condition on the
calls of `recv`. The four bytes that the loop compares are followed through the buffer by
`overlay`: a whole frame replaces them, a short one replaces their beginning. `arpLoop_cases` and
`arpLoop_of_shown` say with it where the loop ends; `Waits.lastFrame_ne` is what makes the frame
that ended it the one to look at.
-/

namespace Lanes

/-- An IPv4 address in network byte order. -/
abbrev Ip := Vector UInt8 4

/-- `IP_MAXPACKET`, the size of the buffer. -/
def ipMaxPacket : Nat := 65535

/-! ## `arp_request`

The events are the calls of `recv` that the loop would make, in order; it makes them until the
buffer shows the address or a call gives up, and may be left waiting. -/

/-- The 42 bytes of the request: the Ethernet header and the `arp_hdr`. -/
def requestFrame (srcMac : Mac) (senderIp targetIp : Ip) : List UInt8 :=
  List.replicate 6 0xff ++ srcMac.toList ++ [0x08, 0x06] ++
    -- `htype`, `ptype`, `hlen`, `plen` and `opcode`
    [0, 1] ++ [0x08, 0x00] ++ [6] ++ [4] ++ [0, 1] ++
    srcMac.toList ++ senderIp.toList ++ List.replicate 6 0 ++ targetIp.toList

/-- What one `recv` delivers. `late` says that more than `ARP_TIMEOUT` seconds have passed when it
returns. -/
inductive Recv where
  | frame (bytes : List UInt8) (late : Bool)
  /-- It fails with `EINTR`. -/
  | eintr
  /-- It fails otherwise. -/
  | error
  deriving Repr, DecidableEq

/-- The buffer after the call. -/
def recvInto (etherFrame : Mem) : Recv → Mem
  | .frame bytes _ => etherFrame.write 0 (bytes.take ipMaxPacket)
  | .eintr => etherFrame.write 0 (List.replicate ipMaxPacket 0)
  | .error => etherFrame

/-- `arp_request` returns -1 right after the call. An interrupted one is not timed. -/
def Recv.givesUp : Recv → Bool
  | .frame _ late => late
  | .eintr => false
  | .error => true

/-- `arpreply->sender_ip` and `arpreply->sender_mac`. -/
def arpSenderIp (etherFrame : Mem) : List UInt8 := etherFrame.read 28 4
def arpSenderMac (etherFrame : Mem) : List UInt8 := etherFrame.read 22 6

/-- What `arp_request` returns, what `result` then holds, and the calls of `recv` it made. -/
structure ArpEnd where
  ret : Int
  result : List UInt8
  received : List Recv
  deriving Repr, DecidableEq

/-- The loop that waits for the reply; `none` while it goes on. -/
def arpLoop (asking result : List UInt8) (etherFrame : Mem) : List Recv → Option ArpEnd
  | [] =>
    if arpSenderIp etherFrame = asking then
      some { ret := 0, result := arpSenderMac etherFrame, received := [] }
    else none
  | e :: rest =>
    if arpSenderIp etherFrame = asking then
      some { ret := 0, result := arpSenderMac etherFrame, received := [] }
    else if e.givesUp then some { ret := -1, result := result, received := [e] }
    else (arpLoop asking result (recvInto etherFrame e) rest).map fun o =>
      { o with received := e :: o.received }

/-- `arp_request`, with the addresses that `inet_pton` and `getaddrinfo` give (both end the process
when they fail). `garbage` is what the buffer held, `sent` whether `sendto` succeeds. -/
def arpRequest (srcMac : Mac) (srcIp dstIp : Ip) (garbage : Mem) (result : Mac) (sent : Bool)
    (events : List Recv) : Option ArpEnd :=
  let etherFrame := garbage.write 0 (requestFrame srcMac srcIp dstIp)
  if sent then arpLoop (etherFrame.read 38 4) result.toList etherFrame events
  -- `die (0, ..)` returns, and nothing behind it says that the request failed
  else some { ret := 0, result := result.toList, received := [] }

/-! ## What the result should rest on

A property of the calls of `recv` and of what is returned, without the buffer between them.
-/

/-- An ARP packet for IPv4 over Ethernet, with all of its header. -/
structure ArpPacket (bytes : List UInt8) : Prop where
  whole : 42 ≤ bytes.length
  etherType : (bytes.drop 12).take 2 = [0x08, 0x06]
  htype : (bytes.drop 14).take 2 = [0, 1]
  ptype : (bytes.drop 16).take 2 = [0x08, 0x00]

def Recv.frame? : Recv → Option (List UInt8)
  | .frame bytes _ => some bytes
  | _ => none

def lastFrame (received : List Recv) : Option (List UInt8) :=
  (received.filterMap Recv.frame?).getLast?

/-- A return of 0 hands over the sender MAC of the last frame, an ARP packet from the address asked
for; any other return is -1 and leaves the result alone. -/
def TrustsArp (dstIp : Ip) (result : Mac) (o : Option ArpEnd) : Prop :=
  ∀ o', o = some o' →
    (o'.ret = 0 ∧ ∃ bytes, lastFrame o'.received = some bytes ∧ ArpPacket bytes ∧
      (bytes.drop 28).take 4 = dstIp.toList ∧ o'.result = (bytes.drop 22).take 6) ∨
    (o'.ret = -1 ∧ o'.result = result.toList)

/-! ## When it does

The condition looks at the calls alone, up to the one that ends the loop. -/

/-- The sender address in the buffer after a call: what a frame does not reach stays. -/
def overlay (seen : List UInt8) : Recv → List UInt8
  | .frame bytes _ => (bytes.drop 28).take 4 ++ seen.drop (bytes.length - 28)
  | .eintr => [0, 0, 0, 0]
  | .error => seen

/-- None of the calls shows the address asked for, and none gives up. -/
def Waits (asking : List UInt8) : List UInt8 → List Recv → Prop
  | seen, [] => seen ≠ asking
  | seen, e :: rest => seen ≠ asking ∧ e.givesUp = false ∧ Waits asking (overlay seen e) rest

/-- The first call after which the buffer shows the address asked for delivers an ARP packet. -/
def EndsOnArp (srcIp dstIp : Ip) (events : List Recv) : Prop :=
  ∀ before e after, events = before ++ e :: after → Waits dstIp.toList srcIp.toList before →
    e.givesUp = false → overlay (before.foldl overlay srcIp.toList) e = dstIp.toList →
    ∃ bytes, e.frame? = some bytes ∧ ArpPacket bytes

section Arp

variable {asking result seen : List UInt8} {etherFrame garbage : Mem}
  {events before after : List Recv} {e : Recv} {bytes : List UInt8} {srcMac res : Mac}
  {srcIp dstIp : Ip}

/-! ## The buffer

A frame overwrites the front of the buffer and nothing else. The sender address is the four bytes
from offset 28, so a frame of 42 bytes or more leaves none of what was there. -/

/-- Four bytes of the header after a frame arrived, also one that is cut at the end of the
buffer. -/
theorem read_recvInto_frame {k n : Nat} (hk : k + n ≤ ipMaxPacket) (late : Bool) :
    (recvInto etherFrame (.frame bytes late)).read k n =
      (bytes.drop k).take n ++ (etherFrame.read k n).drop (bytes.length - k) := by
  have hread := @Mem.read_write_overlay etherFrame 0 n k (bytes.take ipMaxPacket)
  rw [Nat.zero_add] at hread
  rw [recvInto, hread, List.drop_take, List.take_take, Nat.min_eq_left (by omega)]
  congr 1
  rcases Nat.le_total bytes.length ipMaxPacket with hle | hge
  · rw [List.take_of_length_le hle]
  · rw [List.drop_eq_nil_of_le (by simp; omega), List.drop_eq_nil_of_le (by simp; omega)]

theorem arpSenderIp_recvInto (e : Recv) :
    arpSenderIp (recvInto etherFrame e) = overlay (arpSenderIp etherFrame) e := by
  cases e with
  | frame bytes late => exact read_recvInto_frame (by decide) late
  | eintr =>
    have hread := @Mem.read_write_inside etherFrame 0 4 28 (List.replicate ipMaxPacket 0)
      (by rw [List.length_replicate]; decide)
    rw [Nat.zero_add, List.drop_replicate, List.take_replicate] at hread
    exact hread
  | error => rfl

theorem overlay_length (h : seen.length = 4) (e : Recv) : (overlay seen e).length = 4 := by
  cases e with
  | frame bytes late =>
    simp only [overlay, List.length_append, List.length_take, List.length_drop]
    omega
  | eintr => rfl
  | error => exact h

theorem overlay_foldl_length (h : seen.length = 4) (events : List Recv) :
    (events.foldl overlay seen).length = 4 := by
  induction events generalizing seen with
  | nil => exact h
  | cons e rest ih => exact ih (overlay_length h e)

theorem Recv.exists_frame (h : e.frame? = some bytes) : ∃ late, e = .frame bytes late := by
  cases e with
  | frame bytes' late => exact ⟨late, congrArg (Recv.frame · late) (Option.some.inj h)⟩
  | eintr => cases h
  | error => cases h

/-- A frame that covers the header leaves nothing of the frames before it there. -/
theorem overlay_whole (hframe : e.frame? = some bytes) (hwhole : 42 ≤ bytes.length)
    (hlen : seen.length = 4) : overlay seen e = (bytes.drop 28).take 4 := by
  obtain ⟨late, rfl⟩ := Recv.exists_frame hframe
  have hnone : seen.drop (bytes.length - 28) = [] := List.drop_eq_nil_of_le (by omega)
  rw [overlay, hnone, List.append_nil]

theorem arpSenderMac_whole (hframe : e.frame? = some bytes) (hwhole : 42 ≤ bytes.length) :
    arpSenderMac (recvInto etherFrame e) = (bytes.drop 22).take 6 := by
  obtain ⟨late, rfl⟩ := Recv.exists_frame hframe
  have hnone : (etherFrame.read 22 6).drop (bytes.length - 22) = [] :=
    List.drop_eq_nil_of_le (by rw [Mem.read_length]; omega)
  rw [arpSenderMac, read_recvInto_frame (by decide), hnone, List.append_nil]

/-! ## The loop

Both lemmas are inductions on the calls, over the buffer that the calls before left. -/

theorem Waits.seen_ne {seen : List UInt8} (h : Waits asking seen events) : seen ≠ asking := by
  cases events with
  | nil => exact h
  | cons e rest => exact h.1

/-- No call that the loop waited through showed the address. -/
theorem Waits.overlay_ne (h : Waits asking seen (before ++ e :: after)) :
    overlay (before.foldl overlay seen) e ≠ asking := by
  induction before generalizing seen with
  | nil => exact Waits.seen_ne h.2.2
  | cons d rest ih => exact ih h.2.2

/-- The loop goes on, or it gives up at some call, or some call shows the address. -/
theorem arpLoop_cases (hne : arpSenderIp etherFrame ≠ asking) (events : List Recv) :
    arpLoop asking result etherFrame events = none ∨
      ∃ before e after, events = before ++ e :: after ∧
        Waits asking (arpSenderIp etherFrame) before ∧
        ((e.givesUp = true ∧ arpLoop asking result etherFrame events =
            some { ret := -1, result := result, received := before ++ [e] }) ∨
          (e.givesUp = false ∧
            overlay (before.foldl overlay (arpSenderIp etherFrame)) e = asking)) := by
  induction events generalizing etherFrame with
  | nil => exact Or.inl (if_neg hne)
  | cons e rest ih =>
    cases hup : e.givesUp with
    | true =>
      refine Or.inr ⟨[], e, rest, rfl, hne, Or.inl ⟨hup, ?_⟩⟩
      rw [arpLoop, if_neg hne, if_pos hup]
      rfl
    | false =>
      have hnext := @arpSenderIp_recvInto etherFrame e
      by_cases hseen : arpSenderIp (recvInto etherFrame e) = asking
      · exact Or.inr ⟨[], e, rest, rfl, hne, Or.inr ⟨hup, hnext ▸ hseen⟩⟩
      · have hloop : arpLoop asking result etherFrame (e :: rest) =
            (arpLoop asking result (recvInto etherFrame e) rest).map fun o =>
              { o with received := e :: o.received } := by
          rw [arpLoop, if_neg hne, if_neg (by simp [hup])]
        rw [hloop]
        rcases ih hseen with hnone | ⟨before, d, after, rfl, hwaits, hend⟩
        · exact Or.inl (by rw [hnone]; rfl)
        · rw [hnext] at hwaits hend
          refine Or.inr ⟨e :: before, d, after, rfl, ⟨hne, hup, hwaits⟩, ?_⟩
          rcases hend with ⟨hd, hret⟩ | hshown
          · exact Or.inl ⟨hd, by rw [hret]; rfl⟩
          · exact Or.inr hshown

/-- Once a call shows the address the loop is over, whatever that call delivered. -/
theorem arpLoop_of_shown (hwaits : Waits asking (arpSenderIp etherFrame) before)
    (hup : e.givesUp = false)
    (hshown : overlay (before.foldl overlay (arpSenderIp etherFrame)) e = asking) :
    arpLoop asking result etherFrame (before ++ e :: after) =
      some { ret := 0
             result := arpSenderMac (recvInto (before.foldl recvInto etherFrame) e)
             received := before ++ [e] } := by
  induction before generalizing etherFrame with
  | nil =>
    have hnext : arpSenderIp (recvInto etherFrame e) = asking := by
      rw [arpSenderIp_recvInto]
      exact hshown
    have hrest : arpLoop asking result (recvInto etherFrame e) after =
        some { ret := 0, result := arpSenderMac (recvInto etherFrame e), received := [] } := by
      cases after <;> exact if_pos hnext
    rw [List.nil_append, arpLoop, if_neg hwaits, if_neg (by simp [hup]), hrest]
    rfl
  | cons d rest ih =>
    obtain ⟨hne, hd, hwaits⟩ := hwaits
    rw [← arpSenderIp_recvInto] at hwaits
    have hloop := ih hwaits (by rw [arpSenderIp_recvInto]; exact hshown)
    rw [List.cons_append, arpLoop, if_neg hne, if_neg (by simp [hd]), hloop]
    rfl

/-! ## The last frame

Calls that fail deliver none. A frame that the loop waited through did not show the address, since
the loop would have ended with it.
-/

theorem lastFrame_append (h : e.frame? = some bytes) : lastFrame (before ++ [e]) = some bytes := by
  simp [lastFrame, h]

theorem lastFrame_append_none (h : e.frame? = none) :
    lastFrame (before ++ [e]) = lastFrame before := by
  simp [lastFrame, h]

/-- The last frame that the loop waited through does not come from the address. -/
theorem Waits.lastFrame_ne (h : Waits asking seen before) (hlen : seen.length = 4)
    (hlast : lastFrame before = some bytes) (hwhole : 42 ≤ bytes.length) :
    (bytes.drop 28).take 4 ≠ asking := by
  obtain ⟨e, he, hframe⟩ := List.mem_filterMap.mp (List.mem_of_getLast? hlast)
  obtain ⟨early, later, rfl⟩ := List.append_of_mem he
  rw [← overlay_whole hframe hwhole (overlay_foldl_length hlen early)]
  exact h.overlay_ne

/-! ## The request

The buffer that the loop starts on is the request itself, so what it shows first is the address of
the interface. That it is not the address asked for is the one hypothesis of the theorem. -/

theorem requestFrame_length (srcMac : Mac) (srcIp dstIp : Ip) :
    (requestFrame srcMac srcIp dstIp).length = 42 := by
  simp [requestFrame]

/-- The buffer that the loop starts on: the request names the interface as its sender. -/
theorem request_senderIp :
    arpSenderIp (garbage.write 0 (requestFrame srcMac srcIp dstIp)) = srcIp.toList := by
  have hread := @Mem.read_write_inside garbage 0 4 28 (requestFrame srcMac srcIp dstIp)
    (by rw [requestFrame_length]; decide)
  rw [Nat.zero_add] at hread
  rw [arpSenderIp, hread]
  simp [requestFrame, List.drop_append, List.take_append]

theorem request_targetIp :
    (garbage.write 0 (requestFrame srcMac srcIp dstIp)).read 38 4 = dstIp.toList := by
  have hread := @Mem.read_write_inside garbage 0 4 38 (requestFrame srcMac srcIp dstIp)
    (by simp [requestFrame_length])
  rw [Nat.zero_add] at hread
  rw [hread]
  simp [requestFrame, List.drop_append, List.drop_eq_nil_of_le, List.take_of_length_le]

theorem arpRequest_sent :
    arpRequest srcMac srcIp dstIp garbage res true events =
      arpLoop dstIp.toList res.toList (garbage.write 0 (requestFrame srcMac srcIp dstIp))
        events := by
  simp only [arpRequest, if_true, request_targetIp]

/-- Where the first call that shows the address delivers an ARP packet, the loop ends well. -/
theorem EndsOnArp.trustsArp (h : EndsOnArp srcIp dstIp events) (hne : srcIp ≠ dstIp)
    (hsender : arpSenderIp etherFrame = srcIp.toList) :
    TrustsArp dstIp res (arpLoop dstIp.toList res.toList etherFrame events) := by
  intro o' ho'
  have hstart : arpSenderIp etherFrame ≠ dstIp.toList := by
    rw [hsender]
    exact fun heq => hne (Vector.toList_inj.mp heq)
  rcases @arpLoop_cases _ res.toList _ hstart events with
    hnone | ⟨before, e, after, rfl, hwaits, ⟨-, hret⟩ | ⟨hup, hshown⟩⟩
  · rw [hnone] at ho'
    cases ho'
  · rw [hret] at ho'
    cases ho'
    exact Or.inr ⟨rfl, rfl⟩
  · rw [arpLoop_of_shown hwaits hup hshown] at ho'
    cases ho'
    rw [hsender] at hwaits hshown
    obtain ⟨bytes, hframe, hpacket⟩ := h before e after rfl hwaits hup hshown
    have hlen : srcIp.toList.length = 4 := Vector.length_toList
    have hseen := overlay_whole hframe hpacket.whole (overlay_foldl_length hlen before)
    exact Or.inl ⟨rfl, bytes, lastFrame_append hframe, hpacket, hseen.symm.trans hshown,
      arpSenderMac_whole hframe hpacket.whole⟩

theorem TrustsArp.endsOnArp
    (h : TrustsArp dstIp res (arpLoop dstIp.toList res.toList etherFrame events))
    (hsender : arpSenderIp etherFrame = srcIp.toList) : EndsOnArp srcIp dstIp events := by
  rintro before e after rfl hwaits hup hshown
  have hret := @arpLoop_of_shown _ res.toList etherFrame before after e
    (hsender.symm ▸ hwaits) hup (hsender.symm ▸ hshown)
  obtain ⟨-, bytes, hlast, hpacket, hfrom, -⟩ | ⟨hret, -⟩ := h _ hret
  · cases hframe : e.frame? with
    | some bytes' =>
      rw [lastFrame_append hframe] at hlast
      exact ⟨bytes', rfl, Option.some.inj hlast ▸ hpacket⟩
    | none =>
      -- the last frame is one that the loop waited through
      rw [lastFrame_append_none hframe] at hlast
      exact absurd hfrom (hwaits.lastFrame_ne Vector.length_toList hlast hpacket.whole)
  · exact absurd hret (show (0 : Int) ≠ -1 by decide)

/-- **ARP resolution.** The result rests on an ARP packet exactly when the request goes out and the
first call that shows the address asked for delivers one. -/
theorem trustsArp_iff (hne : srcIp ≠ dstIp) (srcMac : Mac) (garbage : Mem) (result : Mac)
    (sent : Bool) (events : List Recv) :
    TrustsArp dstIp result (arpRequest srcMac srcIp dstIp garbage result sent events) ↔
      sent = true ∧ EndsOnArp srcIp dstIp events := by
  cases sent with
  | false =>
    -- the caller is told 0 with the result as it was
    refine iff_of_false (fun h => ?_) fun h => nomatch h.1
    obtain ⟨-, bytes, hlast, -⟩ | ⟨hret, -⟩ := h _ rfl
    · cases hlast
    · exact absurd hret (show (0 : Int) ≠ -1 by decide)
  | true =>
    rw [and_iff_right rfl, arpRequest_sent]
    exact ⟨fun h => h.endsOnArp request_senderIp, fun h => h.trustsArp hne request_senderIp⟩

end Arp

/-- A reply from 10.0.0.9. -/
def replyFrame : List UInt8 :=
  List.replicate 12 1 ++ [8, 6, 0, 1, 8, 0, 6, 4, 0, 2] ++ [2, 4, 6, 8, 10, 12] ++ [10, 0, 0, 9] ++
    List.replicate 10 1

theorem trustsArp_reply :
    TrustsArp #v[10, 0, 0, 9] (Vector.replicate 6 0)
      (arpRequest (Vector.replicate 6 1) #v[10, 0, 0, 1] #v[10, 0, 0, 9] (fun _ => 0)
        (Vector.replicate 6 0) true [.eintr, .frame replyFrame false]) :=
  (trustsArp_iff (by decide) _ _ _ _ _).mpr ⟨rfl, fun before e after hevents _ _ hshown => by
    have he : e ∈ [.eintr, .frame replyFrame false] := by simp [hevents]
    rcases List.mem_cons.mp he with rfl | he
    · cases hshown
    · obtain rfl := List.mem_singleton.mp he
      exact ⟨replyFrame, rfl, by decide, by decide, by decide, by decide⟩⟩

/-- An IPv4 packet whose addresses have 10.0.0.9 across them. -/
def strayFrame : List UInt8 :=
  List.replicate 12 1 ++ [8, 0] ++ List.replicate 14 0 ++ [10, 0, 0, 9] ++ List.replicate 28 0

theorem trustsArp_fails :
    ¬ ∀ (srcMac : Mac) (srcIp dstIp : Ip) (garbage : Mem) (result : Mac) (sent : Bool)
      (events : List Recv), srcIp ≠ dstIp →
      TrustsArp dstIp result (arpRequest srcMac srcIp dstIp garbage result sent events) := by
  intro hall
  have htrusts := hall (Vector.replicate 6 1) #v[10, 0, 0, 1] #v[10, 0, 0, 9] (fun _ => 0)
    (Vector.replicate 6 0) true [.frame strayFrame false] (by decide)
  obtain ⟨buf, hbuf⟩ : ∃ buf, buf = Mem.write (fun _ => 0) 0
      (requestFrame (Vector.replicate 6 1) #v[10, 0, 0, 1] #v[10, 0, 0, 9]) := ⟨_, rfl⟩
  have hsender : arpSenderIp buf = [10, 0, 0, 1] := hbuf ▸ request_senderIp
  rw [arpRequest_sent, ← hbuf] at htrusts
  have hne : arpSenderIp buf ≠ [10, 0, 0, 9] := by
    rw [hsender]
    decide
  -- the packet is taken for a reply
  have hret := @arpLoop_of_shown [10, 0, 0, 9] (List.replicate 6 0) buf [] []
    (.frame strayFrame false) hne rfl (by rw [hsender]; decide)
  obtain ⟨-, bytes, hlast, hpacket, -⟩ | ⟨hret, -⟩ := htrusts _ hret
  · obtain rfl : strayFrame = bytes := Option.some.inj hlast
    exact absurd hpacket.etherType (by decide)
  · exact absurd hret (show (0 : Int) ≠ -1 by decide)

end Lanes
