import Lanes.Lane.Hosts
import Lanes.Ring.Fifo

/-!
# The order of packets along a lane

What `tx_io` and `rx_io` commit follows the order of their reads, and what `tx` and `rx` send
follows the order in which `pop` hands packets over. So a lane keeps the order wherever both rings
are the queues of `Ring.Fifo` and the network hands over in order.

A packet passes five places, and the proof has a relation of sublists for each step between them:
read by `tx_io`, committed, handed to `tx`, on the wire, read by `rx_io`, and so on to the far
tunnel. `Orderly` is the condition on the steps, `LaneOrder` the invariant and `lane_order` the
result for one queue on each host.

* **`Ordered`**: inside one host, the two places where its threads keep the order. What is committed
  is a sublist of what was read, and what was sent is exactly what was handed over.
* **`InOrder`**: one ring of one host; `Ordered` joined with the queue of `Ring.Fifo`, which keeps
  the order between the commit and the pop.
* **`LaneOrder`**: both rings, and the wire between them, in order up to losses.

More than one queue on a host has no order: two workers may send in any order.
-/

namespace Lanes

/-! ## What becomes of a read

A packet too short to be sent leaves no trace at the other end, so the lists compared are those of
the packets that can be sent (`Packet.whole`). Two of them are under way: the one that the producer
has read and not committed (`ready`), the one that the worker has popped and not sent (`owed`). -/

/-- The bytes of a packet that is long enough to be sent. -/
def Packet.whole (p : Packet) : Option (List UInt8) := if 14 < p.len then some p.bytes else none

/-- The reads that `rx_io` lets through; `tx_io` keeps every read. -/
def Kept (ses : Session) (r : ReadEvent) : Bool :=
  match ses.dir with
  | .egress => true
  | .ingress => Tunnelled ses r

/-- The payloads of the reads kept, in the order of the reads. -/
def kept (ses : Session) (s : Sys) : List (List UInt8) :=
  (s.reads.filter (Kept ses)).map (ReadEvent.payload ses.dir)

theorem kept_egress {ses : Session} (h : ses.dir = .egress) (s : Sys) :
    kept ses s = s.reads.map ReadEvent.bytes := by
  have hkeep : Kept ses = fun _ => true := funext fun r => by simp [Kept, h]
  simp [kept, hkeep, h, ReadEvent.payload]

theorem kept_ingress {ses : Session} (h : ses.dir = .ingress) (s : Sys) :
    kept ses s = (s.reads.filter (Tunnelled ses)).map fun r => r.bytes.drop 34 := by
  have hkeep : Kept ses = Tunnelled ses := funext fun r => by simp [Kept, h]
  simp [kept, hkeep, h, ReadEvent.payload]

/-- What a commit of the producer would add. -/
def ready (ses : Session) (s : Sys) : List (List UInt8) :=
  match s.prod with
  | .holding i true =>
    (packetAt s.pool (s.q.setSlot i (trimSlot ses.dir (s.q.R i))) i).whole.toList
  | _ => []

/-- What the worker is about to send. -/
def owed (s : Sys) : List (List UInt8) :=
  match s.work with
  | .holding i _ false => (packetAt s.pool s.q i).whole.toList
  | _ => []

/-- Commits follow the reads, and sends follow the pops. -/
structure Ordered (ses : Session) (s : Sys) : Prop where
  read : (s.committed.filterMap Packet.whole ++ ready ses s).Sublist (kept ses s)
  sent : s.sent.map (SendEvent.payload ses.dir) ++ owed s = s.handed.filterMap Packet.whole

section Steps

variable {ses : Session} {s s' : Sys} {a : Action} {src : Nat → Nat} {ids : List Nat}
  {i before : Nat} {filled : Bool}

/-- The packet in a slot depends on its length and, as far as it can be sent, on its payload. -/
theorem whole_congr {pool pool' : Mem} {q q' : Q} (hlen : (q'.R i).len = (q.R i).len)
    (hdata : (q'.R i).data = (q.R i).data)
    (hpool : 14 < (q.R i).len →
      pool'.read (q.R i).data (q.R i).len.toNat = pool.read (q.R i).data (q.R i).len.toNat) :
    (packetAt pool' q' i).whole = (packetAt pool q i).whole := by
  by_cases h14 : 14 < (q.R i).len
  · rw [packetAt_congr hlen hdata (hpool h14)]
  · simp [Packet.whole, packetAt, hlen, h14]

theorem filterMap_whole_concat (ps : List Packet) (p : Packet) :
    (ps ++ [p]).filterMap Packet.whole = ps.filterMap Packet.whole ++ p.whole.toList := by
  rw [List.filterMap_append]
  cases hp : p.whole <;> simp [hp]

/-- What a read that ended the loop left to be committed is its payload, if it can be sent. -/
theorem whole_of_read {pool : Mem} {q : Q} {frame : List UInt8}
    (hplace : Placed ses.mtu i (q.R i)) {bs : List UInt8}
    (hwhole : (packetAt (readSlot ses pool (q.R i) (some frame)).1
      (q.setSlot i (trimSlot ses.dir (readSlot ses pool (q.R i) (some frame)).2)) i).whole =
        some bs) : bs = ReadEvent.payload ses.dir ⟨i, readBytes ses frame⟩ := by
  have hlen := @readSlot_len_some ses pool (q.R i) frame
  have hstored := @readSlot_stored ses pool (q.R i) hplace.ip hplace.data frame
  have hsame := @readSlot_same ses pool (q.R i) (some frame)
  unfold Packet.whole at hwhole
  split at hwhole
  · rename_i h14
    obtain rfl := Option.some.inj hwhole
    cases hd : ses.dir with
    | egress =>
      simp only [hd, readAt] at hstored
      simp [packetAt, Q.setSlot, trimSlot, hlen, hsame.data, ReadEvent.payload, hstored]
    | ingress =>
      simp only [packetAt, Q.setSlot, Function.update_self, hd, trimSlot, rxIoTrim, ethIp4_eq,
        hlen] at h14
      have hge : (readBytes ses frame).length = 34 + ((readBytes ses frame).length - 34) := by omega
      have hcount : (((readBytes ses frame).length : Int) - (34 : Nat)).toNat =
          (readBytes ses frame).length - 34 := by omega
      simp only [hd, readAt] at hstored
      simp only [packetAt, Q.setSlot, Function.update_self, trimSlot, rxIoTrim, ethIp4_eq, hlen,
        hcount, hsame.data, hplace.data, ReadEvent.payload]
      rw [← Mem.read_drop, ← hge, hstored]
  · cases hwhole

/-- What is sent of a slot is the packet in it. -/
theorem send_whole {pool : Mem} {q : Q} (hplace : Placed ses.mtu i (q.R i)) (before : Nat) :
    ((sendSlot ses.dir pool (q.R i)).map fun bs =>
      SendEvent.payload ses.dir ⟨i, bs, before⟩) = (packetAt pool q i).whole := by
  by_cases h14 : 14 < (q.R i).len
  · cases hd : ses.dir with
    | egress =>
      have hcount : ((q.R i).len + (14 + 20 : Nat)).toNat = 34 + (q.R i).len.toNat := by omega
      simp only [sendSlot, txSend, gt_iff_lt, h14, if_true, Option.map_some, SendEvent.payload,
        Packet.whole, packetAt, hplace.data, ethHdrLen_eq, ip4HdrLen_eq]
      rw [hcount, Mem.read_drop]
    | ingress =>
      simp only [sendSlot, rxWrite, gt_iff_lt, h14, if_true, Option.map_some, SendEvent.payload,
        Packet.whole, packetAt, hplace.data, ethHdrLen_eq, ip4HdrLen_eq]
  · simp [sendSlot_none h14, Packet.whole, packetAt, h14]

/-- A step that keeps the producer's slot, its length and its payload keeps what is ready. -/
theorem ready_congr (hprod : s'.prod = s.prod) (hpool : s'.pool = s.pool)
    (hslot : ∀ i, s.prod = .holding i true →
      (s'.q.R i).len = (s.q.R i).len ∧ (s'.q.R i).data = (s.q.R i).data) :
    ready ses s' = ready ses s := by
  unfold ready
  rw [hprod, hpool]
  split
  · rename_i i hp
    obtain ⟨hlen, hdata⟩ := hslot i hp
    have htrim : (trimSlot ses.dir (s'.q.R i)).len = (trimSlot ses.dir (s.q.R i)).len := by
      cases ses.dir <;> simp [trimSlot, rxIoTrim, hlen]
    rw [whole_congr (q := s.q.setSlot i (trimSlot ses.dir (s.q.R i)))]
    · simp only [Q.setSlot, Function.update_self, htrim]
    · simp only [Q.setSlot, Function.update_self, (trimSlot_same ses.dir).data, hdata]
    · exact fun _ => rfl
  · rfl

/-- A step that keeps the worker's slot keeps what it is about to send. -/
theorem owed_congr (hwork : s'.work = s.work)
    (hslot : ∀ i before, s.work = .holding i before false →
      (packetAt s'.pool s'.q i).whole = (packetAt s.pool s.q i).whole) : owed s' = owed s := by
  unfold owed
  rw [hwork]
  split
  · rw [hslot _ _ ‹_›]
  · rfl

/-- A read leaves the packet in the worker's slot as it is, if it can be sent. -/
theorem owed_read (hprov : ProvInv ses src ids s) (hs : Sound ses s)
    (hp : s.prod = .holding i filled) (got : Option (List UInt8)) :
    owed (s.readStep ses i got) = owed s := by
  refine owed_congr rfl fun j before hw => ?_
  have hne : j ≠ i := hs.slot_ne hp hw
  have hi : i < s.q.rsz := hs.owned.prod_lt i (by rw [hp]; rfl)
  have hj : j < s.q.rsz := by
    have := hs.owned.work_lt j (by rw [hw]; rfl)
    omega
  have hslot : (s.readStep ses i got).q.R j = s.q.R j := by
    simp [Sys.readStep, Q.setSlot, Function.update_of_ne hne]
  refine whole_congr (congrArg RNG.len hslot) (congrArg RNG.data hslot) fun h14 => ?_
  have hprod : s.prod.slot? ≠ some j := by
    rw [hp]
    simpa [Prod.slot?] using Ne.symm hne
  obtain ⟨r, -, hcar, -⟩ := hprov.carried j hj hprod (fun b he => by rw [hw] at he; cases he) h14
  have hfits := hcar.fits
  have hlen := hcar.len
  have hplace := hs.layout j hj
  rw [hplace.data, hplace.eth]
  exact readSlot_payload (hs.layout i hi) (Ne.symm hne) got (by omega)

/-- Nothing is ready in a slot that was just taken, and a lock is no part of a packet. -/
theorem Ordered.push (h : Ordered ses s) (hs : Sound ses s) (hp : s.prod = .idle) :
    Ordered ses s.pushStep := by
  have hread := h.read
  rw [hs.pushStep_eq hp]
  split
  · exact ⟨h.read, h.sent⟩
  · refine ⟨?_, ?_⟩
    · simpa [ready, hp, kept] using hread
    · have howed : owed { s with q := pushAcquired s.q, prod := .holding (pushTarget s.q) false } =
          owed s :=
        owed_congr rfl fun j _ _ => by rw [packetAt_lock s.pool (q := s.q) rfl j]
      rw [howed]
      exact h.sent

/-- A failed read takes back what was ready: the slot has to be read into again. -/
theorem Ordered.readNone (h : Ordered ses s) (hprov : ProvInv ses src ids s) (hs : Sound ses s)
    (hp : s.prod = .holding i filled) : Ordered ses (s.readStep ses i none) where
  read := by
    have hready : ready ses (s.readStep ses i none) = [] := by
      unfold ready
      split
      · rename_i hdone
        cases readDone_isSome (Prod.holding.inj hdone).2
      · rfl
    have hkept : kept ses (s.readStep ses i none) = kept ses s := by simp [kept, Sys.readStep]
    rw [hready, List.append_nil, hkept]
    exact (List.sublist_append_left ..).trans h.read
  sent := by
    rw [owed_read hprov hs hp]
    exact h.sent

/-- A read comes last among those kept, and what was ready before it is lost. -/
theorem Ordered.readSome (h : Ordered ses s) (hprov : ProvInv ses src ids s) (hs : Sound ses s)
    (hp : s.prod = .holding i filled) (frame : List UInt8) :
    Ordered ses (s.readStep ses i (some frame)) where
  read := by
    have hi : i < s.q.rsz := hs.owned.prod_lt i (by rw [hp]; rfl)
    have hplace := hs.layout i hi
    obtain ⟨r, hr⟩ : ∃ r : ReadEvent, r = ⟨i, readBytes ses frame⟩ := ⟨_, rfl⟩
    have hkept : kept ses (s.readStep ses i (some frame)) =
        kept ses s ++ if Kept ses r then [r.payload ses.dir] else [] := by
      simp only [kept, Sys.readStep, Option.map_some, Option.toList_some, List.filter_append,
        List.map_append, ← hr]
      cases hk : Kept ses r <;> simp [hk]
    have hbefore : (s.committed.filterMap Packet.whole).Sublist (kept ses s) :=
      (List.sublist_append_left ..).trans h.read
    rw [hkept]
    refine List.Sublist.append hbefore ?_
    -- what is ready now is the frame just read, if that ended the loop and can be sent
    unfold ready
    split
    · rename_i j hprod
      obtain ⟨rfl, hdone⟩ := Prod.holding.inj hprod
      cases hwhole : (packetAt (s.readStep ses i (some frame)).pool
          ((s.readStep ses i (some frame)).q.setSlot i
            (trimSlot ses.dir ((s.readStep ses i (some frame)).q.R i))) i).whole with
      | none => exact List.nil_sublist _
      | some bs =>
        have hwhole' : (packetAt (readSlot ses s.pool (s.q.R i) (some frame)).1
            (s.q.setSlot i (trimSlot ses.dir (readSlot ses s.pool (s.q.R i) (some frame)).2))
            i).whole = some bs := by
          simpa [Sys.readStep, Q.setSlot] using hwhole
        have hbs : bs = r.payload ses.dir := hr ▸ whole_of_read hplace hwhole'
        have hk : Kept ses r = true := by
          unfold Kept
          cases hd : ses.dir with
          | egress => rfl
          | ingress =>
            rw [hr]
            refine tunnelled_of_done hd hplace hdone ?_
            have hlen := @readSlot_len_some ses s.pool (s.q.R i) frame
            unfold Packet.whole at hwhole'
            split at hwhole'
            · rename_i h14
              simp only [packetAt, Q.setSlot, Function.update_self, trimSlot, hd, rxIoTrim,
                ethIp4_eq, hlen] at h14
              omega
            · cases hwhole'
        rw [if_pos hk, hbs]
        exact List.Sublist.refl _
    · exact List.nil_sublist _
  sent := by
    rw [owed_read hprov hs hp]
    exact h.sent

/-- What was ready is committed. -/
theorem Ordered.commit (h : Ordered ses s) (hs : Sound ses s) (hp : s.prod = .holding i true) :
    Ordered ses (s.commitStep ses i) where
  read := by
    have hready : ready ses s =
        (packetAt s.pool (s.q.setSlot i (trimSlot ses.dir (s.q.R i))) i).whole.toList := by
      simp only [ready, hp]
    have hcommitted : (s.commitStep ses i).committed.filterMap Packet.whole =
        s.committed.filterMap Packet.whole ++ ready ses s := by
      rw [hready]
      exact filterMap_whole_concat ..
    rw [hcommitted, show ready ses (s.commitStep ses i) = [] from rfl, List.append_nil]
    exact h.read
  sent := by
    have howed : owed (s.commitStep ses i) = owed s := by
      refine owed_congr rfl fun j before hw => ?_
      have hne : j ≠ i := hs.slot_ne hp hw
      have hslot : (s.q.setSlot i (trimSlot ses.dir (s.q.R i))).R j = s.q.R j := by
        simp [Q.setSlot, Function.update_of_ne hne]
      have hcommit : packetAt s.pool (s.commitStep ses i).q j =
          packetAt s.pool (s.q.setSlot i (trimSlot ses.dir (s.q.R i))) j :=
        packetAt_lock s.pool commit_R j
      refine (congrArg Packet.whole hcommit).trans ?_
      rw [packetAt_congr (congrArg RNG.len hslot) (congrArg RNG.data hslot) rfl]
    rw [howed]
    exact h.sent

/-- A packet that is handed over is owed. A pop without one may reset the ring, and what was ready
can then no longer be sent. -/
theorem Ordered.pop (h : Ordered ses s) (hs : Sound ses s) (hw : s.work = .idle) :
    Ordered ses s.popStep := by
  have howed : owed s = [] := by simp only [owed, hw]
  have hsent := h.sent
  rw [howed, List.append_nil] at hsent
  rw [hs.popStep_eq hw]
  split
  · refine ⟨?_, ?_⟩
    · refine List.Sublist.trans (List.Sublist.append_left ?_ _) h.read
      -- a reset makes the length of the producer's slot 0
      unfold ready
      split
      · rename_i i hp
        have hi : i < s.q.rsz := by
          refine hs.owned.prod_lt i ?_
          rw [show s.prod = .holding i true from hp]
          rfl
        simp only at hp
        have hsame := (popReset_same (q := { s.q with sz := 0 }) i).data
        rcases popReset_len (q := { s.q with sz := 0 }) i hi with h0 | hlen
        · have hnone : (packetAt s.pool ((popReset { s.q with sz := 0 }).setSlot i
              (trimSlot ses.dir ((popReset { s.q with sz := 0 }).R i))) i).whole = none := by
            unfold Packet.whole
            refine if_neg ?_
            cases ses.dir <;> simp [packetAt, Q.setSlot, trimSlot, rxIoTrim, h0]
          simp only [hnone, Option.toList_none]
          exact List.nil_sublist _
        · have hready := @ready_congr ses s { s with q := popReset { s.q with sz := 0 } } rfl rfl
            fun j hj => by
              obtain rfl : i = j := (Prod.holding.inj (hp.symm.trans hj)).1
              exact ⟨hlen, hsame⟩
          simp only [ready, hp] at hready ⊢
          rw [hready]
      · exact List.nil_sublist _
    · simp only [owed, hw, List.append_nil]
      exact hsent
  · have hlen : ∀ j, ((popTaken s.q).R j).len = (s.q.R j).len := fun j => len_update_lock _ _
    have hdata : ∀ j, ((popTaken s.q).R j).data = (s.q.R j).data := fun j => data_update_lock _ _
    refine ⟨?_, ?_⟩
    · have hready : ready ses { s with
          q := popTaken s.q
          work := .holding (popTarget s.q) s.reads.length false
          handed := s.handed ++ [packetAt s.pool (popTaken s.q) (popTarget s.q)] } = ready ses s :=
        ready_congr rfl rfl fun j _ => ⟨hlen j, hdata j⟩
      rw [hready]
      exact h.read
    · simp only [owed]
      rw [filterMap_whole_concat, ← hsent]

/-- What was owed is sent. -/
theorem Ordered.use (h : Ordered ses s) (hs : Sound ses s) (hw : s.work = .holding i before false) :
    Ordered ses (s.useStep ses i before) where
  read := by
    rw [ready_congr rfl rfl fun _ _ => ⟨rfl, rfl⟩]
    exact h.read
  sent := by
    have hi : i < s.q.rsz := by
      have := hs.owned.work_lt i (by rw [hw]; rfl)
      omega
    have hsent := h.sent
    simp only [owed, hw] at hsent
    simp only [Sys.useStep, owed, List.append_nil]
    rw [← hsent, List.map_append, ← send_whole (hs.layout i hi) before]
    cases sendSlot ses.dir s.pool (s.q.R i) <;> rfl

/-- The slot released is not the producer's, so what is ready stays. -/
theorem Ordered.release (h : Ordered ses s) (hs : Sound ses s)
    (hw : s.work = .holding i before true) : Ordered ses (s.releaseStep i) where
  read := by
    have hready : ready ses (s.releaseStep i) = ready ses s := ready_congr rfl rfl fun j hj => by
      have hne : j ≠ i := (hs.slot_ne hj hw).symm
      simp only [Sys.releaseStep, release_R, Function.update_of_ne hne, and_self]
    rw [hready]
    exact h.read
  sent := by
    have hsent := h.sent
    simp only [owed, hw] at hsent
    exact hsent

theorem Ordered.step (h : Ordered ses s) (hprov : ProvInv ses src ids s) (hs : Sound ses s)
    (ha : Lanes.step ses s a = some s') : Ordered ses s' := by
  obtain ⟨-, hp, rfl⟩ | ⟨got, i, filled, -, hp, rfl⟩ | ⟨i, -, hp, rfl⟩ | ⟨-, hw, rfl⟩ |
    ⟨i, before, -, hw, rfl⟩ | ⟨i, before, -, hw, rfl⟩ := step_cases ha
  · exact h.push hs hp
  · cases got with
    | none => exact h.readNone hprov hs hp
    | some frame => exact h.readSome hprov hs hp frame
  · exact h.commit hs hp
  · exact h.pop hs hw
  · exact h.use hs hw
  · exact h.release hs hw

end Steps

/-! ## One ring

The three invariants of a ring in one: its slots, where its packets come from, and its queue. -/

/-- The ring is a queue and the order has been kept so far. -/
structure InOrder (ses : Session) (s : Sys) : Prop where
  sound : Sound ses s
  prov : ∃ src ids, ProvInv ses src ids s
  queue : ∃ waiting, Holds ses waiting s
  ordered : Ordered ses s

/-- The invariants side by side. Only the queue needs the pops to be cursor safe. -/
theorem InOrder.step {ses : Session} {s s' : Sys} {a : Action} (h : InOrder ses s)
    (hok : CursorSafe s a) (ha : Lanes.step ses s a = some s') : InOrder ses s' := by
  obtain ⟨src, ids, hprov⟩ := h.prov
  obtain ⟨waiting, hqueue⟩ := h.queue
  exact
    { sound := h.sound.step ha
      prov := hprov.step h.sound ha
      queue := hqueue.step h.sound hok ha
      ordered := h.ordered.step hprov h.sound ha }

theorem Sys.Start.inOrder {ses : Session} {s : Sys} (h : s.Start ses) : InOrder ses s where
  sound := h.sound
  prov := ⟨_, _, h.provInv⟩
  queue := ⟨_, h.holds⟩
  ordered :=
    { read := by simp [h.committed, ready, h.prod]
      sent := by simp [h.sent, h.handed, owed, h.work] }

/-- What was sent are payloads of the reads let through, in the order of the reads: the sends follow
the pops, the pops the commits and the commits the reads. -/
theorem InOrder.sublist {ses : Session} {s : Sys} (h : InOrder ses s) :
    (s.sent.map (SendEvent.payload ses.dir)).Sublist (kept ses s) := by
  obtain ⟨waiting, hqueue⟩ := h.queue
  have hpops : (s.sent.map (SendEvent.payload ses.dir)).Sublist
      (s.handed.filterMap Packet.whole) := h.ordered.sent ▸ List.sublist_append_left ..
  have hcommits : (s.handed.filterMap Packet.whole).Sublist
      (s.committed.filterMap Packet.whole) := by
    rw [hqueue.history, List.filterMap_append]
    exact List.sublist_append_left ..
  have hreads : (s.committed.filterMap Packet.whole).Sublist (kept ses s) :=
    (List.sublist_append_left ..).trans h.ordered.read
  exact (hpops.trans hcommits).trans hreads

/-! ## The lane

The network may lose a packet, which keeps the order, but copies none and delivers the first packet
on the wire only. -/

/-- The pops are cursor safe, and the network hands over in order and copies nothing. -/
def Orderly (l : Lane) : LaneAction → Prop
  | .near a => CursorSafe l.near a
  | .far a => CursorSafe l.far a
  | .arrive k => k = 0
  | .copy _ => False
  | .stray _ | .lose _ => True

instance : ∀ (l : Lane) (a : LaneAction), Decidable (Orderly l a)
  | _, .near _ => inferInstanceAs (Decidable (CursorSafe _ _))
  | _, .far _ => inferInstanceAs (Decidable (CursorSafe _ _))
  | _, .arrive _ => inferInstanceAs (Decidable (_ = _))
  | _, .copy _ => inferInstanceAs (Decidable False)
  | _, .stray _ | _, .lose _ => inferInstanceAs (Decidable True)

/-- Both rings keep the order, and so does the network. -/
structure LaneOrder (egress ingress : Session) (l : Lane) : Prop where
  near : InOrder egress l.near
  far : InOrder ingress l.far
  wire : (arrived ingress l.far ++ l.wire).Sublist (l.near.sent.map SendEvent.bytes)

section Lanes

variable {egress ingress : Session} {hdr : Headers} {l₀ l l' : Lane} {as : List LaneAction}

/-- A packet goes to the end of the wire when it is sent and leaves at its front when it arrives. A
frame of another host reaches the far ring but is not let through there. -/
theorem LaneOrder.step {a : LaneAction} (hpair : Paired egress ingress hdr)
    (h : LaneOrder egress ingress l) (hinv : LaneInv egress ingress hdr l) (hok : Orderly l a)
    (ha : laneStep egress ingress l a = some l') : LaneOrder egress ingress l' := by
  cases a with
  | near a =>
    obtain ⟨s, hs, rfl⟩ := Option.map_eq_some_iff.mp ha
    refine ⟨h.near.step hok hs, h.far, ?_⟩
    rw [(hinv.near.newPackets hpair hs).1, ← List.append_assoc]
    exact List.Sublist.append h.wire (List.Sublist.refl _)
  | far a =>
    unfold laneStep at ha
    split at ha
    case h_2 => cases ha
    case h_3 b hread heq =>
      obtain rfl := LaneAction.far.inj heq
      obtain ⟨s, hs, rfl⟩ := Option.map_eq_some_iff.mp ha
      refine ⟨h.near, h.far.step hok hs, ?_⟩
      rw [arrived_of_no_read hinv.far.sound hs fun frame hframe => hread frame (by rw [hframe])]
      exact h.wire
    all_goals cases ‹LaneAction.far a = _›
  | arrive k =>
    obtain rfl : k = 0 := hok
    obtain ⟨frame, hk, hread⟩ := Option.bind_eq_some_iff.mp ha
    obtain ⟨s, hs, rfl⟩ := Option.map_eq_some_iff.mp hread
    -- the first packet on the wire moves behind those that have arrived
    obtain ⟨wire, hwire⟩ : ∃ wire, l.wire = frame :: wire := by
      cases hl : l.wire with
      | nil => simp [hl] at hk
      | cons first rest =>
        obtain rfl : first = frame := by simpa [hl] using hk
        exact ⟨rest, rfl⟩
    obtain ⟨i, harrived⟩ := arrived_of_read hs
    obtain ⟨hwhole, htunnelled⟩ :=
      (hinv.carried frame (List.mem_of_getElem? hk)).tunnelled hpair i
    rw [hwhole, if_pos htunnelled] at harrived
    refine ⟨h.near, h.far.step (fun hpop => by cases hpop) hs, ?_⟩
    have hkept := h.wire
    rw [hwire] at hkept
    simpa [harrived, hwire] using hkept
  | stray frame =>
    unfold laneStep at ha
    simp only at ha
    split at ha
    · rename_i hstray
      obtain ⟨s, hs, rfl⟩ := Option.map_eq_some_iff.mp ha
      obtain ⟨i, harrived⟩ := arrived_of_read hs
      rw [not_tunnelled_of_stray hstray hpair.into i] at harrived
      refine ⟨h.near, h.far.step (fun hpop => by cases hpop) hs, ?_⟩
      simpa [harrived] using h.wire
    · cases ha
  | lose k =>
    unfold laneStep at ha
    simp only at ha
    split at ha
    · cases ha
      exact ⟨h.near, h.far, ((List.eraseIdx_sublist ..).append_left _).trans h.wire⟩
    · cases ha
  | copy k => exact hok.elim

/-- Whatever is written to the far tunnel was read from the near tunnel, in the same order. -/
theorem LaneOrder.sublist (hpair : Paired egress ingress hdr) (h : LaneOrder egress ingress l) :
    (l.far.sent.map SendEvent.bytes).Sublist (l.near.reads.map ReadEvent.bytes) := by
  have hnear := h.near.sublist
  have hfar := h.far.sublist
  rw [kept_egress hpair.out, hpair.out] at hnear
  rw [kept_ingress hpair.into, hpair.into] at hfar
  -- the payload of a packet sent is what follows the 34 bytes that the far host skips
  have hskip : l.near.sent.map (SendEvent.payload .egress) =
      (l.near.sent.map SendEvent.bytes).map (List.drop 34) := by
    simp [SendEvent.payload, Function.comp_def]
  have hwire : ((l.far.reads.filter (Tunnelled ingress)).map fun r => r.bytes.drop 34).Sublist
      (l.near.sent.map (SendEvent.payload .egress)) := by
    have := ((List.sublist_append_left ..).trans h.wire).map (List.drop 34)
    rwa [arrived, List.map_map, ← hskip] at this
  have hbytes : l.far.sent.map (SendEvent.payload .ingress) = l.far.sent.map SendEvent.bytes := rfl
  rw [← hbytes]
  exact (hfar.trans hwire).trans hnear

/-- **Order.** In a run of a lane whose pops are cursor safe and whose network keeps the order, the
packets written to the far tunnel are frames read from the near tunnel in the order in which they
were read. -/
theorem lane_order (hpair : Paired egress ingress hdr) (h₀ : l₀.Start egress ingress hdr)
    (hok : Run.Within (laneStep egress ingress) Orderly l₀ as)
    (hrun : Run.exec (laneStep egress ingress) l₀ as = some l) :
    (l.far.sent.map SendEvent.bytes).Sublist (l.near.reads.map ReadEvent.bytes) := by
  have hstart : LaneOrder egress ingress l₀ :=
    ⟨h₀.near.inOrder, h₀.far.inOrder, by simp [h₀.wire, arrived, h₀.far.reads]⟩
  have hinv : LaneInv egress ingress hdr l ∧ LaneOrder egress ingress l := by
    refine Run.invariant_of_within
      (fun l => LaneInv egress ingress hdr l ∧ LaneOrder egress ingress l)
      (fun l a l' hi hok ha => ?_) hok hrun ⟨h₀.inv, hstart⟩
    exact ⟨(hi.1.moves hpair ha).1, hi.2.step hpair hi.1 hok ha⟩
  exact hinv.2.sublist hpair

end Lanes

/-- Two packets, of which the network loses the first. -/
def lossyRun : List LaneAction :=
  [.near .push, .near (.read (some (List.replicate 16 5))), .near .commit, .near .pop, .near .use,
    .near .push, .near (.read (some (List.replicate 16 6))), .near .commit, .near .release,
    .near .pop, .near .use, .lose 0, .far .push, .arrive 0, .far .commit, .far .pop, .far .use]

theorem lane_order_lossy :
    ∃ l, Run.exec (laneStep smallSession smallIngress) smallLane lossyRun = some l ∧
      l.far.sent.map SendEvent.bytes = [List.replicate 16 6] ∧
      (l.far.sent.map SendEvent.bytes).Sublist (l.near.reads.map ReadEvent.bytes) := by
  have hrun : (Run.exec (laneStep smallSession smallIngress) smallLane lossyRun).map
      (fun l => l.far.sent.map SendEvent.bytes) = some [List.replicate 16 6] := by decide +kernel
  obtain ⟨l, hl, hsent⟩ := Option.map_eq_some_iff.mp hrun
  exact ⟨l, hl, hsent, lane_order smallLane_paired smallLane_start
    (by decide +kernel : Run.Within (laneStep smallSession smallIngress) Orderly smallLane
      lossyRun) hl⟩

end Lanes
