import Lanes.Lane.Admission

/-!
# A lane from tunnel to tunnel

A lane is one direction of traffic: the egress ring of one host, the network and the ingress ring of
another host whose peer is the first. The four threads and the network take their steps in any
order, and the network may lose, reorder and copy packets.

`rx_io` knows its peer by the source address of a frame and by nothing else, so a lane can promise
something about what comes out only under conditions on what else goes in:

* the packet socket of the far host may see frames of any content from other hosts, but none that
  shows the near host's address (`Stray`): such a frame would be written to the tunnel like a packet
  of the lane;
* the far interface takes packets as long as those of the near one (`Paired.mtu`), or `rx_io` would
  cut them;
* both rings have three slots or more and start empty, the near one stamped (`Lane.Start`).

`LaneInv` is what every step keeps: either ring does what it should, and what is on the wire is fit
to arrive. `LaneInv.moves` adds to it what a step moves, a packet from the near ring to the wire or
from there to the far ring; `Lane.Link` makes a ledger of these moves over all queues, and
`Lane.Order` one that keeps their order.
-/

namespace Lanes

/-! ## State and steps

A step of the far host that reads a frame is a step of the network, since the frame comes from it:
`.arrive` for a packet of the lane, `.stray` for any other. -/

structure Lane where
  near : Sys
  far : Sys
  /-- The packets sent and not received yet, in the network or waiting at the far packet socket. -/
  wire : List (List UInt8)
  /-- The packets that the network made copies of, one entry for each copy. -/
  copies : List (List UInt8)

inductive LaneAction where
  /-- A step of `tx_io` or `tx`. -/
  | near (a : Action)
  /-- A step of `rx_io` or `rx` that reads no frame. -/
  | far (a : Action)
  /-- `rx_io` reads packet number `k` of those on the wire. -/
  | arrive (k : Nat)
  /-- `rx_io` reads a frame of another host. -/
  | stray (frame : List UInt8)
  | lose (k : Nat)
  | copy (k : Nat)
  deriving Repr, DecidableEq

/-- The packets that a step of the near host put on the wire. -/
def newPackets (s s' : Sys) : List (List UInt8) :=
  (s'.sent.drop s.sent.length).map SendEvent.bytes

/-- The frame does not show the address of the peer. Frames that show it and are none of the lane's
are not among the steps. -/
def Stray (ses : Session) (frame : List UInt8) : Bool := (frame.drop 26).take 4 != le32 ses.peerIp

/-- One step of the lane between two sessions. -/
def laneStep (egress ingress : Session) (l : Lane) : LaneAction → Option Lane
  | .near a => (step egress l.near a).map fun s =>
    { l with near := s, wire := l.wire ++ newPackets l.near s }
  | .far (.read (some _)) => none
  | .far a => (step ingress l.far a).map fun s => { l with far := s }
  | .arrive k => l.wire[k]?.bind fun frame =>
    (step ingress l.far (.read (some frame))).map fun s =>
      { l with far := s, wire := l.wire.eraseIdx k }
  | .stray frame =>
    if Stray ingress frame then
      (step ingress l.far (.read (some frame))).map fun s => { l with far := s }
    else none
  | .lose k => if k < l.wire.length then some { l with wire := l.wire.eraseIdx k } else none
  | .copy k => l.wire[k]?.map fun frame =>
    { l with wire := l.wire ++ [frame], copies := l.copies ++ [frame] }

/-- Both rings are empty, the near one stamped with the template, and nothing is on the wire. -/
structure Lane.Start (egress ingress : Session) (hdr : Headers) (l : Lane) : Prop where
  near : l.near.Start egress
  stamped : Stamped egress.mtu hdr l.near.q l.near.pool
  far : l.far.Start ingress
  wire : l.wire = []
  copies : l.copies = []

/-- The sessions belong together: the far host takes the near host for its peer, and its interface
takes packets as long as those of the near host. -/
structure Paired (egress ingress : Session) (hdr : Headers) : Prop where
  out : egress.dir = .egress
  into : ingress.dir = .ingress
  peer : hdr.iph.saddr = ingress.peerIp
  mtu : egress.mtu ≤ ingress.mtu

/-! ## Packets on the wire

What `tx` sends carries the near host's address and fits the far read, so `rx_io` stores it whole
and lets it through. A stray frame is stored too, but its slot is committed empty. -/

/-- What `tx` sends fits the far read and shows the near host's address. -/
structure Carried (egress ingress : Session) (bytes : List UInt8) : Prop where
  fits : bytes.length ≤ egress.mtu
  whole : 49 ≤ bytes.length
  source : (bytes.drop 26).take 4 = le32 ingress.peerIp

section Packets

variable {egress ingress : Session} {hdr : Headers} {bytes frame : List UInt8}

theorem carried_of_sent (hpair : Paired egress ingress hdr) {reads : List ReadEvent} {id : Nat}
    {e : SendEvent} (hreads : ∀ r ∈ reads, ∃ frame, r.bytes = readBytes egress frame)
    (henv : 49 ≤ e.bytes.length ∧ InEnvelope hdr e.bytes) (hsent : SentFrom egress reads id e) :
    Carried egress ingress e.bytes where
  fits := by
    obtain ⟨r, hr, -, -, hlen, -⟩ := hsent
    obtain ⟨frame, hframe⟩ := hreads r (List.mem_of_getElem? hr)
    have hle := (readBytes_length_le egress frame).2 hpair.out
    simp only [hpair.out, outerLen, ReadEvent.payload] at hlen
    rw [← hframe] at hle
    omega
  whole := henv.1
  source := by
    rw [henv.2 26 4 ⟨by omega, by omega, by omega⟩, Headers.bytes_saddr, hpair.peer]

/-- The far host stores such a packet whole, as one from its peer. -/
theorem Carried.tunnelled (h : Carried egress ingress bytes) (hpair : Paired egress ingress hdr)
    (i : Nat) : readBytes ingress bytes = bytes ∧ Tunnelled ingress ⟨i, bytes⟩ = true := by
  have hfits := h.fits
  have hmtu := hpair.mtu
  refine ⟨?_, ?_⟩
  · simp only [readBytes, hpair.into]
    exact List.take_of_length_le (by omega)
  · simp [Tunnelled, h.source, h.whole]

/-- A frame of another host is not, however much of it the read keeps. -/
theorem not_tunnelled_of_stray (h : Stray ingress frame = true) (hdir : ingress.dir = .ingress)
    (i : Nat) : Tunnelled ingress ⟨i, readBytes ingress frame⟩ = false := by
  have hge := ingress.mtu_ge
  have hsame : ((limitedRead ingress.mtu frame).drop 26).take 4 = (frame.drop 26).take 4 := by
    rw [limitedRead, List.drop_take, List.take_take, Nat.min_eq_left (by omega)]
  have hne : (frame.drop 26).take 4 ≠ le32 ingress.peerIp := bne_iff_ne.mp h
  simp [Tunnelled, readBytes, hdir, hsame, hne]

end Packets

/-! ## The invariant

Either host has its provenance and its special half: the near ring its envelopes, the far one what
it lets through. Both are kept by the steps of that host alone. -/

/-- The frames from the peer that the far host stored. -/
def arrived (ses : Session) (s : Sys) : List (List UInt8) :=
  (s.reads.filter (Tunnelled ses)).map ReadEvent.bytes

/-- The near ring: its packets are enveloped and come from what `tx_io` read. -/
structure NearInv (egress : Session) (hdr : Headers) (s : Sys) : Prop where
  env : Enveloped egress hdr s
  reads : ∀ r ∈ s.reads, ∃ frame, r.bytes = readBytes egress frame
  prov : ∃ src ids, ProvInv egress src ids s

/-- The far ring: it lets through what comes from the peer. -/
structure FarInv (ingress : Session) (s : Sys) : Prop where
  sound : Sound ingress s
  admitted : ∃ src ids, Admitted ingress src ids s

/-- Both rings do what they should, and what is on the wire is fit to arrive. -/
structure LaneInv (egress ingress : Session) (hdr : Headers) (l : Lane) : Prop where
  near : NearInv egress hdr l.near
  far : FarInv ingress l.far
  carried : ∀ bytes ∈ l.wire, Carried egress ingress bytes

section Steps

variable {egress ingress : Session} {hdr : Headers} {l l' : Lane} {s s' : Sys} {a : Action}
  {k : Nat} {frame : List UInt8}

theorem NearInv.step (hdir : egress.dir = .egress) (h : NearInv egress hdr s)
    (ha : step egress s a = some s') : NearInv egress hdr s' where
  env := h.env.step hdir ha
  reads := fun r hr => by
    rcases step_reads h.env.sound ha with hsame | ⟨i, frame, -, -, hsnoc⟩
    · exact h.reads r (hsame ▸ hr)
    · rw [hsnoc, List.mem_append, List.mem_singleton] at hr
      rcases hr with hr | rfl
      · exact h.reads r hr
      · exact ⟨frame, rfl⟩
  prov := by
    obtain ⟨src, ids, hprov⟩ := h.prov
    exact hprov.step h.env.sound ha

theorem FarInv.step (hdir : ingress.dir = .ingress) (h : FarInv ingress s)
    (ha : step ingress s a = some s') : FarInv ingress s' where
  sound := h.sound.step ha
  admitted := by
    obtain ⟨src, ids, hadm⟩ := h.admitted
    exact hadm.step hdir h.sound ha

/-- What a step of the near host puts on the wire is fit to arrive. -/
theorem NearInv.newPackets (hpair : Paired egress ingress hdr) (h : NearInv egress hdr s)
    (ha : Lanes.step egress s a = some s') :
    s'.sent.map SendEvent.bytes = s.sent.map SendEvent.bytes ++ Lanes.newPackets s s' ∧
      ∀ bytes ∈ Lanes.newPackets s s', Carried egress ingress bytes := by
  have h' := h.step hpair.out ha
  rcases step_sent h.env.sound ha with hsent | ⟨i, before, bs, -, -, hsent⟩
  · simp [Lanes.newPackets, hsent]
  · refine ⟨by simp [Lanes.newPackets, hsent], fun bytes hmem => ?_⟩
    obtain rfl : bytes = bs := by simpa [Lanes.newPackets, hsent] using hmem
    have he : (⟨i, bytes, before⟩ : SendEvent) ∈ s'.sent := by simp [hsent]
    obtain ⟨src, ids, hprov⟩ := h'.prov
    obtain ⟨id, -, hfrom⟩ := Picked.exists_of_mem hprov.sent he
    exact carried_of_sent hpair h'.reads (h'.env.sent _ he) hfrom

/-- A step that reads no frame leaves what has arrived. -/
theorem arrived_of_no_read (hs : Sound ingress s) (ha : step ingress s a = some s')
    (hread : ∀ frame, a ≠ .read (some frame)) : arrived ingress s' = arrived ingress s := by
  rcases step_reads hs ha with hreads | ⟨i, frame, hframe, -⟩
  · rw [arrived, hreads, arrived]
  · exact absurd hframe (hread frame)

/-- A frame read is filed by its source address. -/
theorem arrived_of_read (ha : step ingress s (.read (some frame)) = some s') :
    ∃ i, arrived ingress s' = arrived ingress s ++
      if Tunnelled ingress ⟨i, readBytes ingress frame⟩ then [readBytes ingress frame] else [] := by
  obtain ⟨hc, -⟩ | ⟨got, i, filled, hgot, -, rfl⟩ | ⟨i, hc, -⟩ | ⟨hc, -⟩ | ⟨i, before, hc, -⟩ |
    ⟨i, before, hc, -⟩ := step_cases ha
  case inr.inl =>
    cases hgot
    refine ⟨i, ?_⟩
    simp only [arrived, Sys.readStep, Option.map_some, Option.toList_some, List.filter_append,
      List.map_append]
    cases htun : Tunnelled ingress ⟨i, readBytes ingress frame⟩ <;> simp [htun]
  all_goals cases hc

/-- The packets that a step moves: `out` onto the wire, `inn` off it and `dup` made by the
network. -/
structure Moves (ingress : Session) (l l' : Lane) (out inn dup : List (List UInt8)) : Prop where
  sent : l'.near.sent.map SendEvent.bytes = l.near.sent.map SendEvent.bytes ++ out
  arrived : arrived ingress l'.far = arrived ingress l.far ++ inn
  copies : l'.copies = l.copies ++ dup
  wire : (l'.wire ++ inn).Subperm (l.wire ++ (out ++ dup))

/-- What each step of a lane moves. -/
theorem LaneInv.moves {a : LaneAction} (hpair : Paired egress ingress hdr)
    (h : LaneInv egress ingress hdr l) (ha : laneStep egress ingress l a = some l') :
    LaneInv egress ingress hdr l' ∧ ∃ out inn dup, Moves ingress l l' out inn dup := by
  obtain ⟨hnear, hfar, hcarried⟩ := h
  cases a with
  | near a =>
    obtain ⟨s, hs, rfl⟩ := Option.map_eq_some_iff.mp ha
    obtain ⟨hsent, hnew⟩ := hnear.newPackets hpair hs
    refine ⟨⟨hnear.step hpair.out hs, hfar, fun bytes hmem => ?_⟩, newPackets l.near s, [], [],
      ⟨hsent, by simp, by simp, by simpa using List.Subperm.refl _⟩⟩
    rcases List.mem_append.mp hmem with hmem | hmem
    · exact hcarried bytes hmem
    · exact hnew bytes hmem
  | far a =>
    unfold laneStep at ha
    split at ha
    case h_2 => cases ha
    case h_3 b hread heq =>
      obtain rfl := LaneAction.far.inj heq
      obtain ⟨s, hs, rfl⟩ := Option.map_eq_some_iff.mp ha
      have harrived := arrived_of_no_read hfar.sound hs fun frame hframe =>
        hread frame (by rw [hframe])
      exact ⟨⟨hnear, hfar.step hpair.into hs, hcarried⟩, [], [], [],
        ⟨by simp, by simp [harrived], by simp, by simpa using List.Subperm.refl _⟩⟩
    all_goals cases ‹LaneAction.far a = _›
  | arrive k =>
    obtain ⟨frame, hk, hread⟩ := Option.bind_eq_some_iff.mp ha
    obtain ⟨s, hs, rfl⟩ := Option.map_eq_some_iff.mp hread
    -- a packet that arrives is taken off the wire and stored whole
    obtain ⟨i, harrived⟩ := arrived_of_read hs
    obtain ⟨hwhole, htunnelled⟩ := (hcarried frame (List.mem_of_getElem? hk)).tunnelled hpair i
    rw [hwhole, if_pos htunnelled] at harrived
    exact ⟨⟨hnear, hfar.step hpair.into hs,
      fun bytes hmem => hcarried bytes (List.mem_of_mem_eraseIdx hmem)⟩, [], [frame], [],
      ⟨by simp, harrived, by simp, by simpa using (Picked.perm_eraseIdx hk).subperm⟩⟩
  | stray frame =>
    unfold laneStep at ha
    simp only at ha
    split at ha
    · rename_i hstray
      obtain ⟨s, hs, rfl⟩ := Option.map_eq_some_iff.mp ha
      obtain ⟨i, harrived⟩ := arrived_of_read hs
      rw [not_tunnelled_of_stray hstray hpair.into i] at harrived
      exact ⟨⟨hnear, hfar.step hpair.into hs, hcarried⟩, [], [], [],
        ⟨by simp, by simpa using harrived, by simp, by simpa using List.Subperm.refl _⟩⟩
    · cases ha
  | lose k =>
    unfold laneStep at ha
    simp only at ha
    split at ha
    · cases ha
      exact ⟨⟨hnear, hfar, fun bytes hmem => hcarried bytes (List.mem_of_mem_eraseIdx hmem)⟩,
        [], [], [], ⟨by simp, by simp, by simp, by simpa using (List.eraseIdx_sublist ..).subperm⟩⟩
    · cases ha
  | copy k =>
    obtain ⟨frame, hk, rfl⟩ := Option.map_eq_some_iff.mp ha
    refine ⟨⟨hnear, hfar, fun bytes hmem => ?_⟩, [], [], [frame],
      ⟨by simp, by simp, rfl, by simpa using List.Subperm.refl _⟩⟩
    rcases List.mem_append.mp hmem with hmem | hmem
    · exact hcarried bytes hmem
    · obtain rfl := List.mem_singleton.mp hmem
      exact hcarried bytes (List.mem_of_getElem? hk)

end Steps

/-! ## Start and balance

For each host, what goes out against what came in, as multisets. -/

section Balance

variable {egress ingress : Session} {hdr : Headers} {l₀ : Lane}

theorem Sys.Start.nearInv {s : Sys} (h : s.Start egress)
    (hstamped : Stamped egress.mtu hdr s.q s.pool) : NearInv egress hdr s where
  env :=
    { sound := h.sound
      slots := hstamped
      sent := fun e he => by
        rw [h.sent] at he
        cases he }
  reads r hr := by
    rw [h.reads] at hr
    cases hr
  prov := ⟨_, _, h.provInv⟩

theorem Sys.Start.farInv {s : Sys} (h : s.Start ingress) : FarInv ingress s :=
  ⟨h.sound, _, _, h.admitted⟩

theorem Lane.Start.inv (h : l₀.Start egress ingress hdr) : LaneInv egress ingress hdr l₀ where
  near := h.near.nearInv h.stamped
  far := h.far.farInv
  carried bytes hmem := by
    rw [h.wire] at hmem
    cases hmem

/-- What the near host sent are, behind the outer headers, frames that it read, each at most
once. -/
theorem NearInv.subperm {s : Sys} (hdir : egress.dir = .egress) (h : NearInv egress hdr s) :
    ((s.sent.map SendEvent.bytes).map (List.drop 34)).Subperm (s.reads.map ReadEvent.bytes) := by
  obtain ⟨src, ids, hprov⟩ := h.prov
  rw [List.map_map, ← List.filter_true s.reads]
  refine Picked.subperm_of_nodup hprov.nodup ?_
  rw [List.forall₂_map_right_iff]
  refine hprov.sent.imp fun id e hsent => ?_
  obtain ⟨r, hr, -, hpayload, -⟩ := hsent
  simp only [hdir, SendEvent.payload, ReadEvent.payload, ethHdrLen_eq, ip4HdrLen_eq] at hpayload
  exact ⟨r, hr, rfl, hpayload.symm⟩

/-- What the far host wrote are payloads of packets that arrived. -/
theorem FarInv.subperm {s : Sys} (hdir : ingress.dir = .ingress) (h : FarInv ingress s) :
    (s.sent.map SendEvent.bytes).Subperm ((arrived ingress s).map (List.drop 34)) := by
  obtain ⟨src, ids, hadm⟩ := h.admitted
  rw [arrived, List.map_map]
  exact hadm.subperm hdir

end Balance

/-- A lane between two rings of three slots. -/
def smallLane : Lane where
  near := startSys (emptyRing 3 60) (initPool 64 smallHeaders (fun _ => 0) 3)
  far := startSys (emptyRing 3 60) fun _ => 0
  wire := []
  copies := []

theorem smallLane_start : smallLane.Start smallSession smallIngress smallHeaders where
  near := startSys_start _ (by decide) (by decide)
  stamped := smallStamped
  far := startSys_start _ (by decide) (by decide)
  wire := rfl
  copies := rfl

theorem smallLane_paired : Paired smallSession smallIngress smallHeaders :=
  ⟨rfl, rfl, rfl, Nat.le_refl _⟩

end Lanes
