import Lanes.Lane.Hosts

/-!
# Two sessions with all their queues

A session has one ring for each of its workers. The reads of the near host are spread over its
rings, and the far host may store a packet in any of its own. A step is a step of the lane between
one ring of each host; the I/O thread of a session is in at most one ring at a time, which the model
does not need.

* `LinkInv.ledger` is the invariant that carries the result: the packets on the wire and those that
  the far rings have taken from it are, with their numbers, among the packets sent and the copies.
* `link_integrity` puts it together with what happens inside the rings. Its conditions are those of
  a lane: the two sessions are `Paired`, the rings start empty with three slots or more, and no
  frame but those of the link shows the near host's address.
-/

namespace Lanes

/-! ## State and steps

One wire for all queues: the network does not know from which of them a packet came. -/

structure Link where
  near : List Sys
  far : List Sys
  wire : List (List UInt8)
  copies : List (List UInt8)

/-- A step between queue `out` of the near host and queue `into` of the far host. -/
structure LinkAction where
  out : Nat
  into : Nat
  act : LaneAction
  deriving Repr, DecidableEq

/-- One step of the link between two sessions. -/
def linkStep (egress ingress : Session) (l : Link) (a : LinkAction) : Option Link :=
  l.near[a.out]?.bind fun near => l.far[a.into]?.bind fun far =>
    (laneStep egress ingress ⟨near, far, l.wire, l.copies⟩ a.act).map fun m =>
      { near := l.near.set a.out m.near
        far := l.far.set a.into m.far
        wire := m.wire
        copies := m.copies }

/-- Every ring is empty, those of the near host are stamped, and nothing is on the wire. -/
structure Link.Start (egress ingress : Session) (hdr : Headers) (l : Link) : Prop where
  near : ∀ s ∈ l.near, s.Start egress ∧ Stamped egress.mtu hdr s.q s.pool
  far : ∀ s ∈ l.far, s.Start ingress
  wire : l.wire = []
  copies : l.copies = []

/-! ## The invariant

`LaneInv` speaks of one ring on each side; here it holds of every ring, and the wire is common. -/

/-- The ledger of a lane, summed over the queues of each host. -/
structure LinkInv (egress ingress : Session) (hdr : Headers) (l : Link) : Prop where
  near : ∀ s ∈ l.near, NearInv egress hdr s
  far : ∀ s ∈ l.far, FarInv ingress s
  carried : ∀ bytes ∈ l.wire, Carried egress ingress bytes
  ledger : (l.wire ++ l.far.flatMap (arrived ingress)).Subperm
    (l.near.flatMap (fun s => s.sent.map SendEvent.bytes) ++ l.copies)

variable {egress ingress : Session} {hdr : Headers} {l₀ l l' : Link}

theorem LinkInv.step {a : LinkAction} (hpair : Paired egress ingress hdr)
    (h : LinkInv egress ingress hdr l) (ha : linkStep egress ingress l a = some l') :
    LinkInv egress ingress hdr l' := by
  obtain ⟨near, hnear, ha⟩ := Option.bind_eq_some_iff.mp ha
  obtain ⟨far, hfar, ha⟩ := Option.bind_eq_some_iff.mp ha
  obtain ⟨m, hm, rfl⟩ := Option.map_eq_some_iff.mp ha
  have hlane : LaneInv egress ingress hdr ⟨near, far, l.wire, l.copies⟩ :=
    ⟨h.near near (List.mem_of_getElem? hnear), h.far far (List.mem_of_getElem? hfar), h.carried⟩
  obtain ⟨⟨hnear', hfar', hcarried⟩, out, inn, dup, hmoves⟩ := hlane.moves hpair hm
  refine ⟨fun s hs => ?_, fun s hs => ?_, hcarried, ?_⟩
  · rcases List.mem_or_eq_of_mem_set hs with hs | rfl
    · exact h.near s hs
    · exact hnear'
  · rcases List.mem_or_eq_of_mem_set hs with hs | rfl
    · exact h.far s hs
    · exact hfar'
  · -- the step moves packets of one queue of each host, so it moves them in the sums
    have hsent := Picked.perm_flatMap_set (f := fun s => s.sent.map SendEvent.bytes) hnear
      hmoves.sent
    have harrived := Picked.perm_flatMap_set (f := arrived ingress) hfar hmoves.arrived
    have hledger := Picked.ledger h.ledger hmoves.wire
    refine (harrived.append_left _).subperm.trans (hledger.trans ?_)
    rw [hmoves.copies]
    exact (hsent.symm.append_right _).subperm

theorem Link.Start.inv (h : l₀.Start egress ingress hdr) : LinkInv egress ingress hdr l₀ where
  near s hs := (h.near s hs).1.nearInv (h.near s hs).2
  far s hs := (h.far s hs).farInv
  carried bytes hmem := by
    rw [h.wire] at hmem
    cases hmem
  ledger := by
    have harrived : l₀.far.flatMap (arrived ingress) = [] := by
      refine List.flatMap_eq_nil_iff.mpr fun s hs => ?_
      simp [arrived, (h.far s hs).reads]
    simp [h.wire, harrived]

/-- What was written to the far tunnel are frames read from the near one, each at most once but for
the copies of the network. -/
theorem LinkInv.subperm (hpair : Paired egress ingress hdr) (h : LinkInv egress ingress hdr l) :
    (l.far.flatMap fun s => s.sent.map SendEvent.bytes).Subperm
      (l.near.flatMap (fun s => s.reads.map ReadEvent.bytes) ++ l.copies.map (List.drop 34)) := by
  have hwritten : (l.far.flatMap fun s => s.sent.map SendEvent.bytes).Subperm
      ((l.far.flatMap (arrived ingress)).map (List.drop 34)) := by
    rw [List.map_flatMap]
    exact Picked.subperm_flatMap fun s hs => (h.far s hs).subperm hpair.into
  have hread : ((l.near.flatMap fun s => s.sent.map SendEvent.bytes).map (List.drop 34)).Subperm
      (l.near.flatMap fun s => s.reads.map ReadEvent.bytes) := by
    rw [List.map_flatMap]
    exact Picked.subperm_flatMap fun s hs => (h.near s hs).subperm hpair.out
  have hledger := Picked.subperm_map ((List.sublist_append_right ..).subperm.trans h.ledger)
    (List.drop 34)
  rw [List.map_append] at hledger
  exact hwritten.trans (hledger.trans ((List.subperm_append_right _).mpr hread))

end Lanes
