import Lanes.Packet.RoundTrip
import Lanes.Ring.Provenance

/-!
# The envelope of every packet

`init_ring_buffer` copies the header template into every slot of an egress ring. Over a whole run of
`tx_io` and `tx` on that ring, with every interleaving and every reset, the bytes of the template
other than the total length and the checksum stay in every slot, so every packet on the wire
carries them.

This is the other half of what the far host sees: `Ring/Provenance.lean` says where the payload of
a packet comes from, this file what is in front of it. Only a read writes to the pool, so the
lemmas of the first part say for all actions at once what a step leaves alone.
-/

namespace Lanes

/-! ## What a step changes

By field: the size of the ring never, the pool by a read, the packets sent by the worker's use of
its slot, the reads by a read that succeeds. -/

section Frame

variable {ses : Session} {s s' : Sys} {a : Action}

theorem step_rsz (hs : Sound ses s) (ha : step ses s a = some s') : s'.q.rsz = s.q.rsz := by
  obtain ⟨-, hp, rfl⟩ | ⟨got, i, filled, -, hp, rfl⟩ | ⟨i, -, hp, rfl⟩ | ⟨-, hw, rfl⟩ |
    ⟨i, before, -, hw, rfl⟩ | ⟨i, before, -, hw, rfl⟩ := step_cases ha
  · rw [hs.pushStep_eq hp]
    split <;> rfl
  · rfl
  · exact commit_rsz
  · rw [hs.popStep_eq hw]
    split
    · exact popReset_rsz
    · rfl
  · rfl
  · rfl

/-- Only a read of the producer stores into the data pool. -/
theorem step_pool (hs : Sound ses s) (ha : step ses s a = some s') :
    s'.pool = s.pool ∨ ∃ i got, s.prod.slot? = some i ∧
      s'.pool = (readSlot ses s.pool (s.q.R i) got).1 := by
  obtain ⟨-, hp, rfl⟩ | ⟨got, i, filled, -, hp, rfl⟩ | ⟨i, -, hp, rfl⟩ | ⟨-, hw, rfl⟩ |
    ⟨i, before, -, hw, rfl⟩ | ⟨i, before, -, hw, rfl⟩ := step_cases ha
  · rw [hs.pushStep_eq hp]
    split <;> exact Or.inl rfl
  · exact Or.inr ⟨i, got, by rw [hp]; rfl, rfl⟩
  · exact Or.inl rfl
  · rw [hs.popStep_eq hw]
    split <;> exact Or.inl rfl
  · exact Or.inl rfl
  · exact Or.inl rfl

/-- Only the worker sends, at most one packet a step and out of the slot it holds. -/
theorem step_sent (hs : Sound ses s) (ha : step ses s a = some s') :
    s'.sent = s.sent ∨ ∃ i before bs, s.work = .holding i before false ∧
      sendSlot ses.dir s.pool (s.q.R i) = some bs ∧ s'.sent = s.sent ++ [⟨i, bs, before⟩] := by
  obtain ⟨-, hp, rfl⟩ | ⟨got, i, filled, -, hp, rfl⟩ | ⟨i, -, hp, rfl⟩ | ⟨-, hw, rfl⟩ |
    ⟨i, before, -, hw, rfl⟩ | ⟨i, before, -, hw, rfl⟩ := step_cases ha
  · rw [hs.pushStep_eq hp]
    split <;> exact Or.inl rfl
  · exact Or.inl rfl
  · exact Or.inl rfl
  · rw [hs.popStep_eq hw]
    split <;> exact Or.inl rfl
  · cases hsend : sendSlot ses.dir s.pool (s.q.R i) with
    | none => exact Or.inl (by simp [Sys.useStep, hsend])
    | some bs => exact Or.inr ⟨i, before, bs, hw, hsend, by simp [Sys.useStep, hsend]⟩
  · exact Or.inl rfl

/-- Every read stores what is left of some frame after the limit of the read. -/
theorem step_reads (hs : Sound ses s) (ha : step ses s a = some s') :
    s'.reads = s.reads ∨ ∃ i frame, a = .read (some frame) ∧ s.prod.slot? = some i ∧
      s'.reads = s.reads ++ [⟨i, readBytes ses frame⟩] := by
  obtain ⟨-, hp, rfl⟩ | ⟨got, i, filled, rfl, hp, rfl⟩ | ⟨i, -, hp, rfl⟩ | ⟨-, hw, rfl⟩ |
    ⟨i, before, -, hw, rfl⟩ | ⟨i, before, -, hw, rfl⟩ := step_cases ha
  · rw [hs.pushStep_eq hp]
    split <;> exact Or.inl rfl
  · cases got with
    | none => exact Or.inl (by simp [Sys.readStep])
    | some frame => exact Or.inr ⟨i, frame, rfl, by rw [hp]; rfl, rfl⟩
  · exact Or.inl rfl
  · rw [hs.popStep_eq hw]
    split <;> exact Or.inl rfl
  · exact Or.inl rfl
  · exact Or.inl rfl

end Frame

/-! ## The template in slots and packets

`KeptHeader a n` are the ranges of the template that `tx_io` does not rewrite. -/

/-- The bytes of the template that `tx_io` does not rewrite start the packet. -/
def InEnvelope (hdr : Headers) (bytes : List UInt8) : Prop :=
  ∀ a n, KeptHeader a n → (bytes.drop a).take n = (hdr.bytes.drop a).take n

/-- Every slot of the ring carries the template, outside the two fields that `tx_io` rewrites. -/
def Stamped (mtu : Nat) (hdr : Headers) (q : Q) (pool : Mem) : Prop :=
  ∀ i < q.rsz, ∀ a n, KeptHeader a n →
    pool.read (i * (mtu + 4) + a) n = (hdr.bytes.drop a).take n

/-- The slots carry the template, and so does every packet sent. -/
structure Enveloped (ses : Session) (hdr : Headers) (s : Sys) : Prop where
  sound : Sound ses s
  slots : Stamped ses.mtu hdr s.q s.pool
  sent : ∀ e ∈ s.sent, 49 ≤ e.bytes.length ∧ InEnvelope hdr e.bytes

section Run

variable {ses : Session} {hdr : Headers} {s s' : Sys} {a : Action}

theorem stamped_of_fresh {mtu : Nat} {q : Q} {pool : Mem}
    (hfresh : ∀ i < q.rsz, FreshSlot mtu hdr pool i) : Stamped mtu hdr q pool :=
  fun i hi a n ha => by
    have hend := ha.header
    calc _ = ((pool.read (i * (mtu + 4)) (a + (34 - a))).drop a).take n := by
          rw [Mem.read_drop, Mem.read_take (by omega)]
      _ = (hdr.bytes.drop a).take n := by
          rw [show a + (34 - a) = 34 by omega, (hfresh i hi).header]

/-- What `tx` sends starts with the header bytes of its slot. -/
theorem inEnvelope_of_send {pool : Mem} {q : Q} {i : Nat} {bs : List UInt8}
    (hslots : Stamped ses.mtu hdr q pool) (hi : i < q.rsz) (hplace : Placed ses.mtu i (q.R i))
    (hsend : sendSlot .egress pool (q.R i) = some bs) :
    49 ≤ bs.length ∧ InEnvelope hdr bs := by
  unfold sendSlot txSend at hsend
  simp only at hsend
  split at hsend
  · obtain rfl := Option.some.inj hsend
    refine ⟨by simp only [Mem.read_length, ethHdrLen_eq, ip4HdrLen_eq]; omega, fun a n ha => ?_⟩
    have hend := ha.header
    obtain ⟨len, hlen⟩ : ∃ len : Nat,
        ((q.R i).len + (ethHdrLen + ip4HdrLen : Nat)).toNat = a + (n + len) :=
      ⟨((q.R i).len + (ethHdrLen + ip4HdrLen : Nat)).toNat - (a + n), by
        simp only [ethHdrLen_eq, ip4HdrLen_eq]
        omega⟩
    rw [hlen, Mem.read_drop, Mem.read_take (Nat.le_add_right ..), hplace.eth]
    exact hslots i hi a n ha
  · cases hsend

theorem Enveloped.step (hdir : ses.dir = .egress) (h : Enveloped ses hdr s)
    (ha : step ses s a = some s') : Enveloped ses hdr s' where
  sound := h.sound.step ha
  slots := fun i hi b n hb => by
    rw [step_rsz h.sound ha] at hi
    rcases step_pool h.sound ha with hpool | ⟨j, got, hj, hpool⟩
    · rw [hpool]
      exact h.slots i hi b n hb
    · -- a read of `tx_io`, in whichever slot
      have hplace := h.sound.layout j (h.sound.owned.prod_lt j hj)
      rw [hpool, readSlot, hdir]
      exact (txIoRead_header hb ses.mtu_ge ses.mtu_lt hplace got).trans (h.slots i hi b n hb)
  sent := fun e he => by
    rcases step_sent h.sound ha with hsent | ⟨i, before, bs, hw, hsend, hsent⟩
    · rw [hsent] at he
      exact h.sent e he
    · rw [hsent, List.mem_append, List.mem_singleton] at he
      rcases he with he | rfl
      · exact h.sent e he
      · have hi : i < s.q.rsz := by
          have := h.sound.owned.work_lt i (by rw [hw]; rfl)
          omega
        rw [hdir] at hsend
        exact inEnvelope_of_send h.slots hi (h.sound.layout i hi) hsend

/-- **The envelope.** In every run of an egress ring whose slots carry the template, every packet
sent has at least 49 bytes and carries it too, in all but the total length and the checksum. -/
theorem envelope_run {s₀ : Sys} {as : List Action} (hdir : ses.dir = .egress) (h₀ : s₀.Start ses)
    (hslots : Stamped ses.mtu hdr s₀.q s₀.pool) (hrun : Run.exec (Lanes.step ses) s₀ as = some s) :
    ∀ e ∈ s.sent, 49 ≤ e.bytes.length ∧ InEnvelope hdr e.bytes := by
  have henv : Enveloped ses hdr s :=
    Run.invariant (Enveloped ses hdr) (fun _ _ _ h ha => h.step hdir ha) hrun
      { sound := h₀.sound
        slots := hslots
        sent := fun e he => by
          rw [h₀.sent] at he
          cases he }
  exact henv.sent

end Run

/-- The template of a host at address 7 whose peer is at address 9. -/
def smallHeaders : Headers := fillHeaders 7 9 ⟨Vector.replicate 6 1, none⟩

theorem smallStamped :
    Stamped 60 smallHeaders (emptyRing 3 60) (initPool 64 smallHeaders (fun _ => 0) 3) :=
  stamped_of_fresh fun _ hi => initPool_fresh smallHeaders _ (by decide) (by decide : 3 * 64 < _) hi

theorem envelope_oneFrame :
    ∃ s, Run.exec (step smallSession)
        (startSys (emptyRing 3 60) (initPool 64 smallHeaders (fun _ => 0) 3)) oneFrame = some s ∧
      s.sent.length = 1 ∧ ∀ e ∈ s.sent, 49 ≤ e.bytes.length ∧ InEnvelope smallHeaders e.bytes := by
  have hrun : (Run.exec (step smallSession)
      (startSys (emptyRing 3 60) (initPool 64 smallHeaders (fun _ => 0) 3)) oneFrame).map
      (fun s => s.sent.length) = some 1 := by decide +kernel
  obtain ⟨s, hs, hlen⟩ := Option.map_eq_some_iff.mp hrun
  exact ⟨s, hs, hlen, envelope_run rfl (startSys_start _ (by decide) (by decide)) smallStamped hs⟩

end Lanes
