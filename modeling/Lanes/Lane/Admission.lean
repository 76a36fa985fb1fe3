import Lanes.Lane.Envelope
import Lanes.Lib.Picked

/-!
# What an ingress ring lets through

`rx_io` keeps reading into the slot it holds until a frame shows the address of the peer. Over a
whole run of `rx_io` and `rx`, with every interleaving and every reset, what is written to the
tunnel are the payloads of frames of at least 49 bytes from that address, none of them twice.

The test of `rx_io` is made once, at the end of its read loop, and what it says of a frame has to
last until `rx` writes it. `Admitted` carries it along with the provenance of the slots: the read
that `ProvInv` names for a slot is one that passed the test. A frame too short to have an address is
judged by the bytes that an earlier one left there. If it passes, its slot is committed with a
length that `rx` does not write, so nothing comes of it.
-/

namespace Lanes

/-! ## The property

49 bytes are the 14 and 20 of the outer headers and the 15 that `rx` asks for at least. -/

/-- The stored frame shows the peer's address and is long enough to be written to the tunnel. -/
def Tunnelled (ses : Session) (r : ReadEvent) : Bool :=
  (r.bytes.drop 26).take 4 == le32 ses.peerIp && decide (49 ≤ r.bytes.length)

/-- Read number `id` stored such a frame. -/
def TunnelledRead (ses : Session) (reads : List ReadEvent) (id : Nat) : Prop :=
  ∃ r, reads[id]? = some r ∧ Tunnelled ses r = true

/-! ## The invariant

One lemma for each action, as for `ProvInv`, with the same `src` and `ids`. The read is the step
that matters: `tunnelled_of_done` takes the test of `rx_io` apart. -/

/-- The reads that `ProvInv` names for the slots, and those already sent, came from the peer. -/
structure Admitted (ses : Session) (src : Nat → Nat) (ids : List Nat) (s : Sys) : Prop where
  prov : ProvInv ses src ids s
  carried : ∀ i < s.q.rsz, s.prod.slot? ≠ some i → (∀ before, s.work ≠ .holding i before true) →
    14 < (s.q.R i).len → TunnelledRead ses s.reads (src i)
  filled : ∀ i, s.prod = .holding i true → 48 < (s.q.R i).len → TunnelledRead ses s.reads (src i)
  sent : ∀ id ∈ ids, TunnelledRead ses s.reads id

section Steps

variable {ses : Session} {s : Sys} {src : Nat → Nat} {ids : List Nat} {i before : Nat}
  {filled : Bool}

/-- Reads made later change nothing about the earlier ones. -/
theorem TunnelledRead.append {reads : List ReadEvent} {id : Nat} (h : TunnelledRead ses reads id)
    (more : List ReadEvent) : TunnelledRead ses (reads ++ more) id := by
  obtain ⟨r, hr, hpeer⟩ := h
  exact ⟨r, by rw [List.getElem?_append_left (List.getElem?_eq_some_iff.mp hr).1, hr], hpeer⟩

/-- `push` changes locks and cursors, and neither invariant looks at them. -/
theorem Admitted.push (h : Admitted ses src ids s) (hs : Sound ses s) (hp : s.prod = .idle) :
    Admitted ses src ids s.pushStep := by
  have hprov := h.prov.push hs hp
  have hnone : ∀ i, s.prod.slot? ≠ some i := fun i => by simp [hp, Prod.slot?]
  rw [hs.pushStep_eq hp] at hprov ⊢
  split at hprov
  · rename_i hfull
    rw [if_pos hfull]
    exact
      { prov := hprov
        carried := h.carried
        filled := h.filled
        sent := h.sent }
  · rename_i hfull
    rw [if_neg hfull]
    refine
      { prov := hprov
        carried := fun j hj _ hwork hlen => ?_
        filled := fun j hj => by cases hj
        sent := h.sent }
    rw [show ((pushAcquired s.q).R j).len = (s.q.R j).len from len_update_lock _ _] at hlen
    exact h.carried j hj (hnone j) hwork hlen

/-- A frame that ends the read loop of `rx_io` is from the peer, if it is long enough. -/
theorem tunnelled_of_done {pool : Mem} {r : RNG} {frame : List UInt8} (hdir : ses.dir = .ingress)
    (hplace : Placed ses.mtu i r)
    (hdone : readDone ses (readSlot ses pool r (some frame)).1
      (readSlot ses pool r (some frame)).2 = true)
    (hlen : 49 ≤ (readBytes ses frame).length) : Tunnelled ses ⟨i, readBytes ses frame⟩ = true := by
  have hstored : (readSlot ses pool r (some frame)).1.read (readAt ses.dir r)
      (readBytes ses frame).length = readBytes ses frame :=
    readSlot_stored hplace.ip hplace.data frame
  rw [hdir] at hstored
  have hload : (readSlot ses pool r (some frame)).1.load32
      ((readSlot ses pool r (some frame)).2.ipheader + 12) = ses.peerIp := by
    by_contra hne
    simp only [readDone, hdir, rxIoAccepts, ne_eq, hne, not_false_eq_true, if_true] at hdone
    split at hdone <;> cases hdone
  rw [Mem.load32_eq_iff, (readSlot_same (some frame)).ip, hplace.ip, Nat.add_assoc] at hload
  have hsource : ((readBytes ses frame).drop 26).take 4 = le32 ses.peerIp := by
    obtain ⟨k, hk⟩ : ∃ k, (readBytes ses frame).length = 26 + (4 + k) :=
      ⟨(readBytes ses frame).length - 30, by omega⟩
    rw [← hstored, hk, Mem.read_drop, Mem.read_take (Nat.le_add_right ..)]
    exact hload
  simp [Tunnelled, hsource, hlen]

/-- A failed read does not end the read loop. -/
theorem Admitted.readNone (h : Admitted ses src ids s) (hs : Sound ses s)
    (hp : s.prod = .holding i filled) : Admitted ses src ids (s.readStep ses i none) := by
  have hother : ∀ j, j ≠ i → ((s.readStep ses i none).q.R j) = s.q.R j := fun j hj => by
    simp [Sys.readStep, Q.setSlot, Function.update_of_ne hj]
  refine
    { prov := h.prov.readNone hs hp
      carried := fun j hj hprod hwork hlen => ?_
      filled := fun j hj => by
        have hdone := (Prod.holding.inj hj).2
        cases readDone_isSome hdone
      sent := by simpa [Sys.readStep] using h.sent }
  have hne : j ≠ i := fun he => hprod (by rw [he]; rfl)
  rw [hother j hne] at hlen
  have hfrom := h.carried j hj (by rw [hp]; simpa [Prod.slot?] using Ne.symm hne) hwork hlen
  simpa [Sys.readStep] using hfrom

/-- A read that ended the loop came from the peer if it can be written later; the other slots keep
the reads they had. -/
theorem Admitted.readSome (h : Admitted ses src ids s) (hs : Sound ses s)
    (hdir : ses.dir = .ingress) (hp : s.prod = .holding i filled) (frame : List UInt8) :
    Admitted ses (Function.update src i s.reads.length) ids (s.readStep ses i (some frame)) := by
  have hi : i < s.q.rsz := hs.owned.prod_lt i (by rw [hp]; rfl)
  have hother : ∀ j, j ≠ i → ((s.readStep ses i (some frame)).q.R j) = s.q.R j := fun j hj => by
    simp [Sys.readStep, Q.setSlot, Function.update_of_ne hj]
  refine
    { prov := h.prov.readSome hs hp frame
      carried := fun j hj hprod hwork hlen => ?_
      filled := fun j hj hlen => ?_
      sent := fun id hid => (h.sent id hid).append _ }
  · have hne : j ≠ i := fun he => hprod (by rw [he]; rfl)
    rw [hother j hne] at hlen
    have hfrom := h.carried j hj (by rw [hp]; simpa [Prod.slot?] using Ne.symm hne) hwork hlen
    rw [Function.update_of_ne hne]
    exact hfrom.append _
  · -- the frame just read ended the loop
    obtain ⟨he, hdone⟩ := Prod.holding.inj hj
    subst he
    have hstored : ((s.readStep ses i (some frame)).q.R i).len = (readBytes ses frame).length := by
      simpa [Sys.readStep, Q.setSlot] using readSlot_len_some frame
    rw [Function.update_self]
    exact ⟨_, List.getElem?_concat_length,
      tunnelled_of_done hdir (hs.layout i hi) hdone (by omega)⟩

/-- The commit takes 34 off the length: from more than 48 to more than 14. -/
theorem Admitted.commit (h : Admitted ses src ids s) (hs : Sound ses s)
    (hdir : ses.dir = .ingress) (hp : s.prod = .holding i true) :
    Admitted ses src ids (s.commitStep ses i) := by
  have hlen' : ∀ j, ((s.commitStep ses i).q.R j).len =
      ((s.q.setSlot i (trimSlot ses.dir (s.q.R i))).R j).len := fun j => by
    simp only [Sys.commitStep, commit_R]
    exact len_update_lock _ _
  refine
    { prov := h.prov.commit hs hp
      carried := fun j hj _ hwork h14 => ?_
      filled := fun j hj => by cases hj
      sent := h.sent }
  have hj' : j < s.q.rsz := by simpa [Sys.commitStep, commit_rsz, Q.setSlot] using hj
  rw [hlen'] at h14
  by_cases he : j = i
  · subst he
    simp only [Q.setSlot, Function.update_self, trimSlot, hdir, rxIoTrim, ethIp4_eq] at h14
    exact h.filled j hp (by omega)
  · simp only [Q.setSlot, Function.update_of_ne he] at h14
    exact h.carried j hj' (by rw [hp]; simpa [Prod.slot?] using Ne.symm he) hwork h14

/-- `pop` hands over a slot as it is, or a reset has made lengths 0. -/
theorem Admitted.pop (h : Admitted ses src ids s) (hs : Sound ses s) (hw : s.work = .idle) :
    Admitted ses src ids s.popStep := by
  have hprov := h.prov.pop hs hw
  have hidle : ∀ j before, s.work ≠ .holding j before true := fun j before he => by
    rw [hw] at he
    cases he
  rw [hs.popStep_eq hw] at hprov ⊢
  split at hprov
  · rename_i hempty
    rw [if_pos hempty]
    -- a reset leaves lengths of 0 only
    have hlen := fun j (hj : j < s.q.rsz) => popReset_len (q := { s.q with sz := 0 }) j hj
    have hshrunk : ∀ j < s.q.rsz, ∀ n : Int, 0 ≤ n →
        n < ((popReset { s.q with sz := 0 }).R j).len → n < (s.q.R j).len := fun j hj n hn hlt => by
      rcases hlen j hj with h0 | hsm
      · rw [h0] at hlt
        omega
      · rw [hsm] at hlt
        exact hlt
    exact
      { prov := hprov
        carried := fun j hj hprod _ h14 => by
          have hj' : j < s.q.rsz := by simpa [popReset_rsz] using hj
          exact h.carried j hj' hprod (hidle j) (hshrunk j hj' 14 (by decide) h14)
        filled := fun j hj h48 => by
          have hj' : j < s.q.rsz :=
            hs.owned.prod_lt j (by rw [show s.prod = .holding j true from hj]; rfl)
          exact h.filled j hj (hshrunk j hj' 48 (by decide) h48)
        sent := h.sent }
  · rename_i hempty
    rw [if_neg hempty]
    have hlen : ∀ j, ((popTaken s.q).R j).len = (s.q.R j).len := fun j => len_update_lock _ _
    exact
      { prov := hprov
        carried := fun j hj hprod _ h14 => h.carried j hj hprod (hidle j) (hlen j ▸ h14)
        filled := fun j hj h48 => h.filled j hj (hlen j ▸ h48)
        sent := h.sent }

/-- The read behind the packet sent was the one that its slot named. -/
theorem Admitted.use (h : Admitted ses src ids s) (hs : Sound ses s)
    (hw : s.work = .holding i before false) :
    ∃ ids', Admitted ses src ids' (s.useStep ses i before) := by
  have hi : i < s.q.rsz := by
    have := (hs.work_holding hw).work_lt i rfl
    omega
  have hprod : s.prod.slot? ≠ some i := fun hp => (hs.work_holding hw).apart i hp rfl
  obtain ⟨ids', hids, hprov⟩ := h.prov.use hs hw
  refine ⟨ids', ?_⟩
  exact
    { prov := hprov
      carried := fun j hj hp _ h14 =>
        h.carried j hj hp (fun b he => by rw [hw] at he; cases he) h14
      filled := h.filled
      sent := fun id hid => by
        rcases hids with rfl | ⟨h14, rfl⟩
        · exact h.sent id hid
        · rcases List.mem_append.mp hid with hid | hid
          · exact h.sent id hid
          · obtain rfl := List.mem_singleton.mp hid
            exact h.carried i hi hprod (fun b he => by rw [hw] at he; cases he) h14 }

/-- The slot released has a length of `-1` and can not be written again. -/
theorem Admitted.release (h : Admitted ses src ids s) (hs : Sound ses s)
    (hw : s.work = .holding i before true) : Admitted ses src ids (s.releaseStep i) := by
  have hother : ∀ j, j ≠ i → (s.releaseStep i).q.R j = s.q.R j := fun j hj => by
    simp only [Sys.releaseStep, release_R, Function.update_of_ne hj]
  have hlen : ((s.releaseStep i).q.R i).len = -1 := by
    simp only [Sys.releaseStep, release_R, Function.update_self]
  refine
    { prov := h.prov.release hs hw
      carried := fun j hj hprod _ h14 => ?_
      filled := fun j hj h48 => ?_
      sent := h.sent }
  · have hne : j ≠ i := fun he => by rw [he, hlen] at h14; omega
    rw [hother j hne] at h14
    exact h.carried j hj hprod (fun b he => hne (by rw [hw] at he; cases he; rfl)) h14
  · have hne : j ≠ i := (hs.slot_ne hj hw).symm
    rw [hother j hne] at h48
    exact h.filled j hj h48

theorem Admitted.step {s' : Sys} {a : Action} (hdir : ses.dir = .ingress)
    (h : Admitted ses src ids s) (hs : Sound ses s) (ha : step ses s a = some s') :
    ∃ src' ids', Admitted ses src' ids' s' := by
  obtain ⟨-, hp, rfl⟩ | ⟨got, i, filled, -, hp, rfl⟩ | ⟨i, -, hp, rfl⟩ | ⟨-, hw, rfl⟩ |
    ⟨i, before, -, hw, rfl⟩ | ⟨i, before, -, hw, rfl⟩ := step_cases ha
  · exact ⟨_, _, h.push hs hp⟩
  · cases got with
    | none => exact ⟨_, _, h.readNone hs hp⟩
    | some frame => exact ⟨_, _, h.readSome hs hdir hp frame⟩
  · exact ⟨_, _, h.commit hs hdir hp⟩
  · exact ⟨_, _, h.pop hs hw⟩
  · obtain ⟨ids', h'⟩ := h.use hs hw
    exact ⟨_, _, h'⟩
  · exact ⟨_, _, h.release hs hw⟩

end Steps

/-! ## Every run

Distinct reads, each of which was let through: as a multiset, what was sent is a part of what was
let through (`Admitted.subperm`). -/

/-- No slot can be written at the start: all lengths are 0. -/
theorem Sys.Start.admitted {ses : Session} {s : Sys} (h : s.Start ses) :
    Admitted ses (fun _ => 0) [] s where
  prov := h.provInv
  carried i hi _ _ hlen := by
    rw [h.len i hi] at hlen
    omega
  filled i hi := by
    rw [h.prod] at hi
    cases hi
  sent id hid := by cases hid

/-- The packets written are payloads of distinct frames from the peer. -/
theorem Admitted.subperm {ses : Session} {s : Sys} {src : Nat → Nat} {ids : List Nat}
    (hdir : ses.dir = .ingress) (h : Admitted ses src ids s) :
    (s.sent.map SendEvent.bytes).Subperm
      ((s.reads.filter (Tunnelled ses)).map fun r => r.bytes.drop 34) := by
  refine Picked.subperm_of_nodup h.prov.nodup ?_
  rw [List.forall₂_map_right_iff]
  refine ((List.forall₂_and_left ..).mpr ⟨h.sent, h.prov.sent⟩).imp fun id e ⟨hpeer, hsent⟩ => ?_
  obtain ⟨r, hr, htunnelled⟩ := hpeer
  obtain ⟨r', hr', -, hpayload, -⟩ := hsent
  obtain rfl : r = r' := Option.some.inj (hr.symm.trans hr')
  simp only [hdir, SendEvent.payload, ReadEvent.payload, ethIp4_eq] at hpayload
  exact ⟨r, hr, htunnelled, hpayload.symm⟩

/-- An ingress session on an interface with an MTU of 60 whose peer has address 7. -/
def smallIngress : Session where
  dir := .ingress
  mtu := 60
  peerIp := 7
  mtu_ge := smallSession.mtu_ge
  mtu_lt := smallSession.mtu_lt

end Lanes
