import Lanes.Ring.Cursors

/-!
# The ring as a queue

The abstract state of the ring is the list of packets committed and not handed over: a commit
appends to it and `pop` takes its head. This file proves that the ring of `ring.c` follows that
queue in every run whose pops are `CursorSafe`, and that no weaker condition does.

## The two pops that leave the queue

* The commit wraps `in` at `rsz`, `pop` wraps `out` at `rsz - 1`. A pop that starts on the last
  slot therefore starts over at slot 0 and leaves the packet in the last slot behind.
* A pop that finds nothing on a ring with `full` set calls `reset_ring`, which moves both cursors
  to slot 0 while the producer may still hold another slot. The packet committed there is not
  under the new cursors, and the next pop hands over slot 0 in its place.

## The architecture

* **`Holds ses waiting s`**: the queue `waiting` lies in the slots from `out` up to `in`. The part
  about the cursors is `Cursors`, so that each step lemma gets it from the lemma of the same name
  there; what is added here is that each queued packet is still the one committed.
* **`Holds.push`, …, `Holds.release`**: one lemma for each action. A read changes only the slot of
  the producer, which is outside the queue; a commit appends; a pop takes the head.
* **`fifo_of_cursorSafe`**: the run, by induction over its steps; `Holds.fifo` reads the property
  off the invariant.
* **`Holds.not_cursorSafe`**: from any state that still follows the queue, a pop that is not cursor
  safe leads to a state that does not.
-/

namespace Lanes

/-! ## The property

`committed` and `handed` are the histories that the model keeps beside the ring: each packet with
its slot, as it was when the commit, or the pop, took it. -/

/-- The packets handed over are the oldest ones committed; the others wait, unchanged and
unlocked, and `pop` finds nothing only if none waits. -/
def Fifo (s : Sys) : Prop :=
  ∃ waiting : List Packet, s.committed = s.handed ++ waiting ∧
    (∀ p ∈ waiting, packetAt s.pool s.q p.slot = p ∧ (s.q.R p.slot).lock = false) ∧
    (s.work = .idle → ∀ q', pop s.q = .ok (q', .null) → waiting = [])

/-- A pop that finds a packet does not find `out` on the last slot of the ring, and a pop that
resets the ring does not find the producer on a slot other than the first. -/
def CursorSafe (s : Sys) (a : Action) : Prop :=
  a = .pop → (¬ PopEmpty s.q → s.q.outIdx + 1 < s.q.rsz) ∧
    (PopEmpty s.q → s.q.full = true → s.prod.slot? = none ∨ s.prod.slot? = some 0)

instance (s : Sys) (a : Action) : Decidable (CursorSafe s a) :=
  inferInstanceAs (Decidable (_ → _))

/-! ## The invariant

`slotAfter s.q k` is the slot `k` places after `out`. Each queued packet fits the MTU with its
headers, so that its bytes lie inside its slot and a read into another slot leaves them alone. -/

/-- The ring holds the queue `waiting` from `out` up to `in`. -/
structure Holds (ses : Session) (waiting : List Packet) (s : Sys) : Prop where
  history : s.committed = s.handed ++ waiting
  count : s.q.sz = waiting.length + if s.work = .idle then 0 else 1
  room : s.q.sz + 1 ≤ s.q.rsz
  cursor : s.q.inIdx = slotAfter s.q waiting.length
  prod : ∀ i, s.prod.slot? = some i → s.q.inIdx = i ∧ s.q.sz + 2 ≤ s.q.rsz
  work : ∀ i, s.work.slot? = some i → s.q.outIdx = i + 1
  queued : ∀ k p, waiting[k]? = some p →
    packetAt s.pool s.q (slotAfter s.q k) = p ∧ p.len.toNat + 34 ≤ ses.mtu
  filled : ∀ i, s.prod = .holding i true →
    (trimSlot ses.dir (s.q.R i)).len.toNat + 34 ≤ ses.mtu

/-- The packet in a slot depends on its length, its payload offset and its payload. -/
theorem packetAt_congr {pool pool' : Mem} {q q' : Q} {i : Nat} (hlen : (q'.R i).len = (q.R i).len)
    (hdata : (q'.R i).data = (q.R i).data)
    (hpool : pool'.read (q.R i).data (q.R i).len.toNat = pool.read (q.R i).data (q.R i).len.toNat) :
    packetAt pool' q' i = packetAt pool q i := by
  simp only [packetAt, hlen, hdata, hpool]

/-- Taking or releasing a slot lock changes no packet. -/
theorem packetAt_lock (pool : Mem) {q q' : Q} {k : Nat} {b : Bool}
    (h : q'.R = Function.update q.R k { q.R k with lock := b }) (i : Nat) :
    packetAt pool q' i = packetAt pool q i := by
  have hsame : (q'.R i).len = (q.R i).len ∧ (q'.R i).data = (q.R i).data := by
    rw [h]
    by_cases he : i = k
    · subst he
      simp
    · simp [Function.update_of_ne he]
  exact packetAt_congr hsame.1 hsame.2 rfl

section Steps

variable {ses : Session} {s : Sys} {waiting : List Packet} {i before : Nat} {filled : Bool}

theorem Work.idle_iff (w : Work) : w = .idle ↔ w.slot? = none := by
  cases w <;> simp [Work.slot?]

theorem Holds.cursors (h : Holds ses waiting s) :
    Cursors s.q waiting.length s.prod.slot? s.work.slot? where
  count := by
    simp only [← Work.idle_iff]
    exact h.count
  room := h.room
  cursor := h.cursor
  prod := h.prod
  work := h.work

/-- The fields about the cursors are those of `Cursors`. -/
theorem Holds.of_cursors (history : s.committed = s.handed ++ waiting)
    (cursors : Cursors s.q waiting.length s.prod.slot? s.work.slot?)
    (queued : ∀ k p, waiting[k]? = some p →
      packetAt s.pool s.q (slotAfter s.q k) = p ∧ p.len.toNat + 34 ≤ ses.mtu)
    (filled : ∀ i, s.prod = .holding i true →
      (trimSlot ses.dir (s.q.R i)).len.toNat + 34 ≤ ses.mtu) : Holds ses waiting s where
  history := history
  count := by
    simp only [Work.idle_iff]
    exact cursors.count
  room := cursors.room
  cursor := cursors.cursor
  prod := cursors.prod
  work := cursors.work
  queued := queued
  filled := filled

/-- The cursors while the producer holds no slot. -/
theorem Holds.prod_idle (h : Holds ses waiting s) (hp : s.prod = .idle) :
    Cursors s.q waiting.length none s.work.slot? := by
  have := h.cursors
  rwa [hp] at this

/-- The cursors while the worker holds no slot. -/
theorem Holds.work_idle (h : Holds ses waiting s) (hw : s.work = .idle) :
    Cursors s.q waiting.length s.prod.slot? none := by
  have := h.cursors
  rwa [hw] at this

theorem Holds.push (h : Holds ses waiting s) (hs : Sound ses s) (hp : s.prod = .idle) :
    Holds ses waiting s.pushStep := by
  have hcur := h.prod_idle hp
  have hown := hs.prod_idle hp
  rw [hs.pushStep_eq hp]
  split
  · refine .of_cursors h.history ?_ h.queued fun i hi => ?_
    · rw [hp]
      exact hcur.pushRefused hown
    · rw [show s.prod = .holding i true from hi] at hp
      cases hp
  · rename_i hfull
    refine .of_cursors h.history (hcur.pushAcquired hown hfull) (fun k p hk => ?_) fun i hi => ?_
    · obtain ⟨hpkt, hfit⟩ := h.queued k p hk
      exact ⟨(packetAt_lock s.pool (q := s.q) rfl _).trans hpkt, hfit⟩
    · cases hi

theorem lt_of_getElem?_some {α : Type*} {l : List α} {k : Nat} {a : α} (h : l[k]? = some a) :
    k < l.length := (List.getElem?_eq_some_iff.mp h).1

/-- The frames of other slots survive a read, so the queue is as it was. -/
theorem Holds.read (h : Holds ses waiting s) (hs : Sound ses s) (hp : s.prod = .holding i filled)
    (got : Option (List UInt8)) : Holds ses waiting (s.readStep ses i got) := by
  have hslot : s.prod.slot? = some i := by rw [hp]; rfl
  have hi : i < s.q.rsz := hs.owned.prod_lt i hslot
  exact
    { history := h.history
      count := h.count
      room := h.room
      cursor := h.cursor
      prod := fun j hj => by
        cases hj
        exact h.prod i hslot
      work := h.work
      queued := fun k p hk => by
        -- the frame goes into the producer's slot, the packet is in another
        obtain ⟨hpkt, hfit⟩ := h.queued k p hk
        have hlt := lt_of_getElem?_some hk
        have hne := h.cursors.prod_ne hslot hlt
        have hother : (s.readStep ses i got).q.R (slotAfter s.q k) = s.q.R (slotAfter s.q k) := by
          simp [Sys.readStep, Q.setSlot, Function.update_of_ne hne]
        have hplace := hs.layout (slotAfter s.q k)
          (slotAfter_lt hs.owned.out_lt (by have := h.cursors.lt; omega))
        have hpool : ∀ n, n + 34 ≤ ses.mtu → (s.readStep ses i got).pool.read
            (s.q.R (slotAfter s.q k)).data n = s.pool.read (s.q.R (slotAfter s.q k)).data n :=
          fun n hn => by
            rw [hplace.data, hplace.eth]
            exact readSlot_payload (hs.layout i hi) (Ne.symm hne) got hn
        rw [← hpkt] at hfit
        refine ⟨Eq.trans (packetAt_congr (congrArg RNG.len hother) (congrArg RNG.data hother)
          (hpool _ hfit)) hpkt, ?_⟩
        rwa [← hpkt]
      filled := fun j hj => by
        -- a read that ends the read loop stores at most `mtu` bytes, headers included
        simp only [Sys.readStep, Prod.holding.injEq] at hj
        obtain ⟨rfl, hsome⟩ := hj
        obtain ⟨frame, rfl⟩ := Option.isSome_iff_exists.mp (readDone_isSome hsome)
        have hlen : ((s.readStep ses i (some frame)).q.R i).len = (readBytes ses frame).length := by
          simpa [Sys.readStep, Q.setSlot] using readSlot_len_some frame
        have hle := readBytes_length_le ses frame
        have hge := ses.mtu_ge
        cases hd : ses.dir with
        | egress =>
          simp only [hd, forall_const] at hle
          simp only [trimSlot, hlen]
          omega
        | ingress =>
          simp only [trimSlot, rxIoTrim, hlen, ethIp4_eq]
          omega }

/-- The commit appends to the queue. -/
theorem Holds.commit (h : Holds ses waiting s) (hs : Sound ses s) (hp : s.prod = .holding i true) :
    Holds ses (waiting ++ [packetAt s.pool (s.q.setSlot i (trimSlot ses.dir (s.q.R i))) i])
      (s.commitStep ses i) := by
  have hslot : s.prod.slot? = some i := by rw [hp]; rfl
  obtain ⟨hin, -⟩ := h.prod i hslot
  have hcur := h.cursors
  rw [hslot] at hcur
  have hafter : ∀ k, slotAfter (s.commitStep ses i).q k = slotAfter s.q k := slotAfter_commit
  refine .of_cursors ?_ ?_ (fun k p hk => ?_) fun j hj => ?_
  · simp only [Sys.commitStep, h.history, List.append_assoc]
  · rw [List.length_append, List.length_singleton]
    exact (hcur.setSlot i _).commit ((hs.prod_holding hp).setSlot (trimSlot_lock ses.dir))
  · have hpkt := packetAt_lock s.pool (commit_R (q := s.q.setSlot i (trimSlot ses.dir (s.q.R i)))
      (i := i)) (slotAfter s.q k)
    rw [hafter]
    rcases Nat.lt_or_ge k waiting.length with hlt | hge
    · rw [List.getElem?_append_left hlt] at hk
      obtain ⟨hold, hfit⟩ := h.queued k p hk
      have hne := h.cursors.prod_ne hslot hlt
      refine ⟨hpkt.trans (Eq.trans (packetAt_congr ?_ ?_ rfl) hold), hfit⟩ <;>
        simp [Q.setSlot, Function.update_of_ne hne]
    · -- the new packet is under `in`
      rw [List.getElem?_append_right hge, List.getElem?_singleton] at hk
      split at hk
      · cases hk
        have hkn : slotAfter s.q k = i := by
          rw [show k = waiting.length by omega, ← h.cursor, hin]
        rw [hkn] at hpkt ⊢
        refine ⟨hpkt, ?_⟩
        simpa [packetAt, Q.setSlot] using h.filled i hp
      · cases hk
  · cases hj

/-- With nothing queued `pop` finds nothing, and conversely. -/
theorem Holds.popEmpty_iff (h : Holds ses waiting s) (hs : Sound ses s) (hw : s.work = .idle) :
    PopEmpty s.q ↔ waiting = [] := by
  rw [← List.length_eq_zero_iff]
  exact (h.work_idle hw).popEmpty_iff (hs.work_idle hw)

/-- A pop that finds nothing leaves the queue empty, also when it resets the ring. -/
theorem Holds.popEmpty (h : Holds ses [] s) (hs : Sound ses s) (hw : s.work = .idle)
    (hprod : s.q.full = true → s.prod.slot? = none ∨ s.prod.slot? = some 0) :
    Holds ses [] { s with q := popReset { s.q with sz := 0 } } := by
  refine .of_cursors h.history ?_ (fun k p hk => ?_) fun i hi => ?_
  · show Cursors (popReset { s.q with sz := 0 }) 0 s.prod.slot? s.work.slot?
    rw [hw]
    exact (h.work_idle hw).popReset (hs.work_idle hw) hprod
  · simp at hk
  · show (trimSlot ses.dir ((popReset { s.q with sz := 0 }).R i)).len.toNat + 34 ≤ ses.mtu
    unfold popReset
    split
    · -- a reset clears the length of the producer's slot, too
      have hi' : i < s.q.rsz :=
        hs.owned.prod_lt i (by rw [show s.prod = .holding i true from hi]; rfl)
      have hge := ses.mtu_ge
      cases ses.dir <;> simp [trimSlot, rxIoTrim, resetRing, hi'] <;> omega
    · exact h.filled i hi

/-- A pop that finds a packet takes the head of the queue. -/
theorem Holds.popTaken {p : Packet} (h : Holds ses (p :: waiting) s) (hs : Sound ses s)
    (hw : s.work = .idle) (hout : s.q.outIdx + 1 < s.q.rsz) :
    Holds ses waiting s.popStep := by
  have hown := hs.work_idle hw
  have hcur := h.work_idle hw
  have hne : ¬ PopEmpty s.q := fun he => by
    have := (h.popEmpty_iff hs hw).mp he
    cases this
  have htgt := hcur.popTarget_eq hown hout
  have hafter := slotAfter_popTaken htgt
  have hpkt : ∀ k, packetAt s.pool (Lanes.popTaken s.q) k = packetAt s.pool s.q k := fun k =>
    packetAt_lock s.pool (q := s.q) (k := popTarget s.q) rfl k
  have hhead : packetAt s.pool s.q s.q.outIdx = p := by
    have := (h.queued 0 p rfl).1
    rwa [slotAfter_zero hown.out_lt] at this
  rw [hs.popStep_eq hw, if_neg hne, htgt]
  refine .of_cursors ?_ (hcur.popTaken hown hout) (fun k p' hk => ?_) fun i hi => ?_
  · simp only [hpkt, hhead, h.history, List.append_assoc, List.singleton_append]
  · show packetAt s.pool (Lanes.popTaken s.q) (slotAfter (Lanes.popTaken s.q) k) = p' ∧ _
    rw [hpkt, hafter]
    exact h.queued (k + 1) p' hk
  · have hlen : (trimSlot ses.dir ((Lanes.popTaken s.q).R i)).len =
        (trimSlot ses.dir (s.q.R i)).len := by
      have hl : ((Lanes.popTaken s.q).R i).len = (s.q.R i).len := congrArg Packet.len (hpkt i)
      cases ses.dir <;> simp [trimSlot, rxIoTrim, hl]
    show (trimSlot ses.dir ((Lanes.popTaken s.q).R i)).len.toNat + 34 ≤ ses.mtu
    rw [hlen]
    exact h.filled i hi

theorem Holds.use (h : Holds ses waiting s) (hw : s.work = .holding i before false) :
    Holds ses waiting (s.useStep ses i before) where
  history := h.history
  count := by simpa [Sys.useStep, hw] using h.count
  room := h.room
  cursor := h.cursor
  prod := h.prod
  work j hj := by
    cases hj
    exact h.work i (by rw [hw]; rfl)
  queued := h.queued
  filled := h.filled

theorem Holds.release (h : Holds ses waiting s) (hs : Sound ses s)
    (hw : s.work = .holding i before true) : Holds ses waiting (s.releaseStep i) := by
  have hslot : s.work.slot? = some i := by rw [hw]; rfl
  have hcur := h.cursors
  rw [hslot] at hcur
  have hother : ∀ j, j ≠ i → (Lanes.release s.q i).R j = s.q.R j := fun j hj => by
    rw [release_R, Function.update_of_ne hj]
  refine .of_cursors h.history hcur.release (fun k p hk => ?_) fun j hj => ?_
  · obtain ⟨hpkt, hfit⟩ := h.queued k p hk
    have hne := h.cursors.work_ne hs.owned hslot (Nat.le_of_lt (lt_of_getElem?_some hk))
    refine ⟨Eq.trans (packetAt_congr ?_ ?_ rfl) hpkt, hfit⟩
    · exact congrArg RNG.len (hother _ hne)
    · exact congrArg RNG.data (hother _ hne)
  · have hne : j ≠ i := (hs.slot_ne hj hw).symm
    simp only [Sys.releaseStep, hother j hne]
    exact h.filled j hj

theorem Holds.step {s' : Sys} {a : Action} (h : Holds ses waiting s) (hs : Sound ses s)
    (hok : CursorSafe s a) (ha : step ses s a = some s') : ∃ waiting', Holds ses waiting' s' := by
  obtain ⟨-, hp, rfl⟩ | ⟨got, i, filled, -, hp, rfl⟩ | ⟨i, -, hp, rfl⟩ | ⟨rfl, hw, rfl⟩ |
    ⟨i, before, -, hw, rfl⟩ | ⟨i, before, -, hw, rfl⟩ := step_cases ha
  · exact ⟨_, h.push hs hp⟩
  · exact ⟨_, h.read hs hp got⟩
  · exact ⟨_, h.commit hs hp⟩
  · obtain ⟨hout, hprod⟩ := hok rfl
    cases waiting with
    | nil =>
      have hempty : PopEmpty s.q := (h.popEmpty_iff hs hw).mpr rfl
      refine ⟨[], ?_⟩
      rw [hs.popStep_eq hw, if_pos hempty]
      exact h.popEmpty hs hw (hprod hempty)
    | cons p rest =>
      have hne : ¬ PopEmpty s.q := fun he => by
        have := (h.popEmpty_iff hs hw).mp he
        cases this
      exact ⟨rest, h.popTaken hs hw (hout hne)⟩
  · exact ⟨_, h.use hw⟩
  · exact ⟨_, h.release hs hw⟩

end Steps

/-! ## Every run

The empty queue holds at the start, a cursor-safe step keeps some queue, and a state that holds a
queue has the property. -/

theorem Sys.Start.holds {ses : Session} {s : Sys} (h : s.Start ses) : Holds ses [] s := by
  refine .of_cursors ?_ ?_ (fun k p hk => ?_) fun i hi => ?_
  · simp [h.committed, h.handed]
  · rw [h.prod, h.work]
    exact h.ring.cursors
  · simp at hk
  · rw [h.prod] at hi
    cases hi

theorem Holds.fifo {ses : Session} {s : Sys} {waiting : List Packet} (h : Holds ses waiting s)
    (hs : Sound ses s) : Fifo s := by
  refine ⟨waiting, h.history, fun p hp => ?_, fun hw q' hq' => ?_⟩
  · obtain ⟨k, hk⟩ := List.getElem?_of_mem hp
    obtain ⟨hpkt, -⟩ := h.queued k p hk
    have hlt := lt_of_getElem?_some hk
    have hslot : slotAfter s.q k = p.slot := congrArg Packet.slot hpkt
    have hbound : slotAfter s.q k < s.q.rsz :=
      slotAfter_lt hs.owned.out_lt (by have := h.cursors.lt; omega)
    rw [← hslot]
    refine ⟨hpkt, ?_⟩
    rw [← Bool.not_eq_true, hs.owned.locked_iff _ hbound]
    rintro (hp | hw)
    · exact h.cursors.prod_ne hp hlt rfl
    · exact h.cursors.work_ne hs.owned hw (Nat.le_of_lt hlt) rfl
  · rw [(hs.work_idle hw).pop] at hq'
    split at hq'
    · exact (h.popEmpty_iff hs hw).mp ‹_›
    · cases hq'

/-- **First in, first out.** In a run whose pops are cursor safe nothing faults, and every state
reached has handed the packets over in commit order and still holds the others. -/
theorem fifo_of_cursorSafe {ses : Session} {s₀ s : Sys} {as : List Action} (h₀ : s₀.Start ses)
    (hok : Run.Within (step ses) CursorSafe s₀ as) (hrun : Run.exec (step ses) s₀ as = some s) :
    s.fault = none ∧ Fifo s := by
  have hinv : Sound ses s ∧ ∃ waiting, Holds ses waiting s := by
    refine Run.invariant_of_within (fun s => Sound ses s ∧ ∃ waiting, Holds ses waiting s)
      (fun s a s' hi hok ha => ?_) hok hrun ⟨h₀.sound, _, h₀.holds⟩
    obtain ⟨hs, waiting, hq⟩ := hi
    exact ⟨hs.step ha, hq.step hs hok ha⟩
  obtain ⟨hs, waiting, hq⟩ := hinv
  exact ⟨hs.safe, hq.fifo hs⟩

/-- Three packets through a ring of three slots: the third is committed in slot 2 and the pop after
it hands over slot 0, which was released. -/
def wrapRun : List Action :=
  [.push, .read (some []), .commit, .pop, .use, .release,
    .push, .read (some []), .commit, .pop, .use, .release,
    .push, .read (some []), .commit, .pop]

theorem fifo_oneLap :
    ∃ s, Run.exec (step smallSession) (startSys (emptyRing 3 60) fun _ => 0) (wrapRun.take 15) =
      some s ∧ s.handed.length = 2 ∧ s.fault = none ∧ Fifo s := by
  have hrun : (Run.exec (step smallSession) (startSys (emptyRing 3 60) fun _ => 0)
      (wrapRun.take 15)).map (fun s => s.handed.length) = some 2 := by decide
  obtain ⟨s, hs, hlen⟩ := Option.map_eq_some_iff.mp hrun
  exact ⟨s, hs, hlen, fifo_of_cursorSafe (startSys_start _ (by decide) (by decide))
    (by decide : Run.Within (step smallSession) CursorSafe
      (startSys (emptyRing 3 60) fun _ => 0) (wrapRun.take 15)) hs⟩

theorem fifo_fails :
    ¬ ∀ (ses : Session) (s₀ s : Sys) (as : List Action), s₀.Start ses →
      Run.exec (step ses) s₀ as = some s → Fifo s := by
  intro hall
  have hrun : (Run.exec (step smallSession) (startSys (emptyRing 3 60) fun _ => 0) wrapRun).map
      (fun s => (s.handed.map Packet.slot, s.committed.map Packet.slot)) =
        some ([0, 1, 0], [0, 1, 2]) := by decide
  obtain ⟨s, hs, hslots⟩ := Option.map_eq_some_iff.mp hrun
  obtain ⟨waiting, hhist, -⟩ := hall smallSession _ s wrapRun
    (startSys_start _ (by decide) (by decide)) hs
  obtain ⟨hhanded, hcommitted⟩ := Prod.mk.inj hslots
  have := congrArg (List.map Packet.slot) hhist
  rw [List.map_append, hhanded, hcommitted] at this
  simp at this

/-! ## The condition is exact

Both bad pops are taken from a state that follows the queue. The pop from the last slot breaks it
at once. After the reset it takes the producer's commit and one more pop to see that the slot
handed over is not the slot committed. -/

section Exact

variable {ses : Session} {s : Sys} {waiting : List Packet} {i : Nat} {filled : Bool}

theorem step_pop (hf : s.fault = none) (hw : s.work = .idle) :
    step ses s .pop = some s.popStep := by
  unfold step
  cases hp : s.prod <;> simp [hf, hw]

theorem step_read (hf : s.fault = none) (hp : s.prod = .holding i filled)
    (got : Option (List UInt8)) : step ses s (.read got) = some (s.readStep ses i got) := by
  simp [step, hf, hp]

theorem step_commit (hf : s.fault = none) (hp : s.prod = .holding i true) :
    step ses s .commit = some (s.commitStep ses i) := by
  simp [step, hf, hp]

/-- A pop from the last slot of the ring skips the packet there. -/
theorem Holds.wrap_breaks (h : Holds ses waiting s) (hs : Sound ses s) (hw : s.work = .idle)
    (hne : ¬ PopEmpty s.q) (hwrap : s.q.rsz ≤ s.q.outIdx + 1) : ¬ Fifo s.popStep := by
  have htgt := (hs.work_idle hw).popTarget_lt hne
  cases waiting with
  | nil => exact fun _ => hne ((h.popEmpty_iff hs hw).mpr rfl)
  | cons p rest =>
    rintro ⟨waiting', hhist, -⟩
    have hslot : p.slot = s.q.outIdx := by
      rw [← (h.queued 0 p rfl).1, slotAfter_zero hs.owned.out_lt]
      rfl
    rw [hs.popStep_eq hw, if_neg hne] at hhist
    simp only [h.history, List.append_assoc, List.singleton_append, List.append_cancel_left_eq,
      List.cons.injEq] at hhist
    have : s.q.outIdx = popTarget s.q := by
      rw [← hslot, hhist.1]
      rfl
    omega

/-- The first commit on a ring whose cursors are at 0. -/
theorem commit_of_reset {q : Q} (h3 : 3 ≤ q.rsz) (hb : q.rsz < 2 ^ 32) (hin : q.inIdx = 0)
    (hout : q.outIdx = 0) (hsz : q.sz = 0) :
    (Lanes.commit q i).inIdx = 1 ∧ (Lanes.commit q i).outIdx = 0 ∧ (Lanes.commit q i).sz = 1 := by
  have hcur := commit_inIdx (q := q) (i := i) (by omega) hb
  refine ⟨?_, by rw [commit_outIdx, hout], ?_⟩
  · rw [hcur, hin]
    exact if_neg (by omega)
  · rw [commit_sz, hsz, if_neg (by omega)]
    rfl

/-- With no slot held `pop` takes the slot that its scan starts from. -/
theorem popTarget_of_owned {q : Q} (hown : Owned q none none) : popTarget q = popStart q := by
  have hlt := hown.popStart_lt
  refine if_neg fun hl => ?_
  have := (hown.locked_iff (popStart q) (by omega)).mp hl
  simp at this

/-- A reset that moves the cursors off the producer's slot makes the next pop hand over slot 0
instead of the slot committed. -/
theorem Holds.reset_breaks (h : Holds ses waiting s) (hs : Sound ses s) (hw : s.work = .idle)
    (hempty : PopEmpty s.q) (hfull : s.q.full = true) (hp : s.prod = .holding i filled)
    (hi : i ≠ 0) :
    ∃ frame s', Run.exec (Lanes.step ses) s [.pop, .read (some frame), .commit, .pop] = some s' ∧
      ¬ Fifo s' := by
  have hwait : waiting = [] := (h.popEmpty_iff hs hw).mp hempty
  -- the reset
  obtain ⟨s₁, h₁⟩ : ∃ s₁, s₁ = s.popStep := ⟨_, rfl⟩
  have hpop : s₁ = { s with q := resetRing { s.q with sz := 0 } } := by
    rw [h₁, hs.popStep_eq hw, if_pos hempty, popReset, if_pos hfull]
  have hp₁ : s₁.prod = .holding i filled := by rw [hpop]; exact hp
  have hs₁ : Sound ses s₁ := by rw [h₁]; exact hs.pop hw
  have hi₁ : i < s₁.q.rsz := hs₁.owned.prod_lt i (by rw [hp₁]; rfl)
  -- a read that will do, and the commit of slot `i`
  obtain ⟨frame, hdone⟩ := exists_readDone ses s₁.pool (hs₁.layout i hi₁).ip
  obtain ⟨s₂, h₂⟩ : ∃ s₂, s₂ = s₁.readStep ses i (some frame) := ⟨_, rfl⟩
  obtain ⟨s₃, h₃⟩ : ∃ s₃, s₃ = s₂.commitStep ses i := ⟨_, rfl⟩
  have hw₃ : s₃.work = .idle := by rw [h₃, h₂, hpop]; exact hw
  have hp₃ : s₃.prod = .idle := by rw [h₃]; rfl
  have hs₂ : Sound ses s₂ := by rw [h₂]; exact hs₁.read hp₁ _
  have hp₂ : s₂.prod = .holding i true := by
    rw [h₂, ← hdone]
    rfl
  have hs₃ : Sound ses s₃ := by rw [h₃]; exact hs₂.commit hp₂
  have hown : Owned s₃.q none none := by
    have := hs₃.work_idle hw₃
    rwa [hp₃] at this
  have hcursors : s₃.q.inIdx = 1 ∧ s₃.q.outIdx = 0 ∧ s₃.q.sz = 1 := by
    rw [h₃, h₂, hpop]
    exact commit_of_reset hs.owned.three hs.owned.bound rfl rfl rfl
  obtain ⟨hin, hout, hsz⟩ := hcursors
  -- the second pop starts at slot 0
  have hne : ¬ PopEmpty s₃.q := by
    rintro (hlt | heq) <;> omega
  have htgt : popTarget s₃.q = 0 := by
    have h3 := hown.three
    rw [popTarget_of_owned hown, popStart, hout]
    exact if_neg (by omega)
  refine ⟨frame, s₃.popStep, ?_, ?_⟩
  · simp only [Run.exec, step_pop hs.safe hw, ← h₁, step_read hs₁.safe hp₁, ← h₂,
      step_commit hs₂.safe hp₂, ← h₃, step_pop hs₃.safe hw₃, Option.bind_some]
  · rintro ⟨waiting', hhist, -⟩
    have hcomm : s₃.committed = s₃.handed ++
        [packetAt s₂.pool (s₂.q.setSlot i (trimSlot ses.dir (s₂.q.R i))) i] := by
      have hold : s₂.committed = s₂.handed := by
        rw [h₂, hpop]
        simpa [Sys.readStep, hwait] using h.history
      rw [h₃]
      simp only [Sys.commitStep, hold]
    rw [hs₃.popStep_eq hw₃, if_neg hne] at hhist
    simp only [hcomm, List.append_assoc, List.singleton_append, List.append_cancel_left_eq,
      List.cons.injEq] at hhist
    have : i = popTarget s₃.q := congrArg Packet.slot hhist.1
    omega

/-- From a state that still follows the queue, every pop that is not cursor safe leads to a state
that does not. -/
theorem Holds.not_cursorSafe (h : Holds ses waiting s) (hs : Sound ses s) (hw : s.work = .idle)
    (hbad : ¬ CursorSafe s .pop) :
    ∃ as s', Run.exec (Lanes.step ses) s (.pop :: as) = some s' ∧ ¬ Fifo s' := by
  by_cases hempty : PopEmpty s.q
  · have hreset : s.q.full = true ∧ s.prod.slot? ≠ none ∧ s.prod.slot? ≠ some 0 := by
      simpa [CursorSafe, hempty] using hbad
    obtain ⟨hfull, hnone, hzero⟩ := hreset
    cases hp : s.prod with
    | idle => exact absurd (by rw [hp]; rfl) hnone
    | holding i filled =>
      have hi : i ≠ 0 := fun he => hzero (by rw [hp, he]; rfl)
      obtain ⟨_, s', hrun, hbreak⟩ := h.reset_breaks hs hw hempty hfull hp hi
      exact ⟨_, s', hrun, hbreak⟩
  · have hwrap : s.q.rsz ≤ s.q.outIdx + 1 := by simpa [CursorSafe, hempty] using hbad
    refine ⟨[], s.popStep, ?_, h.wrap_breaks hs hw hempty hwrap⟩
    simp [Run.exec, step_pop hs.safe hw]

end Exact

end Lanes
