import Mathlib.Tactic.Ring
import Lanes.Ring.System
import Lanes.Ring.Ownership

/-!
# Slots in the data pool

`init_ring_buffer` places slot `i` at offset `i * (mtu + 4)` of the pool. A read into one slot
stays inside it, so that the packet in any other slot is what it was. The second half lifts the
closed forms of `push` and `pop` to the steps of the system and shows that it never faults.

* **`Layout`**: where the slots are. No operation moves a slot, and `SamePlace` says so for one
  update.
* **`readSlot_of_outside`, `readSlot_payload`**: the frame condition of a read. The IO loops write
  the header of the slot, then at most `mtu` bytes of frame, and both lie inside the `mtu + 4`
  bytes of the slot.
* **`Sound`**: `Owned`, `Layout` and no fault, as one invariant of the system; `Sound.step` keeps
  it over every action, and every theorem about runs carries it along.
-/

namespace Lanes

/-! ## Layout

The fields of a slot that `init_ring_buffer` sets once: where its frame starts, where its headers
and its payload are. -/

/-- The pointers of slot `i` are those that `init_ring_buffer` gives it. -/
structure Placed (mtu i : Nat) (r : RNG) : Prop where
  eth : r.ethernetFrame = i * (mtu + 4)
  ip : r.ipheader = r.ethernetFrame + 14
  data : r.data = r.ethernetFrame + 34

def Layout (mtu : Nat) (q : Q) : Prop := ∀ i < q.rsz, Placed mtu i (q.R i)

/-- Two slot structures with the same pointers. -/
structure SamePlace (r r' : RNG) : Prop where
  eth : r'.ethernetFrame = r.ethernetFrame
  ip : r'.ipheader = r.ipheader
  data : r'.data = r.data

theorem SamePlace.refl (r : RNG) : SamePlace r r := ⟨rfl, rfl, rfl⟩

theorem SamePlace.placed {mtu i : Nat} {r r' : RNG} (h : SamePlace r r') (hr : Placed mtu i r) :
    Placed mtu i r' :=
  ⟨h.eth.trans hr.eth, by rw [h.ip, h.eth, hr.ip], by rw [h.data, h.eth, hr.data]⟩

/-- A ring operation that moves no pointer keeps the layout. -/
theorem Layout.of_same {mtu : Nat} {q q' : Q} (h : Layout mtu q) (hrsz : q'.rsz = q.rsz)
    (hsame : ∀ i, SamePlace (q.R i) (q'.R i)) : Layout mtu q' := fun i hi =>
  (hsame i).placed (h i (hrsz ▸ hi))

/-- Replacing one slot structure by one with the same pointers moves no pointer. -/
theorem samePlace_update {q : Q} {k : Nat} {r : RNG} (h : SamePlace (q.R k) r) (i : Nat) :
    SamePlace (q.R i) (Function.update q.R k r i) := by
  by_cases he : i = k
  · subst he
    simpa using h
  · rw [Function.update_of_ne he]
    exact .refl _

/-! ## Reads stay inside their slot

A read writes the bytes that the device or the socket gave and, for egress, the total length of
the outer header. `readBytes` is what is stored of the frame; it is cut at the length that the IO
loop passes to `read`. -/

section Frame

variable {ses : Session} {pool : Mem} {r : RNG} {i j n x : Nat}

/-- The header update touches the total length and the checksum only. -/
theorem txHeader_of_other (htot : x < r.ipheader + 2 ∨ r.ipheader + 4 ≤ x)
    (hcheck : x < r.ipheader + 10 ∨ r.ipheader + 12 ≤ x) : txHeader pool r x = pool x := by
  have hwrite : ∀ (m : Mem) (a : Nat) (v : UInt16), x < a ∨ a + 2 ≤ x →
      m.write a (le16 v) x = m x := fun _ a _ h =>
    Mem.write_apply_outside h (Nat.le_refl a) (Nat.le_refl _)
  simp only [txHeader]
  rw [hwrite _ _ _ (by omega), hwrite _ _ _ (by omega)]

theorem txHeader_of_outside (h : x < r.ipheader + 2 ∨ r.ipheader + 12 ≤ x) :
    txHeader pool r x = pool x :=
  txHeader_of_other (by omega) (by omega)

theorem readBytes_length_le (ses : Session) (frame : List UInt8) :
    (readBytes ses frame).length ≤ ses.mtu ∧
      (ses.dir = .egress → (readBytes ses frame).length + 34 ≤ ses.mtu) := by
  have hge := ses.mtu_ge
  have hcount := txReadCount_eq ses.mtu_ge ses.mtu_lt
  unfold readBytes
  cases hd : ses.dir with
  | egress =>
    simp only [limitedRead, List.length_take, hcount, forall_const]
    omega
  | ingress =>
    simp only [limitedRead, List.length_take, reduceCtorEq, false_implies, and_true]
    omega

/-- A read changes no byte outside the frame area of its slot. -/
theorem readSlot_of_outside (hip : r.ipheader = r.ethernetFrame + 14)
    (hdata : r.data = r.ethernetFrame + 34) (got : Option (List UInt8))
    (h : x < r.ethernetFrame ∨ r.ethernetFrame + ses.mtu ≤ x) :
    (readSlot ses pool r got).1 x = pool x := by
  have hge := ses.mtu_ge
  cases got with
  | none => unfold readSlot; cases ses.dir <;> rfl
  | some frame =>
    have hlen := readBytes_length_le ses frame
    unfold readSlot
    unfold readBytes at hlen
    cases hd : ses.dir with
    | egress =>
      simp only [hd, forall_const] at hlen
      simp only [txIoRead]
      rw [txHeader_of_outside (by simp only; omega)]
      exact Mem.write_apply_outside h (by omega) (by omega)
    | ingress =>
      simp only [hd] at hlen
      simp only [rxIoRead]
      exact Mem.write_apply_outside h (Nat.le_refl _) (by omega)

/-- The payload of another slot survives a read. -/
theorem readSlot_payload (hr : Placed ses.mtu i r) (hne : i ≠ j) (got : Option (List UInt8))
    (hn : n + 34 ≤ ses.mtu) :
    (readSlot ses pool r got).1.read (j * (ses.mtu + 4) + 34) n =
      pool.read (j * (ses.mtu + 4) + 34) n := by
  refine Mem.read_congr fun k hk => readSlot_of_outside hr.ip hr.data got ?_
  rw [hr.eth]
  rcases Nat.lt_or_gt_of_ne hne with hlt | hgt
  · right
    have : (i + 1) * (ses.mtu + 4) ≤ j * (ses.mtu + 4) := Nat.mul_le_mul_right _ hlt
    rw [Nat.add_mul] at this
    omega
  · left
    have : (j + 1) * (ses.mtu + 4) ≤ i * (ses.mtu + 4) := Nat.mul_le_mul_right _ hgt
    rw [Nat.add_mul] at this
    omega

theorem readSlot_same (got : Option (List UInt8)) : SamePlace r (readSlot ses pool r got).2 := by
  unfold readSlot
  cases ses.dir <;> cases got <;> exact ⟨rfl, rfl, rfl⟩

theorem readSlot_lock (got : Option (List UInt8)) : (readSlot ses pool r got).2.lock = r.lock := by
  unfold readSlot
  cases ses.dir <;> cases got <;> rfl

theorem readSlot_len_some (frame : List UInt8) :
    (readSlot ses pool r (some frame)).2.len = (readBytes ses frame).length := by
  unfold readSlot readBytes
  cases ses.dir <;> rfl

/-- Where the read of the direction puts its bytes. -/
def readAt (d : Dir) (r : RNG) : Nat :=
  match d with
  | .egress => r.data
  | .ingress => r.ethernetFrame

theorem SamePlace.readAt {r r' : RNG} (h : SamePlace r r') (d : Dir) :
    Lanes.readAt d r' = Lanes.readAt d r := by
  cases d
  · exact h.data
  · exact h.eth

/-- The bytes just read are in the slot. -/
theorem readSlot_stored (hip : r.ipheader = r.ethernetFrame + 14)
    (hdata : r.data = r.ethernetFrame + 34) (frame : List UInt8) :
    (readSlot ses pool r (some frame)).1.read (readAt ses.dir r) (readBytes ses frame).length =
      readBytes ses frame := by
  unfold readSlot readBytes readAt
  cases ses.dir with
  | egress =>
    simp only [txIoRead]
    rw [Mem.read_congr fun k _ => txHeader_of_outside (Or.inr (by simp only; omega))]
    exact Mem.read_write_same
  | ingress => exact Mem.read_write_same

/-- Only a successful read ends the read loop. -/
theorem readDone_isSome {got : Option (List UInt8)}
    (h : readDone ses (readSlot ses pool r got).1 (readSlot ses pool r got).2 = true) :
    got.isSome = true := by
  cases got with
  | some frame => rfl
  | none =>
    unfold readDone readSlot at h
    cases hd : ses.dir <;> simp [hd, txIoRead, rxIoRead, rxIoAccepts] at h

/-- Some frame ends the read loop, whatever the slot holds. -/
theorem exists_readDone (ses : Session) (pool : Mem) (hip : r.ipheader = r.ethernetFrame + 14) :
    ∃ frame,
    readDone ses (readSlot ses pool r (some frame)).1 (readSlot ses pool r (some frame)).2 =
      true := by
  unfold readDone readSlot
  cases ses.dir with
  | egress => exact ⟨[], by simp [txIoRead, limitedRead]⟩
  | ingress =>
    have hge := ses.mtu_ge
    refine ⟨List.replicate 26 0 ++ le32 ses.peerIp ++ List.replicate 4 0,
      rxIoAccepts_of_source hip ?_ ?_ ?_⟩
    · simpa using hge
    · simp
    · simp [le32]

theorem trimSlot_same (d : Dir) : SamePlace r (trimSlot d r) := by
  cases d <;> exact ⟨rfl, rfl, rfl⟩

theorem trimSlot_lock (d : Dir) : (trimSlot d r).lock = r.lock := by
  cases d <;> rfl

end Frame

/-! ## `push` and `pop` as one step

`push` locks the queue, searches and unlocks; the two halves are put together here, and likewise
for `pop` with the increment of `out` after its search. -/

section Calls

variable {q : Q} {p w : Option Nat}

/-- `pop` after it took a slot and moved `out` past it. -/
def popTaken (q : Q) : Q := { popAcquired q with outIdx := popTarget q + 1 }

theorem Owned.push (h : Owned q none w) :
    push q = .ok (if PushFull q then (Lanes.pushRefused q, .null)
      else (Lanes.pushAcquired q, .slot (pushTarget q))) := by
  unfold Lanes.push
  rw [h.pushLocked]
  by_cases hfull : PushFull q
  · simp only [if_pos hfull]
    rfl
  · simp only [if_neg hfull]
    rfl

theorem Owned.pop (h : Owned q p none) :
    pop q = .ok (if PopEmpty q then (Lanes.popReset { q with sz := 0 }, .null)
      else (Lanes.popTaken q, .slot (popTarget q))) := by
  unfold Lanes.pop
  rw [h.popLocked]
  by_cases hne : PopEmpty q
  · simp only [if_pos hne]
    rfl
  · have hret := Owned.popReturn (q := Lanes.popAcquired q) (p := p) (h.popAcquired hne)
    simp only [if_neg hne, bind, Except.bind, hret]
    rfl

theorem Owned.popTaken (h : Owned q p none) (hne : ¬ PopEmpty q) :
    Owned (Lanes.popTaken q) p (some (popTarget q)) :=
  (h.popAcquired hne).outSucc rfl

theorem Owned.setSlot {i : Nat} {r : RNG} (h : Owned q p w) (hr : r.lock = (q.R i).lock) :
    Owned (q.setSlot i r) p w :=
  { h with
    locked_iff := fun k hk => by
      have := h.locked_iff k hk
      by_cases he : k = i
      · subst he
        simpa [Q.setSlot, hr] using this
      · simpa [Q.setSlot, Function.update_of_ne he] using this }

theorem popReset_rsz : (popReset q).rsz = q.rsz := by
  unfold popReset
  split <;> rfl

theorem popReset_same (i : Nat) : SamePlace (q.R i) ((popReset q).R i) := by
  unfold popReset resetRing
  split
  · simp only
    split <;> exact ⟨rfl, rfl, rfl⟩
  · exact .refl _

/-- After the reset every length is 0; without it every slot is as it was. -/
theorem popReset_len (i : Nat) (hi : i < q.rsz) :
    ((popReset q).R i).len = 0 ∨ ((popReset q).R i).len = (q.R i).len := by
  unfold popReset resetRing
  split
  · simp [hi]
  · exact Or.inr rfl

end Calls

/-! ## The system does not fault

A fault is an access outside the slot array, or a scan that does not end. `step_cases` says once
what a step can do; each action then has one lemma, which keeps the owners, the places and the
absence of a fault. -/

/-- Both threads are idle, the ring is empty and laid out by `init_ring_buffer`. -/
structure Sys.Start (ses : Session) (s : Sys) : Prop where
  ring : s.q.Start
  layout : Layout ses.mtu s.q
  len : ∀ i < s.q.rsz, (s.q.R i).len = 0
  prod : s.prod = .idle
  work : s.work = .idle
  fault : s.fault = none
  reads : s.reads = []
  committed : s.committed = []
  handed : s.handed = []
  sent : s.sent = []

/-- The start of a session: both threads idle, nothing recorded yet. -/
def startSys (q : Q) (pool : Mem) : Sys where
  q := q
  pool := pool
  prod := .idle
  work := .idle
  fault := none
  reads := []
  committed := []
  handed := []
  sent := []

theorem initSlot_placed {mtu i n : Nat} (hi : i < n) (hpool : n * (mtu + 4) < 2 ^ 32) (r : RNG) :
    Placed mtu i (initSlot (mtu + 4) i r) := by
  have hlt : i * (mtu + 4) < 2 ^ 32 :=
    lt_of_le_of_lt (Nat.mul_le_mul_right _ (Nat.le_of_lt hi)) hpool
  have hmul : mul32 i (mtu + 4) = i * (mtu + 4) := Nat.mod_eq_of_lt hlt
  exact
    { eth := hmul
      ip := rfl
      data := rfl }

theorem startSys_start {ses : Session} {n : Nat} (pool : Mem) (h3 : 3 ≤ n)
    (hpool : n * (ses.mtu + 4) < 2 ^ 32) : (startSys (emptyRing n ses.mtu) pool).Start ses where
  ring := emptyRing_start h3 (lt_of_le_of_lt (Nat.le_mul_of_pos_right n (by omega)) hpool)
  layout _ hi := initSlot_placed hi hpool _
  len _ _ := rfl
  prod := rfl
  work := rfl
  fault := rfl
  reads := rfl
  committed := rfl
  handed := rfl
  sent := rfl

/-- An egress session on an interface with an MTU of 60. -/
def smallSession : Session where
  dir := .egress
  mtu := 60
  peerIp := 0
  mtu_ge := by decide
  mtu_lt := by decide

/-- No fault, every lock owned, every slot in its place. -/
structure Sound (ses : Session) (s : Sys) : Prop where
  safe : s.fault = none
  owned : Owned s.q s.prod.slot? s.work.slot?
  layout : Layout ses.mtu s.q

theorem Sys.Start.sound {ses : Session} {s : Sys} (h : s.Start ses) : Sound ses s where
  safe := h.fault
  owned := by
    rw [h.prod, h.work]
    exact h.ring.owned
  layout := h.layout

/-- What an enabled step is: one of the six, with the thread at the point it starts from. -/
theorem step_cases {ses : Session} {s s' : Sys} {a : Action} (h : step ses s a = some s') :
    (a = .push ∧ s.prod = .idle ∧ s' = s.pushStep) ∨
    (∃ got i filled, a = .read got ∧ s.prod = .holding i filled ∧ s' = s.readStep ses i got) ∨
    (∃ i, a = .commit ∧ s.prod = .holding i true ∧ s' = s.commitStep ses i) ∨
    (a = .pop ∧ s.work = .idle ∧ s' = s.popStep) ∨
    (∃ i before, a = .use ∧ s.work = .holding i before false ∧ s' = s.useStep ses i before) ∨
    (∃ i before, a = .release ∧ s.work = .holding i before true ∧ s' = s.releaseStep i) := by
  unfold step at h
  split at h
  · cases h
  · split at h <;> cases h <;> simp_all

section Steps

variable {ses : Session} {s : Sys} {i before : Nat} {filled used : Bool}

theorem Sound.prod_idle (h : Sound ses s) (hp : s.prod = .idle) :
    Owned s.q none s.work.slot? := by
  have := h.owned
  rwa [hp] at this

theorem Sound.prod_holding (h : Sound ses s) (hp : s.prod = .holding i filled) :
    Owned s.q (some i) s.work.slot? := by
  have := h.owned
  rwa [hp] at this

theorem Sound.work_idle (h : Sound ses s) (hw : s.work = .idle) :
    Owned s.q s.prod.slot? none := by
  have := h.owned
  rwa [hw] at this

theorem Sound.work_holding (h : Sound ses s) (hw : s.work = .holding i before used) :
    Owned s.q s.prod.slot? (some i) := by
  have := h.owned
  rwa [hw] at this

/-- The threads hold different slots. -/
theorem Sound.slot_ne {j : Nat} (h : Sound ses s) (hp : s.prod = .holding i filled)
    (hw : s.work = .holding j before used) : j ≠ i := fun he =>
  h.owned.apart i (by rw [hp]; rfl) (by rw [hw, he]; rfl)

/-- The step `push`: refused or one slot richer, never a fault. -/
theorem Sound.pushStep_eq (h : Sound ses s) (hp : s.prod = .idle) :
    s.pushStep = if PushFull s.q then { s with q := pushRefused s.q }
      else { s with q := pushAcquired s.q, prod := .holding (pushTarget s.q) false } := by
  unfold Sys.pushStep
  rw [(h.prod_idle hp).push]
  by_cases hfull : PushFull s.q
  · simp only [if_pos hfull]
  · simp only [if_neg hfull]

theorem Sound.popStep_eq (h : Sound ses s) (hw : s.work = .idle) :
    s.popStep = if PopEmpty s.q then { s with q := popReset { s.q with sz := 0 } }
      else { s with
        q := popTaken s.q
        work := .holding (popTarget s.q) s.reads.length false
        handed := s.handed ++ [packetAt s.pool (popTaken s.q) (popTarget s.q)] } := by
  unfold Sys.popStep
  rw [(h.work_idle hw).pop]
  by_cases hne : PopEmpty s.q
  · simp only [if_pos hne]
  · simp only [if_neg hne]

theorem Sound.push (h : Sound ses s) (hp : s.prod = .idle) : Sound ses s.pushStep := by
  have hown := h.prod_idle hp
  rw [h.pushStep_eq hp]
  split
  · exact
      { safe := h.safe
        owned := by rw [hp]; exact hown.pushRefused
        layout := h.layout }
  · exact
      { safe := h.safe
        owned := hown.pushAcquired
        layout := h.layout.of_same rfl fun _ =>
          samePlace_update (q := s.q) (by exact ⟨rfl, rfl, rfl⟩) _ }

theorem Sound.read (h : Sound ses s) (hp : s.prod = .holding i filled)
    (got : Option (List UInt8)) : Sound ses (s.readStep ses i got) where
  safe := h.safe
  owned := (h.prod_holding hp).setSlot (readSlot_lock got)
  layout := h.layout.of_same rfl fun _ => samePlace_update (q := s.q) (readSlot_same got) _

theorem Sound.commit (h : Sound ses s) (hp : s.prod = .holding i filled) :
    Sound ses (s.commitStep ses i) where
  safe := h.safe
  owned := ((h.prod_holding hp).setSlot (trimSlot_lock ses.dir)).commit
  layout := by
    have htrim : Layout ses.mtu (s.q.setSlot i (trimSlot ses.dir (s.q.R i))) :=
      h.layout.of_same rfl fun _ => samePlace_update (trimSlot_same ses.dir) _
    refine htrim.of_same commit_rsz fun k => ?_
    simp only [Sys.commitStep, commit_R]
    exact samePlace_update (by exact ⟨rfl, rfl, rfl⟩) _

theorem Sound.pop (h : Sound ses s) (hw : s.work = .idle) : Sound ses s.popStep := by
  have hown := h.work_idle hw
  rw [h.popStep_eq hw]
  split
  · exact
      { safe := h.safe
        owned := by rw [hw]; exact hown.popRefused.popReset
        layout := h.layout.of_same popReset_rsz fun _ =>
          popReset_same (q := { s.q with sz := 0 }) _ }
  · exact
      { safe := h.safe
        owned := hown.popTaken ‹_›
        layout := h.layout.of_same rfl fun _ =>
          samePlace_update (q := s.q) (by exact ⟨rfl, rfl, rfl⟩) _ }

theorem Sound.use (h : Sound ses s) (hw : s.work = .holding i before used) :
    Sound ses (s.useStep ses i before) where
  safe := h.safe
  owned := h.work_holding hw
  layout := h.layout

theorem Sound.release (h : Sound ses s) (hw : s.work = .holding i before used) :
    Sound ses (s.releaseStep i) where
  safe := h.safe
  owned := (h.work_holding hw).release
  layout := by
    refine h.layout.of_same rfl fun k => ?_
    simp only [Sys.releaseStep, release_R]
    exact samePlace_update (by exact ⟨rfl, rfl, rfl⟩) _

theorem Sound.step {s' : Sys} {a : Action} (h : Sound ses s) (hs : step ses s a = some s') :
    Sound ses s' := by
  obtain ⟨-, hp, rfl⟩ | ⟨got, i, filled, -, hp, rfl⟩ | ⟨i, -, hp, rfl⟩ | ⟨-, hw, rfl⟩ |
    ⟨i, before, -, hw, rfl⟩ | ⟨i, before, -, hw, rfl⟩ := step_cases hs
  · exact h.push hp
  · exact h.read hp got
  · exact h.commit hp
  · exact h.pop hw
  · exact h.use hw
  · exact h.release hw

end Steps

end Lanes
