import Mathlib.Data.Finset.Card
import Mathlib.Data.Finset.Image
import Lanes.Ring.Fifo

/-!
# Whole calls as steps: the cursor of a held slot, and full and empty

The producer repeats push and commit, the worker pop and release, and each call is one step. The
state marks the slots that are waiting (from the commit that fills them until the pop) and those
that are occupied (until the release after it).

## Main results

* **`cursorHeld_of_resetsQuietly`**: `in` is the slot that the producer holds. `reset_ring` runs
  inside a pop that finds the ring empty, also while the producer holds a slot, and is the only step
  that moves `in` away from it; `ResetsQuietly` excludes that reset and nothing else
  (`CallsOwned.not_resetsQuietly`).
* **`exactTests_of_staysInStep`**: the test of `push` for a full ring and the test of `pop` for an
  empty one are right about the slots marked. They are as long as the cursors follow the queue, that
  is up to the two pops that `StaysInStep` rules out, as `CursorSafe` does in `Ring/Fifo.lean`.

No packet is looked at here, so the ring needs no pool, and a slot may be committed unread.
-/

namespace Lanes

/-! ## Steps

A call that returns `NULL` or `(RNG *) -1` leaves its thread without a slot, so that it calls
again. The marks are set and erased with the calls that the source makes; no call reads them. -/

/-- The ring, the slots its two threads hold, and the marks, which no step reads. -/
structure Calls where
  q : Q
  prod : Option Nat
  work : Option Nat
  fault : Option Fault
  waiting : Finset Nat
  occupied : Finset Nat

inductive Call where
  | push
  | commit
  | pop
  | release
  deriving Repr, DecidableEq

namespace Calls

def pushStep (a : Calls) : Calls :=
  match push a.q with
  | .error f => { a with fault := some f }
  | .ok (q, .slot i) => { a with q := q, prod := some i }
  | .ok (q, _) => { a with q := q }

def commitStep (a : Calls) (i : Nat) : Calls :=
  { a with
    q := commit a.q i
    prod := none
    waiting := insert i a.waiting
    occupied := insert i a.occupied }

def popStep (a : Calls) : Calls :=
  match pop a.q with
  | .error f => { a with fault := some f }
  | .ok (q, .slot i) => { a with q := q, work := some i, waiting := a.waiting.erase i }
  | .ok (q, _) => { a with q := q }

def releaseStep (a : Calls) (i : Nat) : Calls :=
  { a with
    q := release a.q i
    work := none
    occupied := a.occupied.erase i }

end Calls

/-- One call; a thread pushes or pops only when it holds no slot, and none does after a fault. -/
def callStep (a : Calls) (c : Call) : Option Calls :=
  if a.fault.isSome then none
  else
    match c, a.prod, a.work with
    | .push, none, _ => some a.pushStep
    | .commit, some i, _ => some (a.commitStep i)
    | .pop, _, none => some a.popStep
    | .release, _, some i => some (a.releaseStep i)
    | _, _, _ => none

/-- The ring is empty and unlocked and nobody holds a slot. -/
structure Calls.Start (a : Calls) : Prop where
  ring : a.q.Start
  prod : a.prod = none
  work : a.work = none
  fault : a.fault = none
  waiting : a.waiting = ∅
  occupied : a.occupied = ∅

/-- What an enabled step is: one of the four calls. -/
theorem callStep_cases {a a' : Calls} {c : Call} (h : callStep a c = some a') :
    (c = .push ∧ a.prod = none ∧ a' = a.pushStep) ∨
    (∃ i, c = .commit ∧ a.prod = some i ∧ a' = a.commitStep i) ∨
    (c = .pop ∧ a.work = none ∧ a' = a.popStep) ∨
    (∃ i, c = .release ∧ a.work = some i ∧ a' = a.releaseStep i) := by
  unfold callStep at h
  split at h
  · cases h
  · split at h <;> cases h <;> simp_all

/-! ## Every call keeps ownership

The closed forms of `push` and `pop` turn each call into an `if`, and `Owned` has a lemma for
either branch. This needs no condition on the run. -/

/-- Nothing went wrong and the locks belong to the two slots held. -/
structure CallsOwned (a : Calls) : Prop where
  safe : a.fault = none
  owned : Owned a.q a.prod a.work

section Owned

variable {a a' : Calls} {c : Call} {i : Nat}

theorem Calls.Start.owned (h : a.Start) : CallsOwned a where
  safe := h.fault
  owned := by
    rw [h.prod, h.work]
    exact h.ring.owned

theorem CallsOwned.prod_none (h : CallsOwned a) (hp : a.prod = none) : Owned a.q none a.work := by
  rw [← hp]
  exact h.owned

theorem CallsOwned.work_none (h : CallsOwned a) (hw : a.work = none) : Owned a.q a.prod none := by
  rw [← hw]
  exact h.owned

theorem CallsOwned.pushStep_eq (h : CallsOwned a) (hp : a.prod = none) :
    a.pushStep = if PushFull a.q then { a with q := pushRefused a.q }
      else { a with q := pushAcquired a.q, prod := some (pushTarget a.q) } := by
  unfold Calls.pushStep
  rw [(h.prod_none hp).push]
  by_cases hfull : PushFull a.q
  · simp only [if_pos hfull]
  · simp only [if_neg hfull]

theorem CallsOwned.popStep_eq (h : CallsOwned a) (hw : a.work = none) :
    a.popStep = if PopEmpty a.q then { a with q := popReset { a.q with sz := 0 } }
      else { a with
        q := popTaken a.q
        work := some (popTarget a.q)
        waiting := a.waiting.erase (popTarget a.q) } := by
  unfold Calls.popStep
  rw [(h.work_none hw).pop]
  by_cases hempty : PopEmpty a.q
  · simp only [if_pos hempty]
  · simp only [if_neg hempty]

theorem CallsOwned.step (h : CallsOwned a) (ha : callStep a c = some a') : CallsOwned a' := by
  obtain ⟨-, hp, rfl⟩ | ⟨i, -, hp, rfl⟩ | ⟨-, hw, rfl⟩ | ⟨i, -, hw, rfl⟩ := callStep_cases ha
  · have hown := h.prod_none hp
    rw [h.pushStep_eq hp]
    split
    · refine ⟨h.safe, ?_⟩
      rw [hp]
      exact hown.pushRefused
    · exact ⟨h.safe, hown.pushAcquired⟩
  · have hown := h.owned
    rw [hp] at hown
    exact ⟨h.safe, hown.commit⟩
  · have hown := h.work_none hw
    rw [h.popStep_eq hw]
    split
    · refine ⟨h.safe, ?_⟩
      rw [hw]
      exact hown.popRefused.popReset
    · rename_i hne
      exact ⟨h.safe, hown.popTaken hne⟩
  · have hown := h.owned
    rw [hw] at hown
    exact ⟨h.safe, hown.release⟩

end Owned

/-! ## The cursor of a held slot

The commit increments `in` without looking at the slot it unlocks, so a cursor that is not on that
slot is off by as much from then on. -/

/-- `in` is the index of the slot the producer holds. -/
def CursorHeld (a : Calls) : Prop := ∀ i, a.prod = some i → a.q.inIdx = i

/-- A pop that finds the ring empty with `full` set finds the producer without a slot or on slot
0. -/
def ResetsQuietly (a : Calls) (c : Call) : Prop :=
  c = .pop → PopEmpty a.q → a.q.full = true → a.prod = none ∨ a.prod = some 0

instance (a : Calls) (c : Call) : Decidable (ResetsQuietly a c) :=
  inferInstanceAs (Decidable (_ → _))

section Held

variable {a a' : Calls} {c : Call}

theorem CursorHeld.step (h : CursorHeld a) (hown : CallsOwned a) (hok : ResetsQuietly a c)
    (ha : callStep a c = some a') : CursorHeld a' := by
  obtain ⟨-, hp, rfl⟩ | ⟨i, -, hp, rfl⟩ | ⟨rfl, hw, rfl⟩ | ⟨i, -, hw, rfl⟩ := callStep_cases ha
  · rw [hown.pushStep_eq hp]
    split
    · intro i hi
      rw [show a.prod = some i from hi] at hp
      cases hp
    · intro i hi
      cases hi
      rfl
  · intro k hk
    cases hk
  · rw [hown.popStep_eq hw]
    split
    · -- only a reset writes `in`, and it writes the slot the producer is on
      rename_i hempty
      intro i hi
      have hi' : a.prod = some i := hi
      have hcur := h i hi'
      show (popReset { a.q with sz := 0 }).inIdx = i
      unfold popReset
      split
      · rename_i hfull
        rcases hok rfl hempty hfull with hnone | hzero
        · rw [hi'] at hnone
          cases hnone
        · rw [hi'] at hzero
          cases hzero
          rfl
      · exact hcur
    · exact h
  · exact h

/-- A reset that is not quiet leaves `in` on another slot than the producer's. -/
theorem CallsOwned.not_resetsQuietly (h : CallsOwned a) (hw : a.work = none)
    (hbad : ¬ ResetsQuietly a .pop) :
    ∃ a', callStep a .pop = some a' ∧ ¬ CursorHeld a' := by
  obtain ⟨hempty, hfull, hnone, hzero⟩ : PopEmpty a.q ∧ a.q.full = true ∧ a.prod ≠ none ∧
      a.prod ≠ some 0 := by
    simpa [ResetsQuietly] using hbad
  obtain ⟨i, hi⟩ := Option.ne_none_iff_exists'.mp hnone
  refine ⟨a.popStep, ?_, fun hheld => hzero ?_⟩
  · simp [callStep, h.safe, hw]
  · rw [h.popStep_eq hw, if_pos hempty] at hheld
    have hcur : (popReset { a.q with sz := 0 }).inIdx = i := hheld i hi
    rw [popReset, if_pos hfull] at hcur
    rw [hi, ← hcur]
    rfl

end Held

/-- **Cursor stability.** In a run whose resets are quiet nothing faults, and in every state
reached the slot that the producer holds is the one under `in`. -/
theorem cursorHeld_of_resetsQuietly {a₀ a : Calls} {cs : List Call} (h₀ : a₀.Start)
    (hok : Run.Within callStep ResetsQuietly a₀ cs) (hrun : Run.exec callStep a₀ cs = some a) :
    a.fault = none ∧ CursorHeld a := by
  have hinv : CallsOwned a ∧ CursorHeld a := by
    refine Run.invariant_of_within (fun a => CallsOwned a ∧ CursorHeld a)
      (fun a c a' hi hok ha => ⟨hi.1.step ha, hi.2.step hi.1 hok ha⟩) hok hrun ⟨h₀.owned, ?_⟩
    intro i hi
    rw [h₀.prod] at hi
    cases hi
  exact ⟨hinv.1.safe, hinv.2⟩

/-- The start state over `emptyRing`. -/
def callsStart (n mtu : Nat) : Calls where
  q := emptyRing n mtu
  prod := none
  work := none
  fault := none
  waiting := ∅
  occupied := ∅

theorem callsStart_start {n mtu : Nat} (h3 : 3 ≤ n) (hb : n < 2 ^ 32) :
    (callsStart n mtu).Start where
  ring := emptyRing_start h3 hb
  prod := rfl
  work := rfl
  fault := rfl
  waiting := rfl
  occupied := rfl

/-- A ring of three slots is filled, found full and drained; the producer takes slot 2 and, while it
holds it, the worker finds the ring empty. -/
def resetUnderProducer : List Call :=
  [.push, .commit, .push, .commit, .push, .pop, .release, .pop, .release, .push, .pop]

/-- The same run with the empty pop before the push. -/
def resetBeforePush : List Call :=
  [.push, .commit, .push, .commit, .push, .pop, .release, .pop, .release, .pop, .push]

theorem cursorHeld_resetBeforePush :
    ∃ a, Run.exec callStep (callsStart 3 60) resetBeforePush = some a ∧ a.prod = some 0 ∧
      a.fault = none ∧ CursorHeld a := by
  have hrun : (Run.exec callStep (callsStart 3 60) resetBeforePush).map Calls.prod =
      some (some 0) := by decide
  obtain ⟨a, ha, hp⟩ := Option.map_eq_some_iff.mp hrun
  exact ⟨a, ha, hp, cursorHeld_of_resetsQuietly (callsStart_start (by decide) (by decide))
    (by decide : Run.Within callStep ResetsQuietly (callsStart 3 60) resetBeforePush) ha⟩

/-- The reset moves `in` to 0 while the producer holds slot 2. -/
theorem cursorHeld_fails :
    ¬ ∀ (a₀ a : Calls) (cs : List Call), a₀.Start → Run.exec callStep a₀ cs = some a →
      CursorHeld a := by
  intro hall
  have hrun : (Run.exec callStep (callsStart 3 60) resetUnderProducer).map
      (fun a => (a.prod, a.q.inIdx)) = some (some 2, 0) := by decide
  obtain ⟨a, ha, hstate⟩ := Option.map_eq_some_iff.mp hrun
  obtain ⟨hprod, hin⟩ := Prod.mk.inj hstate
  have := hall (callsStart 3 60) a resetUnderProducer
    (callsStart_start (by decide) (by decide)) ha 2 hprod
  omega

/-! ## Full and empty

`push` compares `sz` and the cursors, `pop` does the same, and neither looks at a slot. `InStep n`
is the invariant under which these comparisons count the marked slots. -/

/-- A push would be refused exactly when all slots but one are occupied, and a pop would find
nothing exactly when no slot is waiting. -/
def ExactTests (a : Calls) : Prop :=
  (a.prod = none → ((∃ q', push a.q = .ok (q', .null)) ↔ a.q.rsz - 1 ≤ a.occupied.card)) ∧
    (a.work = none → ((∃ q', pop a.q = .ok (q', .null)) ↔ a.waiting = ∅))

/-- A pop that finds a packet does not find `out` on the last slot of the ring, and a pop that
resets the ring does not find the producer on a slot other than the first. -/
def StaysInStep (a : Calls) (c : Call) : Prop :=
  c = .pop → (¬ PopEmpty a.q → a.q.outIdx + 1 < a.q.rsz) ∧
    (PopEmpty a.q → a.q.full = true → a.prod = none ∨ a.prod = some 0)

instance (a : Calls) (c : Call) : Decidable (StaysInStep a c) :=
  inferInstanceAs (Decidable (_ → _))

/-- The waiting slots are the `n` slots from `out` up to `in`, and `sz` counts them and the slot
in the worker's hands. -/
structure InStep (n : Nat) (a : Calls) : Prop where
  count : a.q.sz = n + if a.work = none then 0 else 1
  room : a.q.sz + 1 ≤ a.q.rsz
  cursor : a.q.inIdx = slotAfter a.q n
  prod : ∀ i, a.prod = some i → a.q.inIdx = i ∧ a.q.sz + 2 ≤ a.q.rsz
  work : ∀ i, a.work = some i → a.q.outIdx = i + 1
  waiting : ∀ i, i ∈ a.waiting ↔ ∃ k < n, slotAfter a.q k = i
  occupied : ∀ i, i ∈ a.occupied ↔ i ∈ a.waiting ∨ a.work = some i

section InStep

variable {a a' : Calls} {c : Call} {n i : Nat}

theorem InStep.cursors (h : InStep n a) : Cursors a.q n a.prod a.work where
  count := h.count
  room := h.room
  cursor := h.cursor
  prod := h.prod
  work := h.work

/-- The fields about the cursors are those of `Cursors`. -/
theorem InStep.of_cursors (cursors : Cursors a.q n a.prod a.work)
    (waiting : ∀ i, i ∈ a.waiting ↔ ∃ k < n, slotAfter a.q k = i)
    (occupied : ∀ i, i ∈ a.occupied ↔ i ∈ a.waiting ∨ a.work = some i) : InStep n a where
  count := cursors.count
  room := cursors.room
  cursor := cursors.cursor
  prod := cursors.prod
  work := cursors.work
  waiting := waiting
  occupied := occupied

/-- The cursors while the producer holds no slot. -/
theorem InStep.prod_none (h : InStep n a) (hp : a.prod = none) : Cursors a.q n none a.work := by
  rw [← hp]
  exact h.cursors

/-- The cursors while the worker holds no slot. -/
theorem InStep.work_none (h : InStep n a) (hw : a.work = none) : Cursors a.q n a.prod none := by
  rw [← hw]
  exact h.cursors

theorem Calls.Start.inStep (h : a.Start) : InStep 0 a := by
  refine .of_cursors ?_ (fun i => ?_) fun i => ?_
  · rw [h.prod, h.work]
    exact h.ring.cursors
  · simp [h.waiting]
  · simp [h.waiting, h.occupied, h.work]

/-- The worker's slot does not wait. -/
theorem InStep.work_notMem (h : InStep n a) (hown : CallsOwned a) (hw : a.work = some i) :
    i ∉ a.waiting := fun hmem => by
  obtain ⟨k, hk, hslot⟩ := (h.waiting i).mp hmem
  exact h.cursors.work_ne hown.owned hw (Nat.le_of_lt hk) hslot

/-! ### The tests

The waiting slots are the first `n` places after `out`, so their number is known, and the occupied
ones are these and the slot of the worker. -/

theorem InStep.card_waiting (h : InStep n a) : a.waiting.card = n := by
  have himage : a.waiting = (Finset.range n).image (slotAfter a.q) := by
    ext i
    simp only [h.waiting, Finset.mem_image, Finset.mem_range]
  have hlt := h.cursors.lt
  -- the slots are distinct because there are fewer of them than the ring has
  have hinj : Set.InjOn (slotAfter a.q) (Finset.range n) := by
    intro j hj k hk hjk
    have hj' : j < n := Finset.mem_range.mp hj
    have hk' : k < n := Finset.mem_range.mp hk
    rcases Nat.lt_trichotomy j k with hlt' | heq | hgt
    · exact absurd hjk (slotAfter_ne (by omega) hlt')
    · exact heq
    · exact absurd hjk.symm (slotAfter_ne (by omega) hgt)
  rw [himage, Finset.card_image_of_injOn hinj, Finset.card_range]

/-- The counter counts the occupied slots. -/
theorem InStep.card_occupied (h : InStep n a) (hown : CallsOwned a) :
    a.occupied.card = a.q.sz := by
  rw [h.count]
  cases hw : a.work with
  | none =>
    have : a.occupied = a.waiting := by
      ext i
      simp [h.occupied, hw]
    rw [this, h.card_waiting, if_pos rfl]
    omega
  | some w =>
    have : a.occupied = insert w a.waiting := by
      ext i
      simp [h.occupied, hw, or_comm, eq_comm]
    rw [this, Finset.card_insert_of_notMem (h.work_notMem hown hw), h.card_waiting,
      if_neg (by simp)]

theorem InStep.exact (h : InStep n a) (hown : CallsOwned a) : ExactTests a := by
  refine ⟨fun hp => ?_, fun hw => ?_⟩
  · have hfree := hown.prod_none hp
    rw [h.card_occupied hown, ← (h.prod_none hp).pushFull_iff hfree, hfree.push]
    by_cases hfull : PushFull a.q
    · simp [hfull]
    · simp [hfull]
  · have hfree := hown.work_none hw
    rw [← Finset.card_eq_zero, h.card_waiting, ← (h.work_none hw).popEmpty_iff hfree, hfree.pop]
    by_cases hempty : PopEmpty a.q
    · simp [hempty]
    · simp [hempty]

/-! ### The calls

The cursors move as in `Ring/Cursors.lean`; what is new in each case is the change of the marks. -/

theorem InStep.push (h : InStep n a) (hown : CallsOwned a) (hp : a.prod = none) :
    InStep n a.pushStep := by
  have hfree := hown.prod_none hp
  rw [hown.pushStep_eq hp]
  split
  · refine .of_cursors ?_ h.waiting h.occupied
    rw [hp]
    exact (h.prod_none hp).pushRefused hfree
  · rename_i hfull
    exact .of_cursors ((h.prod_none hp).pushAcquired hfree hfull) h.waiting h.occupied

/-- The commit makes the slot under `in` the last one waiting. -/
theorem InStep.commit (h : InStep n a) (hown : CallsOwned a) (hp : a.prod = some i) :
    InStep (n + 1) (a.commitStep i) := by
  obtain ⟨hin, -⟩ := h.prod i hp
  have hcur := h.cursors
  have hheld := hown.owned
  rw [hp] at hcur hheld
  refine .of_cursors (hcur.commit hheld) (fun k => ?_) fun k => ?_
  · show k ∈ insert i a.waiting ↔ ∃ j < n + 1, slotAfter (Lanes.commit a.q i) j = k
    simp only [slotAfter_commit, Finset.mem_insert, h.waiting, Nat.lt_succ_iff_lt_or_eq]
    constructor
    · rintro (rfl | ⟨j, hj, hslot⟩)
      · exact ⟨n, Or.inr rfl, h.cursor.symm.trans hin⟩
      · exact ⟨j, Or.inl hj, hslot⟩
    · rintro ⟨j, hj | rfl, hslot⟩
      · exact Or.inr ⟨j, hj, hslot⟩
      · exact Or.inl (hslot.symm.trans (h.cursor.symm.trans hin))
  · show k ∈ insert i a.occupied ↔ k ∈ insert i a.waiting ∨ a.work = some k
    simp only [Finset.mem_insert, h.occupied, or_assoc]

/-- A pop that finds nothing leaves nothing waiting, also when it resets the ring. -/
theorem InStep.popEmpty (h : InStep 0 a) (hown : CallsOwned a) (hw : a.work = none)
    (hprod : a.q.full = true → a.prod = none ∨ a.prod = some 0) :
    InStep 0 { a with q := popReset { a.q with sz := 0 } } := by
  refine .of_cursors ?_ (fun i => by simpa using h.waiting i) h.occupied
  rw [hw]
  exact (h.work_none hw).popReset (hown.work_none hw) hprod

/-- A pop that finds a packet takes the slot under `out`. -/
theorem InStep.popTaken (h : InStep (n + 1) a) (hown : CallsOwned a) (hw : a.work = none)
    (hout : a.q.outIdx + 1 < a.q.rsz) : InStep n a.popStep := by
  have hfree := hown.work_none hw
  have hcur := h.work_none hw
  have hne : ¬ PopEmpty a.q := fun he => by
    have := (hcur.popEmpty_iff hfree).mp he
    omega
  have hlt := hcur.lt
  have htgt := hcur.popTarget_eq hfree hout
  have hhead : slotAfter a.q 0 = a.q.outIdx := slotAfter_zero hfree.out_lt
  rw [hown.popStep_eq hw, if_neg hne, htgt]
  refine .of_cursors (hcur.popTaken hfree hout) (fun i => ?_) fun i => ?_
  · show i ∈ a.waiting.erase a.q.outIdx ↔ ∃ k < n, slotAfter (Lanes.popTaken a.q) k = i
    simp only [slotAfter_popTaken htgt, Finset.mem_erase, h.waiting]
    -- place 0 leaves the queue and every other place moves up
    constructor
    · rintro ⟨hi, k, hk, rfl⟩
      cases k with
      | zero => exact absurd hhead hi
      | succ k => exact ⟨k, by omega, rfl⟩
    · rintro ⟨k, hk, rfl⟩
      refine ⟨?_, k + 1, by omega, rfl⟩
      rw [← hhead]
      exact (slotAfter_ne (by omega) (Nat.succ_pos k)).symm
  · -- the slot taken waits no longer and is occupied until the release
    show i ∈ a.occupied ↔ i ∈ a.waiting.erase a.q.outIdx ∨ some a.q.outIdx = some i
    have hmem : a.q.outIdx ∈ a.waiting := (h.waiting _).mpr ⟨0, by omega, hhead⟩
    by_cases hi : i = a.q.outIdx
    · subst hi
      simp [h.occupied, hmem]
    · simp [h.occupied, hw, hi, Ne.symm hi]

theorem InStep.release (h : InStep n a) (hown : CallsOwned a) (hw : a.work = some i) :
    InStep n (a.releaseStep i) := by
  have hcur := h.cursors
  rw [hw] at hcur
  refine .of_cursors hcur.release h.waiting fun k => ?_
  show k ∈ a.occupied.erase i ↔ k ∈ a.waiting ∨ none = some k
  by_cases hk : k = i
  · subst hk
    simp [h.work_notMem hown hw]
  · simp [h.occupied, hw, hk, Ne.symm hk]

theorem InStep.step (h : InStep n a) (hown : CallsOwned a) (hok : StaysInStep a c)
    (ha : callStep a c = some a') : ∃ m, InStep m a' := by
  obtain ⟨-, hp, rfl⟩ | ⟨i, -, hp, rfl⟩ | ⟨rfl, hw, rfl⟩ | ⟨i, -, hw, rfl⟩ := callStep_cases ha
  · exact ⟨n, h.push hown hp⟩
  · exact ⟨n + 1, h.commit hown hp⟩
  · obtain ⟨hout, hprod⟩ := hok rfl
    cases n with
    | zero =>
      have hempty : PopEmpty a.q := ((h.work_none hw).popEmpty_iff (hown.work_none hw)).mpr rfl
      refine ⟨0, ?_⟩
      rw [hown.popStep_eq hw, if_pos hempty]
      exact h.popEmpty hown hw (hprod hempty)
    | succ n =>
      have hne : ¬ PopEmpty a.q := fun he => by
        have := ((h.work_none hw).popEmpty_iff (hown.work_none hw)).mp he
        omega
      exact ⟨n, h.popTaken hown hw (hout hne)⟩
  · exact ⟨n, h.release hown hw⟩

end InStep

/-- **Full and empty.** In a run that stays in step nothing faults, and in every state reached
`push` and `pop` refuse exactly when the ring is full and empty. -/
theorem exactTests_of_staysInStep {a₀ a : Calls} {cs : List Call} (h₀ : a₀.Start)
    (hok : Run.Within callStep StaysInStep a₀ cs) (hrun : Run.exec callStep a₀ cs = some a) :
    a.fault = none ∧ ExactTests a := by
  have hinv : CallsOwned a ∧ ∃ n, InStep n a := by
    refine Run.invariant_of_within (fun a => CallsOwned a ∧ ∃ n, InStep n a)
      (fun a c a' hi hok ha => ?_) hok hrun ⟨h₀.owned, 0, h₀.inStep⟩
    obtain ⟨hown, n, hn⟩ := hi
    exact ⟨hown.step ha, hn.step hown hok ha⟩
  obtain ⟨hown, n, hn⟩ := hinv
  exact ⟨hown.safe, hn.exact hown⟩

/-- Two packets go through a ring of three slots, the third is committed in slot 2. -/
def threePackets : List Call :=
  [.push, .commit, .pop, .release, .push, .commit, .pop, .release, .push, .commit]

theorem exactTests_threePackets :
    ∃ a, Run.exec callStep (callsStart 3 60) threePackets = some a ∧ a.waiting = {2} ∧
      a.fault = none ∧ ExactTests a := by
  have hrun : (Run.exec callStep (callsStart 3 60) threePackets).map Calls.waiting =
      some {2} := by decide
  obtain ⟨a, ha, hwait⟩ := Option.map_eq_some_iff.mp hrun
  exact ⟨a, ha, hwait, exactTests_of_staysInStep (callsStart_start (by decide) (by decide))
    (by decide : Run.Within callStep StaysInStep (callsStart 3 60) threePackets) ha⟩

/-- The worker then takes slot 0 in place of slot 2, and once it is released the ring counts as
empty although slot 2 waits. -/
theorem exactTests_fails :
    ¬ ∀ (a₀ a : Calls) (cs : List Call), a₀.Start → Run.exec callStep a₀ cs = some a →
      ExactTests a := by
  intro hall
  have hrun : (Run.exec callStep (callsStart 3 60) (threePackets ++ [.pop, .release])).map
      (fun a => (a.work, a.waiting, (pop a.q).map Prod.snd)) = some (none, {2}, .ok .null) := by
    decide
  obtain ⟨a, ha, hstate⟩ := Option.map_eq_some_iff.mp hrun
  obtain ⟨hwork, hrest⟩ := Prod.mk.inj hstate
  obtain ⟨hwait, hpop⟩ := Prod.mk.inj hrest
  have hexact := (hall (callsStart 3 60) a (threePackets ++ [.pop, .release])
    (callsStart_start (by decide) (by decide)) ha).2 hwork
  have hempty : a.waiting = ∅ := by
    refine hexact.mp ?_
    cases hp : pop a.q with
    | error f =>
      rw [hp] at hpop
      cases hpop
    | ok r =>
      rw [hp] at hpop
      exact ⟨r.1, by rw [← Except.ok.inj hpop]⟩
  rw [hwait] at hempty
  exact absurd hempty (by decide)

end Lanes
