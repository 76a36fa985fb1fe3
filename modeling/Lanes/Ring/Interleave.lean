import Lanes.Lib.Run
import Lanes.Ring.Ownership

/-!
# The ring at the grain of `q->lock`

The part of `push` and of `pop` under `q->lock` is one step; what the source does after it
released the lock is a step of its own: the return expression of `push`, the reset and the return
expression of `pop`, and the commit and release of the callers. So the other thread can run
between the two parts of a call.

At this grain `return &q->R[q->in]` matters. The index is read again after the lock is gone, and a
`reset_ring` of the worker in between makes `push` return slot 0, which nobody locked, while the
slot it did lock stays locked for good. **`slotOwnership_of_quietReset`** is the ownership
discipline over every run without such a reset, and `FineInv.not_quietReset` says that each such
reset does break it.
-/

namespace Lanes

/-! ## Threads

Where each thread stands, with the slot that the scan locked and, once the call is over, the slot
that the caller got. -/

inductive ProdPc where
  | idle
  /-- Inside `push`, past its release of `q->lock`; `took` is the slot it locked. -/
  | returning (took : Nat)
  /-- `push` locked `took` and returned `got`. -/
  | holding (took got : Nat)
  deriving Repr, DecidableEq

inductive WorkPc where
  | idle
  /-- Inside `pop`, past its release of `q->lock`, which it found empty. -/
  | resetting
  | returning (took : Nat)
  | holding (took got : Nat)
  deriving Repr, DecidableEq

structure Fine where
  q : Q
  prod : ProdPc
  work : WorkPc
  fault : Option Fault

/-- The slot the producer holds, or has locked inside the call. -/
def ProdPc.owns : ProdPc → Option Nat
  | .idle => none
  | .returning took => some took
  | .holding _ got => some got

def WorkPc.owns : WorkPc → Option Nat
  | .idle => none
  | .resetting => none
  | .returning took => some took
  | .holding _ got => some got

/-! ## Steps

A call that returns without a slot is one step or two; one that returns a slot is two, and the other
thread may take any number of steps between them.
-/

inductive FineAction where
  | pushEnter
  | pushReturn
  | commit
  | popEnter
  | popReset
  | popReturn
  | release
  deriving Repr, DecidableEq

def Fine.pushEnter (s : Fine) : Fine :=
  match pushLocked s.q with
  | .error f => { s with fault := some f }
  | .ok (q, .acquired took) => { s with q := q, prod := .returning took }
  | .ok (q, _) => { s with q := q }

def Fine.popEnter (s : Fine) : Fine :=
  match popLocked s.q with
  | .error f => { s with fault := some f }
  | .ok (q, .acquired took) => { s with q := q, work := .returning took }
  | .ok (q, .refused) => { s with q := q, work := .resetting }
  | .ok (q, .lockfail) => { s with q := q }

def Fine.popReturn (s : Fine) (took : Nat) : Fine :=
  match Lanes.popReturn s.q with
  | .error f => { s with fault := some f }
  | .ok (q, got) => { s with q := q, work := .holding took got }

def fineStep (s : Fine) (a : FineAction) : Option Fine :=
  if s.fault.isSome then none
  else
    match a, s.prod, s.work with
    | .pushEnter, .idle, _ => some s.pushEnter
    | .pushReturn, .returning took, _ =>
      some { s with prod := .holding took (Lanes.pushReturn s.q) }
    | .commit, .holding _ got, _ => some { s with q := Lanes.commit s.q got, prod := .idle }
    | .popEnter, _, .idle => some s.popEnter
    -- the reset runs without `q->lock`, also while the producer is inside `push`
    | .popReset, _, .resetting => some { s with q := Lanes.popReset s.q, work := .idle }
    | .popReturn, _, .returning took => some (s.popReturn took)
    | .release, _, .holding _ got => some { s with q := Lanes.release s.q got, work := .idle }
    | _, _, _ => none

/-- Both threads are outside their calls and the ring is empty and unlocked. -/
structure Fine.Start (s : Fine) : Prop where
  ring : s.q.Start
  prod : s.prod = .idle
  work : s.work = .idle
  fault : s.fault = none

/-! ## Ownership

The comment over `push` has the caller release the lock on the slot returned to it; that is sound
only if the slot returned is the slot locked. -/

/-- Every slot a call returned is the one it locked, the two threads hold different slots, and a
slot is locked exactly when a thread holds it or has locked it inside the call it is in. -/
structure SlotOwnership (s : Fine) : Prop where
  push_returns_locked : ∀ took got, s.prod = .holding took got → got = took
  pop_returns_locked : ∀ took got, s.work = .holding took got → got = took
  apart : ∀ i, s.prod.owns = some i → s.work.owns ≠ some i
  locked_iff : ∀ i < s.q.rsz,
    (s.q.R i).lock = true ↔ s.prod.owns = some i ∨ s.work.owns = some i

/-- No `reset_ring` runs while the producer is between its release of `q->lock` and its return
expression with `q->in` away from 0. -/
def QuietReset (s : Fine) (a : FineAction) : Prop :=
  a = .popReset → s.q.full = true → ∀ took, s.prod = .returning took → s.q.inIdx = 0

instance (s : Fine) (a : FineAction) : Decidable (QuietReset s a) :=
  match h : s.prod with
  | .idle => isTrue fun _ _ took ht => by rw [h] at ht; cases ht
  | .holding _ _ => isTrue fun _ _ took ht => by rw [h] at ht; cases ht
  | .returning took =>
    decidable_of_iff (a = .popReset → s.q.full = true → s.q.inIdx = 0)
      ⟨fun hq ha hf _ _ => hq ha hf, fun hq ha hf => hq ha hf took h⟩

/-- The invariant of runs with quiet resets. -/
structure FineInv (s : Fine) : Prop where
  safe : s.fault = none
  owned : Owned s.q s.prod.owns s.work.owns
  push_cursor : ∀ took, s.prod = .returning took → s.q.inIdx = took
  pop_cursor : ∀ took, s.work = .returning took → s.q.outIdx = took
  push_returns_locked : ∀ took got, s.prod = .holding took got → got = took
  pop_returns_locked : ∀ took got, s.work = .holding took got → got = took

theorem FineInv.ownership {s : Fine} (h : FineInv s) : SlotOwnership s where
  push_returns_locked := h.push_returns_locked
  pop_returns_locked := h.pop_returns_locked
  apart := h.owned.apart
  locked_iff := h.owned.locked_iff

theorem Fine.Start.inv {s : Fine} (h : s.Start) : FineInv s where
  safe := h.fault
  owned := by
    rw [h.prod, h.work]
    exact h.ring.owned
  push_cursor took ht := by rw [h.prod] at ht; cases ht
  pop_cursor took ht := by rw [h.work] at ht; cases ht
  push_returns_locked took got ht := by rw [h.prod] at ht; cases ht
  pop_returns_locked took got ht := by rw [h.work] at ht; cases ht

/-! ## One lemma for each step

`Owned` is the invariant here, too, with the slot of a thread that is still inside its call. -/

section Steps

variable {s : Fine}

/-- The part of `push` under the lock never faults: at most the worker's slot is locked, and that
is never the last one. -/
theorem FineInv.pushEnter (h : FineInv s) (hp : s.prod = .idle) : FineInv s.pushEnter := by
  have hown : Owned s.q none s.work.owns := by
    have := h.owned
    rwa [hp] at this
  unfold Fine.pushEnter
  rw [hown.pushLocked]
  by_cases hfull : PushFull s.q
  · -- refused: the scan moved `in` and gave its lock back
    simp only [if_pos hfull]
    exact { h with
      owned := by rw [hp]; exact hown.pushRefused
      push_cursor := fun took ht => by rw [hp] at ht; cases ht }
  · -- acquired: `in` is the slot locked until another step writes it
    simp only [if_neg hfull]
    exact { h with
      owned := hown.pushAcquired
      push_cursor := fun took ht => by cases ht; rfl
      push_returns_locked := fun took got ht => by cases ht }

theorem FineInv.pushReturn {took : Nat} (h : FineInv s) (hp : s.prod = .returning took) :
    FineInv { s with prod := .holding took (Lanes.pushReturn s.q) } := by
  have hcur : Lanes.pushReturn s.q = took := h.push_cursor took hp
  refine { h with owned := ?_, push_cursor := ?_, push_returns_locked := ?_ }
  · have := h.owned
    rw [hp] at this
    simpa [ProdPc.owns, hcur] using this
  · intro took' ht
    cases ht
  · intro took' got ht
    cases ht
    exact hcur

theorem FineInv.commit {took got : Nat} (h : FineInv s) (hp : s.prod = .holding took got) :
    FineInv { s with q := Lanes.commit s.q got, prod := .idle } := by
  have hown : Owned s.q (some got) s.work.owns := by
    have := h.owned
    rwa [hp] at this
  refine { h with owned := hown.commit, push_cursor := ?_, pop_cursor := ?_,
                  push_returns_locked := ?_ }
  · intro took' ht
    cases ht
  · intro took' ht
    show (Lanes.commit s.q got).outIdx = took'
    rw [commit_outIdx]
    exact h.pop_cursor took' ht
  · intro took' got' ht
    cases ht

theorem FineInv.popEnter (h : FineInv s) (hw : s.work = .idle) : FineInv s.popEnter := by
  have hown : Owned s.q s.prod.owns none := by
    have := h.owned
    rwa [hw] at this
  unfold Fine.popEnter
  rw [hown.popLocked]
  by_cases hne : PopEmpty s.q
  · simp only [if_pos hne]
    exact { h with
      owned := hown.popRefused
      pop_cursor := fun took ht => by cases ht
      pop_returns_locked := fun took got ht => by cases ht }
  · simp only [if_neg hne]
    exact { h with
      owned := hown.popAcquired hne
      push_cursor := h.push_cursor
      pop_cursor := fun took ht => by cases ht; rfl
      pop_returns_locked := fun took got ht => by cases ht }

/-- The one step that needs the side condition: `reset_ring` moves `in` under a producer that is
about to read it. -/
theorem FineInv.popReset (h : FineInv s) (hw : s.work = .resetting)
    (hquiet : QuietReset s .popReset) :
    FineInv { s with q := Lanes.popReset s.q, work := .idle } := by
  have hown : Owned s.q s.prod.owns none := by
    have := h.owned
    rwa [hw] at this
  refine { h with owned := hown.popReset, push_cursor := ?_, pop_cursor := ?_,
                  pop_returns_locked := ?_ }
  · intro took ht
    -- the producer is about to read `in`, and the reset writes it
    have hcur := h.push_cursor took ht
    show (Lanes.popReset s.q).inIdx = took
    unfold Lanes.popReset
    split
    · rename_i hf
      have hzero := hquiet rfl hf took ht
      rw [← hcur, hzero]
      rfl
    · exact hcur
  · intro took ht
    cases ht
  · intro took got ht
    cases ht

/-- Only the worker writes `out`, so that `R[q->out++]` is the slot it locked. -/
theorem FineInv.popReturn {took : Nat} (h : FineInv s) (hw : s.work = .returning took) :
    FineInv (s.popReturn took) := by
  have hcur := h.pop_cursor took hw
  have hown : Owned s.q s.prod.owns (some took) := by
    have := h.owned
    rwa [hw] at this
  have hret := Owned.popReturn (q := s.q) (by rw [hcur]; exact hown)
  unfold Fine.popReturn
  rw [hret]
  refine { h with owned := ?_, push_cursor := h.push_cursor, pop_cursor := ?_,
                  pop_returns_locked := ?_ }
  · simp only [WorkPc.owns, hcur]
    simpa [hcur] using hown.outSucc hcur
  · intro took' ht
    cases ht
  · intro took' got ht
    cases ht
    exact hcur

theorem FineInv.release {took got : Nat} (h : FineInv s) (hw : s.work = .holding took got) :
    FineInv { s with q := Lanes.release s.q got, work := .idle } := by
  have hown : Owned s.q s.prod.owns (some got) := by
    have := h.owned
    rwa [hw] at this
  refine { h with owned := hown.release, push_cursor := h.push_cursor, pop_cursor := ?_,
                  pop_returns_locked := ?_ }
  · intro took' ht
    cases ht
  · intro took' got' ht
    cases ht

end Steps

/-! ## Runs

The condition is used in one case only, the reset while `push` is between its two parts. -/

/-- What an enabled step is: one of the seven, with the thread at the point it starts from. -/
theorem fineStep_cases {s s' : Fine} {a : FineAction} (h : fineStep s a = some s') :
    (a = .pushEnter ∧ s.prod = .idle ∧ s' = s.pushEnter) ∨
    (∃ took, a = .pushReturn ∧ s.prod = .returning took ∧
      s' = { s with prod := .holding took (Lanes.pushReturn s.q) }) ∨
    (∃ took got, a = .commit ∧ s.prod = .holding took got ∧
      s' = { s with q := Lanes.commit s.q got, prod := .idle }) ∨
    (a = .popEnter ∧ s.work = .idle ∧ s' = s.popEnter) ∨
    (a = .popReset ∧ s.work = .resetting ∧
      s' = { s with q := Lanes.popReset s.q, work := .idle }) ∨
    (∃ took, a = .popReturn ∧ s.work = .returning took ∧ s' = s.popReturn took) ∨
    (∃ took got, a = .release ∧ s.work = .holding took got ∧
      s' = { s with q := Lanes.release s.q got, work := .idle }) := by
  unfold fineStep at h
  split at h
  · cases h
  · split at h <;> cases h <;> simp_all

theorem FineInv.step {s s' : Fine} {a : FineAction} (h : FineInv s) (hquiet : QuietReset s a)
    (hstep : fineStep s a = some s') : FineInv s' := by
  obtain ⟨-, hp, rfl⟩ | ⟨took, -, hp, rfl⟩ | ⟨took, got, -, hp, rfl⟩ | ⟨-, hw, rfl⟩ |
    ⟨rfl, hw, rfl⟩ | ⟨took, -, hw, rfl⟩ | ⟨took, got, -, hw, rfl⟩ := fineStep_cases hstep
  · exact h.pushEnter hp
  · exact h.pushReturn hp
  · exact h.commit hp
  · exact h.popEnter hw
  · exact h.popReset hw hquiet
  · exact h.popReturn hw
  · exact h.release hw

/-- A reset that is not quiet makes `push` return slot 0 in place of the slot it locked. -/
theorem FineInv.not_quietReset {s : Fine} (h : FineInv s) (hw : s.work = .resetting)
    (hbad : ¬ QuietReset s .popReset) :
    ∃ s', Run.exec fineStep s [.popReset, .pushReturn] = some s' ∧ ¬ SlotOwnership s' := by
  obtain ⟨hfull, took, hp, hin⟩ : s.q.full = true ∧ ∃ took, s.prod = .returning took ∧
      s.q.inIdx ≠ 0 := by
    simpa [QuietReset] using hbad
  refine ⟨{ s with q := resetRing s.q, work := .idle, prod := .holding took 0 }, ?_, fun hown => ?_⟩
  · simp [Run.exec, fineStep, h.safe, hw, hp, Lanes.popReset, hfull, Lanes.pushReturn, resetRing]
  · have hgot := hown.push_returns_locked took 0 rfl
    have hcur := h.push_cursor took hp
    omega

/-- **Slot ownership.** In a run whose resets are quiet, every state reached is free of faults and
has every lock accounted for. -/
theorem slotOwnership_of_quietReset {s₀ s : Fine} {as : List FineAction} (h₀ : s₀.Start)
    (hquiet : Run.Within fineStep QuietReset s₀ as) (hrun : Run.exec fineStep s₀ as = some s) :
    s.fault = none ∧ SlotOwnership s := by
  have hinv : FineInv s :=
    Run.invariant_of_within FineInv (fun _ _ _ h hq hs => h.step hq hs) hquiet hrun h₀.inv
  exact ⟨hinv.safe, hinv.ownership⟩

/-- The start state over `emptyRing`. -/
def fineStart (n mtu : Nat) : Fine where
  q := emptyRing n mtu
  prod := .idle
  work := .idle
  fault := none

theorem fineStart_start {n mtu : Nat} (h3 : 3 ≤ n) (hb : n < 2 ^ 32) : (fineStart n mtu).Start where
  ring := emptyRing_start h3 hb
  prod := rfl
  work := rfl
  fault := rfl

/-- A ring of three slots filled, found full, and drained while the producer is inside `push`; the
worker's reset falls after the return expression. -/
def quietRun : List FineAction :=
  [.pushEnter, .pushReturn, .commit, .pushEnter, .pushReturn, .commit, .pushEnter,
    .popEnter, .popReturn, .release, .popEnter, .popReturn, .release,
    .popEnter, .pushEnter, .pushReturn, .popReset]

/-- The same steps with the reset before the return expression. -/
def resetInsidePush : List FineAction :=
  [.pushEnter, .pushReturn, .commit, .pushEnter, .pushReturn, .commit, .pushEnter,
    .popEnter, .popReturn, .release, .popEnter, .popReturn, .release,
    .popEnter, .pushEnter, .popReset, .pushReturn]

theorem slotOwnership_quietRun :
    ∃ s, Run.exec fineStep (fineStart 3 60) quietRun = some s ∧
      s.fault = none ∧ SlotOwnership s := by
  obtain ⟨s, hs⟩ := Option.isSome_iff_exists.mp
    (show (Run.exec fineStep (fineStart 3 60) quietRun).isSome by decide)
  exact ⟨s, hs, slotOwnership_of_quietReset (fineStart_start (by decide) (by decide))
    (by decide : Run.Within fineStep QuietReset (fineStart 3 60) quietRun) hs⟩

/-- When the reset falls inside `push`, the call returns slot 0 although it locked slot 2, which
then stays locked. -/
theorem slotOwnership_fails :
    ¬ ∀ (s₀ s : Fine) (as : List FineAction), s₀.Start → Run.exec fineStep s₀ as = some s →
      SlotOwnership s := by
  intro hall
  have hrun : (Run.exec fineStep (fineStart 3 60) resetInsidePush).map Fine.prod =
      some (.holding 2 0) := by decide
  obtain ⟨s, hs, hprod⟩ := Option.map_eq_some_iff.mp hrun
  have hown := hall (fineStart 3 60) s resetInsidePush
    (fineStart_start (by decide) (by decide)) hs
  have := hown.push_returns_locked 2 0 hprod
  omega

end Lanes
