import Mathlib.Logic.Relation
import Lanes.Workers.Dispatch
import Lanes.Workers.ReadLoop

/-!
# Shutting a session down

One IO thread (`tx_io` or `rx_io`) and `n` workers (`tx` or `rx`) share the session structure `h`,
its array of queues and their rings. On SIGTERM the handler sets `global.run` to 0; the IO thread
then leaves its loop and frees the session. Nothing joins the workers, which test `global.run` only
at the top of their loop.

A step is an access to the lock, the cursors or a slot of one queue, so that the threads interleave
inside `push` and `pop` too. Four steps of a worker stand for several accesses: `.setup` (the queue
is given its id, and the type, names and descriptors of the session are read for the report),
`.sending` (the system call with the length, the frame and the descriptor, then the counters),
`.waiting` (the count and, while it is 0, the interval for the sleep) and `.lockfail` (the three
arguments of the report). For a free it makes no difference: a worker in the middle of one of them
is as little at its test of `global.run` as one in front of it. What the cells behind the arrays
hold is part of the state; a step with an index behind them reads and writes there.

* The bottom layer is `WorkerPc.step` and `IoPc.step`. Run alone they are the calls of `Ring.Basic`
  (`WorkerPc.alone_pop`, `IoPc.alone_push` and the two lemmas about what follows a call).
* `Threads` puts the IO thread and `n` workers on one session, and records a worker's step after the
  free in a field that no step reads.
* `not_stale_of_quietFree` is the result over whole runs, `stale_of_not_quietFree` says that its
  condition is exact.
-/

namespace Lanes

/-! ## The session in memory

What all threads of the session share. The free changes nothing in it: freed memory keeps its
contents here, and the fault is the access, not the value that it finds.
-/

/-- The session structure, its queues and the data pools of their rings. -/
structure SessionMem where
  id : Nat
  qnum : Nat
  q : Nat → Q
  pool : Nat → Mem

/-- `h->q[i]` after a step of a thread on it. -/
def SessionMem.setQ (h : SessionMem) (i : Nat) (q : Q) : SessionMem :=
  { h with q := Function.update h.q i q }

/-! ## Workers

One constructor for each place at which another thread can come in, with what the thread has in its
local variables there. Everything else is read from the session again at every step.
-/

/-- Where a worker is: `i` is its queue, `slot` the slot that `pop` returned. -/
inductive WorkerPc where
  /-- Before `__sync_fetch_and_add (&h->id, 1)`. -/
  | start
  /-- Before it fills in `h->q[i]` and reads `h` for its report. -/
  | setup (i : Nat)
  /-- Before the test of `global.run`. -/
  | top (i : Nat)
  | popEnter (i : Nat)
  | popTest (i : Nat)
  /-- Past the release of `q->lock` with the ring empty. -/
  | popReset (i : Nat)
  | popScan (i : Nat)
  | popUnlock (i : Nat)
  | popReturn (i : Nat)
  /-- Before `sendto` or `write`, with the counters behind it. -/
  | sending (i slot : Nat)
  | marking (i slot : Nat)
  | counting (i slot : Nat)
  | unlocking (i slot : Nat)
  /-- Before the interval `h->q[i].ts` is changed. -/
  | adapting (i : Nat)
  /-- In `while (h->q[i].sz == 0) nanosleep (&h->q[i].ts, NULL)`. -/
  | waiting (i : Nat)
  /-- Before the report of the change, which reads `h->q[i].sz` again. -/
  | resuming (i : Nat)
  /-- Before the report that reads `sz`, `in` and `out`. -/
  | lockfail (i : Nat)
  | exited
  deriving Repr, DecidableEq

namespace WorkerPc

/-- The next step of the worker reads or writes the session, its queues or a ring. Only the test
of `global.run` does not. -/
def touches : WorkerPc → Bool
  | .top _ | .exited => false
  | _ => true

/-- One step of a worker; `run` is the value of `global.run == 1`. -/
def step (run : Bool) (h : SessionMem) : WorkerPc → Option (SessionMem × WorkerPc)
  | .start => some ({ h with id := inc32 h.id }, .setup h.id)
  | .setup i => some (h.setQ i { h.q i with id := i }, .top i)
  | .top i => some (h, if run then .popEnter i else .exited)
  | .popEnter i =>
    if (h.q i).lock then some (h, .lockfail i)
    else some (h.setQ i { h.q i with lock := true }, .popTest i)
  -- with nothing to pop the queue lock is open again before the reset
  | .popTest i =>
    let q := h.q i
    if q.sz < 1 ∨ q.inIdx = q.outIdx then
      some (h.setQ i { q with sz := 0, lock := false }, .popReset i)
    else if q.outIdx ≥ dec32 q.rsz then some (h.setQ i { q with outIdx := 0 }, .popScan i)
    else some (h, .popScan i)
  | .popReset i => some (h.setQ i (Lanes.popReset (h.q i)), .adapting i)
  | .popScan i =>
    let q := h.q i
    if q.sz > 0 then
      if (q.R q.outIdx).lock then
        let out := if q.outIdx ≥ dec32 q.rsz then 0 else inc32 q.outIdx
        some (h.setQ i { q with outIdx := out }, .popScan i)
      else some (h.setQ i (q.lockSlot q.outIdx), .popUnlock i)
    else some (h, .popUnlock i)
  | .popUnlock i => some (h.setQ i { h.q i with lock := false }, .popReturn i)
  | .popReturn i =>
    let q := h.q i
    some (h.setQ i { q with outIdx := inc32 q.outIdx }, .sending i q.outIdx)
  -- the system call reads the slot and the session
  | .sending i slot => some (h, .marking i slot)
  | .marking i slot => some (h.setQ i ((h.q i).setLen slot (-1)), .counting i slot)
  | .counting i slot =>
    let q := h.q i
    some (h.setQ i { q with sz := if q.sz < 1 then 0 else q.sz - 1 }, .unlocking i slot)
  | .unlocking i slot => some (h.setQ i ((h.q i).unlockSlot slot), .top i)
  -- `ts` is no part of the queue here, so only the access is a step
  | .adapting i => some (h, .waiting i)
  | .waiting i => some (h, if (h.q i).sz = 0 then .waiting i else .resuming i)
  | .resuming i => some (h, .top i)
  | .lockfail i => some (h, .top i)
  | .exited => none

end WorkerPc

/-! ## The IO thread

Both directions share one program. They differ in where the queue index is advanced and in the read
loop.
-/

inductive IoPc where
  | start
  /-- Before the test of `global.run`, with the index of the iteration. -/
  | top (i : Nat)
  | pushEnter (i : Nat)
  | pushScan (i : Nat)
  | pushTest (i : Nat)
  | pushReturn (i : Nat)
  /-- In the read loop. -/
  | reading (i slot : Nat)
  | unlocking (i slot : Nat)
  | counting (i slot : Nat)
  | advancing (i : Nat)
  /-- Behind the loop, before `free_tx` or `free_rx`. -/
  | freeing
  | exited
  deriving Repr, DecidableEq

namespace IoPc

/-- `tx_io` advances the index at the start of an iteration. -/
def enter (d : Dir) (h : SessionMem) (i : Nat) : Nat :=
  match d with
  | .egress => nextQueue h.qnum i
  | .ingress => i

/-- `rx_io` advances it at the end. -/
def leave (d : Dir) (h : SessionMem) (i : Nat) : Nat :=
  match d with
  | .egress => i
  | .ingress => nextQueue h.qnum i

/-- One step of the IO thread; `p` is what a pass of the read loop meets. -/
def step (ses : Session) (run : Bool) (h : SessionMem) (p : Poll) :
    IoPc → Option (SessionMem × IoPc)
  | .start => some (h, .top 0)
  | .top i => some (h, if run then .pushEnter (enter ses.dir h i) else .freeing)
  -- `LOCKFAIL` ends the iteration
  | .pushEnter i =>
    if (h.q i).lock then some (h, .top (leave ses.dir h i))
    else some (h.setQ i { h.q i with lock := true }, .pushScan i)
  | .pushScan i =>
    let q := h.q i
    if (q.R q.inIdx).lock then
      let q := if q.inIdx ≥ q.rsz then { q with inIdx := 0 } else q
      some (h.setQ i { q with inIdx := inc32 q.inIdx }, .pushScan i)
    else some (h.setQ i (q.lockSlot q.inIdx), .pushTest i)
  | .pushTest i =>
    let q := h.q i
    let q := if q.inIdx ≥ q.rsz then { q with inIdx := 0 } else q
    if q.sz ≥ dec32 q.rsz ∨ q.inIdx = dec32 q.outIdx then
      -- full: the slot is unlocked and the iteration ends
      let q := { q with full := true }
      let q := q.unlockSlot q.inIdx
      some (h.setQ i { q with lock := false }, .top (leave ses.dir h i))
    else some (h.setQ i { q with lock := false }, .pushReturn i)
  | .pushReturn i => some (h, .reading i (Lanes.pushReturn (h.q i)))
  | .reading i slot =>
    let (pool, r) := ioPass ses (h.pool i) ((h.q i).R slot) p
    let h := { h.setQ i ((h.q i).setSlot slot r) with pool := Function.update h.pool i pool }
    -- `rx_io` takes the outer headers off the length on its way out of the loop
    some (if readDone ses pool r then
      (h.setQ i ((h.q i).setSlot slot (trimSlot ses.dir r)), .unlocking i slot)
      else (h, .reading i slot))
  | .unlocking i slot => some (h.setQ i ((h.q i).unlockSlot slot), .counting i slot)
  | .counting i _ =>
    let q := h.q i
    some (h.setQ i { q with sz := if q.sz ≥ q.rsz then q.sz else inc32 q.sz }, .advancing i)
  | .advancing i =>
    let q := h.q i
    let q := { q with inIdx := inc32 q.inIdx }
    let q := if q.inIdx ≥ q.rsz then { q with inIdx := 0 } else q
    some (h.setQ i q, .top (leave ses.dir h i))
  | .freeing => some (h, .exited)
  | .exited => none

end IoPc

/-! ## Undisturbed calls

A thread whose steps the others do not interrupt does what the calls of `Ring.Basic` do.
-/

namespace SessionMem

variable (h : SessionMem) (i : Nat) (q q' : Q)

@[simp] theorem setQ_q : (h.setQ i q).q i = q := Function.update_self ..

@[simp] theorem setQ_setQ : (h.setQ i q).setQ i q' = h.setQ i q' := by
  simp only [setQ, Function.update_idem]

@[simp] theorem setQ_self : h.setQ i (h.q i) = h := by
  simp only [setQ, Function.update_eq_self]

end SessionMem

namespace WorkerPc

/-- The worker alone gets from `a` to `b`. -/
def Alone (run : Bool) : SessionMem × WorkerPc → SessionMem × WorkerPc → Prop :=
  Relation.ReflTransGen fun a b => WorkerPc.step run a.1 a.2 = some b

/-- Where the worker is when it has left the part of `pop` under the lock. -/
def afterLocked (i : Nat) : Left → WorkerPc
  | .lockfail => .lockfail i
  | .refused => .popReset i
  | .acquired _ => .popReturn i

/-- Where the worker goes with the result of `pop`. -/
def afterPop (i : Nat) : Ret → WorkerPc
  | .null => .adapting i
  | .lockfail => .lockfail i
  | .slot slot => .sending i slot

end WorkerPc

namespace IoPc

/-- The IO thread alone gets from `a` to `b`; `p` is what its reads meet. -/
def Alone (ses : Session) (run : Bool) (p : Poll) : SessionMem × IoPc → SessionMem × IoPc → Prop :=
  Relation.ReflTransGen fun a b => IoPc.step ses run a.1 p a.2 = some b

/-- Where the IO thread goes with the result of `push`. -/
def afterPush (d : Dir) (h : SessionMem) (i : Nat) : Ret → IoPc
  | .slot slot => .reading i slot
  | .null | .lockfail => .top (leave d h i)

end IoPc

section Alone

variable {ses : Session} {run : Bool} {p : Poll} {h : SessionMem} {i slot fuel : Nat} {q q' : Q}
  {left : Left} {ret : Ret}

theorem WorkerPc.alone_popScan (hscan : Lanes.popScan fuel q = .ok q') :
    Alone run (h.setQ i q, .popScan i) (h.setQ i q', .popUnlock i) := by
  -- a locked slot costs the scan a unit of fuel and the worker a step
  induction fuel generalizing q with
  | zero => cases hscan
  | succ fuel ih =>
    rw [Lanes.popScan] at hscan
    split at hscan
    · rename_i hsz
      split at hscan
      · split at hscan
        · rename_i hlock
          refine .head ?_ (ih hscan)
          simp [step, hsz, hlock]
        · rename_i hlock
          cases hscan
          refine .single ?_
          simp [step, hsz, hlock]
      · cases hscan
    · rename_i hsz
      cases hscan
      refine .single ?_
      simp [step, hsz]

theorem WorkerPc.alone_popLocked (hlocked : popLocked q = .ok (q', left)) :
    Alone run (h.setQ i q, .popEnter i) (h.setQ i q', afterLocked i left) := by
  unfold popLocked at hlocked
  split at hlocked
  · rename_i hlock
    cases hlocked
    refine .single ?_
    simp [step, hlock, afterLocked]
  · rename_i hlock
    have henter : Alone run (h.setQ i q, .popEnter i)
        (h.setQ i { q with lock := true }, .popTest i) := .single (by simp [step, hlock])
    refine henter.trans ?_
    simp only at hlocked
    split at hlocked
    · rename_i hempty
      cases hlocked
      refine .single ?_
      simp only [step, SessionMem.setQ_q, SessionMem.setQ_setQ, if_pos hempty, afterLocked]
    · rename_i hempty
      obtain ⟨q₁, hq₁⟩ : ∃ q₁, q₁ = if q.outIdx ≥ dec32 q.rsz then
          { q with lock := true, outIdx := 0 } else { q with lock := true } := ⟨_, rfl⟩
      rw [← hq₁] at hlocked
      -- the wrap of `out`, the scan and the release of the lock
      have htest : Alone run (h.setQ i { q with lock := true }, .popTest i)
          (h.setQ i q₁, .popScan i) := by
        refine .single ?_
        simp only [step, SessionMem.setQ_q, SessionMem.setQ_setQ, if_neg hempty, hq₁]
        split <;> rfl
      refine htest.trans ?_
      cases hscan : Lanes.popScan (q₁.rsz + 1) q₁ with
      | error f =>
        simp [hscan, bind, Except.bind] at hlocked
      | ok q₂ =>
        simp only [hscan, bind, Except.bind] at hlocked
        cases hlocked
        refine (alone_popScan hscan).trans (.single ?_)
        simp [step, afterLocked]

/-- The steps of a `pop` that nobody interrupts are `pop`. -/
theorem WorkerPc.alone_pop (hpop : pop (h.q i) = .ok (q', ret)) :
    Alone run (h, .popEnter i) (h.setQ i q', afterPop i ret) := by
  cases hlocked : popLocked (h.q i) with
  | error f => simp [pop, hlocked, bind, Except.bind] at hpop
  | ok locked =>
    obtain ⟨q₁, left⟩ := locked
    have hfirst : Alone run (h.setQ i (h.q i), .popEnter i) (h.setQ i q₁, afterLocked i left) :=
      alone_popLocked hlocked
    rw [SessionMem.setQ_self] at hfirst
    refine hfirst.trans ?_
    simp only [pop, hlocked, bind, Except.bind] at hpop
    -- what `pop` does after it released the lock
    cases left with
    | lockfail =>
      cases hpop
      exact .refl
    | refused =>
      cases hpop
      refine .single ?_
      simp [step, afterPop, afterLocked]
    | acquired took =>
      cases hreturn : Lanes.popReturn q₁ with
      | error f => simp [hreturn] at hpop
      | ok returned =>
        obtain ⟨q₂, got⟩ := returned
        simp only [hreturn] at hpop
        cases hpop
        unfold Lanes.popReturn at hreturn
        split at hreturn
        · cases hreturn
          refine .single ?_
          simp [step, afterPop, afterLocked]
        · cases hreturn

/-- The steps behind a send are the release. -/
theorem WorkerPc.alone_release :
    Alone run (h, .marking i slot) (h.setQ i (release (h.q i) slot), .top i) := by
  obtain ⟨q₁, hq₁⟩ : ∃ q₁, q₁ = (h.q i).setLen slot (-1) := ⟨_, rfl⟩
  obtain ⟨q₂, hq₂⟩ : ∃ q₂, q₂ = { q₁ with sz := if q₁.sz < 1 then 0 else q₁.sz - 1 } := ⟨_, rfl⟩
  have hmark : Alone run (h, .marking i slot) (h.setQ i q₁, .counting i slot) :=
    .single (by rw [hq₁]; rfl)
  have hcount : Alone run (h.setQ i q₁, .counting i slot) (h.setQ i q₂, .unlocking i slot) :=
    .single (by simp [step, hq₂])
  have hunlock : Alone run (h.setQ i q₂, .unlocking i slot)
      (h.setQ i (release (h.q i) slot), .top i) := .single (by simp [step, hq₂, hq₁, release])
  exact (hmark.trans hcount).trans hunlock

theorem IoPc.alone_pushScan (hscan : Lanes.pushScan fuel q = .ok q') :
    Alone ses run p (h.setQ i q, .pushScan i) (h.setQ i q', .pushTest i) := by
  induction fuel generalizing q with
  | zero => cases hscan
  | succ fuel ih =>
    rw [Lanes.pushScan] at hscan
    split at hscan
    · split at hscan
      · rename_i hlock
        refine .head ?_ (ih hscan)
        simp [step, hlock]
      · rename_i hlock
        cases hscan
        refine .single ?_
        simp [step, hlock]
    · cases hscan

@[simp] theorem IoPc.leave_setQ (d : Dir) (h : SessionMem) (i j : Nat) (q : Q) :
    leave d (h.setQ i q) j = leave d h j := rfl

/-- The steps of a `push` that nobody interrupts are `push`. -/
theorem IoPc.alone_push (hpush : push (h.q i) = .ok (q', ret)) :
    Alone ses run p (h, .pushEnter i) (h.setQ i q', afterPush ses.dir h i ret) := by
  cases hlocked : pushLocked (h.q i) with
  | error f => simp [push, hlocked, bind, Except.bind] at hpush
  | ok locked =>
    obtain ⟨q₁, left⟩ := locked
    simp only [push, hlocked, bind, Except.bind] at hpush
    unfold pushLocked at hlocked
    split at hlocked
    · rename_i hlock
      cases hlocked
      cases hpush
      refine .single ?_
      simp [step, hlock, afterPush]
    · rename_i hlock
      have henter : Alone ses run p (h, .pushEnter i)
          (h.setQ i { h.q i with lock := true }, .pushScan i) := .single (by simp [step, hlock])
      refine henter.trans ?_
      cases hscan : Lanes.pushScan ((h.q i).rsz + 1) { h.q i with lock := true } with
      | error f => simp [hscan, bind, Except.bind] at hlocked
      | ok q₂ =>
        refine (alone_pushScan hscan).trans ?_
        simp only [hscan, bind, Except.bind] at hlocked
        obtain ⟨q₃, hq₃⟩ : ∃ q₃, q₃ = if q₂.inIdx ≥ q₂.rsz then { q₂ with inIdx := 0 } else q₂ :=
          ⟨_, rfl⟩
        rw [← hq₃] at hlocked
        split at hlocked
        · -- the ring counts as full
          rename_i hfull
          cases hlocked
          cases hpush
          refine .single ?_
          simp only [step, SessionMem.setQ_q, SessionMem.setQ_setQ, ← hq₃, if_pos hfull, afterPush,
            leave_setQ]
        · rename_i hfull
          cases hlocked
          cases hpush
          -- a slot is taken: the test releases the lock, the return reads `in`
          have htest : Alone ses run p (h.setQ i q₂, .pushTest i)
              (h.setQ i { q₃ with lock := false }, .pushReturn i) := by
            refine .single ?_
            simp only [step, SessionMem.setQ_q, SessionMem.setQ_setQ, ← hq₃, if_neg hfull]
          refine htest.trans (.single ?_)
          simp [step, afterPush]

/-- The steps behind the read loop are the commit. -/
theorem IoPc.alone_commit :
    Alone ses run p (h, .unlocking i slot)
      (h.setQ i (commit (h.q i) slot), .top (leave ses.dir h i)) := by
  obtain ⟨q₁, hq₁⟩ : ∃ q₁, q₁ = (h.q i).unlockSlot slot := ⟨_, rfl⟩
  obtain ⟨q₂, hq₂⟩ : ∃ q₂, q₂ = { q₁ with sz := if q₁.sz ≥ q₁.rsz then q₁.sz else inc32 q₁.sz } :=
    ⟨_, rfl⟩
  have hunlock : Alone ses run p (h, .unlocking i slot) (h.setQ i q₁, .counting i slot) :=
    .single (by rw [hq₁]; rfl)
  have hcount : Alone ses run p (h.setQ i q₁, .counting i slot) (h.setQ i q₂, .advancing i) :=
    .single (by simp only [step, SessionMem.setQ_q, SessionMem.setQ_setQ, hq₂])
  have hadvance : Alone ses run p (h.setQ i q₂, .advancing i)
      (h.setQ i (commit (h.q i) slot), .top (leave ses.dir h i)) :=
    .single (by simp only [step, SessionMem.setQ_q, SessionMem.setQ_setQ, hq₂, hq₁, commit,
      leave_setQ])
  exact (hunlock.trans hcount).trans hadvance

end Alone

/-! ## All threads

`Move.sigterm` may come at any time, and any thread that is not at its end may take the next step.
-/

/-- The threads of a session with `n` workers. -/
structure Threads (n : Nat) where
  /-- `global.run == 1`. -/
  run : Bool
  h : SessionMem
  io : IoPc
  worker : Fin n → WorkerPc
  freed : Bool
  /-- A worker has touched the session after the free; no step reads it. -/
  stale : Bool

inductive Move (n : Nat) where
  | sigterm
  | io (p : Poll)
  | worker (k : Fin n)
  deriving DecidableEq

namespace Threads

variable {n : Nat}

def ioStep (ses : Session) (s : Threads n) (p : Poll) : Option (Threads n) :=
  (s.io.step ses s.run s.h p).map fun (h, pc) =>
    { s with h := h, io := pc, freed := s.freed || s.io == .freeing }

def workerStep (s : Threads n) (k : Fin n) : Option (Threads n) :=
  ((s.worker k).step s.run s.h).map fun (h, pc) =>
    { s with
      h := h
      worker := Function.update s.worker k pc
      stale := s.stale || s.freed && (s.worker k).touches }

end Threads

def move {n : Nat} (ses : Session) (s : Threads n) : Move n → Option (Threads n)
  | .sigterm => some { s with run := false }
  | .io p => s.ioStep ses p
  | .worker k => s.workerStep k

/-- The rings are set up, one for each worker, and all threads are about to start. -/
structure Threads.Start {n : Nat} (s : Threads n) : Prop where
  qnum : s.h.qnum = n
  rings : ∀ i < n, (s.h.q i).Start
  io : s.io = .start
  worker : ∀ k, s.worker k = .start
  freed : s.freed = false
  stale : s.stale = false

/-! ## When the free is safe

The condition is on the state in which the free happens. It is the weakest one: a worker that is
anywhere else at that time has a next step, and that step touches the session.
-/

/-- The IO thread frees the session only while every worker is at the test of `global.run` or has
left its loop. -/
def QuietFree {n : Nat} (s : Threads n) : Move n → Prop
  | .io _ => s.io = .freeing → ∀ k, (s.worker k).touches = false
  | .sigterm | .worker _ => True

instance {n : Nat} (s : Threads n) (m : Move n) : Decidable (QuietFree s m) :=
  match m with
  | .io _ => inferInstanceAs (Decidable (s.io = .freeing → _))
  | .sigterm | .worker _ => isTrue trivial

/-- The invariant of runs with a quiet free. -/
structure Untouched {n : Nat} (s : Threads n) : Prop where
  stale : s.stale = false
  stopped : s.io = .freeing → s.run = false
  parked : s.freed = true → s.run = false ∧ s.io = .exited ∧ ∀ k, (s.worker k).touches = false

section Moves

variable {n : Nat} {ses : Session} {s s' : Threads n} {m : Move n} {h h' : SessionMem}
  {run : Bool} {p : Poll}

/-- The IO thread comes to the free only by a test that finds `global.run` at 0. -/
theorem IoPc.step_freeing {pc : IoPc} (hstep : pc.step ses run h p = some (h', .freeing)) :
    run = false := by
  cases pc <;> simp only [IoPc.step] at hstep
  case top i =>
    cases run with
    | false => rfl
    | true => simp at hstep
  case pushTest i => split at hstep <;> split at hstep <;> simp at hstep
  case pushEnter i => split at hstep <;> simp at hstep
  case pushScan i => split at hstep <;> simp at hstep
  case reading i slot => split at hstep <;> simp at hstep
  all_goals simp at hstep

/-- A worker that is at the test of `global.run`, or has left, does not come back. -/
theorem WorkerPc.step_stopped {pc pc' : WorkerPc} (hquiet : pc.touches = false)
    (hstep : pc.step false h = some (h', pc')) : pc' = .exited := by
  cases pc with
  | top i =>
    cases hstep
    rfl
  | exited => cases hstep
  | _ => cases hquiet

/-- A worker that touches the session is never stuck. -/
theorem WorkerPc.step_of_touches {pc : WorkerPc} (htouch : pc.touches = true) :
    ∃ h' pc', pc.step run h = some (h', pc') := by
  cases pc <;> simp only [WorkerPc.step]
  case exited => cases htouch
  all_goals
    repeat' split
  all_goals exact ⟨_, _, rfl⟩

theorem Threads.ioStep_some (hstep : s.ioStep ses p = some s') :
    ∃ h pc, s.io.step ses s.run s.h p = some (h, pc) ∧
      s' = { s with h := h, io := pc, freed := s.freed || s.io == .freeing } := by
  obtain ⟨⟨h, pc⟩, hpc, rfl⟩ := Option.map_eq_some_iff.mp hstep
  exact ⟨h, pc, hpc, rfl⟩

theorem Threads.workerStep_some {k : Fin n} (hstep : s.workerStep k = some s') :
    ∃ h pc, (s.worker k).step s.run s.h = some (h, pc) ∧
      s' = { s with
        h := h
        worker := Function.update s.worker k pc
        stale := s.stale || s.freed && (s.worker k).touches } := by
  obtain ⟨⟨h, pc⟩, hpc, rfl⟩ := Option.map_eq_some_iff.mp hstep
  exact ⟨h, pc, hpc, rfl⟩

theorem Threads.Start.untouched (hs : s.Start) : Untouched s where
  stale := hs.stale
  stopped hio := by
    rw [hs.io] at hio
    cases hio
  parked hfreed := by
    rw [hs.freed] at hfreed
    cases hfreed

theorem Untouched.ioStep (hu : Untouched s) (hquiet : QuietFree s (.io p))
    (hstep : s.ioStep ses p = some s') : Untouched s' := by
  obtain ⟨h, pc, hpc, rfl⟩ := Threads.ioStep_some hstep
  refine ⟨hu.stale, ?_, ?_⟩
  · rintro rfl
    exact IoPc.step_freeing hpc
  · intro hfreed
    show s.run = false ∧ pc = .exited ∧ ∀ k, (s.worker k).touches = false
    by_cases hio : s.io = .freeing
    · -- the free itself: `QuietFree` speaks about this step
      rw [hio] at hpc
      cases hpc
      exact ⟨hu.stopped hio, rfl, hquiet hio⟩
    · -- the session was freed before, and the IO thread has left
      have hbefore : s.freed = true := by simpa [hio] using hfreed
      obtain ⟨-, hexited, -⟩ := hu.parked hbefore
      rw [hexited] at hpc
      cases hpc

theorem Untouched.workerStep {k : Fin n} (hu : Untouched s)
    (hstep : s.workerStep k = some s') : Untouched s' := by
  obtain ⟨h, pc, hpc, rfl⟩ := Threads.workerStep_some hstep
  refine ⟨?_, hu.stopped, ?_⟩
  · show (s.stale || s.freed && (s.worker k).touches) = false
    cases hfreed : s.freed with
    | false => simp [hu.stale]
    | true => simp [hu.stale, (hu.parked hfreed).2.2 k]
  · intro hfreed
    obtain ⟨hrun, hexited, hquiet⟩ := hu.parked hfreed
    refine ⟨hrun, hexited, fun j => ?_⟩
    show (Function.update s.worker k pc j).touches = false
    by_cases hj : j = k
    · subst hj
      rw [hrun] at hpc
      rw [Function.update_self, WorkerPc.step_stopped (hquiet j) hpc]
      rfl
    · rw [Function.update_of_ne hj]
      exact hquiet j

theorem Untouched.move (hu : Untouched s) (hquiet : QuietFree s m)
    (hstep : move ses s m = some s') : Untouched s' := by
  cases m with
  | sigterm =>
    cases hstep
    exact ⟨hu.stale, fun _ => rfl, fun hfreed => ⟨rfl, (hu.parked hfreed).2⟩⟩
  | io p => exact hu.ioStep hquiet hstep
  | worker k => exact hu.workerStep hstep

end Moves

/-- **Shutdown.** In a run in which the session is freed only while the workers are outside their
loop bodies, no worker touches it afterwards. -/
theorem not_stale_of_quietFree {n : Nat} {ses : Session} {s₀ s : Threads n} {ms : List (Move n)}
    (hstart : s₀.Start) (hquiet : Run.Within (move ses) QuietFree s₀ ms)
    (hrun : Run.exec (move ses) s₀ ms = some s) : s.stale = false :=
  (Run.invariant_of_within Untouched (fun _ _ _ hu ha hstep => hu.move ha hstep) hquiet hrun
    hstart.untouched).stale

/-- Any other free can be followed by a step of a worker into the freed session. -/
theorem stale_of_not_quietFree {n : Nat} {ses : Session} {s : Threads n} {p : Poll}
    (hloud : ¬ QuietFree s (.io p)) :
    ∃ k s', Run.exec (move ses) s [.io p, .worker k] = some s' ∧ s'.stale = true := by
  simp only [QuietFree, not_forall] at hloud
  obtain ⟨hio, k, hk⟩ := hloud
  have htouch : (s.worker k).touches = true := by simpa using hk
  obtain ⟨h', pc', hstep⟩ : ∃ h' pc', (s.worker k).step s.run s.h = some (h', pc') :=
    WorkerPc.step_of_touches htouch
  -- the free first, then a step of the worker that was not at its test
  let freed : Threads n := { s with io := .exited, freed := true }
  have hfree : move ses s (.io p) = some freed := by
    show s.ioStep ses p = _
    unfold Threads.ioStep
    rw [hio]
    simp [IoPc.step, freed]
  refine ⟨k, { freed with h := h', worker := Function.update s.worker k pc', stale := true },
    Run.exec_cons.mpr ⟨freed, hfree, Run.exec_cons.mpr ⟨_, ?_, rfl⟩⟩, rfl⟩
  show freed.workerStep k = _
  unfold Threads.workerStep
  rw [show (freed.worker k).step freed.run freed.h = some (h', pc') from hstep]
  have htouch' : (freed.worker k).touches = true := htouch
  simp [htouch', freed]

/-- A session for one worker and a ring of three slots, before its threads start. -/
def oneWorker : Threads 1 where
  run := true
  h := ⟨0, 1, fun _ => emptyRing 3 60, fun _ _ => 0⟩
  io := .start
  worker _ := .start
  freed := false
  stale := false

theorem oneWorker_start : oneWorker.Start where
  qnum := rfl
  rings _ _ := emptyRing_start (by decide) (by decide)
  io := rfl
  worker _ := rfl
  freed := rfl
  stale := rfl

def egressSession : Session := ⟨.egress, 60, 0, smallSession.mtu_ge, smallSession.mtu_lt⟩

/-- The worker is at the top of its loop when the session goes away. -/
def parkedRun : List (Move 1) :=
  [.worker 0, .worker 0, .io .quiet, .sigterm, .io .quiet, .io .quiet, .worker 0]

theorem not_stale_parked :
    ∃ s, Run.exec (move egressSession) oneWorker parkedRun = some s ∧ s.stale = false := by
  obtain ⟨s, hs⟩ := Option.isSome_iff_exists.mp
    (show (Run.exec (move egressSession) oneWorker parkedRun).isSome by decide)
  exact ⟨s, hs, not_stale_of_quietFree oneWorker_start
    (by decide : Run.Within (move egressSession) QuietFree oneWorker parkedRun) hs⟩

/-- A worker that waits for its queue to fill reads the count of the freed queue. -/
theorem not_stale_fails :
    ¬ ∀ (n : Nat) (ses : Session) (s₀ s : Threads n) (ms : List (Move n)), s₀.Start →
      Run.exec (move ses) s₀ ms = some s → s.stale = false := by
  intro hall
  have hrun : (Run.exec (move egressSession) oneWorker
      [.worker 0, .worker 0, .worker 0, .worker 0, .worker 0, .worker 0, .worker 0,
        .io .quiet, .sigterm, .io .quiet, .io .quiet, .worker 0]).map Threads.stale =
      some true := by
    decide
  obtain ⟨s, hs, hstale⟩ := Option.map_eq_some_iff.mp hrun
  have := hall 1 egressSession oneWorker s _ oneWorker_start hs
  rw [hstale] at this
  cases this

end Lanes
