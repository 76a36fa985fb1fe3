import Mathlib.Logic.Function.Basic
import Mathlib.Tactic.Ring
import Mathlib.Tactic.SplitIfs

/-!
# The ring buffer

`ring.h` and `ring.c`: the queue structure, the slot locks of `util.c`, and the two calls `push`
and `pop` together with the commit and release code that their callers run afterwards.

`push` and `pop` are cut where the source releases `q->lock`: `pushLocked` and `popLocked` are the
parts under the lock, `pushReturn`, `popReset` and `popReturn` are what the source does after it.
The calls themselves are their sequential composition.

An access to `q->R` at an index that is not below `q->rsz` is outside the array that
`init_ring_buffer` allocates; it ends the call with a `Fault`. The scan of a call takes fuel, one
unit more than the ring has slots: what it cannot find in a full turn it never finds by itself.
-/

namespace Lanes

/-! ## Machine integers -/

/-- `x + 1` on `uint32_t`: `2 ^ 32 - 1` wraps to zero. -/
def inc32 (x : Nat) : Nat := if x + 1 = 2 ^ 32 then 0 else x + 1

/-- `x - 1` on `uint32_t`: zero wraps to `2 ^ 32 - 1`. -/
def dec32 (x : Nat) : Nat := if x = 0 then 2 ^ 32 - 1 else x - 1

theorem inc32_of_lt {x n : Nat} (h : x < n) (hn : n < 2 ^ 32) : inc32 x = x + 1 :=
  if_neg (by omega)

theorem dec32_of_pos {x : Nat} (h : 0 < x) : dec32 x = x - 1 := if_neg (by omega)

/-! ## Data -/

/-- `struct ring_block`. The pointers into the data pool are byte offsets from its start. -/
structure RNG where
  header : UInt32
  footer : Nat
  len : Int
  index : Nat
  lock : Bool
  ethernetFrame : Nat
  ipheader : Nat
  data : Nat

/-- `struct queue`; `in` and `out` are `inIdx` and `outIdx`. -/
structure Q where
  id : Nat
  bsz : Nat
  rsz : Nat
  inIdx : Nat
  outIdx : Nat
  sz : Nat
  lock : Bool
  full : Bool
  R : Nat → RNG

/-- What goes wrong inside a call: an access outside `q->R`, or a scan that never ends. -/
inductive Fault where
  | outOfBounds (i : Nat)
  | spin
  deriving Repr, DecidableEq

/-- The pointer a call returns. -/
inductive Ret where
  | null
  | lockfail
  | slot (i : Nat)
  deriving Repr, DecidableEq

/-- How a call leaves the part it runs under `q->lock`. `took` is the slot whose lock the scan
took from 0 to 1. -/
inductive Left where
  | lockfail
  | refused
  | acquired (took : Nat)
  deriving Repr, DecidableEq

/-! ## Slot locks

The test that comes with `atomic_lock` is in the scans; a scan that finds a slot locked goes on.
-/

namespace Q

/-- `atomic_lock (&q->R[i].lock)` when the slot is free. -/
def lockSlot (q : Q) (i : Nat) : Q :=
  { q with R := Function.update q.R i { q.R i with lock := true } }

/-- `atomic_unlock (&q->R[i].lock)`. -/
def unlockSlot (q : Q) (i : Nat) : Q :=
  { q with R := Function.update q.R i { q.R i with lock := false } }

/-- `q->R[i].len = n`. -/
def setLen (q : Q) (i : Nat) (n : Int) : Q :=
  { q with R := Function.update q.R i { q.R i with len := n } }

end Q

/-! ## `reset_ring` -/

def resetRing (q : Q) : Q :=
  { q with
    inIdx := 0
    outIdx := 0
    sz := 0
    lock := false
    full := false
    R := fun i => if i < q.rsz then { q.R i with len := 0 } else q.R i }

/-! ## `push` -/

/-- The scan of `push`: `while (atomic_lock (&q->R[q->in].lock))`. One unit of `fuel` is one
evaluation of the loop condition. -/
def pushScan : Nat → Q → Except Fault Q
  | 0, _ => .error .spin
  | fuel + 1, q =>
    if q.inIdx < q.rsz then
      if (q.R q.inIdx).lock then
        -- the wrap comes before the step, so the step can leave the ring
        let q := if q.inIdx ≥ q.rsz then { q with inIdx := 0 } else q
        pushScan fuel { q with inIdx := inc32 q.inIdx }
      else .ok (q.lockSlot q.inIdx)
    else .error (.outOfBounds q.inIdx)

/-- `push` up to its release of `q->lock`. -/
def pushLocked (q : Q) : Except Fault (Q × Left) :=
  if q.lock then .ok (q, .lockfail)
  else do
    let q ← pushScan (q.rsz + 1) { q with lock := true }
    let took := q.inIdx
    let q := if q.inIdx ≥ q.rsz then { q with inIdx := 0 } else q
    if q.sz ≥ dec32 q.rsz ∨ q.inIdx = dec32 q.outIdx then
      -- full: the lock that the scan took is given back
      let q := { q with full := true }
      let q := q.unlockSlot q.inIdx
      .ok ({ q with lock := false }, .refused)
    else .ok ({ q with lock := false }, .acquired took)

/-- `return &q->R[q->in]`: the index is read again, after `q->lock` was released. -/
def pushReturn (q : Q) : Nat := q.inIdx

def push (q : Q) : Except Fault (Q × Ret) := do
  let (q, left) ← pushLocked q
  match left with
  | .lockfail => .ok (q, .lockfail)
  | .refused => .ok (q, .null)
  | .acquired _ => .ok (q, .slot (pushReturn q))

/-! ## `pop` -/

/-- The scan of `pop`: `while (q->sz > 0 && atomic_lock (&q->R[q->out].lock))`. -/
def popScan : Nat → Q → Except Fault Q
  | 0, _ => .error .spin
  | fuel + 1, q =>
    if q.sz > 0 then
      if q.outIdx < q.rsz then
        if (q.R q.outIdx).lock then
          popScan fuel { q with outIdx := if q.outIdx ≥ dec32 q.rsz then 0 else inc32 q.outIdx }
        else .ok (q.lockSlot q.outIdx)
      else .error (.outOfBounds q.outIdx)
    else .ok q

/-- `pop` up to its release of `q->lock`. -/
def popLocked (q : Q) : Except Fault (Q × Left) :=
  if q.lock then .ok (q, .lockfail)
  else
    let q := { q with lock := true }
    if q.sz < 1 ∨ q.inIdx = q.outIdx then .ok ({ q with sz := 0, lock := false }, .refused)
    else do
      -- the wrap of `out`: the last slot of the ring is passed over
      let q := if q.outIdx ≥ dec32 q.rsz then { q with outIdx := 0 } else q
      let q ← popScan (q.rsz + 1) q
      -- `q->sz` is not 0 here, so the scan ended because it took the lock
      .ok ({ q with lock := false }, .acquired q.outIdx)

/-- `if (q->full) reset_ring (q)`, after `q->lock` was released. -/
def popReset (q : Q) : Q := if q.full then resetRing q else q

/-- `return &q->R[q->out++]`. The prefetch before it reads the slot after `q->out`. -/
def popReturn (q : Q) : Except Fault (Q × Nat) :=
  if inc32 q.outIdx < q.rsz then .ok ({ q with outIdx := inc32 q.outIdx }, q.outIdx)
  else .error (.outOfBounds (inc32 q.outIdx))

def pop (q : Q) : Except Fault (Q × Ret) := do
  let (q, left) ← popLocked q
  match left with
  | .lockfail => .ok (q, .lockfail)
  | .refused => .ok (popReset q, .null)
  | .acquired _ =>
    let (q, i) ← popReturn q
    .ok (q, .slot i)

/-! ## What the callers do with the slot

Neither has `q->lock`. The count is updated by both of them, in an order that nothing fixes.
-/

/-- The commit of `tx_io` and `rx_io`: unlock the slot, count it, advance `q->in`. -/
def commit (q : Q) (i : Nat) : Q :=
  let q := q.unlockSlot i
  let q := { q with sz := if q.sz ≥ q.rsz then q.sz else inc32 q.sz }
  let q := { q with inIdx := inc32 q.inIdx }
  if q.inIdx ≥ q.rsz then { q with inIdx := 0 } else q

/-- The release of `tx` and `rx`. -/
def release (q : Q) (i : Nat) : Q :=
  let q := q.setLen i (-1)
  let q := { q with sz := if q.sz < 1 then 0 else q.sz - 1 }
  q.unlockSlot i

end Lanes
