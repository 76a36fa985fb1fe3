import Lanes.Lib.Run
import Lanes.Ring.Ownership

/-!
# The ring one access at a time

Here every load, store and compare-and-swap of `push`, of `pop`, of the commit and of the release
is a step of its own, and between any two of them the other thread may take its steps. So an update
such as `sz = sz - 1` can lose the update of the other thread, and a decision can rest on a value
that has changed since it was loaded. Accesses happen in one order that both threads see.

The parts of the module follow the threads: where the producer and the worker stand (`PushAt`,
`PopAt`) with what they hold in registers, the shared state, and one step for each access. What is
proved about the runs is in the modules after this one: bounds and exclusion (`Access/Run.lean`) and
the length of a call (`Access/WaitFree.lean`).

Loads whose value no later step depends on are no steps of their own:

* `q->rsz` and the pointers of a slot, which are never written after the set-up;
* the arguments of the `debug` calls (`sz`, `in`, `out`), which go into a message at most;
* the tests of `sz` with which the worker waits between two calls of `pop`: it may call `pop` at any
  time, on an empty ring too.
-/

namespace Lanes

/-- `x - n` on `uint32_t`. -/
def sub32 (x n : Nat) : Nat := (x + 2 ^ 32 - n) % 2 ^ 32

/-! ## Where a thread is

One constructor for each access, named after what it touches. An argument is a value loaded before
and still in use, so a constructor without one starts from memory again. -/

/-- The access that the producer makes next, with what it holds in registers. `took` is the slot
that the scan locked; the source does not keep it. -/
inductive PushAt where
  | idle
  /-- The scan loads `in` and tries the lock of the slot there. -/
  | scanIn
  | scanLock (i : Nat)
  | scanWrap
  | scanZero
  | scanNext
  | scanStore (i : Nat)
  | wrapIn (took : Nat)
  | wrapZero (took : Nat)
  | fullSz (took : Nat)
  | fullIn (took : Nat)
  | fullOut (took i : Nat)
  | setFull (took : Nat)
  | giveIn (took : Nat)
  | giveBack (took i : Nat)
  | refused
  | prefetch (took : Nat)
  | leave (took : Nat)
  /-- Past the release of `q->lock`: `return &q->R[q->in]`. -/
  | retIn (took : Nat)
  | holding (took got : Nat)
  /-- The commit after the unlock of the slot: `sz` is compared, loaded again and stored. -/
  | szTest
  | szLoad (grow : Bool)
  | szStore (n : Nat)
  | inAdd
  | inTest
  | inLoad
  | inSub (n : Nat)
  deriving Repr, DecidableEq

/-- The access that the worker makes next. -/
inductive PopAt where
  | idle
  | testSz
  | testIn
  | testOut (i : Nat)
  | zeroSz
  | emptyLeave
  | testFull
  | resetIn
  | resetOut
  | resetSz
  | resetLock
  | resetFull
  | resetLen (i : Nat)
  | wrapOut
  | wrapZero
  | scanSz
  | scanOut
  | scanLock (i : Nat)
  | stepTest
  | stepOut
  | stepStore (i : Nat)
  /-- The scan is over; `none` when it ended on an empty ring without a lock. -/
  | leave (took : Option Nat)
  | prefetch (took : Option Nat)
  | retOut (took : Option Nat)
  | retStore (took : Option Nat) (i : Nat)
  | holding (took : Option Nat) (got : Nat)
  /-- The release, past its store of `len`. -/
  | relTest (got : Nat)
  | relLoad (got : Nat)
  | relStore (got n : Nat)
  | relUnlock (got : Nat)
  deriving Repr, DecidableEq

/-! ## Steps

`next` makes the access and says where the thread is then. The scans are loops of the source; here
they are places that are met again. -/

/-- The next access of the producer. -/
def PushAt.next (q : Q) : PushAt → Except Fault (Q × PushAt)
  | .idle => if q.lock then .ok (q, .idle) else .ok ({ q with lock := true }, .scanIn)
  | .scanIn => .ok (q, .scanLock q.inIdx)
  | .scanLock i =>
    if i < q.rsz then
      if (q.R i).lock then .ok (q, .scanWrap) else .ok (q.lockSlot i, .wrapIn i)
    else .error (.outOfBounds i)
  | .scanWrap => .ok (q, if q.inIdx ≥ q.rsz then .scanZero else .scanNext)
  | .scanZero => .ok ({ q with inIdx := 0 }, .scanNext)
  | .scanNext => .ok (q, .scanStore q.inIdx)
  | .scanStore i => .ok ({ q with inIdx := inc32 i }, .scanIn)
  | .wrapIn took => .ok (q, if q.inIdx ≥ q.rsz then .wrapZero took else .fullSz took)
  | .wrapZero took => .ok ({ q with inIdx := 0 }, .fullSz took)
  | .fullSz took => .ok (q, if q.sz ≥ dec32 q.rsz then .setFull took else .fullIn took)
  | .fullIn took => .ok (q, .fullOut took q.inIdx)
  | .fullOut took i => .ok (q, if i = dec32 q.outIdx then .setFull took else .prefetch took)
  | .setFull took => .ok ({ q with full := true }, .giveIn took)
  | .giveIn took => .ok (q, .giveBack took q.inIdx)
  | .giveBack _ i => if i < q.rsz then .ok (q.unlockSlot i, .refused) else .error (.outOfBounds i)
  | .refused => .ok ({ q with lock := false }, .idle)
  | .prefetch took =>
    if q.inIdx < q.rsz then .ok (q, .leave took) else .error (.outOfBounds q.inIdx)
  | .leave took => .ok ({ q with lock := false }, .retIn took)
  | .retIn took => .ok (q, .holding took q.inIdx)
  | .holding _ got =>
    if got < q.rsz then .ok (q.unlockSlot got, .szTest) else .error (.outOfBounds got)
  | .szTest => .ok (q, .szLoad (decide (q.sz < q.rsz)))
  | .szLoad grow => .ok (q, .szStore (if grow then inc32 q.sz else q.sz))
  | .szStore n => .ok ({ q with sz := n }, .inAdd)
  | .inAdd => .ok ({ q with inIdx := inc32 q.inIdx }, .inTest)
  | .inTest => .ok (q, if q.inIdx ≥ q.rsz then .inLoad else .idle)
  | .inLoad => .ok (q, .inSub q.inIdx)
  | .inSub n => .ok ({ q with inIdx := sub32 q.inIdx n }, .idle)

/-- The next access of the worker. -/
def PopAt.next (q : Q) : PopAt → Except Fault (Q × PopAt)
  | .idle => if q.lock then .ok (q, .idle) else .ok ({ q with lock := true }, .testSz)
  | .testSz => .ok (q, if q.sz < 1 then .zeroSz else .testIn)
  | .testIn => .ok (q, .testOut q.inIdx)
  | .testOut i => .ok (q, if i = q.outIdx then .zeroSz else .wrapOut)
  | .zeroSz => .ok ({ q with sz := 0 }, .emptyLeave)
  | .emptyLeave => .ok ({ q with lock := false }, .testFull)
  | .testFull => .ok (q, if q.full then .resetIn else .idle)
  | .resetIn => .ok ({ q with inIdx := 0 }, .resetOut)
  | .resetOut => .ok ({ q with outIdx := 0 }, .resetSz)
  | .resetSz => .ok ({ q with sz := 0 }, .resetLock)
  | .resetLock => .ok ({ q with lock := false }, .resetFull)
  | .resetFull => .ok ({ q with full := false }, if 0 < q.rsz then .resetLen 0 else .idle)
  | .resetLen i =>
    if i < q.rsz then .ok (q.setLen i 0, if i + 1 < q.rsz then .resetLen (i + 1) else .idle)
    else .error (.outOfBounds i)
  | .wrapOut => .ok (q, if q.outIdx ≥ dec32 q.rsz then .wrapZero else .scanSz)
  | .wrapZero => .ok ({ q with outIdx := 0 }, .scanSz)
  | .scanSz => .ok (q, if q.sz > 0 then .scanOut else .leave none)
  | .scanOut => .ok (q, .scanLock q.outIdx)
  | .scanLock i =>
    if i < q.rsz then
      if (q.R i).lock then .ok (q, .stepTest) else .ok (q.lockSlot i, .leave (some i))
    else .error (.outOfBounds i)
  | .stepTest => .ok (q, if q.outIdx ≥ dec32 q.rsz then .stepStore 0 else .stepOut)
  | .stepOut => .ok (q, .stepStore (inc32 q.outIdx))
  | .stepStore i => .ok ({ q with outIdx := i }, .scanSz)
  | .leave took => .ok ({ q with lock := false }, .prefetch took)
  | .prefetch took =>
    if inc32 q.outIdx < q.rsz then .ok (q, .retOut took)
    else .error (.outOfBounds (inc32 q.outIdx))
  | .retOut took => .ok (q, .retStore took q.outIdx)
  | .retStore took i => .ok ({ q with outIdx := inc32 i }, .holding took i)
  | .holding _ got =>
    if got < q.rsz then .ok (q.setLen got (-1), .relTest got) else .error (.outOfBounds got)
  | .relTest got => .ok (q, if q.sz < 1 then .relStore got 0 else .relLoad got)
  | .relLoad got => .ok (q, .relStore got (dec32 q.sz))
  | .relStore got n => .ok ({ q with sz := n }, .relUnlock got)
  | .relUnlock got =>
    if got < q.rsz then .ok (q.unlockSlot got, .idle) else .error (.outOfBounds got)

structure Shared where
  q : Q
  prod : PushAt
  work : PopAt
  fault : Option Fault

inductive Access where
  | producer
  | worker
  /-- The producer stores what `read` returned in the length of its slot. -/
  | stored (n : Int)
  deriving Repr, DecidableEq

def Shared.producer (s : Shared) : Shared :=
  match s.prod.next s.q with
  | .error f => { s with fault := some f }
  | .ok (q, prod) => { s with q := q, prod := prod }

def Shared.worker (s : Shared) : Shared :=
  match s.work.next s.q with
  | .error f => { s with fault := some f }
  | .ok (q, work) => { s with q := q, work := work }

def accessStep (s : Shared) (a : Access) : Option Shared :=
  if s.fault.isSome then none
  else
    match a, s.prod with
    | .producer, _ => some s.producer
    | .worker, _ => some s.worker
    | .stored n, .holding _ got =>
      if got < s.q.rsz then some { s with q := s.q.setLen got n }
      else some { s with fault := some (.outOfBounds got) }
    | .stored _, _ => none

/-- Both threads are outside their calls and the ring is empty and unlocked. -/
structure Shared.Start (s : Shared) : Prop where
  ring : s.q.Start
  prod : s.prod = .idle
  work : s.work = .idle
  fault : s.fault = none

/-! ## What a thread holds

Read off the place alone: between the compare-and-swap on a slot and its unlock the thread owns the
slot, between the one on `q->lock` and its release it is inside. -/

/-- The slot whose lock the producer holds. -/
def PushAt.owns : PushAt → Option Nat
  | .wrapIn took | .wrapZero took | .fullSz took | .fullIn took | .fullOut took _ | .setFull took
  | .giveIn took | .giveBack took _ | .prefetch took | .leave took | .retIn took => some took
  | .holding _ got => some got
  | _ => none

/-- The producer holds `q->lock`. -/
def PushAt.inside : PushAt → Bool
  | .idle | .retIn _ | .holding _ _ | .szTest | .szLoad _ | .szStore _ | .inAdd | .inTest | .inLoad
  | .inSub _ => false
  | _ => true

/-- The producer is neither inside `push` nor inside its commit. -/
def PushAt.outside : PushAt → Bool
  | .idle | .holding _ _ => true
  | _ => false

def PopAt.owns : PopAt → Option Nat
  | .leave took | .prefetch took | .retOut took | .retStore took _ => took
  | .holding _ got | .relTest got | .relLoad got | .relStore got _ | .relUnlock got => some got
  | _ => none

def PopAt.inside : PopAt → Bool
  | .testSz | .testIn | .testOut _ | .zeroSz | .emptyLeave | .wrapOut | .wrapZero | .scanSz
  | .scanOut | .scanLock _ | .stepTest | .stepOut | .stepStore _ | .leave _ => true
  | _ => false

/-- The worker is inside `reset_ring`, past its first store. -/
def PopAt.resetting : PopAt → Bool
  | .resetOut | .resetSz | .resetLock | .resetFull | .resetLen _ => true
  | _ => false

/-- `reset_ring` starts while the producer is outside `push` and its commit, and the producer enters
neither until it is over. -/
def ResetAlone (s : Shared) : Access → Prop
  | .producer => s.work.resetting = false
  | .worker => s.work = .resetIn → s.prod.outside = true
  | .stored _ => True

instance : ∀ (s : Shared) (a : Access), Decidable (ResetAlone s a)
  | _, .producer => inferInstanceAs (Decidable (_ = _))
  | _, .worker => inferInstanceAs (Decidable (_ → _))
  | _, .stored _ => inferInstanceAs (Decidable True)

end Lanes
