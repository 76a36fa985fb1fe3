import Lanes.Lib.Run
import Lanes.Packet.Transfer
import Lanes.Ring.Basic

/-!
# One producer and one worker on a ring

The producer (`tx_io` or `rx_io`) repeats push, read into the slot until a read will do, commit;
the worker (`tx` or `rx`) repeats pop, use the slot, release. Each call, read, use, commit and
release is one step, and an interleaving is a list of steps.

The state carries four histories that no step reads: the successful reads, the packets committed,
the packets that `pop` handed over and the packets sent.

This is the coarsest of the models of a ring, and the one with the packets in it. `Ring.Interleave`
cuts the calls at the queue lock and `Access.Model` at their single accesses.
-/

namespace Lanes

/-- Which pair of threads serves the ring. -/
inductive Dir where
  | egress
  | ingress
  deriving Repr, DecidableEq

/-- What a session fixes for its ring. The MTU is an `int` and leaves room for the outer headers;
`peerIp` is what `rx_io` compares the source address with. -/
structure Session where
  dir : Dir
  mtu : Nat
  peerIp : UInt32
  mtu_ge : 34 ≤ mtu
  mtu_lt : mtu < 2 ^ 31

/-! ## Histories

What the results compare: bytes that went in with bytes that came out, each with the slot it was in.
-/

/-- A successful read: the slot it went to and the bytes it stored. -/
structure ReadEvent where
  slot : Nat
  bytes : List UInt8
  deriving Repr, DecidableEq

/-- The part of a read that is the tunnelled packet. -/
def ReadEvent.payload (d : Dir) (r : ReadEvent) : List UInt8 :=
  match d with
  | .egress => r.bytes
  | .ingress => r.bytes.drop ethIp4

/-- A packet handed to `sendto` or `write`. `before` is the number of successful reads made before
the pop that gave the worker the slot. -/
structure SendEvent where
  slot : Nat
  bytes : List UInt8
  before : Nat
  deriving Repr, DecidableEq

/-- The part of a sent packet that follows the outer headers. -/
def SendEvent.payload (d : Dir) (e : SendEvent) : List UInt8 :=
  match d with
  | .egress => e.bytes.drop (ethHdrLen + ip4HdrLen)
  | .ingress => e.bytes

/-- The contents of a slot, as its next reader finds them. -/
structure Packet where
  slot : Nat
  len : Int
  bytes : List UInt8
  deriving Repr, DecidableEq

def packetAt (pool : Mem) (q : Q) (i : Nat) : Packet where
  slot := i
  len := (q.R i).len
  bytes := pool.read (q.R i).data (q.R i).len.toNat

/-! ## State

The threads hold a slot or none. A fault stays, and nothing follows it.
-/

inductive Prod where
  | idle
  /-- Between a successful push and its commit; `filled` once a read ended the read loop. -/
  | holding (i : Nat) (filled : Bool)
  deriving Repr, DecidableEq

inductive Work where
  | idle
  /-- Between a successful pop and its release. -/
  | holding (i before : Nat) (used : Bool)
  deriving Repr, DecidableEq

structure Sys where
  q : Q
  pool : Mem
  prod : Prod
  work : Work
  fault : Option Fault
  reads : List ReadEvent
  committed : List Packet
  handed : List Packet
  sent : List SendEvent

/-- The slot the producer holds. -/
def Prod.slot? : Prod → Option Nat
  | .idle => none
  | .holding i _ => some i

/-- The slot the worker holds. -/
def Work.slot? : Work → Option Nat
  | .idle => none
  | .holding i _ _ => some i

/-! ## Steps

The functions of `Ring.Basic` and `Packet.Transfer`, each at the place of its thread in the loop.
-/

inductive Action where
  | push
  /-- The producer's read: the frame that was waiting, or `none` when the read fails. -/
  | read (got : Option (List UInt8))
  | commit
  | pop
  | use
  | release
  deriving Repr, DecidableEq

/-- The read call of the direction. -/
def readSlot (ses : Session) : Mem → RNG → Option (List UInt8) → Mem × RNG :=
  match ses.dir with
  | .egress => txIoRead ses.mtu
  | .ingress => rxIoRead ses.mtu

/-- The bytes that the read stores when `frame` is waiting. -/
def readBytes (ses : Session) (frame : List UInt8) : List UInt8 :=
  match ses.dir with
  | .egress => limitedRead (txReadCount ses.mtu) frame
  | .ingress => limitedRead ses.mtu frame

/-- The read ends the read loop: it did not fail in `tx_io`, its source is the peer in `rx_io`. -/
def readDone (ses : Session) (pool : Mem) (r : RNG) : Bool :=
  match ses.dir with
  | .egress => r.len != -1
  | .ingress => rxIoAccepts pool r ses.peerIp

/-- `rx_io` takes the outer headers off the length before it commits. -/
def trimSlot (d : Dir) (r : RNG) : RNG :=
  match d with
  | .egress => r
  | .ingress => rxIoTrim r

/-- The send call of the direction. -/
def sendSlot (d : Dir) : Mem → RNG → Option (List UInt8) :=
  match d with
  | .egress => txSend
  | .ingress => rxWrite

def Q.setSlot (q : Q) (i : Nat) (r : RNG) : Q := { q with R := Function.update q.R i r }

def Sys.pushStep (s : Sys) : Sys :=
  match push s.q with
  | .error f => { s with fault := some f }
  | .ok (q, .slot i) => { s with q := q, prod := .holding i false }
  | .ok (q, _) => { s with q := q }

def Sys.readStep (ses : Session) (s : Sys) (i : Nat) (got : Option (List UInt8)) : Sys :=
  let (pool, r) := readSlot ses s.pool (s.q.R i) got
  { s with
    q := s.q.setSlot i r
    pool := pool
    prod := .holding i (readDone ses pool r)
    -- a failed read leaves no event
    reads := s.reads ++ (got.map fun frame => ⟨i, readBytes ses frame⟩).toList }

def Sys.commitStep (ses : Session) (s : Sys) (i : Nat) : Sys :=
  let q := s.q.setSlot i (trimSlot ses.dir (s.q.R i))
  { s with
    q := commit q i
    prod := .idle
    committed := s.committed ++ [packetAt s.pool q i] }

def Sys.popStep (s : Sys) : Sys :=
  match pop s.q with
  | .error f => { s with fault := some f }
  | .ok (q, .slot i) =>
    { s with
      q := q
      work := .holding i s.reads.length false
      handed := s.handed ++ [packetAt s.pool q i] }
  | .ok (q, _) => { s with q := q }

def Sys.useStep (ses : Session) (s : Sys) (i before : Nat) : Sys :=
  { s with
    work := .holding i before true
    sent := s.sent ++ ((sendSlot ses.dir s.pool (s.q.R i)).map fun bs => ⟨i, bs, before⟩).toList }

def Sys.releaseStep (s : Sys) (i : Nat) : Sys :=
  { s with q := release s.q i, work := .idle }

/-- One step of the system; no step follows a fault. -/
def step (ses : Session) (s : Sys) (a : Action) : Option Sys :=
  if s.fault.isSome then none
  else
    match a, s.prod, s.work with
    | .push, .idle, _ => some s.pushStep
    | .read got, .holding i _, _ => some (s.readStep ses i got)
    -- only a slot whose last read ended the read loop is committed
    | .commit, .holding i true, _ => some (s.commitStep ses i)
    | .pop, _, .idle => some s.popStep
    | .use, _, .holding i before false => some (s.useStep ses i before)
    | .release, _, .holding i _ true => some (s.releaseStep i)
    | _, _, _ => none

end Lanes
