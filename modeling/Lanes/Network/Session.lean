import Lanes.Config.Peer
import Lanes.Ring.Init
import Lanes.Ring.System

/-!
# Setting up sessions

`tx_session`, `rx_session` and the two passes of `enumerate_interfaces` (`network.c`) over the list
of peers. The kernel, the name service and `malloc` are parameters: a record holds what the calls of
one session set-up return.

The two session functions are one definition with two parameters. `dir` and the part behind the
open tunnel are the direction's own. `elem` says which element `A[k]->…` reaches: `throughGlobal`
is the source's, and `some` stands for an array in which element `k` is found, for the results
that are about something else.
-/

namespace Lanes

/-! ## Constants -/

def tun : Int := 90
def pipe : Int := 110
def bufSize : Nat := 62914560
def lbDelay : Int := 5000000
def afPacket : UInt16 := 17
def ethPAll : UInt16 := 3

/-! ## Sessions -/

/-- The fields of `struct sockaddr_ll` that the set-up writes. -/
structure SockaddrLl where
  family : UInt16
  protocol : UInt16
  ifindex : Int
  halen : UInt8
  addr : Mac

/-- The fields of `struct txq` and `struct rxq` that the set-up writes; the two name them alike. -/
structure Xq where
  type : Int
  /-- `IFNAMSIZ` bytes each. -/
  ifname : List UInt8
  tifname : List UInt8
  fd : Int
  af : Int
  mtu : Nat
  tmtu : Int
  qnum : Int
  peerIp : UInt32
  myIp : UInt32
  /-- `lb_delay`: seconds and nanoseconds. -/
  lbDelay : Int × Int
  sll : SockaddrLl
  /-- The structure `pcx` points to. -/
  pcx : PeerCtx
  /-- The queues and their data pools. -/
  q : List (Q × Mem)

/-- A thread that `new_thread` starts. -/
inductive Thread where
  | worker (dir : Dir) (session : Nat)
  | io (dir : Dir) (session : Nat)
  | mapIn
  | map
  deriving DecidableEq

/-- How a call ends the process, or that it reads or writes outside its arrays. -/
inductive Stop where
  /-- `exit` in `die` and `arp_request`, or a null pointer. -/
  | ended
  | outside
  deriving DecidableEq

/-- The process ends where there is no value. -/
def orEnd {α : Type*} : Option α → Except Stop α
  | some x => .ok x
  | none => .error .ended

/-- The access is outside where there is no value. -/
def orOutside {α : Type*} : Option α → Except Stop α
  | some x => .ok x
  | none => .error .outside

def endUnless (b : Bool) : Except Stop Unit := if b then .ok () else .error .ended

/-- A call that stays inside its arrays; it may end the process. -/
def Inside {α : Type*} (r : Except Stop α) : Prop := r ≠ .error .outside

section Calls

variable {α β : Type} {r : Except Stop α} {f : α → Except Stop β}

theorem bind_eq_ok {y : β} : (r >>= f) = .ok y ↔ ∃ x, r = .ok x ∧ f x = .ok y := by
  cases r <;> simp [bind, Except.bind]

theorem inside_ok (x : α) : Inside (.ok x : Except Stop α) := by simp [Inside]

theorem inside_orEnd (o : Option α) : Inside (orEnd o) := by
  cases o <;> simp [Inside, orEnd]

theorem inside_endUnless (b : Bool) : Inside (endUnless b) := by
  cases b <;> simp [Inside, endUnless]

theorem Inside.bind (hr : Inside r) (hf : ∀ x, r = .ok x → Inside (f x)) : Inside (r >>= f) := by
  cases r with
  | error stop => simpa [Inside, Bind.bind, Except.bind] using hr
  | ok x => exact hf x rfl

@[simp] theorem orEnd_eq_ok {o : Option α} {x : α} : orEnd o = .ok x ↔ o = some x := by
  cases o <;> simp [orEnd]

@[simp] theorem orOutside_eq_ok {o : Option α} {x : α} : orOutside o = .ok x ↔ o = some x := by
  cases o <;> simp [orOutside]

end Calls

/-- What the calls of one session set-up return. -/
structure SessionCalls where
  /-- `init_af_packet`; `none` is its `die (1, …)`. -/
  af : Option Int
  /-- `IFMTU` of the interface. -/
  mtu : Nat
  /-- The local `fd` before its first assignment. -/
  fd : Int
  tuntap : Int
  /-- `IFMAC` of the interface and of the tunnel. -/
  ifMac : Mac
  tunMac : Mac
  ifindex : Int
  /-- `set_ip` and `set_mtu` return. -/
  setIp : Bool
  setMtu : Bool
  /-- What `fill_headers` learns; `none` is the `exit` in `arp_request`. -/
  link : Option LinkInfo
  /-- The memory for the queues; `none` is the null pointer. -/
  queues : Option (Nat → Q)
  /-- The allocations of the j-th ring succeed. -/
  ring : Nat → Bool
  openPipe : Int

/-- `strlen (peer->field) > 0`. -/
def PeerCtx.isSet (peer : PeerCtx) (f : Field) : Bool := peer.text f.off != 0

/-! ## The arrays

`TX` and `RX` are global pointers to arrays, and `&TX` is the address of such a pointer. An access
through it with an index other than 0 is behind the pointer, where the source has no object.
-/

/-- The variables of `enumerate_interfaces` and the arrays. -/
structure Net where
  /-- What `TX` and `RX` point to; `none` is the null pointer. -/
  array : Dir → Option (List Xq)
  /-- `txc` and `rxc` in the second pass. -/
  count : Dir → Nat
  threads : List Thread

/-- The element that `A[k]` points to, where `A` is the address of a global pointer to an array:
behind the pointer itself there is none. -/
def throughGlobal (k : Nat) : Option Nat := if k = 0 then some 0 else none

def Dir.other : Dir → Dir
  | .egress => .ingress
  | .ingress => .egress

/-- Element `e` of an array. -/
def Net.element (net : Net) (d : Dir) (e : Nat) : Option Xq := (net.array d).bind (·[e]?)

/-- `A[k]->…`. -/
def Net.load (elem : Nat → Option Nat) (net : Net) (d : Dir) (k : Nat) : Except Stop Xq := do
  let e ← orOutside (elem k)
  let xs ← orEnd (net.array d)
  orOutside xs[e]?

/-- The loop over the first `n` sessions of an array that looks for the tunnel of a peer. -/
def Net.findFd (elem : Nat → Option Nat) (net : Net) (d : Dir) (peer : PeerCtx) (fd : Int) :
    Nat → Except Stop Int
  | 0 => .ok fd
  | n + 1 => do
    let fd ← net.findFd elem d peer fd n
    let x ← net.load elem d n
    return if 0 < x.fd ∧ strncmpEq (cstr x.tifname) (peer.str .tifname) ifNamSiz = true then x.fd
      else fd

/-! ## One session

In the order of the source: the raw socket, the tunnel, which may be one that another session has
opened, the address, the headers, the rings, and then the fields of the element and the threads.
-/

/-- The loop that initialises the rings. -/
def initQueues (threads mtu : Nat) (hdr : Headers) (calls : SessionCalls) :
    Nat → Except Stop (List (Q × Mem))
  | 0 => .ok []
  | j + 1 => do
    let qs ← initQueues threads mtu hdr calls j
    let q ← orEnd calls.queues
    let (q, pool) ← orEnd (initRingBuffer (q j) (bufSize / threads) mtu hdr (calls.ring j))
    return qs ++ [({ q with id := j }, pool)]

/-- The part of `tx_session` with the tunnel open. -/
def txTunnel (peer : PeerCtx) (calls : SessionCalls) (fd : Int) (txs : Xq) : Except Stop Xq := do
  endUnless calls.setIp
  endUnless calls.setMtu
  let link ← orEnd calls.link
  let hdr := fillHeaders peer.myip peer.peerip link
  let qs ← initQueues peer.threads.toNat txs.mtu hdr calls peer.threads.toNat
  return { txs with
    type := tun
    fd := fd
    tifname := peer.text.read Field.tifname.off ifNamSiz
    ifname := peer.text.read Field.ifname.off ifNamSiz
    sll :=
      { addr := calls.ifMac
        ifindex := calls.ifindex
        halen := 6
        protocol := htons ethPAll
        family := afPacket }
    peerIp := peer.peerip
    myIp := peer.myip
    pcx := peer
    qnum := peer.threads
    lbDelay := (txs.lbDelay.1, Lanes.lbDelay)
    q := qs }

/-- The part of `rx_session` with the tunnel open. -/
def rxTunnel (peer : PeerCtx) (calls : SessionCalls) (fd : Int) (rxs : Xq) : Except Stop Xq := do
  let link ← orEnd calls.link
  let hdr := fillHeaders peer.myip peer.peerip link
  let qs ← initQueues peer.threads.toNat rxs.mtu hdr calls peer.threads.toNat
  return { rxs with
    type := tun
    fd := fd
    tifname := peer.text.read Field.tifname.off ifNamSiz
    ifname := peer.text.read Field.ifname.off ifNamSiz
    sll :=
      { addr := calls.tunMac
        family := afPacket
        ifindex := calls.ifindex
        halen := 6
        protocol := htons ethPAll }
    tmtu := (rxs.mtu : Int) - ethIp4
    peerIp := peer.peerip
    myIp := peer.myip
    pcx := peer
    qnum := peer.threads
    lbDelay := (0, Lanes.lbDelay)
    q := qs }

/-- The threads of a session that has its tunnel: one worker for each queue, then the one for IO. -/
def sessionThreads (dir : Dir) (e : Nat) (x : Xq) : List Thread :=
  x.q.map (fun _ => .worker dir e) ++ [.io dir e]

/-- What the two functions make of element `e`, from the raw socket on, and the threads that they
start. The branch of the socket is commented out in the source. -/
def setUp (elem : Nat → Option Nat) (dir : Dir)
    (tunnel : PeerCtx → SessionCalls → Int → Xq → Except Stop Xq) (net : Net) (peer : PeerCtx)
    (calls : SessionCalls) (e : Nat) (af : Int) (xs : Xq) : Except Stop (Xq × List Thread) := do
  endUnless (af > -1)
  let xs := { xs with af := af, mtu := calls.mtu }
  if peer.isSet .tifname then do
    -- the session's own array first, then that of the other direction
    let fd ← net.findFd elem dir peer calls.fd (net.count dir)
    let fd ← net.findFd elem dir.other peer fd (net.count dir.other)
    -- a tunnel that another session opened is shared
    let fd := if fd < 1 then calls.tuntap else fd
    if 0 < fd then do
      let xs ← tunnel peer calls fd xs
      return (xs, sessionThreads dir e xs)
    else return (xs, [])
  else if peer.isSet .socketPath then return (xs, [])
  else if peer.isSet .pipePath then do
    endUnless (0 ≤ calls.openPipe)
    return ({ xs with type := pipe, fd := calls.openPipe }, [])
  else .error .ended

/-- `tx_session` and `rx_session`. The pointer to the element is read before anything else. -/
def session (elem : Nat → Option Nat) (dir : Dir)
    (tunnel : PeerCtx → SessionCalls → Int → Xq → Except Stop Xq) (net : Net) (peer : PeerCtx)
    (calls : SessionCalls) : Except Stop Net := do
  let e ← orOutside (elem (net.count dir))
  let xs ← orEnd (net.array dir)
  endUnless (peer.isSet .ifname)
  let af ← orEnd calls.af
  let old ← orOutside xs[e]?
  let (x, started) ← setUp elem dir tunnel net peer calls e af old
  return { net with
    array := Function.update net.array dir (some (xs.set e x))
    threads := net.threads ++ started }

def txSession (elem : Nat → Option Nat) := session elem .egress txTunnel

def rxSession (elem : Nat → Option Nat) := session elem .ingress rxTunnel

/-! ## `enumerate_interfaces`

The first pass counts the sessions of each direction and brings the interfaces up, the arrays are
allocated for the counts, and the second pass sets the sessions up.
-/

/-- A peer of the list with what the calls made for it return; the two flags say that `ifup` returns
0 for `ifname` and for `ifmap`. -/
structure Listed where
  peer : PeerCtx
  ifUp : Bool
  mapUp : Bool
  calls : SessionCalls

/-- The first pass: `txc`, `rxc` and `mpc`. -/
def countSessions : List Listed → Nat × Nat × Nat
  | [] => (0, 0, 0)
  | a :: as =>
    let (txc, rxc, mpc) := countSessions as
    (if a.peer.isSet .tifname ∨ a.peer.isSet .socketPath then txc + 1 else txc,
      if a.ifUp then rxc + 1 else rxc,
      if a.peer.isSet .ifmap ∧ a.mapUp then mpc + 1 else mpc)

/-- What `malloc` returns for `TX` and `RX`: a null pointer, or memory with any contents. -/
structure Malloc where
  null : Dir → Bool
  contents : Dir → Nat → Xq

/-- The state before the second pass. -/
def startNet (mem : Malloc) (as : List Listed) : Net where
  array d :=
    let n := match d with
      | .egress => (countSessions as).1
      | .ingress => (countSessions as).2.1
    if mem.null d then none else some ((List.range n).map (mem.contents d))
  count _ := 0
  threads := []

/-- `txc++` and `rxc++`, after the call. -/
def Net.countUp (net : Net) (d : Dir) : Net :=
  { net with count := Function.update net.count d (net.count d + 1) }

/-- One peer in the second pass. -/
def enumerateStep (elem : Nat → Option Nat) (net : Net) (a : Listed) : Except Stop Net :=
  if a.peer.direction = dirOut then (txSession elem net a.peer a.calls).map (·.countUp .egress)
  else if a.peer.direction = dirIn then (rxSession elem net a.peer a.calls).map (·.countUp .ingress)
  -- the map threads belong to no session
  else if a.peer.direction = dirMap then
    .ok { net with
      threads := net.threads ++ .mapIn :: List.replicate a.peer.threads.toNat .map }
  else .ok net

end Lanes
