import Lanes.Lib.Run
import Lanes.Lib.Picked
import Lanes.Lib.Swaps
import Lanes.Lib.Mem
import Lanes.Lib.OnesComplement
import Lanes.Lib.CString
import Lanes.Lib.Decimal
import Lanes.Lib.Format
import Lanes.Lib.Dlist
import Lanes.Packet.Headers
import Lanes.Packet.Transfer
import Lanes.Packet.Checksum
import Lanes.Packet.RoundTrip
import Lanes.Packet.OuterHeader
import Lanes.Ring.Basic
import Lanes.Ring.Init
import Lanes.Ring.Ownership
import Lanes.Ring.Interleave
import Lanes.Ring.System
import Lanes.Ring.Slots
import Lanes.Ring.Pool
import Lanes.Ring.Integrity
import Lanes.Ring.Provenance
import Lanes.Ring.Cursors
import Lanes.Ring.Fifo
import Lanes.Ring.Scan
import Lanes.Ring.Calls
import Lanes.Workers.Dispatch
import Lanes.Workers.ReadLoop
import Lanes.Workers.Ingress
import Lanes.Workers.Shutdown
import Lanes.Workers.Pinning
import Lanes.Workers.Pace
import Lanes.Config.Peer
import Lanes.Config.Loader
import Lanes.Config.Reading
import Lanes.Config.Segment
import Lanes.Config.Document
import Lanes.Config.Readable
import Lanes.Config.Sample
import Lanes.Config.Failure
import Lanes.Config.Fields
import Lanes.Config.Frame
import Lanes.Config.Taken
import Lanes.Config.Keys
import Lanes.Config.Order
import Lanes.Config.Usable
import Lanes.Config.Words
import Lanes.Config.RoundTrip
import Lanes.Network.Session
import Lanes.Network.Isolation
import Lanes.Network.Passes
import Lanes.Network.Assign
import Lanes.Network.Tunnels
import Lanes.Network.Arp
import Lanes.Report.Die
import Lanes.Lane.Envelope
import Lanes.Lane.Admission
import Lanes.Lane.Hosts
import Lanes.Lane.Link
import Lanes.Lane.SetUp
import Lanes.Lane.Order
import Lanes.Lane.Deployment
import Lanes.Access.Model
import Lanes.Access.Exclusion
import Lanes.Access.Producer
import Lanes.Access.Worker
import Lanes.Access.Run
import Lanes.Access.WaitFree
import Lanes.Process.Life
import Lanes.Process.Registered
import Lanes.Process.Termination
import Lanes.Process.Threads
import Lanes.Lists.Refine
import Lanes.Process.ThreadList
