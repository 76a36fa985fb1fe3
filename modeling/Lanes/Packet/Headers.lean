import Lanes.Lib.Mem

/-!
# The outer headers

The Ethernet and IPv4 headers of `struct headers` (`util.h`) as the bytes they occupy on a
little-endian host, and the template that `fill_headers` (`network.c`) builds for a peer.

A field of more than one byte holds the number that the source assigns to it, converted with `htons`
or not, and `bytes` lays it out low byte first. What the header says on the wire is then read off
the bytes, so a field that the source does not convert shows as it is sent.
-/

namespace Lanes

/-! ## Lengths -/

def ethHdrLen : Nat := 14
def ip4HdrLen : Nat := 20

/-- The macro `ETHIP4`. -/
def ethIp4 : Nat := ip4HdrLen + ethHdrLen

@[simp] theorem ethHdrLen_eq : ethHdrLen = 14 := rfl
@[simp] theorem ip4HdrLen_eq : ip4HdrLen = 20 := rfl
@[simp] theorem ethIp4_eq : ethIp4 = 34 := rfl

/-! ## Header structures -/

/-- A hardware address. -/
abbrev Mac := Vector UInt8 6

/-- `struct ethhdr`. `hProto` is in network byte order, as the source stores it. -/
structure EthHdr where
  hDest : Mac
  hSource : Mac
  hProto : UInt16

/-- `struct iphdr` without options. The multi-byte fields hold what the source stores in them. -/
structure IpHdr where
  ihl : UInt8
  version : UInt8
  tos : UInt8
  totLen : UInt16
  id : UInt16
  fragOff : UInt16
  ttl : UInt8
  protocol : UInt8
  check : UInt16
  saddr : UInt32
  daddr : UInt32

structure Headers where
  eh : EthHdr
  iph : IpHdr

def EthHdr.bytes (h : EthHdr) : List UInt8 :=
  h.hDest.toList ++ h.hSource.toList ++ le16 h.hProto

def IpHdr.bytes (h : IpHdr) : List UInt8 :=
  [h.version * 16 + h.ihl, h.tos] ++ le16 h.totLen ++ le16 h.id ++ le16 h.fragOff
    ++ [h.ttl, h.protocol] ++ le16 h.check ++ le32 h.saddr ++ le32 h.daddr

@[simp] theorem EthHdr.bytes_length (h : EthHdr) : h.bytes.length = ethHdrLen := by
  simp [EthHdr.bytes]

@[simp] theorem IpHdr.bytes_length (h : IpHdr) : h.bytes.length = ip4HdrLen := by
  simp [IpHdr.bytes]

/-! ## `fill_headers` -/

/-- `htons` on a little-endian host. -/
def htons (v : UInt16) : UInt16 := v <<< 8 ||| v >>> 8

/-- What `fill_headers` takes from outside: the address of the interface and the answer of
`arp_request`, which leaves `h_dest` as it was when it fails. -/
structure LinkInfo where
  smac : Mac
  arp : Option Mac

def fillHeaders (myip peerip : UInt32) (link : LinkInfo) : Headers where
  eh :=
    { hDest := link.arp.getD (Vector.replicate 6 0)
      hSource := link.smac
      hProto := htons 0x0800 }
  iph :=
    { ihl := 5
      version := 4
      tos := (htons 16).toUInt8
      totLen := 1500
      id := 0
      fragOff := 0
      ttl := 255
      protocol := 1
      check := 0
      saddr := myip
      daddr := peerip }

/-- The source address sits in bytes 12 to 15 of the IPv4 header. -/
theorem IpHdr.bytes_saddr (h : IpHdr) :
    h.bytes = [h.version * 16 + h.ihl, h.tos] ++ le16 h.totLen ++ le16 h.id ++ le16 h.fragOff
      ++ [h.ttl, h.protocol] ++ le16 h.check ++ (le32 h.saddr ++ le32 h.daddr) := by
  simp [IpHdr.bytes]

end Lanes
