import NetworkLab.Checksum

/-!
# IP packets with a TCP header

Header fields hold the numbers the wire transports; `htonl` and `htons` give the
word that the memory of a little-endian machine holds for them. The checksum
fields are the exception: the source stores them without conversion. Headers are
complete, the options fill the `ihl` words of the IP header, and a checksum stops at
the end of the data.
-/
namespace NetworkLab

structure IpHdr where
  version : UInt8
  ihl : UInt8
  tos : UInt8
  totLen : UInt16
  id : UInt16
  fragOff : UInt16
  ttl : UInt8
  protocol : UInt8
  checksum : UInt16
  saddr : UInt32
  daddr : UInt32
  deriving DecidableEq

/-- The TCP header; the four unused bits behind `off` are zero. -/
structure TcpHdr where
  sport : UInt16
  dport : UInt16
  seq : UInt32
  ack : UInt32
  off : UInt8
  flags : UInt8
  rwnd : UInt16
  checksum : UInt16
  urp : UInt16
  deriving DecidableEq

/-- A frame: Ethernet header, IP header with options, TCP header, and the bytes
after the 20 bytes of the TCP header. -/
structure Packet where
  ether : List UInt8
  ip : IpHdr
  options : List UInt8
  tcp : TcpHdr
  data : List UInt8
  deriving DecidableEq

def tcpFin : UInt8 := 0x01
def tcpSyn : UInt8 := 0x02
def tcpPsh : UInt8 := 0x08
def tcpAck : UInt8 := 0x10

def ipprotoTcp : UInt8 := 6

def wire16 (w : UInt16) : List UInt8 := bytes16 (htons w)
def wire32 (w : UInt32) : List UInt8 := bytes32 (htonl w)

def ipBytes (ip : IpHdr) : List UInt8 :=
  [ip.ihl + 16 * ip.version, ip.tos] ++ wire16 ip.totLen ++ wire16 ip.id ++ wire16 ip.fragOff ++
    [ip.ttl, ip.protocol] ++ bytes16 ip.checksum ++ wire32 ip.saddr ++ wire32 ip.daddr

def tcpBytes (tcp : TcpHdr) : List UInt8 :=
  wire16 tcp.sport ++ wire16 tcp.dport ++ wire32 tcp.seq ++ wire32 tcp.ack ++
    [16 * tcp.off, tcp.flags] ++ wire16 tcp.rwnd ++ bytes16 tcp.checksum ++ wire16 tcp.urp

/-- Bytes of the IP header, `IP_HDR_SIZE`. -/
def ipHdrSize (ip : IpHdr) : UInt16 := 4 * ip.ihl.toUInt16

def ipChecksum (p : Packet) : UInt16 :=
  checksum ((ipBytes { p.ip with checksum := 0 } ++ p.options).take (ipHdrSize p.ip).toNat) 0

/-- Checksum over the pseudo-header and the segment with its own field zeroed. -/
def tcpChecksum (p : Packet) : UInt16 :=
  let tcpLen := p.ip.totLen - ipHdrSize p.ip
  let sum := htonl p.ip.saddr + htonl p.ip.daddr + (htons p.ip.protocol.toUInt16).toUInt32 +
    (htons tcpLen).toUInt32
  checksum ((tcpBytes { p.tcp with checksum := 0 } ++ p.data).take tcpLen.toNat) sum

/-- Sequence number after the segment: data bytes, and one for SYN or FIN. -/
def tcpSeqEnd (ip : IpHdr) (tcp : TcpHdr) : UInt32 :=
  let len := ip.totLen.toUInt32 - (ipHdrSize ip).toUInt32 - 4 * tcp.off.toUInt32
  tcp.seq + len + if tcp.flags &&& (tcpSyn ||| tcpFin) ≠ 0 then 1 else 0

/-- Store both checksums, the one of the segment first. -/
def setChecksums (p : Packet) : Packet :=
  let p := { p with tcp.checksum := tcpChecksum p }
  { p with ip.checksum := ipChecksum p }

@[simp] theorem setChecksums_saddr (p : Packet) : (setChecksums p).ip.saddr = p.ip.saddr := rfl
@[simp] theorem setChecksums_daddr (p : Packet) : (setChecksums p).ip.daddr = p.ip.daddr := rfl
@[simp] theorem setChecksums_sport (p : Packet) : (setChecksums p).tcp.sport = p.tcp.sport := rfl
@[simp] theorem setChecksums_dport (p : Packet) : (setChecksums p).tcp.dport = p.tcp.dport := rfl

end NetworkLab
