import NetworkLab.BucketTable
import NetworkLab.Packet
import NetworkLab.RoutingTable

/-!
# Address translation of one packet

`nat.c` after its configuration has been read. The mappings are chained in the
bucket of the remote endpoint; a search takes the first mapping that fits. A
call either returns, with the table and what was done with the packet, or
dereferences a null pointer, or waits for `nat.lock` forever. Fields of a fresh
mapping that the source does not write keep the contents of the allocated
memory, which is an argument here. The headers of a packet are complete.
-/
namespace NetworkLab.Nat

def natPortMin : ℕ := 12345
def natPortMax : ℕ := 23456
def tcpEstablishedTimeout : ℤ := 60

/-- What translation reads of an interface. -/
structure Iface where
  ip : UInt32
  deriving DecidableEq

inductive PacketDir
  | dirIn
  | dirOut
  | dirInvalid
  deriving DecidableEq

structure NatConnection where
  internalFin : UInt8
  externalFin : UInt8
  internalSeqEnd : UInt32
  externalSeqEnd : UInt32
  internalAck : UInt32
  externalAck : UInt32
  deriving DecidableEq

structure NatMapping where
  remoteIp : UInt32
  remotePort : UInt16
  internalIp : UInt32
  internalPort : UInt16
  externalIp : UInt32
  externalPort : UInt16
  updateTime : ℤ
  conn : NatConnection
  deriving DecidableEq

structure DnatRule where
  externalIp : UInt32
  externalPort : UInt16
  internalIp : UInt32
  internalPort : UInt16
  deriving DecidableEq

structure NatTable where
  natMappingList : UInt8 → List NatMapping
  internalIface : Option Iface
  externalIface : Option Iface
  assignedPorts : UInt16 → UInt8
  rules : List DnatRule
  lock : Bool

/-- Entries of the routing table point to an interface, or to none. -/
abbrev Routes := List (RtEntry (Option Iface))

/-- The linked IP library: its longest prefix match is null exactly when no
route of the table covers the address. -/
structure IpStack where
  longestPrefixMatch : Routes → UInt32 → Option (RtEntry (Option Iface))
  eq_none_iff : ∀ rtable dst,
    longestPrefixMatch rtable dst = none ↔ ∀ entry ∈ rtable, ¬ entry.Matches dst

/-- What happens to the packet buffer. -/
inductive Action
  | ipSendPacket (packet : Packet)
  | icmpSendPacket (packet : Packet) (type code : UInt8)
  | free
  deriving DecidableEq

inductive Outcome
  | returned (nat : NatTable) (actions : List Action)
  | nullDereference
  | blocked

def icmpDestUnreach : UInt8 := 3
def icmpHostUnreach : UInt8 := 1

/-- Address of the interface towards `addr`; `none` is a null dereference. -/
def outIp (lib : IpStack) (rtable : Routes) (addr : UInt32) : Option UInt32 := do
  let entry ← lib.longestPrefixMatch rtable addr
  let iface ← entry.iface
  return iface.ip

def getPacketDirection (lib : IpStack) (rtable : Routes) (nat : NatTable) (packet : Packet) :
    Option PacketDir := do
  let dOut ← outIp lib rtable packet.ip.daddr
  let sOut ← outIp lib rtable packet.ip.saddr
  let internal ← nat.internalIface
  let external ← nat.externalIface
  if dOut = external.ip ∧ sOut = internal.ip then return .dirOut
  else if sOut = external.ip ∧ packet.ip.daddr = external.ip then return .dirIn
  else return .dirInvalid

def remote2hash (addr : UInt32) (port : UInt16) : UInt8 := hash8 (bytes32 addr ++ bytes16 port)

/-- Address and port of the peer outside. -/
def remote (dir : PacketDir) (packet : Packet) : UInt32 × UInt16 :=
  if dir = .dirIn then (packet.ip.saddr, packet.tcp.sport) else (packet.ip.daddr, packet.tcp.dport)

/-- The test of the search loop on one mapping. -/
def fits (dir : PacketDir) (packet : Packet) (entry : NatMapping) : Bool :=
  decide ((entry.remoteIp, entry.remotePort) = remote dir packet) &&
    if dir = .dirIn then
      decide ((entry.externalIp, entry.externalPort) = (packet.ip.daddr, packet.tcp.dport))
    else decide ((entry.internalIp, entry.internalPort) = (packet.ip.saddr, packet.tcp.sport))

def finFlag (tcp : TcpHdr) : UInt8 := if tcp.flags &&& tcpFin ≠ 0 then 1 else 0

/-- Statistics of a packet from outside. The acknowledgement is stored as it
lies in memory, in network order. -/
def recordExternal (packet : Packet) (conn : NatConnection) : NatConnection :=
  { conn with
    externalFin := finFlag packet.tcp
    externalSeqEnd := tcpSeqEnd packet.ip packet.tcp
    externalAck :=
      if packet.tcp.flags &&& tcpAck ≠ 0 then htonl packet.tcp.ack else conn.externalAck }

/-- Statistics of a packet from inside. -/
def recordInternal (packet : Packet) (conn : NatConnection) : NatConnection :=
  { conn with
    internalFin := finFlag packet.tcp
    internalSeqEnd := tcpSeqEnd packet.ip packet.tcp
    internalAck :=
      if packet.tcp.flags &&& tcpAck ≠ 0 then htonl packet.tcp.ack else conn.internalAck }

def updateMapping (dir : PacketDir) (packet : Packet) (now : ℤ) (entry : NatMapping) :
    NatMapping :=
  { entry with
    updateTime := now
    conn := if dir = .dirIn then recordExternal packet entry.conn
      else recordInternal packet entry.conn }

/-- Replace the destination of a packet from outside. -/
def rewriteDestination (packet : Packet) (ip : UInt32) (port : UInt16) : Packet :=
  setChecksums { packet with ip.daddr := ip, tcp.dport := port }

/-- Replace the source of a packet from inside. -/
def rewriteSource (packet : Packet) (ip : UInt32) (port : UInt16) : Packet :=
  setChecksums { packet with ip.saddr := ip, tcp.sport := port }

def rewrite (dir : PacketDir) (packet : Packet) (entry : NatMapping) : Packet :=
  if dir = .dirIn then rewriteDestination packet entry.internalIp entry.internalPort
  else rewriteSource packet entry.externalIp entry.externalPort

/-- The ports of the pool, in the order of the search. -/
def poolPorts : List UInt16 :=
  (List.range' natPortMin (natPortMax + 1 - natPortMin)).map UInt16.ofNat

/-- First port of the pool that is not marked as assigned. -/
def freePort (nat : NatTable) : Option UInt16 :=
  poolPorts.find? (fun pid => decide (nat.assignedPorts pid = 0))

/-- First rule for the destination of a packet from outside. -/
def findRule (nat : NatTable) (packet : Packet) : Option DnatRule :=
  nat.rules.find? (fun rule =>
    decide ((rule.externalIp, rule.externalPort) = (packet.ip.daddr, packet.tcp.dport)))

/-- A mapping allocated for an outgoing connection. -/
def outboundMapping (packet : Packet) (extIp : UInt32) (pid : UInt16) (now : ℤ)
    (heap : NatConnection) : NatMapping where
  remoteIp := packet.ip.daddr
  remotePort := packet.tcp.dport
  internalIp := packet.ip.saddr
  internalPort := packet.tcp.sport
  externalIp := extIp
  externalPort := pid
  updateTime := now
  conn := recordInternal packet heap

/-- A mapping allocated for a connection that a rule forwards. -/
def dnatMapping (packet : Packet) (rule : DnatRule) (now : ℤ) (heap : NatConnection) :
    NatMapping where
  remoteIp := packet.ip.saddr
  remotePort := packet.tcp.sport
  internalIp := rule.internalIp
  internalPort := rule.internalPort
  externalIp := rule.externalIp
  externalPort := rule.externalPort
  updateTime := now
  conn := recordExternal packet heap

def NatTable.addMapping (nat : NatTable) (idx : UInt8) (entry : NatMapping) : NatTable :=
  { nat with natMappingList := fun b =>
      if b = idx then nat.natMappingList b ++ [entry] else nat.natMappingList b }

/-- The replies of the two failure exits; the second one has no unlock. -/
def unreachable (packet : Packet) : List Action :=
  [.icmpSendPacket packet icmpDestUnreach icmpHostUnreach, .free]

/-- The critical section and what follows it, entered with `nat.lock` free. The
lock is held at every exit that does not set it to `false`. -/
def translate (nat : NatTable) (packet : Packet) (dir : PacketDir) (now : ℤ)
    (heap : NatConnection) : Outcome :=
  let idx := remote2hash (remote dir packet).1 (remote dir packet).2
  let nat := { nat with lock := true }
  match (nat.natMappingList idx).find? (fits dir packet) with
  | some entry =>
    .returned
      { nat with
        natMappingList := fun b =>
          if b = idx then
            updateFirst (fits dir packet) (updateMapping dir packet now) (nat.natMappingList b)
          else nat.natMappingList b
        lock := false }
      [.ipSendPacket (rewrite dir packet entry)]
  | none =>
    if packet.tcp.flags &&& tcpSyn = 0 then
      .returned { nat with lock := false } (unreachable packet)
    else if dir = .dirOut then
      match freePort nat with
      | some pid =>
        match nat.externalIface with
        | some external =>
          .returned
            { nat.addMapping idx (outboundMapping packet external.ip pid now heap) with
              lock := false }
            [.ipSendPacket (rewriteSource packet external.ip pid)]
        | none => .nullDereference
      | none => .returned nat (unreachable packet)
    else
      match findRule nat packet with
      | some rule =>
        .returned { nat.addMapping idx (dnatMapping packet rule now heap) with lock := false }
          [.ipSendPacket (rewriteDestination packet rule.internalIp rule.internalPort)]
      | none => .returned nat (unreachable packet)

def doTranslation (nat : NatTable) (packet : Packet) (dir : PacketDir) (now : ℤ)
    (heap : NatConnection) : Outcome :=
  if nat.lock then .blocked else translate nat packet dir now heap

def natTranslatePacket (lib : IpStack) (rtable : Routes) (nat : NatTable) (packet : Packet)
    (now : ℤ) (heap : NatConnection) : Outcome :=
  match getPacketDirection lib rtable nat packet with
  | none => .nullDereference
  | some dir =>
    if dir = .dirInvalid then .returned nat (unreachable packet)
    else if packet.ip.protocol ≠ ipprotoTcp then .returned nat [.free]
    else doTranslation nat packet dir now heap

/-- The flow has seen both FINs and both are acknowledged. -/
def isFlowFinished (conn : NatConnection) : Bool :=
  decide (conn.internalFin ≠ 0 ∧ conn.externalFin ≠ 0 ∧
    conn.externalSeqEnd ≤ conn.internalAck ∧ conn.internalSeqEnd ≤ conn.externalAck)

/-- The sweep deletes this mapping. -/
def expired (now : ℤ) (entry : NatMapping) : Bool :=
  decide (tcpEstablishedTimeout ≤ now - entry.updateTime) || isFlowFinished entry.conn

/-- Ports of the mappings that a sweep deletes, bucket by bucket. -/
def sweptPorts (nat : NatTable) (now : ℤ) : List UInt16 :=
  (List.range 256).flatMap (fun b =>
    ((nat.natMappingList (UInt8.ofNat b)).filter (expired now)).map NatMapping.externalPort)

/-- One round of the sweeping thread; `none` while it waits for `nat.lock`. -/
def natTimeout (nat : NatTable) (now : ℤ) : Option NatTable :=
  if nat.lock then none
  else some
    { nat with
      natMappingList := fun b => (nat.natMappingList b).filter (fun entry => !expired now entry)
      assignedPorts := fun p => if p ∈ sweptPorts nat now then 0 else nat.assignedPorts p }

theorem natTimeout_eq {nat nat' : NatTable} {now : ℤ} (h : natTimeout nat now = some nat') :
    nat' = { nat with
      natMappingList := fun b => (nat.natMappingList b).filter fun entry => !expired now entry
      assignedPorts := fun p => if p ∈ sweptPorts nat now then 0 else nat.assignedPorts p } := by
  rw [natTimeout] at h
  split_ifs at h
  exact (Option.some.inj h).symm

/-- The table that `nat_init` leaves, for a given configuration. -/
def natInit (internal external : Option Iface) (rules : List DnatRule) : NatTable where
  natMappingList _ := []
  internalIface := internal
  externalIface := external
  assignedPorts _ := 0
  rules := rules
  lock := false

end NetworkLab.Nat
