import NetworkLab.IcmpBounds
import NetworkLab.TcpSend
import NetworkLab.CloseHandshake

/-!
# TCP packets on their way

The bytes that `tcp_send_packet` and `tcp_send_control_packet` give to `ip_send_packet`, what
routers on the way change of them, and what `handle_tcp_packet` takes from those that arrive: the
segment that was sent, as long as the TTL lasts.
-/
namespace NetworkLab.Tcp
open Mospf (etherHdrSize ipBaseHdrSize ipHdrSizeOf writeBytes memcpy HasBytes hasBytes_append
  hasBytes_writeBytes ntohs_of_hasBytes ntohl_of_hasBytes word16_of_hasBytes)
open Router (IfaceInfo ipTotLen ipTtl ipDaddr icmpTimeExceeded icmpExcTtl decrementTtl
  writeBytes_of_not)

section Model

/-- Where the TCP header is without options of IP. -/
def tcpAt : ℕ := etherHdrSize + ipBaseHdrSize

/-- `tcp_checksum` of the header at a position. -/
def tcpChecksumAt (packet : ℕ → UInt8) (tcp : ℕ) : UInt16 :=
  let tcpLen := ipTotLen packet - .ofNat (ipHdrSizeOf packet)
  let sum := word32 packet (etherHdrSize + 12) + word32 packet (etherHdrSize + 16) +
    (htons (packet (etherHdrSize + 9)).toUInt16).toUInt32 + (htons tcpLen).toUInt32
  checksum ((List.range tcpLen.toNat).map fun i => writeBytes packet (tcp + 16) [0, 0] (tcp + i))
    sum

/-- The fields of the IP header in memory. -/
def ipHdrAt (packet : ℕ → UInt8) : IpHdr where
  version := packet etherHdrSize / 16
  ihl := packet etherHdrSize % 16
  tos := packet (etherHdrSize + 1)
  totLen := ipTotLen packet
  id := ntohs (word16 packet (etherHdrSize + 4))
  fragOff := ntohs (word16 packet (etherHdrSize + 6))
  ttl := ipTtl packet
  protocol := packet (etherHdrSize + 9)
  checksum := word16 packet (etherHdrSize + 10)
  saddr := ntohl (word32 packet (etherHdrSize + 12))
  daddr := ipDaddr packet

def tcpHdrAt (packet : ℕ → UInt8) (tcp : ℕ) : TcpHdr where
  sport := ntohs (word16 packet tcp)
  dport := ntohs (word16 packet (tcp + 2))
  seq := ntohl (word32 packet (tcp + 4))
  ack := ntohl (word32 packet (tcp + 8))
  off := packet (tcp + 12) / 16
  flags := packet (tcp + 13)
  rwnd := ntohs (word16 packet (tcp + 14))
  checksum := word16 packet (tcp + 16)
  urp := ntohs (word16 packet (tcp + 18))

def bytesFrom (packet : ℕ → UInt8) (i n : ℕ) : List UInt8 :=
  (List.range n).map fun k => packet (i + k)

/-- `handle_tcp_packet` up to the search for a socket; `none` for a wrong checksum. -/
def tcpPacketCb (packet : ℕ → UInt8) (tcp : ℕ) : Option TcpCb :=
  if tcpChecksumAt packet tcp ≠ word16 packet (tcp + 16) then none
  else some (tcpCbInit (ipHdrAt packet) (tcpHdrAt packet tcp)
    (bytesFrom packet (tcp + 20) ((ipTotLen packet).toNat - ipHdrSizeOf packet - 20)))

/-- What `handle_ip_packet` gives to TCP. -/
def handleIpTcp (iface : IfaceInfo) (packet : ℕ → UInt8) : Option TcpCb :=
  if ipDaddr packet = iface.ip ∧ packet (etherHdrSize + 9) = ipprotoTcp then
    tcpPacketCb packet (etherHdrSize + ipHdrSizeOf packet)
  else none

/-- `tcp_init_hdr`. -/
def tcpInitHdr (packet : ℕ → UInt8) (p : Segment) : ℕ → UInt8 :=
  writeBytes packet tcpAt (tcpBytes (tcpHdrOf p))

/-- `ip_init_hdr`; `id` is a random number. -/
def ipInitHdr (packet : ℕ → UInt8) (p : Segment) (id : UInt16) : ℕ → UInt8 :=
  writeBytes packet etherHdrSize
    (ipInitHdrBytes p.saddr p.daddr (.ofNat (40 + p.data.length)) ipprotoTcp id)

/-- `tcp->checksum = tcp_checksum(ip, tcp)`. -/
def storeTcpChecksum (packet : ℕ → UInt8) : ℕ → UInt8 :=
  writeBytes packet (tcpAt + 16) (bytes16 (tcpChecksumAt packet tcpAt))

/-- `ip->checksum = ip_checksum(ip)`. -/
def storeIpChecksum (packet : ℕ → UInt8) : ℕ → UInt8 :=
  writeBytes packet (etherHdrSize + 10)
    (bytes16 (checksumAt packet etherHdrSize (ipHdrSizeOf packet) 10))

/-- The memory that `tcp_send_packet` gives to `ip_send_packet`; its caller has put the payload
there. -/
def tcpSendPacketBytes (memory : ℕ → UInt8) (tsk : TcpSock) (data : List UInt8) (id : UInt16) :
    ℕ → UInt8 :=
  let p := dataPacket tsk data
  let packet := writeBytes memory (tcpAt + 20) data
  storeIpChecksum (storeTcpChecksum (ipInitHdr (tcpInitHdr packet p) p id))

/-- The memory that `tcp_send_control_packet` gives to `ip_send_packet`. -/
def tcpSendControlPacketBytes (memory : ℕ → UInt8) (tsk : TcpSock) (flags : UInt8) (id : UInt16) :
    ℕ → UInt8 :=
  let p := controlPacket tsk flags
  storeTcpChecksum (tcpInitHdr (ipInitHdr memory p id) p)

/-- What a socket gives to `ip_send_packet` for a segment. -/
inductive SentBytes (tsk : TcpSock) : Segment → (ℕ → UInt8) → Prop
  | data (memory : ℕ → UInt8) (data : List UInt8) (id : UInt16) :
    SentBytes tsk (dataPacket tsk data) (tcpSendPacketBytes memory tsk data id)
  | control (memory : ℕ → UInt8) (flags : UInt8) (id : UInt16) :
    SentBytes tsk (controlPacket tsk flags) (tcpSendControlPacketBytes memory tsk flags id)
  /-- The copy of a packet of the send buffer. -/
  | again (memory : ℕ → UInt8) {p : Segment} {packet : ℕ → UInt8} (h : SentBytes tsk p packet) :
    SentBytes tsk p (memcpy memory 0 packet (54 + p.data.length))

/-- Over a link come the bytes of a packet behind its Ethernet header, into any memory. -/
def OverLink (len : ℕ) (out packet : ℕ → UInt8) : Prop :=
  ∀ i, etherHdrSize ≤ i → i < len → packet i = out i

/-- A packet of this length after so many routers. -/
inductive Carried (len : ℕ) (sent : ℕ → UInt8) : ℕ → (ℕ → UInt8) → Prop
  | first {packet : ℕ → UInt8} (hlink : OverLink len sent packet) : Carried len sent 0 packet
  | hop {n : ℕ} {packet out packet' : ℕ → UInt8} (rtable : List (RtEntry IfaceInfo))
    (iface : IfaceInfo) (h : Carried len sent n packet)
    (hforward : handleIpPacket rtable iface packet = .forward out)
    (hlink : OverLink len out packet') : Carried len sent (n + 1) packet'

/-- The memory holds the segment, but for what routers change. -/
structure Holds (p : Segment) (packet : ℕ → UInt8) : Prop where
  first : packet etherHdrSize = 0x45
  totLen : HasBytes packet (etherHdrSize + 2) (wire16 (.ofNat (40 + p.data.length)))
  protocol : packet (etherHdrSize + 9) = ipprotoTcp
  addrs : HasBytes packet (etherHdrSize + 12) (wire32 p.saddr ++ wire32 p.daddr)
  header : HasBytes packet tcpAt (wire16 p.sport ++ (wire16 p.dport ++ (wire32 p.seq ++
    (wire32 p.ack ++ ([0x50, p.flags] ++ wire16 p.rwnd)))))
  sum : word16 packet (tcpAt + 16) = tcpChecksumAt packet tcpAt
  data : HasBytes packet (tcpAt + 20) p.data

end Model

section Receiving

variable {p : Segment} {packet packet' : ℕ → UInt8}

theorem Holds.ipHdrSizeOf_eq (h : Holds p packet) : ipHdrSizeOf packet = 20 := by
  rw [ipHdrSizeOf, h.first]
  rfl

theorem Holds.ipTotLen_eq (h : Holds p packet) :
    ipTotLen packet = .ofNat (40 + p.data.length) := ntohs_of_hasBytes h.totLen

theorem Holds.toNat_ipTotLen (h : Holds p packet) (hlen : p.data.length ≤ 65495) :
    (ipTotLen packet).toNat = 40 + p.data.length := by
  rw [h.ipTotLen_eq, UInt16.toNat_ofNat_of_lt']
  show 40 + p.data.length < 65536
  omega

theorem Holds.ipDaddr_eq (h : Holds p packet) : ipDaddr packet = p.daddr :=
  ntohl_of_hasBytes (hasBytes_append.mp h.addrs).2

theorem bytesFrom_of_hasBytes {i : ℕ} {bytes : List UInt8} (h : HasBytes packet i bytes) :
    bytesFrom packet i bytes.length = bytes := by
  apply List.ext_getElem
  · simp [bytesFrom]
  · intro k hk hk'
    simp [bytesFrom, h k hk', hk']

/-- The two fields that the receiver does not look at any more may be any. -/
theorem Holds.tcpHdrAt_eq (h : Holds p packet) : ∃ sum urp,
    tcpHdrAt packet tcpAt = { tcpHdrOf p with checksum := sum, urp := urp } := by
  obtain ⟨hsport, hrest⟩ := hasBytes_append.mp h.header
  obtain ⟨hdport, hrest⟩ := hasBytes_append.mp hrest
  obtain ⟨hseq, hrest⟩ := hasBytes_append.mp hrest
  obtain ⟨hack, hrest⟩ := hasBytes_append.mp hrest
  obtain ⟨hflags, hrwnd⟩ := hasBytes_append.mp hrest
  have hoff : packet (tcpAt + 12) = 0x50 := hflags 0 (show 0 < 2 by simp)
  have hflag : packet (tcpAt + 13) = p.flags := hflags 1 (show 1 < 2 by simp)
  have hsport' : ntohs (word16 packet tcpAt) = p.sport := ntohs_of_hasBytes hsport
  have hdport' : ntohs (word16 packet (tcpAt + 2)) = p.dport := ntohs_of_hasBytes hdport
  have hseq' : ntohl (word32 packet (tcpAt + 4)) = p.seq := ntohl_of_hasBytes hseq
  have hack' : ntohl (word32 packet (tcpAt + 8)) = p.ack := ntohl_of_hasBytes hack
  have hrwnd' : ntohs (word16 packet (tcpAt + 14)) = p.rwnd := ntohs_of_hasBytes hrwnd
  refine ⟨word16 packet (tcpAt + 16), ntohs (word16 packet (tcpAt + 18)), ?_⟩
  rw [tcpHdrAt, tcpHdrOf, hsport', hdport', hseq', hack', hoff, hflag, hrwnd']
  rfl

theorem tcpCbInit_eq_arrival {ip : IpHdr} (hsaddr : ip.saddr = p.saddr)
    (hdaddr : ip.daddr = p.daddr) (hihl : ip.ihl = 5)
    (htotLen : ip.totLen = .ofNat (40 + p.data.length)) (sum urp id : UInt16) :
    tcpCbInit ip { tcpHdrOf p with checksum := sum, urp := urp } p.data = arrival p id := by
  simp only [tcpCbInit, tcpSeqEnd, ipHdrSize, hsaddr, hdaddr, hihl, htotLen]
  rfl

/-- The segment is taken as it was sent. -/
theorem Holds.tcpPacketCb_eq (h : Holds p packet) (hlen : p.data.length ≤ 65495)
    (id : UInt16) : tcpPacketCb packet tcpAt = some (arrival p id) := by
  have hdata : bytesFrom packet (tcpAt + 20)
      ((ipTotLen packet).toNat - ipHdrSizeOf packet - 20) = p.data := by
    rw [h.toNat_ipTotLen hlen, h.ipHdrSizeOf_eq,
      show 40 + p.data.length - 20 - 20 = p.data.length by omega]
    exact bytesFrom_of_hasBytes h.data
  have hihl : (ipHdrAt packet).ihl = 5 := by
    show packet etherHdrSize % 16 = 5
    rw [h.first]
    rfl
  obtain ⟨sum, urp, htcp⟩ := h.tcpHdrAt_eq
  rw [tcpPacketCb, if_neg (not_not.mpr h.sum.symm), hdata, htcp,
    tcpCbInit_eq_arrival (ntohl_of_hasBytes (hasBytes_append.mp h.addrs).1) h.ipDaddr_eq hihl
      h.ipTotLen_eq sum urp id]

/-- `handle_ip_packet` gives the segment to TCP at the interface with its address. -/
theorem Holds.handleIpTcp_eq (h : Holds p packet) (hlen : p.data.length ≤ 65495) (id : UInt16)
    {iface : IfaceInfo} (hip : iface.ip = p.daddr) :
    handleIpTcp iface packet = some (arrival p id) := by
  rw [handleIpTcp, if_pos ⟨h.ipDaddr_eq.trans hip.symm, h.protocol⟩, h.ipHdrSizeOf_eq]
  exact h.tcpPacketCb_eq hlen id

end Receiving

section Passing

variable {p : Segment} {packet packet' out : ℕ → UInt8} {len : ℕ}

/-- Of the bytes behind the Ethernet header only the TTL and the checksum of the IP header may
differ. -/
def OnlyHop (len : ℕ) (packet packet' : ℕ → UInt8) : Prop :=
  ∀ i, etherHdrSize ≤ i → i < len → i ≠ etherHdrSize + 8 → i ≠ etherHdrSize + 10 →
    i ≠ etherHdrSize + 11 → packet' i = packet i

theorem OverLink.onlyHop (h : OverLink len packet packet') : OnlyHop len packet packet' :=
  fun i hi hlt _ _ _ => h i hi hlt

theorem overLink_memcpy (memory packet : ℕ → UInt8) :
    OverLink len packet (memcpy memory 0 packet len) := by
  intro i _ hlt
  rw [memcpy, if_pos ⟨Nat.zero_le i, by omega⟩, Nat.sub_zero]

theorem ipTtl_overLink {n : ℕ} (h : OverLink (54 + n) packet packet') :
    ipTtl packet' = ipTtl packet := h (etherHdrSize + 8) (by decide) (show 22 < _ by omega)

theorem OnlyHop.trans {packet'' : ℕ → UInt8} (h : OnlyHop len packet packet')
    (h' : OnlyHop len packet' packet'') : OnlyHop len packet packet'' :=
  fun i hi hlt h₁ h₂ h₃ => (h' i hi hlt h₁ h₂ h₃).trans (h i hi hlt h₁ h₂ h₃)

/-- Routers store the sum in its two bytes. -/
theorem onlyHop_storeIpChecksum (len : ℕ) (packet : ℕ → UInt8) :
    OnlyHop len packet (storeIpChecksum packet) := by
  intro i _ _ _ hsum hsum'
  rw [storeIpChecksum, writeBytes_of_not]
  show i < etherHdrSize + 10 ∨ etherHdrSize + 10 + 2 ≤ i
  omega

theorem onlyHop_forwardedHeader (len : ℕ) (packet : ℕ → UInt8) :
    OnlyHop len packet (forwardedHeader packet) := by
  intro i _ _ httl hsum hsum'
  rw [forwardedHeader, writeBytes_of_not, decrementTtl, writeBytes_of_not]
  · show i < etherHdrSize + 8 ∨ etherHdrSize + 8 + 1 ≤ i
    omega
  · show i < etherHdrSize + 10 ∨ etherHdrSize + 10 + 2 ≤ i
    omega

theorem OnlyHop.hasBytes (h : OnlyHop len packet packet') {i : ℕ} {bytes : List UInt8}
    (hbytes : HasBytes packet i bytes) (hi : 14 ≤ i) (hend : i + bytes.length ≤ len)
    (hapart : i + bytes.length ≤ 22 ∨ 26 ≤ i) : HasBytes packet' i bytes := by
  apply hbytes.congr
  intro k hk hlt
  apply h k (hi.trans hk) (by omega) <;> simp only [etherHdrSize] <;> omega

/-- The checksum is of bytes that stay, if those of the segment do. -/
theorem tcpChecksumAt_congr (hhdr : OnlyHop 34 packet packet')
    (htcp : ∀ k < (ipTotLen packet - .ofNat (ipHdrSizeOf packet)).toNat,
      writeBytes packet' (tcpAt + 16) [0, 0] (tcpAt + k) =
        writeBytes packet (tcpAt + 16) [0, 0] (tcpAt + k)) :
    tcpChecksumAt packet' tcpAt = tcpChecksumAt packet tcpAt := by
  have hbyte (i : ℕ) (hi : 14 ≤ i) (hlt : i < 34) (hapart : i < 22 ∨ i = 23 ∨ 26 ≤ i) :
      packet' i = packet i := by
    apply hhdr i hi hlt <;> simp only [etherHdrSize] <;> omega
  have htot : ipTotLen packet' = ipTotLen packet := by
    simp only [ipTotLen, word16, hbyte (etherHdrSize + 2) (by decide) (by decide) (by decide),
      hbyte (etherHdrSize + 2 + 1) (by decide) (by decide) (by decide)]
  have hhdrSize : ipHdrSizeOf packet' = ipHdrSizeOf packet := by
    rw [ipHdrSizeOf, hbyte etherHdrSize (by decide) (by decide) (by decide), ipHdrSizeOf]
  have hword (i : ℕ) (hi : 26 ≤ i) (hlt : i + 4 ≤ 34) : word32 packet' i = word32 packet i := by
    simp only [word32, hbyte i (by omega) (by omega) (by omega),
      hbyte (i + 1) (by omega) (by omega) (by omega),
      hbyte (i + 2) (by omega) (by omega) (by omega),
      hbyte (i + 3) (by omega) (by omega) (by omega)]
  have hbytes : (List.range (ipTotLen packet - .ofNat (ipHdrSizeOf packet)).toNat).map
      (fun k => writeBytes packet' (tcpAt + 16) [0, 0] (tcpAt + k)) =
      (List.range (ipTotLen packet - .ofNat (ipHdrSizeOf packet)).toNat).map
        (fun k => writeBytes packet (tcpAt + 16) [0, 0] (tcpAt + k)) :=
    List.map_congr_left fun k hk => htcp k (List.mem_range.mp hk)
  simp only [tcpChecksumAt, htot, hhdrSize, hbytes,
    hword (etherHdrSize + 12) (by decide) (by decide),
    hword (etherHdrSize + 16) (by decide) (by decide),
    hbyte (etherHdrSize + 9) (by decide) (by decide) (by decide)]

theorem toNat_tcpLen {n : ℕ} (hn : n ≤ 65495) :
    ((UInt16.ofNat (40 + n) : UInt16) - .ofNat 20).toNat = 20 + n := by
  have htot : (UInt16.ofNat (40 + n)).toNat = 40 + n :=
    UInt16.toNat_ofNat_of_lt' (show 40 + n < 65536 by omega)
  have hhdr : (UInt16.ofNat 20).toNat = 20 := rfl
  rw [UInt16.toNat_sub, htot, hhdr]
  omega

/-- Routers leave the segment as it is. -/
theorem Holds.of_onlyHop (h : Holds p packet) (hlen : p.data.length ≤ 65495)
    (hsame : OnlyHop (54 + p.data.length) packet packet') : Holds p packet' := by
  have hhdr : OnlyHop 34 packet packet' := fun i hi hlt => hsame i hi (by omega)
  have hsegment (i : ℕ) (hi : 34 ≤ i) (hlt : i < 54 + p.data.length) : packet' i = packet i := by
    apply hsame i (by simp only [etherHdrSize]; omega) hlt <;> simp only [etherHdrSize] <;> omega
  have hsum : tcpChecksumAt packet' tcpAt = tcpChecksumAt packet tcpAt := by
    apply tcpChecksumAt_congr hhdr
    intro k hk
    rw [h.ipTotLen_eq, h.ipHdrSizeOf_eq, toNat_tcpLen hlen] at hk
    have hbyte : packet' (tcpAt + k) = packet (tcpAt + k) :=
      hsegment (34 + k) (by omega) (by omega)
    rw [writeBytes, writeBytes, hbyte]
  constructor
  · rw [hhdr etherHdrSize (by simp) (by decide) (by decide) (by decide) (by decide), h.first]
  · exact hhdr.hasBytes h.totLen (by decide) (show 18 ≤ 34 by simp) (.inl (show 18 ≤ 22 by simp))
  · rw [hhdr (etherHdrSize + 9) (by decide) (by decide) (by decide) (by decide) (by decide),
      h.protocol]
  · exact hhdr.hasBytes h.addrs (by decide) (show 34 ≤ 34 by simp) (.inr (by decide))
  · exact hsame.hasBytes h.header (by decide) (show 50 ≤ 54 + p.data.length by omega)
      (.inr (by decide))
  · rw [hsum, ← h.sum, word16, word16, hsegment (tcpAt + 16) (by decide) (show 50 < _ by omega),
      hsegment (tcpAt + 16 + 1) (by decide) (show 51 < _ by omega)]
  · exact hsame.hasBytes h.data (by decide) (show 54 + _ ≤ _ by omega) (.inr (by decide))

end Passing

section Sending

variable {p : Segment} {packet : ℕ → UInt8} {id : UInt16}

/-- A checksum that has just been stored is that of the segment. -/
theorem sum_storeTcpChecksum (packet : ℕ → UInt8) :
    word16 (storeTcpChecksum packet) (tcpAt + 16) =
      tcpChecksumAt (storeTcpChecksum packet) tcpAt := by
  rw [storeTcpChecksum, word16_of_hasBytes (hasBytes_writeBytes _ _ _)]
  symm
  apply tcpChecksumAt_congr
  · intro i _ hlt _ _ _
    exact writeBytes_of_not (.inl (show i < 50 by omega))
  · intro k _
    rw [Router.writeBytes_writeBytes _ _ (by rfl)]

theorem holds_storeTcpChecksum
    (hip : HasBytes packet etherHdrSize
      (ipInitHdrBytes p.saddr p.daddr (.ofNat (40 + p.data.length)) ipprotoTcp id))
    (htcp : HasBytes packet tcpAt (tcpBytes (tcpHdrOf p)))
    (hdata : HasBytes packet (tcpAt + 20) p.data) : Holds p (storeTcpChecksum packet) := by
  have hstore {i : ℕ} {bytes : List UInt8} (h : HasBytes packet i bytes)
      (hapart : i + bytes.length ≤ 50 ∨ 52 ≤ i) : HasBytes (storeTcpChecksum packet) i bytes :=
    h.writeBytes hapart
  simp only [ipInitHdrBytes, ipBytes, List.append_assoc, hasBytes_append] at hip
  obtain ⟨hfirst, htot, -, -, hproto, -, hsaddr, hdaddr⟩ := hip
  have hheader : HasBytes packet tcpAt (wire16 p.sport ++ (wire16 p.dport ++ (wire32 p.seq ++
      (wire32 p.ack ++ ([0x50, p.flags] ++ wire16 p.rwnd))))) := by
    have hsplit : tcpBytes (tcpHdrOf p) = (wire16 p.sport ++ (wire16 p.dport ++ (wire32 p.seq ++
        (wire32 p.ack ++ ([0x50, p.flags] ++ wire16 p.rwnd))))) ++ [0, 0, 0, 0] := by
      simp [tcpBytes, tcpHdrOf, wire16, wire32, bytes16, bytes32, htons]
    rw [hsplit, hasBytes_append] at htcp
    exact htcp.1
  constructor
  · exact hstore hfirst (.inl (show 16 ≤ 50 by simp)) 0 (show 0 < 2 by simp)
  · exact hstore htot (.inl (show 18 ≤ 50 by simp))
  · exact hstore hproto (.inl (show 24 ≤ 50 by simp)) 1 (show 1 < 2 by simp)
  · exact hstore (hasBytes_append.mpr ⟨hsaddr, hdaddr⟩) (.inl (show 34 ≤ 50 by simp))
  · exact hstore hheader (.inl (show 50 ≤ 50 by simp))
  · exact sum_storeTcpChecksum packet
  · exact hstore hdata (.inr (show 52 ≤ 54 by simp))

/-- What a socket sends is taken by a receiver as it is. -/
theorem SentBytes.holds {tsk : TcpSock} (h : SentBytes tsk p packet)
    (hlen : p.data.length ≤ 65495) : Holds p packet := by
  induction h with
  | data memory data id =>
    have hholds : Holds (dataPacket tsk data) (storeTcpChecksum (ipInitHdr
        (tcpInitHdr (writeBytes memory (tcpAt + 20) data) (dataPacket tsk data))
        (dataPacket tsk data) id)) := by
      apply holds_storeTcpChecksum
      · exact hasBytes_writeBytes _ _ _
      · exact (hasBytes_writeBytes _ _ _).writeBytes (.inr (show 34 ≤ 34 by simp))
      · exact ((hasBytes_writeBytes _ _ _).writeBytes (.inr (show 54 ≤ 54 by simp))).writeBytes
          (.inr (show 34 ≤ 54 by simp))
    exact hholds.of_onlyHop hlen (onlyHop_storeIpChecksum _ _)
  | control memory flags id =>
    apply holds_storeTcpChecksum
    · exact (hasBytes_writeBytes _ _ _).writeBytes (.inl (show 34 ≤ 34 by simp))
    · exact hasBytes_writeBytes _ _ _
    · exact fun k hk => absurd hk (Nat.not_lt_zero k)
  | again memory h ih => exact (ih hlen).of_onlyHop hlen (overLink_memcpy memory _).onlyHop

theorem ipTtl_writeBytes {i : ℕ} {bytes : List UInt8} (h : i + bytes.length ≤ 22 ∨ 23 ≤ i) :
    ipTtl (writeBytes packet i bytes) = ipTtl packet := by
  rw [ipTtl, writeBytes_of_not (show etherHdrSize + 8 < i ∨ i + bytes.length ≤ etherHdrSize + 8 by
    simp only [etherHdrSize]; omega), ipTtl]

theorem ipTtl_ipInitHdr (packet : ℕ → UInt8) (p : Segment) (id : UInt16) :
    ipTtl (ipInitHdr packet p id) = 64 :=
  hasBytes_writeBytes packet etherHdrSize (ipInitHdrBytes _ _ _ _ id) 8 (show 8 < 20 by simp)

/-- Packets begin with `DEFAULT_TTL`. -/
theorem SentBytes.ipTtl_eq {tsk : TcpSock} (h : SentBytes tsk p packet) : ipTtl packet = 64 := by
  induction h with
  | data memory data id =>
    rw [tcpSendPacketBytes, storeIpChecksum, ipTtl_writeBytes (.inr (by decide)), storeTcpChecksum,
      ipTtl_writeBytes (.inr (by decide)), ipTtl_ipInitHdr]
  | control memory flags id =>
    rw [tcpSendControlPacketBytes, storeTcpChecksum, ipTtl_writeBytes (.inr (by decide)),
      tcpInitHdr, ipTtl_writeBytes (.inr (by decide)), ipTtl_ipInitHdr]
  | again memory h ih => exact (ipTtl_overLink (overLink_memcpy memory _)).trans ih

end Sending

section Arriving

variable {p : Segment} {sent packet out : ℕ → UInt8} {len n : ℕ}
  {rtable : List (RtEntry IfaceInfo)} {iface : IfaceInfo}

/-- A router sends a packet on with one less, while that is not none. -/
theorem forward_iff : handleIpPacket rtable iface packet = .forward out ↔
    ipDaddr packet ≠ iface.ip ∧ 1 < ipTtl packet ∧
      (longestPrefixMatch rtable (ipDaddr packet)).isSome ∧ out = forwardedHeader packet := by
  by_cases hip : ipDaddr packet = iface.ip
  · simp only [handleIpPacket, hip, if_true, ne_eq, not_true_eq_false, false_and, iff_false]
    split_ifs <;> simp
  · by_cases httl : ipTtl packet ≤ 1
    · simp [handleIpPacket, ipForwardPacket, hip, httl, UInt8.not_lt.mpr httl]
    · cases hmatch : longestPrefixMatch rtable (ipDaddr packet) with
      | none => simp [handleIpPacket, ipForwardPacket, hip, httl, hmatch]
      | some entry =>
        simp [handleIpPacket, ipForwardPacket, hip, httl, hmatch, UInt8.not_le.mp httl, eq_comm]

theorem ipTtl_forwardedHeader : ipTtl (forwardedHeader packet) = ipTtl packet - 1 := by
  rw [forwardedHeader, ipTtl_writeBytes (.inr (by decide))]
  rfl

/-- What holds of a packet after so many routers. -/
structure Passed (p : Segment) (n : ℕ) (packet : ℕ → UInt8) : Prop where
  lt : n < 64
  ttl : (ipTtl packet).toNat = 64 - n
  holds : Holds p packet

theorem Carried.passed {tsk : TcpSock} (hsent : SentBytes tsk p sent)
    (hlen : p.data.length ≤ 65495) (h : Carried (54 + p.data.length) sent n packet) :
    Passed p n packet := by
  induction h with
  | first hlink =>
    refine ⟨by simp, ?_, (hsent.holds hlen).of_onlyHop hlen hlink.onlyHop⟩
    rw [ipTtl_overLink hlink, hsent.ipTtl_eq]
    rfl
  | @hop n packet out packet' rtable iface h hforward hlink ih =>
    obtain ⟨-, hone, -, rfl⟩ := forward_iff.mp hforward
    have hlt : 1 < (ipTtl packet).toNat := hone
    have hn := ih.ttl
    refine ⟨by omega, ?_, ih.holds.of_onlyHop hlen
      ((onlyHop_forwardedHeader _ packet).trans hlink.onlyHop)⟩
    have hpos : 1 ≤ ipTtl packet := UInt8.le_iff_toNat_le.mpr hlt.le
    rw [ipTtl_overLink hlink, ipTtl_forwardedHeader, UInt8.toNat_sub_of_le _ _ hpos, hn]
    show 64 - n - 1 = 64 - (n + 1)
    omega

/-- A router without the address sends the packet on, or reports it when its TTL is spent. -/
theorem Passed.handleIpPacket_eq (h : Passed p n packet) (hip : iface.ip ≠ p.daddr)
    (hroute : (longestPrefixMatch rtable p.daddr).isSome) :
    handleIpPacket rtable iface packet =
      if n = 63 then .icmp ⟨packet, icmpTimeExceeded, icmpExcTtl⟩
      else .forward (forwardedHeader packet) := by
  have hdaddr : ipDaddr packet = p.daddr := h.holds.ipDaddr_eq
  have hlt := h.lt
  have httl := h.ttl
  split_ifs with hlast
  · have hone : ipTtl packet ≤ 1 := UInt8.le_iff_toNat_le.mpr (show _ ≤ 1 by omega)
    rw [handleIpPacket, if_neg (hdaddr.trans_ne hip.symm), ipForwardPacket, if_pos hone]
  · apply forward_iff.mpr
    rw [hdaddr]
    exact ⟨hip.symm, UInt8.lt_iff_toNat_lt.mpr (show 1 < _ by omega), hroute, rfl⟩

/-- A segment that has passed any routers is handled by the host with its address as it was sent,
and routers send it on until the last of 64. -/
theorem segment_arrives {tsk : TcpSock} (hsent : SentBytes tsk p sent)
    (hlen : p.data.length ≤ 65495) (hcarried : Carried (54 + p.data.length) sent n packet) :
    n ≤ 63 ∧ ∀ iface : IfaceInfo,
      (iface.ip = p.daddr → ∀ id, handleIpTcp iface packet = some (arrival p id)) ∧
      (iface.ip ≠ p.daddr → ∀ rtable : List (RtEntry IfaceInfo),
        (longestPrefixMatch rtable p.daddr).isSome → handleIpPacket rtable iface packet =
          if n = 63 then .icmp ⟨packet, icmpTimeExceeded, icmpExcTtl⟩
          else .forward (forwardedHeader packet)) := by
  have hpassed := hcarried.passed hsent hlen
  have hlt := hpassed.lt
  refine ⟨by omega, fun iface => ⟨fun hip id => ?_, fun hip rtable hroute => ?_⟩⟩
  · exact hpassed.holds.handleIpTcp_eq hlen id hip
  · exact hpassed.handleIpPacket_eq hip hroute

def wireSock : TcpSock :=
  { allocTcpSock with skSip := 0x0a000101, skDip := 0x0a000216, skSport := 80, skDport := 4096 }

def wireIface : IfaceInfo := ⟨1, Vector.replicate 6 0, 0x0a000101⟩

def wireRtable : List (RtEntry IfaceInfo) := [⟨0x0a000200, 0xffffff00, 0, wireIface⟩]

def wireSent : ℕ → UInt8 := tcpSendPacketBytes (fun _ => 0) wireSock [104, 105] 7

theorem segment_arrives_oneRouter :
    handleIpTcp ⟨2, Vector.replicate 6 0, 0x0a000216⟩ (forwardedHeader wireSent) =
      some (arrival (dataPacket wireSock [104, 105]) 0) := by
  have hsent : SentBytes wireSock (dataPacket wireSock [104, 105]) wireSent := .data _ _ _
  have hforward : handleIpPacket wireRtable wireIface wireSent =
      .forward (forwardedHeader wireSent) := by
    apply forward_iff.mpr
    refine ⟨by decide, ?_, ?_, rfl⟩
    · rw [hsent.ipTtl_eq]
      decide
    · rw [(hsent.holds (by decide)).ipDaddr_eq]
      decide
  have hcarried : Carried 56 wireSent 1 (forwardedHeader wireSent) :=
    .hop wireRtable wireIface (.first fun _ _ _ => rfl) hforward fun _ _ _ => rfl
  exact ((segment_arrives hsent (by decide) hcarried).2 _).1 rfl 0

end Arriving

end NetworkLab.Tcp
