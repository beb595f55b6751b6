import NetworkLab.ChecksumVersions
import NetworkLab.MospfWire
import NetworkLab.RouterTable

/-!
# IP packets in the first router

`ip.c`, `ip_base.c` and `icmp.c` on the bytes of a frame, up to the call that looks up the next
hop in the ARP cache. A lookup in the routing table that finds nothing is a null pointer where
the router sends a packet of its own, which is not tested.
-/
namespace NetworkLab.Router
open Mospf (etherHdrSize ipBaseHdrSize ipHdrSizeOf writeBytes memcpy HasBytes)

section Model

/-- The fields of `iface_info_t` that are used. -/
structure IfaceInfo where
  index : ℤ
  mac : Vector UInt8 6
  ip : UInt32
  deriving DecidableEq

def icmpHdrSize : ℕ := 8

def icmpCopiedDataLen : ℕ := 8

def icmpEchoRequest : UInt8 := 8

def icmpEchoReply : UInt8 := 0

def icmpDestUnreach : UInt8 := 3

def icmpTimeExceeded : UInt8 := 11

def icmpNetUnreach : UInt8 := 0

def icmpHostUnreach : UInt8 := 1

def icmpExcTtl : UInt8 := 0

def ipprotoIcmp : UInt8 := 1

def ipTotLen (packet : ℕ → UInt8) : UInt16 := ntohs (word16 packet (etherHdrSize + 2))

def ipTtl (packet : ℕ → UInt8) : UInt8 := packet (etherHdrSize + 8)

def ipSaddr (packet : ℕ → UInt8) : UInt32 := ntohl (word32 packet (etherHdrSize + 12))

def ipDaddr (packet : ℕ → UInt8) : UInt32 := ntohl (word32 packet (etherHdrSize + 16))

/-- The checksum of `n` bytes from `hdr` on, for which the field in them is zero. -/
def checksumWithout (packet : ℕ → UInt8) (hdr n field : ℕ) : UInt16 :=
  checksum (fun p => writeBytes packet (hdr + field) [0, 0] (hdr + p)) n 0

/-- `ip_checksum`. -/
def ipChecksum (packet : ℕ → UInt8) : UInt16 :=
  checksumWithout packet etherHdrSize (ipHdrSizeOf packet) 10

/-- `icmp_checksum`. -/
def icmpChecksum (packet : ℕ → UInt8) (icmp len : ℕ) : UInt16 := checksumWithout packet icmp len 2

/-- `hdr->checksum = ip_checksum(hdr)`. -/
def storeIpChecksum (packet : ℕ → UInt8) : ℕ → UInt8 :=
  writeBytes packet (etherHdrSize + 10) (bytes16 (ipChecksum packet))

/-- `ip_init_hdr`; `id` is a random number. -/
def ipInitHdr (packet : ℕ → UInt8) (saddr daddr : UInt32) (len : UInt16) (proto : UInt8)
    (id : UInt16) : ℕ → UInt8 :=
  storeIpChecksum
    (writeBytes packet etherHdrSize
      (ipBytes ⟨4, 5, 0, len, id, 0x4000, 64, proto, 0, saddr, daddr⟩))

/-- What `iface_send_packet_by_arp` is called with. -/
structure ArpSend where
  iface : IfaceInfo
  dstIp : UInt32
  packet : ℕ → UInt8
  len : ℤ

/-- The next hop of an entry. -/
def nextHop (entry : RtEntry IfaceInfo) (dst : UInt32) : UInt32 :=
  if entry.gw = 0 then dst else entry.gw

/-- `ip_send_packet`; `none` where the entry is a null pointer. -/
def ipSendPacket (rtable : List (RtEntry IfaceInfo)) (packet : ℕ → UInt8) (len : ℤ) :
    Option ArpSend := do
  let dst := ipDaddr packet
  let entry ← longestPrefixMatch rtable dst
  let packet := writeBytes packet (etherHdrSize + 12) (wire32 entry.iface.ip)
  some ⟨entry.iface, nextHop entry dst, storeIpChecksum packet, len⟩

/-- The ICMP header of a packet that the router makes. -/
def icmpAt : ℕ := etherHdrSize + ipBaseHdrSize

/-- `out_len`. -/
def icmpOutLen (inPkt : ℕ → UInt8) (len : ℤ) (type : UInt8) : ℤ :=
  if type = icmpEchoReply then len - ipHdrSizeOf inPkt + ipBaseHdrSize
  else etherHdrSize + ipBaseHdrSize + icmpHdrSize + ipHdrSizeOf inPkt + icmpCopiedDataLen

/-- The packet that `icmp_send_packet` makes in the `memory` that `malloc` has given; `none` where
it copies a negative number of bytes. -/
def icmpPacket (memory inPkt : ℕ → UInt8) (len : ℤ) (type code : UInt8) (id : UInt16) :
    Option (ℕ → UInt8) := do
  let outLen := icmpOutLen inPkt len type
  let out := ipInitHdr memory 0 (ipSaddr inPkt) (UInt16.ofInt (outLen - etherHdrSize))
    ipprotoIcmp id
  let out := writeBytes out icmpAt [type, code]
  let out ←
    if type = icmpEchoReply then
      let restOffset := etherHdrSize + ipHdrSizeOf inPkt + 4
      if restOffset ≤ len then
        some (memcpy out (icmpAt + 4) (fun p => inPkt (restOffset + p)) (len - restOffset).toNat)
      else none
    else
      some (memcpy (writeBytes out (icmpAt + 4) [0, 0, 0, 0]) (icmpAt + icmpHdrSize)
        (fun p => inPkt (etherHdrSize + p)) (ipHdrSizeOf inPkt + icmpCopiedDataLen))
  some (writeBytes out (icmpAt + 2)
    (bytes16 (icmpChecksum out icmpAt (outLen - icmpAt).toNat)))

/-- `icmp_send_packet`. -/
def icmpSendPacket (rtable : List (RtEntry IfaceInfo)) (memory inPkt : ℕ → UInt8) (len : ℤ)
    (type code : UInt8) (id : UInt16) : Option ArpSend := do
  let out ← icmpPacket memory inPkt len type code id
  ipSendPacket rtable out (icmpOutLen inPkt len type)

/-- What `handle_ip_packet` does with a packet: an ICMP packet for it, `none` where making that
fails, or the packet itself goes on. -/
inductive IpResult
  | icmp (send : Option ArpSend)
  | forward (send : ArpSend)
  | drop

/-- `(hdr->ttl)--`. -/
def decrementTtl (packet : ℕ → UInt8) : ℕ → UInt8 :=
  writeBytes packet (etherHdrSize + 8) [ipTtl packet - 1]

/-- `handle_ip_packet`. -/
def handleIpPacket (rtable : List (RtEntry IfaceInfo)) (iface : IfaceInfo)
    (memory packet : ℕ → UInt8) (len : ℤ) (id : UInt16) : IpResult :=
  let dip := ipDaddr packet
  if iface.ip = dip then
    if packet (etherHdrSize + ipHdrSizeOf packet) = icmpEchoRequest then
      .icmp (icmpSendPacket rtable memory packet len icmpEchoReply 0 id)
    else .drop
  else
    match longestPrefixMatch rtable dip with
    | none => .icmp (icmpSendPacket rtable memory packet len icmpDestUnreach icmpNetUnreach id)
    | some entry =>
      let packet := decrementTtl packet
      if ipTtl packet = 0 then
        .icmp (icmpSendPacket rtable memory packet len icmpTimeExceeded icmpExcTtl id)
      else .forward ⟨entry.iface, nextHop entry dip, storeIpChecksum packet, len⟩

end Model

section Checksums

variable {packet packet' : ℕ → UInt8} {hdr n field : ℕ}

/-- The field holds the complement of the one's-complement sum of the bytes, itself taken as
zero. -/
def ChecksumRight (packet : ℕ → UInt8) (hdr n field : ℕ) : Prop :=
  (word16 packet (hdr + field)).toNat =
    65535 - onesSum (fun p => writeBytes packet (hdr + field) [0, 0] (hdr + p)) n

theorem writeBytes_writeBytes (packet : ℕ → UInt8) (i : ℕ) {bytes bytes' : List UInt8}
    (h : bytes.length = bytes'.length) :
    writeBytes (writeBytes packet i bytes) i bytes' = writeBytes packet i bytes' := by
  funext p
  unfold writeBytes
  split_ifs with h₁ h₂
  · rfl
  · exact absurd (h ▸ h₂) h₁
  · rfl

theorem writeBytes_of_not {i p : ℕ} {bytes : List UInt8} (h : p < i ∨ i + bytes.length ≤ p) :
    writeBytes packet i bytes p = packet p := by
  rw [writeBytes, if_neg (by omega)]

theorem toNat_checksumWithout (hn : n ≤ 65535) : (checksumWithout packet hdr n field).toNat =
    65535 - onesSum (fun p => writeBytes packet (hdr + field) [0, 0] (hdr + p)) n := by
  have hle := sum_halfWords_le (fun p => writeBytes packet (hdr + field) [0, 0] (hdr + p)) n
  rw [checksumWithout, toNat_checksum_router, UInt32.toNat_zero, Nat.zero_add,
    Nat.mod_eq_of_lt (by omega), onesSum_eq]

/-- A checksum that has just been stored is right. -/
theorem checksumRight_store (packet : ℕ → UInt8) (hdr field : ℕ) (hn : n ≤ 65535) :
    ChecksumRight (writeBytes packet (hdr + field) (bytes16 (checksumWithout packet hdr n field)))
      hdr n field := by
  rw [ChecksumRight, Mospf.word16_of_hasBytes (Mospf.hasBytes_writeBytes _ _ _),
    writeBytes_writeBytes _ _ (by rfl)]
  exact toNat_checksumWithout hn

theorem halfWords_congr {buf buf' : ℕ → UInt8} (h : ∀ p < n, buf' p = buf p) :
    halfWords buf' n = halfWords buf n := by
  have hwords : evenWords buf' n = evenWords buf n := by
    refine List.map_congr_left fun i hi => ?_
    have hlt := List.mem_range.mp hi
    rw [word16, word16, h _ (by omega), h _ (by omega)]
  rw [halfWords, halfWords, hwords]
  split_ifs with hodd
  · rw [h _ (by omega)]
  · rfl

/-- The bytes that the checksum covers decide. -/
theorem ChecksumRight.congr (h : ChecksumRight packet hdr n field)
    (hfield : packet' (hdr + field) = packet (hdr + field) ∧
      packet' (hdr + field + 1) = packet (hdr + field + 1))
    (hsame : ∀ p < n, packet' (hdr + p) = packet (hdr + p)) :
    ChecksumRight packet' hdr n field := by
  have hwords : halfWords (fun p => writeBytes packet' (hdr + field) [0, 0] (hdr + p)) n =
      halfWords (fun p => writeBytes packet (hdr + field) [0, 0] (hdr + p)) n := by
    refine halfWords_congr fun p hp => ?_
    simp only [writeBytes]
    split_ifs
    · rfl
    · exact hsame p hp
  rw [ChecksumRight, onesSum, hwords, word16, hfield.1, hfield.2]
  exact h

theorem ipHdrSizeOf_le (packet : ℕ → UInt8) : ipHdrSizeOf packet ≤ 60 := by
  unfold ipHdrSizeOf
  omega

theorem ipHdrSizeOf_congr (h : packet' etherHdrSize = packet etherHdrSize) :
    ipHdrSizeOf packet' = ipHdrSizeOf packet := by rw [ipHdrSizeOf, h, ipHdrSizeOf]

theorem ipHdrSizeOf_storeIpChecksum (packet : ℕ → UInt8) :
    ipHdrSizeOf (storeIpChecksum packet) = ipHdrSizeOf packet :=
  ipHdrSizeOf_congr (writeBytes_of_not (.inl (by decide)))

theorem checksumRight_storeIpChecksum (packet : ℕ → UInt8) :
    ChecksumRight (storeIpChecksum packet) etherHdrSize (ipHdrSizeOf packet) 10 :=
  checksumRight_store packet _ _ ((ipHdrSizeOf_le packet).trans (by decide))

end Checksums

end NetworkLab.Router
