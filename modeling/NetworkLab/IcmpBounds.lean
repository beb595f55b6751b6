import NetworkLab.Checksum
import NetworkLab.RouterIp

/-!
# The bytes that an ICMP packet is made of

`icmp_send_packet` of the last version, with the bytes that it reads from the packet it was given
and those that it writes to the packet it makes. How many it copies is computed from the header
of the packet, never from the length of the frame.
-/
namespace NetworkLab
open Mospf (etherHdrSize ipBaseHdrSize ipHdrSizeOf writeBytes memcpy)
open Router (IfaceInfo icmpHdrSize icmpCopiedDataLen icmpEchoRequest icmpEchoReply icmpDestUnreach
  icmpTimeExceeded icmpNetUnreach icmpHostUnreach icmpExcTtl ipprotoIcmp ipTotLen ipTtl ipSaddr
  ipDaddr icmpAt decrementTtl)

section Model

/-- Bytes that are accessed together. -/
structure Span where
  start : ℕ
  size : ℕ
  deriving DecidableEq

def Span.Within (s : Span) (len : ℕ) : Prop := s.size = 0 ∨ s.start + s.size ≤ len

instance (s : Span) (len : ℕ) : Decidable (s.Within len) := inferInstanceAs (Decidable (_ ∨ _))

/-- The packet that is made, with what has been read and written for it. -/
structure PacketRun where
  out : ℕ → UInt8
  reads : List Span
  writes : List Span

def PacketRun.read (run : PacketRun) (start size : ℕ) : PacketRun :=
  { run with reads := run.reads ++ [⟨start, size⟩] }

def PacketRun.write (run : PacketRun) (start : ℕ) (bytes : List UInt8) : PacketRun :=
  { run with
    out := writeBytes run.out start bytes
    writes := run.writes ++ [⟨start, bytes.length⟩] }

/-- `memcpy` from the packet that was given. -/
def PacketRun.copy (run : PacketRun) (dst : ℕ) (inPkt : ℕ → UInt8) (src size : ℕ) : PacketRun where
  out := memcpy run.out dst (fun p => inPkt (src + p)) size
  reads := run.reads ++ [⟨src, size⟩]
  writes := run.writes ++ [⟨dst, size⟩]

/-- The conversion to `size_t`. -/
def sizeT (n : ℤ) : ℕ := (n % 2 ^ 64).toNat

/-- The checksum of `n` bytes from `hdr` on, without the field in them. -/
def checksumAt (packet : ℕ → UInt8) (hdr n field : ℕ) : UInt16 :=
  checksum ((List.range n).map fun p => writeBytes packet (hdr + field) [0, 0] (hdr + p)) 0

/-- `ip_init_hdr`; `id` is a random number. -/
def ipInitHdrBytes (saddr daddr : UInt32) (len : UInt16) (proto : UInt8) (id : UInt16) :
    List UInt8 :=
  let ip : IpHdr := ⟨4, 5, 0, len, id, 0x4000, 64, proto, 0, saddr, daddr⟩
  ipBytes { ip with checksum := checksum (ipBytes ip) 0 }

/-- `icmp_len`. -/
def icmpLen (inPkt : ℕ → UInt8) (type : UInt8) : ℤ :=
  if type = icmpEchoReply then (ipTotLen inPkt).toNat - ipHdrSizeOf inPkt
  else icmpHdrSize + ipHdrSizeOf inPkt + icmpCopiedDataLen

/-- `out_len`. -/
def outLen (inPkt : ℕ → UInt8) (len : ℕ) (type : UInt8) : ℕ :=
  if type = icmpEchoReply then len
  else etherHdrSize + ipBaseHdrSize + (icmpHdrSize + ipHdrSizeOf inPkt + icmpCopiedDataLen)

/-- `ip_send_packet`, up to `iface_send_packet_by_arp`. -/
def ipSendPacketRun (rtable : List (RtEntry IfaceInfo)) (daddr : UInt32) (run : PacketRun) :
    PacketRun :=
  match longestPrefixMatch rtable daddr with
  | none => run
  | some entry => (run.write 12 [8, 0]).write 6 entry.iface.mac.toList

/-- `icmp_send_packet`; `memory` is what `malloc` has given. -/
def icmpSendPacket (rtable : List (RtEntry IfaceInfo)) (memory inPkt : ℕ → UInt8) (len : ℕ)
    (type code : UInt8) (id : UInt16) : PacketRun :=
  let hdr := ipHdrSizeOf inPkt
  let inIcmp := etherHdrSize + hdr
  let icmpLen := icmpLen inPkt type
  let run : PacketRun := ⟨memory, [], []⟩
  let run := run.read etherHdrSize 1
  let run := if type = icmpEchoReply then run.read (etherHdrSize + 2) 2 else run
  let run := run.write 0 (List.replicate (outLen inPkt len type) 0)
  let run := run.write icmpAt [type]
  let run := run.write (icmpAt + 1) [code]
  let run :=
    if type = icmpEchoReply then
      let run := run.copy (icmpAt + 4) inPkt (inIcmp + 4) 2
      let run := run.copy (icmpAt + 6) inPkt (inIcmp + 6) 2
      run.copy (icmpAt + icmpHdrSize) inPkt (inIcmp + icmpHdrSize) (sizeT (icmpLen - icmpHdrSize))
    else run.copy (icmpAt + icmpHdrSize) inPkt etherHdrSize (sizeT (icmpLen - icmpHdrSize))
  let run := run.write (icmpAt + 2) (bytes16 (checksumAt run.out icmpAt icmpLen.toNat 2))
  let run := run.read (etherHdrSize + 12) 4
  let daddr := ipSaddr inPkt
  let send (saddr : UInt32) (run : PacketRun) : PacketRun :=
    ipSendPacketRun rtable daddr (run.write etherHdrSize
      (ipInitHdrBytes saddr daddr (UInt16.ofInt (ipBaseHdrSize + icmpLen)) ipprotoIcmp id))
  if type = icmpEchoReply then send (ipDaddr inPkt) (run.read (etherHdrSize + 16) 4)
  else
    match longestPrefixMatch rtable daddr with
    | none => run
    | some entry => send entry.iface.ip run

/-- A call of `icmp_send_packet` on a packet. -/
structure IcmpCall where
  packet : ℕ → UInt8
  type : UInt8
  code : UInt8

/-- What becomes of a packet that was received. -/
inductive Handling
  | icmp (call : IcmpCall)
  /-- To the next hop, or into the ARP cache until its address is known. -/
  | forward (packet : ℕ → UInt8)
  | done

/-- The header of a packet that goes on. -/
def forwardedHeader (packet : ℕ → UInt8) : ℕ → UInt8 :=
  let packet := decrementTtl packet
  writeBytes packet (etherHdrSize + 10)
    (bytes16 (checksumAt packet etherHdrSize (ipHdrSizeOf packet) 10))

def ipForwardPacket (rtable : List (RtEntry IfaceInfo)) (ipDst : UInt32) (packet : ℕ → UInt8) :
    Handling :=
  if ipTtl packet ≤ 1 then .icmp ⟨packet, icmpTimeExceeded, icmpExcTtl⟩
  else
    let packet := forwardedHeader packet
    match longestPrefixMatch rtable ipDst with
    | none => .icmp ⟨packet, icmpDestUnreach, icmpNetUnreach⟩
    | some _ => .forward packet

/-- `handle_ip_packet`, without what TCP does. -/
def handleIpPacket (rtable : List (RtEntry IfaceInfo)) (iface : IfaceInfo) (packet : ℕ → UInt8) :
    Handling :=
  let daddr := ipDaddr packet
  if daddr = iface.ip then
    if packet (etherHdrSize + 9) = ipprotoIcmp then
      if packet (etherHdrSize + ipHdrSizeOf packet) = icmpEchoRequest then
        .icmp ⟨packet, icmpEchoReply, 0⟩
      else .done
    else .done
  else ipForwardPacket rtable daddr packet

/-- The calls for a packet that was received. The sweep of the ARP cache reports a packet whose
next hop does not answer. -/
inductive IcmpCalled (rtable : List (RtEntry IfaceInfo)) (iface : IfaceInfo)
    (packet : ℕ → UInt8) : IcmpCall → Prop
  | handled {call : IcmpCall} (h : handleIpPacket rtable iface packet = .icmp call) :
    IcmpCalled rtable iface packet call
  | swept {waiting : ℕ → UInt8} (h : handleIpPacket rtable iface packet = .forward waiting) :
    IcmpCalled rtable iface packet ⟨waiting, icmpDestUnreach, icmpHostUnreach⟩

/-- No byte is read behind the frame, and none written behind the packet that is made. -/
structure PacketRun.Within (run : PacketRun) (len outLen : ℕ) : Prop where
  reads : ∀ s ∈ run.reads, s.Within len
  writes : ∀ s ∈ run.writes, s.Within outLen

/-- All calls for a packet in a frame of `len` bytes stay inside. -/
def IcmpWithin (rtable : List (RtEntry IfaceInfo)) (iface : IfaceInfo) (packet : ℕ → UInt8)
    (len : ℕ) : Prop :=
  ∀ call, IcmpCalled rtable iface packet call → ∀ memory id,
    (icmpSendPacket rtable memory call.packet len call.type call.code id).Within len
      (outLen call.packet len call.type)

/-- A packet with an echo request for the interface. -/
def IsEcho (iface : IfaceInfo) (packet : ℕ → UInt8) : Prop :=
  ipDaddr packet = iface.ip ∧ packet (etherHdrSize + 9) = ipprotoIcmp ∧
    packet (etherHdrSize + ipHdrSizeOf packet) = icmpEchoRequest

instance (iface : IfaceInfo) (packet : ℕ → UInt8) : Decidable (IsEcho iface packet) :=
  inferInstanceAs (Decidable (_ ∧ _ ∧ _))

/-- The ICMP header is in the packet, the packet is in the frame, and a reply with the options
left out and the data kept is no longer than the frame. -/
structure EchoFits (packet : ℕ → UInt8) (len : ℕ) : Prop where
  header : ipHdrSizeOf packet + icmpHdrSize ≤ (ipTotLen packet).toNat
  whole : etherHdrSize + (ipTotLen packet).toNat ≤ len
  reply : icmpAt + (ipTotLen packet).toNat ≤ len + ipHdrSizeOf packet

/-- The source address, and the header with eight more bytes, are in the frame. -/
structure ErrorFits (packet : ℕ → UInt8) (len : ℕ) : Prop where
  saddr : etherHdrSize + 16 ≤ len
  copied : etherHdrSize + ipHdrSizeOf packet + icmpCopiedDataLen ≤ len

end Model

section Runs

variable {rtable : List (RtEntry IfaceInfo)} {memory packet : ℕ → UInt8} {len n : ℕ}
  {type code : UInt8} {id : UInt16} {run : PacketRun}

@[simp] theorem writes_read (start size : ℕ) : (run.read start size).writes = run.writes := rfl

@[simp] theorem writes_write (start : ℕ) (bytes : List UInt8) :
    (run.write start bytes).writes = run.writes ++ [⟨start, bytes.length⟩] := rfl

@[simp] theorem writes_copy (dst src size : ℕ) :
    (run.copy dst packet src size).writes = run.writes ++ [⟨dst, size⟩] := rfl

@[simp] theorem length_ipInitHdrBytes (saddr daddr : UInt32) (len : UInt16) (proto : UInt8) :
    (ipInitHdrBytes saddr daddr len proto id).length = 20 := rfl

@[simp] theorem reads_ipSendPacketRun (daddr : UInt32) :
    (ipSendPacketRun rtable daddr run).reads = run.reads := by
  unfold ipSendPacketRun
  split <;> rfl

/-- `ip_send_packet` writes to the Ethernet header. -/
theorem writes_ipSendPacketRun (rtable : List (RtEntry IfaceInfo)) (daddr : UInt32)
    (run : PacketRun) :
    ∃ spans, (ipSendPacketRun rtable daddr run).writes = run.writes ++ spans ∧
      ∀ s ∈ spans, s.Within etherHdrSize := by
  unfold ipSendPacketRun
  cases longestPrefixMatch rtable daddr with
  | none => exact ⟨[], by simp, by simp⟩
  | some entry =>
    exact ⟨[⟨12, 2⟩, ⟨6, 6⟩], by simp, by decide⟩

theorem Span.Within.mono {s : Span} {m : ℕ} (h : s.Within m) (hle : m ≤ n) : s.Within n :=
  h.imp_right fun hs => hs.trans hle

theorem reads_reply (rtable : List (RtEntry IfaceInfo)) (memory packet : ℕ → UInt8) (len : ℕ)
    (code : UInt8) (id : UInt16) :
    (icmpSendPacket rtable memory packet len icmpEchoReply code id).reads =
    [⟨14, 1⟩, ⟨16, 2⟩, ⟨14 + ipHdrSizeOf packet + 4, 2⟩, ⟨14 + ipHdrSizeOf packet + 6, 2⟩,
      ⟨14 + ipHdrSizeOf packet + 8, sizeT (icmpLen packet icmpEchoReply - 8)⟩, ⟨26, 4⟩,
      ⟨30, 4⟩] := by
  rw [icmpSendPacket]
  simp only [if_true, reads_ipSendPacketRun]
  rfl

theorem writes_reply (rtable : List (RtEntry IfaceInfo)) (memory packet : ℕ → UInt8) (len : ℕ)
    (code : UInt8) (id : UInt16) : ∃ spans, (∀ s ∈ spans, s.Within etherHdrSize) ∧
    (icmpSendPacket rtable memory packet len icmpEchoReply code id).writes =
      [⟨0, len⟩, ⟨34, 1⟩, ⟨35, 1⟩, ⟨38, 2⟩, ⟨40, 2⟩,
        ⟨42, sizeT (icmpLen packet icmpEchoReply - 8)⟩, ⟨36, 2⟩, ⟨14, 20⟩] ++ spans := by
  rw [icmpSendPacket]
  simp only [if_true]
  obtain ⟨spans, hwrites, hspans⟩ := writes_ipSendPacketRun rtable _ _
  refine ⟨spans, hspans, hwrites.trans (congrArg (· ++ spans) ?_)⟩
  simp only [writes_write, writes_read, writes_copy, List.length_replicate,
    length_ipInitHdrBytes]
  rfl

theorem reads_error (rtable : List (RtEntry IfaceInfo)) (memory packet : ℕ → UInt8) (len : ℕ)
    (code : UInt8) (id : UInt16) (h : type ≠ icmpEchoReply) :
    (icmpSendPacket rtable memory packet len type code id).reads =
      [⟨14, 1⟩, ⟨14, sizeT (icmpLen packet type - 8)⟩, ⟨26, 4⟩] := by
  rw [icmpSendPacket]
  simp only [if_neg h]
  cases longestPrefixMatch rtable (ipSaddr packet) with
  | none => rfl
  | some entry => exact reads_ipSendPacketRun _

theorem writes_error (rtable : List (RtEntry IfaceInfo)) (memory packet : ℕ → UInt8) (len : ℕ)
    (code : UInt8) (id : UInt16) (h : type ≠ icmpEchoReply) :
    ∃ spans, (∀ s ∈ spans, s.Within 34) ∧
    (icmpSendPacket rtable memory packet len type code id).writes =
      [⟨0, outLen packet len type⟩, ⟨34, 1⟩, ⟨35, 1⟩, ⟨42, sizeT (icmpLen packet type - 8)⟩,
        ⟨36, 2⟩] ++ spans := by
  rw [icmpSendPacket]
  simp only [if_neg h]
  cases longestPrefixMatch rtable (ipSaddr packet) with
  | none =>
    refine ⟨[], by simp, ?_⟩
    simp only [writes_write, writes_read, writes_copy, List.length_replicate]
    rfl
  | some entry =>
    obtain ⟨spans, hwrites, hspans⟩ := writes_ipSendPacketRun rtable _ _
    refine ⟨⟨14, 20⟩ :: spans, ?_, hwrites.trans ?_⟩
    · exact List.forall_mem_cons.mpr ⟨by decide, fun s hs => (hspans s hs).mono (by decide)⟩
    · simp only [writes_write, writes_read, writes_copy, List.length_replicate,
        length_ipInitHdrBytes]
      rfl

/-- The size of the copy of an echo reply, which wraps around if it is negative. -/
theorem sizeT_reply (packet : ℕ → UInt8) :
    ∃ size : ℕ, sizeT (icmpLen packet icmpEchoReply - 8) = size ∧
    (size : ℤ) = ((ipTotLen packet).toNat - ipHdrSizeOf packet - 8) % 2 ^ 64 := by
  refine ⟨_, rfl, ?_⟩
  rw [icmpLen, if_pos rfl, sizeT]
  exact Int.toNat_of_nonneg (Int.emod_nonneg _ (by decide))

theorem sizeT_error (h : type ≠ icmpEchoReply) :
    sizeT (icmpLen packet type - 8) = ipHdrSizeOf packet + 8 := by
  have hhdr := Router.ipHdrSizeOf_le packet
  rw [icmpLen, if_neg h, sizeT, icmpHdrSize, icmpCopiedDataLen]
  omega

/-- An echo reply stays inside its packets if the request fits. -/
theorem within_reply_iff (hlen : len < 2 ^ 31) :
    (icmpSendPacket rtable memory packet len icmpEchoReply code id).Within len
      (outLen packet len icmpEchoReply) ↔ EchoFits packet len := by
  have hout : outLen packet len icmpEchoReply = len := if_pos rfl
  have htot := (ipTotLen packet).toNat_lt
  have hhdr := Router.ipHdrSizeOf_le packet
  obtain ⟨size, hcopy, hsize⟩ := sizeT_reply packet
  obtain ⟨spans, hspans, hwrites⟩ := writes_reply rtable memory packet len code id
  have hreads := reads_reply rtable memory packet len code id
  rw [hcopy] at hreads hwrites
  rw [hout]
  constructor
  · rintro ⟨hread, hwrite⟩
    rw [hreads] at hread
    rw [hwrites] at hwrite
    have hwrite := (List.forall_mem_append.mp hwrite).1
    simp only [List.forall_mem_cons, Span.Within] at hread hwrite
    have hheader : ipHdrSizeOf packet + 8 ≤ (ipTotLen packet).toNat := by omega
    refine ⟨hheader, ?_, ?_⟩
    · rw [etherHdrSize]
      omega
    · rw [show icmpAt = 34 from rfl]
      omega
  · rintro ⟨hheader, hwhole, hreply⟩
    rw [icmpHdrSize] at hheader
    rw [etherHdrSize] at hwhole
    rw [show icmpAt = 34 from rfl] at hreply
    refine ⟨?_, ?_⟩
    · rw [hreads]
      simp only [List.forall_mem_cons, Span.Within]
      refine ⟨?_, ?_, ?_, ?_, ?_, ?_, ?_, by simp⟩ <;> omega
    · rw [hwrites]
      refine List.forall_mem_append.mpr ⟨?_, fun s hs => (hspans s hs).mono ?_⟩
      · simp only [List.forall_mem_cons, Span.Within]
        refine ⟨?_, ?_, ?_, ?_, ?_, ?_, ?_, ?_, by simp⟩ <;> omega
      · rw [etherHdrSize]
        omega

/-- An error stays inside its packets if what it copies is in the frame. -/
theorem within_error_iff (h : type ≠ icmpEchoReply) :
    (icmpSendPacket rtable memory packet len type code id).Within len (outLen packet len type) ↔
      ErrorFits packet len := by
  have hout : outLen packet len type = 50 + ipHdrSizeOf packet := by
    rw [outLen, if_neg h, etherHdrSize, ipBaseHdrSize, icmpHdrSize, icmpCopiedDataLen]
    omega
  obtain ⟨spans, hspans, hwrites⟩ := writes_error rtable memory packet len code id h
  have hreads := reads_error rtable memory packet len code id h
  rw [sizeT_error h] at hreads hwrites
  rw [hout] at hwrites ⊢
  constructor
  · rintro ⟨hread, -⟩
    rw [hreads] at hread
    simp only [List.forall_mem_cons, Span.Within] at hread
    refine ⟨?_, ?_⟩
    · rw [etherHdrSize]
      omega
    · rw [etherHdrSize, icmpCopiedDataLen]
      omega
  · rintro ⟨hsaddr, hcopied⟩
    rw [etherHdrSize] at hsaddr hcopied
    rw [icmpCopiedDataLen] at hcopied
    refine ⟨?_, ?_⟩
    · rw [hreads]
      simp only [List.forall_mem_cons, Span.Within]
      refine ⟨?_, ?_, ?_, by simp⟩ <;> omega
    · rw [hwrites]
      refine List.forall_mem_append.mpr ⟨?_, fun s hs => (hspans s hs).mono (by omega)⟩
      simp only [List.forall_mem_cons, Span.Within]
      refine ⟨?_, ?_, ?_, ?_, ?_, by simp⟩ <;> omega

end Runs

section Frames

variable {rtable : List (RtEntry IfaceInfo)} {iface : IfaceInfo} {packet packet' : ℕ → UInt8}
  {len : ℕ}

/-- A packet for the interface itself is answered if it is an echo request. -/
theorem icmpCalled_local (rtable : List (RtEntry IfaceInfo)) (h : ipDaddr packet = iface.ip)
    (call : IcmpCall) :
    IcmpCalled rtable iface packet call ↔
      IsEcho iface packet ∧ call = ⟨packet, icmpEchoReply, 0⟩ := by
  constructor
  · rintro (hcall | hcall) <;> simp only [handleIpPacket, if_pos h] at hcall <;>
      split_ifs at hcall with hproto htype
    exact ⟨⟨h, hproto, htype⟩, (Handling.icmp.inj hcall).symm⟩
  · rintro ⟨⟨-, hproto, htype⟩, rfl⟩
    exact .handled (by rw [handleIpPacket, if_pos h, if_pos hproto, if_pos htype])

theorem ipHdrSizeOf_forwardedHeader : ipHdrSizeOf (forwardedHeader packet) = ipHdrSizeOf packet :=
  rfl

/-- The calls for a packet with another address report errors on the same header length. -/
theorem IcmpCalled.error {call : IcmpCall} (hcall : IcmpCalled rtable iface packet call)
    (h : ipDaddr packet ≠ iface.ip) : call.type ≠ icmpEchoReply ∧
      ipHdrSizeOf call.packet = ipHdrSizeOf packet := by
  rcases hcall with hcall | hcall <;>
    simp only [handleIpPacket, if_neg h, ipForwardPacket] at hcall <;> split_ifs at hcall
  · rw [← Handling.icmp.inj hcall]
    exact ⟨show icmpTimeExceeded ≠ icmpEchoReply by decide, rfl⟩
  · cases hfound : longestPrefixMatch rtable (ipDaddr packet) with
    | none =>
      rw [hfound] at hcall
      rw [← Handling.icmp.inj hcall]
      exact ⟨show icmpDestUnreach ≠ icmpEchoReply by decide, ipHdrSizeOf_forwardedHeader⟩
    | some entry => simp [hfound] at hcall
  · cases hfound : longestPrefixMatch rtable (ipDaddr packet) with
    | none => simp [hfound] at hcall
    | some entry =>
      rw [hfound] at hcall
      rw [← Handling.forward.inj hcall]
      exact ⟨show icmpDestUnreach ≠ icmpEchoReply by decide, ipHdrSizeOf_forwardedHeader⟩

/-- Every packet with another address may be reported. -/
theorem exists_icmpCalled (rtable : List (RtEntry IfaceInfo)) (h : ipDaddr packet ≠ iface.ip) :
    ∃ call, IcmpCalled rtable iface packet call := by
  cases hhandle : handleIpPacket rtable iface packet with
  | icmp call => exact ⟨call, .handled hhandle⟩
  | forward waiting => exact ⟨_, .swept hhandle⟩
  | done =>
    simp only [handleIpPacket, if_neg h, ipForwardPacket] at hhandle
    split_ifs at hhandle
    cases hfound : longestPrefixMatch rtable (ipDaddr packet) <;> simp [hfound] at hhandle

/-- ICMP packets are made inside the packets where echo requests fit, and where the header of a
packet that goes on is in the frame with eight more bytes. -/
theorem icmpWithin_iff (hlen : len < 2 ^ 31) : IcmpWithin rtable iface packet len ↔
    (IsEcho iface packet → EchoFits packet len) ∧
      (ipDaddr packet ≠ iface.ip → ErrorFits packet len) := by
  by_cases hip : ipDaddr packet = iface.ip
  · constructor
    · intro h
      refine ⟨fun hecho => ?_, fun hne => absurd hip hne⟩
      have hcall := (icmpCalled_local rtable hip _).mpr ⟨hecho, rfl⟩
      exact (within_reply_iff hlen).mp (h _ hcall packet 0)
    · rintro ⟨hfits, -⟩ call hcall memory id
      obtain ⟨hecho, rfl⟩ := (icmpCalled_local rtable hip call).mp hcall
      exact (within_reply_iff hlen).mpr (hfits hecho)
  · constructor
    · intro h
      refine ⟨fun hecho => absurd hecho.1 hip, fun _ => ?_⟩
      obtain ⟨call, hcall⟩ := exists_icmpCalled rtable hip
      obtain ⟨htype, hhdr⟩ := hcall.error hip
      obtain ⟨hsaddr, hcopied⟩ := (within_error_iff htype).mp (h _ hcall packet 0)
      exact ⟨hsaddr, hhdr ▸ hcopied⟩
    · rintro ⟨-, hfits⟩ call hcall memory id
      obtain ⟨htype, hhdr⟩ := hcall.error hip
      obtain ⟨hsaddr, hcopied⟩ := hfits hip
      exact (within_error_iff htype).mpr ⟨hsaddr, hhdr.symm ▸ hcopied⟩

/-- An echo request without data for 10.0.1.1 that says it has `totLen` bytes. -/
def echoFrame (totLen : UInt16) : List UInt8 :=
  List.replicate 12 0 ++ [8, 0] ++ [0x45, 0] ++ wire16 totLen ++
    [0, 1, 0x40, 0, 64, 1, 0, 0, 10, 0, 1, 11, 10, 0, 1, 1] ++ [8, 0, 0xf7, 0xfd, 0, 1, 0, 1]

def echoIface : IfaceInfo := ⟨1, Vector.replicate 6 0, 0x0a000101⟩

theorem icmpWithin_echo : IcmpWithin [] echoIface (bytesAt (echoFrame 28)) 42 :=
  (icmpWithin_iff (by decide)).mpr
    ⟨fun _ => ⟨by decide +kernel, by decide +kernel, by decide +kernel⟩,
      fun h => absurd (show ipDaddr _ = _ by decide +kernel) h⟩

/-- The request says it is longer than the frame it came in. -/
theorem long_echo_overruns : ¬IcmpWithin [] echoIface (bytesAt (echoFrame 1500)) 42 := by
  intro h
  have hecho : IsEcho echoIface (bytesAt (echoFrame 1500)) := by decide +kernel
  have hcall := (icmpCalled_local [] hecho.1 _).mpr ⟨hecho, rfl⟩
  have hfits := (within_reply_iff (by decide)).mp (h _ hcall (fun _ => 0) 0)
  exact absurd hfits.whole (by decide +kernel)

end Frames

end NetworkLab
