import NetworkLab.RouterIp

/-!
# Echo replies of the first router

The reply is as long as the frame of the request, whatever the request's own length says, and gets
the address of the interface that it leaves by, whichever address was pinged.
-/
namespace NetworkLab.Router
open Mospf (etherHdrSize ipBaseHdrSize ipHdrSizeOf writeBytes memcpy HasBytes)

section Model

/-- Where the ICMP header of a packet is. -/
def icmpOf (packet : ℕ → UInt8) : ℕ := etherHdrSize + ipHdrSizeOf packet

/-- A whole ICMP echo request for the address of the interface in a frame of `len` bytes. -/
structure EchoRequest (iface : IfaceInfo) (packet : ℕ → UInt8) (len : ℤ) : Prop where
  header : ipBaseHdrSize ≤ ipHdrSizeOf packet
  pinged : ipDaddr packet = iface.ip
  type : packet (icmpOf packet) = icmpEchoRequest
  whole : ipHdrSizeOf packet + icmpHdrSize ≤ (ipTotLen packet).toNat
  received : etherHdrSize + (ipTotLen packet).toNat ≤ len
  frame : len ≤ etherHdrSize + 65535

/-- The reply to a request, with all that follows its checksum. -/
structure Replied (packet sent : ℕ → UInt8) : Prop where
  source : ipSaddr sent = ipDaddr packet
  dest : ipDaddr sent = ipSaddr packet
  type : sent (icmpOf sent) = icmpEchoReply
  length : (ipTotLen sent).toNat + ipHdrSizeOf packet =
    (ipTotLen packet).toNat + ipHdrSizeOf sent
  data : ∀ k, 4 ≤ k → ipHdrSizeOf packet + k < (ipTotLen packet).toNat →
    sent (icmpOf sent + k) = packet (icmpOf packet + k)
  ipSum : ChecksumRight sent etherHdrSize (ipHdrSizeOf sent) 10
  icmpSum : ChecksumRight sent (icmpOf sent)
    ((ipTotLen sent).toNat - ipHdrSizeOf sent) 2

/-- `handle_ip_packet` answers the request. -/
def EchoAnswered (rtable : List (RtEntry IfaceInfo)) (iface : IfaceInfo)
    (memory packet : ℕ → UInt8) (len : ℤ) (id : UInt16) : Prop :=
  ∃ send, handleIpPacket rtable iface memory packet len id = .icmp (some send) ∧
    send.len = etherHdrSize + (ipTotLen send.packet).toNat ∧ Replied packet send.packet

end Model

section Sending

variable {rtable : List (RtEntry IfaceInfo)} {packet : ℕ → UInt8} {len : ℤ} {send : ArpSend}

/-- The packet leaves with the address of its interface and a new checksum. -/
theorem ipSendPacket_eq_some_iff : ipSendPacket rtable packet len = some send ↔
    ∃ entry, longestPrefixMatch rtable (ipDaddr packet) = some entry ∧
      ⟨entry.iface, nextHop entry (ipDaddr packet),
        storeIpChecksum (writeBytes packet (etherHdrSize + 12) (wire32 entry.iface.ip)), len⟩ =
        send := by
  rw [ipSendPacket]
  cases longestPrefixMatch rtable (ipDaddr packet) <;> simp

/-- The two writes of `ip_send_packet`. -/
theorem sent_eq {ip : UInt32} {p : ℕ} (h : p < 24 ∨ 30 ≤ p) :
    storeIpChecksum (writeBytes packet (etherHdrSize + 12) (wire32 ip)) p = packet p := by
  have hlen : (wire32 ip).length = 4 := rfl
  have hsum (q : ℕ → UInt8) : (bytes16 (ipChecksum q)).length = 2 := rfl
  have hether : etherHdrSize = 14 := rfl
  rw [storeIpChecksum, writeBytes_of_not (by rw [hsum, hether]; omega),
    writeBytes_of_not (by rw [hlen, hether]; omega)]

theorem ipSaddr_sent (ip : UInt32) :
    ipSaddr (storeIpChecksum (writeBytes packet (etherHdrSize + 12) (wire32 ip))) = ip :=
  Mospf.ntohl_of_hasBytes
    (.writeBytes (Mospf.hasBytes_writeBytes _ _ _) (.inr (show 26 ≤ 26 from le_rfl)))

end Sending

section Reply

variable {request : ℕ → UInt8} {n : ℕ}

/-- What stands in a reply of `n` bytes before it is sent. -/
structure EchoPacket (request : ℕ → UInt8) (n : ℕ) (out : ℕ → UInt8) : Prop where
  header : out 14 = 0x45
  totLen : HasBytes out 16 (wire16 (UInt16.ofNat (n - 14)))
  dest : HasBytes out 30 (wire32 (ipSaddr request))
  type : out 34 = icmpEchoReply
  data : ∀ k < n - 38, out (38 + k) = request (icmpOf request + 4 + k)
  sum : ChecksumRight out 34 (n - 34) 2

theorem hasBytes_ipInitHdr (memory : ℕ → UInt8) (saddr daddr : UInt32) (len : UInt16)
    (proto : UInt8) (id : UInt16) :
    let out := ipInitHdr memory saddr daddr len proto id
    out 14 = 0x45 ∧ HasBytes out 16 (wire16 len) ∧ HasBytes out 30 (wire32 daddr) := by
  intro out
  have hip := Mospf.hasBytes_writeBytes memory etherHdrSize
    (ipBytes ⟨4, 5, 0, len, id, 0x4000, 64, proto, 0, saddr, daddr⟩)
  simp only [ipBytes, Mospf.hasBytes_append] at hip
  obtain ⟨⟨⟨⟨⟨⟨⟨hver, hlen⟩, -⟩, -⟩, -⟩, -⟩, -⟩, hdaddr⟩ := hip
  have hver' : HasBytes out 14 [0x45, 0] := hver.writeBytes (.inl (show 16 ≤ 24 by decide))
  exact ⟨hver' 0 (show 0 < 2 by decide), hlen.writeBytes (.inl (show 18 ≤ 24 by decide)),
    hdaddr.writeBytes (.inr (show 26 ≤ 30 by decide))⟩

/-- A reply of `n` bytes without its ICMP checksum. -/
def echoUnsummed (memory request : ℕ → UInt8) (len n : ℕ) (id : UInt16) : ℕ → UInt8 :=
  memcpy
    (writeBytes (ipInitHdr memory 0 (ipSaddr request) (UInt16.ofNat (n - 14)) ipprotoIcmp id) icmpAt
      [icmpEchoReply, 0])
    (icmpAt + 4) (fun p => request (icmpOf request + 4 + p)) (len - (icmpOf request + 4))

theorem ofInt_sub_etherHdrSize (h : 14 ≤ n) :
    UInt16.ofInt ((n : ℤ) - etherHdrSize) = UInt16.ofNat (n - 14) := by
  apply UInt16.toNat_inj.mp
  rw [UInt16.ofInt, UInt16.toNat_ofNat', UInt16.toNat_ofNat', etherHdrSize]
  omega

theorem icmpOutLen_echo {len : ℕ} (hlen : n + ipHdrSizeOf request = len + 20) :
    icmpOutLen request len icmpEchoReply = n := by
  rw [icmpOutLen, if_pos rfl, ipBaseHdrSize]
  omega

/-- What `icmp_send_packet` makes of a request that has the bytes that are copied. -/
theorem icmpPacket_echo (memory : ℕ → UInt8) (id : UInt16) {len : ℕ}
    (hhdr : icmpOf request + 4 ≤ len) (hlen : n + ipHdrSizeOf request = len + 20) :
    icmpPacket memory request len icmpEchoReply 0 id =
      some (writeBytes (echoUnsummed memory request len n id) (icmpAt + 2)
        (bytes16 (icmpChecksum (echoUnsummed memory request len n id) icmpAt (n - icmpAt)))) := by
  have hge : 14 ≤ n := by
    rw [icmpOf] at hhdr
    omega
  have hhdr' : ((etherHdrSize + ipHdrSizeOf request + 4 : ℕ) : ℤ) ≤ len := Nat.cast_le.mpr hhdr
  have hsize : ((len : ℤ) - (etherHdrSize + ipHdrSizeOf request + 4 : ℕ)).toNat =
      len - (icmpOf request + 4) := by
    rw [icmpOf]
    omega
  have hrest : ((n : ℤ) - icmpAt).toNat = n - icmpAt := by omega
  rw [icmpPacket, icmpOutLen_echo hlen, hrest, ofInt_sub_etherHdrSize hge]
  simp only [if_true]
  rw [if_pos hhdr', Option.bind_eq_bind, Option.bind_some, hsize]
  rfl

/-- The reply has what an echo reply needs. -/
theorem echoPacket_made (memory : ℕ → UInt8) (id : UInt16) {len : ℕ}
    (hhdr : icmpOf request + 4 ≤ len) (hn : n ≤ 65549) (hlen : n + ipHdrSizeOf request = len + 20) :
    EchoPacket request n (writeBytes (echoUnsummed memory request len n id) (icmpAt + 2)
      (bytes16 (icmpChecksum (echoUnsummed memory request len n id) icmpAt (n - icmpAt)))) := by
  obtain ⟨header, hheader⟩ : ∃ header, header =
    ipInitHdr memory 0 (ipSaddr request) (UInt16.ofNat (n - 14)) ipprotoIcmp id := ⟨_, rfl⟩
  obtain ⟨out, hout⟩ : ∃ out, out = writeBytes (echoUnsummed memory request len n id) (icmpAt + 2)
    (bytes16 (icmpChecksum (echoUnsummed memory request len n id) icmpAt (n - icmpAt))) :=
    ⟨_, rfl⟩
  have hbyte {p : ℕ} (hp : p < 36 ∨ 38 ≤ p) : out p =
      if 38 ≤ p ∧ p < 38 + (len - (icmpOf request + 4)) then
        request (icmpOf request + 4 + (p - 38))
      else writeBytes header icmpAt [icmpEchoReply, 0] p := by
    rw [hout, hheader]
    exact writeBytes_of_not hp
  have hip {p : ℕ} (hp : p < 34) : out p = header p := by
    rw [hbyte (by omega), if_neg (by omega)]
    exact writeBytes_of_not (.inl hp)
  obtain ⟨hver, htot, hdest⟩ := hasBytes_ipInitHdr memory 0 (ipSaddr request)
    (UInt16.ofNat (n - 14)) ipprotoIcmp id
  rw [← hheader] at hver htot hdest
  rw [← hout]
  refine ⟨?_, ?_, ?_, ?_, fun k hk => ?_, ?_⟩
  · rw [hip (by decide), hver]
  · exact htot.congr fun p _ hp => hip (lt_of_lt_of_le hp (show 18 ≤ 34 by decide))
  · exact hdest.congr fun p _ hp => hip hp
  · rw [hbyte (by decide), if_neg (by omega)]
    exact Mospf.hasBytes_writeBytes header icmpAt [icmpEchoReply, 0] 0 (by decide)
  · have hk' : k < len - (icmpOf request + 4) := by
      rw [icmpOf] at hhdr ⊢
      rw [etherHdrSize] at hhdr ⊢
      omega
    rw [hbyte (by omega), if_pos ⟨by omega, by omega⟩, Nat.add_sub_cancel_left]
  · rw [hout]
    exact checksumRight_store _ icmpAt 2 (by rw [icmpAt, etherHdrSize, ipBaseHdrSize]; omega)

variable {iface : IfaceInfo} {out : ℕ → UInt8} {len : ℕ}

/-- What `ip_send_packet` does not write is as it was. -/
theorem EchoPacket.sent (h : EchoPacket request n out) (hn : 34 ≤ n) (hmax : n ≤ 65549)
    (ip : UInt32) :
    let sent := storeIpChecksum (writeBytes out (etherHdrSize + 12) (wire32 ip))
    ipHdrSizeOf sent = 20 ∧ (ipTotLen sent).toNat = n - 14 ∧ ipSaddr sent = ip ∧
      ipDaddr sent = ipSaddr request := by
  intro sent
  have htot : HasBytes sent 16 (wire16 (UInt16.ofNat (n - 14))) :=
    h.totLen.congr fun p _ hp => sent_eq (.inl (lt_of_lt_of_le hp (show 18 ≤ 24 by decide)))
  have hdest : HasBytes sent 30 (wire32 (ipSaddr request)) :=
    h.dest.congr fun p hp _ => sent_eq (.inr hp)
  refine ⟨?_, ?_, ipSaddr_sent ip, Mospf.ntohl_of_hasBytes hdest⟩
  · rw [ipHdrSizeOf, etherHdrSize, show sent 14 = _ from sent_eq (.inl (by decide)), h.header]
    rfl
  · rw [show ipTotLen sent = _ from Mospf.ntohs_of_hasBytes htot, UInt16.toNat_ofNat',
      Nat.mod_eq_of_lt (by omega)]

/-- The reply is right if it leaves by the interface that was pinged and the frame of the request
had no padding. -/
theorem EchoPacket.replied_iff (h : EchoPacket request n out) (hreq : EchoRequest iface request len)
    (hn : n + ipHdrSizeOf request = len + 20) (ip : UInt32) :
    Replied request (storeIpChecksum (writeBytes out (etherHdrSize + 12) (wire32 ip))) ↔
      ip = iface.ip ∧ etherHdrSize + (ipTotLen request).toNat = len := by
  obtain ⟨sent, hsent⟩ : ∃ sent, sent =
    storeIpChecksum (writeBytes out (etherHdrSize + 12) (wire32 ip)) := ⟨_, rfl⟩
  have hkept {p : ℕ} (hp : 34 ≤ p) : sent p = out p := by rw [hsent, sent_eq (.inr (by omega))]
  have hframe := hreq.frame
  have hreceived := hreq.received
  have hwhole := hreq.whole
  have hheader := hreq.header
  simp only [etherHdrSize, icmpHdrSize, ipBaseHdrSize] at hframe hreceived hwhole hheader
  obtain ⟨hhdr, htot, hsource, hdest⟩ := h.sent (by omega) (by omega) ip
  rw [← hsent] at hhdr htot hsource hdest ⊢
  constructor
  · intro hrep
    have hlength := hrep.length
    rw [htot, hhdr] at hlength
    refine ⟨hsource.symm.trans (hrep.source.trans hreq.pinged), ?_⟩
    rw [etherHdrSize]
    omega
  · rintro ⟨hip, hlen⟩
    rw [etherHdrSize] at hlen
    have hicmp : icmpOf sent = 34 := by rw [icmpOf, hhdr, etherHdrSize]
    refine ⟨?_, hdest, ?_, ?_, fun k hk hdata => ?_, ?_, ?_⟩
    · rw [hsource, hip, hreq.pinged]
    · rw [hicmp, hkept (by decide), h.type]
    · rw [htot, hhdr]
      omega
    · obtain ⟨k, rfl⟩ := Nat.exists_eq_add_of_le hk
      rw [hicmp, hkept (by omega), ← Nat.add_assoc, ← Nat.add_assoc, h.data k (by omega)]
    · rw [hsent, ipHdrSizeOf_storeIpChecksum]
      exact checksumRight_storeIpChecksum _
    · rw [hicmp, htot, hhdr, Nat.sub_sub]
      refine h.sum.congr ⟨hkept (by decide), hkept (by decide)⟩ ?_
      exact fun p _ => hkept (by omega)

theorem EchoRequest.fits {len : ℤ} (h : EchoRequest iface request len) : ∃ len' n : ℕ,
    len = len' ∧ n + ipHdrSizeOf request = len' + 20 ∧ icmpOf request + 4 ≤ len' ∧ 34 ≤ n ∧
      n ≤ 65549 := by
  have hframe := h.frame
  have hreceived := h.received
  have hwhole := h.whole
  have hheader := h.header
  simp only [etherHdrSize, icmpHdrSize, ipBaseHdrSize] at hframe hreceived hwhole hheader
  refine ⟨len.toNat, len.toNat + 20 - ipHdrSizeOf request, ?_⟩
  rw [icmpOf, etherHdrSize]
  omega

/-- A request is handled by sending a reply as long as its frame. -/
theorem EchoRequest.handled (h : EchoRequest iface request len)
    (hn : n + ipHdrSizeOf request = len + 20) (hhdr : icmpOf request + 4 ≤ len) (hmax : n ≤ 65549)
    (rtable : List (RtEntry IfaceInfo)) (memory : ℕ → UInt8) (id : UInt16) :
    ∃ out, EchoPacket request n out ∧ ipDaddr out = ipSaddr request ∧
      handleIpPacket rtable iface memory request len id = .icmp (ipSendPacket rtable out n) := by
  have hout := echoPacket_made memory id hhdr hmax hn
  refine ⟨_, hout, Mospf.ntohl_of_hasBytes hout.dest, ?_⟩
  rw [handleIpPacket, if_pos h.pinged.symm, ← icmpOf, if_pos h.type, icmpSendPacket,
    icmpPacket_echo memory id hhdr hn, icmpOutLen_echo hn]
  rfl

/-- An echo request is answered if a route leads back by the interface that was pinged, and the
frame is no longer than the packet. -/
theorem echoAnswered_iff {rtable : List (RtEntry IfaceInfo)} {iface : IfaceInfo}
    {memory request : ℕ → UInt8} {len : ℤ} {id : UInt16} (h : EchoRequest iface request len) :
    EchoAnswered rtable iface memory request len id ↔
      (∃ entry, longestPrefixMatch rtable (ipSaddr request) = some entry ∧
        entry.iface.ip = iface.ip) ∧ etherHdrSize + (ipTotLen request).toNat = len := by
  obtain ⟨len, n, rfl, hn, hhdr, hmin, hmax⟩ := h.fits
  obtain ⟨out, hout, hdest, hhandle⟩ := h.handled hn hhdr hmax rtable memory id
  rw [EchoAnswered, hhandle]
  constructor
  · rintro ⟨send, hsend, -, hrep⟩
    obtain ⟨entry, hentry, rfl⟩ := ipSendPacket_eq_some_iff.mp (IpResult.icmp.inj hsend)
    obtain ⟨hip, heq⟩ := (hout.replied_iff h hn _).mp hrep
    exact ⟨⟨entry, hdest ▸ hentry, hip⟩, by exact_mod_cast heq⟩
  · rintro ⟨⟨entry, hentry, hip⟩, heq⟩
    have hsend : ipSendPacket rtable out n = some _ :=
      ipSendPacket_eq_some_iff.mpr ⟨entry, hdest.symm ▸ hentry, rfl⟩
    refine ⟨_, congrArg _ hsend, ?_, (hout.replied_iff h hn _).mpr ⟨hip, by exact_mod_cast heq⟩⟩
    have hwhole : (n : ℤ) = 14 + (n - 14 : ℕ) := by omega
    rw [(hout.sent hmin hmax _).2.1]
    exact hwhole

/-- A ping of 10.0.1.1 from 10.0.3.33 without data. -/
def ping : List UInt8 :=
  List.replicate 12 0 ++ [8, 0] ++
    [0x45, 0, 0, 28, 0, 1, 0x40, 0, 64, 1, 0x22, 0xbf, 10, 0, 3, 33, 10, 0, 1, 1] ++
    [8, 0, 0xf7, 0xfd, 0, 1, 0, 1]

def pinged : IfaceInfo := ⟨1, Vector.replicate 6 0, 0x0a000101⟩

theorem echoRequest_ping : EchoRequest pinged (bytesAt ping) 42 :=
  ⟨by decide +kernel, by decide +kernel, by decide +kernel, by decide +kernel, by decide +kernel,
    by decide +kernel⟩

/-- The way back to the requester. -/
def wayBack (left : IfaceInfo) : RtEntry IfaceInfo :=
  ⟨0x0a000300, prefixMask 24, left.ip + 1, left⟩

theorem longestPrefixMatch_wayBack (left : IfaceInfo) :
    longestPrefixMatch [wayBack left] (ipSaddr (bytesAt ping)) = some (wayBack left) := by
  simp only [longestPrefixMatch, List.foldl_cons, List.foldl_nil, longerMask, wayBack]
  rw [if_pos (by decide +kernel), if_pos (by decide +kernel)]

theorem echoAnswered_ping :
    EchoAnswered [wayBack pinged] pinged (fun _ => 0) (bytesAt ping) 42 7 :=
  (echoAnswered_iff echoRequest_ping).mpr
    ⟨⟨wayBack pinged, longestPrefixMatch_wayBack pinged, rfl⟩, by decide +kernel⟩

/-- The way back leads by another interface: the reply has the address of that. -/
theorem ping_not_answered : ¬EchoAnswered [wayBack ⟨2, Vector.replicate 6 0, 0x0a000201⟩] pinged
    (fun _ => 0) (bytesAt ping) 42 7 := by
  obtain ⟨left, hleft⟩ : ∃ left : IfaceInfo, left = ⟨2, Vector.replicate 6 0, 0x0a000201⟩ :=
    ⟨_, rfl⟩
  rw [← hleft]
  rintro ⟨send, hsend, -, hrep⟩
  have hfit : 42 + ipHdrSizeOf (bytesAt ping) = 42 + 20 := by decide +kernel
  obtain ⟨out, hout, hdest, hhandle⟩ := echoRequest_ping.handled hfit (by decide +kernel)
    (by decide) [wayBack left] (fun _ => 0) 7
  rw [show ((42 : ℕ) : ℤ) = 42 from rfl] at hhandle
  rw [hhandle] at hsend
  obtain ⟨entry, hentry, rfl⟩ := ipSendPacket_eq_some_iff.mp (IpResult.icmp.inj hsend)
  have hip := ((hout.replied_iff echoRequest_ping hfit _).mp hrep).1
  rw [hdest, longestPrefixMatch_wayBack] at hentry
  rw [← Option.some.inj hentry, wayBack, hleft] at hip
  exact absurd hip (by decide)

end Reply

end NetworkLab.Router
