import NetworkLab.RouterIp

/-!
# How far a packet is forwarded

A router of the first kind decrements the TTL before it tests it for zero, where the later ones
test for at most one first. A packet on its way may pass through the same router many times: only
the TTL bounds the number of hops.
-/
namespace NetworkLab.Router
open Mospf (etherHdrSize ipBaseHdrSize ipHdrSizeOf writeBytes)

section Model

/-- A packet at a router that sends it on. -/
structure Hop where
  rtable : List (RtEntry IfaceInfo)
  iface : IfaceInfo
  memory : ℕ → UInt8
  packet : ℕ → UInt8
  len : ℤ
  id : UInt16
  sent : ArpSend

def Hop.Forwards (hop : Hop) : Prop :=
  handleIpPacket hop.rtable hop.iface hop.memory hop.packet hop.len hop.id = .forward hop.sent

/-- The IP header comes as it was sent. -/
def Arrives (sent packet : ℕ → UInt8) : Prop :=
  ∀ p, etherHdrSize ≤ p → p < etherHdrSize + ipBaseHdrSize → packet p = sent p

/-- The hops of a packet, through any routers. -/
inductive Journey : (ℕ → UInt8) → List Hop → Prop
  | done (packet : ℕ → UInt8) : Journey packet []
  | hop {packet : ℕ → UInt8} {hop : Hop} {hops : List Hop} (arrives : Arrives packet hop.packet)
    (forwards : hop.Forwards) (rest : Journey hop.sent.packet hops) : Journey packet (hop :: hops)

/-- What a hop does to the header. -/
structure Hop.Decrements (hop : Hop) : Prop where
  alive : 2 ≤ (ipTtl hop.packet).toNat
  ttl : (ipTtl hop.sent.packet).toNat + 1 = (ipTtl hop.packet).toNat
  sum : ChecksumRight hop.sent.packet etherHdrSize (ipHdrSizeOf hop.sent.packet) 10

/-- On every way through routers a packet is decremented at each hop, and the TTL that it has
first bounds the hops. -/
def HopBounded (packet : ℕ → UInt8) : Prop :=
  ∀ hops, Journey packet hops →
    (∀ hop ∈ hops, hop.Decrements) ∧ hops.length ≤ (ipTtl packet).toNat - 1

end Model

section Bound

variable {packet : ℕ → UInt8} {hop : Hop} {hops : List Hop}

theorem handleIpPacket_forward_iff {rtable : List (RtEntry IfaceInfo)} {iface : IfaceInfo}
    {memory : ℕ → UInt8} {len : ℤ} {id : UInt16} {sent : ArpSend} :
    handleIpPacket rtable iface memory packet len id = .forward sent ↔
      iface.ip ≠ ipDaddr packet ∧ ∃ entry, longestPrefixMatch rtable (ipDaddr packet) = some entry ∧
        ipTtl (decrementTtl packet) ≠ 0 ∧
        ⟨entry.iface, nextHop entry (ipDaddr packet), storeIpChecksum (decrementTtl packet), len⟩ =
          sent := by
  simp only [handleIpPacket]
  by_cases hip : iface.ip = ipDaddr packet
  · rw [if_pos hip]
    refine iff_of_false (fun h => ?_) fun h => h.1 hip
    split_ifs at h
  · rw [if_neg hip]
    cases longestPrefixMatch rtable (ipDaddr packet) with
    | none => exact iff_of_false IpResult.noConfusion fun h => by simpa using h.2
    | some entry =>
      by_cases hzero : ipTtl (decrementTtl packet) = 0 <;> simp [hip, hzero]

theorem ipTtl_decrementTtl (packet : ℕ → UInt8) :
    ipTtl (decrementTtl packet) = ipTtl packet - 1 := rfl

theorem ipTtl_storeIpChecksum (packet : ℕ → UInt8) :
    ipTtl (storeIpChecksum packet) = ipTtl packet := by
  rw [ipTtl, storeIpChecksum, writeBytes_of_not (.inl (by decide)), ipTtl]

theorem toNat_sub_one {ttl : UInt8} (h : ttl ≠ 0) : (ttl - 1).toNat + 1 = ttl.toNat := by
  have hpos : ttl.toNat ≠ 0 := fun hzero => h (UInt8.toNat.inj hzero)
  have hlt := ttl.toNat_lt
  rw [UInt8.toNat_sub, UInt8.toNat_one]
  omega

theorem sub_one_ne_zero {ttl : UInt8} (h : ttl ≠ 1) : ttl - 1 ≠ 0 := by
  intro hzero
  have hnat := congrArg UInt8.toNat hzero
  have hlt := ttl.toNat_lt
  rw [UInt8.toNat_sub, UInt8.toNat_one, UInt8.toNat_zero] at hnat
  exact h (UInt8.toNat.inj (show ttl.toNat = 1 by omega))

theorem add_one_ne (ip : UInt32) : ip + 1 ≠ ip := by
  intro heq
  have hnat := congrArg UInt32.toNat heq
  have hlt := ip.toNat_lt
  rw [UInt32.toNat_add, UInt32.toNat_one] at hnat
  omega

/-- A router sends on with the TTL decremented, and never with zero. -/
theorem Hop.Forwards.ttl (h : hop.Forwards) : ipTtl hop.sent.packet = ipTtl hop.packet - 1 ∧
    ipTtl hop.packet ≠ 1 ∧
    ChecksumRight hop.sent.packet etherHdrSize (ipHdrSizeOf hop.sent.packet) 10 := by
  obtain ⟨-, entry, -, hzero, hsent⟩ := handleIpPacket_forward_iff.mp h
  rw [← hsent]
  refine ⟨by rw [ipTtl_storeIpChecksum, ipTtl_decrementTtl], fun hone => hzero ?_, ?_⟩
  · rw [ipTtl_decrementTtl, hone]
    rfl
  · rw [ipHdrSizeOf_storeIpChecksum]
    exact checksumRight_storeIpChecksum _

/-- The TTL of zero is the one that goes wrong. -/
theorem Hop.Forwards.decrements_iff (h : hop.Forwards) :
    hop.Decrements ↔ ipTtl hop.packet ≠ 0 := by
  obtain ⟨hsent, hone, hsum⟩ := h.ttl
  constructor
  · intro hdec hzero
    have halive := hdec.alive
    rw [hzero] at halive
    exact absurd halive (by decide)
  · intro hzero
    have hsub := toNat_sub_one hzero
    have hne : (ipTtl hop.packet).toNat ≠ 1 := fun heq => hone (UInt8.toNat.inj heq)
    have hpos : (ipTtl hop.packet).toNat ≠ 0 := fun heq => hzero (UInt8.toNat.inj heq)
    exact ⟨by omega, by rw [hsent, hsub], hsum⟩

theorem Arrives.ipTtl {sent : ℕ → UInt8} (h : Arrives sent packet) :
    ipTtl packet = ipTtl sent := h _ (by decide) (by decide)

/-- The TTL falls at every hop, and is never zero again. -/
theorem Journey.decrements (h : Journey packet hops) (httl : ipTtl packet ≠ 0) :
    (∀ hop ∈ hops, hop.Decrements) ∧ hops.length ≤ (ipTtl packet).toNat - 1 := by
  induction h with
  | done packet => exact ⟨fun hop hhop => absurd hhop List.not_mem_nil, Nat.zero_le _⟩
  | @hop packet hop hops arrives forwards rest ih =>
    rw [← arrives.ipTtl] at httl ⊢
    have hdec := forwards.decrements_iff.mpr httl
    have hfall := hdec.ttl
    have halive := hdec.alive
    have hsent : ipTtl hop.sent.packet ≠ 0 := by
      intro hzero
      rw [hzero, UInt8.toNat_zero] at hfall
      omega
    obtain ⟨hall, hlength⟩ := ih hsent
    refine ⟨List.forall_mem_cons.mpr ⟨hdec, hall⟩, ?_⟩
    rw [List.length_cons]
    omega

/-- A hop at a router with a host route for a packet. -/
def routed (packet : ℕ → UInt8) (received left : IfaceInfo) : Hop where
  rtable := [⟨ipDaddr packet, 0xffffffff, 0, left⟩]
  iface := received
  memory := fun _ => 0
  packet := packet
  len := 42
  id := 0
  sent := ⟨left, ipDaddr packet, storeIpChecksum (decrementTtl packet), 42⟩

theorem routed_forwards {received left : IfaceInfo} (hip : received.ip ≠ ipDaddr packet)
    (httl : ipTtl packet ≠ 1) : (routed packet received left).Forwards := by
  refine handleIpPacket_forward_iff.mpr ⟨hip, ⟨ipDaddr packet, 0xffffffff, 0, left⟩, ?_, ?_, rfl⟩
  · simp only [longestPrefixMatch, routed, List.foldl_cons, List.foldl_nil, longerMask]
    rw [if_pos (by decide), if_pos (UInt32.and_comm _ _)]
  · rw [ipTtl_decrementTtl]
    exact sub_one_ne_zero httl

/-- A packet that comes in with no hop left goes on. -/
theorem not_hopBounded {received : IfaceInfo} (left : IfaceInfo)
    (hip : received.ip ≠ ipDaddr packet) (hzero : ipTtl packet = 0) : ¬HopBounded packet := by
  intro h
  have hone : ipTtl packet ≠ 1 := by
    rw [hzero]
    decide
  have hjourney : Journey packet [routed packet received left] :=
    .hop (fun _ _ _ => rfl) (routed_forwards hip hone) (.done _)
  have hlength := (h _ hjourney).2
  rw [hzero] at hlength
  exact Nat.not_succ_le_zero 0 hlength

/-- Forwarding is bounded by the TTL, unless a packet comes in with none left. -/
theorem hopBounded_iff (packet : ℕ → UInt8) : HopBounded packet ↔ ipTtl packet ≠ 0 := by
  constructor
  · intro h hzero
    let received : IfaceInfo := ⟨1, Vector.replicate 6 0, ipDaddr packet + 1⟩
    have hip : received.ip ≠ ipDaddr packet := add_one_ne _
    exact not_hopBounded ⟨2, Vector.replicate 6 0, 0⟩ hip hzero h
  · exact fun hzero hops hhops => hhops.decrements hzero

/-- A packet without data from 10.0.1.11 to 10.0.2.22 with no hop left. -/
def expired : List UInt8 :=
  List.replicate 12 0 ++ [8, 0] ++
    [0x45, 0, 0, 28, 0, 1, 0x40, 0, 0, 1, 0x63, 0xc0, 10, 0, 1, 11, 10, 0, 2, 22] ++
    [8, 0, 0xf7, 0xfd, 0, 1, 0, 1]

/-- It goes on with 255. -/
theorem expired_forwarded :
    let hop := routed (bytesAt expired) ⟨1, Vector.replicate 6 0, 0x0a000101⟩
      ⟨2, Vector.replicate 6 0, 0x0a000201⟩
    hop.Forwards ∧ ipTtl hop.packet = 0 ∧ ipTtl hop.sent.packet = 255 ∧
      ¬HopBounded hop.packet := by
  intro hop
  have hzero : ipTtl hop.packet = 0 := rfl
  have hip : hop.iface.ip ≠ ipDaddr hop.packet := by decide +kernel
  have hforwards : hop.Forwards := routed_forwards hip (by decide +kernel)
  exact ⟨hforwards, hzero, by rw [hforwards.ttl.1, hzero]; rfl,
    not_hopBounded hop.sent.iface hip hzero⟩

end Bound

end NetworkLab.Router
