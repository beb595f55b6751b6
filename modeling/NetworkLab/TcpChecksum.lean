import NetworkLab.ChecksumVersions

/-!
# The checksum of a segment

The RFC sums the pseudo-header and the segment as words in network order. `tcp_checksum` sums in
memory order, which only swaps the bytes of the result, and adds the two addresses as words of 32
bits, of which it keeps 32.
-/
namespace NetworkLab

section Order

/-- The words of a buffer in network order; an odd last byte has a zero after it. -/
def networkWords : List UInt8 → List ℕ
  | hi :: lo :: buf => (256 * hi.toNat + lo.toNat) :: networkWords buf
  | [hi] => [256 * hi.toNat]
  | [] => []

/-- A half word with its bytes swapped. -/
def swapBytes (w : ℕ) : ℕ := 256 * (w % 256) + w / 256

/-- The same bytes summed in network order and in memory order. -/
structure Swapped (net mem : ℕ) : Prop where
  zero : net = 0 ↔ mem = 0
  mod : 256 * mem ≡ net [MOD 65535]

variable {net net' mem mem' : ℕ}

theorem Swapped.add (h : Swapped net mem) (h' : Swapped net' mem') :
    Swapped (net + net') (mem + mem') := by
  refine ⟨?_, ?_⟩
  · rw [Nat.add_eq_zero_iff, Nat.add_eq_zero_iff, h.zero, h'.zero]
  · rw [Nat.mul_add]
    exact h.mod.add h'.mod

theorem swapped_of_bytes (b₀ b₁ : ℕ) : Swapped (256 * b₀ + b₁) (b₀ + 256 * b₁) := by
  refine ⟨by omega, ?_⟩
  show 256 * (b₀ + 256 * b₁) % 65535 = (256 * b₀ + b₁) % 65535
  omega

theorem swapped_swapBytes (w : ℕ) : Swapped (swapBytes w) w := by
  have h := swapped_of_bytes (w % 256) (w / 256)
  rwa [Nat.mod_add_div] at h

theorem swapBytes_le {w : ℕ} (h : w ≤ 65535) : swapBytes w ≤ 65535 := by
  unfold swapBytes
  omega

theorem swapBytes_inj {w w' : ℕ} (h : w ≤ 65535) (h' : w' ≤ 65535) :
    swapBytes w = swapBytes w' ↔ w = w' := by
  refine ⟨fun heq => ?_, congrArg swapBytes⟩
  unfold swapBytes at heq
  omega

theorem swapBytes_complement {w : ℕ} (h : w ≤ 65535) :
    swapBytes (65535 - w) = 65535 - swapBytes w := by
  unfold swapBytes
  omega

theorem toNat_htons (w : UInt16) : (htons w).toNat = swapBytes w.toNat := by
  have hw := w.toNat_lt
  have hhigh : w.toNat * 2 ^ 8 % 2 ^ 16 = 2 ^ 8 * (w.toNat % 256) := by omega
  have hlow : w.toNat / 2 ^ 8 < 2 ^ 8 := by omega
  rw [htons, UInt16.toNat_or, UInt16.toNat_shiftLeft, UInt16.toNat_shiftRight]
  simp only [UInt16.reduceToNat, Nat.reduceMod, Nat.shiftLeft_eq, Nat.shiftRight_eq_div_pow]
  rw [hhigh, ← Nat.two_pow_add_eq_or_of_lt hlow]
  rfl

/-- The order of the bytes only swaps the bytes of the sum. -/
theorem Swapped.reduce_eq (h : Swapped net mem) : OnesComplement.reduce 65535 net =
    swapBytes (OnesComplement.reduce 65535 mem) := by
  have hle (x : ℕ) := OnesComplement.reduce_le (show 0 < 65535 by decide) x
  have hswap := swapped_swapBytes (OnesComplement.reduce 65535 mem)
  refine OnesComplement.eq_of_modEq (hle net) (swapBytes_le (hle mem)) ?_ ?_
  · rw [hswap.zero, OnesComplement.reduce_eq_zero, OnesComplement.reduce_eq_zero, h.zero]
  · have hmem := (OnesComplement.reduce_modEq 65535 mem).mul_left 256
    exact (OnesComplement.reduce_modEq 65535 net).trans
      (h.mod.symm.trans (hmem.symm.trans hswap.mod))

theorem swapped_words (buf : List UInt8) :
    Swapped (networkWords buf).sum (halfWords (bytesAt buf) buf.length).sum := by
  induction buf using networkWords.induct with
  | case1 b₀ b₁ buf ih =>
    rw [networkWords, List.length_cons, List.length_cons, halfWords_cons_cons, List.sum_cons,
      List.sum_cons]
    exact (swapped_of_bytes _ _).add ih
  | case2 b₀ =>
    have hmem : (halfWords (bytesAt [b₀]) [b₀].length).sum = b₀.toNat := by
      simp [halfWords, evenWords, bytesAt]
    rw [hmem, networkWords, List.sum_singleton]
    exact swapped_of_bytes b₀.toNat 0
  | case3 => exact ⟨Iff.rfl, rfl⟩

theorem le_of_mem_networkWords {buf : List UInt8} {w : ℕ} (h : w ∈ networkWords buf) :
    w ≤ 65535 := by
  induction buf using networkWords.induct with
  | case1 b₀ b₁ buf ih =>
    have h₀ := b₀.toNat_lt
    have h₁ := b₁.toNat_lt
    rcases List.mem_cons.mp h with rfl | h
    · omega
    · exact ih h
  | case2 b₀ =>
    have h₀ := b₀.toNat_lt
    rw [List.mem_singleton.mp h]
    omega
  | case3 => cases h

end Order

section Segment

/-- The pseudo-header of a packet: addresses, protocol and the length of the segment. -/
def pseudoHeader (p : Packet) : List UInt8 :=
  wire32 p.ip.saddr ++ wire32 p.ip.daddr ++ [0, p.ip.protocol] ++
    wire16 (p.ip.totLen - ipHdrSize p.ip)

/-- A segment with this checksum. -/
def segment (p : Packet) (cksum : UInt16) : List UInt8 :=
  tcpBytes { p.tcp with checksum := cksum } ++ p.data

/-- The sum over the pseudo-header and the segment in network order. -/
def segmentSum (p : Packet) (cksum : UInt16) : ℕ :=
  OnesComplement.sum 65535 (networkWords (pseudoHeader p ++ segment p cksum))

/-- The checksum of RFC 793. -/
def rfcChecksum (p : Packet) : ℕ := 65535 - segmentSum p 0

/-- The sum of what `tcp_checksum` adds. -/
def memorySum (p : Packet) : ℕ :=
  (htonl p.ip.saddr).toNat + (htonl p.ip.daddr).toNat + (htons p.ip.protocol.toUInt16).toNat +
    (htons (p.ip.totLen - ipHdrSize p.ip)).toNat +
    (halfWords (bytesAt (segment p 0)) (segment p 0).length).sum

/-- The sender stores the RFC's checksum, and a receiver that sums the segment with it gets all
ones. -/
structure Conforms (p : Packet) : Prop where
  rfc : (ntohs (tcpChecksum p)).toNat = rfcChecksum p
  accepted : segmentSum p (tcpChecksum p) = 65535

theorem networkWords_append {buf : List UInt8} (h : buf.length % 2 = 0) (buf' : List UInt8) :
    networkWords (buf ++ buf') = networkWords buf ++ networkWords buf' := by
  induction buf using networkWords.induct with
  | case1 b₀ b₁ buf ih =>
    rw [List.length_cons, List.length_cons] at h
    rw [List.cons_append, List.cons_append, networkWords, networkWords, ih (by omega)]
    rfl
  | case2 b₀ => cases h
  | case3 => rfl

theorem swapped_bytes16 (w : UInt16) : Swapped (networkWords (bytes16 w)).sum w.toNat := by
  have hw := w.toNat_lt
  have h := swapped_of_bytes (w.toNat % 256) (w.toNat / 256)
  rw [Nat.mod_add_div] at h
  have hsum : (networkWords (bytes16 w)).sum = 256 * (w.toNat % 256) + w.toNat / 256 := by
    simp [bytes16, networkWords, Nat.shiftRight_eq_div_pow]
    omega
  rwa [hsum]

/-- The high half of a word of 32 bits counts like the low half. -/
theorem Swapped.high (h : Swapped net mem) : Swapped net (65536 * mem) := by
  refine ⟨by rw [h.zero]; omega, Nat.ModEq.trans ?_ h.mod⟩
  show 256 * (65536 * mem) % 65535 = 256 * mem % 65535
  omega

theorem swapped_bytes32 (w : UInt32) : Swapped (networkWords (bytes32 w)).sum w.toNat := by
  have hw := w.toNat_lt
  have hlow := swapped_of_bytes (w.toNat % 256) (w.toNat / 256 % 256)
  have hhigh := (swapped_of_bytes (w.toNat / 65536 % 256) (w.toNat / 16777216)).high
  have hmem : w.toNat % 256 + 256 * (w.toNat / 256 % 256) +
      65536 * (w.toNat / 65536 % 256 + 256 * (w.toNat / 16777216)) = w.toNat := by omega
  have hnet : (networkWords (bytes32 w)).sum = 256 * (w.toNat % 256) + w.toNat / 256 % 256 +
      (256 * (w.toNat / 65536 % 256) + w.toNat / 16777216) := by
    simp [bytes32, networkWords, Nat.shiftRight_eq_div_pow]
    omega
  have h := hlow.add hhigh
  rwa [hmem, ← hnet] at h

/-- What the code adds is the pseudo-header and the segment, up to the order of the bytes. -/
theorem swapped_memorySum (p : Packet) :
    Swapped (networkWords (pseudoHeader p ++ segment p 0)).sum (memorySum p) := by
  have hproto : (htons p.ip.protocol.toUInt16).toNat = 0 + 256 * p.ip.protocol.toNat := by
    have hlt := p.ip.protocol.toNat_lt
    rw [toNat_htons, UInt8.toNat_toUInt16, swapBytes]
    omega
  have h32 (w : UInt32) : (wire32 w).length % 2 = 0 := by simp [wire32, bytes32]
  rw [pseudoHeader, List.append_assoc, List.append_assoc, List.append_assoc,
    networkWords_append (h32 _), networkWords_append (h32 _), networkWords_append (by simp),
    networkWords_append (by simp [wire16, bytes16]), List.sum_append, List.sum_append,
    List.sum_append, List.sum_append, ← Nat.add_assoc, ← Nat.add_assoc, ← Nat.add_assoc,
    memorySum, hproto]
  refine ((((swapped_bytes32 _).add (swapped_bytes32 _)).add ?_).add (swapped_bytes16 _)).add
    (swapped_words _)
  exact swapped_of_bytes 0 p.ip.protocol.toNat

/-- The checksum field adds its own word. -/
theorem sum_segment (p : Packet) (cksum : UInt16) :
    (networkWords (pseudoHeader p ++ segment p cksum)).sum =
      (networkWords (pseudoHeader p ++ segment p 0)).sum + swapBytes cksum.toNat := by
  have hlt := cksum.toNat_lt
  have heven : (pseudoHeader p).length % 2 = 0 := by
    simp [pseudoHeader, wire16, wire32, bytes16, bytes32]
  rw [networkWords_append heven, networkWords_append heven, List.sum_append, List.sum_append]
  simp [segment, tcpBytes, wire16, wire32, bytes16, bytes32, networkWords, swapBytes,
    Nat.shiftRight_eq_div_pow]
  omega

theorem segmentSum_eq (p : Packet) (cksum : UInt16) : segmentSum p cksum =
    OnesComplement.reduce 65535
      ((networkWords (pseudoHeader p ++ segment p 0)).sum + swapBytes cksum.toNat) := by
  rw [segmentSum, OnesComplement.sum_eq_reduce (by decide) fun _ => le_of_mem_networkWords,
    sum_segment]

theorem rfcChecksum_eq (p : Packet) :
    rfcChecksum p = swapBytes (65535 - OnesComplement.reduce 65535 (memorySum p)) := by
  have hzero : swapBytes (0 : UInt16).toNat = 0 := rfl
  rw [rfcChecksum, segmentSum_eq, hzero, Nat.add_zero, (swapped_memorySum p).reduce_eq,
    swapBytes_complement (OnesComplement.reduce_le (by decide) _)]

end Segment

section Conformance

variable {p : Packet}

theorem length_segment (p : Packet) (cksum : UInt16) :
    (segment p cksum).length = 20 + p.data.length := by
  simp [segment, tcpBytes, wire16, wire32, bytes16, bytes32]
  omega

/-- `tcp_checksum` sums modulo `2 ^ 32`. -/
theorem toNat_tcpChecksum
    (hlen : p.ip.totLen.toNat = 4 * p.ip.ihl.toNat + 20 + p.data.length) :
    (tcpChecksum p).toNat =
      65535 - OnesComplement.reduce 65535 (memorySum p % 2 ^ 32) := by
  have hihl := p.ip.ihl.toNat_lt
  have htot := p.ip.totLen.toNat_lt
  have hhdr : (ipHdrSize p.ip).toNat = 4 * p.ip.ihl.toNat := by
    simp only [ipHdrSize, UInt16.toNat_mul, UInt8.toNat_toUInt16, UInt16.toNat_ofNat]
    omega
  have htcp : (p.ip.totLen - ipHdrSize p.ip).toNat = (segment p 0).length := by
    rw [UInt16.toNat_sub_of_le _ _ (UInt16.le_iff_toNat_le.mpr (by omega)), hhdr, length_segment]
    omega
  rw [tcpChecksum, htcp]
  show (checksum ((segment p 0).take (segment p 0).length) _).toNat = _
  rw [List.take_length, toNat_checksum, memorySum]
  simp only [UInt32.toNat_add, UInt16.toNat_toUInt32]
  congr 2
  omega

theorem memorySum_lt (hlen : p.ip.totLen.toNat = 4 * p.ip.ihl.toNat + 20 + p.data.length) :
    memorySum p < 3 * 2 ^ 32 := by
  have htot := p.ip.totLen.toNat_lt
  have hsaddr := (htonl p.ip.saddr).toNat_lt
  have hdaddr := (htonl p.ip.daddr).toNat_lt
  have hproto := (htons p.ip.protocol.toUInt16).toNat_lt
  have htcp := (htons (p.ip.totLen - ipHdrSize p.ip)).toNat_lt
  have hwords := sum_halfWords_le (bytesAt (segment p 0)) (segment p 0).length
  have hsmall : (segment p 0).length ≤ 65535 := by
    rw [length_segment]
    omega
  rw [memorySum]
  omega

/-- A carry out of 32 bits is worth one. -/
theorem mod_modEq_iff {t : ℕ} (ht : t < 3 * 2 ^ 32) :
    t % 2 ^ 32 ≡ t [MOD 65535] ↔ t < 2 ^ 32 := by
  show t % 2 ^ 32 % 65535 = t % 65535 ↔ _
  omega

/-- The checksum is that of the RFC, and accepted, if and only if the sum has no carry out of
32 bits. -/
theorem tcpChecksum_conforms_iff
    (hlen : p.ip.totLen.toNat = 4 * p.ip.ihl.toNat + 20 + p.data.length) :
    Conforms p ↔ memorySum p < 2 ^ 32 := by
  have hle (x : ℕ) := OnesComplement.reduce_le (show 0 < 65535 by decide) x
  have hcode : (ntohs (tcpChecksum p)).toNat =
      swapBytes (65535 - OnesComplement.reduce 65535 (memorySum p % 2 ^ 32)) := by
    rw [ntohs, toNat_htons, toNat_tcpChecksum hlen]
  constructor
  · intro h
    have heq := hcode.symm.trans (h.rfc.trans (rfcChecksum_eq p))
    rw [swapBytes_inj (Nat.sub_le _ _) (Nat.sub_le _ _)] at heq
    have hreduce : OnesComplement.reduce 65535 (memorySum p % 2 ^ 32) =
        OnesComplement.reduce 65535 (memorySum p) := by
      have h₁ := hle (memorySum p % 2 ^ 32)
      have h₂ := hle (memorySum p)
      omega
    exact (mod_modEq_iff (memorySum_lt hlen)).mp
      ((OnesComplement.reduce_eq_iff (by decide)).mp hreduce).2
  · intro h
    rw [Nat.mod_eq_of_lt h] at hcode
    refine ⟨hcode.trans (rfcChecksum_eq p).symm, ?_⟩
    have hswap := swapBytes_le (hle (memorySum p))
    rw [segmentSum_eq, ← OnesComplement.reduce_reduce_add (by decide),
      (swapped_memorySum p).reduce_eq, toNat_tcpChecksum hlen, Nat.mod_eq_of_lt h,
      swapBytes_complement (hle _), Nat.add_sub_cancel' hswap, OnesComplement.reduce_of_le le_rfl]

/-- A segment without data between two hosts. -/
def bareSegment (saddr daddr : UInt32) : Packet :=
  ⟨[], ⟨4, 5, 0, 40, 0, 0x4000, 64, ipprotoTcp, 0, saddr, daddr⟩, [],
    ⟨12345, 10001, 0, 0, 5, tcpSyn, 65535, 0, 0⟩, []⟩

theorem tcpChecksum_conforms_bare : Conforms (bareSegment 0x0a000001 0x0a000002) :=
  (tcpChecksum_conforms_iff rfl).mpr (by decide +kernel)

/-- Between 10.0.0.200 and 10.0.0.100 a carry is lost. -/
theorem tcpChecksum_loses_carry : ¬Conforms (bareSegment 0x0a0000c8 0x0a000064) ∧
    (ntohs (tcpChecksum (bareSegment 0x0a0000c8 0x0a000064))).toNat =
      rfcChecksum (bareSegment 0x0a0000c8 0x0a000064) + 256 := by
  have hone : (ntohs (tcpChecksum (bareSegment 0x0a0000c8 0x0a000064))).toNat =
      rfcChecksum (bareSegment 0x0a0000c8 0x0a000064) + 256 := by
    rw [ntohs, toNat_htons, toNat_tcpChecksum rfl]
    decide +kernel
  exact ⟨fun h => by have := h.rfc; omega, hone⟩

end Conformance

end NetworkLab
