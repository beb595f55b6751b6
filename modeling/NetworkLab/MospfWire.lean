import Mathlib.Data.List.GetD
import NetworkLab.MospfPacket

/-!
# LSUs on the wire

The packet that `sending_mospf_lsu_thread` builds, as writes to the memory that `malloc` has
given it, and what a receiver makes of the bytes: it takes the packet for an LSU with the
sequence number and the advertisements of the sender.
-/
namespace NetworkLab.Mospf

section Model

/-- The memory after bytes have been written from a position on. -/
def writeBytes (packet : ℕ → UInt8) (i : ℕ) (bytes : List UInt8) : ℕ → UInt8 :=
  fun p => if i ≤ p ∧ p < i + bytes.length then bytes.getD (p - i) 0 else packet p

/-- The memory after `memcpy` to a position. -/
def memcpy (packet : ℕ → UInt8) (i : ℕ) (src : ℕ → UInt8) (n : ℕ) : ℕ → UInt8 :=
  fun p => if i ≤ p ∧ p < i + n then src (p - i) else packet p

/-- The first loop of `sending_mospf_lsu_thread`. -/
def countNadv (ifaceList : List Iface) : UInt32 :=
  ifaceList.foldl (fun nadv iface =>
    let nadv := nadv + UInt32.ofInt iface.numNbr
    if iface.numNbr = 0 then nadv + 1 else nadv) 0

/-- What the second loop writes for an interface. -/
def ifaceLsas (iface : Iface) : List MospfLsa :=
  if iface.numNbr = 0 then [⟨iface.ip &&& iface.mask, iface.mask, 0⟩]
  else iface.nbrList.map fun nbr => ⟨nbr.nbrIp &&& nbr.nbrMask, nbr.nbrMask, nbr.nbrId⟩

def lsaBytes (lsa : MospfLsa) : List UInt8 :=
  wire32 lsa.network ++ wire32 lsa.mask ++ wire32 lsa.rid

def mospfMaxLsuTtl : UInt8 := 255

def defaultTtl : UInt8 := 64

def ipDf : UInt16 := 0x4000

def ipprotoMospf : UInt8 := 90

def mospfInitLsu (packet : ℕ → UInt8) (sequenceNum : UInt16) (nadv : UInt32) : ℕ → UInt8 :=
  writeBytes packet bodyAt (wire16 sequenceNum ++ [mospfMaxLsuTtl, 0] ++ wire32 nadv)

/-- The field `checksum` between `aid` and `padding` is left as it is. -/
def mospfInitHdr (packet : ℕ → UInt8) (type : UInt8) (len : UInt16) (rid aid : UInt32) :
    ℕ → UInt8 :=
  writeBytes
    (writeBytes packet mhdrAt ([mospfVersion, type] ++ wire16 len ++ wire32 rid ++ wire32 aid))
    (mhdrAt + 14) [0, 0]

/-- `ip_init_hdr`; `id` is a random number. -/
def ipInitHdr (packet : ℕ → UInt8) (saddr daddr : UInt32) (len : UInt16) (proto : UInt8)
    (id : UInt16) : ℕ → UInt8 :=
  let ip : IpHdr := ⟨4, 5, 0, len, id, ipDf, defaultTtl, proto, 0, saddr, daddr⟩
  let sum := checksum (fun p => (ipBytes ip).getD p 0) 20 0
  writeBytes packet etherHdrSize (ipBytes { ip with checksum := sum })

/-- `len_pkt`. -/
def lenPkt (lenLsa : UInt32) : UInt32 := 14 + 20 + 16 + 8 + lenLsa

/-- The packet for a neighbour on an interface. Of the two pieces of memory that `malloc` gives,
`lsaMemory` is for the advertisements. -/
def lsuPacket (memory lsaMemory : ℕ → UInt8) (routerId : UInt32) (sequenceNum id : UInt16)
    (ifaceList : List Iface) (iface : Iface) (nbr : MospfNbr) : ℕ → UInt8 :=
  let nadv := countNadv ifaceList
  let lenLsa := 12 * nadv
  let lsaAll := writeBytes lsaMemory 0 ((ifaceList.flatMap ifaceLsas).flatMap lsaBytes)
  let packet := memcpy memory mlsaAt lsaAll lenLsa.toNat
  let packet := mospfInitLsu packet sequenceNum nadv
  let packet := mospfInitHdr packet mospfTypeLsu (16 + 8 + lenLsa).toUInt16 routerId 0
  let packet := writeBytes packet (mhdrAt + 12) (bytes16 (mospfChecksum packet mhdrAt))
  ipInitHdr packet iface.ip nbr.nbrIp (lenPkt lenLsa - 14).toUInt16 ipprotoMospf id

/-- One advertisement for an interface without neighbours, otherwise one for each neighbour. -/
def advertisements (ifaceList : List Iface) : List MospfLsa :=
  ifaceList.flatMap fun iface => match iface.nbrList with
    | [] => [⟨iface.ip &&& iface.mask, iface.mask, 0⟩]
    | nbrs => nbrs.map fun nbr => ⟨nbr.nbrIp &&& nbr.nbrMask, nbr.nbrMask, nbr.nbrId⟩

end Model

section Memory

variable {packet : ℕ → UInt8} {i j : ℕ} {bytes bytes' : List UInt8}

/-- The bytes stand in the memory from a position on. -/
def HasBytes (packet : ℕ → UInt8) (i : ℕ) (bytes : List UInt8) : Prop :=
  ∀ k < bytes.length, packet (i + k) = bytes.getD k 0

theorem hasBytes_writeBytes (packet : ℕ → UInt8) (i : ℕ) (bytes : List UInt8) :
    HasBytes (writeBytes packet i bytes) i bytes := by
  intro k hk
  rw [writeBytes, if_pos (by omega), Nat.add_sub_cancel_left]

/-- A write to another place. -/
theorem HasBytes.writeBytes (h : HasBytes packet i bytes)
    (hapart : i + bytes.length ≤ j ∨ j + bytes'.length ≤ i) :
    HasBytes (writeBytes packet j bytes') i bytes := by
  intro k hk
  rw [Mospf.writeBytes, if_neg (by omega)]
  exact h k hk

theorem hasBytes_append :
    HasBytes packet i (bytes ++ bytes') ↔
      HasBytes packet i bytes ∧ HasBytes packet (i + bytes.length) bytes' := by
  refine ⟨fun h => ⟨fun k hk => ?_, fun k hk => ?_⟩, fun h k hk => ?_⟩
  · have hlt : k < (bytes ++ bytes').length := by
      rw [List.length_append]
      omega
    rw [h k hlt, List.getD_append _ _ _ _ hk]
  · have hlt : bytes.length + k < (bytes ++ bytes').length := by
      rw [List.length_append]
      omega
    rw [Nat.add_assoc, h _ hlt, List.getD_append_right _ _ _ _ (Nat.le_add_right _ _),
      Nat.add_sub_cancel_left]
  · rw [List.length_append] at hk
    by_cases hlt : k < bytes.length
    · rw [List.getD_append _ _ _ _ hlt]
      exact h.1 k hlt
    · rw [List.getD_append_right _ _ _ _ (by omega), ← h.2 (k - bytes.length) (by omega)]
      congr 1
      omega

theorem HasBytes.congr {packet' : ℕ → UInt8} (h : HasBytes packet i bytes)
    (hsame : ∀ p, i ≤ p → p < i + bytes.length → packet' p = packet p) :
    HasBytes packet' i bytes := by
  intro k hk
  rw [hsame _ (Nat.le_add_right _ _) (Nat.add_lt_add_left hk i)]
  exact h k hk

theorem word16_of_hasBytes {w : UInt16} (h : HasBytes packet i (bytes16 w)) :
    word16 packet i = w := by
  have h₀ : packet i = w.toUInt8 := h 0 (show _ < 2 by decide)
  have h₁ : packet (i + 1) = (w >>> 8).toUInt8 := h 1 (show _ < 2 by decide)
  rw [word16, h₀, h₁]
  apply UInt16.toNat_inj.mp
  have hw := w.toNat_lt
  simp [UInt16.toNat_add, UInt16.toNat_mul, Nat.shiftRight_eq_div_pow]
  omega

theorem word32_of_hasBytes {w : UInt32} (h : HasBytes packet i (bytes32 w)) :
    word32 packet i = w := by
  have h₀ : packet i = w.toUInt8 := h 0 (show _ < 4 by decide)
  have h₁ : packet (i + 1) = (w >>> 8).toUInt8 := h 1 (show _ < 4 by decide)
  have h₂ : packet (i + 2) = (w >>> 16).toUInt8 := h 2 (show _ < 4 by decide)
  have h₃ : packet (i + 3) = (w >>> 24).toUInt8 := h 3 (show _ < 4 by decide)
  rw [word32, h₀, h₁, h₂, h₃]
  apply UInt32.toNat_inj.mp
  have hw := w.toNat_lt
  simp [UInt32.toNat_add, UInt32.toNat_mul, Nat.shiftRight_eq_div_pow]
  omega

theorem htonl_htonl (w : UInt32) : htonl (htonl w) = w := by
  apply UInt32.toBitVec_inj.mp
  apply BitVec.eq_of_getLsbD_eq
  intro i hi
  have hlt : i < 32 := hi
  simp only [htonl, UInt32.toBitVec_or, UInt32.toBitVec_shiftLeft, UInt32.toBitVec_shiftRight,
    UInt32.toBitVec_and, BitVec.getLsbD_or]
  interval_cases i <;> simp

theorem htons_htons (w : UInt16) : htons (htons w) = w := by
  apply UInt16.toBitVec_inj.mp
  apply BitVec.eq_of_getLsbD_eq
  intro i hi
  have hlt : i < 16 := hi
  simp only [htons, UInt16.toBitVec_or, UInt16.toBitVec_shiftLeft, UInt16.toBitVec_shiftRight,
    BitVec.getLsbD_or]
  interval_cases i <;> simp

/-- A field that has been written with `htons` is read with `ntohs`. -/
theorem ntohs_of_hasBytes {w : UInt16} (h : HasBytes packet i (wire16 w)) :
    ntohs (word16 packet i) = w := by
  rw [word16_of_hasBytes h, ntohs, htons_htons]

theorem ntohl_of_hasBytes {w : UInt32} (h : HasBytes packet i (wire32 w)) :
    ntohl (word32 packet i) = w := by
  rw [word32_of_hasBytes h, ntohl, htonl_htonl]

/-- The loop over the advertisements reads those that have been written. -/
theorem loadLsas_of_hasBytes {lsas : List MospfLsa}
    (h : HasBytes packet i (lsas.flatMap lsaBytes)) :
    (loadLsas packet i lsas.length).value = lsas := by
  induction lsas generalizing i with
  | nil => rfl
  | cons lsa lsas ih =>
    rw [List.flatMap_cons, hasBytes_append, lsaBytes, hasBytes_append, hasBytes_append] at h
    obtain ⟨⟨⟨hnetwork, hmask⟩, hrid⟩, hrest⟩ := h
    have hnetwork' : ntohl (word32 packet i) = lsa.network := ntohl_of_hasBytes hnetwork
    have hmask' : ntohl (word32 packet (i + 4)) = lsa.mask := ntohl_of_hasBytes hmask
    have hrid' : ntohl (word32 packet (i + 8)) = lsa.rid := ntohl_of_hasBytes hrid
    have hrest' : (loadLsas packet (i + mospfLsaSize) lsas.length).value = lsas := ih hrest
    show (⟨ntohl (word32 packet i), ntohl (word32 packet (i + 4)),
      ntohl (word32 packet (i + 8))⟩ : MospfLsa) ::
      (loadLsas packet (i + mospfLsaSize) lsas.length).value = lsa :: lsas
    rw [hnetwork', hmask', hrid', hrest']

end Memory

section Checksum

variable {packet packet' : ℕ → UInt8}

theorem checksum_congr {buf buf' : ℕ → UInt8} {n : ℕ} (sum : UInt32)
    (h : ∀ p < n, buf' p = buf p) : checksum buf' n sum = checksum buf n sum := by
  have hwords : (List.range (n / 2)).foldl (fun sum i => sum + (word16 buf' (2 * i)).toUInt32) sum =
      (List.range (n / 2)).foldl (fun sum i => sum + (word16 buf (2 * i)).toUInt32) sum := by
    refine List.foldl_ext _ _ _ fun acc i hi => ?_
    have hlt := List.mem_range.mp hi
    rw [word16, word16, h _ (by omega), h _ (by omega)]
  rw [checksum, checksum, hwords]
  by_cases hodd : n % 2 = 1
  · simp only [if_pos hodd]
    rw [h _ (by omega)]
  · simp only [if_neg hodd]

/-- The checksum of a header depends on the bytes that it covers, but for the field itself. -/
theorem mospfChecksum_congr (mospf : ℕ)
    (hlen : ∀ p, mospf + 2 ≤ p → p < mospf + 4 → packet' p = packet p)
    (h : ∀ p, mospf ≤ p → p < mospf + mospfLen packet mospf → p ≠ mospf + 12 → p ≠ mospf + 13 →
      packet' p = packet p) :
    mospfChecksum packet' mospf = mospfChecksum packet mospf := by
  have hlen' : mospfLen packet' mospf = mospfLen packet mospf := by
    rw [mospfLen, mospfLen, word16, word16, hlen _ (by omega) (by omega),
      hlen _ (by omega) (by omega)]
  rw [mospfChecksum, mospfChecksum, hlen']
  refine checksum_congr 0 fun p hp => ?_
  rw [clearChecksum, clearChecksum]
  by_cases hfield : mospf + p = mospf + 12 ∨ mospf + p = mospf + 13
  · rw [if_pos hfield, if_pos hfield]
  · rw [if_neg hfield, if_neg hfield]
    exact h _ (by omega) (by omega) (fun h => hfield (.inl h)) (fun h => hfield (.inr h))

end Checksum

section Sender

variable {ifaceList : List Iface}

theorem ifaceLsas_eq {iface : Iface} (h : iface.numNbr = iface.nbrList.length) :
    ifaceLsas iface = match iface.nbrList with
      | [] => [⟨iface.ip &&& iface.mask, iface.mask, 0⟩]
      | nbrs => nbrs.map fun nbr => ⟨nbr.nbrIp &&& nbr.nbrMask, nbr.nbrMask, nbr.nbrId⟩ := by
  rw [ifaceLsas, h]
  cases iface.nbrList with
  | nil => rfl
  | cons nbr nbrs => rw [if_neg (by rw [List.length_cons]; omega)]

theorem flatMap_ifaceLsas (hnum : ∀ iface ∈ ifaceList, iface.numNbr = iface.nbrList.length) :
    ifaceList.flatMap ifaceLsas = advertisements ifaceList :=
  List.flatMap_congr fun iface hiface => ifaceLsas_eq (hnum iface hiface)

theorem ofInt_natCast (n : ℕ) : UInt32.ofInt n = UInt32.ofNat n := by
  apply UInt32.toNat_inj.mp
  rw [UInt32.ofInt, UInt32.toNat_ofNat', UInt32.toNat_ofNat']
  omega

/-- The first loop counts what the second loop writes. -/
theorem countNadv_eq (hnum : ∀ iface ∈ ifaceList, iface.numNbr = iface.nbrList.length) :
    countNadv ifaceList = UInt32.ofNat (advertisements ifaceList).length := by
  have hone (nadv : UInt32) (iface : Iface) (h : iface.numNbr = iface.nbrList.length) :
      (if iface.numNbr = 0 then nadv + UInt32.ofInt iface.numNbr + 1
        else nadv + UInt32.ofInt iface.numNbr) =
      nadv + UInt32.ofNat (ifaceLsas iface).length := by
    rw [ifaceLsas]
    by_cases hzero : iface.numNbr = 0
    · rw [if_pos hzero, if_pos hzero, hzero, ← Nat.cast_zero, ofInt_natCast]
      exact congrArg (· + 1) (UInt32.add_zero nadv)
    · rw [if_neg hzero, if_neg hzero, h, List.length_map, ofInt_natCast]
  have hfold (nadv : UInt32) : ∀ is : List Iface,
      (∀ iface ∈ is, iface.numNbr = iface.nbrList.length) →
      is.foldl (fun nadv iface =>
        let nadv := nadv + UInt32.ofInt iface.numNbr
        if iface.numNbr = 0 then nadv + 1 else nadv) nadv =
      nadv + UInt32.ofNat (is.flatMap ifaceLsas).length := by
    intro is
    induction is generalizing nadv with
    | nil => exact fun _ => (UInt32.add_zero nadv).symm
    | cons iface is ih =>
      intro h
      rw [List.foldl_cons, hone nadv iface (h iface List.mem_cons_self),
        ih _ fun iface hin => h iface (List.mem_cons_of_mem _ hin), List.flatMap_cons,
        List.length_append, UInt32.ofNat_add, UInt32.add_assoc]
  rw [countNadv, hfold 0 ifaceList hnum, flatMap_ifaceLsas hnum, UInt32.zero_add]

theorem length_flatMap_lsaBytes (lsas : List MospfLsa) :
    (lsas.flatMap lsaBytes).length = 12 * lsas.length := by
  induction lsas with
  | nil => rfl
  | cons lsa lsas ih =>
    rw [List.flatMap_cons, List.length_append, ih, List.length_cons]
    show 12 + 12 * lsas.length = 12 * (lsas.length + 1)
    omega

/-- The mOSPF part of an LSU packet. -/
def lsuMessage (len : UInt16) (rid : UInt32) (sum seq : UInt16) (nadv : UInt32)
    (lsas : List MospfLsa) : List UInt8 :=
  ([mospfVersion, mospfTypeLsu] ++ wire16 len ++ wire32 rid ++ wire32 0) ++ bytes16 sum ++ [0, 0] ++
    (wire16 seq ++ [mospfMaxLsuTtl, 0] ++ wire32 nadv) ++ lsas.flatMap lsaBytes

variable {memory lsaMemory : ℕ → UInt8} {routerId : UInt32} {sequenceNum id : UInt16}
  {iface : Iface} {nbr : MospfNbr}

theorem hasBytes_memcpy {packet src : ℕ → UInt8} {i n : ℕ} {bytes : List UInt8}
    (h : HasBytes src 0 bytes) (hn : bytes.length ≤ n) :
    HasBytes (memcpy packet i src n) i bytes := by
  intro k hk
  rw [memcpy, if_pos (by omega), Nat.add_sub_cancel_left, ← h k hk, Nat.zero_add]

theorem lsaCount_of_lt {nadv : UInt32} (h : nadv.toNat < 2 ^ 31) : lsaCount nadv = nadv.toNat := by
  have hlt : 2 * nadv.toBitVec.toNat < 2 ^ 32 := by
    show 2 * nadv.toNat < 2 ^ 32
    omega
  show nadv.toBitVec.toInt.toNat = nadv.toNat
  rw [BitVec.toInt_eq_toNat_of_lt hlt]
  rfl

/-- What the receiver needs of the packet: a header without options, and behind it the message
with the checksum that belongs to it. -/
theorem lsuPacket_bytes (hnum : ∀ iface ∈ ifaceList, iface.numNbr = iface.nbrList.length)
    (hcount : (advertisements ifaceList).length ≤ 5457) :
    ∃ packet sum, packet = lsuPacket memory lsaMemory routerId sequenceNum id ifaceList iface nbr ∧
      packet 14 = 0x45 ∧
      HasBytes packet mhdrAt (lsuMessage (16 + 8 + 12 * countNadv ifaceList).toUInt16 routerId sum
        sequenceNum (countNadv ifaceList) (advertisements ifaceList)) ∧
      mospfChecksum packet mhdrAt = sum := by
  let lenLsa := 12 * countNadv ifaceList
  let lsaAll := writeBytes lsaMemory 0 ((ifaceList.flatMap ifaceLsas).flatMap lsaBytes)
  let copied := memcpy memory mlsaAt lsaAll lenLsa.toNat
  let withLsu := mospfInitLsu copied sequenceNum (countNadv ifaceList)
  let withHdr := mospfInitHdr withLsu mospfTypeLsu (16 + 8 + lenLsa).toUInt16 routerId 0
  let sum := mospfChecksum withHdr mhdrAt
  let withSum := writeBytes withHdr (mhdrAt + 12) (bytes16 sum)
  let packet := ipInitHdr withSum iface.ip nbr.nbrIp (lenPkt lenLsa - 14).toUInt16 ipprotoMospf id
  have hlen : lenLsa.toNat = 12 * (advertisements ifaceList).length := by
    show (12 * countNadv ifaceList).toNat = _
    rw [countNadv_eq hnum, UInt32.toNat_mul, UInt32.toNat_ofNat']
    show 12 * _ % 2 ^ 32 = _
    omega
  have hlsas : HasBytes copied mlsaAt ((advertisements ifaceList).flatMap lsaBytes) := by
    rw [← flatMap_ifaceLsas hnum]
    refine hasBytes_memcpy (hasBytes_writeBytes _ _ _) ?_
    rw [flatMap_ifaceLsas hnum, length_flatMap_lsaBytes, hlen]
  -- The IP header is in front of the message.
  have hip {i : ℕ} {bytes : List UInt8} (h : HasBytes withSum i bytes) (hi : 34 ≤ i) :
      HasBytes packet i bytes := h.writeBytes (.inr (show 14 + 20 ≤ i from hi))
  refine ⟨packet, sum, rfl, ?_, ?_, ?_⟩
  · exact hasBytes_writeBytes _ _ _ 0 (show 0 < 20 by decide)
  · rw [lsuMessage]
    refine hasBytes_append.mpr ⟨hasBytes_append.mpr ⟨hasBytes_append.mpr ⟨hasBytes_append.mpr
      ⟨?_, ?_⟩, ?_⟩, ?_⟩, ?_⟩
    · refine hip (.writeBytes (.writeBytes (hasBytes_writeBytes _ _ _) ?_) ?_) (by decide)
      · exact .inl (show 34 + 12 ≤ 48 by decide)
      · exact .inl (show 34 + 12 ≤ 46 by decide)
    · exact hip (hasBytes_writeBytes withHdr 46 (bytes16 sum)) (show 34 ≤ 46 by decide)
    · refine hip (.writeBytes (hasBytes_writeBytes _ 48 [0, 0]) ?_) (show 34 ≤ 48 by decide)
      exact .inr (show 46 + 2 ≤ 48 by decide)
    · refine hip (i := 50) (.writeBytes (.writeBytes (.writeBytes (hasBytes_writeBytes copied 50 _)
        ?_) ?_) ?_) (by decide)
      · exact .inr (show 34 + 12 ≤ 50 by decide)
      · exact .inr (show 48 + 2 ≤ 50 by decide)
      · exact .inr (show 46 + 2 ≤ 50 by decide)
    · refine hip (i := 58) (.writeBytes (.writeBytes (.writeBytes (.writeBytes hlsas ?_) ?_) ?_) ?_)
        (by decide)
      · exact .inr (show 50 + 8 ≤ 58 by decide)
      · exact .inr (show 34 + 12 ≤ 58 by decide)
      · exact .inr (show 48 + 2 ≤ 58 by decide)
      · exact .inr (show 46 + 2 ≤ 58 by decide)
  · have hsame (p : ℕ) (hp : 34 ≤ p) (hsum : p < 46 ∨ 48 ≤ p) : packet p = withHdr p := by
      have hpacket : packet p = withSum p :=
        if_neg fun h => absurd (show p < 14 + 20 from h.2) (by omega)
      have hwithSum : withSum p = withHdr p :=
        if_neg fun h => absurd (show 46 ≤ p ∧ p < 46 + 2 from h) (by omega)
      rw [hpacket, hwithSum]
    refine mospfChecksum_congr mhdrAt (fun p h₁ h₂ => ?_) fun p h₁ _ h₃ h₄ => ?_
    · have hmhdr : mhdrAt = 34 := rfl
      exact hsame p (by omega) (by omega)
    · have hmhdr : mhdrAt = 34 := rfl
      exact hsame p (by omega) (by omega)

end Sender

section RoundTrip

variable {ifaceList : List Iface} {memory lsaMemory : ℕ → UInt8} {routerId : UInt32}
  {sequenceNum id : UInt16} {iface : Iface} {nbr : MospfNbr}

/-- The bytes of the packet that are sent. -/
def lsuPacketLen (ifaceList : List Iface) : ℕ := (lenPkt (12 * countNadv ifaceList)).toNat

/-- The LSU that the sender means. -/
def sentLsu (routerId : UInt32) (sequenceNum : UInt16) (ifaceList : List Iface) : Lsu :=
  ⟨routerId, sequenceNum, advertisements ifaceList⟩

theorem length_lsuMessage (len : UInt16) (rid : UInt32) (sum seq : UInt16) (nadv : UInt32)
    (lsas : List MospfLsa) :
    (lsuMessage len rid sum seq nadv lsas).length = 24 + 12 * lsas.length := by
  rw [lsuMessage, List.length_append, length_flatMap_lsaBytes]
  rfl

/-- The LSU is read from the message as it was written. -/
theorem lsuOf_of_hasBytes {received : ℕ → UInt8} {len sum seq : UInt16} {lsas : List MospfLsa}
    (hlsas : lsas.length ≤ 5457)
    (h : HasBytes received mhdrAt
      (lsuMessage len routerId sum seq (UInt32.ofNat lsas.length) lsas)) :
    received 34 = mospfVersion ∧ received 35 = mospfTypeLsu ∧ mospfLen received 34 = len.toNat ∧
      word16 received 46 = sum ∧ ntohl (word32 received 42) = 0 ∧
      lsuOf received = ⟨routerId, seq, lsas⟩ := by
  simp only [lsuMessage, hasBytes_append] at h
  obtain ⟨⟨⟨⟨⟨⟨⟨htype, hlen⟩, hrid⟩, haid⟩, hsum⟩, -⟩, ⟨⟨hseq, -⟩, hnadv⟩⟩, hbytes⟩ := h
  have hlen' : HasBytes received 36 (wire16 len) := hlen
  have hrid' : HasBytes received 38 (wire32 routerId) := hrid
  have haid' : HasBytes received 42 (wire32 0) := haid
  have hsum' : HasBytes received 46 (bytes16 sum) := hsum
  have hseq' : HasBytes received 50 (wire16 seq) := hseq
  have hnadv' : HasBytes received 54 (wire32 (UInt32.ofNat lsas.length)) := hnadv
  have hbytes' : HasBytes received 58 (lsas.flatMap lsaBytes) := hbytes
  refine ⟨htype 0 (show 0 < 2 by decide), htype 1 (show 1 < 2 by decide),
    congrArg UInt16.toNat (ntohs_of_hasBytes hlen'), word16_of_hasBytes hsum',
    ntohl_of_hasBytes haid', ?_⟩
  have hnat : (UInt32.ofNat lsas.length).toNat = lsas.length :=
    UInt32.toNat_ofNat_of_lt' (by
      show lsas.length < 2 ^ 32
      omega)
  have hcount : lsaCount (ntohl (word32 received (bodyAt + 4))) = lsas.length := by
    rw [show bodyAt + 4 = 54 from rfl, ntohl_of_hasBytes hnadv', lsaCount_of_lt (by omega), hnat]
  rw [lsuOf, hcount]
  have hload : (loadLsas received mlsaAt lsas.length).value = lsas := loadLsas_of_hasBytes hbytes'
  rw [hload, show mhdrAt + 4 = 38 from rfl, ntohl_of_hasBytes hrid',
    show bodyAt = 50 from rfl, ntohs_of_hasBytes hseq']

theorem stale_iff (db : List MospfDbEntry) (lsu : Lsu) :
    stale db lsu.rid lsu.seq = true ↔ ¬Newer db lsu := by
  rw [stale, Newer, entryOf]
  cases hfind : db.find? fun entry => decide (entry.rid = lsu.rid) with
  | none => exact iff_of_false Bool.false_ne_true fun h => h fun stored hs => by cases hs
  | some entry =>
    rw [decide_eq_true_iff, ← UInt16.not_lt]
    refine not_congr ⟨fun hlt stored hs => ?_, fun h => h _ rfl⟩
    obtain rfl := Option.some.inj hs
    exact hlt

/-- What a handler does with the bytes is what the LSU in them calls for. -/
theorem handleLsuBytes_value (s : Station) (packet : ℕ → UInt8) :
    (handleLsuBytes s packet).value = { s with db := deliver s.routerId s.db (lsuOf packet) } := by
  rw [handleLsuBytes_eq, deliver, handleMospfLsu]
  by_cases hown : (lsuOf packet).rid = s.routerId
  · rw [if_pos hown, if_pos hown]
    rfl
  · rw [if_neg hown, if_neg hown]
    by_cases hstale : stale s.db (lsuOf packet).rid (lsuOf packet).seq = true
    · rw [if_pos hstale, (storeLsu_eq_none_iff _ _).mpr ((stale_iff _ _).mp hstale)]
      rfl
    · rw [if_neg hstale]

/-- A router with another id takes the packet for the LSU that was meant, and when that is newer
than its entry it stores the sequence number and the advertisements of the sender. -/
theorem lsu_round_trip (s : Station) (received : ℕ → UInt8)
    (hnum : ∀ iface ∈ ifaceList, iface.numNbr = iface.nbrList.length)
    (hcount : (advertisements ifaceList).length ≤ 5457)
    (hrid : s.routerId ≠ routerId) (harea : s.areaId = 0)
    (hreceived : ∀ p < lsuPacketLen ifaceList, received p =
      lsuPacket memory lsaMemory routerId sequenceNum id ifaceList iface nbr p) :
    Verified s received ∧ received (mospfAt received + 1) = mospfTypeLsu ∧
      (handleMospfPacket s received).value =
        { s with db := deliver s.routerId s.db (sentLsu routerId sequenceNum ifaceList) } ∧
      (Newer s.db (sentLsu routerId sequenceNum ifaceList) →
        entryOf (handleMospfPacket s received).value.db routerId =
          some (sequenceNum, advertisements ifaceList)) := by
  obtain ⟨packet, sum, hpacket, hihl, hmessage, hsum⟩ :
      ∃ packet sum,
        packet = lsuPacket memory lsaMemory routerId sequenceNum id ifaceList iface nbr ∧
        packet 14 = 0x45 ∧ HasBytes packet mhdrAt _ ∧ mospfChecksum packet mhdrAt = sum :=
    lsuPacket_bytes hnum hcount
  rw [← hpacket] at hreceived
  rw [countNadv_eq hnum] at hmessage
  have hnadv : (countNadv ifaceList).toNat = (advertisements ifaceList).length := by
    rw [countNadv_eq hnum, UInt32.toNat_ofNat']
    omega
  have hlenPkt : lsuPacketLen ifaceList = 58 + 12 * (advertisements ifaceList).length := by
    rw [lsuPacketLen, lenPkt, UInt32.toNat_add, UInt32.toNat_mul, hnadv]
    show (58 + 12 * _ % 2 ^ 32) % 2 ^ 32 = _
    omega
  have hmhdr : mhdrAt = 34 := rfl
  have hmessage' := hmessage.congr fun p h₁ h₂ => hreceived p (by
    rw [length_lsuMessage] at h₂
    omega)
  obtain ⟨hversion, htype, -, hfield, haid, hlsu⟩ := lsuOf_of_hasBytes hcount hmessage'
  -- The length in the header is that of the message.
  have hlen : mospfLen packet 34 = 24 + 12 * (advertisements ifaceList).length := by
    rw [(lsuOf_of_hasBytes hcount hmessage).2.2.1, UInt32.toNat_toUInt16, UInt32.toNat_add,
      UInt32.toNat_mul, UInt32.toNat_ofNat']
    show (24 + 12 * (_ % 2 ^ 32) % 2 ^ 32) % 2 ^ 32 % 2 ^ 16 = _
    omega
  have hat : mospfAt received = 34 := by
    rw [mospfAt, ipHdrSizeOf, etherHdrSize, hreceived 14 (by omega), hihl]
    rfl
  have hchecksum : mospfChecksum received 34 = sum := by
    rw [← hsum]
    refine mospfChecksum_congr 34 (fun p h₁ h₂ => hreceived p (by omega)) fun p h₁ h₂ _ _ => ?_
    exact hreceived p (by omega)
  have hverified : Verified s received := by
    rw [Verified, hat]
    refine ⟨hversion, ?_, ?_⟩
    · rw [hchecksum]
      exact hfield
    · rw [harea]
      exact haid
  have hvalue : (handleMospfPacket s received).value =
      { s with db := deliver s.routerId s.db (sentLsu routerId sequenceNum ifaceList) } := by
    have htype' : received (34 + 1) = mospfTypeLsu := htype
    rw [handleMospfPacket, if_pos hverified, hat, htype', if_neg (by decide), if_pos rfl,
      handleLsuBytes_value, hlsu]
    rfl
  refine ⟨hverified, by rw [hat]; exact htype, hvalue, fun hnewer => ?_⟩
  rw [hvalue]
  show entryOf (deliver s.routerId s.db (sentLsu routerId sequenceNum ifaceList)) routerId = _
  rw [entryOf_deliver, if_pos ⟨rfl, Ne.symm hrid, hnewer⟩]
  rfl

/-- An interface without neighbours, and one with two. -/
def threeLsas : List Iface :=
  [⟨0, 0x0a000001, 0xffffff00, 0, []⟩,
    ⟨1, 0x0a000101, 0xffffff00, 2, [⟨3, 0x0a000102, 0xffffff00⟩, ⟨4, 0x0a000103, 0xffffff00⟩]⟩]

theorem lsu_round_trip_three :
    entryOf (handleMospfPacket aloneRouter (lsuPacket (fun _ => 7) (fun _ => 8) 2 5 9 threeLsas
      ⟨1, 0x0a000101, 0xffffff00, 0, []⟩ ⟨3, 0x0a000102, 0xffffff00⟩)).value.db 2 =
      some (5, [⟨0x0a000000, 0xffffff00, 0⟩, ⟨0x0a000100, 0xffffff00, 3⟩,
        ⟨0x0a000100, 0xffffff00, 4⟩]) :=
  (lsu_round_trip aloneRouter _ (by decide) (by decide) (by decide) rfl fun _ _ => rfl).2.2.2
    (by decide)

end RoundTrip

end NetworkLab.Mospf
