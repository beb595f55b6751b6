import NetworkLab.ByteOrder
import NetworkLab.Packet
import NetworkLab.MospfFlood

/-!
# mOSPF packets

`handle_mospf_packet` and the two handlers on the bytes of a frame. The validation finds the
header behind the IP header by the field `ihl`, the handlers find it behind 20 bytes; the
validation sums as many bytes as the header says, the handlers read as many advertisements as
the LSU says. Every load of a handler from the mOSPF part is recorded.
-/
namespace NetworkLab

namespace Mospf

section Load

/-- A value and the positions of the bytes that have been loaded for it. -/
structure Loaded (α : Type) where
  value : α
  bytes : List ℕ

instance : Monad Loaded where
  pure a := ⟨a, []⟩
  bind x f := ⟨(f x.value).value, x.bytes ++ (f x.value).bytes⟩

variable {α β : Type}

@[simp] theorem value_pure (a : α) : (pure a : Loaded α).value = a := rfl

@[simp] theorem bytes_pure (a : α) : (pure a : Loaded α).bytes = [] := rfl

@[simp] theorem value_bind (x : Loaded α) (f : α → Loaded β) :
    (x >>= f).value = (f x.value).value := rfl

@[simp] theorem bytes_bind (x : Loaded α) (f : α → Loaded β) :
    (x >>= f).bytes = x.bytes ++ (f x.value).bytes := rfl

/-- A field of 16 bits, in host order. -/
def load16 (packet : ℕ → UInt8) (i : ℕ) : Loaded UInt16 := ⟨ntohs (word16 packet i), [i, i + 1]⟩

/-- A field of 32 bits, in host order. -/
def load32 (packet : ℕ → UInt8) (i : ℕ) : Loaded UInt32 :=
  ⟨ntohl (word32 packet i), [i, i + 1, i + 2, i + 3]⟩

end Load

section Model

/-- `ETHER_HDR_SIZE`. -/
def etherHdrSize : ℕ := 14

/-- `IP_BASE_HDR_SIZE`. -/
def ipBaseHdrSize : ℕ := 20

def mospfHdrSize : ℕ := 16

def mospfLsuSize : ℕ := 8

def mospfLsaSize : ℕ := 12

def mospfVersion : UInt8 := 2

def mospfTypeHello : UInt8 := 1

def mospfTypeLsu : UInt8 := 4

/-- `IP_HDR_SIZE`; the field `ihl` is the low half of the first byte. -/
def ipHdrSizeOf (packet : ℕ → UInt8) : ℕ := (packet etherHdrSize).toNat % 16 * 4

/-- Where `handle_mospf_packet` takes the header to be. -/
def mospfAt (packet : ℕ → UInt8) : ℕ := etherHdrSize + ipHdrSizeOf packet

/-- Where the handlers take it to be. -/
def mhdrAt : ℕ := etherHdrSize + ipBaseHdrSize

/-- What follows the header. -/
def bodyAt : ℕ := mhdrAt + mospfHdrSize

/-- The first advertisement of an LSU. -/
def mlsaAt : ℕ := bodyAt + mospfLsuSize

/-- `checksum.h` of the first projects: the carries are folded twice, and an odd last byte is
added after that. -/
def checksum (buf : ℕ → UInt8) (nbytes : ℕ) (sum : UInt32) : UInt16 :=
  let sum := (List.range (nbytes / 2)).foldl (fun sum i => sum + (word16 buf (2 * i)).toUInt32) sum
  let sum := (sum >>> 16) + (sum &&& 0xffff)
  let sum := sum + (sum >>> 16)
  let sum := if nbytes % 2 = 1 then sum + (buf (nbytes - 1)).toUInt32 else sum
  (~~~sum).toUInt16

/-- The field `len` of a header at a position. -/
def mospfLen (packet : ℕ → UInt8) (mospf : ℕ) : ℕ := (ntohs (word16 packet (mospf + 2))).toNat

/-- The memory with the field `checksum` of a header set to zero. -/
def clearChecksum (packet : ℕ → UInt8) (mospf : ℕ) : ℕ → UInt8 :=
  fun p => if p = mospf + 12 ∨ p = mospf + 13 then 0 else packet p

/-- `mospf_checksum`. -/
def mospfChecksum (packet : ℕ → UInt8) (mospf : ℕ) : UInt16 :=
  checksum (fun p => clearChecksum packet mospf (mospf + p)) (mospfLen packet mospf) 0

/-- A neighbour with its timer. -/
structure NbrEntry extends MospfNbr where
  alive : UInt8

/-- The state that the handlers use: of the router, and of the interface of the packet. -/
structure Station where
  routerId : UInt32
  areaId : UInt32
  db : List MospfDbEntry
  helloint : ℤ
  numNbr : ℤ
  nbrList : List NbrEntry

/-- `handle_mospf_hello`. The address of the sender is from the IP header. -/
def handleMospfHello (s : Station) (packet : ℕ → UInt8) : Loaded Station := do
  let srid ← load32 packet (mhdrAt + 4)
  match s.nbrList.findIdx? fun nbr => decide (nbr.nbrId = srid) with
  | some i =>
    pure { s with nbrList := s.nbrList.modify i fun nbr =>
      { nbr with alive := UInt8.ofInt (3 * s.helloint) } }
  | none =>
    let mask ← load32 packet bodyAt
    pure { s with
      nbrList := s.nbrList ++ [⟨⟨srid, ntohl (word32 packet (etherHdrSize + 12)), mask⟩,
        UInt8.ofInt (3 * s.helloint)⟩]
      numNbr := s.numNbr + 1 }

/-- The loop over the advertisements from a position on. -/
def loadLsas (packet : ℕ → UInt8) : ℕ → ℕ → Loaded (List MospfLsa)
  | _, 0 => pure []
  | mlsa, n + 1 => do
    let rid ← load32 packet (mlsa + 8)
    let mask ← load32 packet (mlsa + 4)
    let network ← load32 packet mlsa
    let rest ← loadLsas packet (mlsa + mospfLsaSize) n
    pure (⟨network, mask, rid⟩ :: rest)

/-- The field `nadv` as the `int` of an entry bounds the loop. -/
def lsaCount (nadv : UInt32) : ℕ := nadv.toInt32.toInt.toNat

/-- The search for the entry of a router finds one that is not older. -/
def stale (db : List MospfDbEntry) (rid : UInt32) (seq : UInt16) : Bool :=
  match db.find? fun entry => decide (entry.rid = rid) with
  | some entry => decide (seq ≤ entry.seq)
  | none => false

/-- `handle_mospf_lsu` up to the relay, on the bytes. -/
def handleLsuBytes (s : Station) (packet : ℕ → UInt8) : Loaded Station := do
  let rid ← load32 packet (mhdrAt + 4)
  if rid = s.routerId then pure s
  else do
    let seq ← load16 packet bodyAt
    if stale s.db rid seq then pure s
    else do
      let nadv ← load32 packet (bodyAt + 4)
      let array ← loadLsas packet mlsaAt (lsaCount nadv)
      pure { s with db := (storeLsu s.db ⟨rid, seq, array⟩).getD s.db }

/-- The tests of `handle_mospf_packet`. -/
def Verified (s : Station) (packet : ℕ → UInt8) : Prop :=
  packet (mospfAt packet) = mospfVersion ∧
    word16 packet (mospfAt packet + 12) = mospfChecksum packet (mospfAt packet) ∧
    ntohl (word32 packet (mospfAt packet + 8)) = s.areaId

instance (s : Station) (packet : ℕ → UInt8) : Decidable (Verified s packet) :=
  inferInstanceAs (Decidable (_ ∧ _ ∧ _))

/-- `handle_mospf_packet`. -/
def handleMospfPacket (s : Station) (packet : ℕ → UInt8) : Loaded Station :=
  if Verified s packet then
    if packet (mospfAt packet + 1) = mospfTypeHello then handleMospfHello s packet
    else if packet (mospfAt packet + 1) = mospfTypeLsu then handleLsuBytes s packet
    else pure s
  else pure s

/-- The position after the last field that a handler loads. -/
def fieldsEnd (s : Station) (packet : ℕ → UInt8) : ℕ :=
  let rid := ntohl (word32 packet (mhdrAt + 4))
  if packet (mospfAt packet + 1) = mospfTypeHello then
    if ∃ nbr ∈ s.nbrList, nbr.nbrId = rid then mhdrAt + 8 else bodyAt + 4
  else if rid = s.routerId then mhdrAt + 8
  else if stale s.db rid (ntohs (word16 packet bodyAt)) then bodyAt + 2
  else mlsaAt + mospfLsaSize * lsaCount (ntohl (word32 packet (bodyAt + 4)))

end Model

section Bounds

variable {s : Station} {packet : ℕ → UInt8}

/-- The bytes loaded are from the field `rid` on and before a position, and these ends are
reached. -/
def Spans (bytes : List ℕ) (last : ℕ) : Prop :=
  (∀ p ∈ bytes, mhdrAt + 4 ≤ p ∧ p < last) ∧ mhdrAt + 4 ∈ bytes ∧ last - 1 ∈ bytes

theorem bytes_loadLsas (packet : ℕ → UInt8) (mlsa n : ℕ) :
    (∀ p ∈ (loadLsas packet mlsa n).bytes, mlsa ≤ p ∧ p < mlsa + mospfLsaSize * n) ∧
    (n ≠ 0 → mlsa + mospfLsaSize * n - 1 ∈ (loadLsas packet mlsa n).bytes) := by
  induction n generalizing mlsa with
  | zero => exact ⟨fun p hp => absurd hp List.not_mem_nil, fun h => absurd rfl h⟩
  | succ n ih =>
    obtain ⟨hall, hlast⟩ := ih (mlsa + mospfLsaSize)
    rw [loadLsas]
    simp only [bytes_bind, bytes_pure, load32, List.append_nil, mospfLsaSize,
      List.mem_append, List.mem_cons, List.not_mem_nil, or_false] at hall hlast ⊢
    refine ⟨fun p hp => ?_, fun _ => ?_⟩
    · rcases hp with hp | hp | hp | hp
      · omega
      · omega
      · omega
      · have hbound := hall p hp
        omega
    · by_cases hn : n = 0
      · subst hn
        left
        omega
      · have hin := hlast hn
        have heq : mlsa + 12 + 12 * n - 1 = mlsa + 12 * (n + 1) - 1 := by omega
        rw [heq] at hin
        exact .inr (.inr (.inr hin))

theorem bytes_hello (s : Station) (packet : ℕ → UInt8) : (handleMospfHello s packet).bytes =
    [38, 39, 40, 41] ++
      if ∃ nbr ∈ s.nbrList, nbr.nbrId = ntohl (word32 packet (mhdrAt + 4)) then []
      else [50, 51, 52, 53] := by
  rw [handleMospfHello, bytes_bind]
  refine congrArg ([38, 39, 40, 41] ++ ·) ?_
  show (match s.nbrList.findIdx? fun nbr =>
    decide (nbr.nbrId = ntohl (word32 packet (mhdrAt + 4))) with
    | some i => _ | none => _ : Loaded Station).bytes = _
  cases hfind : s.nbrList.findIdx? fun nbr =>
      decide (nbr.nbrId = ntohl (word32 packet (mhdrAt + 4))) with
  | none =>
    rw [List.findIdx?_eq_none_iff] at hfind
    rw [if_neg]
    · rfl
    · rintro ⟨nbr, hmem, hrid⟩
      exact of_decide_eq_false (hfind nbr hmem) hrid
  | some i =>
    obtain ⟨hlt, hrid, -⟩ := List.findIdx?_eq_some_iff_getElem.mp hfind
    rw [if_pos ⟨_, List.getElem_mem hlt, of_decide_eq_true hrid⟩]
    rfl

theorem spans_hello (htype : packet (mospfAt packet + 1) = mospfTypeHello) :
    Spans (handleMospfHello s packet).bytes (fieldsEnd s packet) := by
  rw [fieldsEnd, if_pos htype, bytes_hello]
  split_ifs
  · exact ⟨by decide, by decide, by decide⟩
  · exact ⟨by decide, by decide, by decide⟩

/-- The LSU in a packet. -/
def lsuOf (packet : ℕ → UInt8) : Lsu :=
  ⟨ntohl (word32 packet (mhdrAt + 4)), ntohs (word16 packet bodyAt),
    (loadLsas packet mlsaAt (lsaCount (ntohl (word32 packet (bodyAt + 4))))).value⟩

theorem handleLsuBytes_eq (s : Station) (packet : ℕ → UInt8) : handleLsuBytes s packet =
    if (lsuOf packet).rid = s.routerId then ⟨s, [38, 39, 40, 41]⟩
    else if stale s.db (lsuOf packet).rid (lsuOf packet).seq then ⟨s, [38, 39, 40, 41, 50, 51]⟩
    else ⟨{ s with db := (storeLsu s.db (lsuOf packet)).getD s.db },
      [38, 39, 40, 41, 50, 51, 54, 55, 56, 57] ++
        (loadLsas packet mlsaAt (lsaCount (ntohl (word32 packet (bodyAt + 4))))).bytes⟩ := by
  have hbind {α β : Type} (x : Loaded α) (f : α → Loaded β) :
      x >>= f = ⟨(f x.value).value, x.bytes ++ (f x.value).bytes⟩ := rfl
  have hrid : (load32 packet (mhdrAt + 4)).value = (lsuOf packet).rid := rfl
  have hseq : (load16 packet bodyAt).value = (lsuOf packet).seq := rfl
  rw [handleLsuBytes, hbind, hrid]
  by_cases hown : (lsuOf packet).rid = s.routerId
  · rw [if_pos hown, if_pos hown]
    rfl
  · rw [if_neg hown, if_neg hown, hbind, hseq]
    by_cases hstale : stale s.db (lsuOf packet).rid (lsuOf packet).seq = true
    · rw [if_pos hstale, if_pos hstale]
      rfl
    · rw [if_neg hstale, if_neg hstale, hbind, hbind]
      simp only [bytes_pure, List.append_nil]
      rfl

theorem spans_lsu (htype : packet (mospfAt packet + 1) ≠ mospfTypeHello) :
    Spans (handleLsuBytes s packet).bytes (fieldsEnd s packet) := by
  rw [fieldsEnd, if_neg htype, handleLsuBytes_eq]
  show Spans _ (if (lsuOf packet).rid = s.routerId then mhdrAt + 8
    else if stale s.db (lsuOf packet).rid (lsuOf packet).seq then bodyAt + 2 else _)
  split_ifs with hown hstale
  · show Spans [38, 39, 40, 41] (mhdrAt + 8)
    exact ⟨by decide, by decide, by decide⟩
  · show Spans [38, 39, 40, 41, 50, 51] (bodyAt + 2)
    exact ⟨by decide, by decide, by decide⟩
  · obtain ⟨hall, hlast⟩ := bytes_loadLsas packet mlsaAt
      (lsaCount (ntohl (word32 packet (bodyAt + 4))))
    have hmhdr : mhdrAt = 34 := rfl
    have hmlsa : mlsaAt = 58 := rfl
    refine ⟨fun p hp => ?_, List.mem_append_left _ (by decide), ?_⟩
    · rcases List.mem_append.mp hp with hhead | hlsas
      · simp only [List.mem_cons, List.not_mem_nil, or_false] at hhead
        omega
      · have hbound := hall p hlsas
        omega
    · by_cases hn : lsaCount (ntohl (word32 packet (bodyAt + 4))) = 0
      · rw [hn]
        exact List.mem_append_left _ (by decide)
      · exact List.mem_append_right _ (hlast hn)

/-- All that a handler loads is in the packet and in the part that has been verified exactly when
the IP header has at most one word of options and the fields end within both. -/
theorem loads_verified_iff (s : Station) (packet : ℕ → UInt8) (len : ℕ) :
    (∀ p ∈ (handleMospfPacket s packet).bytes,
      p < len ∧ mospfAt packet ≤ p ∧ p < mospfAt packet + mospfLen packet (mospfAt packet)) ↔
    (Verified s packet → packet (mospfAt packet + 1) = mospfTypeHello ∨
        packet (mospfAt packet + 1) = mospfTypeLsu →
      ipHdrSizeOf packet ≤ ipBaseHdrSize + 4 ∧ fieldsEnd s packet ≤ len ∧
        fieldsEnd s packet ≤ mospfAt packet + mospfLen packet (mospfAt packet)) := by
  have hspans {bytes : List ℕ} (h : Spans bytes (fieldsEnd s packet)) :
      (∀ p ∈ bytes,
        p < len ∧ mospfAt packet ≤ p ∧ p < mospfAt packet + mospfLen packet (mospfAt packet)) ↔
      ipHdrSizeOf packet ≤ ipBaseHdrSize + 4 ∧ fieldsEnd s packet ≤ len ∧
        fieldsEnd s packet ≤ mospfAt packet + mospfLen packet (mospfAt packet) := by
    obtain ⟨hall, hfirst, hlast⟩ := h
    have hat : mospfAt packet = 14 + ipHdrSizeOf packet := rfl
    have hmhdr : mhdrAt = 34 := rfl
    have hbase : ipBaseHdrSize = 20 := rfl
    constructor
    · intro hin
      have h₁ := hin _ hfirst
      have h₂ := hin _ hlast
      have h₃ := (hall _ hfirst).2
      omega
    · intro hcond p hp
      have hbound := hall p hp
      omega
  rw [handleMospfPacket]
  by_cases hverified : Verified s packet
  · rw [if_pos hverified]
    by_cases hhello : packet (mospfAt packet + 1) = mospfTypeHello
    · rw [if_pos hhello, hspans (spans_hello hhello)]
      exact ⟨fun h _ _ => h, fun h => h hverified (.inl hhello)⟩
    · rw [if_neg hhello]
      by_cases hlsu : packet (mospfAt packet + 1) = mospfTypeLsu
      · rw [if_pos hlsu, hspans (spans_lsu hhello)]
        exact ⟨fun h _ _ => h, fun h => h hverified (.inr hlsu)⟩
      · rw [if_neg hlsu]
        refine iff_of_true (fun p hp => absurd hp List.not_mem_nil) fun _ htype => ?_
        rcases htype with h | h
        · exact absurd h hhello
        · exact absurd h hlsu
  · rw [if_neg hverified]
    exact iff_of_true (fun p hp => absurd hp List.not_mem_nil) fun h => absurd h hverified

/-- A router with no neighbours and an empty database. -/
def aloneRouter : Station := ⟨1, 0, [], 5, 0, []⟩

/-- A frame with an LSU of router 2 behind an IP header of so many words. -/
def lsuFrame (words : UInt8) (nadv : UInt8) (lo hi : UInt8) : List UInt8 :=
  List.replicate 14 0 ++ [0x40 + words] ++ List.replicate (4 * words.toNat - 1) 0 ++
    [2, 4, 0, 24, 0, 0, 0, 2, 0, 0, 0, 0, lo, hi, 0, 0] ++ [0, 1, 255, 0, 0, 0, 0, nadv]

/-- An advertisement is read behind the end of the packet, and with IP options the router id is
read in front of what has been verified. -/
theorem loads_not_verified :
    (∃ packet : ℕ → UInt8, Verified aloneRouter packet ∧
      ∃ p ∈ (handleMospfPacket aloneRouter packet).bytes, (lsuFrame 5 1 254 222).length ≤ p ∧
        mospfAt packet + mospfLen packet (mospfAt packet) ≤ p) ∧
    ∃ packet : ℕ → UInt8, Verified aloneRouter packet ∧
      ∃ p ∈ (handleMospfPacket aloneRouter packet).bytes, p < mospfAt packet := by
  refine ⟨⟨fun p => (lsuFrame 5 1 254 222).getD p 0, by decide +kernel, ?_⟩,
    ⟨fun p => (lsuFrame 7 0 254 223).getD p 0, by decide +kernel, ?_⟩⟩
  · exact ⟨66, by decide +kernel, by decide +kernel, by decide +kernel⟩
  · exact ⟨38, by decide +kernel, by decide +kernel⟩

end Bounds

end Mospf

end NetworkLab
