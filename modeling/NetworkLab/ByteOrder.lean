import NetworkLab.Hash

/-!
# Fields of a packet in memory

Loads of a little-endian machine and the conversion of what they give to host
order.
-/
namespace NetworkLab

def ntohs (w : UInt16) : UInt16 := htons w

def ntohl (w : UInt32) : UInt32 := htonl w

/-- The half word at a position in the memory of a little-endian machine. -/
def word16 (packet : ℕ → UInt8) (i : ℕ) : UInt16 :=
  (packet i).toUInt16 + (256 : UInt16) * (packet (i + 1)).toUInt16

/-- The word at a position. -/
def word32 (packet : ℕ → UInt8) (i : ℕ) : UInt32 :=
  (packet i).toUInt32 + (256 : UInt32) * (packet (i + 1)).toUInt32 +
    (65536 : UInt32) * (packet (i + 2)).toUInt32 +
    (16777216 : UInt32) * (packet (i + 3)).toUInt32

/-- The double word at a position. -/
def word64 (packet : ℕ → UInt8) (i : ℕ) : UInt64 :=
  (word32 packet i).toUInt64 + ((word32 packet (i + 4)).toUInt64 <<< 32)

/-- The macro `htonll`. -/
def htonll (w : UInt64) : UInt64 :=
  ((htonl w.toUInt32).toUInt64 <<< 32) ||| (htonl (w >>> 32).toUInt32).toUInt64

def ntohll (w : UInt64) : UInt64 := htonll w

/-- The first byte is the most significant one. -/
example : ntohll (word64 (fun i => UInt8.ofNat (i + 1)) 0) = 0x0102030405060708 := by
  decide +kernel

end NetworkLab
