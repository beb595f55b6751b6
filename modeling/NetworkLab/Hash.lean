import Mathlib.Tactic

/-!
# The byte hash of the laboratory headers

`hash8` of `hash.h` is shared by the MAC table, the NAT table and the TCP socket
tables: it is the exclusive or of the bytes of a buffer.
-/
namespace NetworkLab

/-- Exclusive or of the bytes of a buffer. -/
def hash8 (buf : List UInt8) : UInt8 := buf.foldl (fun result b => result ^^^ b) 0

/-- The four bytes of a word in memory order of a little-endian machine. -/
def bytes32 (w : UInt32) : List UInt8 :=
  [w.toUInt8, (w >>> 8).toUInt8, (w >>> 16).toUInt8, (w >>> 24).toUInt8]

/-- The two bytes of a half word in memory order of a little-endian machine. -/
def bytes16 (w : UInt16) : List UInt8 := [w.toUInt8, (w >>> 8).toUInt8]

/-- Host to network order: the bytes of the word reversed. -/
def htonl (w : UInt32) : UInt32 :=
  (w <<< 24) ||| ((w &&& (0xff00 : UInt32)) <<< 8) |||
    ((w >>> 8) &&& (0xff00 : UInt32)) ||| (w >>> 24)

def htons (w : UInt16) : UInt16 := (w <<< 8) ||| (w >>> 8)

end NetworkLab
