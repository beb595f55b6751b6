import NetworkLab.Hash

/-!
# The internet checksum

`checksum.h` of the later projects: add the 16-bit words of a buffer in 32 bits,
fold the carries back until none is left, and complement. Words are read in
memory order of a little-endian machine.
-/
namespace NetworkLab

/-- Add the words of the buffer, an odd last byte as a word of its own. -/
def sumWords : List UInt8 → UInt32 → UInt32
  | lo :: hi :: buf, sum => sumWords buf (sum + (lo.toUInt32 + 256 * hi.toUInt32))
  | [lo], sum => sum + lo.toUInt32
  | [], sum => sum

/-- One round of the carry loop. -/
def foldOnce (sum : UInt32) : UInt32 := (sum >>> 16) + (sum &&& 0xffff)

/-- A round with a carry makes the sum smaller, so the loop ends. -/
theorem foldOnce_lt {sum : UInt32} (h : sum >>> 16 ≠ 0) :
    (foldOnce sum).toNat < sum.toNat := by
  have hlt := sum.toNat_lt
  have hmod : sum.toNat &&& 65535 = sum.toNat % 65536 := Nat.and_two_pow_sub_one_eq_mod _ 16
  have hpos : 0 < sum.toNat / 65536 := by
    rw [Nat.pos_iff_ne_zero]
    intro hz
    apply h
    apply UInt32.toNat.inj
    simpa [Nat.shiftRight_eq_div_pow] using hz
  simp only [foldOnce, UInt32.toNat_add, UInt32.toNat_shiftRight, UInt32.toNat_and,
    Nat.shiftRight_eq_div_pow, UInt32.reduceToNat, Nat.reduceMod, Nat.reducePow, hmod]
  have hle := Nat.mod_le (sum.toNat / 65536 + sum.toNat % 65536) 4294967296
  omega

/-- The loop `while (sum >> 16)`. -/
def foldCarry (sum : UInt32) : UInt32 :=
  if h : sum >>> 16 = 0 then sum else
    have := foldOnce_lt h
    foldCarry (foldOnce sum)
termination_by sum.toNat

def checksum (buf : List UInt8) (sum : UInt32) : UInt16 :=
  ~~~ (foldCarry (sumWords buf sum)).toUInt16

end NetworkLab
