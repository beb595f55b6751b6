import NetworkLab.AddressKeys

/-!
# The longest prefix of an address

What a table of prefixes is for: the route of an address is the longest inserted prefix
that covers it, and of two of the same length the later one.
-/
namespace NetworkLab.Tries

section Coverage

namespace Insertion

/-- The prefix has at least one bit and at most all of them. -/
def Proper (p : Insertion) : Prop := 1 ≤ p.mask ∧ p.mask ≤ 32

instance (p : Insertion) : Decidable p.Proper := inferInstanceAs (Decidable (_ ∧ _))

variable {p q : Insertion} {a : UInt32}

theorem Proper.one_le (h : p.Proper) : 1 ≤ p.mask.toNat := UInt32.le_iff_toNat_le.mp h.1

theorem Proper.le_32 (h : p.Proper) : p.mask.toNat ≤ 32 := UInt32.le_iff_toNat_le.mp h.2

theorem covers_iff_div (h : p.Proper) :
    p.Covers a ↔
      a.toNat / 2 ^ (32 - p.mask.toNat) = p.dest.toNat / 2 ^ (32 - p.mask.toNat) := by
  rw [Covers, ← UInt32.toNat_inj, toNat_shiftRight_mask h.one_le h.le_32,
    toNat_shiftRight_mask h.one_le h.le_32]

/-- Addresses that a prefix does not tell apart are not told apart by a shorter one. -/
theorem Covers.shorter (hp : p.Proper) (hq : q.Proper) (hle : p.mask ≤ q.mask)
    (h : q.Covers a) : a >>> (32 - p.mask) = q.dest >>> (32 - p.mask) := by
  have hle' := UInt32.le_iff_toNat_le.mp hle
  have hq32 := hq.le_32
  have hsplit : (2 : ℕ) ^ (32 - p.mask.toNat) =
      2 ^ (32 - q.mask.toNat) * 2 ^ (q.mask.toNat - p.mask.toNat) := by
    rw [← pow_add]
    congr 1
    omega
  rw [← UInt32.toNat_inj, toNat_shiftRight_mask hp.one_le hp.le_32,
    toNat_shiftRight_mask hp.one_le hp.le_32, hsplit, ← Nat.div_div_eq_div_mul,
    ← Nat.div_div_eq_div_mul, (covers_iff_div hq).mp h]

/-- Of two prefixes of one address the shorter one covers the longer one. -/
theorem Covers.nested (hp : p.Proper) (hq : q.Proper) (hle : p.mask ≤ q.mask)
    (h : q.Covers a) : p.Covers a ↔ p.Covers q.dest := by
  rw [Covers, Covers, h.shorter hp hq hle]

end Insertion

end Coverage

section Longest

/-- The better one for this address of what was there before and a new prefix. -/
def better (a : UInt32) (o : Option Insertion) (p : Insertion) : Option Insertion :=
  if p.Covers a ∧ ∀ q ∈ o, q.mask ≤ p.mask then some p else o

/-- The longest prefix of the address. -/
def longestMatch (ps : List Insertion) (a : UInt32) : Option Insertion :=
  ps.foldl (better a) none

theorem longestMatch_append (ps : List Insertion) (p : Insertion) (a : UInt32) :
    longestMatch (ps ++ [p]) a = better a (longestMatch ps a) p :=
  List.foldl_append

/-- The length of a prefix, and zero for the default. -/
def length (o : Option Insertion) : ℕ := o.elim 0 (·.mask.toNat)

variable {ps : List Insertion} {p q : Insertion} {a : UInt32}

theorem better_pos {o : Option Insertion} (h : p.Covers a) (hlen : length o ≤ p.mask.toNat) :
    better a o p = some p := by
  refine if_pos ⟨h, fun q hq => UInt32.le_iff_toNat_le.mpr ?_⟩
  rw [Option.mem_def.mp hq] at hlen
  exact hlen

theorem better_neg {o : Option Insertion} (h : ¬(p.Covers a ∧ length o ≤ p.mask.toNat)) :
    better a o p = o := by
  refine if_neg fun hboth => h ⟨hboth.1, ?_⟩
  cases o with
  | none => exact Nat.zero_le _
  | some q => exact UInt32.le_iff_toNat_le.mp (hboth.2 q rfl)

/-- The longest prefix is one of the inserted ones, and all others are at most as long. -/
theorem longestMatch_spec (ps : List Insertion) (a : UInt32) :
    (∀ p ∈ longestMatch ps a, p ∈ ps ∧ p.Covers a) ∧
      ∀ q ∈ ps, q.Covers a → ∃ p ∈ longestMatch ps a, q.mask ≤ p.mask := by
  induction ps using List.reverseRecOn with
  | nil => exact ⟨fun p hp => (by cases hp), fun q hq => (by cases hq)⟩
  | append_singleton ps p ih =>
    obtain ⟨hmem, hmax⟩ := ih
    rw [longestMatch_append]
    by_cases hnew : p.Covers a ∧ length (longestMatch ps a) ≤ p.mask.toNat
    · rw [better_pos hnew.1 hnew.2]
      refine ⟨fun q hq => ?_, fun q hq hcovers => ⟨p, rfl, ?_⟩⟩
      · obtain rfl := Option.some.inj hq
        exact ⟨List.mem_concat_self, hnew.1⟩
      · rcases List.mem_append.mp hq with hold | hlast
        · obtain ⟨r, hr, hle⟩ := hmax q hold hcovers
          have hlen := hnew.2
          rw [Option.mem_def.mp hr] at hlen
          exact UInt32.le_trans hle (UInt32.le_iff_toNat_le.mpr hlen)
        · rw [List.mem_singleton.mp hlast]
          exact UInt32.le_refl _
    · rw [better_neg hnew]
      refine ⟨fun q hq => ⟨List.mem_append_left _ (hmem q hq).1, (hmem q hq).2⟩,
        fun q hq hcovers => ?_⟩
      rcases List.mem_append.mp hq with hold | hlast
      · exact hmax q hold hcovers
      · obtain rfl := List.mem_singleton.mp hlast
        have hlonger : q.mask.toNat < length (longestMatch ps a) := by
          by_contra hle
          exact hnew ⟨hcovers, Nat.le_of_not_lt hle⟩
        cases hbest : longestMatch ps a with
        | none =>
          rw [hbest] at hlonger
          exact absurd hlonger (Nat.not_lt_zero _)
        | some r =>
          rw [hbest] at hlonger
          exact ⟨r, rfl, UInt32.le_iff_toNat_le.mpr hlonger.le⟩

end Longest

end NetworkLab.Tries
