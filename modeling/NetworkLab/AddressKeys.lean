import NetworkLab.Poptrie
import Mathlib.Logic.Function.Iterate
import Mathlib.Data.Nat.Bitwise
import Mathlib.Tactic.IntervalCases
import Mathlib.Tactic.NormNum
import Mathlib.Tactic.Positivity
import Mathlib.Tactic.Ring

/-!
# Addresses as sequences of keys

The loops of the trie take an address six bits at a time. Two addresses agree on a prefix
when they agree on its full keys and on the first bits of the next one.
-/
namespace NetworkLab.Tries

section Keys

/-- The address after `n` rounds of a loop. -/
def shifted (dest : UInt32) (n : ℕ) : UInt32 := (fun d : UInt32 => d <<< 6)^[n] dest

/-- The key that round `n` of a loop looks at. -/
def keys (dest : UInt32) (n : ℕ) : ℕ := keyOf (shifted dest n)

variable (dest : UInt32)

theorem shifted_succ (n : ℕ) : shifted dest (n + 1) = shifted dest n <<< 6 :=
  Function.iterate_succ_apply' _ n dest

theorem toNat_shiftLeft_six : (dest <<< 6).toNat = dest.toNat * 64 % 2 ^ 32 := by
  rw [UInt32.toNat_shiftLeft, Nat.shiftLeft_eq]
  rfl

theorem toNat_shifted (n : ℕ) : (shifted dest n).toNat = dest.toNat * 64 ^ n % 2 ^ 32 := by
  induction n with
  | zero =>
    rw [pow_zero, mul_one, Nat.mod_eq_of_lt dest.toNat_lt]
    rfl
  | succ n ih => rw [shifted_succ, toNat_shiftLeft_six, ih, Nat.mod_mul_mod, mul_assoc, ← pow_succ]

theorem keyOf_eq : keyOf dest = dest.toNat / 2 ^ 26 := by
  have hdest := dest.toNat_lt
  have hshift : (26 : UInt32).toNat % 32 = 26 := rfl
  have hmask : secMask.toNat >>> 26 = 2 ^ 6 - 1 := by decide
  rw [keyOf, UInt32.toNat_shiftRight, UInt32.toNat_and, hshift, Nat.shiftRight_and_distrib, hmask,
    Nat.and_two_pow_sub_one_eq_mod, Nat.shiftRight_eq_div_pow]
  omega

theorem keyOf_lt : keyOf dest < 64 := by
  have hdest := dest.toNat_lt
  rw [keyOf_eq]
  omega

theorem keys_lt (n : ℕ) : keys dest n < 64 := keyOf_lt _

/-- The index of `direct_pointing` is made of the first two keys. -/
theorem toNat_shiftRight_twenty :
    (dest >>> 20).toNat = keys dest 0 * 64 + keys dest 1 := by
  have hdest := dest.toNat_lt
  rw [keys, keys, keyOf_eq, keyOf_eq, toNat_shifted, toNat_shifted, UInt32.toNat_shiftRight,
    Nat.shiftRight_eq_div_pow]
  have hsh : (20 : UInt32).toNat % 32 = 20 := rfl
  rw [hsh]
  omega

theorem shiftLeft_twelve : dest <<< 12 = shifted dest 2 := by
  have hdest := dest.toNat_lt
  rw [← UInt32.toNat_inj, toNat_shifted, UInt32.toNat_shiftLeft, Nat.shiftLeft_eq]
  rfl

end Keys

section Prefixes

variable (dest : UInt32)

/-- The first `n` keys as one number. -/
def topKeys (n : ℕ) : ℕ := dest.toNat * 16 / 64 ^ (6 - n)

theorem topKeys_zero : topKeys dest 0 = 0 := by
  have hdest := dest.toNat_lt
  rw [topKeys]
  omega

theorem topKeys_succ {n : ℕ} (hn : n ≤ 5) :
    topKeys dest (n + 1) = topKeys dest n * 64 + keys dest n := by
  have hdest := dest.toNat_lt
  rw [topKeys, topKeys, keys, keyOf_eq, toNat_shifted]
  interval_cases n <;> omega

variable {dest}

/-- The first keys are the same when the first bits are. -/
theorem topKeys_eq_iff {a b : UInt32} {n : ℕ} (hn : n ≤ 6) :
    topKeys a n = topKeys b n ↔ ∀ i < n, keys a i = keys b i := by
  induction n with
  | zero =>
    rw [topKeys_zero, topKeys_zero]
    exact iff_of_true rfl fun i hi => absurd hi (Nat.not_lt_zero i)
  | succ n ih =>
    have ha := keys_lt a n
    have hb := keys_lt b n
    rw [topKeys_succ a (by omega), topKeys_succ b (by omega), Nat.forall_lt_succ_right,
      ← ih (by omega)]
    omega

section Lengths

variable {l r : ℕ}

/-- The bits behind a prefix of `l` keys and `r` bits. -/
theorem pow_rest (hr : r ≤ 6) (hm : 6 * l + r ≤ 32) :
    (2 : ℕ) ^ (32 - (6 * l + r)) * 16 = 64 ^ (6 - (l + 1)) * 2 ^ (6 - r) := by
  have h64 : (64 : ℕ) = 2 ^ 6 := by norm_num
  have h16 : (16 : ℕ) = 2 ^ 4 := by norm_num
  rw [h64, h16, ← pow_mul, ← pow_add, ← pow_add]
  congr 1
  omega

theorem pow_key (hr : r ≤ 6) : (64 : ℕ) = 2 ^ r * 2 ^ (6 - r) := by
  rw [← pow_add, Nat.add_sub_cancel' hr]
  norm_num

/-- A prefix is its full keys and the first bits of one more. -/
theorem div_pow_eq (a : UInt32) (hl : l ≤ 5) (hr : r ≤ 6) (hm : 6 * l + r ≤ 32) :
    a.toNat / 2 ^ (32 - (6 * l + r)) = topKeys a l * 2 ^ r + keys a l / 2 ^ (6 - r) := by
  have hnext : a.toNat / 2 ^ (32 - (6 * l + r)) = topKeys a (l + 1) / 2 ^ (6 - r) := by
    rw [topKeys, Nat.div_div_eq_div_mul, ← pow_rest hr hm,
      Nat.mul_div_mul_right _ _ (by norm_num)]
  have htop : topKeys a l * 64 = 2 ^ (6 - r) * (topKeys a l * 2 ^ r) := by
    rw [pow_key hr]
    ring
  rw [hnext, topKeys_succ a hl, htop, Nat.mul_add_div (by positivity)]

/-- Two addresses agree on a prefix when they agree on its keys and bits. -/
theorem div_pow_eq_iff (a b : UInt32) (hl : l ≤ 5) (hr : r ≤ 6) (hm : 6 * l + r ≤ 32) :
    a.toNat / 2 ^ (32 - (6 * l + r)) = b.toNat / 2 ^ (32 - (6 * l + r)) ↔
      (∀ i < l, keys a i = keys b i) ∧ keys a l / 2 ^ (6 - r) = keys b l / 2 ^ (6 - r) := by
  have hlow (c : UInt32) : keys c l / 2 ^ (6 - r) < 2 ^ r := by
    rw [Nat.div_lt_iff_lt_mul (by positivity), ← pow_key hr]
    exact keys_lt c l
  have ha := hlow a
  have hb := hlow b
  rw [div_pow_eq a hl hr hm, div_pow_eq b hl hr hm, ← topKeys_eq_iff (by omega)]
  constructor
  · intro heq
    have htop : topKeys a l = topKeys b l := by
      have hdiv := congrArg (· / 2 ^ r) heq
      simp only [Nat.mul_comm _ (2 ^ r)] at hdiv
      rwa [Nat.mul_add_div (by positivity), Nat.mul_add_div (by positivity),
        Nat.div_eq_of_lt ha, Nat.div_eq_of_lt hb] at hdiv
    rw [htop] at heq
    exact ⟨htop, Nat.add_left_cancel heq⟩
  · rintro ⟨htop, hkey⟩
    rw [htop, hkey]

/-- The key after a prefix that has no more bits. -/
theorem keys_mod_of_mod {a : UInt32} (hl : l ≤ 5) (hr : r ≤ 6) (hm : 6 * l + r ≤ 32)
    (ha : 2 ^ (32 - (6 * l + r)) ∣ a.toNat) : 2 ^ (6 - r) ∣ keys a l := by
  obtain ⟨c, hc⟩ := ha
  have htop : topKeys a (l + 1) = 2 ^ (6 - r) * c := by
    have hpos : 0 < 64 ^ (6 - (l + 1)) := by positivity
    have hsplit : a.toNat * 16 = 64 ^ (6 - (l + 1)) * (2 ^ (6 - r) * c) := by
      rw [← mul_assoc, ← pow_rest hr hm, hc]
      ring
    rw [topKeys, hsplit, Nat.mul_div_cancel_left _ hpos]
  have hkey : 2 ^ (6 - r) * (topKeys a l * 2 ^ r) + keys a l = 2 ^ (6 - r) * c := by
    rw [← htop, topKeys_succ a hl, pow_key hr]
    ring
  exact (Nat.dvd_add_right (Nat.dvd_mul_right _ _)).mp (hkey ▸ Nat.dvd_mul_right _ _)

end Lengths

end Prefixes

section Insertions

/-- The arguments of an insertion. -/
structure Insertion where
  dest : UInt32
  mask : UInt32
  iface : UInt32
  deriving DecidableEq

/-- The first bits of the address are those of the prefix. -/
def Insertion.Covers (p : Insertion) (a : UInt32) : Prop :=
  a >>> (32 - p.mask) = p.dest >>> (32 - p.mask)

instance (p : Insertion) (a : UInt32) : Decidable (p.Covers a) :=
  inferInstanceAs (Decidable (_ = _))

/-- The level of the node where a prefix of this length ends. -/
def level (mask : UInt32) : ℕ := (mask.toNat - 1) / 6

/-- The number of slots of that node which a prefix of this length has. -/
def range (mask : UInt32) : ℕ := 2 ^ (6 - (mask.toNat - 6 * level mask))

/-- The sequence of keys goes through one of the slots from `d level` on. -/
def Passes (d : ℕ → ℕ) (level range : ℕ) (x : ℕ → ℕ) : Prop :=
  (∀ i < level, x i = d i) ∧ d level ≤ x level ∧ x level < d level + range

instance (d : ℕ → ℕ) (level range : ℕ) (x : ℕ → ℕ) : Decidable (Passes d level range x) :=
  inferInstanceAs (Decidable (_ ∧ _))

variable {mask : UInt32}

theorem level_le (h32 : mask.toNat ≤ 32) : level mask ≤ 5 := by
  rw [level]
  omega

theorem rest_bounds (h1 : 1 ≤ mask.toNat) : 6 * level mask + (mask.toNat - 6 * level mask) =
    mask.toNat ∧ 1 ≤ mask.toNat - 6 * level mask ∧ mask.toNat - 6 * level mask ≤ 6 := by
  rw [level]
  omega

theorem toNat_sub_mask (h32 : mask.toNat ≤ 32) : (32 - mask).toNat = 32 - mask.toNat := by
  rw [UInt32.toNat_sub_of_le _ _ (UInt32.le_iff_toNat_le.mpr h32)]
  rfl

theorem toNat_shiftRight_mask (h1 : 1 ≤ mask.toNat) (h32 : mask.toNat ≤ 32) (a : UInt32) :
    (a >>> (32 - mask)).toNat = a.toNat / 2 ^ (32 - mask.toNat) := by
  rw [UInt32.toNat_shiftRight, toNat_sub_mask h32, Nat.shiftRight_eq_div_pow,
    Nat.mod_eq_of_lt (by omega)]

theorem toNat_masked (h1 : 1 ≤ mask.toNat) (h32 : mask.toNat ≤ 32) (dest : UInt32) :
    (masked dest mask).toNat =
      dest.toNat / 2 ^ (32 - mask.toNat) * 2 ^ (32 - mask.toNat) := by
  have hdest := dest.toNat_lt
  have hle : dest.toNat / 2 ^ (32 - mask.toNat) * 2 ^ (32 - mask.toNat) ≤ dest.toNat :=
    Nat.div_mul_le_self _ _
  rw [masked, UInt32.toNat_shiftLeft, toNat_shiftRight_mask h1 h32, toNat_sub_mask h32,
    Nat.shiftLeft_eq, Nat.mod_eq_of_lt (show 32 - mask.toNat < 32 by omega),
    Nat.mod_eq_of_lt (by omega)]

/-- The first slot of a prefix is a multiple of its number of slots. -/
theorem range_dvd (h1 : 1 ≤ mask.toNat) (h32 : mask.toNat ≤ 32) (dest : UInt32) :
    range mask ∣ keys (masked dest mask) (level mask) := by
  obtain ⟨hm, hr1, hr6⟩ := rest_bounds h1
  refine keys_mod_of_mod (level_le h32) hr6 (by omega) ?_
  rw [hm, toNat_masked h1 h32]
  exact Nat.dvd_mul_left _ _

/-- An insertion covers the addresses whose keys go through its slots. -/
theorem Insertion.covers_iff (p : Insertion) (h1 : 1 ≤ p.mask.toNat) (h32 : p.mask.toNat ≤ 32)
    (a : UInt32) :
    p.Covers a ↔ Passes (keys (masked p.dest p.mask)) (level p.mask) (range p.mask) (keys a) := by
  obtain ⟨hm, hr1, hr6⟩ := rest_bounds h1
  have hl := level_le h32
  have hmasked := toNat_masked h1 h32 p.dest
  have hsame : p.dest.toNat / 2 ^ (32 - p.mask.toNat) =
      (masked p.dest p.mask).toNat / 2 ^ (32 - p.mask.toNat) := by
    rw [hmasked, Nat.mul_div_cancel _ (by positivity)]
  rw [Insertion.Covers, ← UInt32.toNat_inj, toNat_shiftRight_mask h1 h32,
    toNat_shiftRight_mask h1 h32, hsame, ← hm, div_pow_eq_iff _ _ hl hr6 (by omega)]
  refine and_congr_right fun _ => ?_
  have hpos : 0 < range p.mask := by
    rw [range]
    positivity
  obtain ⟨c, hc⟩ := range_dvd h1 h32 p.dest
  rw [range] at hc hpos ⊢
  rw [hc, Nat.mul_div_cancel_left _ hpos, Nat.div_eq_iff hpos]
  rw [Nat.mul_comm c]
  omega

/-- The slots of a prefix are in one node. -/
theorem range_le (h1 : 1 ≤ mask.toNat) (h32 : mask.toNat ≤ 32) (dest : UInt32) :
    keys (masked dest mask) (level mask) + range mask ≤ 64 := by
  obtain ⟨-, -, hr6⟩ := rest_bounds h1
  obtain ⟨c, hc⟩ := range_dvd h1 h32 dest
  have hlt := keys_lt (masked dest mask) (level mask)
  have hkey : 64 = 2 ^ (mask.toNat - 6 * level mask) * range mask := pow_key hr6
  rw [hc] at hlt ⊢
  rw [hkey, Nat.mul_comm] at hlt ⊢
  have hc' : c < 2 ^ (mask.toNat - 6 * level mask) := Nat.lt_of_mul_lt_mul_right hlt
  calc c * range mask + range mask = (c + 1) * range mask := by ring
    _ ≤ 2 ^ (mask.toNat - 6 * level mask) * range mask := Nat.mul_le_mul_right _ hc'

/-- A sequence of keys goes through the same slots as some address; of the last key only two
bits are in the address. -/
theorem exists_address (x : ℕ → ℕ) (hx : ∀ i, x i < 64) :
    ∃ a : UInt32, (∀ i < 5, keys a i = x i) ∧ keys a 5 = x 5 / 16 * 16 := by
  have h0 := hx 0
  have h1 := hx 1
  have h2 := hx 2
  have h3 := hx 3
  have h4 := hx 4
  have h5 := hx 5
  obtain ⟨a, hval⟩ : ∃ a : UInt32,
      a.toNat = ((((x 0 * 64 + x 1) * 64 + x 2) * 64 + x 3) * 64 + x 4) * 4 + x 5 / 16 :=
    ⟨UInt32.ofNat _, UInt32.toNat_ofNat_of_lt' (show _ < 2 ^ 32 by omega)⟩
  refine ⟨a, fun i hi => ?_, ?_⟩
  · rw [keys, keyOf_eq, toNat_shifted, hval]
    interval_cases i <;> omega
  · rw [keys, keyOf_eq, toNat_shifted, hval]
    omega

/-- The slots of a prefix do not tell the rest of the last key. -/
theorem Insertion.covers_iff_passes (p : Insertion) (h1 : 1 ≤ p.mask.toNat)
    (h32 : p.mask.toNat ≤ 32) {a : UInt32} {x : ℕ → ℕ} (hfirst : ∀ i < 5, keys a i = x i)
    (hlast : keys a 5 = x 5 / 16 * 16) :
    p.Covers a ↔ Passes (keys (masked p.dest p.mask)) (level p.mask) (range p.mask) x := by
  have hl := level_le h32
  rw [p.covers_iff h1 h32, Passes, Passes]
  refine and_congr (forall₂_congr fun i hi => by rw [hfirst i (by omega)]) ?_
  rcases Nat.lt_or_eq_of_le hl with hlt | heq
  · rw [hfirst _ hlt]
  · have hdvd := range_dvd h1 h32 p.dest
    have hsixteen : 16 ∣ range p.mask := by
      refine Nat.pow_dvd_pow 2 (show 4 ≤ 6 - (p.mask.toNat - 6 * level p.mask) by omega)
    obtain ⟨c, hc⟩ := hsixteen.trans hdvd
    obtain ⟨b, hb⟩ := hsixteen
    rw [hc, hb, heq, hlast]
    omega

end Insertions

end NetworkLab.Tries
