import NetworkLab.OnesComplement
import NetworkLab.MospfPacket

/-!
# The versions of `checksum.h`

The first laboratories add an odd last byte before the words and fold the carries twice, the
router with mOSPF adds it after the folds, the later ones fold until no carry is left. Words are
summed in memory order, and an odd last byte counts as a word with a zero after it.
-/
namespace NetworkLab

section Words

/-- The words of a buffer up to the last byte of an odd one. -/
def evenWords (buf : ℕ → UInt8) (nbytes : ℕ) : List ℕ :=
  (List.range (nbytes / 2)).map fun i => (word16 buf (2 * i)).toNat

/-- The words of a buffer. -/
def halfWords (buf : ℕ → UInt8) (nbytes : ℕ) : List ℕ :=
  evenWords buf nbytes ++ if nbytes % 2 = 1 then [(buf (nbytes - 1)).toNat] else []

/-- The one's-complement sum of the words of a buffer. -/
def onesSum (buf : ℕ → UInt8) (nbytes : ℕ) : ℕ :=
  OnesComplement.sum 65535 (halfWords buf nbytes)

/-- The bytes of a list in memory. -/
def bytesAt (buf : List UInt8) : ℕ → UInt8 := fun p => buf.getD p 0

variable {buf : ℕ → UInt8} {nbytes : ℕ}

theorem le_of_mem_evenWords {w : ℕ} (h : w ∈ evenWords buf nbytes) : w ≤ 65535 := by
  obtain ⟨i, -, rfl⟩ := List.mem_map.mp h
  exact Nat.le_of_lt_succ (UInt16.toNat_lt _)

theorem le_of_mem_halfWords {w : ℕ} (h : w ∈ halfWords buf nbytes) : w ≤ 65535 := by
  rcases List.mem_append.mp h with h | h
  · exact le_of_mem_evenWords h
  · split_ifs at h with hodd
    · have hbyte := (buf (nbytes - 1)).toNat_lt
      rw [List.mem_singleton.mp h]
      omega
    · cases h

theorem onesSum_eq (buf : ℕ → UInt8) (nbytes : ℕ) :
    onesSum buf nbytes = OnesComplement.reduce 65535 (halfWords buf nbytes).sum :=
  OnesComplement.sum_eq_reduce (by decide) fun _ => le_of_mem_halfWords

theorem sum_halfWords (buf : ℕ → UInt8) (nbytes : ℕ) : (halfWords buf nbytes).sum =
    (evenWords buf nbytes).sum + if nbytes % 2 = 1 then (buf (nbytes - 1)).toNat else 0 := by
  rw [halfWords, List.sum_append]
  split_ifs <;> simp

theorem length_halfWords (buf : ℕ → UInt8) (nbytes : ℕ) :
    (halfWords buf nbytes).length = (nbytes + 1) / 2 := by
  rw [halfWords, List.length_append, evenWords, List.length_map, List.length_range]
  split_ifs <;> simp <;> omega

theorem sum_halfWords_le (buf : ℕ → UInt8) (nbytes : ℕ) :
    (halfWords buf nbytes).sum ≤ (nbytes + 1) / 2 * 65535 := by
  have h := List.sum_le_card_nsmul (halfWords buf nbytes) 65535 fun _ => le_of_mem_halfWords
  rwa [length_halfWords, smul_eq_mul] at h

end Words

section Carries

theorem toNat_carry (sum : UInt32) :
    ((sum >>> 16) + (sum &&& 0xffff)).toNat = sum.toNat / 65536 + sum.toNat % 65536 := by
  have hlt := sum.toNat_lt
  have hmod : sum.toNat &&& 65535 = sum.toNat % 65536 := Nat.and_two_pow_sub_one_eq_mod _ 16
  simp only [UInt32.toNat_add, UInt32.toNat_shiftRight, UInt32.toNat_and,
    Nat.shiftRight_eq_div_pow, UInt32.reduceToNat, Nat.reduceMod, Nat.reducePow, hmod]
  omega

/-- The carries are folded twice. -/
def twoFolds (sum : UInt32) : UInt32 :=
  let sum := (sum >>> 16) + (sum &&& 0xffff)
  sum + (sum >>> 16)

/-- After two rounds the low half of the sum is right. -/
theorem toNat_twoFolds (sum : UInt32) :
    (twoFolds sum).toNat % 65536 = OnesComplement.reduce 65535 sum.toNat := by
  have hlt := sum.toNat_lt
  have hcarry := toNat_carry sum
  obtain ⟨once, honce⟩ : ∃ once, once = (sum >>> 16) + (sum &&& 0xffff) := ⟨_, rfl⟩
  rw [← honce] at hcarry
  have hle : once.toNat ≤ 131070 := by omega
  have htwice : (once + (once >>> 16)).toNat = once.toNat + once.toNat / 65536 := by
    rw [UInt32.toNat_add, UInt32.toNat_shiftRight]
    simp only [UInt32.reduceToNat, Nat.reduceMod, Nat.shiftRight_eq_div_pow, Nat.reducePow]
    omega
  rw [← OnesComplement.reduce_carry (by decide), ← hcarry, twoFolds, ← honce, htwice]
  by_cases hsmall : once.toNat ≤ 65535
  · rw [OnesComplement.reduce_of_le hsmall]
    omega
  · have hback : once.toNat - 65535 + 65535 = once.toNat := by omega
    rw [← hback, OnesComplement.reduce_add_self (by decide) (by omega),
      OnesComplement.reduce_of_le (by omega), hback]
    omega

/-- The loop over the carries folds the sum. -/
theorem toNat_foldCarry (sum : UInt32) :
    (foldCarry sum).toNat = OnesComplement.reduce 65535 sum.toNat := by
  induction sum using foldCarry.induct with
  | case1 sum h =>
    have hdiv := congrArg UInt32.toNat h
    rw [UInt32.toNat_shiftRight] at hdiv
    simp only [UInt32.reduceToNat, Nat.reduceMod, Nat.shiftRight_eq_div_pow, Nat.reducePow] at hdiv
    rw [foldCarry, dif_pos h, OnesComplement.reduce_of_le (by omega)]
  | case2 sum h hlt ih =>
    rw [foldCarry, dif_neg h, ih, foldOnce, toNat_carry, OnesComplement.reduce_carry (by decide)]

theorem toNat_not_toUInt16 (sum : UInt32) :
    (~~~sum).toUInt16.toNat = 65535 - sum.toNat % 65536 := by
  rw [UInt32.toUInt16_not, UInt16.toNat_not, UInt32.toNat_toUInt16]
  rfl

end Carries

section Sums

variable {buf : ℕ → UInt8} {nbytes : ℕ}

theorem toNat_word16 (buf : ℕ → UInt8) (i : ℕ) :
    (word16 buf i).toNat = (buf i).toNat + 256 * (buf (i + 1)).toNat := by
  have hlo := (buf i).toNat_lt
  have hhi := (buf (i + 1)).toNat_lt
  simp only [word16, UInt16.toNat_add, UInt16.toNat_mul, UInt8.toNat_toUInt16,
    UInt16.toNat_ofNat, Nat.reduceMod, Nat.reducePow]
  omega

/-- The loop over the words. -/
theorem toNat_addWords (buf : ℕ → UInt8) (nbytes : ℕ) (sum : UInt32) :
    ((List.range (nbytes / 2)).foldl (fun sum i => sum + (word16 buf (2 * i)).toUInt32) sum).toNat =
      (sum.toNat + (evenWords buf nbytes).sum) % 2 ^ 32 := by
  have hfold (is : List ℕ) (sum : UInt32) :
      (is.foldl (fun sum i => sum + (word16 buf (2 * i)).toUInt32) sum).toNat =
        (sum.toNat + (is.map fun i => (word16 buf (2 * i)).toNat).sum) % 2 ^ 32 := by
    induction is generalizing sum with
    | nil => exact (Nat.mod_eq_of_lt sum.toNat_lt).symm
    | cons i is ih =>
      rw [List.foldl_cons, ih, UInt32.toNat_add, UInt16.toNat_toUInt32, List.map_cons,
        List.sum_cons, Nat.mod_add_mod, Nat.add_assoc]
  exact hfold _ sum

/-- The first two bytes are a word. -/
theorem halfWords_cons_cons (lo hi : UInt8) (buf : List UInt8) :
    halfWords (bytesAt (lo :: hi :: buf)) (buf.length + 2) =
      (lo.toNat + 256 * hi.toNat) :: halfWords (bytesAt buf) buf.length := by
  have hhalf : (buf.length + 2) / 2 = buf.length / 2 + 1 := by omega
  have hword (i : ℕ) : word16 (bytesAt (lo :: hi :: buf)) (2 * (i + 1)) =
      word16 (bytesAt buf) (2 * i) := rfl
  have hlast (h : buf.length % 2 = 1) : bytesAt (lo :: hi :: buf) (buf.length + 2 - 1) =
      bytesAt buf (buf.length - 1) := by
    obtain ⟨n, hn⟩ := Nat.exists_eq_succ_of_ne_zero (show buf.length ≠ 0 by omega)
    rw [hn]
    rfl
  have hfirst : (word16 (bytesAt (lo :: hi :: buf)) (2 * 0)).toNat = lo.toNat + 256 * hi.toNat :=
    toNat_word16 _ _
  rw [halfWords, halfWords, evenWords, evenWords, hhalf, List.range_succ_eq_map, List.map_cons,
    List.map_map, hfirst, Nat.add_mod_right, List.cons_append]
  congr 2
  split_ifs with hodd
  · rw [hlast hodd]
  · rfl

theorem toNat_sumWords (buf : List UInt8) (sum : UInt32) : (sumWords buf sum).toNat =
    (sum.toNat + (halfWords (bytesAt buf) buf.length).sum) % 2 ^ 32 := by
  induction buf, sum using sumWords.induct with
  | case1 lo hi buf sum ih =>
    have hlo := lo.toNat_lt
    have hhi := hi.toNat_lt
    have hword : (lo.toUInt32 + 256 * hi.toUInt32).toNat = lo.toNat + 256 * hi.toNat := by
      simp only [UInt32.toNat_add, UInt32.toNat_mul, UInt8.toNat_toUInt32, UInt32.toNat_ofNat,
        Nat.reduceMod, Nat.reducePow]
      omega
    rw [sumWords, ih, UInt32.toNat_add, hword, List.length_cons, List.length_cons,
      halfWords_cons_cons, List.sum_cons, Nat.mod_add_mod, Nat.add_assoc]
  | case2 lo sum =>
    have hone : (halfWords (bytesAt [lo]) [lo].length).sum = lo.toNat := by
      simp [halfWords, evenWords, bytesAt]
    rw [sumWords, UInt32.toNat_add, UInt8.toNat_toUInt32, hone]
  | case3 sum => exact (Nat.mod_eq_of_lt sum.toNat_lt).symm

end Sums

section Versions

/-- `checksum.h` of the first laboratories. -/
def Router.checksum (ptr : ℕ → UInt8) (nbytes : ℕ) (sum : UInt32) : UInt16 :=
  let (sum, nbytes) :=
    if nbytes % 2 = 1 then (sum + (ptr (nbytes - 1)).toUInt32, nbytes - 1) else (sum, nbytes)
  let sum := (List.range (nbytes / 2)).foldl (fun sum i => sum + (word16 ptr (2 * i)).toUInt32) sum
  let sum := (sum >>> 16) + (sum &&& 0xffff)
  let sum := sum + (sum >>> 16)
  (~~~sum).toUInt16

variable {buf : ℕ → UInt8} {nbytes : ℕ}

/-- The odd byte before the words. -/
theorem toNat_checksum_router (buf : ℕ → UInt8) (nbytes : ℕ) (sum : UInt32) :
    (Router.checksum buf nbytes sum).toNat = 65535 -
      OnesComplement.reduce 65535 ((sum.toNat + (halfWords buf nbytes).sum) % 2 ^ 32) := by
  have hfold (sum : UInt32) (n : ℕ) : (~~~(twoFolds ((List.range (n / 2)).foldl
      (fun sum i => sum + (word16 buf (2 * i)).toUInt32) sum))).toUInt16.toNat = 65535 -
        OnesComplement.reduce 65535 ((sum.toNat + (evenWords buf n).sum) % 2 ^ 32) := by
    rw [toNat_not_toUInt16, toNat_twoFolds, toNat_addWords]
  rw [sum_halfWords, Router.checksum]
  split_ifs with hodd
  · have heven : evenWords buf (nbytes - 1) = evenWords buf nbytes := by
      rw [evenWords, evenWords, show (nbytes - 1) / 2 = nbytes / 2 by omega]
    refine (hfold _ _).trans ?_
    rw [heven, UInt32.toNat_add, UInt8.toNat_toUInt32, Nat.mod_add_mod]
    congr 3
    omega
  · exact hfold sum nbytes

/-- The odd byte after the folds: its carry is lost. -/
theorem toNat_checksum_mospf (buf : ℕ → UInt8) (nbytes : ℕ) (sum : UInt32) :
    (Mospf.checksum buf nbytes sum).toNat = 65535 -
      (OnesComplement.reduce 65535 ((sum.toNat + (evenWords buf nbytes).sum) % 2 ^ 32) +
        if nbytes % 2 = 1 then (buf (nbytes - 1)).toNat else 0) % 65536 := by
  have hadd (sum : UInt32) (b : UInt8) : (sum + b.toUInt32).toNat % 65536 =
      (sum.toNat % 65536 + b.toNat) % 65536 := by
    rw [UInt32.toNat_add, UInt8.toNat_toUInt32]
    omega
  have hwords := toNat_twoFolds ((List.range (nbytes / 2)).foldl
    (fun sum i => sum + (word16 buf (2 * i)).toUInt32) sum)
  rw [toNat_addWords] at hwords
  rw [Mospf.checksum]
  split_ifs with hodd
  · refine (toNat_not_toUInt16 _).trans ?_
    rw [hadd, ← hwords]
    rfl
  · refine (toNat_not_toUInt16 _).trans ?_
    rw [Nat.add_zero, ← hwords, Nat.mod_mod]
    rfl

/-- Carries until none is left. -/
theorem toNat_checksum (buf : List UInt8) (sum : UInt32) : (checksum buf sum).toNat = 65535 -
    OnesComplement.reduce 65535
      ((sum.toNat + (halfWords (bytesAt buf) buf.length).sum) % 2 ^ 32) := by
  rw [checksum, ← UInt32.toUInt16_not, toNat_not_toUInt16, toNat_foldCarry, toNat_sumWords]
  have hle := OnesComplement.reduce_le (show 0 < 65535 by decide)
    ((sum.toNat + (halfWords (bytesAt buf) buf.length).sum) % 2 ^ 32)
  rw [Nat.mod_eq_of_lt (by omega)]

end Versions

section Agreement

/-- All versions give the complement of the one's-complement sum, and the words can be added in
32 bits. -/
structure VersionsAgree (buf : List UInt8) : Prop where
  fits : (halfWords (bytesAt buf) buf.length).sum < 2 ^ 32
  first : (Router.checksum (bytesAt buf) buf.length 0).toNat =
    65535 - onesSum (bytesAt buf) buf.length
  mospf : (Mospf.checksum (bytesAt buf) buf.length 0).toNat =
    65535 - onesSum (bytesAt buf) buf.length
  later : (checksum buf 0).toNat = 65535 - onesSum (bytesAt buf) buf.length

/-- The low half of a sum is the one's-complement sum where there is no carry. -/
theorem low_half_iff {e b : ℕ} (he : e ≤ 65535) (hb : b ≤ 65535) :
    65535 - (e + b) % 65536 = 65535 - OnesComplement.reduce 65535 (e + b) ↔ e + b ≤ 65535 := by
  by_cases hsmall : e + b ≤ 65535
  · rw [OnesComplement.reduce_of_le hsmall, Nat.mod_eq_of_lt (by omega)]
    exact iff_of_true rfl hsmall
  · have hback : e + b - 65535 + 65535 = e + b := by omega
    have hreduce : OnesComplement.reduce 65535 (e + b) = e + b - 65535 := by
      rw [← hback, OnesComplement.reduce_add_self (by decide) (by omega),
        OnesComplement.reduce_of_le (by omega), hback]
    rw [hreduce]
    omega

/-- The versions agree unless the odd last byte makes a carry. -/
theorem versionsAgree_iff (buf : List UInt8) (hlen : buf.length ≤ 65535) :
    VersionsAgree buf ↔ (buf.length % 2 = 1 →
      onesSum (bytesAt buf) (buf.length - 1) + (bytesAt buf (buf.length - 1)).toNat ≤ 65535) := by
  have hfits : (halfWords (bytesAt buf) buf.length).sum < 2 ^ 32 :=
    lt_of_le_of_lt (sum_halfWords_le _ _) (by omega)
  have hsum : ((0 : UInt32).toNat + (halfWords (bytesAt buf) buf.length).sum) % 2 ^ 32 =
      (halfWords (bytesAt buf) buf.length).sum := by
    rw [UInt32.toNat_zero, Nat.zero_add, Nat.mod_eq_of_lt hfits]
  have hfirst := toNat_checksum_router (bytesAt buf) buf.length 0
  have hlater := toNat_checksum buf 0
  have hmospf := toNat_checksum_mospf (bytesAt buf) buf.length 0
  rw [hsum, ← onesSum_eq] at hfirst hlater
  suffices hiff : (Mospf.checksum (bytesAt buf) buf.length 0).toNat =
      65535 - onesSum (bytesAt buf) buf.length ↔ (buf.length % 2 = 1 →
        onesSum (bytesAt buf) (buf.length - 1) + (bytesAt buf (buf.length - 1)).toNat ≤ 65535) by
    exact ⟨fun h => hiff.mp h.mospf, fun h => ⟨hfits, hfirst, hiff.mpr h, hlater⟩⟩
  have heven_le : (evenWords (bytesAt buf) buf.length).sum < 2 ^ 32 := by
    rw [sum_halfWords] at hfits
    omega
  rw [UInt32.toNat_zero, Nat.zero_add, Nat.mod_eq_of_lt heven_le] at hmospf
  rw [hmospf, onesSum_eq, sum_halfWords]
  by_cases hodd : buf.length % 2 = 1
  · have hprefix : onesSum (bytesAt buf) (buf.length - 1) =
        OnesComplement.reduce 65535 (evenWords (bytesAt buf) buf.length).sum := by
      have heven : (buf.length - 1) % 2 ≠ 1 := by omega
      have hhalf : (buf.length - 1) / 2 = buf.length / 2 := by omega
      rw [onesSum_eq, sum_halfWords, if_neg heven, Nat.add_zero, evenWords, evenWords, hhalf]
    have hbyte := (bytesAt buf (buf.length - 1)).toNat_lt
    have hle := OnesComplement.reduce_le (show 0 < 65535 by decide)
      (evenWords (bytesAt buf) buf.length).sum
    rw [if_pos hodd, ← OnesComplement.reduce_reduce_add (by decide),
      low_half_iff hle (by omega), hprefix]
    exact ⟨fun h _ => h, fun h => h hodd⟩
  · have hle := OnesComplement.reduce_le (show 0 < 65535 by decide)
      (evenWords (bytesAt buf) buf.length).sum
    rw [if_neg hodd, Nat.add_zero, Nat.add_zero, Nat.mod_eq_of_lt (by omega)]
    exact iff_of_true rfl fun h => absurd h hodd

theorem versionsAgree_words : VersionsAgree [69, 0, 0, 84, 1] :=
  (versionsAgree_iff _ (by decide)).mpr (by decide +kernel)

/-- The words are all ones, so the odd byte makes a carry. -/
theorem versions_differ : Mospf.checksum (bytesAt [255, 255, 1]) 3 0 = 0xffff ∧
    Router.checksum (bytesAt [255, 255, 1]) 3 0 = 0xfffe ∧ ¬VersionsAgree [255, 255, 1] := by
  have hmospf : Mospf.checksum (bytesAt [255, 255, 1]) 3 0 = 0xffff := by decide +kernel
  have hfirst : Router.checksum (bytesAt [255, 255, 1]) 3 0 = 0xfffe := by decide +kernel
  refine ⟨hmospf, hfirst, fun h => ?_⟩
  have heq := h.mospf.trans h.first.symm
  rw [show [255, 255, (1 : UInt8)].length = 3 from rfl, hmospf, hfirst] at heq
  exact absurd heq (by decide)

end Agreement

end NetworkLab
