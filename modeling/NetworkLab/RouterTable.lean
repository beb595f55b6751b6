import NetworkLab.RoutingTable

/-!
# The longest prefix match of the first router

Both versions of `longest_prefix_match` keep the first of the entries with the longest mask that
they have seen. The first router starts from a mask of zero instead of no entry, and takes only
entries with a greater mask: it never takes a default route.
-/
namespace NetworkLab.Router

variable {ι : Type*}

section Model

/-- One round of the loop, on `result` and `result_mask`. -/
def longerMask (dst : UInt32) : Option (RtEntry ι) × UInt32 → RtEntry ι →
    Option (RtEntry ι) × UInt32
  | (result, resultMask), entry =>
    if entry.mask > resultMask then
      if entry.mask &&& dst = entry.dest &&& entry.mask then (some entry, entry.mask)
      else (result, resultMask)
    else (result, resultMask)

def longestPrefixMatch (rtable : List (RtEntry ι)) (dst : UInt32) : Option (RtEntry ι) :=
  (rtable.foldl (longerMask dst) (none, 0)).1

/-- The mask of a prefix of `n` bits. -/
def prefixMask (n : ℕ) : UInt32 := UInt32.ofNat (2 ^ 32 - 2 ^ (32 - n))

/-- The number of bits that a mask sets. -/
def prefixLen (mask : UInt32) : ℕ := (List.range 32).countP fun i => mask.toNat.testBit i

/-- The ones of a mask stand before its zeros. -/
def Contiguous (mask : UInt32) : Prop := ∃ n ≤ 32, mask = prefixMask n

/-- The first in the table among the entries that match with the longest prefix. -/
structure FirstLongest (rtable : List (RtEntry ι)) (dst : UInt32) (entry : RtEntry ι) : Prop where
  found : entry.Matches dst
  place : ∃ pre post, rtable = pre ++ entry :: post ∧
    (∀ e ∈ pre, e.Matches dst → prefixLen e.mask < prefixLen entry.mask) ∧
    ∀ e ∈ post, e.Matches dst → prefixLen e.mask ≤ prefixLen entry.mask

/-- What a lookup has to return. -/
def IsLongest (rtable : List (RtEntry ι)) (dst : UInt32) : Option (RtEntry ι) → Prop
  | some entry => FirstLongest rtable dst entry
  | none => ∀ entry ∈ rtable, ¬entry.Matches dst

end Model

section Masks

variable {mask mask' : UInt32}

theorem prefixLen_prefixMask {n : ℕ} (hn : n ≤ 32) : prefixLen (prefixMask n) = n := by
  have hall : ∀ n : Fin 33, prefixLen (prefixMask n) = n := by decide +kernel
  exact hall ⟨n, Nat.lt_succ_of_le hn⟩

theorem toNat_prefixMask {n : ℕ} (_ : n ≤ 32) :
    (prefixMask n).toNat = 2 ^ 32 - 2 ^ (32 - n) := by
  have hpos : 0 < 2 ^ (32 - n) := Nat.two_pow_pos _
  rw [prefixMask, UInt32.toNat_ofNat', Nat.mod_eq_of_lt (by omega)]

/-- Of two contiguous masks the longer one is the greater number. -/
theorem Contiguous.lt_iff (h : Contiguous mask) (h' : Contiguous mask') :
    mask < mask' ↔ prefixLen mask < prefixLen mask' := by
  obtain ⟨n, hn, rfl⟩ := h
  obtain ⟨n', hn', rfl⟩ := h'
  rw [prefixLen_prefixMask hn, prefixLen_prefixMask hn', UInt32.lt_iff_toNat_lt,
    toNat_prefixMask hn, toNat_prefixMask hn']
  have hmono (k : ℕ) : 2 ^ (32 - k) ≤ 2 ^ 32 := Nat.pow_le_pow_right (by decide) (Nat.sub_le _ _)
  have hpow : 2 ^ (32 - n') < 2 ^ (32 - n) ↔ 32 - n' < 32 - n :=
    Nat.pow_lt_pow_iff_right (by decide)
  have h₁ := hmono n
  have h₂ := hmono n'
  omega

end Masks

section Lookup

variable {rtable : List (RtEntry ι)} {dst : UInt32}

theorem matches_iff {entry : RtEntry ι} :
    entry.mask &&& dst = entry.dest &&& entry.mask ↔ entry.Matches dst := by
  rw [RtEntry.Matches, UInt32.and_comm]

/-- What the first router keeps where the later ones keep an entry. -/
def kept (selected : Option (RtEntry ι)) : Option (RtEntry ι) × UInt32 :=
  (selected.filter fun entry => decide (entry.mask ≠ 0), selected.elim 0 (·.mask))

theorem longerMask_kept (selected : Option (RtEntry ι)) (entry : RtEntry ι) :
    longerMask dst (kept selected) entry = kept (longer dst selected entry) := by
  have hpos : entry.mask > 0 ↔ entry.mask ≠ 0 := UInt32.pos_iff_ne_zero
  simp only [longerMask, kept, longer, matches_iff]
  by_cases hm : entry.Matches dst
  · cases selected with
    | none => by_cases hzero : entry.mask = 0 <;> simp [hm, hzero, hpos, Option.filter]
    | some s =>
      by_cases hlt : s.mask < entry.mask
      · have hne : entry.mask ≠ 0 := fun hzero => UInt32.not_lt_zero (hzero ▸ hlt)
        simp [hm, hlt, hne, Option.filter]
      · simp [hm, hlt, Option.filter]
  · simp [hm]

/-- The entry that the first router keeps is that of the later ones, but for its mask of zero. -/
theorem longestPrefixMatch_eq (rtable : List (RtEntry ι)) (dst : UInt32) :
    longestPrefixMatch rtable dst =
      (NetworkLab.longestPrefixMatch rtable dst).filter fun entry => decide (entry.mask ≠ 0) := by
  have hfold (rtable : List (RtEntry ι)) (selected : Option (RtEntry ι)) :
      rtable.foldl (longerMask dst) (kept selected) =
        kept (rtable.foldl (longer dst) selected) := by
    induction rtable generalizing selected with
    | nil => rfl
    | cons entry rtable ih => rw [List.foldl_cons, longerMask_kept, ih, List.foldl_cons]
  exact congrArg Prod.fst (hfold rtable none)

theorem FirstLongest.mem {entry : RtEntry ι} (h : FirstLongest rtable dst entry) :
    entry ∈ rtable := by
  obtain ⟨pre, post, rfl, -, -⟩ := h.place
  simp

theorem FirstLongest.le {entry e : RtEntry ι} (h : FirstLongest rtable dst entry)
    (he : e ∈ rtable) (hmatch : e.Matches dst) : prefixLen e.mask ≤ prefixLen entry.mask := by
  obtain ⟨pre, post, rfl, hpre, hpost⟩ := h.place
  rcases List.mem_append.mp he with he | he
  · exact (hpre e he hmatch).le
  · rcases List.mem_cons.mp he with rfl | he
    · exact le_rfl
    · exact hpost e he hmatch

/-- An entry at the end that is not longer changes nothing. -/
theorem FirstLongest.append {s entry : RtEntry ι} (hs : FirstLongest rtable dst s)
    (hle : entry.Matches dst → prefixLen entry.mask ≤ prefixLen s.mask) :
    FirstLongest (rtable ++ [entry]) dst s := by
  obtain ⟨pre, post, heq, hpre, hpost⟩ := hs.place
  refine ⟨hs.found, pre, post ++ [entry], by rw [heq, List.append_assoc]; rfl, hpre, ?_⟩
  intro e he hmatch
  rcases List.mem_append.mp he with he | he
  · exact hpost e he hmatch
  · rw [List.mem_singleton.mp he] at hmatch ⊢
    exact hle hmatch

/-- One more entry at the end of the table. -/
theorem isLongest_longer {selected : Option (RtEntry ι)} {entry : RtEntry ι}
    (hmasks : ∀ e ∈ rtable, Contiguous e.mask) (hmask : Contiguous entry.mask)
    (h : IsLongest rtable dst selected) :
    IsLongest (rtable ++ [entry]) dst (longer dst selected entry) := by
  by_cases hm : entry.Matches dst
  · cases selected with
    | none =>
      rw [longer, if_pos hm]
      exact ⟨hm, rtable, [], rfl, fun e he hmatch => absurd hmatch (h e he), by simp⟩
    | some s =>
      have hs : FirstLongest rtable dst s := h
      have hiff := (hmasks s hs.mem).lt_iff hmask
      simp only [longer, if_pos hm]
      by_cases hlt : s.mask < entry.mask
      · rw [if_pos hlt]
        refine ⟨hm, rtable, [], rfl, fun e he hmatch => ?_, by simp⟩
        exact lt_of_le_of_lt (hs.le he hmatch) (hiff.mp hlt)
      · rw [if_neg hlt]
        exact hs.append fun _ => not_lt.mp (mt hiff.mpr hlt)
  · simp only [longer, if_neg hm]
    cases selected with
    | none =>
      intro e he
      rcases List.mem_append.mp he with he | he
      · exact h e he
      · rw [List.mem_singleton.mp he]
        exact hm
    | some s =>
      have hs : FirstLongest rtable dst s := h
      exact hs.append fun hmatch => absurd hmatch hm

/-- The later routers return the first longest match. -/
theorem isLongest_longestPrefixMatch (h : ∀ entry ∈ rtable, Contiguous entry.mask) :
    IsLongest rtable dst (NetworkLab.longestPrefixMatch rtable dst) := by
  induction rtable using List.reverseRecOn with
  | nil => exact fun entry hentry => absurd hentry List.not_mem_nil
  | append_singleton rtable entry ih =>
    have hmasks (e : RtEntry ι) (he : e ∈ rtable) := h e (List.mem_append_left _ he)
    have hmask := h entry (List.mem_append_right _ (List.mem_singleton.mpr rfl))
    rw [NetworkLab.longestPrefixMatch, List.foldl_append]
    exact isLongest_longer hmasks hmask (ih hmasks)

/-- The first router returns the first longest match, which is what the later ones return. -/
def LooksUp (rtable : List (RtEntry ι)) (dst : UInt32) : Prop :=
  IsLongest rtable dst (longestPrefixMatch rtable dst) ∧
    longestPrefixMatch rtable dst = NetworkLab.longestPrefixMatch rtable dst

/-- The first router looks up right unless only default routes match. -/
theorem looksUp_iff (rtable : List (RtEntry ι)) (dst : UInt32)
    (h : ∀ entry ∈ rtable, Contiguous entry.mask) :
    LooksUp rtable dst ↔
      (∃ entry ∈ rtable, entry.Matches dst ∧ entry.mask ≠ 0) ∨
        ∀ entry ∈ rtable, entry.mask ≠ 0 := by
  have hlongest : IsLongest rtable dst (NetworkLab.longestPrefixMatch rtable dst) :=
    isLongest_longestPrefixMatch h
  have hsame : LooksUp rtable dst ↔
      longestPrefixMatch rtable dst = NetworkLab.longestPrefixMatch rtable dst :=
    ⟨fun hlook => hlook.2, fun heq => ⟨heq ▸ hlongest, heq⟩⟩
  rw [hsame, longestPrefixMatch_eq]
  cases hfound : NetworkLab.longestPrefixMatch rtable dst with
  | none =>
    have hnone := (longestPrefixMatch_eq_none rtable dst).mp hfound
    refine iff_of_true rfl (.inr fun entry hentry hzero => hnone entry hentry ?_)
    rw [RtEntry.Matches, hzero, UInt32.and_zero, UInt32.and_zero]
  | some s =>
    rw [hfound] at hlongest
    have hs : FirstLongest rtable dst s := hlongest
    have hfilter : (some s).filter (fun entry => decide (entry.mask ≠ 0)) = some s ↔
        s.mask ≠ 0 := by simp [Option.filter]
    rw [hfilter]
    constructor
    · exact fun hne => .inl ⟨s, hs.mem, hs.found, hne⟩
    · rintro (⟨entry, hentry, hmatch, hne⟩ | hall)
      · intro hzero
        have hlt : s.mask < entry.mask := hzero ▸ UInt32.pos_iff_ne_zero.mpr hne
        have hlen := ((h s hs.mem).lt_iff (h entry hentry)).mp hlt
        exact absurd (hs.le hentry hmatch) (not_le.mpr hlen)
      · exact hall s hs.mem

theorem contiguous_prefixMask {n : ℕ} (hn : n ≤ 32) : Contiguous (prefixMask n) := ⟨n, hn, rfl⟩

theorem looksUp_two : LooksUp
    [⟨0x0a000000, prefixMask 8, 0, ()⟩, ⟨0, prefixMask 0, 0x0a000001, ()⟩] 0x0a000203 :=
  (looksUp_iff _ _ (by
    simp only [List.forall_mem_cons]
    exact ⟨contiguous_prefixMask (by decide), contiguous_prefixMask (by decide), by simp⟩)).mpr
    (.inl (by decide +kernel))

/-- A default route is not found. -/
theorem default_route_not_found :
    longestPrefixMatch [⟨0, prefixMask 0, 0x0a000001, ()⟩] 0x08080808 = none ∧
      ¬LooksUp [⟨0, prefixMask 0, 0x0a000001, ()⟩] 0x08080808 := by
  refine ⟨by decide +kernel, fun h => ?_⟩
  exact absurd h.2 (by decide +kernel)

end Lookup

end NetworkLab.Router
