import NetworkLab.LongestMatch
import NetworkLab.PoptrieLookup

/-!
# Runs of insertions

How deep a run of insertions lets the lookups go depends on the prefixes only; which leaf a
lookup ends with also depends on their order.
-/
namespace NetworkLab.Tries

section Start

theorem looks_init : Looks initRootPoptrie fun _ => (0, ⟨0, 0⟩) := by
  have hnode : initRootPoptrie.node root = some ⟨1, 0, none, [⟨0, 0⟩]⟩ := rfl
  have hplace {r : List ℕ} {k : ℕ} {q : NodePtr} :
      (if r ++ [k] = [] then some root else none) ≠ some q := by
    rw [if_neg (List.append_ne_nil_of_right_ne_nil r (List.cons_ne_nil k []))]
    nofun
  have hroot {r : List ℕ} {q : NodePtr} (hr : (if r = [] then some root else none) = some q) :
      q = root := by
    split_ifs at hr
    exact (Option.some.inj hr).symm
  refine ⟨fun r => if r = [] then some root else none, fun _ _ => some ⟨0, 0⟩, ?_, fun x _ =>
    ⟨Nat.zero_le 5, fun i hi => absurd hi (Nat.not_lt_zero i), rfl⟩⟩
  refine ⟨rfl, fun r k => ?_, fun r q hr => ?_, fun r q nd hr hnd => ?_,
    fun r q nd hr hnd hne => ?_, fun r k q hr => absurd hr hplace,
    fun r r' k k' q q' hr => absurd hr hplace, fun i _ => ?_⟩
  · rw [if_neg (List.append_ne_nil_of_right_ne_nil r (List.cons_ne_nil k []))]
    split_ifs
    · rw [Option.bind_some, Poptrie.childPtr, hnode, Option.bind_some, Internal.childAt, if_neg]
      have hzero : (0#64).getLsbD k = false := BitVec.getLsbD_zero
      exact hzero ▸ Bool.false_ne_true
    · rfl
  · rw [hroot hr]
    exact ⟨_, hnode, shows_new ⟨0, 0⟩⟩
  · rw [hroot hr, hnode] at hnd
    obtain rfl := Option.some.inj hnd
    exact ⟨[], rfl, by decide⟩
  · rw [hroot hr, hnode] at hnd
    obtain rfl := Option.some.inj hnd
    exact absurd rfl hne
  · exact (if_neg (List.cons_ne_nil _ _)).symm

end Start

section Runs

/-- The insertions one after another. -/
def Poptrie.putAll (s : Poptrie) (ps : List Insertion) : Option Poptrie :=
  ps.foldlM (fun s p => s.putPoptrie p.dest p.mask p.iface) s

theorem Poptrie.putAll_append (s : Poptrie) (ps : List Insertion) (p : Insertion) :
    s.putAll (ps ++ [p]) = (s.putAll ps).bind fun t => t.putPoptrie p.dest p.mask p.iface := by
  rw [putAll, List.foldlM_append]
  simp only [List.foldlM_cons, List.foldlM_nil, bind_pure]
  rfl

namespace Insertion

variable (p : Insertion)

/-- The keys of the prefix. -/
def keys : ℕ → ℕ := Tries.keys (masked p.dest p.mask)

/-- The level on which the prefix ends. -/
def level : ℕ := Tries.level p.mask

/-- What the insertion stores. -/
def leaf : Leaf := ⟨p.iface, p.mask⟩

/-- The sequence of keys goes through a slot of the prefix. -/
def Passes (x : ℕ → ℕ) : Prop := Tries.Passes p.keys p.level (range p.mask) x

instance (x : ℕ → ℕ) : Decidable (p.Passes x) :=
  inferInstanceAs (Decidable (Tries.Passes _ _ _ _))

end Insertion

section Nesting

variable {p q : Insertion} {a : UInt32} {x : ℕ → ℕ}

theorem Insertion.Proper.passes_iff (h : p.Proper) (a : UInt32) :
    p.Passes (Tries.keys a) ↔ p.Covers a :=
  (p.covers_iff h.one_le h.le_32 a).symm

/-- An address that the same prefixes cover as the sequence of keys passes. -/
theorem exists_covers_iff (hx : ∀ i, x i < 64) :
    ∃ a, ∀ p : Insertion, p.Proper → (p.Covers a ↔ p.Passes x) := by
  obtain ⟨a, hfirst, hlast⟩ := exists_address x hx
  exact ⟨a, fun p hp => p.covers_iff_passes hp.one_le hp.le_32 hfirst hlast⟩

theorem Insertion.Proper.level_le (h : p.Proper) : p.level ≤ 5 := Tries.level_le h.le_32

theorem level_le_of_mask_le (h : p.mask ≤ q.mask) : p.level ≤ q.level := by
  have h' := UInt32.le_iff_toNat_le.mp h
  rw [Insertion.level, Insertion.level, Tries.level, Tries.level]
  omega

/-- A prefix that ends on a deeper level is longer. -/
theorem mask_lt_of_level_lt (h : p.level < q.level) : p.mask < q.mask := by
  rw [Insertion.level, Insertion.level, Tries.level, Tries.level] at h
  exact UInt32.lt_iff_toNat_lt.mpr (by omega)

/-- The keys of a prefix go through its own slots. -/
theorem Insertion.Proper.covers_masked (h : p.Proper) : p.Covers (masked p.dest p.mask) := by
  rw [Insertion.covers_iff_div h, toNat_masked h.one_le h.le_32,
    Nat.mul_div_cancel _ (by positivity)]

/-- Of two prefixes that a sequence of keys passes the shorter one covers the longer one. -/
theorem covers_of_passes (hp : p.Proper) (hq : q.Proper) (hx : ∀ i, x i < 64)
    (hpass : p.Passes x) (hpass' : q.Passes x) (hle : p.mask ≤ q.mask) : p.Covers q.dest := by
  obtain ⟨a, ha⟩ := exists_covers_iff hx
  exact (((ha q hq).mpr hpass').nested hp hq hle).mp ((ha p hp).mpr hpass)

/-- A prefix that is taken deeper than the slots of another one is covered by it. -/
theorem covers_of_agree (hp : p.Proper) (hq : q.Proper) (hpass : p.Passes x)
    (hlevel : p.level < q.level) (hagree : ∀ i ≤ p.level, x i = q.keys i) : p.Covers q.dest := by
  have hpass' : p.Passes q.keys := by
    refine ⟨fun i hi => ?_, ?_⟩
    · rw [← hagree i hi.le]
      exact hpass.1 i hi
    · rw [← hagree p.level le_rfl]
      exact hpass.2
  have hle := UInt32.le_of_lt (mask_lt_of_level_lt hlevel)
  exact (hq.covers_masked.nested hp hq hle).mp ((hp.passes_iff _).mp hpass')

end Nesting

/-- The level and the leaf that the lookups end with after a run. -/
def outcome (ps : List Insertion) : (ℕ → ℕ) → ℕ × Leaf :=
  ps.foldl (fun f p => deepen f p.dest p.mask p.iface) fun _ => (0, ⟨0, 0⟩)

variable {ps : List Insertion} {p q : Insertion} {x : ℕ → ℕ} {a : UInt32}

theorem outcome_append (ps : List Insertion) (p : Insertion) (x : ℕ → ℕ) :
    outcome (ps ++ [p]) x = (max (outcome ps x).1 (common x p.keys p.level),
      if p.Passes x ∧ (outcome ps x).1 ≤ p.level then p.leaf else (outcome ps x).2) := by
  rw [outcome, List.foldl_append]
  rfl

/-- A lookup goes as deep as a prefix that it has the first keys in common with. -/
theorem le_outcome_iff {n : ℕ} (hn : 1 ≤ n) (ps : List Insertion) (x : ℕ → ℕ) :
    n ≤ (outcome ps x).1 ↔ ∃ p ∈ ps, n ≤ p.level ∧ ∀ i < n, x i = p.keys i := by
  induction ps using List.reverseRecOn with
  | nil =>
    refine ⟨fun h => ?_, fun ⟨p, hp, _⟩ => absurd hp List.not_mem_nil⟩
    have hzero : n ≤ 0 := h
    omega
  | append_singleton ps p ih =>
    have hlast : n ≤ common x p.keys p.level ↔ n ≤ p.level ∧ ∀ i < n, x i = p.keys i := by
      constructor
      · intro h
        have hle := h.trans (common_le x p.keys p.level)
        exact ⟨hle, (le_common_iff hle).mp h⟩
      · rintro ⟨hle, hagree⟩
        exact (le_common_iff hle).mpr hagree
    rw [outcome_append, le_max_iff, ih, hlast]
    constructor
    · rintro (⟨q, hq, hagree⟩ | hagree)
      · exact ⟨q, List.mem_append_left _ hq, hagree⟩
      · exact ⟨p, List.mem_concat_self, hagree⟩
    · rintro ⟨q, hq, hagree⟩
      rcases List.mem_append.mp hq with hold | hlast
      · exact .inl ⟨q, hold, hagree⟩
      · exact .inr (List.mem_singleton.mp hlast ▸ hagree)

/-- A lookup goes at least as deep as the prefixes that it passes. -/
theorem level_le_outcome (hp : p ∈ ps) (hpass : p.Passes x) : p.level ≤ (outcome ps x).1 := by
  rcases Nat.eq_zero_or_pos p.level with hzero | hpos
  · rw [hzero]
    exact Nat.zero_le _
  · exact (le_outcome_iff hpos ps x).mpr ⟨p, hp, le_rfl, hpass.1⟩

/-- The leaf at the end of a lookup is the default or that of a prefix. -/
theorem leaf_outcome (ps : List Insertion) (x : ℕ → ℕ) :
    (outcome ps x).2 = ⟨0, 0⟩ ∨ ∃ p ∈ ps, p.Passes x ∧ (outcome ps x).2 = p.leaf := by
  induction ps using List.reverseRecOn with
  | nil => exact .inl rfl
  | append_singleton ps p ih =>
    rw [outcome_append]
    by_cases hnew : p.Passes x ∧ (outcome ps x).1 ≤ p.level
    · exact .inr ⟨p, List.mem_concat_self, hnew.1, if_pos hnew⟩
    · simp only [if_neg hnew]
      rcases ih with hdefault | ⟨q, hq, hpasses, hleaf⟩
      · exact .inl hdefault
      · exact .inr ⟨q, List.mem_append_left _ hq, hpasses, hleaf⟩

/-- A run in which no insertion meets a longer prefix in its slots. -/
theorem looks_putAll (ps : List Insertion) (hps : ∀ p ∈ ps, p.Proper)
    (hmask : ∀ qs p, qs ++ [p] <+: ps → ∀ x, (∀ i, x i < 64) → p.Passes x →
      (outcome qs x).1 ≤ p.level → (outcome qs x).2.mask ≤ p.mask) :
    ∃ s, initRootPoptrie.putAll ps = some s ∧ Looks s (outcome ps) := by
  induction ps using List.reverseRecOn with
  | nil => exact ⟨initRootPoptrie, rfl, looks_init⟩
  | append_singleton ps p ih =>
    obtain ⟨s, hs, hlooks⟩ := ih (fun q hq => hps q (List.mem_append_left _ hq))
      fun qs q hpre => hmask qs q (hpre.trans (List.prefix_append ps [p]))
    have hproper := hps p (List.mem_concat_self)
    obtain ⟨t, ht, hlooks'⟩ : ∃ t, s.putPoptrie p.dest p.mask p.iface = some t ∧
        Looks t (deepen (outcome ps) p.dest p.mask p.iface) :=
      hlooks.putPoptrie hproper.one_le hproper.le_32 (hmask ps p List.prefix_rfl)
    refine ⟨t, ?_, ?_⟩
    · rw [Poptrie.putAll_append, hs, Option.bind_some, ht]
    · rw [outcome, List.foldl_append]
      exact hlooks'

/-- The prefix has a longer one inside it that has been inserted before and ends on the same
level, with an address whose slot no prefix of a deeper level has opened. -/
def Overlays (ps : List Insertion) (p : Insertion) : Prop :=
  ∃ q ∈ ps, q.level = p.level ∧ p.mask < q.mask ∧ p.Covers q.dest ∧
    ∃ a, q.Covers a ∧ ∀ c ∈ ps, p.level < c.level → ¬∀ i ≤ p.level, keys a i = c.keys i

/-- Where no longer prefix of the same level is left, no slot has a leaf of a longer prefix. -/
theorem mask_le_of_not_overlays (hps : ∀ q ∈ ps, q.Proper) (hp : p.Proper) (hx : ∀ i, x i < 64)
    (h : ¬Overlays ps p) (hpass : p.Passes x) (hdepth : (outcome ps x).1 ≤ p.level) :
    (outcome ps x).2.mask ≤ p.mask := by
  rcases leaf_outcome ps x with hdefault | ⟨q, hq, hpass', hleaf⟩
  · rw [hdefault]
    exact UInt32.zero_le
  · rw [hleaf]
    by_contra hlt
    have hlt' : p.mask < q.mask := UInt32.not_le.mp hlt
    have hcovers := covers_of_passes hp (hps q hq) hx hpass hpass' (UInt32.le_of_lt hlt')
    have hlevel : q.level = p.level :=
      le_antisymm ((level_le_outcome hq hpass').trans hdepth)
        (level_le_of_mask_le (UInt32.le_of_lt hlt'))
    obtain ⟨a, hfirst, hlast⟩ := exists_address x hx
    have hcovers' : q.Covers a := (q.covers_iff_passes (hps q hq).one_le (hps q hq).le_32 hfirst
      hlast).mpr hpass'
    refine h ⟨q, hq, hlevel, hlt', hcovers, a, hcovers', fun c hc hdeeper hagree => ?_⟩
    -- A deeper prefix that opens the slot takes the lookup below the level of `p`.
    have hclevel := (hps c hc).level_le
    have hdeep := (le_outcome_iff (Nat.succ_pos p.level) ps x).mpr ⟨c, hc, hdeeper, fun i hi => by
      rw [← hfirst i (by omega)]
      exact hagree i (Nat.le_of_lt_succ hi)⟩
    omega

/-- A run in which no insertion overlays a longer prefix leaves the trie in memory. -/
theorem looks_of_not_overlays (ps : List Insertion) (hps : ∀ p ∈ ps, p.Proper)
    (hfree : ∀ qs p, qs ++ [p] <+: ps → ¬Overlays qs p) :
    ∃ s, initRootPoptrie.putAll ps = some s ∧ Looks s (outcome ps) :=
  looks_putAll ps hps fun qs p hpre _ hx hpass hdepth =>
    mask_le_of_not_overlays (fun q hq => hps q (hpre.subset (List.mem_append_left _ hq)))
      (hps p (hpre.subset (List.mem_concat_self))) hx
      (hfree qs p hpre) hpass hdepth

end Runs

end NetworkLab.Tries
