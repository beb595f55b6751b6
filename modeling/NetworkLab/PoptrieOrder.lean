import NetworkLab.PoptrieRuns

/-!
# The order of insertions

An insertion does not reach below its own level, so a lookup that a longer prefix has taken
deeper no longer sees it. Two prefixes of one level, the one inside the other, must come
shorter first. A table is free of both when every order of it gives the same next hops.
-/
namespace NetworkLab.Tries

section Order

/-- The next hop of an address after a run from the empty trie. -/
def ifaceAfter (ps : List Insertion) (a : UInt32) : Option UInt32 := do
  let s ← initRootPoptrie.putAll ps
  let result ← s.getPoptrie a
  result.map Leaf.iface

/-- Every two orders of the insertions give the same next hops. -/
def OrderFree (ps : List Insertion) : Prop :=
  ∀ qs rs, qs.Perm ps → rs.Perm ps → ∀ a, ∃ iface,
    ifaceAfter qs a = some iface ∧ ifaceAfter rs a = some iface

/-- The prefix of an insertion: the address masked to its length, and the length. -/
def Insertion.network (p : Insertion) : UInt32 × UInt32 := (masked p.dest p.mask, p.mask)

/-- A prefix inside another one ends on a deeper level. -/
def SeparateLevels (ps : List Insertion) : Prop :=
  ∀ p ∈ ps, ∀ q ∈ ps, p.mask < q.mask → p.Covers q.dest → p.level ≠ q.level

/-- The longest prefix of the address among these. -/
def IsLongest (ps : List Insertion) (a : UInt32) (p : Insertion) : Prop :=
  p ∈ ps ∧ p.Covers a ∧ ∀ q ∈ ps, q.Covers a → q.mask ≤ p.mask

/-- Where a prefix opens the slot in which the longest prefix of an address ends, the prefixes
of the address have the next hop that stands for none. -/
def HarmlessSplits (ps : List Insertion) : Prop :=
  ∀ a p, IsLongest ps a p → ∀ c ∈ ps, p.level < c.level → (∀ i ≤ p.level, keys a i = c.keys i) →
    ∀ q ∈ ps, q.Covers a → q.iface = 0

/-- A longer prefix that comes first is overwritten by a shorter one of its level. -/
theorem longer_first_not_orderFree :
    (∀ p ∈ ([⟨0, 1, 7⟩, ⟨0x20000000, 3, 9⟩] : List Insertion),
      p.Proper ∧ masked p.dest p.mask = p.dest) ∧
    (([⟨0, 1, 7⟩, ⟨0x20000000, 3, 9⟩] : List Insertion).map Insertion.network).Nodup ∧
    ¬OrderFree [⟨0, 1, 7⟩, ⟨0x20000000, 3, 9⟩] := by
  refine ⟨by decide, by decide, fun hfree => ?_⟩
  have hnine : ifaceAfter [⟨0, 1, 7⟩, ⟨0x20000000, 3, 9⟩] 0x20000000 = some 9 := by
    decide +kernel
  have hseven : ifaceAfter [⟨0x20000000, 3, 9⟩, ⟨0, 1, 7⟩] 0x20000000 = some 7 := by
    decide +kernel
  obtain ⟨iface, h₁, h₂⟩ := hfree _ _ (.refl _) (List.Perm.swap _ _ _) 0x20000000
  rw [hnine] at h₁
  rw [hseven, ← h₁] at h₂
  exact absurd h₂ (by decide)

variable {ps qs rs : List Insertion} {p q c : Insertion} {x : ℕ → ℕ} {a : UInt32}

theorem Looks.ifaceAfter {s : Poptrie} (hs : initRootPoptrie.putAll ps = some s)
    (h : Looks s (outcome ps)) (a : UInt32) :
    Tries.ifaceAfter ps a = some (outcome ps (keys a)).2.iface := by
  rw [Tries.ifaceAfter, hs, Option.bind_eq_bind, Option.bind_some, h.getPoptrie]
  rfl

/-- No insertion overlays a longer prefix, in whatever order. -/
theorem SeparateLevels.looks (h : SeparateLevels ps) (hps : ∀ p ∈ ps, p.Proper)
    (hsub : ∀ q ∈ qs, q ∈ ps) :
    ∃ s, initRootPoptrie.putAll qs = some s ∧ Looks s (outcome qs) := by
  apply looks_of_not_overlays qs (fun q hq => hps q (hsub q hq))
  intro qs' p hpre
  rintro ⟨q, hq, hlevel, hlt, hcovers, -⟩
  have hp : p ∈ ps :=
    hsub p (hpre.subset (List.mem_concat_self))
  have hq' : q ∈ ps := hsub q (hpre.subset (List.mem_append_left _ hq))
  exact h p hp q hq' hlt hcovers hlevel.symm

/-- Any other prefix of the address ends above the longest one. -/
theorem IsLongest.level_lt (h : IsLongest ps a p) (hps : ∀ p ∈ ps, p.Proper)
    (hdistinct : (ps.map Insertion.network).Nodup) (hlevels : SeparateLevels ps) (hq : q ∈ ps)
    (hcovers : q.Covers a) (hne : q ≠ p) : q.level < p.level := by
  obtain ⟨hp, hpcovers, hmax⟩ := h
  have hle := hmax q hq hcovers
  have hnested := (hpcovers.nested (hps q hq) (hps p hp) hle).mp hcovers
  rcases UInt32.lt_or_eq_of_le hle with hlt | heq
  · exact lt_of_le_of_ne (level_le_of_mask_le hle) (hlevels q hq p hp hlt hnested)
  · have hsame : q.network = p.network := by
      have hshift : p.dest >>> (32 - q.mask) = q.dest >>> (32 - q.mask) := hnested
      rw [Insertion.network, Insertion.network, masked, masked, ← heq, hshift]
    exact absurd (List.inj_on_of_nodup_map hdistinct hq hp hsame) hne

/-- Where nothing opens the slots of the longest prefix, every order ends with its leaf. -/
theorem IsLongest.outcome_eq (h : IsLongest ps a p) (hps : ∀ p ∈ ps, p.Proper)
    (hdistinct : (ps.map Insertion.network).Nodup) (hlevels : SeparateLevels ps)
    (hopen : ∀ c ∈ ps, p.level < c.level → ¬∀ i ≤ p.level, keys a i = c.keys i)
    (hsub : ∀ q ∈ qs, q ∈ ps) (hp : p ∈ qs) : (outcome qs (keys a)).2 = p.leaf := by
  have hpass := ((hps p h.1).passes_iff a).mpr h.2.1
  induction qs using List.reverseRecOn with
  | nil => exact absurd hp List.not_mem_nil
  | append_singleton qs q ih =>
    have hsub' : ∀ r ∈ qs, r ∈ ps := fun r hr => hsub r (List.mem_append_left _ hr)
    have hq : q ∈ ps := hsub q (List.mem_concat_self)
    rw [outcome_append]
    by_cases heq : q = p
    · subst heq
      refine if_pos ⟨hpass, ?_⟩
      by_contra hdeep
      obtain ⟨c, hc, hlevel, hagree⟩ :=
        (le_outcome_iff (Nat.succ_pos q.level) qs _).mp (Nat.lt_of_not_le hdeep)
      exact hopen c (hsub' c hc) hlevel fun i hi => hagree i (Nat.lt_succ_of_le hi)
    · have hp' : p ∈ qs := by
        rcases List.mem_append.mp hp with hold | hlast
        · exact hold
        · exact absurd (List.mem_singleton.mp hlast).symm heq
      refine (if_neg ?_).trans (ih hsub' hp')
      rintro ⟨hpass', hdepth⟩
      have hlt := h.level_lt hps hdistinct hlevels hq (((hps q hq).passes_iff a).mp hpass') heq
      have hdeep := level_le_outcome hp' hpass
      omega

/-- An address that some prefix covers has a longest one. -/
theorem exists_isLongest (hq : q ∈ ps) (hcovers : q.Covers a) : ∃ p, IsLongest ps a p := by
  obtain ⟨hmem, hmax⟩ := longestMatch_spec ps a
  obtain ⟨p, hp, -⟩ := hmax q hq hcovers
  refine ⟨p, (hmem p hp).1, (hmem p hp).2, fun r hr hcovers' => ?_⟩
  obtain ⟨p', hp', hle⟩ := hmax r hr hcovers'
  rwa [Option.some.inj (hp.symm.trans hp')]

/-- After a prefix that opens the slots of the longest one no insertion changes the lookup. -/
theorem IsLongest.outcome_append (h : IsLongest ps a p) (hps : ∀ p ∈ ps, p.Proper)
    (hc : c ∈ qs) (hlevel : p.level < c.level) (hagree : ∀ i ≤ p.level, keys a i = c.keys i)
    (hsub : ∀ q ∈ rs, q ∈ ps) :
    (outcome (qs ++ rs) (keys a)).2 = (outcome qs (keys a)).2 := by
  induction rs using List.reverseRecOn with
  | nil => rw [List.append_nil]
  | append_singleton rs r ih =>
    have hr : r ∈ ps := hsub r (List.mem_concat_self)
    rw [← List.append_assoc, Tries.outcome_append]
    refine (if_neg ?_).trans (ih fun q hq => hsub q (List.mem_append_left _ hq))
    rintro ⟨hpass, hdepth⟩
    have hrlevel := level_le_of_mask_le (h.2.2 r hr (((hps r hr).passes_iff a).mp hpass))
    have hdeep : p.level + 1 ≤ (outcome (qs ++ rs) (keys a)).1 :=
      (le_outcome_iff (Nat.succ_pos _) _ _).mpr ⟨c, List.mem_append_left _ hc, hlevel,
        fun i hi => hagree i (Nat.le_of_lt_succ hi)⟩
    omega

/-- On a table without two nested prefixes of one level, every order gives the same next hops
where no split does harm, and only there. -/
theorem orderFree_iff_of_separate (hps : ∀ p ∈ ps, p.Proper)
    (hdistinct : (ps.map Insertion.network).Nodup) (hlevels : SeparateLevels ps) :
    OrderFree ps ↔ HarmlessSplits ps := by
  have hlooks {qs : List Insertion} (hperm : qs.Perm ps) (a : UInt32) :
      ifaceAfter qs a = some (outcome qs (keys a)).2.iface := by
    obtain ⟨s, hs, h⟩ := hlevels.looks hps fun q hq => hperm.mem_iff.mp hq
    exact h.ifaceAfter hs a
  constructor
  · intro hfree a p hlongest c hc hlevel hagree q hq hcovers
    -- The prefix `c` first and the prefix `q` of the address before or after it.
    have hnot (r : Insertion) (hr : r ∈ ps) (hlt : p.level < r.level) :
        ¬r.Passes (keys a) := fun hpass => by
      have hlt' := UInt32.lt_iff_toNat_lt.mp (mask_lt_of_level_lt hlt)
      have hle := UInt32.le_iff_toNat_le.mp
        (hlongest.2.2 r hr (((hps r hr).passes_iff a).mp hpass))
      omega
    have hqc : q ≠ c := by
      rintro rfl
      exact hnot q hc hlevel (((hps q hc).passes_iff a).mpr hcovers)
    have hfirst : ([c] ++ ps.erase c).Perm ps := (List.perm_cons_erase hc).symm
    have hsecond : ([q, c] ++ (ps.erase q).erase c).Perm ps :=
      ((List.perm_cons_erase ((List.mem_erase_of_ne hqc.symm).mpr hc)).symm.cons q).trans
        (List.perm_cons_erase hq).symm
    obtain ⟨iface, h₁, h₂⟩ := hfree _ _ hfirst hsecond a
    rw [hlooks hfirst] at h₁
    rw [hlooks hsecond] at h₂
    have hleaf₁ : (outcome ([c] ++ ps.erase c) (keys a)).2 = ⟨0, 0⟩ := by
      rw [hlongest.outcome_append hps (List.mem_singleton_self c) hlevel hagree fun r hr =>
        List.mem_of_mem_erase hr]
      exact if_neg fun hboth => hnot c hc hlevel hboth.1
    have hleaf₂ : (outcome ([q, c] ++ (ps.erase q).erase c) (keys a)).2 = q.leaf := by
      rw [hlongest.outcome_append hps (List.mem_cons_of_mem q (List.mem_singleton_self c)) hlevel
        hagree fun r hr => List.mem_of_mem_erase (List.mem_of_mem_erase hr)]
      refine (if_neg fun hboth => hnot c hc hlevel hboth.1).trans (if_pos ⟨?_, Nat.zero_le _⟩)
      exact ((hps q hq).passes_iff a).mpr hcovers
    rw [hleaf₁] at h₁
    rw [hleaf₂] at h₂
    exact Option.some.inj (h₂.trans h₁.symm)
  · intro hsplits qs rs hqs hrs a
    rw [hlooks hqs, hlooks hrs]
    suffices hsame : (outcome qs (keys a)).2.iface = (outcome rs (keys a)).2.iface from
      ⟨_, rfl, congrArg some hsame.symm⟩
    -- A leaf that is not one of the address has the next hop zero.
    have hzero (hall : ∀ q ∈ ps, q.Covers a → q.iface = 0) {qs : List Insertion}
        (hperm : qs.Perm ps) : (outcome qs (keys a)).2.iface = 0 := by
      rcases leaf_outcome qs (keys a) with hdefault | ⟨q, hq, hpass, hleaf⟩
      · rw [hdefault]
      · have hq' := hperm.mem_iff.mp hq
        rw [hleaf]
        exact hall q hq' (((hps q hq').passes_iff a).mp hpass)
    by_cases hall : ∀ q ∈ ps, q.Covers a → q.iface = 0
    · rw [hzero hall hqs, hzero hall hrs]
    · obtain ⟨q, hq, hcovers⟩ : ∃ q ∈ ps, q.Covers a := by
        by_contra hnone
        exact hall fun q hq hcovers => absurd ⟨q, hq, hcovers⟩ hnone
      obtain ⟨p, hlongest⟩ := exists_isLongest hq hcovers
      have hopen : ∀ c ∈ ps, p.level < c.level → ¬∀ i ≤ p.level, keys a i = c.keys i :=
        fun c hc hlevel hagree => hall (hsplits a p hlongest c hc hlevel hagree)
      have hleaf {qs : List Insertion} (hperm : qs.Perm ps) :
          (outcome qs (keys a)).2 = p.leaf :=
        hlongest.outcome_eq hps hdistinct hlevels hopen (fun r hr => hperm.mem_iff.mp hr)
          (hperm.mem_iff.mpr hlongest.1)
      rw [hleaf hqs, hleaf hrs]

/-- A prefix that ends on the first level, and its halves on the second. -/
def halved : List Insertion := [⟨0x08000000, 6, 1⟩, ⟨0x08000000, 7, 2⟩, ⟨0x0a000000, 7, 3⟩]

/-- The second prefix opens one of the slots of the first. -/
def opened : List Insertion := [⟨0x0a000000, 8, 1⟩, ⟨0x0a010000, 16, 2⟩, ⟨0x14000000, 8, 3⟩]

/-- An address of the prefix is in one of the halves. -/
theorem harmlessSplits_halved : HarmlessSplits halved := by
  rintro a p ⟨hp, hcovers, hmax⟩ c hc hlevel -
  have hwhole : p = ⟨0x08000000, 6, 1⟩ := by
    simp only [halved, List.mem_cons, List.not_mem_nil, or_false] at hp hc
    rcases hp with rfl | rfl | rfl <;> rcases hc with rfl | rfl | rfl <;>
      first | rfl | exact absurd hlevel (by decide)
  subst hwhole
  have hsix : a >>> 26 = 2 := hcovers
  have hseven : a >>> 25 = 4 ∨ a >>> 25 = 5 := by
    have hnat := congrArg UInt32.toNat hsix
    simp only [← UInt32.toNat_inj, UInt32.toNat_shiftRight] at hnat ⊢
    simp only [UInt32.reduceToNat, Nat.reduceMod, Nat.shiftRight_eq_div_pow] at hnat ⊢
    omega
  rcases hseven with hfirst | hsecond
  · exact absurd (hmax ⟨0x08000000, 7, 2⟩ (by decide) hfirst) (by decide)
  · exact absurd (hmax ⟨0x0a000000, 7, 3⟩ (by decide) hsecond) (by decide)

theorem orderFree_iff_of_separate_nested : OrderFree halved ∧ ¬OrderFree opened := by
  constructor
  · exact (orderFree_iff_of_separate (by decide) (by decide)
      (by unfold SeparateLevels; decide)).mpr harmlessSplits_halved
  · intro hfree
    have hharmless : HarmlessSplits opened :=
      (orderFree_iff_of_separate (by decide) (by decide)
        (by unfold SeparateLevels; decide)).mp hfree
    have hlongest : IsLongest opened 0x0a000000 ⟨0x0a000000, 8, 1⟩ := by
      unfold IsLongest
      decide
    exact absurd (hharmless 0x0a000000 _ hlongest ⟨0x0a010000, 16, 2⟩ (by decide) (by decide)
      (by decide) _ hlongest.1 hlongest.2.1) (by decide)

end Order

end NetworkLab.Tries
