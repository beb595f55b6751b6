import NetworkLab.BaseTrie

/-!
# Default routes in the binary trie

A prefix of length zero is stored in the root. A lookup looks at the mark of a node only after
it has gone down to it, so that the root is the one marked node that is never returned.
-/
namespace NetworkLab.Tries

section Coverage

variable {ps qs rs : List Insertion} {p q : Insertion} {a : UInt32}

/-- The address begins with the prefix, which may be the default route. -/
def Insertion.Contains (p : Insertion) (a : UInt32) : Prop :=
  a.toNat / 2 ^ (32 - p.mask.toNat) = p.dest.toNat / 2 ^ (32 - p.mask.toNat)

instance (p : Insertion) (a : UInt32) : Decidable (p.Contains a) :=
  inferInstanceAs (Decidable (_ = _))

theorem Insertion.Proper.contains_iff (h : p.Proper) : p.Contains a ↔ p.Covers a :=
  (Insertion.covers_iff_div h).symm

theorem proper_of_ne_zero (h : p.mask ≤ 32) (hne : p.mask ≠ 0) : p.Proper := by
  refine ⟨UInt32.le_iff_toNat_le.mpr ?_, h⟩
  have hpos : p.mask.toNat ≠ 0 := fun hzero => hne (UInt32.toNat_inj.mp hzero)
  exact Nat.one_le_iff_ne_zero.mpr hpos

/-- Every address begins with the default route. -/
theorem contains_of_zero (h : p.mask = 0) : p.Contains a := by
  have ha := a.toNat_lt
  have hp := p.dest.toNat_lt
  have hpow : 2 ^ (32 - p.mask.toNat) = 2 ^ 32 := by
    rw [h]
    rfl
  rw [Insertion.Contains, hpow, Nat.div_eq_of_lt ha, Nat.div_eq_of_lt hp]

/-- The last insertion of the longest prefix is the one that is found. -/
theorem longestMatch_eq_some (hp : p.Covers a) (hbefore : ∀ q ∈ qs, q.Covers a → q.mask ≤ p.mask)
    (hafter : ∀ r ∈ rs, r.Covers a → r.mask < p.mask) :
    longestMatch (qs ++ p :: rs) a = some p := by
  induction rs using List.reverseRecOn with
  | nil =>
    rw [longestMatch_append]
    refine better_pos hp ?_
    cases hbest : longestMatch qs a with
    | none => exact Nat.zero_le _
    | some q =>
      obtain ⟨hq, hcovers⟩ := (longestMatch_spec qs a).1 q hbest
      exact UInt32.le_iff_toNat_le.mp (hbefore q hq hcovers)
  | append_singleton rs r ih =>
    have hold := ih fun r' hr' => hafter r' (List.mem_append_left _ hr')
    have hlast : qs ++ p :: (rs ++ [r]) = qs ++ p :: rs ++ [r] := by
      rw [List.append_assoc, List.cons_append]
    rw [hlast, longestMatch_append, hold]
    refine better_neg fun hboth => ?_
    have hless := UInt32.lt_iff_toNat_lt.mp
      (hafter r (List.mem_concat_self) hboth.1)
    have hle : p.mask.toNat ≤ r.mask.toNat := hboth.2
    omega

end Coverage

section Lookups

variable {t : BaseNode} {ps : List Insertion} {p : Insertion} {a : UInt32} {o : Option Insertion}

/-- A default route is not seen below the root. -/
theorem Deepest.putBase_zero (h : Deepest t a o) (hp : p.mask = 0) :
    Deepest (Tries.putBase t p.iface p.mask p.dest) a o := by
  have hentry (j : ℕ) (hj : 1 ≤ j) : (Tries.putBase t p.iface p.mask p.dest).entry
      (bitsFrom a 0 j) = t.entry (bitsFrom a 0 j) := by
    rw [Tries.putBase, entry_putBaseFrom h.ne_null, if_neg]
    intro heq
    have hlen := congrArg List.length heq
    rw [length_bitsFrom, length_bitsFrom, hp] at hlen
    have hzero : (0 : UInt32).toNat = 0 := rfl
    omega
  refine ⟨putBaseFrom_ne_null h.ne_null _, fun q hq => ?_, fun j hj hle => ?_⟩
  · obtain ⟨hproper, hold⟩ := h.entry q hq
    exact ⟨hproper, (hentry _ hproper.one_le).trans hold⟩
  · exact (hentry j (by omega)).trans (h.none j hj hle)

/-- What a run of `put_base` leaves behind: default routes do not count. -/
theorem deepest_putBaseAll (ps : List Insertion) (hps : ∀ p ∈ ps, p.mask ≤ 32) (a : UInt32) :
    Deepest (putBaseAll initRootBase ps) a (longestMatch (ps.filter (·.mask ≠ 0)) a) := by
  induction ps using List.reverseRecOn with
  | nil => exact deepest_init a
  | append_singleton ps p ih =>
    have hold := ih fun q hq => hps q (List.mem_append_left _ hq)
    have hle := hps p (List.mem_concat_self)
    rw [putBaseAll, List.foldl_append, List.filter_append]
    by_cases hzero : p.mask = 0
    · rw [List.filter_cons_of_neg (by simpa using hzero), List.filter_nil, List.append_nil]
      exact hold.putBase_zero hzero
    · rw [List.filter_cons_of_pos (by simpa using hzero), List.filter_nil, longestMatch_append]
      exact hold.putBase (proper_of_ne_zero hle hzero)

end Lookups

section Returned

/-- The lookup of the address gives the node of the longest inserted prefix that contains it, as
its last insertion has left it, and NULL exactly when no prefix contains it. -/
def ReturnsLongest (ps : List Insertion) (a : UInt32) : Prop :=
  (getBase (putBaseAll initRootBase ps) a = none ↔ ∀ p ∈ ps, ¬p.Contains a) ∧
  ∀ qs p rs, ps = qs ++ p :: rs → p.Contains a → (∀ q ∈ ps, q.Contains a → q.mask ≤ p.mask) →
    (∀ r ∈ rs, r.Contains a → r.mask ≠ p.mask) →
    getBase (putBaseAll initRootBase ps) a = some p.data ∧
      (putBaseAll initRootBase ps).entry (bitsFrom p.dest 0 p.mask.toNat) = some p.data

variable {ps qs rs : List Insertion} {p : Insertion} {a : UInt32}

/-- A lookup returns NULL when the address begins with no prefix but the default route. -/
theorem getBase_eq_none_iff (hps : ∀ p ∈ ps, p.mask ≤ 32) :
    getBase (putBaseAll initRootBase ps) a = none ↔ ∀ p ∈ ps, p.mask ≠ 0 → ¬p.Contains a := by
  obtain ⟨hmem, hmax⟩ := longestMatch_spec (ps.filter (·.mask ≠ 0)) a
  rw [(deepest_putBaseAll ps hps a).getBase, Option.map_eq_none_iff]
  constructor
  · intro hempty p hp hne hcontains
    have hproper := proper_of_ne_zero (hps p hp) hne
    obtain ⟨q, hq, -⟩ := hmax p (List.mem_filter.mpr ⟨hp, by simpa using hne⟩)
      (hproper.contains_iff.mp hcontains)
    rw [hempty] at hq
    cases hq
  · intro hall
    by_contra hsome
    obtain ⟨q, hq⟩ := Option.ne_none_iff_exists'.mp hsome
    obtain ⟨hmem', hcovers⟩ := hmem q hq
    obtain ⟨hqs, hne⟩ := List.mem_filter.mp hmem'
    have hne' : q.mask ≠ 0 := by simpa using hne
    exact hall q hqs hne' ((proper_of_ne_zero (hps q hqs) hne').contains_iff.mpr hcovers)

/-- A longest prefix that is not the default route is returned as it was inserted last. -/
theorem getBase_eq_data (hps : ∀ q ∈ qs ++ p :: rs, q.mask ≤ 32) (hne : p.mask ≠ 0)
    (hcontains : p.Contains a)
    (hlongest : ∀ q ∈ qs ++ p :: rs, q.Contains a → q.mask ≤ p.mask)
    (hlast : ∀ r ∈ rs, r.Contains a → r.mask ≠ p.mask) :
    getBase (putBaseAll initRootBase (qs ++ p :: rs)) a = some p.data ∧
      (putBaseAll initRootBase (qs ++ p :: rs)).entry (bitsFrom p.dest 0 p.mask.toNat) =
        some p.data := by
  have hdeep := deepest_putBaseAll (qs ++ p :: rs) hps a
  have hproper := proper_of_ne_zero (hps p (List.mem_append_right _ List.mem_cons_self)) hne
  have hcontained {q : Insertion} (hq : q ∈ qs ++ p :: rs) (hq0 : decide (q.mask ≠ 0) = true)
      (hcovers : q.Covers a) : q.Contains a :=
    (proper_of_ne_zero (hps q hq) (of_decide_eq_true hq0)).contains_iff.mpr hcovers
  have hfound : longestMatch ((qs ++ p :: rs).filter (·.mask ≠ 0)) a = some p := by
    rw [List.filter_append, List.filter_cons_of_pos (by simpa using hne)]
    refine longestMatch_eq_some (hproper.contains_iff.mp hcontains) (fun q hq hcovers => ?_)
      fun r hr hcovers => ?_
    · obtain ⟨hq, hq0⟩ := List.mem_filter.mp hq
      have hmem : q ∈ qs ++ p :: rs := List.mem_append_left _ hq
      exact hlongest q hmem (hcontained hmem hq0 hcovers)
    · obtain ⟨hr, hr0⟩ := List.mem_filter.mp hr
      have hmem : r ∈ qs ++ p :: rs := List.mem_append_right _ (List.mem_cons_of_mem p hr)
      have hr' := hcontained hmem hr0 hcovers
      exact UInt32.lt_of_le_of_ne (hlongest r hmem hr') (hlast r hr hr')
  rw [hfound] at hdeep
  obtain ⟨-, hentry⟩ := hdeep.entry p rfl
  refine ⟨hdeep.getBase, ?_⟩
  rw [← (bitsFrom_eq_iff hproper a p.mask.toNat).mpr ⟨rfl, hproper.contains_iff.mp hcontains⟩]
  exact hentry

/-- The lookup is right unless a default route is the longest prefix of the address. -/
theorem returnsLongest_iff (hps : ∀ p ∈ ps, p.mask ≤ 32) :
    ReturnsLongest ps a ↔
      (∀ p ∈ ps, p.mask ≠ 0) ∨ ∃ p ∈ ps, p.mask ≠ 0 ∧ p.Contains a := by
  have hnone := getBase_eq_none_iff (a := a) hps
  constructor
  · rintro ⟨hnull, -⟩
    by_contra hnot
    obtain ⟨hdefault, hlonger⟩ := not_or.mp hnot
    push Not at hdefault hlonger
    obtain ⟨p, hp, hzero⟩ := hdefault
    exact hnull.mp (hnone.mpr hlonger) p hp (contains_of_zero hzero)
  · intro hcond
    refine ⟨hnone.trans ⟨fun hall p hp hcontains => ?_, fun hall p hp _ => hall p hp⟩, ?_⟩
    · rcases hcond with hne | ⟨q, hq, hne, hq'⟩
      · exact hall p hp (hne p hp) hcontains
      · exact hall q hq hne hq'
    · rintro qs p rs rfl hcontains hlongest hlast
      refine getBase_eq_data hps ?_ hcontains hlongest hlast
      rcases hcond with hne | ⟨q, hq, hne, hq'⟩
      · exact hne p (List.mem_append_right _ List.mem_cons_self)
      · rintro hzero
        have hle := hlongest q hq hq'
        rw [hzero] at hle
        exact hne (UInt32.le_antisymm hle UInt32.zero_le)

theorem returnsLongest_iff_nested :
    ReturnsLongest [⟨0, 0, 1⟩, ⟨0x0a000000, 8, 2⟩] 0x0a010203 ↔
      (∀ p ∈ ([⟨0, 0, 1⟩, ⟨0x0a000000, 8, 2⟩] : List Insertion), p.mask ≠ 0) ∨
        ∃ p ∈ ([⟨0, 0, 1⟩, ⟨0x0a000000, 8, 2⟩] : List Insertion),
          p.mask ≠ 0 ∧ p.Contains 0x0a010203 :=
  returnsLongest_iff (by decide)

/-- A default route is stored and never found. -/
theorem default_route_not_returned :
    (∀ p ∈ ([⟨0, 0, 7⟩] : List Insertion), p.mask ≤ 32) ∧
      ¬ReturnsLongest [⟨0, 0, 7⟩] 0x0a010203 := by
  refine ⟨by decide, fun h => ?_⟩
  have hnull : getBase (putBaseAll initRootBase [⟨0, 0, 7⟩]) 0x0a010203 = none := rfl
  exact h.1.mp hnull ⟨0, 0, 7⟩ (List.mem_singleton_self _) (by decide)

end Returned

end NetworkLab.Tries
