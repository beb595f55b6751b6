import NetworkLab.BaseTrie
import NetworkLab.PoptrieRuns

/-!
# The two tries agree

When shorter prefixes come first, an insertion reaches all of its slots and finds only
shorter prefixes there. Both tries then give the longest prefix of every address.
-/
namespace NetworkLab.Tries

section Ordered

/-- No prefix comes after a strictly longer one that it covers. -/
def ShorterFirst (ps : List Insertion) : Prop :=
  ps.Pairwise fun q p => ¬(p.mask < q.mask ∧ p.Covers q.dest)

variable {ps qs : List Insertion} {p q : Insertion} {x : ℕ → ℕ} {a : UInt32}

theorem ShorterFirst.of_prefix (h : ShorterFirst ps) (hpre : qs <+: ps) : ShorterFirst qs :=
  List.Pairwise.sublist hpre.sublist h

theorem ShorterFirst.not_covers (h : ShorterFirst (qs ++ [p])) (hq : q ∈ qs) :
    ¬(p.mask < q.mask ∧ p.Covers q.dest) :=
  (List.pairwise_append.mp h).2.2 q hq p (List.mem_singleton_self p)

/-- No slot of the new prefix has been opened. -/
theorem ShorterFirst.depth_le (h : ShorterFirst (qs ++ [p])) (hps : ∀ q ∈ qs ++ [p], q.Proper)
    (hpass : p.Passes x) : (outcome qs x).1 ≤ p.level := by
  by_contra hdeep
  obtain ⟨q, hq, hlevel, hagree⟩ :=
    (le_outcome_iff (Nat.succ_pos p.level) qs x).mp (Nat.lt_of_not_le hdeep)
  have hcovers := covers_of_agree (hps p (List.mem_concat_self))
    (hps q (List.mem_append_left _ hq)) hpass hlevel fun i hi => hagree i (Nat.lt_succ_of_le hi)
  exact h.not_covers hq ⟨mask_lt_of_level_lt hlevel, hcovers⟩

/-- The leaf that goes with a prefix. -/
def leafOf (o : Option Insertion) : Leaf := o.elim ⟨0, 0⟩ Insertion.leaf

/-- A lookup ends with the longest prefix of the address. -/
theorem ShorterFirst.outcome_eq (h : ShorterFirst ps) (hps : ∀ p ∈ ps, p.Proper) (a : UInt32) :
    (outcome ps (keys a)).2 = leafOf (longestMatch ps a) := by
  induction ps using List.reverseRecOn with
  | nil => rfl
  | append_singleton ps p ih =>
    have hproper := hps p (List.mem_concat_self)
    rw [outcome_append, longestMatch_append]
    by_cases hcovers : p.Covers a
    · have hpass := (hproper.passes_iff a).mpr hcovers
      have hlen : length (longestMatch ps a) ≤ p.mask.toNat := by
        cases hbest : longestMatch ps a with
        | none => exact Nat.zero_le _
        | some q =>
          obtain ⟨hq, hcovers'⟩ := (longestMatch_spec ps a).1 q hbest
          have hproper' := hps q (List.mem_append_left _ hq)
          by_contra hlt
          have hlt' : p.mask < q.mask := UInt32.lt_iff_toNat_lt.mpr (Nat.lt_of_not_le hlt)
          exact h.not_covers hq ⟨hlt',
            (hcovers'.nested hproper hproper' (UInt32.le_of_lt hlt')).mp hcovers⟩
      rw [better_pos hcovers hlen]
      exact if_pos ⟨hpass, h.depth_le hps hpass⟩
    · rw [better_neg fun hboth => hcovers hboth.1]
      simp only [if_neg fun hboth : p.Passes (keys a) ∧ _ =>
        hcovers ((hproper.passes_iff a).mp hboth.1)]
      exact ih (h.of_prefix (List.prefix_append ps [p])) fun q hq =>
        hps q (List.mem_append_left _ hq)

/-- A run in this order leaves the trie in memory. -/
theorem ShorterFirst.looks (h : ShorterFirst ps) (hps : ∀ p ∈ ps, p.Proper) :
    ∃ s, initRootPoptrie.putAll ps = some s ∧ Looks s (outcome ps) :=
  looks_of_not_overlays ps hps fun _ _ hpre ⟨_, hq, _, hlt, hcovers, _⟩ =>
    (h.of_prefix hpre).not_covers hq ⟨hlt, hcovers⟩

/-- The compressed trie refines the plain one. -/
theorem poptrie_refines_base (ps : List Insertion) (hps : ∀ p ∈ ps, 1 ≤ p.mask ∧ p.mask ≤ 32)
    (horder : ps.Pairwise fun q p => ¬(p.mask < q.mask ∧ p.Covers q.dest)) :
    ∃ s, initRootPoptrie.putAll ps = some s ∧ ∀ a, ∃ leaf, s.getPoptrie a = some (some leaf) ∧
      (getBase (putBaseAll initRootBase ps) a = none ↔ leaf = ⟨0, 0⟩) ∧
      (leaf.mask = 0 ↔ leaf = ⟨0, 0⟩) ∧
      ∀ node, getBase (putBaseAll initRootBase ps) a = some node →
        leaf.iface = node.iface ∧
        ∃ p ∈ ps, p.Covers a ∧ leaf.mask = p.mask ∧ ∀ q ∈ ps, q.Covers a → q.mask ≤ p.mask := by
  have hfirst : ShorterFirst ps := horder
  obtain ⟨s, hs, hlooks⟩ := hfirst.looks hps
  refine ⟨s, hs, fun a => ⟨leafOf (longestMatch ps a), ?_, ?_⟩⟩
  · rw [hlooks.getPoptrie, hfirst.outcome_eq hps]
  · obtain ⟨hmem, hmax⟩ := longestMatch_spec ps a
    rw [getBase_putBaseAll ps hps]
    cases hbest : longestMatch ps a with
    | none => exact ⟨iff_of_true rfl rfl, iff_of_true rfl rfl, fun node hnode => by cases hnode⟩
    | some p =>
      obtain ⟨hp, hcovers⟩ := hmem p hbest
      have hmask : p.mask ≠ 0 := fun hzero => by
        have hpos := (hps p hp).1
        rw [hzero] at hpos
        exact absurd hpos (by decide)
      have hdefault : p.leaf ≠ ⟨0, 0⟩ := fun heq => hmask (congrArg Leaf.mask heq)
      refine ⟨iff_of_false (Option.some_ne_none _) hdefault, iff_of_false hmask hdefault,
        fun node hnode => ?_⟩
      obtain rfl := Option.some.inj hnode
      refine ⟨rfl, p, hp, hcovers, rfl, fun q hq hq' => ?_⟩
      obtain ⟨r, hr, hle⟩ := hmax q hq hq'
      obtain rfl := Option.some.inj (hbest.symm.trans hr)
      exact hle

theorem poptrie_refines_base_nested :
    ∃ s, initRootPoptrie.putAll [⟨0x0a000000, 8, 1⟩, ⟨0x0a010000, 16, 2⟩] = some s ∧
      ∀ a, ∃ leaf, s.getPoptrie a = some (some leaf) ∧
        (getBase (putBaseAll initRootBase [⟨0x0a000000, 8, 1⟩, ⟨0x0a010000, 16, 2⟩]) a = none ↔
          leaf = ⟨0, 0⟩) := by
  obtain ⟨s, hs, hall⟩ :=
    poptrie_refines_base [⟨0x0a000000, 8, 1⟩, ⟨0x0a010000, 16, 2⟩] (by decide) (by decide)
  refine ⟨s, hs, fun a => ?_⟩
  obtain ⟨leaf, hget, hnone, -⟩ := hall a
  exact ⟨leaf, hget, hnone⟩

end Ordered

end NetworkLab.Tries
