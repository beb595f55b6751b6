import NetworkLab.PoptrieRuns
import NetworkLab.PoptrieShape

/-!
# The nodes after a run of insertions

In a node the two bit vectors and the two arrays go together. An insertion that meets a longer
prefix in its slots leaves the bit of that prefix set and drops its leaf, so that the node is
one leaf short from then on.
-/
namespace NetworkLab.Tries
open RunCoding

section Nodes

/-- The nodes that pointers lead to from the root. -/
inductive Poptrie.Reaches (s : Poptrie) : NodePtr → Prop
  | root : s.Reaches root
  | child {q : NodePtr} {nd : Internal} {b i : ℕ} {nodes : List Internal} : s.Reaches q →
    s.node q = some nd → nd.child = some b → s.children (some b) = some nodes →
    i < nodes.length → s.Reaches (b, i)

/-- The bit vectors of a node go together, and both arrays have one element for each bit. -/
structure Internal.WellFormed (s : Poptrie) (nd : Internal) : Prop extends nd.Shaped where
  leaves : nd.leaf.length = countOneBit nd.leafvec
  children : ∃ nodes, s.children nd.child = some nodes ∧ nodes.length = countOneBit nd.vector

/-- Every node is there and well formed, and every lookup stays inside the arrays. -/
structure Poptrie.Sound (s : Poptrie) : Prop where
  nodes : ∀ q, s.Reaches q → ∃ nd, s.node q = some nd ∧ nd.WellFormed s
  lookups : ∀ a, ∃ leaf, s.getPoptrie a = some (some leaf)

/-- The child at an index of the array of children belongs to a slot. -/
theorem exists_onesBelow_eq {vec : BitVec 64} {n i : ℕ} (hi : i < onesBelow vec n) :
    ∃ k < n, vec.getLsbD k = true ∧ onesBelow vec k = i := by
  induction n with
  | zero => exact absurd hi (Nat.not_lt_zero i)
  | succ n ih =>
    rcases Nat.lt_or_ge i (onesBelow vec n) with hlt | hge
    · obtain ⟨k, hk, hbit, heq⟩ := ih hlt
      exact ⟨k, Nat.lt_succ_of_lt hk, hbit, heq⟩
    · rw [onesBelow] at hi
      cases hbit : vec.getLsbD n with
      | false =>
        rw [hbit, Bool.toNat_false] at hi
        omega
      | true =>
        rw [hbit, Bool.toNat_true] at hi
        exact ⟨n, Nat.lt_succ_self n, hbit, by omega⟩

variable {s : Poptrie} {place : List ℕ → Option NodePtr} {slots : List ℕ → ℕ → Option Leaf}
  {q : NodePtr} {nd : Internal} {f : (ℕ → ℕ) → ℕ × Leaf}

/-- The children of a node are the nodes at the slots of its `vector`. -/
theorem Valid.exists_slot (h : Valid s place slots) {p : List ℕ} (hp : place p = some q)
    (hnd : s.node q = some nd) {b i : ℕ} {nodes : List Internal} (hchild : nd.child = some b)
    (hnodes : s.children (some b) = some nodes) (hi : i < nodes.length) :
    ∃ k, place (p ++ [k]) = some (b, i) := by
  obtain ⟨nodes', hnodes', hlen⟩ := h.children p q nd hp hnd
  obtain rfl : nodes' = nodes := Option.some.inj (hnodes'.symm.trans (hchild ▸ hnodes))
  rw [hlen] at hi
  obtain ⟨k, -, hbit, hk⟩ := exists_onesBelow_eq hi
  refine ⟨k, ?_⟩
  rw [h.place_eq_childAt hp hnd, Internal.childAt, if_pos hbit, hchild, Option.map_some, hk]

/-- A node that pointers lead to has a path of slots. -/
theorem Valid.exists_place (h : Valid s place slots) (hq : s.Reaches q) :
    ∃ p, place p = some q := by
  induction hq with
  | root => exact ⟨[], h.root⟩
  | child _ hnd hchild hnodes hi ih =>
    obtain ⟨p, hp⟩ := ih
    obtain ⟨k, hk⟩ := h.exists_slot hp hnd hchild hnodes hi
    exact ⟨p ++ [k], hk⟩

/-- The first slot with a leaf has nothing to go on from. -/
theorem Internal.Shows.shaped {slots : ℕ → Option Leaf} (h : nd.Shows slots) : nd.Shaped := by
  have hlt {i : ℕ} (hbit : nd.leafvec.getLsbD i = true) : i < 64 := BitVec.lt_of_getLsbD hbit
  refine ⟨fun i hbit => ?_, fun i hi hleaf hbefore => ?_⟩
  · rw [h.vector i (hlt hbit)]
    cases hx : slots i with
    | none =>
      rw [h.coded.holes i (hlt hbit) hx] at hbit
      cases hbit
    | some x => rfl
  · rw [h.vector i hi] at hleaf
    obtain ⟨x, hx⟩ := Option.isSome_iff_exists.mp (Option.isNone_eq_false_iff.mp hleaf)
    have hholes (j : ℕ) (hj : j < i) : slots j = none := by
      have hbit := hbefore j hj
      rw [h.vector j (hj.trans hi)] at hbit
      exact Option.isNone_iff_eq_none.mp hbit
    by_contra hmark
    have hcarried := h.coded.carried i hi x hx (Bool.eq_false_of_not_eq_true hmark)
    rw [lastItem_of_holes (Nat.zero_le i) fun j _ hj => hholes j hj] at hcarried
    cases hcarried

theorem Looks.sound (h : Looks s f) : s.Sound := by
  refine ⟨fun q hq => ?_, fun a => ⟨_, h.getPoptrie a⟩⟩
  obtain ⟨place, slots, hvalid, -⟩ := h
  obtain ⟨p, hp⟩ := hvalid.exists_place hq
  obtain ⟨nd, hnd, hshows⟩ := hvalid.shows p q hp
  exact ⟨nd, hnd, hshows.shaped, (onesBelow_eq_length hshows.coded).symm,
    hvalid.children p q nd hp hnd⟩

end Nodes

section Runs

/-- In a run in which no insertion overlays a longer prefix, every state is sound. -/
theorem sound_of_not_overlays (ps : List Insertion) (hps : ∀ p ∈ ps, 1 ≤ p.mask ∧ p.mask ≤ 32)
    (hfree : ∀ qs p, qs ++ [p] <+: ps → ¬Overlays qs p) :
    ∀ qs, qs <+: ps → ∃ s, initRootPoptrie.putAll qs = some s ∧ s.Sound := by
  intro qs hqs
  have hproper : ∀ q ∈ qs, q.Proper := fun q hq => hps q (hqs.subset hq)
  obtain ⟨s, hs, hlooks⟩ :=
    looks_of_not_overlays qs hproper fun rs p hpre => hfree rs p (hpre.trans hqs)
  exact ⟨s, hs, hlooks.sound⟩

theorem sound_of_not_overlays_nested :
    ∃ s, initRootPoptrie.putAll [⟨0, 1, 7⟩, ⟨0x20000000, 3, 9⟩] = some s ∧ s.Sound := by
  refine sound_of_not_overlays [⟨0, 1, 7⟩, ⟨0x20000000, 3, 9⟩] (by decide) (fun qs p hpre => ?_)
    _ List.prefix_rfl
  rintro ⟨q, hq, -, hlt, -⟩
  rcases qs with - | ⟨r, - | ⟨r', rest⟩⟩
  · cases hq
  · obtain ⟨rfl, hpre'⟩ := List.cons_prefix_cons.mp hpre
    obtain ⟨rfl, -⟩ := List.cons_prefix_cons.mp hpre'
    rw [List.mem_singleton.mp hq] at hlt
    exact absurd hlt (by decide)
  · have hlen := hpre.length_le
    simp at hlen

/-- With the longer prefix first, the root has four bits and three leaves, and a lookup reads
behind the last one. -/
theorem longer_first_not_sound :
    (∀ p ∈ ([⟨0x20000000, 3, 9⟩, ⟨0, 1, 7⟩] : List Insertion), 1 ≤ p.mask ∧ p.mask ≤ 32) ∧
      ∃ s nd, initRootPoptrie.putAll [⟨0x20000000, 3, 9⟩, ⟨0, 1, 7⟩] = some s ∧
        s.node root = some nd ∧ countOneBit nd.leafvec = 4 ∧ nd.leaf.length = 3 ∧
        s.getPoptrie 0x80000000 = none ∧ ¬s.Sound := by
  have hnode : ((initRootPoptrie.putAll [⟨0x20000000, 3, 9⟩, ⟨0, 1, 7⟩]).bind fun s =>
      s.node root) = some ⟨0x100010101, 0, none, [⟨7, 1⟩, ⟨7, 1⟩, ⟨0, 0⟩]⟩ := by
    decide +kernel
  have hget : ((initRootPoptrie.putAll [⟨0x20000000, 3, 9⟩, ⟨0, 1, 7⟩]).map fun s =>
      s.getPoptrie 0x80000000) = some none := by
    decide +kernel
  obtain ⟨s, hs, hnd⟩ := Option.bind_eq_some_iff.mp hnode
  rw [hs, Option.map_some] at hget
  have hnone := Option.some.inj hget
  refine ⟨by decide, s, _, hs, hnd, by decide, rfl, hnone, fun hsound => ?_⟩
  obtain ⟨leaf, hleaf⟩ := hsound.lookups 0x80000000
  rw [hnone] at hleaf
  cases hleaf

end Runs

end NetworkLab.Tries
