import NetworkLab.PoptrieStray

/-!
# The direct pointers

A direct pointer stands for the first two rounds of a lookup. Splits move the arrays that it
points into, and the pointers into a moved array are renewed with it.
-/
namespace NetworkLab.Tries

section Walks

/-- The walk from a node along these keys: to a node, to NULL where a slot has a leaf, or
nowhere when a pointer on the way is not one of a node. -/
def Poptrie.walk (s : Poptrie) : List ℕ → NodePtr → Option (Option NodePtr)
  | [], q => (s.node q).map fun _ => some q
  | key :: ks, q => do
    let nd ← s.node q
    if nd.vector.getLsbD key then do
      let child ← nd.child
      s.walk ks (child, (nd.idx (key + 1)).2 - 1)
    else some none

variable {s t : Poptrie} {place : List ℕ → Option NodePtr} {slots : List ℕ → ℕ → Option Leaf}
  {p : List ℕ} {q : NodePtr}

/-- A walk goes along the links only. -/
theorem Poptrie.Same.walk (h : s.Same Internal.links t) (ks : List ℕ) (q : NodePtr) :
    s.walk ks q = t.walk ks q := by
  induction ks generalizing q with
  | nil =>
    have hnode := congrArg (Option.map fun _ => some q) (h.node q)
    rwa [Option.map_map, Option.map_map] at hnode
  | cons key ks ih =>
    rw [Poptrie.walk, Poptrie.walk]
    cases hnd : s.node q with
    | none =>
      have hnode := h.node q
      rw [hnd, Option.map_none] at hnode
      rw [Option.map_eq_none_iff.mp hnode.symm]
      rfl
    | some nd =>
      obtain ⟨nd', hnd', hvector, hchild⟩ := h.exists_linked hnd
      rw [hnd', Option.bind_eq_bind, Option.bind_some, Option.bind_eq_bind, Option.bind_some]
      simp only [idx_snd, hvector, hchild, ih]

theorem Valid.place_append_none (h : Valid s place slots) (hp : place p = none) (ks : List ℕ) :
    place (p ++ ks) = none := by
  induction ks generalizing p with
  | nil => rwa [List.append_nil]
  | cons key ks ih =>
    rw [List.append_cons]
    refine ih ?_
    rw [h.step, hp]
    rfl

/-- A walk ends where the path of its keys ends. -/
theorem Valid.walk (h : Valid s place slots) {ks : List ℕ} (hks : ∀ key ∈ ks, key < 64)
    (hp : place p = some q) : s.walk ks q = some (place (p ++ ks)) := by
  induction ks generalizing p q with
  | nil =>
    obtain ⟨nd, hnd, -⟩ := h.shows p q hp
    rw [Poptrie.walk, hnd, List.append_nil, hp]
    rfl
  | cons key ks ih =>
    obtain ⟨nd, hnd, hshows⟩ := h.shows p q hp
    have hkey := hks key List.mem_cons_self
    rw [Poptrie.walk, hnd, List.append_cons, Option.bind_eq_bind, Option.bind_some]
    cases hx : slots p key with
    | none =>
      have hbit := hshows.vector_of_none hkey hx
      obtain ⟨q', hq'⟩ := Option.ne_none_iff_exists'.mp ((h.place_isSome_iff hp hkey).mpr hx)
      obtain ⟨-, hchild, hidx⟩ := h.child_eq hp hnd hq'
      have hplace : (q'.1, (nd.idx (key + 1)).2 - 1) = q' := by
        rw [idx_snd, onesBelow, hbit, ← hidx]
        rfl
      rw [if_pos hbit, hchild, Option.bind_eq_bind, Option.bind_some, hplace]
      exact ih (fun k hk => hks k (List.mem_cons_of_mem key hk)) hq'
    | some x =>
      have hleaf : place (p ++ [key]) = none := by
        by_contra hne
        have hnone := (h.place_isSome_iff hp hkey).mp hne
        rw [hx] at hnone
        cases hnone
      rw [if_neg (by rw [hshows.vector_of_some hkey hx]; exact Bool.false_ne_true),
        h.place_append_none hleaf]

end Walks

section Pointing

/-- However the insertions are ordered and whatever leaves they read, a direct pointer is the
node that the walk along its twelve bits leads to, or NULL where the walk meets a leaf, and a
lookup gives the same from the root. -/
theorem direct_pointing_agrees (ps : List Insertion) (hps : ∀ p ∈ ps, 1 ≤ p.mask ∧ p.mask ≤ 32) :
    (∀ s, initRootPoptrie.putAll ps = some s → StrayRun ps s) ∧ (∃ s, StrayRun ps s) ∧
    ∀ s, StrayRun ps s →
      (∀ i < 4096, s.walk [i / 64, i % 64] root = some (s.directPointing i)) ∧
      ∀ a, s.getPoptrie a = s.getFrom (2 ^ 32) root 32 a := by
  refine ⟨fun s => StrayRun.of_putAll, exists_strayRun hps, fun s hs => ?_⟩
  obtain ⟨-, f, place, slots, hvalid, hfinds⟩ := hs.looks hps
  have hlinks := (same_defaultLeaves s).links
  refine ⟨fun i hi => ?_, fun a => ?_⟩
  · have hkeys : ∀ key ∈ [i / 64, i % 64], key < 64 := by
      simp only [List.mem_cons, List.not_mem_nil, or_false, forall_eq_or_imp, forall_eq]
      omega
    rw [hlinks.walk, hvalid.walk hkeys hvalid.root, hlinks.pointing, hvalid.direct i hi,
      List.nil_append]
  · obtain ⟨hdeep, hfound⟩ := hfinds (keys a) (keys_lt a)
    obtain ⟨q, hq⟩ := hvalid.exists_end hfound
    obtain ⟨hget, hroot⟩ := hvalid.getPoptrie_leafAt hlinks hfound hdeep hq
    rw [hget, hroot]

theorem direct_pointing_agrees_longer_first :
    (∃ s, StrayRun [⟨0x0a010100, 24, 1⟩, ⟨0x0a000000, 8, 2⟩, ⟨0x0a010000, 16, 3⟩] s) ∧
      ∀ s, StrayRun [⟨0x0a010100, 24, 1⟩, ⟨0x0a000000, 8, 2⟩, ⟨0x0a010000, 16, 3⟩] s →
        (∀ i < 4096, s.walk [i / 64, i % 64] root = some (s.directPointing i)) ∧
        ∀ a, s.getPoptrie a = s.getFrom (2 ^ 32) root 32 a :=
  (direct_pointing_agrees [⟨0x0a010100, 24, 1⟩, ⟨0x0a000000, 8, 2⟩, ⟨0x0a010000, 16, 3⟩]
    (by decide)).2

end Pointing

end NetworkLab.Tries
