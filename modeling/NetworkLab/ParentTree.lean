import Mathlib.Combinatorics.SimpleGraph.Acyclic
import Mathlib.Combinatorics.SimpleGraph.Metric
import Mathlib.SetTheory.Cardinal.Finite

/-!
# Graphs whose edges are those to parents

All vertices but the root choose a parent one level above, and there are no other edges. Such a
graph is a tree, and the levels are the distances from the root.
-/
namespace NetworkLab.ParentTree

variable {V : Type*} {G : SimpleGraph V} {root : V} {parent : V → V} {depth : V → ℕ}

structure Parented (G : SimpleGraph V) (root : V) (parent : V → V) (depth : V → ℕ) : Prop where
  depth_root : depth root = 0
  adj_parent : ∀ v, v ≠ root → G.Adj v (parent v)
  depth_parent : ∀ v, v ≠ root → depth v = depth (parent v) + 1
  of_adj : ∀ u v, G.Adj u v → u ≠ root ∧ v = parent u ∨ v ≠ root ∧ u = parent v

theorem Parented.exists_walk (h : Parented G root parent depth) (v : V) :
    ∃ p : G.Walk root v, p.length = depth v := by
  generalize hd : depth v = d
  induction d generalizing v with
  | zero =>
    by_cases hv : v = root
    · subst hv
      exact ⟨.nil, rfl⟩
    · have := h.depth_parent v hv
      omega
  | succ d ih =>
    have hv : v ≠ root := by
      intro heq
      rw [heq, h.depth_root] at hd
      omega
    have hparent := h.depth_parent v hv
    obtain ⟨p, hp⟩ := ih (parent v) (by omega)
    exact ⟨p.concat (h.adj_parent v hv).symm, by rw [SimpleGraph.Walk.length_concat, hp]⟩

/-- Every edge changes the level by one. -/
theorem Parented.depth_le (h : Parented G root parent depth) {u v : V} (p : G.Walk u v) :
    depth v ≤ depth u + p.length := by
  induction p with
  | nil => simp
  | @cons u w v hadj p ih =>
    have hlevel : depth w ≤ depth u + 1 := by
      rcases h.of_adj u w hadj with ⟨hu, rfl⟩ | ⟨hw, rfl⟩
      · have := h.depth_parent u hu
        omega
      · exact (h.depth_parent w hw).le
    rw [SimpleGraph.Walk.length_cons]
    omega

theorem Parented.connected (h : Parented G root parent depth) : G.Connected := by
  have hroot (v : V) : G.Reachable root v := (h.exists_walk v).elim fun p _ => p.reachable
  exact (SimpleGraph.connected_iff_exists_forall_reachable G).mpr ⟨root, hroot⟩

theorem Parented.dist_eq (h : Parented G root parent depth) (v : V) :
    G.dist root v = depth v := by
  apply le_antisymm
  · obtain ⟨p, hp⟩ := h.exists_walk v
    exact hp ▸ SimpleGraph.dist_le p
  · obtain ⟨p, hp⟩ := h.connected.exists_walk_length_eq_dist root v
    have hle := h.depth_le p
    rw [h.depth_root, hp] at hle
    omega

/-- The edge of a vertex to its parent. -/
def Parented.edge (h : Parented G root parent depth) (v : { v // v ≠ root }) : G.edgeSet :=
  ⟨s(v.val, parent v.val), h.adj_parent v.val v.property⟩

theorem Parented.edge_bijective (h : Parented G root parent depth) :
    Function.Bijective h.edge := by
  constructor
  · intro u v heq
    rcases Sym2.eq_iff.mp (congrArg Subtype.val heq) with ⟨hval, -⟩ | ⟨hu, hv⟩
    · exact Subtype.ext hval
    · have hdu := h.depth_parent u.val u.property
      have hdv := h.depth_parent v.val v.property
      rw [hv] at hdu
      rw [← hu] at hdv
      omega
  · intro e
    obtain ⟨e, he⟩ := e
    induction e using Sym2.ind with
    | _ u v =>
      rcases h.of_adj u v he with ⟨hu, hv⟩ | ⟨hv, hu⟩
      · subst hv
        exact ⟨⟨u, hu⟩, rfl⟩
      · subst hu
        exact ⟨⟨v, hv⟩, Subtype.ext Sym2.eq_swap⟩

theorem Parented.isTree [Finite V] (h : Parented G root parent depth) : G.IsTree := by
  classical
  rw [SimpleGraph.isTree_iff_connected_and_card]
  have hedges : Nat.card { v // v ≠ root } = Nat.card G.edgeSet :=
    Nat.card_congr (.ofBijective h.edge h.edge_bijective)
  refine ⟨h.connected, ?_⟩
  rw [← hedges, ← Finite.card_option, Nat.card_congr (Equiv.optionSubtypeNe root)]

end NetworkLab.ParentTree
