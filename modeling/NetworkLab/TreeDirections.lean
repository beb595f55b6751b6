import Mathlib.Combinatorics.SimpleGraph.Acyclic
import Mathlib.Combinatorics.SimpleGraph.Metric

/-!
# Directions in a tree

From each vertex of a tree one edge leads nearer to a given other vertex, and all others lead away
from it.
-/
namespace NetworkLab.TreeDirections

variable {V : Type*} {G : SimpleGraph V} {d x u v w : V}

/-- The edge from `v` to `u` leads nearer to `d`. -/
structure Nearer (G : SimpleGraph V) (d v u : V) : Prop where
  adj : G.Adj v u
  dist : G.dist d v = G.dist d u + 1

theorem Nearer.not_symm (h : Nearer G d v u) : ¬ Nearer G d u v := by
  intro h'
  have := h.dist
  have := h'.dist
  omega

theorem not_nearer_self : ¬ Nearer G d d u := by
  intro h
  have := h.dist
  rw [SimpleGraph.dist_self] at this
  omega

/-- Every edge leads nearer or away. -/
theorem nearer_or_nearer (hG : G.IsTree) (d : V) (h : G.Adj v u) :
    Nearer G d v u ∨ Nearer G d u v := by
  rcases hG.dist_eq_dist_add_one_of_adj d h with hdist | hdist
  · exact .inl ⟨h, hdist⟩
  · exact .inr ⟨h.symm, hdist⟩

theorem exists_nearer (hG : G.Connected) (h : v ≠ d) : ∃ u, Nearer G d v u := by
  obtain ⟨p, hp⟩ := hG.exists_walk_length_eq_dist v d
  cases p with
  | nil => exact absurd rfl h
  | @cons _ u _ hadj q =>
    refine ⟨u, hadj, ?_⟩
    rw [SimpleGraph.Walk.length_cons, SimpleGraph.dist_comm] at hp
    have hle := SimpleGraph.dist_le q.reverse
    have htriangle := hG.dist_triangle (u := d) (v := u) (w := v)
    rw [SimpleGraph.Walk.length_reverse] at hle
    rw [SimpleGraph.dist_eq_one_iff_adj.mpr hadj.symm] at htriangle
    omega

/-- A shortest walk to `v` that comes over `u`. -/
theorem Nearer.exists_path (hG : G.IsTree) (h : Nearer G d v u) :
    ∃ p : G.Walk d v, p.IsPath ∧ p.penultimate = u := by
  obtain ⟨p, hp⟩ := hG.connected.exists_walk_length_eq_dist d u
  refine ⟨p.concat h.adj.symm, ?_, SimpleGraph.Walk.penultimate_concat ..⟩
  apply SimpleGraph.Walk.isPath_of_length_eq_dist
  rw [SimpleGraph.Walk.length_concat, hp, h.dist]

theorem Nearer.unique (hG : G.IsTree) (hu : Nearer G d v u) (hw : Nearer G d v w) : u = w := by
  obtain ⟨p, hp, rfl⟩ := hu.exists_path hG
  obtain ⟨q, hq, rfl⟩ := hw.exists_path hG
  have hsame := (hG.isAcyclic.subsingleton_path d v).elim ⟨p, hp⟩ ⟨q, hq⟩
  exact congrArg (fun r : G.Path d v => r.val.penultimate) hsame

/-- An edge other than the one that leads nearer leads away. -/
theorem Nearer.away (hG : G.IsTree) (hu : Nearer G d v u) (hadj : G.Adj v w) (hne : w ≠ u) :
    Nearer G d w v :=
  (nearer_or_nearer hG d hadj).resolve_left fun hw => hne (hw.unique hG hu)

end NetworkLab.TreeDirections
