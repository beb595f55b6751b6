import Mathlib.Combinatorics.SimpleGraph.Acyclic

/-!
# Ways through a graph that never turn back

A way starts on an edge and goes on over an edge other than the one it has come by. In an acyclic
graph there is one way at most to each vertex. With a cycle in reach there are ways of every
length.
-/
namespace NetworkLab.NonBacktracking

variable {V : Type*} {G : SimpleGraph V} {x y u v w : V} {l l' : List V}

/-- A way whose first edge is given, the last vertex first. -/
inductive Way (G : SimpleGraph V) (x y : V) : List V → Prop
  | start (h : G.Adj x y) : Way G x y [y, x]
  | next {u v w : V} {l : List V} (h : Way G x y (v :: u :: l)) (hadj : G.Adj v w) (hne : w ≠ u) :
      Way G x y (w :: v :: u :: l)

theorem Way.exists_cons (h : Way G x y l) : ∃ v u l', l = v :: u :: l' := by
  cases h with
  | start => exact ⟨y, x, [], rfl⟩
  | next => exact ⟨_, _, _, rfl⟩

/-- What the last step of a way was. -/
theorem Way.cases_cons (h : Way G x y (w :: l)) :
    l = [x] ∨ ∃ v u l', l = v :: u :: l' ∧ Way G x y l ∧ G.Adj v w ∧ w ≠ u := by
  cases h with
  | start => exact .inl rfl
  | next h hadj hne => exact .inr ⟨_, _, _, rfl, h, hadj, hne⟩

/-- A way backwards is a walk without two equal edges in a row. -/
theorem Way.exists_walk (h : Way G x y l) :
    ∃ v, ∃ p : G.Walk v x, p.support = l ∧ p.edges.IsChain (· ≠ ·) := by
  induction h with
  | start h => exact ⟨y, .cons h.symm .nil, rfl, .singleton _⟩
  | @next u v w l h hadj hne ih =>
    obtain ⟨v', p, hp, hchain⟩ := ih
    cases p with
    | nil => simp at hp
    | @cons _ u' _ hadj' q =>
      rw [SimpleGraph.Walk.support_cons] at hp
      obtain ⟨rfl, hq⟩ := List.cons.inj hp
      obtain rfl : u' = u := (List.cons.inj (q.cons_tail_support.trans hq)).1
      refine ⟨w, .cons hadj.symm (.cons hadj' q), ?_, ?_⟩
      · rw [SimpleGraph.Walk.support_cons, SimpleGraph.Walk.support_cons, hq]
      · rw [SimpleGraph.Walk.edges_cons] at hchain ⊢
        rw [SimpleGraph.Walk.edges_cons]
        refine List.isChain_cons_cons.mpr ⟨fun heq => ?_, hchain⟩
        rcases Sym2.eq_iff.mp heq with ⟨rfl, -⟩ | ⟨rfl, -⟩
        · exact hadj.ne rfl
        · exact hne rfl

/-- In an acyclic graph a way meets no vertex twice. -/
theorem Way.nodup (hG : G.IsAcyclic) (h : Way G x y l) : l.Nodup := by
  obtain ⟨v, p, rfl, hchain⟩ := h.exists_walk
  exact ((hG.isPath_iff_isChain p).mpr hchain).support_nodup

/-- In an acyclic graph there is one way to a vertex. -/
theorem Way.unique (hG : G.IsAcyclic) (h : Way G x y (v :: l)) (h' : Way G x y (v :: l')) :
    l = l' := by
  obtain ⟨u, p, hp, hchain⟩ := h.exists_walk
  obtain ⟨u', p', hp', hchain'⟩ := h'.exists_walk
  obtain ⟨rfl, hl⟩ := List.cons.inj (p.cons_tail_support.trans hp)
  obtain ⟨rfl, hl'⟩ := List.cons.inj (p'.cons_tail_support.trans hp')
  have hpaths := (hG.subsingleton_path _ _).elim ⟨p, (hG.isPath_iff_isChain p).mpr hchain⟩
    ⟨p', (hG.isPath_iff_isChain p').mpr hchain'⟩
  obtain rfl : p = p' := congrArg Subtype.val hpaths
  rw [← hl, ← hl']

theorem Way.mem_tail (h : Way G x y (v :: l)) : x ∈ l := by
  generalize hway : v :: l = way at h
  induction h generalizing v l with
  | start =>
    rw [(List.cons.inj hway).2]
    exact List.mem_singleton.mpr rfl
  | next h hadj hne ih =>
    rw [(List.cons.inj hway).2]
    exact List.mem_cons_of_mem _ (ih rfl)

/-- In an acyclic graph no way comes back. -/
theorem Way.head_ne (hG : G.IsAcyclic) (h : Way G x y (v :: l)) : v ≠ x := fun heq =>
  (List.nodup_cons.mp (h.nodup hG)).1 (heq ▸ h.mem_tail)

/-- From a vertex with one edge there is a way to all that can be reached. -/
theorem exists_way (hx : ∀ w, G.Adj x w ↔ w = y) (h : G.Reachable x v) :
    v = x ∨ ∃ l, Way G x y (v :: l) := by
  rw [SimpleGraph.reachable_iff_reflTransGen] at h
  induction h with
  | refl => exact .inl rfl
  | @tail v w _ hadj ih =>
    rcases ih with rfl | ⟨l, hway⟩
    · obtain rfl := (hx w).mp hadj
      exact .inr ⟨_, .start hadj⟩
    · rcases hway.cases_cons with rfl | ⟨u, t, l', rfl, hprev, hadj', hne⟩
      · by_cases hw : w = x
        · exact .inl hw
        · exact .inr ⟨_, hway.next hadj hw⟩
      · by_cases hw : w = u
        · rw [hw]
          exact .inr ⟨_, hprev⟩
        · exact .inr ⟨_, hway.next hadj hw⟩

section Endless

/-- The edge can be followed for ever without turning back. -/
def Endless (G : SimpleGraph V) (u v : V) : Prop :=
  ∃ f : ℕ → V, f 0 = u ∧ f 1 = v ∧ ∀ n, G.Adj (f n) (f (n + 1)) ∧ f (n + 2) ≠ f n

theorem Endless.cons (h : Endless G v w) (hadj : G.Adj u v) (hne : w ≠ u) : Endless G u v := by
  obtain ⟨f, rfl, rfl, hf⟩ := h
  refine ⟨fun n => if n = 0 then u else f (n - 1), rfl, rfl, fun n => ?_⟩
  cases n with
  | zero => exact ⟨hadj, hne⟩
  | succ n => exact hf n

theorem Endless.next (h : Endless G u v) : ∃ w, w ≠ u ∧ Endless G v w := by
  obtain ⟨f, rfl, rfl, hf⟩ := h
  exact ⟨f 2, (hf 0).2, fun n => f (n + 1), rfl, rfl, fun n => hf (n + 1)⟩

/-- Going round a cycle. -/
theorem endless_of_isCycle {c : G.Walk v v} (hc : c.IsCycle) : ∃ w, Endless G v w := by
  have hlen := hc.three_le_length
  have hlt (n : ℕ) : n % c.length < c.length := Nat.mod_lt _ (by omega)
  have hsucc (n : ℕ) : c.getVert ((n + 1) % c.length) = c.getVert (n % c.length + 1) := by
    rw [Nat.add_mod, Nat.mod_eq_of_lt (show 1 < c.length by omega)]
    by_cases hlast : n % c.length + 1 = c.length
    · rw [hlast, Nat.mod_self, c.getVert_zero, c.getVert_length]
    · have := hlt n
      rw [Nat.mod_eq_of_lt (by omega)]
  refine ⟨c.getVert (1 % c.length), fun n => c.getVert (n % c.length), ?_, rfl, fun n => ⟨?_, ?_⟩⟩
  · show c.getVert (0 % c.length) = v
    rw [Nat.zero_mod, c.getVert_zero]
  · show G.Adj (c.getVert (n % c.length)) (c.getVert ((n + 1) % c.length))
    rw [hsucc]
    exact c.adj_getVert_succ (hlt n)
  · intro heq
    have hsame : n + 2 ≡ n + 0 [MOD c.length] :=
      hc.getVert_injOn' (Nat.le_sub_one_of_lt (hlt _)) (Nat.le_sub_one_of_lt (hlt _)) heq
    have htwo : 2 % c.length = 0 % c.length := Nat.ModEq.add_left_cancel' n hsame
    rw [Nat.zero_mod, Nat.mod_eq_of_lt (by omega)] at htwo
    cases htwo

/-- All that is connected to an endless edge has one. -/
theorem exists_endless (h : G.Reachable u v) (hv : ∃ w, Endless G v w) : ∃ w, Endless G u w := by
  rw [SimpleGraph.reachable_iff_reflTransGen] at h
  induction h using Relation.ReflTransGen.head_induction_on with
  | refl => exact hv
  | @head u t hadj _ ih =>
    obtain ⟨w, hw⟩ := ih
    by_cases hne : w = u
    · rw [hne] at hw
      obtain ⟨w', -, hw'⟩ := hw.next
      exact ⟨w', hw'⟩
    · exact ⟨t, hw.cons hadj hne⟩

/-- Along an endless edge there are ways of every length. -/
theorem Endless.exists_way (h : Endless G x y) (n : ℕ) : ∃ l, Way G x y l ∧ l.length = n + 2 := by
  obtain ⟨f, rfl, rfl, hf⟩ := h
  have hway (n : ℕ) : ∃ l, Way G (f 0) (f 1) (f (n + 1) :: f n :: l) ∧ l.length = n := by
    induction n with
    | zero => exact ⟨[], .start (hf 0).1, rfl⟩
    | succ n ih =>
      obtain ⟨l, hl, hlen⟩ := ih
      exact ⟨f n :: l, hl.next (hf (n + 1)).1 (hf n).2, congrArg Nat.succ hlen⟩
  obtain ⟨l, hl, hlen⟩ := hway n
  exact ⟨_, hl, by simp [hlen]⟩

end Endless

end NetworkLab.NonBacktracking
