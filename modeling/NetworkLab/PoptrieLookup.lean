import NetworkLab.AddressKeys
import NetworkLab.PoptrieViews

/-!
# Lookups in the compressed trie

A lookup follows the keys of an address to the first slot that has a leaf. Splitting a slot
moves its leaf one node down; the rest of an insertion gives a new leaf to the lookups that
end in the slots of its range.
-/
namespace NetworkLab.Tries

section Paths

/-- The first `n` keys. -/
def path (x : ℕ → ℕ) (n : ℕ) : List ℕ := (List.range n).map x

variable {x d : ℕ → ℕ} {n : ℕ}

theorem path_succ (x : ℕ → ℕ) (n : ℕ) : path x (n + 1) = path x n ++ [x n] := by
  rw [path, List.range_succ, List.map_append]
  rfl

theorem length_path (x : ℕ → ℕ) (n : ℕ) : (path x n).length = n := by
  rw [path, List.length_map, List.length_range]

theorem path_eq_iff : path x n = path d n ↔ ∀ i < n, x i = d i := by
  rw [path, path, List.map_inj_left]
  simp only [List.mem_range]

theorem path_eq_singleton {a : ℕ} (h : path x n = [a]) : x 0 = a := by
  have hlen := congrArg List.length h
  rw [length_path, List.length_singleton] at hlen
  subst hlen
  exact List.singleton_inj.mp h

/-- The lookup of these keys ends at level `n` with this leaf. -/
def Finds (slots : List ℕ → ℕ → Option Leaf) (x : ℕ → ℕ) (n : ℕ) (l : Leaf) : Prop :=
  (∀ i < n, slots (path x i) (x i) = none) ∧ slots (path x n) (x n) = some l

variable {s : Poptrie} {place : List ℕ → Option NodePtr} {slots : List ℕ → ℕ → Option Leaf}
  {l : Leaf}

theorem Finds.level_eq (h : Finds slots x n l) {m : ℕ}
    (hbefore : ∀ i < m, slots (path x i) (x i) = none)
    (hleaf : slots (path x m) (x m) ≠ none) : n = m := by
  rcases Nat.lt_trichotomy n m with hlt | heq | hgt
  · have hnone := hbefore n hlt
    rw [h.2] at hnone
    cases hnone
  · exact heq
  · exact absurd (h.1 m hgt) hleaf

/-- The nodes on the way have no leaf at their slot. -/
theorem Valid.none_of_place (h : Valid s place slots) (hx : ∀ i, x i < 64)
    (hplace : place (path x n) ≠ none) : ∀ i < n, slots (path x i) (x i) = none := by
  induction n with
  | zero => exact fun i hi => absurd hi (Nat.not_lt_zero i)
  | succ n ih =>
    rw [path_succ] at hplace
    have hnode : place (path x n) ≠ none := by
      rw [h.step] at hplace
      intro hnone
      rw [hnone] at hplace
      exact hplace rfl
    intro i hi
    rcases Nat.lt_succ_iff_lt_or_eq.mp hi with hlt | rfl
    · exact ih hnode i hlt
    · obtain ⟨q, hq⟩ := Option.ne_none_iff_exists'.mp hnode
      exact (h.place_isSome_iff hq (hx i)).mp hplace

/-- A lookup goes through nodes on all levels up to its own. -/
theorem Valid.placed (h : Valid s place slots) (hx : ∀ i, x i < 64) (hfinds : Finds slots x n l)
    {j : ℕ} (hj : j ≤ n) : place (path x j) ≠ none := by
  induction j with
  | zero =>
    have hroot : place (path x 0) = some Tries.root := h.root
    rw [hroot]
    exact Option.some_ne_none Tries.root
  | succ j ih =>
    obtain ⟨q, hq⟩ := Option.ne_none_iff_exists'.mp (ih (Nat.le_of_succ_le hj))
    rw [path_succ]
    exact (h.place_isSome_iff hq (hx j)).mpr (hfinds.1 j hj)

/-- The slots on the path of a node have numbers below 64. -/
theorem Valid.lt_of_place (h : Valid s place slots) {p : List ℕ} (hp : place p ≠ none) :
    ∀ k ∈ p, k < 64 := by
  induction p using List.reverseRecOn with
  | nil => exact fun k hk => absurd hk List.not_mem_nil
  | append_singleton p k ih =>
    obtain ⟨q', hq'⟩ := Option.ne_none_iff_exists'.mp hp
    have hstep := h.step p k
    rw [hq'] at hstep
    obtain ⟨q, hq, -⟩ := Option.bind_eq_some_iff.mp hstep.symm
    obtain ⟨nd, hnd, -⟩ := h.shows p q hq
    obtain ⟨hbit, -, -⟩ := h.child_eq hq hnd hq'
    intro j hj
    rcases List.mem_append.mp hj with hold | hlast
    · exact ih (by rw [hq]; exact Option.some_ne_none q) j hold
    · exact List.mem_singleton.mp hlast ▸ BitVec.lt_of_getLsbD hbit

/-- The path of a node is the beginning of a sequence of keys. -/
theorem Valid.exists_keys (h : Valid s place slots) {p : List ℕ} (hp : place p ≠ none) :
    ∃ x, (∀ i, x i < 64) ∧ path x p.length = p := by
  refine ⟨(p.getD · 0), fun i => ?_, List.ext_getElem (length_path _ _) fun i hi hi' => ?_⟩
  · show p.getD i 0 < 64
    rw [List.getD_eq_getElem?_getD]
    cases hi : p[i]? with
    | none => exact Nat.zero_lt_succ 63
    | some k => exact h.lt_of_place hp k (List.mem_of_getElem? hi)
  · simp [path, List.getD_eq_getElem?_getD, hi']

end Paths

section Get

/-- The leaf that a lookup takes at a slot of the node. -/
def Poptrie.leafAt (s : Poptrie) (q : NodePtr) (key : ℕ) : Option (Option Leaf) :=
  (s.node q).bind fun nd => (nd.leafBefore (nd.idx (key + 1)).1).map some

variable {s t : Poptrie} {place : List ℕ → Option NodePtr} {slots : List ℕ → ℕ → Option Leaf}
  {a : UInt32} {n : ℕ} {l : Leaf} {q qn : NodePtr}

theorem mask_ne_zero {mask : UInt32} {j : ℕ} (hmask : mask.toNat = 32 - 6 * j) (hj : j ≤ 5) :
    mask ≠ 0 := by
  intro hzero
  rw [hzero] at hmask
  have hz : (0 : UInt32).toNat = 0 := rfl
  omega

theorem toNat_mask_sub {mask : UInt32} {j : ℕ} (hmask : mask.toNat = 32 - 6 * j) (hj : j < 5) :
    (mask - 6).toNat = 32 - 6 * (j + 1) := by
  have hsix : (6 : UInt32).toNat = 6 := rfl
  have hle : (6 : UInt32) ≤ mask := by
    rw [UInt32.le_iff_toNat_le, hmask, hsix]
    omega
  rw [UInt32.toNat_sub_of_le _ _ hle, hmask, hsix]
  omega

/-- What a round of `get_poptrie` reads in a memory with the links of this one: the pointer to
the next node of the way, or at its end a slot with a leaf. -/
theorem Valid.reads (h : Valid t place slots) (hsame : s.Same Internal.links t)
    (hfinds : Finds slots (keys a) n l) {j : ℕ} (hj : j ≤ n)
    (hq : place (path (keys a) j) = some q) :
    ∃ nd, s.node q = some nd ∧
      ((j < n ∧ nd.vector.getLsbD (keys a j) = true ∧ ∃ head, nd.child = some head ∧
        place (path (keys a) (j + 1)) = some (head, (nd.idx (keys a j + 1)).2 - 1)) ∨
      (j = n ∧ nd.vector.getLsbD (keys a j) = false)) := by
  obtain ⟨nd, hnd, hshows⟩ := h.shows _ q hq
  obtain ⟨nd', hnd', hvector, hchild'⟩ := hsame.symm.exists_linked hnd
  have hkey := keys_lt a j
  refine ⟨nd', hnd', ?_⟩
  rw [hvector, hchild']
  rcases Nat.lt_or_eq_of_le hj with hlt | rfl
  · have hnone := hfinds.1 j hlt
    have hbit := hshows.vector_of_none hkey hnone
    have hnext := (h.place_isSome_iff hq hkey).mpr hnone
    obtain ⟨q', hq'⟩ := Option.ne_none_iff_exists'.mp hnext
    obtain ⟨-, hchild, hidx⟩ := h.child_eq hq hnd hq'
    have hplace : (q'.1, (nd'.idx (keys a j + 1)).2 - 1) = q' := by
      rw [idx_snd, hvector, onesBelow, hbit, ← hidx]
      rfl
    exact .inl ⟨hlt, hbit, q'.1, hchild, by rw [path_succ, hplace]; exact hq'⟩
  · exact .inr ⟨rfl, hshows.vector_of_some hkey hfinds.2⟩

/-- The rounds of `get_poptrie` from level `j` on. -/
theorem Valid.getFrom (h : Valid t place slots) (hsame : s.Same Internal.links t)
    (hfinds : Finds slots (keys a) n l) (hn : n ≤ 5) (hqn : place (path (keys a) n) = some qn)
    {fuel j : ℕ} (hj : j ≤ n) (hfuel : n - j < fuel) (hq : place (path (keys a) j) = some q)
    {mask : UInt32} (hmask : mask.toNat = 32 - 6 * j) :
    s.getFrom fuel q mask (shifted a j) = s.leafAt qn (keys a n) := by
  induction fuel generalizing j q mask with
  | zero => omega
  | succ fuel ih =>
    obtain ⟨nd, hnd, hreads⟩ := h.reads hsame hfinds hj hq
    have hkeyOf : keyOf (shifted a j) = keys a j := rfl
    rw [Poptrie.getFrom, if_neg (mask_ne_zero hmask (by omega)), hnd, hkeyOf,
      Option.bind_eq_bind, Option.bind_some]
    rcases hreads with ⟨hlt, hbit, head, hchild, hnext⟩ | ⟨rfl, hbit⟩
    · simp only [hbit, if_true, hchild]
      rw [Option.bind_eq_bind, Option.bind_some, ← shifted_succ]
      exact ih hlt (by omega) hnext (toNat_mask_sub hmask (by omega))
    · obtain rfl : q = qn := Option.some.inj (hq.symm.trans hqn)
      rw [Poptrie.leafAt, hnd, Option.bind_some]
      simp only [hbit, Bool.false_eq_true, if_false]
      exact Option.map_eq_bind.symm

/-- A lookup has a node at its level. -/
theorem Valid.exists_end (h : Valid t place slots) (hfinds : Finds slots (keys a) n l) :
    ∃ q, place (path (keys a) n) = some q :=
  Option.ne_none_iff_exists'.mp (h.placed (keys_lt a) hfinds le_rfl)

/-- The direct pointer of an address leads to the node on the second level of its way. -/
theorem Valid.directPointing (h : Valid t place slots) (a : UInt32) :
    t.directPointing (a >>> 20).toNat = place (path (keys a) 2) := by
  have hzero := keys_lt a 0
  have hone := keys_lt a 1
  rw [toNat_shiftRight_twenty, h.direct _ (by omega)]
  have hdiv : (keys a 0 * 64 + keys a 1) / 64 = keys a 0 := by omega
  have hmod : (keys a 0 * 64 + keys a 1) % 64 = keys a 1 := by omega
  rw [hdiv, hmod]
  rfl

/-- A lookup that has a direct pointer ends on the second level or below. -/
theorem Valid.two_le (h : Valid t place slots) (hfinds : Finds slots (keys a) n l)
    (hplace : place (path (keys a) 2) = some q) : 2 ≤ n := by
  by_contra hlt
  have hnone := h.none_of_place (keys_lt a) (by rw [hplace]; exact Option.some_ne_none q) n
    (by omega)
  rw [hfinds.2] at hnone
  cases hnone

/-- `get_poptrie` takes the leaf at the end of the way from the root, whether it starts there or
from a direct pointer. -/
theorem Valid.getPoptrie_leafAt (h : Valid t place slots) (hsame : s.Same Internal.links t)
    (hfinds : Finds slots (keys a) n l) (hn : n ≤ 5) (hqn : place (path (keys a) n) = some qn) :
    s.getPoptrie a = s.leafAt qn (keys a n) ∧
      s.getFrom (2 ^ 32) Tries.root 32 a = s.leafAt qn (keys a n) := by
  have hroot : s.getFrom (2 ^ 32) Tries.root 32 a = s.leafAt qn (keys a n) :=
    h.getFrom hsame hfinds hn hqn (Nat.zero_le n) (by omega) h.root rfl
  refine ⟨?_, hroot⟩
  rw [Poptrie.getPoptrie, hsame.pointing, h.directPointing]
  cases hplace : place (path (keys a) 2) with
  | none => exact hroot
  | some q =>
    rw [shiftLeft_twelve]
    exact h.getFrom hsame hfinds hn hqn (h.two_le hfinds hplace) (by omega) hplace rfl

/-- `get_poptrie` returns the leaf that the keys lead to. -/
theorem Valid.getPoptrie (h : Valid t place slots) (hfinds : Finds slots (keys a) n l)
    (hn : n ≤ 5) : t.getPoptrie a = some (some l) := by
  obtain ⟨q, hq⟩ := h.exists_end hfinds
  obtain ⟨nd, hnd, hshows⟩ := h.shows _ q hq
  rw [(h.getPoptrie_leafAt (Poptrie.Same.refl _ t) hfinds hn hq).1, Poptrie.leafAt, hnd,
    Option.bind_some, hshows.leafBefore_eq (keys_lt a n) hfinds.2]
  rfl

end Get

section Split

theorem renewPointing_eq (pointing : ℕ → Option NodePtr) (head : ℕ) (vec : BitVec 64)
    (newChild n : ℕ) :
    (renewPointing pointing head vec newChild n).2 = onesBelow vec n ∧
      ∀ i, (renewPointing pointing head vec newChild n).1 i =
        if head ≤ i ∧ i < head + n ∧ vec.getLsbD (i - head) = true then
          some (newChild, onesBelow vec (i - head)) else pointing i := by
  induction n with
  | zero => exact ⟨rfl, fun i => by rw [if_neg (by omega)]; rfl⟩
  | succ n ih =>
    obtain ⟨hcount, hat⟩ := ih
    have hother {i : ℕ} (hi : i ≠ head + n) : i < head + n ↔ i < head + (n + 1) := by omega
    rw [renewPointing, onesBelow]
    cases hbit : vec.getLsbD n with
    | false =>
      refine ⟨hcount, fun i => (hat i).trans ?_⟩
      by_cases hi : i = head + n
      · rw [hi, Nat.add_sub_cancel_left, hbit, if_neg (by omega), if_neg (by simp)]
      · simp only [hother hi]
    | true =>
      refine ⟨congrArg (· + 1) hcount, fun i => ?_⟩
      simp only [if_true]
      by_cases hi : i = head + n
      · rw [hi, Function.update_self, Nat.add_sub_cancel_left, hbit, if_pos (by simp), hcount]
      · rw [Function.update_of_ne hi, hat]
        simp only [hother hi]

variable {s : Poptrie} {place : List ℕ → Option NodePtr} {slots : List ℕ → ℕ → Option Leaf}
  {p : List ℕ} {q : NodePtr} {nd nd' : Internal} {key : ℕ} {x : Leaf} {nodes : List Internal}

/-- The direct pointers after the children of a node on the first level have moved. -/
theorem Opening.direct (h : Opening s place slots p q nd nd' key x nodes) {head : ℕ}
    (hhead : ∀ a, p = [a] → head = a * 64) {i : ℕ} (hi : i < 4096) :
    (if p.length = 1 then
        (renewPointing s.directPointing head nd'.vector s.arrays.length 64).1 else
        s.directPointing) i = openPlace place p nd' [i / 64, i % 64] := by
  have hpair : [i / 64, i % 64] = [i / 64] ++ [i % 64] := rfl
  rw [hpair, openPlace_child]
  have hold := h.valid.direct i hi
  by_cases hone : p.length = 1
  · obtain ⟨a, rfl⟩ := List.length_eq_one_iff.mp hone
    have hhead' := hhead a rfl
    rw [if_pos hone, (renewPointing_eq _ _ _ _ 64).2]
    by_cases ha : i / 64 = a
    · have hsub : i - head = i % 64 := by omega
      rw [if_pos (congrArg (fun b => [b]) ha), hsub, Internal.childAt, h.child]
      cases hbit : nd'.vector.getLsbD (i % 64) with
      | true => rw [if_pos ⟨by omega, by omega, rfl⟩, if_pos rfl, Option.map_some]
      | false =>
        have hbit' : nd.vector.getLsbD (i % 64) = false := by
          rw [h.vector, BitVec.getLsbD_or, Bool.or_eq_false_iff] at hbit
          exact hbit.1
        rw [if_neg (by simp), if_neg (by simp), hold, hpair, ha,
          h.valid.place_eq_childAt h.place h.node, Internal.childAt, hbit', if_neg (by simp)]
    · rw [if_neg (by omega), if_neg (by simpa using ha)]
      exact hold
  · have hne : [i / 64] ≠ p := by
      rintro rfl
      exact hone rfl
    rw [if_neg hone, if_neg hne]
    exact hold

/-- A split opens the slot: its leaf, and the children between which it is, move. -/
theorem Valid.split_opening (h : Valid s place slots) (hp : place p = some q)
    (hnd : s.node q = some nd) (hkey : key < 64) (hx : slots p key = some x) {head : ℕ}
    (hhead : ∀ a, p = [a] → head = a * 64) :
    ∃ (nd₁ nd' : Internal) (removed : Bool) (nodes : List Internal)
      (pointing : ℕ → Option NodePtr),
      nd.release key (nd.idx (key + 1)).1 = some (nd₁, removed) ∧
      nd' = { nd₁ with child := some s.arrays.length } ∧
      nd'.leaf.length + removed.toNat = nd.leaf.length ∧
      Opening s place slots p q nd nd' key x nodes ∧
      (∀ i < 4096, pointing i = openPlace place p nd' [i / 64, i % 64]) ∧
      s.split q key p.length head =
        some (s.move q nd' nd.child (newChildren nd key x nodes) pointing
          ((if removed then s.counterLeaf - 1 else s.counterLeaf) + 1)
          (s.counterInternal + 1)) := by
  obtain ⟨nd₀, hnd₀, hshows⟩ := h.shows p q hp
  obtain rfl : nd = nd₀ := Option.some.inj (hnd.symm.trans hnd₀)
  obtain ⟨nd₁, removed, hrelease, hshows', hvector, hchild, hleaves⟩ := hshows.release hkey hx
  obtain ⟨nodes, hnodes, hlen⟩ := h.children p q nd hp hnd
  have hopening : Opening s place slots p q nd { nd₁ with child := some s.arrays.length } key x
      nodes := ⟨h, hp, hnd, hkey, hx, ⟨hshows'.coded, hshows'.vector⟩, hvector, rfl, hnodes⟩
  have hidx : (nd.idx (key + 1)).2 = onesBelow nd.vector key := by
    rw [hshows.idx_eq hkey, onesBelow, hopening.bit]
    rfl
  have hkeylen : onesBelow nd.vector key ≤ nodes.length := by
    rw [hlen]
    exact onesBelow_mono nd.vector hkey.le
  have hbefore : copy nodes 0 (nd.idx (key + 1)).2 =
      some (nodes.take (onesBelow nd.vector key)) := by
    rw [copy, hidx, if_pos (by omega)]
    rfl
  have hafter : copy nodes (nd.idx (key + 1)).2 (countOneBit nd.vector - (nd.idx (key + 1)).2) =
      some (nodes.drop (onesBelow nd.vector key)) := by
    rw [copy, hidx, ← hlen, if_pos (by omega), List.take_of_length_le]
    rw [List.length_drop]
  refine ⟨nd₁, _, removed, nodes, _, hrelease, rfl, hleaves, hopening,
    fun i hi => hopening.direct hhead hi, ?_⟩
  rw [Poptrie.split, hnd, Option.bind_eq_bind, Option.bind_some]
  simp only [hshows.leafBefore_eq hkey hx, hrelease, hnodes, hbefore, hafter,
    Option.bind_eq_bind, Option.bind_some]
  rfl

/-- A split moves the leaf of the slot into a new child. -/
theorem Valid.split (h : Valid s place slots) (hp : place p = some q) (hnd : s.node q = some nd)
    (hkey : key < 64) (hx : slots p key = some x) {head : ℕ}
    (hhead : ∀ a, p = [a] → head = a * 64) :
    ∃ t place' nd' child, s.split q key p.length head = some t ∧
      Valid t place' (openSlots slots p key x) ∧ t.node q = some nd' ∧ nd'.child = some child ∧
      place' (p ++ [key]) = some (child, (nd.idx (key + 1)).2) := by
  obtain ⟨nd₀, hnd₀, hshows⟩ := h.shows p q hp
  obtain rfl : nd = nd₀ := Option.some.inj (hnd.symm.trans hnd₀)
  obtain ⟨-, nd', removed, nodes, pointing, -, -, -, hopening, hpoint, hsplit⟩ :=
    h.split_opening hp hnd hkey hx hhead
  have hlt := node_array_lt hnd
  have hself := h.child_ne_self hp hnd
  refine ⟨_, _, nd', s.arrays.length, hsplit, hopening.opened _ _ hpoint,
    (move_node_old hlt hself hnd hlt hself).trans (if_pos rfl), hopening.child, ?_⟩
  have hbit : nd'.vector.getLsbD key = true := by
    rw [hopening.vector, BitVec.getLsbD_or, getLsbD_setBit hkey, decide_eq_true rfl, Bool.or_true]
  have hidx : (nd.idx (key + 1)).2 = onesBelow nd.vector key := by
    rw [hshows.idx_eq hkey, onesBelow, hopening.bit]
    rfl
  rw [openPlace_child, if_pos rfl, Internal.childAt, if_pos hbit, hidx, hopening.vector,
    onesBelow_setBit hkey hopening.bit, decide_eq_false (Nat.lt_irrefl key), hopening.child]
  rfl

end Split

section Descend

/-- The number of keys, up to `n`, that the sequences begin with in common. -/
def common (x d : ℕ → ℕ) (n : ℕ) : ℕ := Nat.findGreatest (fun k => ∀ i < k, x i = d i) n

variable {x d : ℕ → ℕ} {n j : ℕ}

theorem common_le (x d : ℕ → ℕ) (n : ℕ) : common x d n ≤ n := Nat.findGreatest_le n

theorem le_common_iff {k : ℕ} (hk : k ≤ n) : k ≤ common x d n ↔ ∀ i < k, x i = d i := by
  constructor
  · intro hle i hi
    have hall : ∀ i < common x d n, x i = d i :=
      Nat.findGreatest_spec (P := fun k => ∀ i < k, x i = d i) (Nat.zero_le n)
        fun i hi => absurd hi (Nat.not_lt_zero i)
    exact hall i (hi.trans_le hle)
  · exact fun h => Nat.le_findGreatest hk h

variable {s : Poptrie} {place : List ℕ → Option NodePtr} {slots : List ℕ → ℕ → Option Leaf}
  {l y : Leaf}

/-- A lookup goes at least as deep as there are nodes on its way. -/
theorem Valid.common_le (h : Valid s place slots) (hd : ∀ i, d i < 64)
    (hplace : place (path d j) ≠ none) (hfinds : Finds slots x n l) : common x d j ≤ n := by
  by_contra hnot
  have hlt := not_le.mp hnot
  have hall := (le_common_iff (Tries.common_le x d j)).mp le_rfl
  have hpath : path x n = path d n := path_eq_iff.mpr fun i hi => hall i (hi.trans hlt)
  have hnone := h.none_of_place hd hplace n (hlt.trans_le (Tries.common_le x d j))
  rw [← hpath, ← hall n hlt, hfinds.2] at hnone
  cases hnone

/-- The lookups that ended in the slot that has been opened end one level deeper. -/
theorem Valid.finds_open (h : Valid s place slots) (hd : ∀ i, d i < 64)
    (hplace : place (path d j) ≠ none) (hy : slots (path d j) (d j) = some y)
    (hfinds : Finds slots x n l) :
    Finds (openSlots slots (path d j) (d j) y) x (max n (common x d (j + 1))) l := by
  have hlen (i : ℕ) (heq : path x i = path d j) : i = j := by
    have hlength := congrArg List.length heq
    rwa [length_path, length_path] at hlength
  by_cases hagree : ∀ i < j + 1, x i = d i
  · have hpath : path x j = path d j := path_eq_iff.mpr fun i hi => hagree i (Nat.lt_succ_of_lt hi)
    have hnone (i : ℕ) (hi : i < j) : slots (path x i) (x i) = none := by
      rw [path_eq_iff.mpr fun k hk => hagree k (by omega), hagree i (by omega)]
      exact h.none_of_place hd hplace i hi
    have hslot : slots (path x j) (x j) = some y := by
      rw [hpath, hagree j (Nat.lt_succ_self j)]
      exact hy
    obtain rfl : n = j := hfinds.level_eq hnone (by rw [hslot]; exact Option.some_ne_none y)
    obtain rfl : y = l := Option.some.inj (hslot.symm.trans hfinds.2)
    have hdeep : max n (common x d (n + 1)) = n + 1 := by
      have hle := (le_common_iff le_rfl).mpr hagree
      have hge := Tries.common_le x d (n + 1)
      omega
    rw [hdeep]
    refine ⟨fun i hi => ?_, ?_⟩
    · rcases Nat.lt_succ_iff_lt_or_eq.mp hi with hlt | rfl
      · rw [openSlots_of_ne fun heq => hlt.ne (hlen i heq)]
        · exact hnone i hlt
        · intro heq
          have hlength := congrArg List.length heq
          rw [← path_succ, length_path, length_path] at hlength
          omega
      · rw [hpath, openSlots_self, hagree i (Nat.lt_succ_self i), Function.update_self]
    · rw [path_succ, hpath, hagree n (Nat.lt_succ_self n), openSlots_new]
  · have hsame (i : ℕ) :
        openSlots slots (path d j) (d j) y (path x i) (x i) = slots (path x i) (x i) := by
      by_cases hp : path x i = path d j
      · obtain rfl := hlen i hp
        have hkey : x i ≠ d i := by
          intro heq
          refine hagree fun k hk => ?_
          rcases Nat.lt_succ_iff_lt_or_eq.mp hk with hlt | rfl
          · exact path_eq_iff.mp hp k hlt
          · exact heq
        rw [hp, openSlots_self, Function.update_of_ne hkey]
      · rw [openSlots_of_ne hp]
        intro heq
        rw [← path_succ] at heq
        have hlength := congrArg List.length heq
        rw [length_path, length_path] at hlength
        subst hlength
        exact hagree (path_eq_iff.mp heq)
    have hlevel : max n (common x d (j + 1)) = n := by
      have hle := Tries.common_le x d (j + 1)
      have hnot : ¬j + 1 ≤ common x d (j + 1) := (le_common_iff le_rfl).not.mpr hagree
      have hfew : common x d (j + 1) ≤ common x d j :=
        (le_common_iff (by omega)).mpr ((le_common_iff (n := j + 1) hle).mp le_rfl)
      have hdepth := h.common_le hd hplace hfinds
      omega
    rw [hlevel]
    exact ⟨fun i hi => (hsame i).trans (hfinds.1 i hi), (hsame n).trans hfinds.2⟩

/-- Where there is a node every lookup along its path is as deep as that. -/
theorem Valid.finds_at (h : Valid s place slots) {dest : UInt32}
    (hplace : place (path (keys dest) j) ≠ none) {f : (ℕ → ℕ) → ℕ × Leaf}
    (hf : ∀ x, (∀ i, x i < 64) → Finds slots x (f x).1 (f x).2) (x : ℕ → ℕ)
    (hx : ∀ i, x i < 64) : Finds slots x (max (f x).1 (common x (keys dest) j)) (f x).2 := by
  rw [Nat.max_eq_left (h.common_le (keys_lt dest) hplace (hf x hx))]
  exact hf x hx

/-- One round of the loop leaves a node at the next level of the path. -/
theorem Valid.round (h : Valid s place slots) {dest : UInt32} {q : NodePtr}
    (hq : place (path (keys dest) j) = some q) {nd : Internal} (hnd : s.node q = some nd)
    {f : (ℕ → ℕ) → ℕ × Leaf} (hf : ∀ x, (∀ i, x i < 64) → Finds slots x (f x).1 (f x).2) :
    ∃ t place' slots' nd' child,
      (if nd.vector.getLsbD (keys dest j) then some s else
        s.split q (keys dest j) j (keys dest 0 * 64)) = some t ∧
      t.node q = some nd' ∧ nd'.child = some child ∧ Valid t place' slots' ∧
      place' (path (keys dest) (j + 1)) = some (child,
        (nd.idx (keys dest j + 1)).2 - (nd.vector.getLsbD (keys dest j)).toNat) ∧
      ∀ x, (∀ i, x i < 64) →
        Finds slots' x (max (f x).1 (common x (keys dest) (j + 1))) (f x).2 := by
  have hkey := keys_lt dest j
  obtain ⟨nd₀, hnd₀, hshows⟩ := h.shows _ q hq
  obtain rfl : nd = nd₀ := Option.some.inj (hnd.symm.trans hnd₀)
  have hplaced : place (path (keys dest) j) ≠ none := by
    rw [hq]
    exact Option.some_ne_none q
  cases hy : slots (path (keys dest) j) (keys dest j) with
  | none =>
    have hbit := hshows.vector_of_none hkey hy
    have hnext := (h.place_isSome_iff hq hkey).mpr hy
    obtain ⟨q', hq'⟩ := Option.ne_none_iff_exists'.mp hnext
    obtain ⟨-, hchild, hidx⟩ := h.child_eq hq hnd hq'
    have hplaced' : place (path (keys dest) (j + 1)) ≠ none := by
      rw [path_succ]
      exact hnext
    refine ⟨s, place, slots, nd, q'.1, if_pos hbit, hnd, hchild, h, ?_, h.finds_at hplaced' hf⟩
    rw [path_succ, hq', hshows.idx_eq hkey, hbit]
    refine congrArg some (Prod.ext rfl ?_)
    show q'.2 = onesBelow nd.vector (keys dest j + 1) - 1
    rw [onesBelow, hbit, hidx]
    rfl
  | some y =>
    have hbit := hshows.vector_of_some hkey hy
    obtain ⟨t, place', nd', child, hsplit, hvalid, hnd', hchild, hnew⟩ :=
      h.split hq hnd hkey hy fun a ha => congrArg (· * 64) (path_eq_singleton ha)
    rw [length_path] at hsplit
    refine ⟨t, place', _, nd', child, ?_, hnd', hchild, hvalid, ?_, fun x hx =>
      h.finds_open (keys_lt dest) hplaced hy (hf x hx)⟩
    · rw [hbit]
      exact hsplit
    · rw [path_succ, hnew, hbit]
      rfl

/-- The loop of `put_poptrie` reaches the node at level `m`, and on the way every lookup along
its path is taken as deep as the nodes go. -/
theorem Valid.descend (h : Valid s place slots) (dest : UInt32) {m : ℕ} (hm : 1 ≤ m)
    {f : (ℕ → ℕ) → ℕ × Leaf} (hf : ∀ x, (∀ i, x i < 64) → Finds slots x (f x).1 (f x).2)
    (fuel : ℕ) (hj : j ≤ (m - 1) / 6) (hfuel : (m - 1) / 6 - j ≤ fuel) {q : NodePtr}
    (hq : place (path (keys dest) j) = some q) {rest : UInt32} (hrest : rest.toNat = m - 6 * j) :
    ∃ t place' slots' q' rest',
      Poptrie.descend (keys dest 0 * 64) fuel s q j (shifted dest j) rest =
        some (t, q', shifted dest ((m - 1) / 6), rest') ∧
      rest'.toNat = m - 6 * ((m - 1) / 6) ∧ Valid t place' slots' ∧
      place' (path (keys dest) ((m - 1) / 6)) = some q' ∧
      ∀ x, (∀ i, x i < 64) →
        Finds slots' x (max (f x).1 (common x (keys dest) ((m - 1) / 6))) (f x).2 := by
  have hsix : (6 : UInt32).toNat = 6 := rfl
  induction fuel generalizing s place slots f j q rest with
  | zero =>
    obtain rfl : j = (m - 1) / 6 := by omega
    have hle : rest ≤ 6 := UInt32.le_iff_toNat_le.mpr (by omega)
    exact ⟨s, place, slots, q, rest, if_pos hle, hrest, h, hq,
      h.finds_at (by rw [hq]; exact Option.some_ne_none q) hf⟩
  | succ fuel ih =>
    rcases Nat.lt_or_eq_of_le hj with hlt | rfl
    · have hlong : ¬rest ≤ 6 := fun hle => by
        have hle' := UInt32.le_iff_toNat_le.mp hle
        omega
      have hsub : (rest - 6).toNat = m - 6 * (j + 1) := by
        rw [UInt32.toNat_sub_of_le _ _ (UInt32.le_iff_toNat_le.mpr (by omega))]
        omega
      obtain ⟨nd, hnd, -⟩ := h.shows _ q hq
      obtain ⟨t, place₁, slots₁, nd', child, ht, hnd', hchild, hvalid, hnext, hf₁⟩ :=
        h.round hq hnd hf
      obtain ⟨u, place₂, slots₂, q₂, rest₂, hu, hrest₂, hvalid₂, hq₂, hf₂⟩ :=
        ih hvalid (f := fun x => (max (f x).1 (common x (keys dest) (j + 1)), (f x).2)) hf₁ hlt
          (by omega) hnext hsub
      refine ⟨u, place₂, slots₂, q₂, rest₂, ?_, hrest₂, hvalid₂, hq₂, fun x hx => ?_⟩
      · have hkeyOf : keyOf (shifted dest j) = keys dest j := rfl
        rw [Poptrie.descend, if_neg hlong, hnd, hkeyOf, Option.bind_eq_bind, Option.bind_some]
        simp only [ht, hnd', hchild, Option.bind_eq_bind, Option.bind_some]
        rw [← shifted_succ]
        exact hu
      · have hmore : max (max (f x).1 (common x (keys dest) (j + 1)))
            (common x (keys dest) ((m - 1) / 6)) =
            max (f x).1 (common x (keys dest) ((m - 1) / 6)) := by
          have hmono : common x (keys dest) (j + 1) ≤ common x (keys dest) ((m - 1) / 6) :=
            (le_common_iff ((Tries.common_le x _ _).trans hlt)).mpr
              ((le_common_iff (Tries.common_le x _ _)).mp le_rfl)
          omega
        exact hmore ▸ hf₂ x hx
    · have hle : rest ≤ 6 := UInt32.le_iff_toNat_le.mpr (by omega)
      refine ⟨s, place, slots, q, rest, ?_, hrest, h, hq,
        h.finds_at (by rw [hq]; exact Option.some_ne_none q) hf⟩
      rw [Poptrie.descend, if_pos hle]

end Descend

section Put

/-- The trie is in memory, and every lookup ends at the level and with the leaf that `f` says. -/
def Looks (s : Poptrie) (f : (ℕ → ℕ) → ℕ × Leaf) : Prop :=
  ∃ place slots, Valid s place slots ∧
    ∀ x, (∀ i, x i < 64) → (f x).1 ≤ 5 ∧ Finds slots x (f x).1 (f x).2

/-- What an insertion does to the lookups. -/
def deepen (f : (ℕ → ℕ) → ℕ × Leaf) (dest mask iface : UInt32) (x : ℕ → ℕ) : ℕ × Leaf :=
  (max (f x).1 (common x (keys (masked dest mask)) (level mask)),
    if Passes (keys (masked dest mask)) (level mask) (range mask) x ∧ (f x).1 ≤ level mask then
      ⟨iface, mask⟩ else (f x).2)

variable {s : Poptrie} {f : (ℕ → ℕ) → ℕ × Leaf} {dest mask iface : UInt32}

theorem Looks.getPoptrie (h : Looks s f) (a : UInt32) :
    s.getPoptrie a = some (some (f (keys a)).2) := by
  obtain ⟨place, slots, hvalid, hfinds⟩ := h
  obtain ⟨hdeep, hf⟩ := hfinds (keys a) (keys_lt a)
  exact hvalid.getPoptrie hf hdeep

/-- The slots of a node at level `m` are filled. -/
theorem Finds.fill {slots : List ℕ → ℕ → Option Leaf} {x d : ℕ → ℕ} {n m : ℕ} {l : Leaf}
    (h : Finds slots x n l) (range : ℕ) (new : Leaf) :
    Finds (Function.update slots (path d m) (fill (slots (path d m)) (d m) range new)) x n
      (if n = m ∧ Passes d m range x then new else l) := by
  have hpath (i : ℕ) (heq : path x i = path d m) : i = m := by
    have hlen := congrArg List.length heq
    rwa [length_path, length_path] at hlen
  refine ⟨fun i hi => ?_, ?_⟩
  · by_cases heq : path x i = path d m
    · rw [heq, Function.update_self, fill_eq_none_iff, ← heq]
      exact h.1 i hi
    · rw [Function.update_of_ne heq]
      exact h.1 i hi
  · by_cases heq : path x n = path d m
    · obtain rfl := hpath n heq
      have hslot := h.2
      rw [heq] at hslot
      rw [heq, Function.update_self]
      split_ifs with hpass
      · exact fill_of_mem hpass.2.2.1 hpass.2.2.2 hslot
      · rw [fill_of_not_mem fun hmem => hpass ⟨rfl, path_eq_iff.mp heq, hmem⟩]
        exact hslot
    · rw [Function.update_of_ne heq, if_neg]
      · exact h.2
      · rintro ⟨rfl, hagree, -⟩
        exact heq (path_eq_iff.mpr hagree)

/-- The first loop of an insertion. -/
theorem Valid.reach {place : List ℕ → Option NodePtr} {slots : List ℕ → ℕ → Option Leaf}
    (h : Valid s place slots) (dest : UInt32) (h1 : 1 ≤ mask.toNat)
    (hf : ∀ x, (∀ i, x i < 64) → Finds slots x (f x).1 (f x).2) :
    ∃ t place' slots' q' rest', s.reach dest mask = some (t, q', shifted dest (level mask), rest') ∧
      rest'.toNat = mask.toNat - 6 * level mask ∧ Valid t place' slots' ∧
      place' (path (keys dest) (level mask)) = some q' ∧
      ∀ x, (∀ i, x i < 64) →
        Finds slots' x (max (f x).1 (common x (keys dest) (level mask))) (f x).2 := by
  have htwelve : (12 : UInt32).toNat = 12 := rfl
  have hhead : keyOf dest <<< 6 = keys dest 0 * 64 := Nat.shiftLeft_eq _ _
  rw [Poptrie.reach, hhead, h.directPointing]
  have hroot := h.descend (j := 0) dest h1 hf mask.toNat (Nat.zero_le _) (by omega) h.root
    (show mask.toNat = mask.toNat - 6 * 0 by omega)
  split_ifs with hlong
  · have hlong' := UInt32.lt_iff_toNat_lt.mp hlong
    cases hplace : place (path (keys dest) 2) with
    | none => exact hroot
    | some q =>
      have hsub : (mask - 12).toNat = mask.toNat - 6 * 2 := by
        rw [UInt32.toNat_sub_of_le _ _ (UInt32.le_iff_toNat_le.mpr (by omega))]
        rfl
      rw [shiftLeft_twelve]
      exact h.descend dest h1 hf mask.toNat (by omega) (by omega) hplace hsub
  · exact hroot

/-- A sequence of keys that goes through a slot of the node at the end of a path. -/
theorem exists_keys_through {d : ℕ → ℕ} (hd : ∀ i, d i < 64) (m : ℕ) {i : ℕ} (hi : i < 64) :
    ∃ x : ℕ → ℕ, (∀ k < m, x k = d k) ∧ x m = i ∧ ∀ k, x k < 64 := by
  refine ⟨Function.update d m i, fun k hk => Function.update_of_ne hk.ne i d,
    Function.update_self m i d, fun k => ?_⟩
  by_cases hk : k = m
  · rw [hk, Function.update_self]
    exact hi
  · rw [Function.update_of_ne hk]
    exact hd k

/-- The number of slots that are filled. -/
theorem shiftLeft_rest {rest : UInt32} (h1 : 1 ≤ mask.toNat)
    (hrest : rest.toNat = mask.toNat - 6 * level mask) :
    1 <<< (6 - rest).toNat = range mask := by
  obtain ⟨-, -, hr6⟩ := rest_bounds h1
  have hsix : (6 : UInt32).toNat = 6 := rfl
  rw [UInt32.toNat_sub_of_le _ _ (UInt32.le_iff_toNat_le.mpr (by omega)), hrest, hsix,
    Nat.one_shiftLeft, range]

/-- An insertion that meets no longer prefix in its slots. -/
theorem Looks.putPoptrie (h : Looks s f) (h1 : 1 ≤ mask.toNat) (h32 : mask.toNat ≤ 32)
    (hmask : ∀ x, (∀ i, x i < 64) →
      Passes (keys (masked dest mask)) (level mask) (range mask) x → (f x).1 ≤ level mask →
        (f x).2.mask ≤ mask) :
    ∃ t, s.putPoptrie dest mask iface = some t ∧ Looks t (deepen f dest mask iface) := by
  obtain ⟨place, slots, hvalid, hfinds⟩ := h
  obtain ⟨t, place', slots', q, rest, ht, hrest, hvalid', hq, hf'⟩ :=
    hvalid.reach (masked dest mask) h1 fun x hx => (hfinds x hx).2
  have hlevel := level_le h32
  obtain ⟨nd, hnd, hshows⟩ := hvalid'.shows _ q hq
  have hrange := shiftLeft_rest h1 hrest
  have hplaced : place' (path (keys (masked dest mask)) (level mask)) ≠ none := by
    rw [hq]
    exact Option.some_ne_none q
  -- A leaf in the range is the one that some sequence of keys leads to.
  have hshort (i : ℕ) (y : Leaf) (hi : keys (masked dest mask) (level mask) ≤ i)
      (hlt : i < keys (masked dest mask) (level mask) + range mask)
      (hy : slots' (path (keys (masked dest mask)) (level mask)) i = some y) : y.mask ≤ mask := by
    have hroom := range_le h1 h32 dest
    obtain ⟨x, hagree, hxi, hx⟩ :=
      exists_keys_through (keys_lt (masked dest mask)) (level mask) (show i < 64 by omega)
    have hpath := path_eq_iff.mpr hagree
    have hslot : slots' (path x (level mask)) (x (level mask)) = some y := by
      rw [hpath, hxi]
      exact hy
    have hend := (hf' x hx).level_eq
      (hvalid'.none_of_place hx (by rw [hpath]; exact hplaced))
      (by rw [hslot]; exact Option.some_ne_none y)
    have hleaf := (hf' x hx).2
    rw [hend, hslot] at hleaf
    rw [Option.some.inj hleaf]
    exact hmask x hx ⟨hagree, by omega, by omega⟩ (by omega)
  obtain ⟨e, he, hedit⟩ := hshows.edit (range_le h1 h32 dest) (Leaf.mk iface mask) hshort
  have hvalid'' :=
    hvalid'.edit hq hnd { nd with leafvec := e.leafvec, leaf := e.cache } rfl rfl hedit
  have hput : s.putPoptrie dest mask iface = some
      { t.setNode q { nd with leafvec := e.leafvec, leaf := e.cache } with
        counterLeaf := t.counterLeaf + (UInt32.ofNat e.cache.length - UInt32.ofNat e.idx₀) } := by
    have hkey : keyOf (shifted (masked dest mask) (level mask)) =
        keys (masked dest mask) (level mask) := rfl
    rw [Poptrie.putPoptrie, ht, Option.bind_eq_bind, Option.bind_some]
    simp only [hnd, hkey, hrange, he, Option.bind_eq_bind, Option.bind_some]
    rfl
  refine ⟨_, hput, place', _, ⟨hvalid''.root, hvalid''.step, hvalid''.shows, hvalid''.children,
    hvalid''.parent, hvalid''.above, hvalid''.apart, hvalid''.direct⟩, fun x hx => ⟨?_, ?_⟩⟩
  · have hdeep := (hfinds x hx).1
    have hle := Tries.common_le x (keys (masked dest mask)) (level mask)
    show max (f x).1 _ ≤ 5
    omega
  · have hfill := (hf' x hx).fill (d := keys (masked dest mask)) (m := level mask) (range mask)
      ⟨iface, mask⟩
    have hiff : (max (f x).1 (common x (keys (masked dest mask)) (level mask)) = level mask ∧
        Passes (keys (masked dest mask)) (level mask) (range mask) x) ↔
        (Passes (keys (masked dest mask)) (level mask) (range mask) x ∧ (f x).1 ≤ level mask) := by
      have hle := Tries.common_le x (keys (masked dest mask)) (level mask)
      refine ⟨fun h => ⟨h.2, by omega⟩, fun h => ⟨?_, h.1⟩⟩
      have hall := (le_common_iff le_rfl).mpr h.1.1
      omega
    simp only [hiff] at hfill
    exact hfill

end Put

end NetworkLab.Tries
