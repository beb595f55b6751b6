import NetworkLab.PoptrieNodes
import NetworkLab.PoptrieStray

/-!
# The depth of the trie

A prefix ends on the sixth level at the latest, so no run of insertions opens a slot there, and
every lookup meets a leaf before it has used the bits of its address.
-/
namespace NetworkLab.Tries

section Pointers

/-- The pointer that a lookup returns, as a node and the index in its leaves, and the values of
`mask` that its rounds begin with. -/
structure Trace where
  result : Option (NodePtr × ℤ)
  masks : List UInt32

/-- The loop of `get_poptrie`, which returns a pointer and does not read the leaf. -/
def Poptrie.traceFrom (s : Poptrie) : ℕ → NodePtr → UInt32 → UInt32 → Option Trace
  | 0, _, _, _ => none
  | fuel + 1, current, mask, dest =>
    if mask = 0 then some ⟨none, []⟩
    else do
      let nd ← s.node current
      let key := keyOf dest
      let idx := nd.idx (key + 1)
      if nd.vector.getLsbD key then
        let child ← nd.child
        let rest ← traceFrom s fuel (child, idx.2 - 1) (mask - 6) (dest <<< 6)
        some { rest with masks := mask :: rest.masks }
      else some ⟨some (current, (idx.1 : ℤ) - 1), [mask]⟩

def Poptrie.trace (s : Poptrie) (dest : UInt32) : Option Trace :=
  match s.directPointing (dest >>> 20).toNat with
  | none => s.traceFrom (2 ^ 32) root 32 dest
  | some current => s.traceFrom (2 ^ 32) current 20 (dest <<< 12)

/-- The leaf that the pointer leads to. -/
def Poptrie.readLeaf (s : Poptrie) (r : Trace) : Option (Option Leaf) :=
  match r.result with
  | none => some none
  | some (q, i) => do
    let nd ← s.node q
    let leaf ← if i < 0 then none else nd.leaf[i.toNat]?
    some (some leaf)

theorem getFrom_eq_trace (s : Poptrie) (fuel : ℕ) (q : NodePtr) (mask dest : UInt32) :
    s.getFrom fuel q mask dest = (s.traceFrom fuel q mask dest).bind s.readLeaf := by
  induction fuel generalizing q mask dest with
  | zero => rfl
  | succ fuel ih =>
    rw [Poptrie.getFrom, Poptrie.traceFrom]
    split_ifs with hmask
    · rfl
    cases hnd : s.node q with
    | none => rfl
    | some nd =>
      simp only [Option.bind_eq_bind, Option.bind_some]
      split_ifs with hbit
      · cases nd.child with
        | none => rfl
        | some child =>
          simp only [Option.bind_some, ih, Option.bind_assoc]
          rfl
      · simp only [Option.bind_some, Poptrie.readLeaf, hnd, Option.bind_eq_bind]
        rw [Internal.leafBefore]
        by_cases hzero : (nd.idx (keyOf dest + 1)).1 = 0
        · rw [hzero]
          rfl
        · rw [if_neg hzero, if_neg (by omega)]
          congr 2
          omega

/-- `get_poptrie` reads the leaf behind this pointer. -/
theorem getPoptrie_eq_trace (s : Poptrie) (dest : UInt32) :
    s.getPoptrie dest = (s.trace dest).bind s.readLeaf := by
  rw [Poptrie.getPoptrie, Poptrie.trace]
  cases s.directPointing (dest >>> 20).toNat with
  | none => exact getFrom_eq_trace ..
  | some current => exact getFrom_eq_trace ..

/-- The pointer is one to a leaf that the bits of the node stand for. -/
def Poptrie.LeafPointer (s : Poptrie) (q : NodePtr) (i : ℤ) : Prop :=
  ∃ nd, s.node q = some nd ∧ 0 ≤ i ∧ i < countOneBit nd.leafvec

/-- The nodes on a level: those that so many pointers lead to from the root. -/
inductive Poptrie.At (s : Poptrie) : ℕ → NodePtr → Prop
  | root : s.At 0 root
  | child {n : ℕ} {q : NodePtr} {nd : Internal} {b i : ℕ} {nodes : List Internal} : s.At n q →
    s.node q = some nd → nd.child = some b → s.children (some b) = some nodes →
    i < nodes.length → s.At (n + 1) (b, i)

/-- Each round begins with six bits less, and none of them with a value that has wrapped. -/
def Counts (start : ℕ) (masks : List UInt32) : Prop :=
  ∀ i m, masks[i]? = some m → m.toNat + 6 * i = start

theorem Counts.cons {start : ℕ} {mask : UInt32} {masks : List UInt32}
    (hmask : mask.toNat = start + 6) (h : Counts start masks) :
    Counts (start + 6) (mask :: masks) := by
  intro i m hm
  cases i with
  | zero =>
    obtain rfl := Option.some.inj hm
    omega
  | succ i =>
    have hi := h i m hm
    omega

end Pointers

section Leaves

variable {nd : Internal} {key n : ℕ}

theorem Internal.Shaped.idx_fst (h : nd.Shaped) (n : ℕ) :
    (nd.idx n).1 = onesBelow nd.leafvec n := by
  induction n with
  | zero => rfl
  | succ n ih =>
    simp only [Internal.idx, onesBelow]
    cases hbit : nd.vector.getLsbD n with
    | false => exact congrArg (· + _) ih
    | true =>
      have hleaf : nd.leafvec.getLsbD n = false := by
        by_contra hmark
        have hnone := h.disjoint n (Bool.eq_true_of_not_eq_false hmark)
        rw [hbit] at hnone
        cases hnone
      rw [hleaf]
      exact ih

/-- A slot without a child has a leaf at it or before it. -/
theorem Internal.Shaped.idx_pos (h : nd.Shaped) (hkey : key < 64)
    (hbit : nd.vector.getLsbD key = false) : 0 < (nd.idx (key + 1)).1 := by
  have hexists : ∃ i, i ≤ key ∧ nd.vector.getLsbD i = false := ⟨key, le_rfl, hbit⟩
  obtain ⟨hi, hnone⟩ := Nat.find_spec hexists
  have hbefore (j : ℕ) (hj : j < Nat.find hexists) : nd.vector.getLsbD j = true := by
    by_contra hnot
    exact Nat.find_min hexists hj ⟨hj.le.trans hi, Bool.eq_false_of_not_eq_true hnot⟩
  have hmark := h.first _ (hi.trans_lt hkey) hnone hbefore
  rw [h.idx_fst]
  exact (Nat.zero_le _).trans_lt (onesBelow_lt (Nat.lt_succ_of_le hi) hmark)

/-- The pointer that a lookup computes. -/
theorem Internal.Shaped.leafPointer (h : nd.Shaped) {s : Poptrie} {q : NodePtr}
    (hnd : s.node q = some nd) (hkey : key < 64) (hbit : nd.vector.getLsbD key = false) :
    s.LeafPointer q (((nd.idx (key + 1)).1 : ℤ) - 1) := by
  have hpos := h.idx_pos hkey hbit
  have hle : (nd.idx (key + 1)).1 ≤ countOneBit nd.leafvec := by
    rw [h.idx_fst]
    exact onesBelow_mono nd.leafvec hkey
  exact ⟨nd, hnd, by omega, by omega⟩

end Leaves

section Depth

variable {s t : Poptrie} {place : List ℕ → Option NodePtr} {slots : List ℕ → ℕ → Option Leaf}
  {p : List ℕ} {q qn : NodePtr} {nd : Internal} {f : (ℕ → ℕ) → ℕ × Leaf} {a : UInt32} {n : ℕ}
  {l : Leaf}

theorem Poptrie.Same.at (h : s.Same Internal.links t) (hq : s.At n q) : t.At n q := by
  induction hq with
  | root => exact .root
  | child _ hnd hchild hnodes hi ih =>
    obtain ⟨nd', hnd', -, hchild'⟩ := h.exists_linked hnd
    obtain ⟨nodes', hnodes', hmap⟩ := h.exists_children hnodes
    have hlen := congrArg List.length hmap
    rw [List.length_map, List.length_map] at hlen
    exact .child ih hnd' (hchild'.trans hchild) hnodes' (hlen ▸ hi)

theorem Valid.exists_place_at (h : Valid s place slots) (hq : s.At n q) :
    ∃ p, p.length = n ∧ place p = some q := by
  induction hq with
  | root => exact ⟨[], rfl, h.root⟩
  | child _ hnd hchild hnodes hi ih =>
    obtain ⟨p, hlen, hp⟩ := ih
    obtain ⟨k, hk⟩ := h.exists_slot hp hnd hchild hnodes hi
    exact ⟨p ++ [k], by rw [List.length_append, hlen, List.length_singleton], hk⟩

/-- A path of slots is as long as lookups are deep. -/
theorem Valid.length_le (h : Valid s place slots)
    (hfinds : ∀ x, (∀ i, x i < 64) → (f x).1 ≤ 5 ∧ Finds slots x (f x).1 (f x).2)
    (hp : place p ≠ none) : p.length ≤ 5 := by
  obtain ⟨x, hx, hpath⟩ := h.exists_keys hp
  obtain ⟨hdeep, hend⟩ := hfinds _ hx
  by_contra hlong
  have hnone := h.none_of_place hx (by rw [hpath]; exact hp) _ (hdeep.trans_lt (not_le.mp hlong))
  rw [hend.2] at hnone
  cases hnone

/-- On the sixth level every slot has a leaf. -/
theorem Valid.childless (h : Valid s place slots)
    (hfinds : ∀ x, (∀ i, x i < 64) → (f x).1 ≤ 5 ∧ Finds slots x (f x).1 (f x).2)
    (hp : place p = some q) (hnd : s.node q = some nd) (hlen : 5 ≤ p.length) :
    nd.child = none ∧ nd.vector = 0 := by
  have hend (k : ℕ) : place (p ++ [k]) = none := by
    by_contra hne
    have hle := h.length_le hfinds hne
    rw [List.length_append, List.length_singleton] at hle
    omega
  constructor
  · by_contra hne
    obtain ⟨k, hk⟩ := h.parent p q nd hp hnd hne
    exact hk (hend k)
  · obtain ⟨nd', hnd', hshows⟩ := h.shows p q hp
    obtain rfl := Option.some.inj (hnd.symm.trans hnd')
    refine BitVec.eq_of_getLsbD_eq fun i hi => ?_
    have hleaf := (h.place_isSome_iff hp hi).not.mp (not_not.mpr (hend i))
    have hzero : (0 : BitVec 64).getLsbD i = false := BitVec.getLsbD_zero
    rw [hshows.vector i hi, hzero]
    exact Option.isNone_eq_false_iff.mpr (Option.isSome_iff_ne_none.mpr hleaf)

/-- The rounds of `get_poptrie` from level `j` on: one on each level up to that of the leaf. -/
theorem Valid.traceFrom (h : Valid t place slots) (hsame : s.Same Internal.links t)
    (hshaped : s.Shaped) (hfinds : Finds slots (keys a) n l) (hn : n ≤ 5)
    (hqn : place (path (keys a) n) = some qn) (fuel : ℕ) {j : ℕ} (hj : j ≤ n)
    (hfuel : n - j < fuel) (hq : place (path (keys a) j) = some q)
    (mask : UInt32) (hmask : mask.toNat = 32 - 6 * j) :
    ∃ i masks, s.traceFrom fuel q mask (shifted a j) = some ⟨some (qn, i), masks⟩ ∧
      s.LeafPointer qn i ∧ masks.length = n - j + 1 ∧ Counts (32 - 6 * j) masks := by
  induction fuel generalizing j q mask with
  | zero => omega
  | succ fuel ih =>
    obtain ⟨nd, hnd, hreads⟩ := h.reads hsame hfinds hj hq
    have hpos := mask_ne_zero hmask (by omega)
    have hkeyOf : keyOf (shifted a j) = keys a j := rfl
    rw [Poptrie.traceFrom, if_neg hpos, hnd, hkeyOf, Option.bind_eq_bind, Option.bind_some]
    rcases hreads with ⟨hlt, hbit, head, hchild, hnext⟩ | ⟨rfl, hbit⟩
    · obtain ⟨i, masks, hrest, hleaf, hlen, hcounts⟩ :=
        ih hlt (by omega) hnext (mask - 6) (toNat_mask_sub hmask (by omega))
      refine ⟨i, mask :: masks, ?_, hleaf, ?_, ?_⟩
      · simp only [hbit, if_true, hchild]
        rw [Option.bind_eq_bind, Option.bind_some, ← shifted_succ, hrest]
        rfl
      · rw [List.length_cons, hlen]
        omega
      · have hstart : 32 - 6 * j = 32 - 6 * (j + 1) + 6 := by omega
        rw [hstart]
        exact hcounts.cons (hmask.trans hstart)
    · obtain rfl : q = qn := Option.some.inj (hq.symm.trans hqn)
      refine ⟨((nd.idx (keys a j + 1)).1 : ℤ) - 1, [mask], ?_,
        (hshaped.node hnd).leafPointer hnd (keys_lt a j) hbit, by rw [Nat.sub_self]; rfl,
        fun i m hm => ?_⟩
      · simp only [hbit, Bool.false_eq_true, if_false]
      · cases i with
        | zero =>
          obtain rfl := Option.some.inj hm
          omega
        | succ i => cases hm

end Depth

section Termination

variable {s t : Poptrie} {place : List ℕ → Option NodePtr} {slots : List ℕ → ℕ → Option Leaf}
  {a : UInt32} {n : ℕ} {l : Leaf}

/-- `get_poptrie` returns a pointer from inside of its loop, in the sixth round at the latest or,
from a direct pointer, in the fourth, and begins no round with a value of `mask` that has
wrapped. -/
def Poptrie.Terminates (s : Poptrie) (a : UInt32) : Prop :=
  ∃ q i masks, s.trace a = some ⟨some (q, i), masks⟩ ∧ s.LeafPointer q i ∧
    (s.directPointing (a >>> 20).toNat = none → masks.length ≤ 6 ∧ Counts 32 masks) ∧
    (s.directPointing (a >>> 20).toNat ≠ none → masks.length ≤ 4 ∧ Counts 20 masks)

theorem Valid.terminates (h : Valid t place slots) (hsame : s.Same Internal.links t)
    (hshaped : s.Shaped) (hfinds : Finds slots (keys a) n l) (hn : n ≤ 5) : s.Terminates a := by
  obtain ⟨qn, hqn⟩ := h.exists_end hfinds
  rw [Poptrie.Terminates, Poptrie.trace, hsame.pointing, h.directPointing]
  cases hplace : place (path (keys a) 2) with
  | none =>
    obtain ⟨i, masks, htrace, hleaf, hlen, hcounts⟩ :=
      h.traceFrom hsame hshaped hfinds hn hqn (2 ^ 32) (Nat.zero_le n) (by omega) h.root 32 rfl
    exact ⟨qn, i, masks, htrace, hleaf, fun _ => ⟨by omega, hcounts⟩, fun hne => absurd rfl hne⟩
  | some q =>
    have hlevel := h.two_le hfinds hplace
    obtain ⟨i, masks, htrace, hleaf, hlen, hcounts⟩ :=
      h.traceFrom hsame hshaped hfinds hn hqn (2 ^ 32) hlevel (by omega) hplace 20 rfl
    rw [← shiftLeft_twelve] at htrace
    exact ⟨qn, i, masks, htrace, hleaf, nofun, fun _ => ⟨by omega, hcounts⟩⟩

/-- However the insertions are ordered and whatever leaves they read, no node on the sixth level
or below has a child, and every lookup terminates with a leaf. -/
theorem lookups_terminate (ps : List Insertion) (hps : ∀ p ∈ ps, 1 ≤ p.mask ∧ p.mask ≤ 32) :
    (∀ s, initRootPoptrie.putAll ps = some s → StrayRun ps s) ∧ (∃ s, StrayRun ps s) ∧
    ∀ s, StrayRun ps s →
      (∀ n q nd, 5 ≤ n → s.At n q → s.node q = some nd → nd.child = none ∧ nd.vector = 0) ∧
      ∀ a, s.Terminates a := by
  refine ⟨fun s => StrayRun.of_putAll, exists_strayRun hps, fun s hs => ?_⟩
  obtain ⟨hshaped, f, place, slots, hvalid, hfinds⟩ := hs.looks hps
  have hlinks := (same_defaultLeaves s).links
  refine ⟨fun n q nd hn hq hnd => ?_, fun a => ?_⟩
  · obtain ⟨p, rfl, hp⟩ := hvalid.exists_place_at (hlinks.at hq)
    obtain ⟨nd', hnd', hvector, hchild⟩ := hlinks.exists_linked hnd
    rw [← hvector, ← hchild]
    exact hvalid.childless hfinds hp hnd' hn
  · obtain ⟨hdeep, hfound⟩ := hfinds (keys a) (keys_lt a)
    exact hvalid.terminates hlinks hshaped hfound hdeep

theorem lookups_terminate_longest :
    (∃ s, StrayRun [⟨0x0a010101, 32, 1⟩, ⟨0x0a010100, 24, 2⟩] s) ∧
      ∀ s, StrayRun [⟨0x0a010101, 32, 1⟩, ⟨0x0a010100, 24, 2⟩] s →
        (∀ n q nd, 5 ≤ n → s.At n q → s.node q = some nd → nd.child = none ∧ nd.vector = 0) ∧
        ∀ a, s.Terminates a :=
  (lookups_terminate [⟨0x0a010101, 32, 1⟩, ⟨0x0a010100, 24, 2⟩] (by decide)).2

end Termination

end NetworkLab.Tries
