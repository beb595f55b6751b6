import NetworkLab.PoptrieNodes
import NetworkLab.PoptrieRefinement
import Mathlib.Algebra.BigOperators.Finprod
import Mathlib.Data.Set.Card

/-!
# The space that the trie takes

An insertion adjusts the two counters by what it adds and takes away. They count modulo `2 ^ 32`,
and the space in bytes is returned as 32 bits.
-/
namespace NetworkLab.Tries

section Sizes

namespace Poptrie

variable (s : Poptrie)

/-- `calc_space_poptrie`; a leaf takes 8 bytes and a node 32. -/
def calcSpacePoptrie : UInt32 :=
  UInt32.ofNat (s.counterLeaf.toNat * 8 + s.counterInternal.toNat * 32)

/-- The number of leaves in the array of a node. -/
def leavesOf (q : NodePtr) : ℕ := (s.node q).elim 0 fun nd => nd.leaf.length

noncomputable def countInternal : ℕ := Set.ncard {q | s.Reaches q}

noncomputable def countLeaf : ℕ := ∑ᶠ q ∈ {q | s.Reaches q}, s.leavesOf q

/-- The bytes of the nodes that are reached from the root and of their leaves. -/
noncomputable def space : ℕ := s.countLeaf * 8 + s.countInternal * 32

/-- The counters are those of the nodes in the trie, and the space is what these take. -/
structure Accounts : Prop where
  finite : {q | s.Reaches q}.Finite
  internal : s.counterInternal.toNat = s.countInternal
  leaf : s.counterLeaf.toNat = s.countLeaf
  space : s.calcSpacePoptrie.toNat = s.space

/-- The node at the end of a path of slots. -/
def nodeAt (p : List ℕ) : Option NodePtr := p.foldlM (fun q k => s.childPtr q k) root

def leavesAt (p : List ℕ) : ℕ := (s.nodeAt p).elim 0 s.leavesOf

/-- The counters are those of the nodes at the ends of these paths, modulo `2 ^ 32`. -/
structure Counted (F : Finset (List ℕ)) : Prop where
  mem_iff : ∀ p, p ∈ F ↔ s.nodeAt p ≠ none
  internal : s.counterInternal = UInt32.ofNat F.card
  leaf : s.counterLeaf = UInt32.ofNat (∑ p ∈ F, s.leavesAt p)

end Poptrie

variable {s t : Poptrie} {place : List ℕ → Option NodePtr} {slots : List ℕ → ℕ → Option Leaf}
  {p : List ℕ} {q : NodePtr} {nd nd' : Internal} {F : Finset (List ℕ)}

theorem nodeAt_concat (s : Poptrie) (p : List ℕ) (k : ℕ) :
    s.nodeAt (p ++ [k]) = (s.nodeAt p).bind fun q => s.childPtr q k := by
  rw [Poptrie.nodeAt, List.foldlM_append, Poptrie.nodeAt]
  simp only [List.foldlM_cons, List.foldlM_nil, bind_pure]
  rfl

/-- The places of a trie in memory are given by the links. -/
theorem Valid.place_eq (h : Valid s place slots) (p : List ℕ) : place p = s.nodeAt p := by
  induction p using List.reverseRecOn with
  | nil => exact h.root
  | append_singleton p k ih => rw [h.step, nodeAt_concat, ih]

theorem Valid.leavesAt_eq (h : Valid s place slots) (hp : place p = some q)
    (hnd : s.node q = some nd) : s.leavesAt p = nd.leaf.length := by
  rw [Poptrie.leavesAt, ← h.place_eq, hp, Option.elim_some, Poptrie.leavesOf, hnd, Option.elim_some]

/-- A node with a path of slots is one that pointers lead to. -/
theorem Valid.reaches (h : Valid s place slots) (hp : place p = some q) : s.Reaches q := by
  induction p using List.reverseRecOn generalizing q with
  | nil =>
    obtain rfl := Option.some.inj (h.root.symm.trans hp)
    exact .root
  | append_singleton p k ih =>
    have hstep := h.step p k
    rw [hp] at hstep
    obtain ⟨q', hq', -⟩ := Option.bind_eq_some_iff.mp hstep.symm
    obtain ⟨nd, hnd, -⟩ := h.shows p q' hq'
    obtain ⟨hbit, hchild, hidx⟩ := h.child_eq hq' hnd hp
    obtain ⟨nodes, hnodes, hlen⟩ := h.children p q' nd hq' hnd
    have hlt : q.2 < nodes.length := by
      rw [hlen, hidx]
      exact onesBelow_lt (BitVec.lt_of_getLsbD hbit) hbit
    exact .child (ih hq') hnd hchild (hchild ▸ hnodes) hlt

/-- The nodes in the trie are those at the ends of the paths. -/
theorem Valid.counted_reaches (h : Valid s place slots) (hc : s.Counted F) :
    {q | s.Reaches q}.Finite ∧ s.countInternal = F.card ∧ s.countLeaf = ∑ p ∈ F, s.leavesAt p := by
  have hend {p : List ℕ} (hp : p ∈ F) : ∃ q, place p = some q :=
    Option.ne_none_iff_exists'.mp (h.place_eq p ▸ (hc.mem_iff p).mp hp)
  have hget {p : List ℕ} {q : NodePtr} (hq : place p = some q) :
      (s.nodeAt p).getD Tries.root = q := by
    rw [← h.place_eq, hq, Option.getD_some]
  have hinj : Set.InjOn (fun p => (s.nodeAt p).getD Tries.root) F := by
    intro p hp p' hp' heq
    obtain ⟨q, hq⟩ := hend hp
    obtain ⟨q', hq'⟩ := hend hp'
    have hsame : q = q' := (hget hq).symm.trans (heq.trans (hget hq'))
    exact h.place_inj hq (hsame ▸ hq')
  have hset : {q | s.Reaches q} = F.image fun p => (s.nodeAt p).getD Tries.root := by
    ext q
    rw [Set.mem_ofPred_eq, Finset.mem_coe, Finset.mem_image]
    constructor
    · intro hq
      obtain ⟨p, hp⟩ := h.exists_place hq
      refine ⟨p, (hc.mem_iff p).mpr ?_, hget hp⟩
      rw [← h.place_eq, hp]
      exact Option.some_ne_none q
    · rintro ⟨p, hp, rfl⟩
      obtain ⟨q, hq⟩ := hend hp
      rw [hget hq]
      exact h.reaches hq
  refine ⟨hset ▸ Finset.finite_toSet _, ?_, ?_⟩
  · rw [Poptrie.countInternal, hset, Set.ncard_coe_finset, Finset.card_image_of_injOn hinj]
  · rw [Poptrie.countLeaf, hset, finsum_mem_coe_finset, Finset.sum_image hinj]
    refine Finset.sum_congr rfl fun p hp => ?_
    obtain ⟨q, hq⟩ := hend hp
    rw [hget hq, Poptrie.leavesAt, ← h.place_eq, hq, Option.elim_some]

end Sizes

section Steps

variable {s t : Poptrie} {place : List ℕ → Option NodePtr} {slots : List ℕ → ℕ → Option Leaf}
  {p : List ℕ} {q : NodePtr} {nd nd' : Internal} {key : ℕ} {x : Leaf} {F : Finset (List ℕ)}

theorem nodeAt_init (p : List ℕ) :
    initRootPoptrie.nodeAt p = if p = [] then some root else none := by
  induction p using List.reverseRecOn with
  | nil => rfl
  | append_singleton p k ih =>
    rw [nodeAt_concat, ih, if_neg (List.append_ne_nil_of_right_ne_nil p (List.cons_ne_nil k []))]
    split_ifs
    · have hnode : initRootPoptrie.node root = some ⟨1, 0, none, [⟨0, 0⟩]⟩ := rfl
      have hzero : (0#64).getLsbD k = false := BitVec.getLsbD_zero
      rw [Option.bind_some, Poptrie.childPtr, hnode, Option.bind_some, Internal.childAt,
        if_neg (hzero ▸ Bool.false_ne_true)]
    · rfl

theorem counted_init : initRootPoptrie.Counted {[]} := by
  refine ⟨fun p => ?_, rfl, rfl⟩
  rw [Finset.mem_singleton, nodeAt_init]
  split_ifs with hp
  · exact iff_of_true hp (Option.some_ne_none root)
  · exact iff_of_false hp fun hne => hne rfl

/-- Only the leaves at one path have changed. -/
theorem sum_leavesAt (hp : p ∈ F) (h : ∀ r ∈ F, r ≠ p → t.leavesAt r = s.leavesAt r) :
    ∑ r ∈ F, t.leavesAt r + s.leavesAt p = ∑ r ∈ F, s.leavesAt r + t.leavesAt p := by
  have hothers : ∑ r ∈ F.erase p, t.leavesAt r = ∑ r ∈ F.erase p, s.leavesAt r := by
    refine Finset.sum_congr rfl fun r hr => ?_
    exact h r (Finset.mem_of_mem_erase hr) (Finset.ne_of_mem_erase hr)
  rw [← Finset.add_sum_erase F t.leavesAt hp, ← Finset.add_sum_erase F s.leavesAt hp, hothers]
  omega

theorem Poptrie.Counted.mem (hc : s.Counted F) (hp : s.nodeAt p = some q) : p ∈ F := by
  rw [hc.mem_iff, hp]
  exact Option.some_ne_none q

/-- The leaf counter after the leaves at one path have changed. -/
theorem ofNat_sum {a b m n : ℕ} (h : m + a = n + b) {c c' : UInt32} (hc : c = UInt32.ofNat n)
    (hc' : c' + UInt32.ofNat a = c + UInt32.ofNat b) : c' = UInt32.ofNat m := by
  have hsum := congrArg UInt32.ofNat h
  rw [UInt32.ofNat_add, UInt32.ofNat_add, ← hc, ← hc'] at hsum
  grind

variable {nodes : List Internal} {pointing : ℕ → Option NodePtr} {r : List ℕ}

theorem Opening.place_new (h : Opening s place slots p q nd nd' key x nodes) :
    openPlace place p nd' (p ++ [key]) ≠ none := by
  have hbit : nd'.vector.getLsbD key = true := by
    rw [h.vector, BitVec.getLsbD_or, getLsbD_setBit h.key_lt, decide_eq_true rfl, Bool.or_true]
  rw [openPlace_child, if_pos rfl, Internal.childAt, if_pos hbit, h.child]
  exact Option.some_ne_none _

/-- The new child has one leaf, and the other nodes have as many as before. -/
theorem Opening.leavesAt_eq (h : Opening s place slots p q nd nd' key x nodes)
    (hpoint : ∀ i < 4096, pointing i = openPlace place p nd' [i / 64, i % 64])
    (leaves internals : UInt32) (hr : openPlace place p nd' r ≠ none) :
    (s.move q nd' nd.child (newChildren nd key x nodes) pointing leaves internals).leavesAt r =
      if r = p then nd'.leaf.length else if r = p ++ [key] then 1 else s.leavesAt r := by
  have hvalid := h.opened leaves internals hpoint
  obtain ⟨q', hq'⟩ := Option.ne_none_iff_exists'.mp hr
  rcases h.node_cases pointing leaves internals hq' with
    ⟨hrp, -, hnode⟩ | ⟨hnew, hnode⟩ | ⟨hrp, hnew, q₀, hq₀, hnode⟩
  · rw [if_pos hrp]
    exact hvalid.leavesAt_eq hq' hnode
  · have hrp : r ≠ p := hnew ▸ (append_singleton_ne_self p key).symm
    rw [if_neg hrp, if_pos hnew]
    exact hvalid.leavesAt_eq hq' hnode
  · obtain ⟨nd₀, hnd₀, -⟩ := h.valid.shows r q₀ hq₀
    rw [if_neg hrp, if_neg hnew, h.valid.leavesAt_eq hq₀ hnd₀]
    exact hvalid.leavesAt_eq hq' (hnode.trans hnd₀)

/-- A new node with one leaf, and a node that may have lost one. -/
theorem Opening.counted (h : Opening s place slots p q nd nd' key x nodes)
    (hpoint : ∀ i < 4096, pointing i = openPlace place p nd' [i / 64, i % 64])
    (hc : s.Counted F) {leaves : UInt32} (hleaves : leaves + UInt32.ofNat nd.leaf.length =
      s.counterLeaf + UInt32.ofNat (nd'.leaf.length + 1)) :
    (s.move q nd' nd.child (newChildren nd key x nodes) pointing leaves
      (s.counterInternal + 1)).Counted (insert (p ++ [key]) F) := by
  have hvalid := h.opened leaves (s.counterInternal + 1) hpoint
  have hat := fun r => h.leavesAt_eq (r := r) hpoint leaves (s.counterInternal + 1)
  set t := s.move q nd' nd.child (newChildren nd key x nodes) pointing leaves
    (s.counterInternal + 1) with ht
  have hnew : p ++ [key] ∉ F := by
    rw [hc.mem_iff, ← h.valid.place_eq, h.no_child]
    exact fun hne => hne rfl
  have hmem : p ∈ F := hc.mem (h.valid.place_eq p ▸ h.place)
  have hplaced (r : List ℕ) : r ∈ insert (p ++ [key]) F ↔ openPlace place p nd' r ≠ none := by
    rw [Finset.mem_insert]
    by_cases hr : r = p ++ [key]
    · exact iff_of_true (.inl hr) (hr ▸ h.place_new)
    · rw [h.place_iff hr, h.valid.place_eq, ← hc.mem_iff]
      exact or_iff_right hr
  have hself : t.leavesAt p = nd'.leaf.length := by
    rw [hat p ((hplaced p).mp (Finset.mem_insert_of_mem hmem)), if_pos rfl]
  have hone : t.leavesAt (p ++ [key]) = 1 := by
    rw [hat _ h.place_new, if_neg (append_singleton_ne_self p key).symm, if_pos rfl]
  have hsum : ∑ r ∈ F, t.leavesAt r + s.leavesAt p = ∑ r ∈ F, s.leavesAt r + t.leavesAt p :=
    sum_leavesAt hmem fun r hr hrp => by
      rw [hat r ((hplaced r).mp (Finset.mem_insert_of_mem hr)), if_neg hrp,
        if_neg (ne_of_mem_of_not_mem hr hnew)]
  rw [hself, h.valid.leavesAt_eq h.place h.node] at hsum
  refine ⟨fun r => ?_, ?_, ?_⟩
  · rw [hplaced, hvalid.place_eq]
  · rw [Finset.card_insert_of_notMem hnew, UInt32.ofNat_add, ← hc.internal]
    rfl
  · refine ofNat_sum ?_ hc.leaf hleaves
    rw [Finset.sum_insert hnew, hone]
    omega

/-- A split adds a node with one leaf, and takes a leaf away if only the slot had it. -/
theorem Valid.split_counted (h : Valid s place slots) (hp : place p = some q)
    (hnd : s.node q = some nd) (hkey : key < 64) (hx : slots p key = some x) {head : ℕ}
    (hhead : ∀ a, p = [a] → head = a * 64) (hc : s.Counted F)
    (ht : s.split q key p.length head = some t) : t.Counted (insert (p ++ [key]) F) := by
  obtain ⟨-, nd', removed, nodes, pointing, -, -, hleaves, hopening, hpoint, hsplit⟩ :=
    h.split_opening hp hnd hkey hx hhead
  obtain rfl := Option.some.inj (hsplit.symm.trans ht)
  refine hopening.counted hpoint hc ?_
  rw [← hleaves, UInt32.ofNat_add, UInt32.ofNat_add]
  cases removed with
  | false =>
    show s.counterLeaf + 1 + (UInt32.ofNat nd'.leaf.length + 0) = _
    grind
  | true =>
    show s.counterLeaf - 1 + 1 + (UInt32.ofNat nd'.leaf.length + 1) = _
    grind

/-- The links between the nodes stay. -/
theorem nodeAt_setNode (hnd : s.node q = some nd) (hvector : nd'.vector = nd.vector)
    (hchild : nd'.child = nd.child) (r : List ℕ) : (s.setNode q nd').nodeAt r = s.nodeAt r := by
  induction r using List.reverseRecOn with
  | nil => rfl
  | append_singleton r k ih =>
    rw [nodeAt_concat, nodeAt_concat, ih]
    exact congrArg _ (funext fun q' => childPtr_setNode hnd hvector hchild q' k)

/-- The leaves of a node are written anew, and the counter is adjusted by the difference. -/
theorem Valid.edit_counted (h : Valid s place slots) (hp : place p = some q)
    (hnd : s.node q = some nd) (hvector : nd'.vector = nd.vector) (hchild : nd'.child = nd.child)
    (hc : s.Counted F) : Poptrie.Counted { s.setNode q nd' with
      counterLeaf := s.counterLeaf +
        (UInt32.ofNat nd'.leaf.length - UInt32.ofNat nd.leaf.length) } F := by
  set t : Poptrie := { s.setNode q nd' with
    counterLeaf := s.counterLeaf +
      (UInt32.ofNat nd'.leaf.length - UInt32.ofNat nd.leaf.length) } with ht
  have hnode (r : List ℕ) : t.nodeAt r = s.nodeAt r := nodeAt_setNode hnd hvector hchild r
  have hleaves (q' : NodePtr) :
      t.leavesOf q' = if q' = q then nd'.leaf.length else s.leavesOf q' := by
    have hset : t.node q' = if q' = q then some nd' else s.node q' := node_setNode hnd q'
    rw [Poptrie.leavesOf, hset]
    split_ifs
    · rfl
    · rfl
  have hself : t.leavesAt p = nd'.leaf.length := by
    rw [Poptrie.leavesAt, hnode, ← h.place_eq, hp, Option.elim_some, hleaves, if_pos rfl]
  have hothers : ∀ r ∈ F, r ≠ p → t.leavesAt r = s.leavesAt r := by
    intro r hr hrp
    obtain ⟨q', hq'⟩ := Option.ne_none_iff_exists'.mp ((hc.mem_iff r).mp hr)
    have hne : q' ≠ q := by
      rintro rfl
      exact hrp (h.place_inj ((h.place_eq r).trans hq') hp)
    rw [Poptrie.leavesAt, Poptrie.leavesAt, hnode, hq', Option.elim_some, Option.elim_some,
      hleaves, if_neg hne]
  have hsum := sum_leavesAt (hc.mem (h.place_eq p ▸ hp)) hothers
  rw [hself, h.leavesAt_eq hp hnd] at hsum
  refine ⟨fun r => by rw [hc.mem_iff, hnode], hc.internal, ofNat_sum hsum hc.leaf ?_⟩
  show s.counterLeaf + (UInt32.ofNat nd'.leaf.length - UInt32.ofNat nd.leaf.length) + _ = _
  grind

end Steps

section Insertions

variable {s t : Poptrie} {place : List ℕ → Option NodePtr} {slots : List ℕ → ℕ → Option Leaf}
  {f : (ℕ → ℕ) → ℕ × Leaf} {j : ℕ} {q : NodePtr}
  {dest mask iface : UInt32}

theorem Valid.exists_leaf {p : List ℕ} {nd : Internal} {key : ℕ} (h : Valid s place slots)
    (hp : place p = some q) (hnd : s.node q = some nd) (hkey : key < 64)
    (hbit : ¬nd.vector.getLsbD key = true) : ∃ x, slots p key = some x := by
  obtain ⟨nd₀, hnd₀, hshows⟩ := h.shows p q hp
  obtain rfl := Option.some.inj (hnd.symm.trans hnd₀)
  rw [hshows.vector key hkey, Option.isNone_iff_eq_none] at hbit
  exact Option.ne_none_iff_exists'.mp hbit

/-- What the split of a slot in a trie keeps. -/
def KeptBySplits (P : Poptrie → Prop) : Prop :=
  ∀ {s t place slots p q nd key x head}, Valid s place slots → place p = some q →
    s.node q = some nd → key < 64 → slots p key = some x → (∀ a, p = [a] → head = a * 64) →
    s.split q key p.length head = some t → P s → P t

/-- What every split keeps the first loop of an insertion keeps. -/
theorem Valid.descend_keeps {P : Poptrie → Prop} (hP : KeptBySplits P) (h : Valid s place slots)
    (dest : UInt32) (hf : ∀ x, (∀ i, x i < 64) → Finds slots x (f x).1 (f x).2) (hs : P s)
    {fuel : ℕ} (hq : place (path (keys dest) j) = some q) {rest : UInt32}
    {r : NodePtr × UInt32 × UInt32}
    (ht : Poptrie.descend (keys dest 0 * 64) fuel s q j (shifted dest j) rest = some (t, r)) :
    P t := by
  induction fuel generalizing s place slots f j q rest with
  | zero =>
    rw [Poptrie.descend] at ht
    split_ifs at ht
    obtain ⟨rfl, -⟩ := Prod.mk.inj (Option.some.inj ht)
    exact hs
  | succ fuel ih =>
    by_cases hrest : rest ≤ 6
    · rw [Poptrie.descend, if_pos hrest] at ht
      obtain ⟨rfl, -⟩ := Prod.mk.inj (Option.some.inj ht)
      exact hs
    · obtain ⟨nd, u, nd', child, hnd, hu, hnd', hchild, hrec⟩ := descend_round hrest ht
      obtain ⟨u', place', slots', nd₂, child', hu', hnd₂, hchild', hvalid, hnext, hf'⟩ :=
        h.round hq hnd hf
      have hkeyOf : keyOf (shifted dest j) = keys dest j := rfl
      rw [hkeyOf] at hu hrec
      obtain rfl := Option.some.inj (hu.symm.trans hu')
      obtain rfl := Option.some.inj (hnd'.symm.trans hnd₂)
      obtain rfl := Option.some.inj (hchild.symm.trans hchild')
      have hkept : P u := by
        split_ifs at hu with hbit
        · exact Option.some.inj hu ▸ hs
        · obtain ⟨x, hx⟩ := h.exists_leaf hq hnd (keys_lt dest j) hbit
          refine hP h hq hnd (keys_lt dest j) hx
            (fun a ha => congrArg (· * 64) (path_eq_singleton ha)) ?_ hs
          rwa [length_path]
      rw [idx_snd] at hnext
      rw [← shifted_succ] at hrec
      exact ih hvalid (f := fun x => (max (f x).1 (common x (keys dest) (j + 1)), (f x).2)) hf'
        hkept hnext hrec

theorem Valid.reach_keeps {P : Poptrie → Prop} (hP : KeptBySplits P) (h : Valid s place slots)
    (dest : UInt32) (hf : ∀ x, (∀ i, x i < 64) → Finds slots x (f x).1 (f x).2) (hs : P s)
    {r : NodePtr × UInt32 × UInt32} (ht : s.reach dest mask = some (t, r)) : P t := by
  have hhead : keyOf dest <<< 6 = keys dest 0 * 64 := Nat.shiftLeft_eq _ _
  rw [Poptrie.reach, hhead, h.directPointing] at ht
  split_ifs at ht with hlong
  · cases hplace : place (path (keys dest) 2) with
    | none =>
      rw [hplace] at ht
      exact h.descend_keeps (j := 0) hP dest hf hs h.root ht
    | some q =>
      rw [hplace, shiftLeft_twelve] at ht
      exact h.descend_keeps hP dest hf hs hplace ht
  · exact h.descend_keeps (j := 0) hP dest hf hs h.root ht

theorem keptBySplits_counted : KeptBySplits fun s => ∃ F, s.Counted F :=
  fun h hp hnd hkey hx hhead ht ⟨_, hc⟩ => ⟨_, h.split_counted hp hnd hkey hx hhead hc ht⟩

/-- What an insertion does: it reaches the node at the level of the prefix and changes leaves of
it, with the counter of the leaves. -/
theorem Valid.put_steps (h : Valid s place slots) (h1 : 1 ≤ mask.toNat)
    (hf : ∀ x, (∀ i, x i < 64) → Finds slots x (f x).1 (f x).2)
    (ht : s.putPoptrie dest mask iface = some t) :
    ∃ u place' slots' q r nd e, s.reach (masked dest mask) mask = some (u, q, r) ∧
      Valid u place' slots' ∧
      place' (path (keys (masked dest mask)) (level mask)) = some q ∧
      (∀ x, (∀ i, x i < 64) → Finds slots' x
        (max (f x).1 (common x (keys (masked dest mask)) (level mask))) (f x).2) ∧
      u.node q = some nd ∧ nd.Shows (slots' (path (keys (masked dest mask)) (level mask))) ∧
      nd.edit (keys (masked dest mask) (level mask)) (range mask) ⟨iface, mask⟩ = some e ∧
      t = { u.setNode q { nd with leafvec := e.leafvec, leaf := e.cache } with
        counterLeaf := u.counterLeaf +
          (UInt32.ofNat e.cache.length - UInt32.ofNat e.idx₀) } := by
  obtain ⟨u, place', slots', q, rest, hu, hrest, hvalid, hq, hf'⟩ :=
    h.reach (masked dest mask) h1 hf
  obtain ⟨u₂, q₂, d, m, nd, e, hu₂, hnd, he, rfl⟩ := putPoptrie_steps ht
  obtain ⟨rfl, hreached⟩ := Prod.mk.inj (Option.some.inj (hu.symm.trans hu₂))
  obtain ⟨rfl, hrest'⟩ := Prod.mk.inj hreached
  obtain ⟨rfl, rfl⟩ := Prod.mk.inj hrest'
  obtain ⟨nd₀, hnd₀, hshows⟩ := hvalid.shows _ q hq
  obtain rfl := Option.some.inj (hnd.symm.trans hnd₀)
  rw [shiftLeft_rest h1 hrest] at he
  exact ⟨u, place', slots', q, _, nd, e, hu, hvalid, hq, hf', hnd, hshows, he, rfl⟩

/-- An insertion keeps the counters right. -/
theorem Looks.put_counted (h : Looks s f) (h1 : 1 ≤ mask.toNat) (h32 : mask.toNat ≤ 32)
    (hc : ∃ F, s.Counted F) (ht : s.putPoptrie dest mask iface = some t) : ∃ F, t.Counted F := by
  obtain ⟨place, slots, hvalid, hfinds⟩ := h
  have hf := fun x hx => (hfinds x hx).2
  obtain ⟨u, place', slots', q, r, nd, e, hu, hvalid', hq, -, hnd, hshows, he, rfl⟩ :=
    hvalid.put_steps h1 hf ht
  obtain ⟨F, hc'⟩ := hvalid.reach_keeps keptBySplits_counted (masked dest mask) hf hc hu
  -- The index into the old leaves has gone past all of them.
  have hidx : e.idx₀ = nd.leaf.length := by
    rw [hshows.shaped.edit_idx (range_le h1 h32 dest) he, countOneBit,
      onesBelow_eq_length hshows.coded]
  rw [hidx]
  exact ⟨F, hvalid'.edit_counted hq hnd rfl rfl hc'⟩

end Insertions

end NetworkLab.Tries
