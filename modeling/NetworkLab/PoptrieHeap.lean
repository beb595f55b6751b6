import NetworkLab.PoptrieSlots

/-!
# The nodes of the trie in memory

Every node is reached from the root along one path of slots. The children of a node have an
array of their own, so a change of one node or the move of an array of children is not seen
from other paths.
-/
namespace NetworkLab.Tries
open RunCoding

section Memory

variable {s : Poptrie} {p q : NodePtr} {nd nd' : Internal} {b : ℕ}

theorem node_eq (s : Poptrie) (p : NodePtr) :
    s.node p = (s.children (some p.1)).bind fun nodes => nodes[p.2]? := rfl

theorem children_setNode (s : Poptrie) (p : NodePtr) (nd' : Internal) (b : ℕ) :
    (s.setNode p nd').children (some b) =
      (s.children (some b)).map fun nodes => if b = p.1 then nodes.set p.2 nd' else nodes := by
  simp only [Poptrie.children, Poptrie.setNode, List.getElem?_modify]
  cases harray : s.arrays[b]? with
  | none => rfl
  | some array =>
    cases array with
    | none =>
      by_cases hb : p.1 = b
      · simp [hb]
      · simp [hb]
    | some nodes =>
      by_cases hb : p.1 = b
      · simp [hb]
      · simp [hb, Ne.symm hb]

/-- Writing a node changes the node at that place only. -/
theorem node_setNode (h : s.node p = some nd) (q : NodePtr) :
    (s.setNode p nd').node q = if q = p then some nd' else s.node q := by
  rw [node_eq, children_setNode]
  obtain ⟨nodes, hnodes, hnode⟩ := Option.bind_eq_some_iff.mp h
  have hlt := (List.getElem?_eq_some_iff.mp hnode).1
  by_cases hq : q.1 = p.1
  · have hnodes' : s.children (some q.1) = some nodes := hq ▸ hnodes
    have hnode' : s.node q = nodes[q.2]? := by
      rw [node_eq, hnodes']
      rfl
    rw [hnodes', hnode', Option.map_some, Option.bind_some, if_pos hq, List.getElem?_set]
    by_cases hi : p.2 = q.2
    · rw [if_pos hi, if_pos hlt, if_pos (Prod.ext hq hi.symm)]
    · rw [if_neg hi, if_neg fun heq => hi (congrArg Prod.snd heq).symm]
  · rw [if_neg fun heq => hq (congrArg Prod.fst heq), node_eq]
    simp only [if_neg hq]
    cases s.children (some q.1) with
    | none => rfl
    | some nodes => rfl

theorem children_length_setNode (p : NodePtr) (nd' : Internal) {nodes : List Internal}
    {child : Option ℕ} (h : s.children child = some nodes) :
    ∃ nodes', (s.setNode p nd').children child = some nodes' ∧ nodes'.length = nodes.length := by
  cases child with
  | none =>
    cases h
    exact ⟨[], rfl, rfl⟩
  | some b =>
    rw [children_setNode, h]
    refine ⟨_, rfl, ?_⟩
    split_ifs
    · exact List.length_set
    · rfl

theorem array_lt {nodes : List Internal} (h : s.children (some b) = some nodes) :
    b < s.arrays.length := by
  by_contra hge
  rw [Poptrie.children, List.getElem?_eq_none (by omega)] at h
  cases h

theorem node_array_lt (h : s.node p = some nd) : p.1 < s.arrays.length := by
  obtain ⟨nodes, hnodes, -⟩ := Option.bind_eq_some_iff.mp h
  exact array_lt hnodes

/-- A new array behind the old ones, after one of these has been freed. -/
def Poptrie.replaceArray (s : Poptrie) (old : Option ℕ) (nodes : List Internal) :
    List (Option (List Internal)) :=
  (s.free old).arrays ++ [some nodes]

theorem replaceArray_new (s : Poptrie) (old : Option ℕ) (nodes : List Internal) :
    (s.replaceArray old nodes)[s.arrays.length]? = some (some nodes) := by
  have hlen : (s.free old).arrays.length = s.arrays.length := by
    cases old with
    | none => rfl
    | some b => exact List.length_set
  rw [Poptrie.replaceArray, ← hlen, List.getElem?_append_right le_rfl, Nat.sub_self]
  rfl

theorem replaceArray_old (s : Poptrie) {old : Option ℕ} (nodes : List Internal) {b : ℕ}
    (hb : b < s.arrays.length) (hold : old ≠ some b) :
    (s.replaceArray old nodes)[b]? = s.arrays[b]? := by
  cases old with
  | none => exact List.getElem?_append_left hb
  | some c =>
    have hne : c ≠ b := fun heq => hold (congrArg some heq)
    have hlen : b < (s.free (some c)).arrays.length := by
      rw [Poptrie.free, List.length_set]
      exact hb
    rw [Poptrie.replaceArray, List.getElem?_append_left hlen]
    exact List.getElem?_set_ne hne

/-- Memory with a node written and the array of its children replaced by a new one. -/
def Poptrie.move (s : Poptrie) (q : NodePtr) (nd' : Internal) (old : Option ℕ)
    (nodes : List Internal) (pointing : ℕ → Option NodePtr) (leaves internals : UInt32) : Poptrie :=
  Poptrie.setNode ⟨s.replaceArray old nodes, pointing, leaves, internals⟩ q nd'

variable {old : Option ℕ} {nodes : List Internal} {pointing : ℕ → Option NodePtr}
  {leaves internals : UInt32}

theorem move_node_old (hq : q.1 < s.arrays.length) (hold : old ≠ some q.1)
    (hnd : s.node q = some nd) {q' : NodePtr} (hq' : q'.1 < s.arrays.length)
    (hold' : old ≠ some q'.1) :
    (s.move q nd' old nodes pointing leaves internals).node q' =
      if q' = q then some nd' else s.node q' := by
  have hkeep (r : NodePtr) (hr : r.1 < s.arrays.length) (hne : old ≠ some r.1) :
      Poptrie.node ⟨s.replaceArray old nodes, pointing, leaves, internals⟩ r = s.node r := by
    rw [Poptrie.node, Poptrie.node, replaceArray_old s nodes hr hne]
  rw [Poptrie.move, node_setNode ((hkeep q hq hold).trans hnd), hkeep q' hq' hold']

theorem move_children_new (hq : q.1 < s.arrays.length) :
    (s.move q nd' old nodes pointing leaves internals).children (some s.arrays.length) =
      some nodes := by
  rw [Poptrie.move, children_setNode, Poptrie.children, replaceArray_new, Option.join_some,
    Option.map_some, if_neg hq.ne']

theorem move_children_old (q : NodePtr) (nd' : Internal) (nodes : List Internal)
    (pointing : ℕ → Option NodePtr) (leaves internals : UInt32) {child : Option ℕ}
    {kids : List Internal} (h : s.children child = some kids) (hne : child ≠ none → old ≠ child) :
    ∃ kids', (s.move q nd' old nodes pointing leaves internals).children child = some kids' ∧
      kids'.length = kids.length := by
  refine children_length_setNode q nd' ?_
  cases child with
  | none => exact h
  | some b =>
    rw [Poptrie.children, replaceArray_old s nodes (array_lt h) (hne (Option.some_ne_none b))]
    exact h

end Memory

section Bits

variable {vec : BitVec 64} {key : ℕ}

/-- The bits before one that has been set. -/
theorem onesBelow_setBit (hkey : key < 64) (hbit : vec.getLsbD key = false) (i : ℕ) :
    onesBelow (vec ||| 1#64 <<< key) i = onesBelow vec i + (decide (key < i)).toNat := by
  induction i with
  | zero => rfl
  | succ i ih =>
    rw [onesBelow, onesBelow, ih, BitVec.getLsbD_or, getLsbD_setBit hkey]
    rcases Nat.lt_trichotomy i key with hlt | rfl | hgt
    · rw [decide_eq_false (by omega), decide_eq_false (by omega), decide_eq_false (by omega),
        Bool.or_false]
      rfl
    · rw [hbit, decide_eq_false (by omega), decide_eq_true rfl, decide_eq_true (by omega)]
      rfl
    · rw [decide_eq_true (by omega), decide_eq_false (by omega), decide_eq_true (by omega),
        Bool.or_false]
      omega

theorem length_take_onesBelow {α : Type} {xs : List α} (hlen : xs.length = countOneBit vec)
    (hkey : key < 64) : (xs.take (onesBelow vec key)).length = onesBelow vec key := by
  rw [List.length_take, hlen]
  exact min_eq_left (onesBelow_mono vec hkey.le)

/-- A child more between the others. -/
theorem getElem?_insert {α : Type} {xs : List α} {a : α} (hlen : xs.length = countOneBit vec)
    (hkey : key < 64) (hbit : vec.getLsbD key = false) {i : ℕ} (hi : vec.getLsbD i = true) :
    (xs.take (onesBelow vec key) ++ a :: xs.drop (onesBelow vec key))[
      onesBelow (vec ||| 1#64 <<< key) i]? = xs[onesBelow vec i]? := by
  have htake := length_take_onesBelow hlen hkey
  have hne : i ≠ key := by
    rintro rfl
    rw [hbit] at hi
    cases hi
  rw [onesBelow_setBit hkey hbit]
  rcases Nat.lt_or_ge i key with hlt | hge
  · have hless := onesBelow_lt hlt hi
    rw [decide_eq_false (by omega), List.getElem?_append_left (by
      rw [htake]
      exact hless)]
    exact List.getElem?_take_of_lt hless
  · have hmono := onesBelow_mono vec hge
    rw [decide_eq_true (by omega), List.getElem?_append_right (by
      rw [htake]
      exact hmono.trans (Nat.le_add_right _ _)), htake]
    have hindex : onesBelow vec i + true.toNat - onesBelow vec key =
        (onesBelow vec i - onesBelow vec key) + 1 := by
      rw [Bool.toNat_true]
      omega
    rw [hindex, List.getElem?_cons_succ, List.getElem?_drop, Nat.add_sub_cancel' hmono]

theorem getElem?_insert_self {α : Type} {xs : List α} {a : α} (hlen : xs.length = countOneBit vec)
    (hkey : key < 64) (hbit : vec.getLsbD key = false) :
    (xs.take (onesBelow vec key) ++ a :: xs.drop (onesBelow vec key))[
      onesBelow (vec ||| 1#64 <<< key) key]? = some a := by
  have htake := length_take_onesBelow hlen hkey
  rw [onesBelow_setBit hkey hbit, decide_eq_false (by omega), List.getElem?_append_right (by
    rw [htake]
    exact Nat.le_add_right _ _), htake, Bool.toNat_false, Nat.add_zero, Nat.sub_self]
  rfl

end Bits

section Paths

/-- The child at a slot. -/
def Internal.childAt (nd : Internal) (k : ℕ) : Option NodePtr :=
  if nd.vector.getLsbD k then nd.child.map fun b => (b, onesBelow nd.vector k) else none

def Poptrie.childPtr (s : Poptrie) (q : NodePtr) (k : ℕ) : Option NodePtr :=
  (s.node q).bind fun nd => nd.childAt k

/-- The nodes are at these places and stand for these slots, path by path. -/
structure Valid (s : Poptrie) (place : List ℕ → Option NodePtr)
    (slots : List ℕ → ℕ → Option Leaf) : Prop where
  root : place [] = some root
  step : ∀ p k, place (p ++ [k]) = (place p).bind fun q => s.childPtr q k
  shows : ∀ p q, place p = some q → ∃ nd, s.node q = some nd ∧ nd.Shows (slots p)
  children : ∀ p q nd, place p = some q → s.node q = some nd →
    ∃ nodes, s.children nd.child = some nodes ∧ nodes.length = countOneBit nd.vector
  parent : ∀ p q nd, place p = some q → s.node q = some nd → nd.child ≠ none →
    ∃ k, place (p ++ [k]) ≠ none
  above : ∀ p k q, place (p ++ [k]) = some q → q.1 ≠ 0
  apart : ∀ p p' k k' q q', place (p ++ [k]) = some q → place (p' ++ [k']) = some q' →
    q.1 = q'.1 → p = p'
  direct : ∀ i < 4096, s.directPointing i = place [i / 64, i % 64]

variable {s : Poptrie} {place : List ℕ → Option NodePtr} {slots : List ℕ → ℕ → Option Leaf}
  {p : List ℕ} {q : NodePtr} {nd : Internal}

theorem Valid.place_eq_childAt (h : Valid s place slots) (hp : place p = some q)
    (hnd : s.node q = some nd) (k : ℕ) : place (p ++ [k]) = nd.childAt k := by
  rw [h.step, hp, Option.bind_some, Poptrie.childPtr, hnd, Option.bind_some]

/-- The array of the children of a node. -/
theorem Valid.child_eq (h : Valid s place slots) (hp : place p = some q) (hnd : s.node q = some nd)
    {k : ℕ} {q' : NodePtr} (hk : place (p ++ [k]) = some q') :
    nd.vector.getLsbD k = true ∧ nd.child = some q'.1 ∧ q'.2 = onesBelow nd.vector k := by
  rw [h.place_eq_childAt hp hnd, Internal.childAt] at hk
  split_ifs at hk with hbit
  obtain ⟨b, hb, rfl⟩ := Option.map_eq_some_iff.mp hk
  exact ⟨hbit, hb, rfl⟩

/-- A node has one path. -/
theorem Valid.place_inj (h : Valid s place slots) {p' : List ℕ} (hp : place p = some q)
    (hp' : place p' = some q) : p = p' := by
  rcases List.eq_nil_or_concat p with rfl | ⟨r, k, rfl⟩
  · rcases List.eq_nil_or_concat p' with rfl | ⟨r', k', rfl⟩
    · rfl
    · have hroot : NetworkLab.Tries.root = q := Option.some.inj (h.root.symm.trans hp)
      exact absurd (congrArg Prod.fst hroot).symm (h.above r' k' q (by simpa using hp'))
  · rcases List.eq_nil_or_concat p' with rfl | ⟨r', k', rfl⟩
    · have hroot : NetworkLab.Tries.root = q := Option.some.inj (h.root.symm.trans hp')
      exact absurd (congrArg Prod.fst hroot).symm (h.above r k q (by simpa using hp))
    · simp only [List.concat_eq_append] at hp hp' ⊢
      obtain rfl := h.apart r r' k k' q q hp hp' rfl
      cases hr : place r with
      | none =>
        rw [h.step, hr] at hp
        cases hp
      | some q₀ =>
        obtain ⟨nd, hnd, -⟩ := h.shows r q₀ hr
        obtain ⟨hk, -, hidx⟩ := h.child_eq hr hnd hp
        obtain ⟨hk', -, hidx'⟩ := h.child_eq hr hnd hp'
        rw [onesBelow_inj hk hk' (hidx.symm.trans hidx')]

/-- A slot of a node has a child where it has no leaf. -/
theorem Valid.place_isSome_iff (h : Valid s place slots) (hp : place p = some q) {k : ℕ}
    (hk : k < 64) : place (p ++ [k]) ≠ none ↔ slots p k = none := by
  obtain ⟨nd, hnd, hshows⟩ := h.shows p q hp
  rw [h.place_eq_childAt hp hnd, Internal.childAt]
  cases hx : slots p k with
  | some x =>
    rw [hshows.vector_of_some hk hx, if_neg Bool.false_ne_true]
    exact iff_of_false (fun hne => hne rfl) (Option.some_ne_none x)
  | none =>
    have hbit := hshows.vector_of_none hk hx
    rw [if_pos hbit]
    refine iff_of_true (fun hnone => ?_) rfl
    rw [Option.map_eq_none_iff] at hnone
    obtain ⟨nodes, hnodes, hlen⟩ := h.children p q nd hp hnd
    rw [hnone] at hnodes
    cases hnodes
    have hpos := onesBelow_lt hk hbit
    rw [countOneBit] at hlen
    simp only [List.length_nil] at hlen
    omega

/-- Only the leaves of a node change. -/
theorem childPtr_setNode (hnd : s.node q = some nd) {nd' : Internal}
    (hvector : nd'.vector = nd.vector) (hchild : nd'.child = nd.child) (q' : NodePtr) (k : ℕ) :
    (s.setNode q nd').childPtr q' k = s.childPtr q' k := by
  rw [Poptrie.childPtr, Poptrie.childPtr, node_setNode hnd q']
  split_ifs with hq
  · rw [hq, hnd, Option.bind_some, Option.bind_some, Internal.childAt, Internal.childAt, hvector,
      hchild]
  · rfl

/-- The leaves of a node are written anew. -/
theorem Valid.edit (h : Valid s place slots) (hp : place p = some q) (hnd : s.node q = some nd)
    (nd' : Internal) (hvector : nd'.vector = nd.vector) (hchild : nd'.child = nd.child)
    {f : ℕ → Option Leaf} (hshows : nd'.Shows f) :
    Valid (s.setNode q nd') place (Function.update slots p f) := by
  have hnode (q' : NodePtr) : (s.setNode q nd').node q' = if q' = q then some nd' else s.node q' :=
    node_setNode hnd q'
  refine ⟨h.root, fun r k => ?_, fun r q' hr => ?_, fun r q' nd₀ hr hnd₀ => ?_,
    fun r q' nd₀ hr hnd₀ hne => ?_, h.above, h.apart, h.direct⟩
  · rw [h.step]
    exact congrArg _ (funext fun q' => (childPtr_setNode hnd hvector hchild q' k).symm)
  · rw [hnode]
    by_cases hq : q' = q
    · obtain rfl := h.place_inj hp (hq ▸ hr)
      rw [if_pos hq, Function.update_self]
      exact ⟨nd', rfl, hshows⟩
    · have hne : r ≠ p := by
        rintro rfl
        exact hq (Option.some.inj (hr.symm.trans hp))
      rw [if_neg hq, Function.update_of_ne hne]
      exact h.shows r q' hr
  · have hold : ∃ nd₁, s.node q' = some nd₁ ∧ nd₁.vector = nd₀.vector ∧ nd₁.child = nd₀.child := by
      rw [hnode] at hnd₀
      split_ifs at hnd₀ with hq
      · cases hnd₀
        exact ⟨nd, hq ▸ hnd, hvector.symm, hchild.symm⟩
      · exact ⟨nd₀, hnd₀, rfl, rfl⟩
    obtain ⟨nd₁, hnd₁, hvec, hch⟩ := hold
    obtain ⟨nodes, hnodes, hlen⟩ := h.children r q' nd₁ hr hnd₁
    obtain ⟨nodes', hnodes', hlen'⟩ := children_length_setNode q nd' hnodes
    rw [← hch, ← hvec]
    exact ⟨nodes', hnodes', hlen'.trans hlen⟩
  · rw [hnode] at hnd₀
    split_ifs at hnd₀ with hq
    · cases hnd₀
      exact h.parent r q nd (hq ▸ hr) hnd (hchild ▸ hne)
    · exact h.parent r q' nd₀ hr hnd₀ hne

end Paths

section Open

/-- The places after the children of the node at `p` have moved. -/
def openPlace (place : List ℕ → Option NodePtr) (p : List ℕ) (nd' : Internal) (r : List ℕ) :
    Option NodePtr :=
  if r ≠ [] ∧ r.dropLast = p then nd'.childAt (r.getLastD 0) else place r

/-- The slots after a leaf has moved into a child. -/
def openSlots (slots : List ℕ → ℕ → Option Leaf) (p : List ℕ) (key : ℕ) (x : Leaf) :
    List ℕ → ℕ → Option Leaf :=
  Function.update (Function.update slots p (Function.update (slots p) key none)) (p ++ [key])
    fun _ => some x

variable {s : Poptrie} {place : List ℕ → Option NodePtr} {slots : List ℕ → ℕ → Option Leaf}
  {p : List ℕ} {q : NodePtr} {nd nd' : Internal} {key : ℕ} {x : Leaf}

theorem openPlace_child (r : List ℕ) (k : ℕ) : openPlace place p nd' (r ++ [k]) =
    if r = p then nd'.childAt k else place (r ++ [k]) := by
  unfold openPlace
  rw [List.dropLast_concat, List.getLastD_concat]
  by_cases hr : r = p
  · rw [if_pos ⟨List.append_ne_nil_of_right_ne_nil r (List.cons_ne_nil k []), hr⟩, if_pos hr]
  · rw [if_neg fun hand => hr hand.2, if_neg hr]

theorem openPlace_of_ne {r : List ℕ} (h : ∀ k, r ≠ p ++ [k]) :
    openPlace place p nd' r = place r := by
  rcases List.eq_nil_or_concat r with rfl | ⟨r, k, rfl⟩
  · exact if_neg fun hand => hand.1 rfl
  · rw [List.concat_eq_append] at h ⊢
    rw [openPlace_child, if_neg fun heq => h k (by rw [heq])]

theorem append_singleton_ne_self (p : List ℕ) (k : ℕ) : p ≠ p ++ [k] := by
  intro heq
  have hlen := congrArg List.length heq
  rw [List.length_append, List.length_singleton] at hlen
  omega

theorem openPlace_self : openPlace place p nd' p = place p :=
  openPlace_of_ne fun k => append_singleton_ne_self p k

theorem openSlots_self : openSlots slots p key x p = Function.update (slots p) key none := by
  rw [openSlots, Function.update_of_ne (append_singleton_ne_self p key), Function.update_self]

theorem openSlots_new : openSlots slots p key x (p ++ [key]) = fun _ => some x :=
  Function.update_self ..

theorem openSlots_of_ne {r : List ℕ} (hp : r ≠ p) (hkey : r ≠ p ++ [key]) :
    openSlots slots p key x r = slots r := by
  rw [openSlots, Function.update_of_ne hkey, Function.update_of_ne hp]

/-- A new node has its one leaf in every slot. -/
theorem shows_new (x : Leaf) : Internal.Shows ⟨1, 0, none, [x]⟩ fun _ => some x := by
  have hmark (i : ℕ) : (1#64).getLsbD i = decide (i = 0) := by
    rw [BitVec.getLsbD_one]
    rfl
  have hcoded : ∀ n, Coded (1#64).getLsbD (fun _ => some x) (n + 1) [x] := by
    intro n
    induction n with
    | zero => exact coded_zero.start rfl (hmark 0)
    | succ n ih =>
      refine ih.carry (by rw [hmark, decide_eq_false (Nat.succ_ne_zero n)]) fun y hy => ?_
      rw [← hy]
      rfl
  exact ⟨hcoded 63, fun i _ => BitVec.getLsbD_zero⟩

/-- The array of the children of a node does not hold the node itself. -/
theorem Valid.child_ne_self (h : Valid s place slots) (hp : place p = some q)
    (hnd : s.node q = some nd) : nd.child ≠ some q.1 := by
  intro hchild
  obtain ⟨k, hk⟩ := h.parent p q nd hp hnd (by rw [hchild]; exact Option.some_ne_none _)
  obtain ⟨q', hq'⟩ := Option.ne_none_iff_exists'.mp hk
  obtain ⟨-, hchild', -⟩ := h.child_eq hp hnd hq'
  have harray : q'.1 = q.1 := Option.some.inj (hchild'.symm.trans hchild)
  rcases List.eq_nil_or_concat p with rfl | ⟨r, j, rfl⟩
  · have hroot : NetworkLab.Tries.root = q := Option.some.inj (h.root.symm.trans hp)
    exact h.above [] k q' hq' (harray.trans (congrArg Prod.fst hroot).symm)
  · rw [List.concat_eq_append] at hp hq'
    exact append_singleton_ne_self r j (h.apart _ _ k j q' q hq' hp harray).symm

/-- Arrays of children of different nodes are different. -/
theorem Valid.child_inj (h : Valid s place slots) {p' : List ℕ} {q' : NodePtr} {nd₁ : Internal}
    (hp : place p = some q) (hnd : s.node q = some nd) (hp' : place p' = some q')
    (hnd₁ : s.node q' = some nd₁) (hne : nd.child ≠ none) (heq : nd.child = nd₁.child) :
    p = p' := by
  obtain ⟨k, hk⟩ := h.parent p q nd hp hnd hne
  obtain ⟨k', hk'⟩ := h.parent p' q' nd₁ hp' hnd₁ (heq ▸ hne)
  obtain ⟨c, hc⟩ := Option.ne_none_iff_exists'.mp hk
  obtain ⟨c', hc'⟩ := Option.ne_none_iff_exists'.mp hk'
  obtain ⟨-, hchild, -⟩ := h.child_eq hp hnd hc
  obtain ⟨-, hchild', -⟩ := h.child_eq hp' hnd₁ hc'
  exact h.apart p p' k k' c c' hc hc' (Option.some.inj (hchild.symm.trans (heq.trans hchild')))

/-- A node that is not a child of `p` is in no array that is freed. -/
theorem Valid.array_ne_child (h : Valid s place slots) (hp : place p = some q)
    (hnd : s.node q = some nd) {r : List ℕ} {q' : NodePtr} (hr : place r = some q')
    (hne : ∀ k, r ≠ p ++ [k]) : nd.child ≠ some q'.1 := by
  intro hchild
  obtain ⟨k, hk⟩ := h.parent p q nd hp hnd (by rw [hchild]; exact Option.some_ne_none _)
  obtain ⟨c, hc⟩ := Option.ne_none_iff_exists'.mp hk
  obtain ⟨-, hchild', -⟩ := h.child_eq hp hnd hc
  have harray : c.1 = q'.1 := Option.some.inj (hchild'.symm.trans hchild)
  rcases List.eq_nil_or_concat r with rfl | ⟨r, j, rfl⟩
  · have hroot : NetworkLab.Tries.root = q' := Option.some.inj (h.root.symm.trans hr)
    exact h.above p k c hc (harray.trans (congrArg Prod.fst hroot).symm)
  · rw [List.concat_eq_append] at hr hne
    obtain rfl := h.apart p r k j c q' hc hr harray
    exact hne j rfl

/-- What opening the slot `key` of the node at `p` is about. -/
structure Opening (s : Poptrie) (place : List ℕ → Option NodePtr)
    (slots : List ℕ → ℕ → Option Leaf) (p : List ℕ) (q : NodePtr) (nd nd' : Internal) (key : ℕ)
    (x : Leaf) (nodes : List Internal) : Prop where
  valid : Valid s place slots
  place : place p = some q
  node : s.node q = some nd
  key_lt : key < 64
  leaf : slots p key = some x
  shows : nd'.Shows (Function.update (slots p) key none)
  vector : nd'.vector = nd.vector ||| 1#64 <<< key
  child : nd'.child = some s.arrays.length
  nodes : s.children nd.child = some nodes

/-- The array with the new child. -/
def newChildren (nd : Internal) (key : ℕ) (x : Leaf) (nodes : List Internal) : List Internal :=
  nodes.take (onesBelow nd.vector key) ++ ⟨1, 0, none, [x]⟩ :: nodes.drop (onesBelow nd.vector key)

variable {nodes : List Internal} {pointing : ℕ → Option NodePtr} {leaves internals : UInt32}

namespace Opening

theorem bit (h : Opening s place slots p q nd nd' key x nodes) :
    nd.vector.getLsbD key = false := by
  obtain ⟨nd₀, hnd₀, hshows⟩ := h.valid.shows p q h.place
  obtain rfl : nd = nd₀ := Option.some.inj (h.node.symm.trans hnd₀)
  exact hshows.vector_of_some h.key_lt h.leaf

theorem length_nodes (h : Opening s place slots p q nd nd' key x nodes) :
    nodes.length = countOneBit nd.vector := by
  obtain ⟨nodes', hnodes', hlen⟩ := h.valid.children p q nd h.place h.node
  obtain rfl : nodes = nodes' := Option.some.inj (h.nodes.symm.trans hnodes')
  exact hlen

theorem no_child (h : Opening s place slots p q nd nd' key x nodes) :
    place (p ++ [key]) = none := by
  by_contra hne
  rw [← ne_eq, h.valid.place_isSome_iff h.place h.key_lt, h.leaf] at hne
  cases hne

/-- A child that the node has now it had before, except for the new one. -/
theorem childAt_isSome_iff (h : Opening s place slots p q nd nd' key x nodes) {k : ℕ}
    (hk : k ≠ key) : nd'.childAt k ≠ none ↔ place (p ++ [k]) ≠ none := by
  have hbit : nd'.vector.getLsbD k = nd.vector.getLsbD k := by
    rw [h.vector, BitVec.getLsbD_or, getLsbD_setBit h.key_lt, decide_eq_false hk, Bool.or_false]
  rw [Internal.childAt, h.child, hbit]
  rcases Nat.lt_or_ge k 64 with hlt | hge
  · rw [h.valid.place_isSome_iff h.place hlt]
    obtain ⟨nd₀, hnd₀, hshows⟩ := h.valid.shows p q h.place
    obtain rfl : nd = nd₀ := Option.some.inj (h.node.symm.trans hnd₀)
    rw [hshows.vector k hlt]
    cases slots p k with
    | none => exact iff_of_true (Option.some_ne_none _) rfl
    | some y => exact iff_of_false (fun hne => hne rfl) (Option.some_ne_none y)
  · rw [BitVec.getLsbD_of_ge _ _ hge, if_neg Bool.false_ne_true, h.valid.place_eq_childAt h.place
      h.node, Internal.childAt, BitVec.getLsbD_of_ge _ _ hge, if_neg Bool.false_ne_true]

/-- The nodes after the children have moved: the node itself, the new child, and the others as
they were. -/
theorem node_cases (h : Opening s place slots p q nd nd' key x nodes)
    (pointing : ℕ → Option NodePtr) (leaves internals : UInt32) {r : List ℕ} {q' : NodePtr}
    (hr : openPlace place p nd' r = some q') :
    let s' := s.move q nd' nd.child (newChildren nd key x nodes) pointing leaves internals
    (r = p ∧ q' = q ∧ s'.node q' = some nd') ∨
      (r = p ++ [key] ∧ s'.node q' = some ⟨1, 0, none, [x]⟩) ∨
      (r ≠ p ∧ r ≠ p ++ [key] ∧ ∃ q₀, place r = some q₀ ∧ s'.node q' = s.node q₀) := by
  intro s'
  have hlt := node_array_lt h.node
  have hself := h.valid.child_ne_self h.place h.node
  have hnew (i : ℕ) : s'.node (s.arrays.length, i) = (newChildren nd key x nodes)[i]? := by
    rw [node_eq, move_children_new hlt]
    rfl
  by_cases hchild : ∃ k, r = p ++ [k]
  · obtain ⟨k, rfl⟩ := hchild
    rw [openPlace_child, if_pos rfl] at hr
    have hbit : nd'.vector.getLsbD k = true := by
      rw [Internal.childAt] at hr
      split_ifs at hr with hbit
      exact hbit
    rw [Internal.childAt, if_pos hbit, h.child, h.vector] at hr
    obtain rfl : (s.arrays.length, onesBelow (nd.vector ||| 1#64 <<< key) k) = q' :=
      Option.some.inj hr
    rw [hnew]
    by_cases hk : k = key
    · subst hk
      exact .inr (.inl ⟨rfl, getElem?_insert_self h.length_nodes h.key_lt h.bit⟩)
    · have hold : place (p ++ [k]) ≠ none := by
        refine (h.childAt_isSome_iff hk).mp ?_
        rw [Internal.childAt, if_pos hbit, h.child]
        exact Option.some_ne_none _
      obtain ⟨q₀, hq₀⟩ := Option.ne_none_iff_exists'.mp hold
      obtain ⟨hbit₀, hchild₀, hidx⟩ := h.valid.child_eq h.place h.node hq₀
      refine .inr (.inr ⟨(append_singleton_ne_self p k).symm, fun heq => hk ?_, q₀, hq₀, ?_⟩)
      · simpa using heq
      · rw [node_eq s q₀, ← hchild₀, h.nodes, Option.bind_some, hidx]
        exact getElem?_insert h.length_nodes h.key_lt h.bit hbit₀
  · have hne : ∀ k, r ≠ p ++ [k] := fun k heq => hchild ⟨k, heq⟩
    rw [openPlace_of_ne hne] at hr
    obtain ⟨nd₀, hnd₀, -⟩ := h.valid.shows r q' hr
    have hnode : s'.node q' = if q' = q then some nd' else s.node q' :=
      move_node_old hlt hself h.node (node_array_lt hnd₀)
        (h.valid.array_ne_child h.place h.node hr hne)
    by_cases hq : q' = q
    · rw [if_pos hq] at hnode
      exact .inl ⟨h.valid.place_inj (hq ▸ hr) h.place, hq, hnode⟩
    · rw [if_neg hq] at hnode
      refine .inr (.inr ⟨fun heq => hq ?_, hne key, q', hr, hnode⟩)
      rw [heq, h.place] at hr
      exact (Option.some.inj hr).symm

theorem place_iff (h : Opening s place slots p q nd nd' key x nodes) {r : List ℕ}
    (hr : r ≠ p ++ [key]) : openPlace place p nd' r ≠ none ↔ place r ≠ none := by
  by_cases hchild : ∃ k, r = p ++ [k]
  · obtain ⟨k, rfl⟩ := hchild
    rw [openPlace_child, if_pos rfl]
    exact h.childAt_isSome_iff fun heq => hr (by rw [heq])
  · rw [openPlace_of_ne fun k heq => hchild ⟨k, heq⟩]

/-- A step from a node to its child after the move. -/
theorem step (h : Opening s place slots p q nd nd' key x nodes) (r : List ℕ) (k : ℕ) :
    openPlace place p nd' (r ++ [k]) = (openPlace place p nd' r).bind fun q' =>
      (s.move q nd' nd.child (newChildren nd key x nodes) pointing leaves internals).childPtr
        q' k := by
  cases hr : openPlace place p nd' r with
  | none =>
    have hrp : r ≠ p := by
      rintro rfl
      rw [openPlace_self, h.place] at hr
      cases hr
    rw [openPlace_child, if_neg hrp, h.valid.step]
    have hnone : place r = none := by
      by_cases hkey : r = p ++ [key]
      · rw [hkey]
        exact h.no_child
      · by_contra hne
        exact (h.place_iff hkey).mpr hne hr
    rw [hnone]
    rfl
  | some q' =>
    rw [Option.bind_some, Poptrie.childPtr]
    rcases h.node_cases pointing leaves internals hr with
      ⟨rfl, -, hnode⟩ | ⟨rfl, hnode⟩ | ⟨hrp, -, q₀, hq₀, hnode⟩
    · rw [hnode, openPlace_child, if_pos rfl]
      rfl
    · rw [hnode, openPlace_child, if_neg (append_singleton_ne_self p key).symm, h.valid.step,
        h.no_child, Option.bind_some, Internal.childAt, if_neg]
      · rfl
      · have hzero : (0#64).getLsbD k = false := BitVec.getLsbD_zero
        exact hzero ▸ Bool.false_ne_true
    · rw [hnode, openPlace_child, if_neg hrp, h.valid.step, hq₀]
      rfl

theorem opened (h : Opening s place slots p q nd nd' key x nodes) (leaves internals : UInt32)
    (hpoint : ∀ i < 4096, pointing i = openPlace place p nd' [i / 64, i % 64]) :
    Valid (s.move q nd' nd.child (newChildren nd key x nodes) pointing leaves internals)
      (openPlace place p nd') (openSlots slots p key x) := by
  have hlt := node_array_lt h.node
  refine ⟨?_, h.step, fun r q' hr => ?_, fun r q' nd₁ hr hnd₁ => ?_,
    fun r q' nd₁ hr hnd₁ hne => ?_, fun r k q' hr => ?_, fun r r' k k' q₁ q₂ hr hr' harray => ?_,
    hpoint⟩
  · rw [openPlace_of_ne fun k heq => (List.append_ne_nil_of_right_ne_nil p (List.cons_ne_nil k [])
      heq.symm).elim]
    exact h.valid.root
  · rcases h.node_cases pointing leaves internals hr with
      ⟨rfl, -, hnode⟩ | ⟨rfl, hnode⟩ | ⟨hrp, hrkey, q₀, hq₀, hnode⟩
    · exact ⟨nd', hnode, openSlots_self ▸ h.shows⟩
    · exact ⟨_, hnode, openSlots_new ▸ shows_new x⟩
    · rw [hnode, openSlots_of_ne hrp hrkey]
      exact h.valid.shows r q₀ hq₀
  · rcases h.node_cases pointing leaves internals hr with
      ⟨rfl, -, hnode⟩ | ⟨rfl, hnode⟩ | ⟨hrp, -, q₀, hq₀, hnode⟩
    · obtain rfl : nd' = nd₁ := Option.some.inj (hnode.symm.trans hnd₁)
      rw [h.child, move_children_new hlt]
      refine ⟨_, rfl, ?_⟩
      have hkeylen : onesBelow nd.vector key ≤ nodes.length := by
        rw [h.length_nodes]
        exact onesBelow_mono nd.vector h.key_lt.le
      rw [h.vector, countOneBit, onesBelow_setBit h.key_lt h.bit, decide_eq_true h.key_lt,
        Bool.toNat_true, newChildren, List.length_append, List.length_take, List.length_cons,
        List.length_drop, ← countOneBit, ← h.length_nodes]
      omega
    · obtain rfl := Option.some.inj (hnode.symm.trans hnd₁)
      have hzero : countOneBit 0#64 = 0 := by decide
      exact ⟨[], rfl, hzero.symm⟩
    · obtain ⟨kids, hkids, hlen⟩ := h.valid.children r q₀ nd₁ hq₀ (hnode.symm.trans hnd₁)
      obtain ⟨kids', hkids', hlen'⟩ := move_children_old q nd' (newChildren nd key x nodes)
        pointing leaves internals hkids fun hne heq =>
          hrp (h.valid.child_inj hq₀ (hnode.symm.trans hnd₁) h.place h.node hne heq.symm)
      exact ⟨kids', hkids', hlen'.trans hlen⟩
  · rcases h.node_cases pointing leaves internals hr with
      ⟨rfl, -, hnode⟩ | ⟨rfl, hnode⟩ | ⟨hrp, hrkey, q₀, hq₀, hnode⟩
    · refine ⟨key, ?_⟩
      have hbit : nd'.vector.getLsbD key = true := by
        rw [h.vector, BitVec.getLsbD_or, getLsbD_setBit h.key_lt, decide_eq_true rfl, Bool.or_true]
      rw [openPlace_child, if_pos rfl, Internal.childAt, if_pos hbit, h.child]
      exact Option.some_ne_none _
    · obtain rfl := Option.some.inj (hnode.symm.trans hnd₁)
      exact absurd rfl hne
    · obtain ⟨k, hk⟩ := h.valid.parent r q₀ nd₁ hq₀ (hnode.symm.trans hnd₁) hne
      refine ⟨k, ?_⟩
      rw [openPlace_child, if_neg hrp]
      exact hk
  · rw [openPlace_child] at hr
    split_ifs at hr with hrp
    · rw [Internal.childAt, h.child] at hr
      split_ifs at hr
      obtain rfl := Option.some.inj hr
      exact (Nat.zero_lt_of_lt hlt).ne'
    · exact h.valid.above r k q' hr
  · rw [openPlace_child] at hr hr'
    have hmoved {k : ℕ} {q₁ : NodePtr} (hk : nd'.childAt k = some q₁) : q₁.1 = s.arrays.length := by
      rw [Internal.childAt, h.child] at hk
      split_ifs at hk
      obtain rfl := Option.some.inj hk
      rfl
    have hstayed {r : List ℕ} {q₁ : NodePtr} (hk : place r = some q₁) :
        q₁.1 < s.arrays.length := by
      obtain ⟨nd₁, hnd₁, -⟩ := h.valid.shows r q₁ hk
      exact node_array_lt hnd₁
    split_ifs at hr hr' with hrp hrp' hrp'
    · rw [hrp, hrp']
    · have hnew := hmoved hr
      have hold := hstayed hr'
      omega
    · have hnew := hmoved hr'
      have hold := hstayed hr
      omega
    · exact h.valid.apart r r' k k' q₁ q₂ hr hr' harray

end Opening

end Open

end NetworkLab.Tries
