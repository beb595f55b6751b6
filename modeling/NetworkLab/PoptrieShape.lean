import NetworkLab.PoptrieLookup

/-!
# The shape of a node

Which slots of a node have leaves of their own must fit the slots that have children. Opening
a slot and rewriting the leaves keep this, whatever leaves they read.
-/
namespace NetworkLab.Tries

section Bits

variable {nd nd' : Internal} {key idx₀ : ℕ} {removed : Bool}

theorem eq_of_getLsbD_setBit {i j : ℕ} (h : (1#64 <<< i).getLsbD j = true) : j = i := by
  rw [BitVec.getLsbD_shiftLeft, BitVec.getLsbD_one] at h
  simp only [Bool.and_eq_true, decide_eq_true_eq, Bool.not_eq_true', decide_eq_false_iff_not] at h
  omega

theorem getLsbD_clearBit {i : ℕ} (hi : i < 64) (vec : BitVec 64) (j : ℕ) :
    (vec &&& ~~~(1#64 <<< i)).getLsbD j = true ↔ vec.getLsbD j = true ∧ j ≠ i := by
  rw [BitVec.getLsbD_and, BitVec.getLsbD_not, getLsbD_setBit hi]
  rcases Nat.lt_or_ge j 64 with hlt | hge
  · rw [decide_eq_true hlt]
    simp
  · rw [BitVec.getLsbD_of_ge vec j hge]
    simp

/-- The bit vectors are disjoint, and the first slot without a child has a leaf of its own. -/
structure Internal.Shaped (nd : Internal) : Prop where
  disjoint : ∀ i, nd.leafvec.getLsbD i = true → nd.vector.getLsbD i = false
  first : ∀ i < 64, nd.vector.getLsbD i = false → (∀ j < i, nd.vector.getLsbD j = true) →
    nd.leafvec.getLsbD i = true

/-- The slot loses its bit, and the next slot of its run may get it. -/
theorem release_leafvec (hkey : key < 64) (h : nd.release key idx₀ = some (nd', removed)) (j : ℕ) :
    nd'.leafvec.getLsbD j = true ↔ nd.leafvec.getLsbD j = true ∧ j ≠ key ∨
      nd.leafvec.getLsbD key = true ∧ nd.tail key = some j := by
  rw [Internal.release] at h
  split_ifs at h with hmark
  · cases htail : nd.tail key with
    | some i =>
      rw [htail] at h
      obtain ⟨rfl, -⟩ := Prod.mk.inj (Option.some.inj h)
      obtain ⟨-, hi, -⟩ := tail_eq_some hkey htail
      rw [BitVec.getLsbD_or, Bool.or_eq_true, getLsbD_clearBit hkey, getLsbD_setBit hi,
        decide_eq_true_eq, Option.some_inj]
      exact or_congr Iff.rfl ⟨fun heq => ⟨hmark, heq.symm⟩, fun heq => heq.2.symm⟩
    | none =>
      rw [htail] at h
      obtain ⟨before, -, h⟩ := Option.bind_eq_some_iff.mp h
      obtain ⟨after, -, h⟩ := Option.bind_eq_some_iff.mp h
      obtain ⟨rfl, -⟩ := Prod.mk.inj (Option.some.inj h)
      rw [getLsbD_clearBit hkey]
      exact (or_iff_left fun hno => Option.some_ne_none j hno.2.symm).symm
  · obtain ⟨rfl, -⟩ := Prod.mk.inj (Option.some.inj h)
    rw [getLsbD_clearBit hkey]
    exact (or_iff_left fun hno => hmark hno.1).symm

/-- A slot that is opened for a child leaves its run to the next slot. -/
theorem Internal.Shaped.release (h : nd.Shaped) (hkey : key < 64)
    (hbit : nd.vector.getLsbD key = false) (hrelease : nd.release key idx₀ = some (nd', removed)) :
    nd'.Shaped := by
  have hleafvec := release_leafvec hkey hrelease
  have hvector (i : ℕ) : nd'.vector.getLsbD i = (nd.vector.getLsbD i || decide (i = key)) := by
    have hlinks : nd'.vector = nd.vector ||| _ := congrArg Prod.fst (release_links hrelease)
    rw [hlinks, BitVec.getLsbD_or, getLsbD_setBit hkey]
  refine ⟨fun i hi => ?_, fun i hi hleaf hbefore => ?_⟩
  · rw [hvector]
    rcases (hleafvec i).mp hi with ⟨hmark, hne⟩ | ⟨-, htail⟩
    · rw [h.disjoint i hmark, decide_eq_false hne, Bool.or_false]
    · obtain ⟨hki, -, hnone, -⟩ := tail_eq_some hkey htail
      rw [hnone, decide_eq_false hki.ne', Bool.or_false]
  · rw [hvector, Bool.or_eq_false_iff, decide_eq_false_iff_not] at hleaf
    obtain ⟨hnone, hne⟩ := hleaf
    have hothers (j : ℕ) (hj : j < i) (hjk : j ≠ key) : nd.vector.getLsbD j = true := by
      have hb := hbefore j hj
      rwa [hvector, decide_eq_false hjk, Bool.or_false] at hb
    rw [hleafvec]
    rcases Nat.lt_or_gt_of_ne hne with hlt | hgt
    · exact .inl ⟨h.first i hi hnone fun j hj => hothers j hj (by omega), hne⟩
    -- The slot that has been opened was the first one, and `i` is the next.
    · have hmark := h.first key hkey hbit fun j hj => hothers j (by omega) hj.ne
      have hbetween (j : ℕ) (hkj : key < j) (hji : j < i) : nd.vector.getLsbD j = true :=
        hothers j hji hkj.ne'
      cases htail : nd.tail key with
      | none => exact .inl ⟨tail_eq_none hkey htail hgt hi hnone hbetween, hne⟩
      | some j =>
        obtain ⟨hkj, -, hnone', -, hbetween'⟩ := tail_eq_some hkey htail
        refine .inr ⟨hmark, congrArg some ?_⟩
        rcases Nat.lt_trichotomy j i with hlt | heq | hgt'
        · rw [hbetween j hkj hlt] at hnone'
          cases hnone'
        · exact heq
        · rw [hbetween' i hgt hgt'] at hnone
          cases hnone

end Bits

section Edits

variable {nd : Internal} {e e' : Edit} {new : Leaf} {key range i : ℕ}

/-- Bits have been added for slots without a child only. -/
structure Widened (nd : Internal) (e : Edit) : Prop where
  keeps : ∀ j, nd.leafvec.getLsbD j = true → e.leafvec.getLsbD j = true
  leaves : ∀ j, e.leafvec.getLsbD j = true →
    nd.leafvec.getLsbD j = true ∨ nd.vector.getLsbD j = false

theorem Widened.setBit (h : Widened nd e) (hi : nd.vector.getLsbD i = false)
    (he : e'.leafvec = e.leafvec ||| 1#64 <<< i) : Widened nd e' := by
  refine ⟨fun j hj => ?_, fun j hj => ?_⟩
  · rw [he, BitVec.getLsbD_or, h.keeps j hj, Bool.true_or]
  · rw [he, BitVec.getLsbD_or, Bool.or_eq_true] at hj
    rcases hj with hold | hnew
    · exact h.leaves j hold
    · exact .inr (eq_of_getLsbD_setBit hnew ▸ hi)

theorem Widened.congr (h : Widened nd e) (he : e'.leafvec = e.leafvec) : Widened nd e' :=
  ⟨fun j hj => he ▸ h.keeps j hj, fun j hj => h.leaves j (he ▸ hj)⟩

theorem Widened.editBefore (h : Widened nd e) (he : nd.editBefore e i = some e') :
    Widened nd e' := by
  rw [Internal.editBefore] at he
  split_ifs at he
  · obtain ⟨l, -, he⟩ := Option.bind_eq_some_iff.mp he
    exact h.congr (congrArg Edit.leafvec (Option.some.inj he)).symm
  · exact h.congr (congrArg Edit.leafvec (Option.some.inj he)).symm

theorem Widened.editRange (h : Widened nd e) (he : nd.editRange new e i = some e') :
    Widened nd e' := by
  rw [Internal.editRange] at he
  split_ifs at he with hleaf hmark
  · obtain ⟨e₁, he₁, he⟩ := Option.bind_eq_some_iff.mp he
    obtain ⟨l, -, rfl⟩ := Option.map_eq_some_iff.mp he₁
    rw [Bool.and_eq_true, Bool.not_eq_true'] at hleaf
    split_ifs at he
    · exact h.setBit hleaf.1 (congrArg Edit.leafvec (Option.some.inj he)).symm
    · exact h.congr (congrArg Edit.leafvec (Option.some.inj he)).symm
  · obtain ⟨e₁, he₁, he⟩ := Option.bind_eq_some_iff.mp he
    obtain rfl := Option.some.inj he₁
    rw [Bool.and_eq_true, Bool.not_eq_true'] at hleaf
    split_ifs at he
    · exact h.setBit hleaf.1 (congrArg Edit.leafvec (Option.some.inj he)).symm
    · exact h.congr (congrArg Edit.leafvec (Option.some.inj he)).symm
  · exact h.congr (congrArg Edit.leafvec (Option.some.inj he)).symm

theorem Widened.editAfter (h : Widened nd e) (he : nd.editAfter e i = some e') :
    Widened nd e' := by
  rw [Internal.editAfter] at he
  split_ifs at he with hbit hfirst hmark
  · exact h.congr (congrArg Edit.leafvec (Option.some.inj he)).symm
  · exact h.setBit (Bool.eq_false_of_not_eq_true hbit)
      (congrArg Edit.leafvec (Option.some.inj he)).symm
  · obtain ⟨l, -, he⟩ := Option.bind_eq_some_iff.mp he
    exact h.congr (congrArg Edit.leafvec (Option.some.inj he)).symm
  · exact h.congr (congrArg Edit.leafvec (Option.some.inj he)).symm

/-- What every step keeps a loop keeps. -/
theorem foldlM_keeps {σ α : Type} {f : σ → α → Option σ} {P : σ → Prop}
    (hstep : ∀ a b c, P a → f a b = some c → P c) {xs : List α} {a b : σ}
    (h : xs.foldlM f a = some b) (ha : P a) : P b := by
  induction xs generalizing a with
  | nil => exact Option.some.inj h ▸ ha
  | cons x xs ih =>
    obtain ⟨c, hc, h⟩ := Option.bind_eq_some_iff.mp h
    exact ih h (hstep a x c ha hc)

theorem widened_edit (h : nd.edit key range new = some e) : Widened nd e := by
  rw [Internal.edit] at h
  obtain ⟨e₁, h₁, h⟩ := Option.bind_eq_some_iff.mp h
  obtain ⟨e₂, h₂, h⟩ := Option.bind_eq_some_iff.mp h
  have hstart : Widened nd ⟨nd.leafvec, [], 0, true, ⟨0, 0⟩⟩ :=
    ⟨fun j hj => hj, fun j hj => .inl hj⟩
  have hbefore : Widened nd e₁ :=
    foldlM_keeps (fun _ _ _ ha hf => ha.editBefore hf) h₁ hstart
  have hrange : Widened nd e₂ :=
    foldlM_keeps (fun _ _ _ ha hf => ha.editRange hf) h₂ (hbefore.congr rfl)
  exact foldlM_keeps (fun _ _ _ ha hf => ha.editAfter hf) h (hrange.congr rfl)

theorem Internal.Shaped.edit (h : nd.Shaped) (he : nd.edit key range new = some e) :
    Internal.Shaped { nd with leafvec := e.leafvec, leaf := e.cache } := by
  have hwide := widened_edit he
  refine ⟨fun i hi => ?_, fun i hi hleaf hbefore => hwide.keeps i (h.first i hi hleaf hbefore)⟩
  rcases hwide.leaves i hi with hmark | hnone
  · exact h.disjoint i hmark
  · exact hnone

theorem foldlM_range'_keeps {σ : Type} {f : σ → ℕ → Option σ} {P : ℕ → σ → Prop} {start n : ℕ}
    (hstep : ∀ i a b, start ≤ i → i < start + n → P i a → f a i = some b → P (i + 1) b)
    {a b : σ} (h : (List.range' start n).foldlM f a = some b) (ha : P start a) :
    P (start + n) b := by
  induction n generalizing start a with
  | zero => exact Option.some.inj h ▸ ha
  | succ n ih =>
    obtain ⟨c, hc, h⟩ := Option.bind_eq_some_iff.mp h
    have hend := ih (fun i a b hi hlt => hstep i a b (by omega) (by omega)) h
      (hstep start a c le_rfl (by omega) ha hc)
    rwa [Nat.add_right_comm] at hend

/-- The loops go through the leaves one by one. -/
def Passed (nd : Internal) (i : ℕ) (e : Edit) : Prop := e.idx₀ = onesBelow nd.leafvec i

theorem Passed.of_mark (h : Passed nd i e) (hmark : nd.leafvec.getLsbD i = true)
    (he : e'.idx₀ = e.idx₀ + 1) : Passed nd (i + 1) e' := by
  rw [Passed, he, h, onesBelow, hmark, Bool.toNat_true]

theorem Passed.of_not_mark (h : Passed nd i e) (hmark : ¬nd.leafvec.getLsbD i = true)
    (he : e'.idx₀ = e.idx₀) : Passed nd (i + 1) e' := by
  rw [Passed, he, h, onesBelow, Bool.eq_false_of_not_eq_true hmark, Bool.toNat_false, Nat.add_zero]

theorem Passed.editBefore (hnd : nd.Shaped) (h : Passed nd i e)
    (he : nd.editBefore e i = some e') : Passed nd (i + 1) e' := by
  rw [Internal.editBefore] at he
  split_ifs at he with hleaf
  · obtain ⟨l, -, he⟩ := Option.bind_eq_some_iff.mp he
    exact h.of_mark (Bool.and_eq_true_iff.mp hleaf).2 (congrArg Edit.idx₀ (Option.some.inj he)).symm
  · refine h.of_not_mark (fun hmark => hleaf ?_) (congrArg Edit.idx₀ (Option.some.inj he)).symm
    rw [hmark, hnd.disjoint i hmark]
    rfl

theorem Passed.editRange (hnd : nd.Shaped) (h : Passed nd i e)
    (he : nd.editRange new e i = some e') : Passed nd (i + 1) e' := by
  rw [Internal.editRange] at he
  split_ifs at he with hleaf hmark
  · obtain ⟨e₁, he₁, he⟩ := Option.bind_eq_some_iff.mp he
    obtain ⟨l, -, rfl⟩ := Option.map_eq_some_iff.mp he₁
    refine h.of_mark hmark ?_
    split_ifs at he
    · exact (congrArg Edit.idx₀ (Option.some.inj he)).symm
    · exact (congrArg Edit.idx₀ (Option.some.inj he)).symm
  · obtain ⟨e₁, he₁, he⟩ := Option.bind_eq_some_iff.mp he
    obtain rfl := Option.some.inj he₁
    refine h.of_not_mark hmark ?_
    split_ifs at he
    · exact (congrArg Edit.idx₀ (Option.some.inj he)).symm
    · exact (congrArg Edit.idx₀ (Option.some.inj he)).symm
  · refine h.of_not_mark (fun hmark => hleaf ?_) (congrArg Edit.idx₀ (Option.some.inj he)).symm
    rw [hmark, hnd.disjoint i hmark, Bool.or_true]
    rfl

theorem Passed.editAfter (hnd : nd.Shaped) (h : Passed nd i e)
    (he : nd.editAfter e i = some e') : Passed nd (i + 1) e' := by
  rw [Internal.editAfter] at he
  split_ifs at he with hbit hfirst hmark
  · refine h.of_not_mark (fun hmark => ?_) (congrArg Edit.idx₀ (Option.some.inj he)).symm
    rw [hnd.disjoint i hmark] at hbit
    cases hbit
  · refine h.of_not_mark (fun hmark => ?_) (congrArg Edit.idx₀ (Option.some.inj he)).symm
    rw [hmark, Bool.not_true, Bool.and_false] at hfirst
    cases hfirst
  · obtain ⟨l, -, he⟩ := Option.bind_eq_some_iff.mp he
    exact h.of_mark hmark (congrArg Edit.idx₀ (Option.some.inj he)).symm
  · exact h.of_not_mark hmark (congrArg Edit.idx₀ (Option.some.inj he)).symm

/-- The loops have gone through all of the leaves. -/
theorem Internal.Shaped.edit_idx (hnd : nd.Shaped) (hrange : key + range ≤ 64)
    (h : nd.edit key range new = some e) : e.idx₀ = countOneBit nd.leafvec := by
  rw [Internal.edit] at h
  obtain ⟨e₁, h₁, h⟩ := Option.bind_eq_some_iff.mp h
  obtain ⟨e₂, h₂, h⟩ := Option.bind_eq_some_iff.mp h
  have hstart : Passed nd 0 ⟨nd.leafvec, [], 0, true, ⟨0, 0⟩⟩ := rfl
  have hbefore : Passed nd (0 + key) e₁ :=
    foldlM_range'_keeps (fun _ _ _ _ _ => Passed.editBefore hnd) h₁ hstart
  rw [Nat.zero_add] at hbefore
  have hwithin : Passed nd (key + range) e₂ :=
    foldlM_range'_keeps (fun _ _ _ _ _ => Passed.editRange hnd) h₂ hbefore
  have hafter : Passed nd (key + range + (64 - (key + range))) e :=
    foldlM_range'_keeps (fun _ _ _ _ _ => Passed.editAfter hnd) h hwithin
  rwa [Nat.add_sub_cancel' hrange] at hafter

end Edits

section Memory

variable {s s' t : Poptrie} {q : NodePtr} {nd nd' : Internal} {nodes : List Internal}
  {key level head : ℕ} {dest mask iface : UInt32}

/-- All nodes in memory are shaped. -/
def Poptrie.Shaped (s : Poptrie) : Prop :=
  ∀ b nodes, s.children (some b) = some nodes → ∀ nd ∈ nodes, nd.Shaped

/-- A new node has one leaf for all slots. -/
theorem shaped_new (x : Leaf) : Internal.Shaped ⟨1, 0, none, [x]⟩ := by
  refine ⟨fun i _ => BitVec.getLsbD_zero, fun i hi _ hbefore => ?_⟩
  rcases Nat.eq_zero_or_pos i with rfl | hpos
  · exact show (1#64).getLsbD 0 = true by decide
  · have hzero : (0#64).getLsbD 0 = true := hbefore 0 hpos
    rw [BitVec.getLsbD_zero] at hzero
    cases hzero

namespace Poptrie.Shaped

theorem children (h : s.Shaped) {child : Option ℕ} (hnodes : s.children child = some nodes) :
    ∀ nd ∈ nodes, nd.Shaped := by
  cases child with
  | none =>
    cases hnodes
    exact fun nd hnd => absurd hnd List.not_mem_nil
  | some b => exact h b nodes hnodes

theorem node (h : s.Shaped) (hnd : s.node q = some nd) : nd.Shaped := by
  rw [node_eq] at hnd
  obtain ⟨nodes, hnodes, hnd⟩ := Option.bind_eq_some_iff.mp hnd
  exact h q.1 nodes hnodes nd (List.mem_of_getElem? hnd)

theorem setNode (h : s.Shaped) (q : NodePtr) (hnd : nd.Shaped) : (s.setNode q nd).Shaped := by
  intro b nodes hnodes
  rw [children_setNode] at hnodes
  obtain ⟨nodes', hnodes', rfl⟩ := Option.map_eq_some_iff.mp hnodes
  have hold := h b nodes' hnodes'
  split_ifs
  · intro nd' hmem
    rcases List.mem_or_eq_of_mem_set hmem with hmem | rfl
    · exact hold nd' hmem
    · exact hnd
  · exact hold

theorem move (h : s.Shaped) (hnd : nd.Shaped) (hnodes : ∀ nd ∈ nodes, nd.Shaped) (q : NodePtr)
    (old : Option ℕ) (pointing : ℕ → Option NodePtr) (leaves internals : UInt32) :
    (s.move q nd old nodes pointing leaves internals).Shaped := by
  refine setNode (fun b nodes' hnodes' => ?_) q hnd
  rw [Poptrie.children, join_replaceArray] at hnodes'
  split_ifs at hnodes'
  · exact Option.some.inj hnodes' ▸ hnodes
  · exact h b nodes' hnodes'

theorem split (h : s.Shaped) (hnd : s.node q = some nd) (hkey : key < 64)
    (hbit : nd.vector.getLsbD key = false) (hs : s.split q key level head = some s') :
    s'.Shaped := by
  obtain ⟨nd₂, x, nd', removed, nodes, leaves, internals, hnd₂, hrelease, hnodes, rfl⟩ :=
    split_eq_move hs
  obtain rfl : nd = nd₂ := Option.some.inj (hnd.symm.trans hnd₂)
  have hreleased := (h.node hnd).release hkey hbit hrelease
  have hnew : Internal.Shaped { nd' with child := some s.arrays.length } :=
    ⟨hreleased.disjoint, hreleased.first⟩
  refine h.move hnew (fun nd'' hmem => ?_) _ _ _ _ _
  have hold := h.children hnodes
  rcases List.mem_append.mp hmem with hmem | hmem
  · exact hold nd'' (List.mem_of_mem_take hmem)
  · rcases List.mem_cons.mp hmem with rfl | hmem
    · exact shaped_new x
    · exact hold nd'' (List.mem_of_mem_drop (List.mem_of_mem_take hmem))

theorem descend {fuel : ℕ} {r : NodePtr × UInt32 × UInt32} (h : s.Shaped)
    (hs : Poptrie.descend head fuel s q level dest mask = some (s', r)) : s'.Shaped := by
  induction fuel generalizing s q level dest mask with
  | zero =>
    rw [Poptrie.descend] at hs
    split_ifs at hs
    obtain ⟨rfl, -⟩ := Prod.mk.inj (Option.some.inj hs)
    exact h
  | succ fuel ih =>
    by_cases hmask : mask ≤ 6
    · rw [Poptrie.descend, if_pos hmask] at hs
      obtain ⟨rfl, -⟩ := Prod.mk.inj (Option.some.inj hs)
      exact h
    · obtain ⟨nd, t, nd', child, hnd, ht, -, -, hs'⟩ := descend_round hmask hs
      refine ih ?_ hs'
      split_ifs at ht with hbit
      · exact Option.some.inj ht ▸ h
      · exact h.split hnd (keyOf_lt dest) (Bool.eq_false_of_not_eq_true hbit) ht

theorem putPoptrie (h : s.Shaped) (hs : s.putPoptrie dest mask iface = some s') : s'.Shaped := by
  obtain ⟨t, q, d, m, nd, e, ht, hnd, he, rfl⟩ := putPoptrie_steps hs
  have hreached : t.Shaped := by
    rw [Poptrie.reach] at ht
    split at ht
    · exact h.descend ht
    · exact h.descend ht
  exact hreached.setNode q ((hreached.node hnd).edit he)

/-- The leaves do not matter. -/
theorem of_same (h : s.Shaped) (hsame : s.Same Internal.bits t) : t.Shaped := by
  intro b nodes hnodes nd hmem
  obtain ⟨nodes', hnodes', hmap⟩ := hsame.symm.exists_children hnodes
  obtain ⟨nd', hmem', hbits⟩ := List.mem_map.mp (hmap ▸ List.mem_map_of_mem hmem)
  have hleafvec : nd'.leafvec = nd.leafvec := congrArg Prod.fst hbits
  have hvector : nd'.vector = nd.vector := congrArg (fun bits => bits.2.1) hbits
  have hshaped := h b nodes' hnodes' nd' hmem'
  exact ⟨hleafvec ▸ hvector ▸ hshaped.disjoint, hleafvec ▸ hvector ▸ hshaped.first⟩

end Poptrie.Shaped

end Memory

end NetworkLab.Tries
