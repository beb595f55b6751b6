import NetworkLab.PoptrieSpace
import Mathlib.Order.Interval.Finset.Nat

/-!
# The leaves that the nodes have

A node has a leaf for the first slot without a child from each bound of its prefixes on. When
shorter prefixes come first the trie depends on the set of the prefixes only, but for the
leaves themselves, and so does the space that it takes.
-/
namespace NetworkLab.Tries

section Nodes

variable {nd nd' : Internal} {bounds bounds' : ℕ → Prop} {slots : ℕ → Option Leaf} {x new : Leaf}
  {e : Edit} {key range idx₀ : ℕ} {removed : Bool}

/-- Leaves are marked for the first slots without a child from the bounds on. -/
def Internal.MarkedBy (nd : Internal) (bounds : ℕ → Prop) : Prop :=
  ∀ k < 64, nd.leafvec.getLsbD k = true ↔ nd.vector.getLsbD k = false ∧
    ∃ b ≤ k, bounds b ∧ ∀ i, b ≤ i → i < k → nd.vector.getLsbD i = true

theorem countOneBit_eq_card (vec : BitVec 64) :
    countOneBit vec = ((Finset.range 64).filter fun k => vec.getLsbD k = true).card := by
  have hbelow (n : ℕ) :
      onesBelow vec n = ((Finset.range n).filter fun k => vec.getLsbD k = true).card := by
    induction n with
    | zero => rfl
    | succ n ih =>
      rw [onesBelow, ih, Finset.range_add_one, Finset.filter_insert]
      cases hbit : vec.getLsbD n with
      | true =>
        have hn : n ∉ (Finset.range n).filter fun k => vec.getLsbD k = true := by simp
        rw [if_pos rfl, Finset.card_insert_of_notMem hn]
        rfl
      | false => rw [if_neg Bool.false_ne_true, Bool.toNat_false, Nat.add_zero]
  exact hbelow 64

theorem markedBy_new (h : ∀ b, bounds b ↔ b = 0) (x : Leaf) :
    Internal.MarkedBy ⟨1, 0, none, [x]⟩ bounds := by
  intro k hk
  have hzero (i : ℕ) : (0#64).getLsbD i = false := BitVec.getLsbD_zero
  have hone : (1#64).getLsbD k = true ↔ k = 0 := by
    rw [BitVec.getLsbD_one]
    simp
  show (1#64).getLsbD k = true ↔ (0#64).getLsbD k = false ∧
    ∃ b ≤ k, bounds b ∧ ∀ i, b ≤ i → i < k → (0#64).getLsbD i = true
  rw [hone]
  refine ⟨fun hk => ⟨hzero k, 0, Nat.zero_le k, (h 0).mpr rfl, fun i _ hik => ?_⟩,
    fun ⟨_, b, _, hb, hall⟩ => ?_⟩
  · omega
  · obtain rfl := (h b).mp hb
    by_contra hpos
    have hbit := hall 0 le_rfl (Nat.pos_of_ne_zero hpos)
    rw [hzero] at hbit
    cases hbit

/-- Opening a slot leaves its mark to the next one. -/
theorem Internal.MarkedBy.release (h : nd.MarkedBy bounds) (hkey : key < 64)
    (hbit : nd.vector.getLsbD key = false)
    (hrelease : nd.release key idx₀ = some (nd', removed)) : nd'.MarkedBy bounds := by
  have hleafvec := release_leafvec hkey hrelease
  have hvector (i : ℕ) : nd'.vector.getLsbD i = true ↔ nd.vector.getLsbD i = true ∨ i = key := by
    have hlinks : nd'.vector = nd.vector ||| _ := congrArg Prod.fst (release_links hrelease)
    rw [hlinks, BitVec.getLsbD_or, getLsbD_setBit hkey, Bool.or_eq_true, decide_eq_true_eq]
  have hfree (i : ℕ) : nd'.vector.getLsbD i = false ↔
      nd.vector.getLsbD i = false ∧ i ≠ key := by
    rw [← Bool.not_eq_true, hvector, not_or, Bool.not_eq_true]
  intro k hk
  rw [hleafvec, hfree]
  constructor
  · rintro (⟨hmark, hne⟩ | ⟨hmark, htail⟩)
    · obtain ⟨hnone, b, hbk, hb, hall⟩ := (h k hk).mp hmark
      exact ⟨⟨hnone, hne⟩, b, hbk, hb, fun i hbi hik => (hvector i).mpr (.inl (hall i hbi hik))⟩
    · obtain ⟨hkk, -, hnone, -, hbetween⟩ := tail_eq_some hkey htail
      obtain ⟨-, b, hbk, hb, hall⟩ := (h key hkey).mp hmark
      refine ⟨⟨hnone, hkk.ne'⟩, b, by omega, hb, fun i hbi hik => (hvector i).mpr ?_⟩
      rcases Nat.lt_trichotomy i key with hlt | heq | hgt
      · exact .inl (hall i hbi hlt)
      · exact .inr heq
      · exact .inl (hbetween i hgt hik)
  · rintro ⟨⟨hnone, hne⟩, b, hbk, hb, hall⟩
    have hothers (i : ℕ) (hbi : b ≤ i) (hik : i < k) (hi : i ≠ key) : nd.vector.getLsbD i = true :=
      ((hvector i).mp (hall i hbi hik)).resolve_right hi
    by_cases hcross : b ≤ key ∧ key < k
    -- The bound was that of the slot that has been opened.
    · have hmark := (h key hkey).mpr ⟨hbit, b, hcross.1, hb, fun i hbi hik =>
        hothers i hbi (by omega) hik.ne⟩
      cases htail : nd.tail key with
      | none =>
        exact .inl ⟨tail_eq_none hkey htail hcross.2 hk hnone fun i hki hik =>
          hothers i (by omega) hik hki.ne', hne⟩
      | some j =>
        obtain ⟨hkj, -, hnone', -, hbetween⟩ := tail_eq_some hkey htail
        refine .inr ⟨hmark, congrArg some ?_⟩
        rcases Nat.lt_trichotomy j k with hlt | heq | hgt
        · rw [hothers j (by omega) hlt hkj.ne'] at hnone'
          cases hnone'
        · exact heq
        · rw [hbetween k hcross.2 hgt] at hnone
          cases hnone
    · exact .inl ⟨(h k hk).mpr ⟨hnone, b, hbk, hb, fun i hbi hik =>
        hothers i hbi hik (by omega)⟩, hne⟩

end Nodes

section Edits

variable {nd : Internal} {slots : ℕ → Option Leaf} {new x : Leaf} {e e' : Edit}
  {key range start i : ℕ}

theorem getLsbD_or_setBit (vec : BitVec 64) (hi : i < 64) (j : ℕ) :
    (vec ||| 1#64 <<< i).getLsbD j = true ↔ vec.getLsbD j = true ∨ j = i := by
  rw [BitVec.getLsbD_or, getLsbD_setBit hi, Bool.or_eq_true, decide_eq_true_eq]

theorem editBefore_leafvec (h : nd.editBefore e i = some e') : e'.leafvec = e.leafvec := by
  rw [Internal.editBefore] at h
  split_ifs at h
  · obtain ⟨l, -, h⟩ := Option.bind_eq_some_iff.mp h
    exact (congrArg Edit.leafvec (Option.some.inj h)).symm
  · exact (congrArg Edit.leafvec (Option.some.inj h)).symm

/-- The first slot of the range has its own leaf from now on. -/
structure Begun (nd : Internal) (key : ℕ) (e : Edit) : Prop where
  first : e.first = false
  leafvec : ∀ j, e.leafvec.getLsbD j = true ↔ nd.leafvec.getLsbD j = true ∨ j = key

theorem begun_editRange (hnd : nd.Shows slots) (hkey : key < 64) (hx : slots key = some x)
    (hmask : x.mask ≤ new.mask) (hfirst : e.first = true) (hleafvec : e.leafvec = nd.leafvec)
    (hlast : LastSeen slots key e) (h : nd.editRange new e key = some e') : Begun nd key e' := by
  have hset (j : ℕ) : (e.leafvec ||| 1#64 <<< key).getLsbD j = true ↔
      nd.leafvec.getLsbD j = true ∨ j = key := by
    rw [hleafvec, getLsbD_or_setBit nd.leafvec hkey]
  rw [Internal.editRange, hnd.vector_of_some hkey hx, hfirst, Bool.true_or, Bool.not_false,
    Bool.and_true, if_pos rfl] at h
  obtain ⟨e₁, he₁, h⟩ := Option.bind_eq_some_iff.mp h
  cases hmark : nd.leafvec.getLsbD key with
  | true =>
    rw [hmark, if_pos rfl] at he₁
    obtain ⟨l, -, rfl⟩ := Option.map_eq_some_iff.mp he₁
    split_ifs at h
    · obtain rfl := Option.some.inj h
      exact ⟨rfl, hset⟩
    · obtain rfl := Option.some.inj h
      refine ⟨rfl, fun j => ?_⟩
      show e.leafvec.getLsbD j = true ↔ _
      rw [hleafvec]
      exact (or_iff_left_of_imp fun hj => hj ▸ hmark).symm
  | false =>
    rw [hmark, if_neg Bool.false_ne_true] at he₁
    obtain rfl := Option.some.inj he₁
    have hx' : e.last = x := hlast x (hnd.coded.carried key hkey x hx hmark)
    rw [if_pos (hx' ▸ hmask)] at h
    obtain rfl := Option.some.inj h
    exact ⟨rfl, hset⟩

theorem Begun.editRange (hi : i < 64) (h : Begun nd key e)
    (he : nd.editRange new e i = some e') : Begun nd key e' := by
  rw [Internal.editRange, h.first, Bool.false_or] at he
  split_ifs at he with hleaf hmark
  · obtain ⟨e₁, he₁, he⟩ := Option.bind_eq_some_iff.mp he
    obtain ⟨l, -, rfl⟩ := Option.map_eq_some_iff.mp he₁
    split_ifs at he
    · obtain rfl := Option.some.inj he
      refine ⟨rfl, fun j => ?_⟩
      rw [getLsbD_or_setBit e.leafvec hi, h.leafvec]
      exact or_iff_left_of_imp fun hj => .inl (hj ▸ hmark)
    · obtain rfl := Option.some.inj he
      exact ⟨rfl, h.leafvec⟩
  · rw [Bool.and_eq_true] at hleaf
    exact absurd hleaf.2 hmark
  · exact Option.some.inj he ▸ h

/-- The first slot without a child behind the range has its own leaf as soon as it is reached. -/
structure Ending (nd : Internal) (key start i : ℕ) (e : Edit) : Prop where
  first : e.first = true ↔ ∀ k, start ≤ k → k < i → nd.vector.getLsbD k = true
  leafvec : ∀ j, e.leafvec.getLsbD j = true ↔ (nd.leafvec.getLsbD j = true ∨ j = key) ∨
    (start ≤ j ∧ j < i ∧ nd.vector.getLsbD j = false ∧
      ∀ k, start ≤ k → k < j → nd.vector.getLsbD k = true)

theorem Ending.editAfter (h : Ending nd key start i e) (hstart : start ≤ i) (hi : i < 64)
    (he : nd.editAfter e i = some e') : Ending nd key start (i + 1) e' := by
  rw [Internal.editAfter] at he
  cases hbit : nd.vector.getLsbD i with
  | true =>
    rw [hbit, if_pos rfl] at he
    obtain rfl := Option.some.inj he
    refine ⟨h.first.trans ⟨fun hall k hk hki => ?_, fun hall k hk hki => hall k hk (by omega)⟩,
      fun j => ?_⟩
    · rcases Nat.lt_succ_iff_lt_or_eq.mp hki with hlt | rfl
      · exact hall k hk hlt
      · exact hbit
    · rw [h.leafvec]
      refine or_congr_right ?_
      constructor
      · rintro ⟨hj, hji, hrest⟩
        exact ⟨hj, by omega, hrest⟩
      · rintro ⟨hj, hji, hnone, hall⟩
        rcases Nat.lt_succ_iff_lt_or_eq.mp hji with hlt | rfl
        · exact ⟨hj, hlt, hnone, hall⟩
        · rw [hbit] at hnone
          cases hnone
  | false =>
    -- The slot has no child, so that no later one is the first.
    have hfirst (hf : e'.first = false) :
        e'.first = true ↔ ∀ k, start ≤ k → k < i + 1 → nd.vector.getLsbD k = true := by
      rw [hf]
      refine iff_of_false Bool.false_ne_true fun hall => ?_
      rw [hall i hstart (Nat.lt_succ_self i)] at hbit
      cases hbit
    have hnext (j : ℕ) : (start ≤ j ∧ j < i + 1 ∧ nd.vector.getLsbD j = false ∧
        ∀ k, start ≤ k → k < j → nd.vector.getLsbD k = true) ↔
        (start ≤ j ∧ j < i ∧ nd.vector.getLsbD j = false ∧
          ∀ k, start ≤ k → k < j → nd.vector.getLsbD k = true) ∨ (j = i ∧ e.first = true) := by
      rw [h.first]
      constructor
      · rintro ⟨hj, hji, hnone, hall⟩
        rcases Nat.lt_succ_iff_lt_or_eq.mp hji with hlt | rfl
        · exact .inl ⟨hj, hlt, hnone, hall⟩
        · exact .inr ⟨rfl, hall⟩
      · rintro (⟨hj, hji, hrest⟩ | ⟨rfl, hall⟩)
        · exact ⟨hj, by omega, hrest⟩
        · exact ⟨hstart, Nat.lt_succ_self j, hbit, hall⟩
    rw [hbit, if_neg Bool.false_ne_true] at he
    split_ifs at he with hopen hmark
    · obtain rfl := Option.some.inj he
      rw [Bool.and_eq_true] at hopen
      refine ⟨hfirst rfl, fun j => ?_⟩
      rw [getLsbD_or_setBit e.leafvec hi, h.leafvec, hnext, hopen.1, or_assoc]
      simp only [and_true]
    · obtain ⟨l, -, he⟩ := Option.bind_eq_some_iff.mp he
      obtain rfl := Option.some.inj he
      refine ⟨hfirst rfl, fun j => ?_⟩
      rw [h.leafvec, hnext, ← or_assoc]
      refine (or_iff_left_of_imp fun hj => ?_).symm
      exact .inl (.inl (hj.1 ▸ hmark))
    · obtain rfl := Option.some.inj he
      refine ⟨hfirst rfl, fun j => ?_⟩
      rw [Bool.eq_false_of_not_eq_true hmark, Bool.not_false, Bool.and_true] at hopen
      rw [h.leafvec, hnext, ← or_assoc]
      exact (or_iff_left fun hj => hopen hj.2).symm

/-- Writing a range without children marks its first slot and the next one behind it. -/
theorem edit_leafvec (hnd : nd.Shows slots) (hrange : key + range ≤ 64) (hpos : 0 < range)
    (hx : slots key = some x) (hmask : x.mask ≤ new.mask)
    (h : nd.edit key range new = some e) (j : ℕ) (hj : j < 64) :
    e.leafvec.getLsbD j = true ↔ (nd.leafvec.getLsbD j = true ∨ j = key) ∨
      (key + range ≤ j ∧ nd.vector.getLsbD j = false ∧
        ∀ k, key + range ≤ k → k < j → nd.vector.getLsbD k = true) := by
  rw [Internal.edit] at h
  obtain ⟨e₁, h₁, h⟩ := Option.bind_eq_some_iff.mp h
  obtain ⟨e₂, h₂, h⟩ := Option.bind_eq_some_iff.mp h
  obtain ⟨e₁', h₁', -, hlast⟩ := hnd.editBefore range new (show key ≤ 64 by omega)
  obtain rfl := Option.some.inj (h₁.symm.trans h₁')
  have hleafvec : e₁.leafvec = nd.leafvec :=
    foldlM_keeps (P := fun e => e.leafvec = nd.leafvec)
      (fun _ _ _ he hf => (editBefore_leafvec hf).trans he) h₁ rfl
  obtain ⟨n, rfl⟩ : ∃ n, range = n + 1 := ⟨range - 1, by omega⟩
  rw [List.range'_succ, List.foldlM_cons] at h₂
  obtain ⟨e₃, h₃, h₂⟩ := Option.bind_eq_some_iff.mp h₂
  have hbegun := begun_editRange (e := { e₁ with first := true }) hnd (by omega) hx hmask rfl
    hleafvec hlast h₃
  have hend : Begun nd key e₂ :=
    foldlM_range'_keeps (P := fun _ => Begun nd key)
      (fun i _ _ _ hi => Begun.editRange (show i < 64 by omega)) h₂ hbegun
  have hstart : Ending nd key (key + (n + 1)) (key + (n + 1)) { e₂ with first := !e₂.first } := by
    refine ⟨iff_of_true ?_ fun k hk hki => by omega, fun j => ?_⟩
    · rw [hend.first]
      rfl
    · rw [← hend.leafvec]
      exact (or_iff_left fun hj => by omega).symm
  have hafter := foldlM_range'_keeps (P := Ending nd key (key + (n + 1)))
    (fun i _ _ hi hlt he => he.editAfter hi (by omega)) h hstart
  rw [Nat.add_sub_cancel' hrange] at hafter
  rw [hafter.leafvec]
  refine or_congr_right ?_
  constructor
  · rintro ⟨hkj, -, hrest⟩
    exact ⟨hkj, hrest⟩
  · rintro ⟨hkj, hrest⟩
    exact ⟨hkj, hj, hrest⟩

theorem Internal.MarkedBy.edit {bounds bounds' : ℕ → Prop} (h : nd.MarkedBy bounds)
    (hnd : nd.Shows slots) (hrange : key + range ≤ 64) (hpos : 0 < range)
    (hx : slots key = some x) (hmask : x.mask ≤ new.mask) (he : nd.edit key range new = some e)
    (hbounds : ∀ b, bounds' b ↔ bounds b ∨ b = key ∨ b = key + range) :
    Internal.MarkedBy { nd with leafvec := e.leafvec, leaf := e.cache } bounds' := by
  have hbit := hnd.vector_of_some (show key < 64 by omega) hx
  intro k hk
  rw [edit_leafvec hnd hrange hpos hx hmask he k hk, h k hk]
  constructor
  · rintro ((⟨hnone, b, hbk, hb, hall⟩ | rfl) | ⟨hle, hnone, hall⟩)
    · exact ⟨hnone, b, hbk, (hbounds b).mpr (.inl hb), hall⟩
    · exact ⟨hbit, k, le_rfl, (hbounds k).mpr (.inr (.inl rfl)), fun i hki hik => by omega⟩
    · exact ⟨hnone, key + range, hle, (hbounds _).mpr (.inr (.inr rfl)), hall⟩
  · rintro ⟨hnone, b, hbk, hb, hall⟩
    rcases (hbounds b).mp hb with hold | rfl | rfl
    · exact .inl (.inl ⟨hnone, b, hbk, hold, hall⟩)
    · refine .inl (.inr ?_)
      by_contra hne
      have hchild := hall b le_rfl (by omega)
      rw [show nd.vector.getLsbD b = false from hbit] at hchild
      cases hchild
    · exact .inr ⟨hbk, hnone, hall⟩

theorem Internal.MarkedBy.congr {bounds bounds' : ℕ → Prop} (h : nd.MarkedBy bounds)
    (hbounds : ∀ b, bounds' b ↔ bounds b) : nd.MarkedBy bounds' := by
  rwa [funext fun b => propext (hbounds b)]

end Edits

section Memory

variable {s t : Poptrie} {bounds bounds' : List ℕ → ℕ → Prop} {f : (ℕ → ℕ) → ℕ × Leaf}
  {p : Insertion}

/-- All nodes are marked by these bounds, and only nodes have bounds that are not zero. -/
structure Poptrie.Marked (s : Poptrie) (bounds : List ℕ → ℕ → Prop) : Prop where
  zero : ∀ r, bounds r 0
  nodes : ∀ r b, bounds r b → b ≠ 0 → s.nodeAt r ≠ none
  marks : ∀ r q nd, s.nodeAt r = some q → s.node q = some nd → nd.MarkedBy (bounds r)

theorem keptBySplits_marked (bounds : List ℕ → ℕ → Prop) :
    KeptBySplits fun s => s.Marked bounds := by
  intro s t place slots p q nd key x head h hp hnd hkey hx hhead ht hm
  obtain ⟨nd₁, nd', removed, nodes, pointing, hrelease, rfl, -, hopening, hpoint, hsplit⟩ :=
    h.split_opening hp hnd hkey hx hhead
  obtain rfl := Option.some.inj (hsplit.symm.trans ht)
  have hvalid := hopening.opened ((if removed then s.counterLeaf - 1 else s.counterLeaf) + 1)
    (s.counterInternal + 1) hpoint
  refine ⟨hm.zero, fun r b hb hne => ?_, fun r q' nd₂ hr hnd₂ => ?_⟩
  · rw [← hvalid.place_eq]
    by_cases hr : r = p ++ [key]
    · exact hr ▸ hopening.place_new
    · rw [hopening.place_iff hr, h.place_eq]
      exact hm.nodes r b hb hne
  · rw [← hvalid.place_eq] at hr
    rcases hopening.node_cases pointing _ _ hr with
      ⟨rfl, -, hnode⟩ | ⟨rfl, hnode⟩ | ⟨-, -, q₀, hq₀, hnode⟩
    · obtain rfl := Option.some.inj (hnd₂.symm.trans hnode)
      have hreleased : nd₁.MarkedBy (bounds r) :=
        (hm.marks r q nd (h.place_eq r ▸ hp) hnd).release hkey hopening.bit hrelease
      exact hreleased
    · obtain rfl := Option.some.inj (hnd₂.symm.trans hnode)
      refine markedBy_new (fun b => ⟨fun hb => ?_, fun hb => hb ▸ hm.zero _⟩) x
      by_contra hne
      exact hm.nodes _ b hb hne (h.place_eq _ ▸ hopening.no_child)
    · exact hm.marks r q₀ nd₂ (h.place_eq r ▸ hq₀) (hnode.symm.trans hnd₂)

/-- An insertion that meets no longer prefix at its first slot marks its bounds. -/
theorem Looks.put_marked (h : Looks s f) (hp : p.Proper) (hdepth : (f p.keys).1 ≤ p.level)
    (hmask : (f p.keys).2.mask ≤ p.mask) (hm : s.Marked bounds)
    (hbounds : ∀ r b, bounds' r b ↔ bounds r b ∨ (path p.keys p.level = r ∧
      (b = p.keys p.level ∨ b = p.keys p.level + range p.mask)))
    (ht : s.putPoptrie p.dest p.mask p.iface = some t) : t.Marked bounds' := by
  obtain ⟨place, slots, hvalid, hfinds⟩ := h
  have hf := fun x hx => (hfinds x hx).2
  obtain ⟨u, place', slots', q, r, nd, e, hu, hvalid', hq, hf', hnd, hshows, he, rfl⟩ :=
    hvalid.put_steps hp.one_le hf ht
  change place' (path p.keys p.level) = some q at hq
  change ∀ x, (∀ i, x i < 64) → Finds slots' x (max (f x).1 (common x p.keys p.level)) (f x).2
    at hf'
  have hm' := hvalid.reach_keeps (keptBySplits_marked bounds) _ hf hm hu
  have hkeys : ∀ i, p.keys i < 64 := keys_lt _
  have hslot : slots' (path p.keys p.level) (p.keys p.level) = some (f p.keys).2 := by
    have hend := (hf' p.keys hkeys).2
    have hcommon := (le_common_iff (le_refl p.level)).mpr fun i _ => rfl (a := p.keys i)
    rwa [le_antisymm (common_le _ _ _) hcommon, Nat.max_eq_right hdepth] at hend
  set nd' : Internal := { nd with leafvec := e.leafvec, leaf := e.cache }
  have hvector : nd'.vector = nd.vector := rfl
  have hchild : nd'.child = nd.child := rfl
  have hat (r : List ℕ) : (u.setNode q nd').nodeAt r = u.nodeAt r :=
    nodeAt_setNode hnd hvector hchild r
  refine ⟨fun r => (hbounds r 0).mpr (.inl (hm'.zero r)), fun r b hb hne => ?_,
    fun r q' nd₂ hr hnd₂ => ?_⟩
  · show (u.setNode q nd').nodeAt r ≠ none
    rw [hat]
    rcases (hbounds r b).mp hb with hold | ⟨rfl, -⟩
    · exact hm'.nodes r b hold hne
    · rw [← hvalid'.place_eq, hq]
      exact Option.some_ne_none q
  · have hnode : (u.setNode q nd').node q' = if q' = q then some nd' else u.node q' :=
      node_setNode hnd q'
    have hnd₂' : (u.setNode q nd').node q' = some nd₂ := hnd₂
    have hr' : u.nodeAt r = some q' := (hat r).symm.trans hr
    rw [hnode] at hnd₂'
    split_ifs at hnd₂' with heq
    · obtain rfl := Option.some.inj hnd₂'
      obtain rfl := hvalid'.place_inj hq ((hvalid'.place_eq r).trans (heq ▸ hr'))
      refine (hm'.marks _ q nd (heq ▸ hr') hnd).edit hshows (range_le hp.one_le hp.le_32 p.dest)
        (Nat.two_pow_pos _) hslot hmask he fun b => ?_
      rw [hbounds]
      exact or_congr_right (and_iff_right rfl)
    · have hne : path p.keys p.level ≠ r := by
        rintro rfl
        rw [← hvalid'.place_eq, hq] at hr'
        exact heq (Option.some.inj hr').symm
      refine (hm'.marks r q' nd₂ hr' hnd₂').congr fun b => ?_
      rw [hbounds]
      exact or_iff_left fun hboth => hne hboth.1

end Memory

section Sizes

/-- The paths of the nodes that a set of prefixes needs: the first keys of the prefixes. -/
def nodePaths (ps : List Insertion) : Finset (List ℕ) :=
  ([] :: ps.flatMap fun p => (List.range (p.level + 1)).map (path p.keys)).toFinset

/-- The first slots, and the slots behind the last ones, of the prefixes that end in a node. -/
def bounds (ps : List Insertion) (r : List ℕ) : List ℕ :=
  0 :: (ps.filter fun p => path p.keys p.level = r).flatMap fun p =>
    [p.keys p.level, p.keys p.level + range p.mask]

/-- The slots of a node that have leaves of their own: the first ones without a child from the
bounds on. -/
def leafSlots (ps : List Insertion) (r : List ℕ) : Finset ℕ :=
  (Finset.range 64).filter fun k => r ++ [k] ∉ nodePaths ps ∧
    ∃ b ∈ bounds ps r, b ≤ k ∧ ∀ i ∈ Finset.Ico b k, r ++ [i] ∈ nodePaths ps

/-- The bytes that the trie of these prefixes takes. -/
def spaceOf (ps : List Insertion) : ℕ :=
  (∑ r ∈ nodePaths ps, (leafSlots ps r).card) * 8 + (nodePaths ps).card * 32

variable {s : Poptrie} {ps qs : List Insertion} {p : Insertion} {r : List ℕ} {b k : ℕ}
  {q : NodePtr} {F : Finset (List ℕ)}

theorem mem_nodePaths : r ∈ nodePaths ps ↔ r = [] ∨ ∃ p ∈ ps, ∃ n ≤ p.level, path p.keys n = r := by
  simp only [nodePaths, List.mem_toFinset, List.mem_cons, List.mem_flatMap, List.mem_map,
    List.mem_range, Nat.lt_succ_iff]

theorem mem_bounds : b ∈ bounds ps r ↔ b = 0 ∨ ∃ p ∈ ps, path p.keys p.level = r ∧
    (b = p.keys p.level ∨ b = p.keys p.level + range p.mask) := by
  simp only [bounds, List.mem_cons, List.mem_flatMap, List.mem_filter, decide_eq_true_eq,
    List.not_mem_nil, or_false, and_assoc]

theorem mem_bounds_append : b ∈ bounds (ps ++ [p]) r ↔ b ∈ bounds ps r ∨
    (path p.keys p.level = r ∧ (b = p.keys p.level ∨ b = p.keys p.level + range p.mask)) := by
  rw [mem_bounds, mem_bounds, or_assoc]
  simp only [List.mem_append, List.mem_singleton, or_and_right, exists_or, exists_eq_left]

/-- The nodes of the trie are those on the ways of the prefixes. -/
theorem Looks.nodeAt_ne_none_iff (h : Looks s (outcome ps)) (hps : ∀ p ∈ ps, p.Proper) :
    s.nodeAt r ≠ none ↔ r ∈ nodePaths ps := by
  obtain ⟨place, slots, hvalid, hfinds⟩ := h
  rw [← hvalid.place_eq, mem_nodePaths]
  constructor
  · intro hr
    obtain ⟨x, hx, hpath⟩ := hvalid.exists_keys hr
    rcases List.eq_nil_or_concat r with rfl | ⟨r', k, hconcat⟩
    · exact .inl rfl
    · have hpos : 1 ≤ r.length := by
        rw [hconcat, List.length_concat]
        exact Nat.succ_pos _
      have hdeep : r.length ≤ (outcome ps x).1 := by
        by_contra hlt
        have hnone := hvalid.none_of_place hx (hpath.symm ▸ hr) _ (not_le.mp hlt)
        rw [(hfinds x hx).2.2] at hnone
        cases hnone
      obtain ⟨p, hp, hlevel, hagree⟩ := (le_outcome_iff hpos ps x).mp hdeep
      exact .inr ⟨p, hp, _, hlevel, (path_eq_iff.mpr hagree).symm.trans hpath⟩
  · rintro (rfl | ⟨p, hp, n, hn, rfl⟩)
    · rw [hvalid.root]
      exact Option.some_ne_none _
    · have hkeys : ∀ i, p.keys i < 64 := keys_lt _
      have hpass : p.Passes p.keys :=
        ((hps p hp).passes_iff _).mpr (hps p hp).covers_masked
      exact hvalid.placed hkeys (hfinds _ hkeys).2 (hn.trans (level_le_outcome hp hpass))

/-- A slot of a node has a child when the path goes on. -/
theorem Looks.vector_eq (h : Looks s (outcome ps)) (hps : ∀ p ∈ ps, p.Proper)
    (hq : s.nodeAt r = some q) {nd : Internal} (hnd : s.node q = some nd) (hk : k < 64) :
    nd.vector.getLsbD k = true ↔ r ++ [k] ∈ nodePaths ps := by
  rw [← h.nodeAt_ne_none_iff hps]
  obtain ⟨place, slots, hvalid, -⟩ := h
  rw [← hvalid.place_eq] at hq
  obtain ⟨nd₀, hnd₀, hshows⟩ := hvalid.shows r q hq
  obtain rfl := Option.some.inj (hnd.symm.trans hnd₀)
  rw [← hvalid.place_eq, hvalid.place_isSome_iff hq hk, hshows.vector k hk,
    Option.isNone_iff_eq_none]

/-- A node has as many leaves as slots with leaves of their own. -/
theorem Looks.leavesAt_eq (h : Looks s (outcome ps)) (hps : ∀ p ∈ ps, p.Proper)
    (hm : s.Marked fun r b => b ∈ bounds ps r) (hr : r ∈ nodePaths ps) :
    s.leavesAt r = (leafSlots ps r).card := by
  obtain ⟨q, hq⟩ := Option.ne_none_iff_exists'.mp ((h.nodeAt_ne_none_iff hps).mpr hr)
  have hvector {nd : Internal} (hnd : s.node q = some nd) {k : ℕ} (hk : k < 64) :=
    h.vector_eq hps hq hnd hk
  obtain ⟨place, slots, hvalid, -⟩ := h
  have hplace : place r = some q := (hvalid.place_eq r).trans hq
  obtain ⟨nd, hnd, hshows⟩ := hvalid.shows r q hplace
  rw [hvalid.leavesAt_eq hplace hnd, ← onesBelow_eq_length hshows.coded]
  refine (countOneBit_eq_card nd.leafvec).trans (congrArg Finset.card ?_)
  refine Finset.filter_congr fun k hk => ?_
  have hk' := Finset.mem_range.mp hk
  rw [hm.marks r q nd hq hnd k hk', ← hvector hnd hk', Bool.not_eq_true]
  refine and_congr_right fun _ => exists_congr fun b => ?_
  constructor
  · rintro ⟨hbk, hb, hall⟩
    refine ⟨hb, hbk, fun i hi => ?_⟩
    obtain ⟨hbi, hik⟩ := Finset.mem_Ico.mp hi
    exact (hvector hnd (hik.trans hk')).mp (hall i hbi hik)
  · rintro ⟨hb, hbk, hall⟩
    exact ⟨hbk, hb, fun i hbi hik =>
      (hvector hnd (hik.trans hk')).mpr (hall i (Finset.mem_Ico.mpr ⟨hbi, hik⟩))⟩

/-- The space that the trie takes depends on the set of prefixes only. -/
theorem Looks.space_eq (h : Looks s (outcome ps)) (hps : ∀ p ∈ ps, p.Proper) (hc : s.Counted F)
    (hm : s.Marked fun r b => b ∈ bounds ps r) : s.space = spaceOf ps := by
  have hF : F = nodePaths ps :=
    Finset.ext fun r => (hc.mem_iff r).trans (h.nodeAt_ne_none_iff hps)
  have hleaves : ∑ r ∈ F, s.leavesAt r = ∑ r ∈ nodePaths ps, (leafSlots ps r).card := by
    rw [hF]
    exact Finset.sum_congr rfl fun r hr => h.leavesAt_eq hps hm hr
  obtain ⟨place, slots, hvalid, -⟩ := h
  obtain ⟨-, hinternal, hleaf⟩ := hvalid.counted_reaches hc
  rw [Poptrie.space, hinternal, hleaf, hleaves, hF, spaceOf]

/-- The counters are right unless the space does not fit into 32 bits. -/
theorem Looks.accounts_iff {f : (ℕ → ℕ) → ℕ × Leaf} (h : Looks s f) (hc : s.Counted F) :
    s.Accounts ↔ s.space < 2 ^ 32 := by
  constructor
  · intro hacc
    rw [← hacc.space]
    exact UInt32.toNat_lt _
  · intro hlt
    obtain ⟨place, slots, hvalid, -⟩ := h
    obtain ⟨hfinite, hinternal, hleaf⟩ := hvalid.counted_reaches hc
    have hfits : s.countLeaf * 8 + s.countInternal * 32 < 2 ^ 32 := hlt
    have hcountI : s.counterInternal.toNat = s.countInternal := by
      rw [hc.internal, hinternal]
      exact UInt32.toNat_ofNat_of_lt' (show F.card < 2 ^ 32 by omega)
    have hcountL : s.counterLeaf.toNat = s.countLeaf := by
      rw [hc.leaf, hleaf]
      exact UInt32.toNat_ofNat_of_lt' (show ∑ p ∈ F, s.leavesAt p < 2 ^ 32 by omega)
    refine ⟨hfinite, hcountI, hcountL, ?_⟩
    rw [Poptrie.calcSpacePoptrie, hcountI, hcountL, UInt32.toNat_ofNat_of_lt' hfits]
    rfl

end Sizes

section Runs

theorem marked_init : initRootPoptrie.Marked fun r b => b ∈ bounds [] r := by
  have hbounds (r : List ℕ) (b : ℕ) : b ∈ bounds [] r ↔ b = 0 := List.mem_singleton
  refine ⟨fun r => (hbounds r 0).mpr rfl, fun r b hb hne => absurd ((hbounds r b).mp hb) hne,
    fun r q nd hr hnd => ?_⟩
  rw [nodeAt_init] at hr
  split_ifs at hr
  obtain rfl := Option.some.inj hr
  have hnode : initRootPoptrie.node root = some ⟨1, 0, none, [⟨0, 0⟩]⟩ := rfl
  obtain rfl := Option.some.inj (hnode.symm.trans hnd)
  exact markedBy_new (hbounds r) ⟨0, 0⟩

/-- Every insertion of a run counts what it adds and marks its bounds. -/
theorem ShorterFirst.counted {ps : List Insertion} (h : ShorterFirst ps)
    (hps : ∀ p ∈ ps, p.Proper) : ∃ s, initRootPoptrie.putAll ps = some s ∧
      Looks s (outcome ps) ∧ (∃ F, s.Counted F) ∧ s.Marked fun r b => b ∈ bounds ps r := by
  induction ps using List.reverseRecOn with
  | nil => exact ⟨initRootPoptrie, rfl, looks_init, ⟨{[]}, counted_init⟩, marked_init⟩
  | append_singleton ps p ih =>
    have hold : ∀ q ∈ ps, q.Proper := fun q hq => hps q (List.mem_append_left _ hq)
    obtain ⟨s, hs, hlooks, hc, hm⟩ := ih (h.of_prefix (List.prefix_append ps [p])) hold
    obtain ⟨t, ht, hlooks'⟩ := h.looks hps
    have hp := hps p List.mem_concat_self
    have hput : s.putPoptrie p.dest p.mask p.iface = some t := by
      rwa [Poptrie.putAll_append, hs, Option.bind_some] at ht
    have hpass : p.Passes p.keys := (hp.passes_iff _).mpr hp.covers_masked
    have hdepth := h.depth_le hps hpass
    have hmask : (outcome ps p.keys).2.mask ≤ p.mask := by
      refine mask_le_of_not_overlays hold hp (keys_lt _) ?_ hpass hdepth
      rintro ⟨q, hq, -, hlt, hcovers, -⟩
      exact h.not_covers hq ⟨hlt, hcovers⟩
    exact ⟨t, ht, hlooks', hlooks.put_counted hp.one_le hp.le_32 hc hput,
      hlooks.put_marked hp hdepth hmask hm (fun r b => mem_bounds_append) hput⟩

/-- In a run in which no prefix comes after a longer one that it covers, the counters are those
of the nodes in the trie, and the space is right, unless this is too large for 32 bits. -/
theorem space_accounted (ps : List Insertion) (hps : ∀ p ∈ ps, 1 ≤ p.mask ∧ p.mask ≤ 32)
    (horder : ps.Pairwise fun q p => ¬(p.mask < q.mask ∧ p.Covers q.dest)) :
    ∃ s, initRootPoptrie.putAll ps = some s ∧ (s.Accounts ↔ spaceOf ps < 2 ^ 32) := by
  have hfirst : ShorterFirst ps := horder
  obtain ⟨s, hs, hlooks, ⟨F, hc⟩, hm⟩ := hfirst.counted hps
  refine ⟨s, hs, ?_⟩
  rw [hlooks.accounts_iff hc, hlooks.space_eq hps hc hm]

theorem space_accounted_nested :
    ∃ s, initRootPoptrie.putAll [⟨0x0a000000, 8, 1⟩, ⟨0x0a010000, 16, 2⟩] = some s ∧
      s.Accounts := by
  obtain ⟨s, hs, hiff⟩ :=
    space_accounted [⟨0x0a000000, 8, 1⟩, ⟨0x0a010000, 16, 2⟩] (by decide) (by decide)
  exact ⟨s, hs, hiff.mpr (by decide +kernel)⟩

/-- The addresses with distance 32. -/
def hosts (n : ℕ) : List Insertion := (List.range n).map fun d => ⟨UInt32.ofNat (d * 32), 32, 1⟩

theorem mask_of_mem_hosts {n : ℕ} {p : Insertion} (hp : p ∈ hosts n) : p.mask = 32 := by
  obtain ⟨d, -, rfl⟩ := List.mem_map.mp hp
  rfl

/-- Each of them needs a node of its own on the last level. -/
theorem card_nodePaths_hosts {n : ℕ} (hn : n ≤ 2 ^ 27) : n ≤ (nodePaths (hosts n)).card := by
  have haddr {d : ℕ} (hd : d < n) : (masked (UInt32.ofNat (d * 32)) 32).toNat = d * 32 := by
    have hzero : 32 - (32 : UInt32).toNat = 0 := rfl
    rw [toNat_masked (by decide) (by decide), hzero, pow_zero, Nat.div_one, mul_one]
    exact UInt32.toNat_ofNat_of_lt' (show d * 32 < 2 ^ 32 by omega)
  have hcard := Finset.card_le_card_of_injOn (s := Finset.range n) (t := nodePaths (hosts n))
    (fun d => path (Insertion.keys ⟨UInt32.ofNat (d * 32), 32, 1⟩) 5) (fun d hd => ?_)
    fun d hd d' hd' heq => ?_
  · rwa [Finset.card_range] at hcard
  · refine mem_nodePaths.mpr (.inr ⟨_, List.mem_map_of_mem (List.mem_range.mpr ?_), 5, ?_, rfl⟩)
    · exact Finset.mem_range.mp hd
    · show 5 ≤ level 32
      decide
  · have htop := (topKeys_eq_iff (show 5 ≤ 6 by decide)).mpr (path_eq_iff.mp heq)
    rw [topKeys, topKeys, haddr (Finset.mem_range.mp hd), haddr (Finset.mem_range.mp hd')] at htop
    omega

/-- With so many addresses the space no longer fits into 32 bits. -/
theorem space_not_accounted : (∀ p ∈ hosts (2 ^ 27), 1 ≤ p.mask ∧ p.mask ≤ 32) ∧
    ((hosts (2 ^ 27)).Pairwise fun q p => ¬(p.mask < q.mask ∧ p.Covers q.dest)) ∧
    ∃ s, initRootPoptrie.putAll (hosts (2 ^ 27)) = some s ∧ ¬s.Accounts := by
  have hps : ∀ p ∈ hosts (2 ^ 27), p.Proper := by
    intro p hp
    rw [Insertion.Proper, mask_of_mem_hosts hp]
    decide
  have hfirst : ShorterFirst (hosts (2 ^ 27)) := by
    refine List.pairwise_of_forall_mem_list fun q hq p hp hboth => ?_
    rw [mask_of_mem_hosts hq, mask_of_mem_hosts hp] at hboth
    exact absurd hboth.1 (UInt32.lt_irrefl 32)
  obtain ⟨s, hs, hlooks, ⟨F, hc⟩, hm⟩ := hfirst.counted hps
  refine ⟨hps, hfirst, s, hs, fun hacc => ?_⟩
  have hspace := (hlooks.accounts_iff hc).mp hacc
  have hmany := card_nodePaths_hosts (le_refl (2 ^ 27))
  rw [hlooks.space_eq hps hc hm, spaceOf] at hspace
  omega

end Runs

end NetworkLab.Tries
