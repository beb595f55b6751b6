import NetworkLab.Poptrie
import NetworkLab.RunCoding

/-!
# The slots of a node

A node of the compressed trie stands for 64 slots, of which the filled ones hold leaves and
the others have children. Opening a slot for a child and filling a range of slots change
the run-length code of the node as they change the slots.
-/
namespace NetworkLab.Tries
open RunCoding

section Bits

theorem getLsbD_setBit {i : ℕ} (hi : i < 64) (j : ℕ) :
    (1#64 <<< i).getLsbD j = decide (j = i) := by
  rw [BitVec.getLsbD_shiftLeft, BitVec.getLsbD_one]
  by_cases hj : j = i
  · subst hj
    simp [hi]
  · have hne : ¬(i ≤ j ∧ j - i = 0) := by omega
    simp only [hj, decide_false]
    simp only [Bool.and_eq_false_iff, decide_eq_false_iff_not, Bool.not_eq_false',
      decide_eq_true_eq]
    omega

theorem onesBelow_mono (vec : BitVec 64) {i j : ℕ} (hij : i ≤ j) :
    onesBelow vec i ≤ onesBelow vec j := by
  induction j, hij using Nat.le_induction with
  | base => exact le_rfl
  | succ j _ ih => exact ih.trans (Nat.le_add_right _ _)

theorem onesBelow_lt {vec : BitVec 64} {i j : ℕ} (hij : i < j) (hbit : vec.getLsbD i = true) :
    onesBelow vec i < onesBelow vec j := by
  have hnext : onesBelow vec (i + 1) = onesBelow vec i + 1 := by
    rw [onesBelow, hbit]
    rfl
  have hmono : onesBelow vec (i + 1) ≤ onesBelow vec j := onesBelow_mono vec hij
  omega

/-- Different bits that are set have different numbers of bits before them. -/
theorem onesBelow_inj {vec : BitVec 64} {i j : ℕ} (hi : vec.getLsbD i = true)
    (hj : vec.getLsbD j = true) (h : onesBelow vec i = onesBelow vec j) : i = j := by
  rcases Nat.lt_trichotomy i j with hlt | heq | hgt
  · have hless := onesBelow_lt hlt hi
    omega
  · exact heq
  · have hless := onesBelow_lt hgt hj
    omega

/-- The number of bits is the number of items when only filled slots are marked. -/
theorem onesBelow_eq_length {vec : BitVec 64} {slots : ℕ → Option Leaf} {n : ℕ}
    {xs : List Leaf} (h : Coded vec.getLsbD slots n xs) : onesBelow vec n = xs.length := by
  rw [h.items_eq]
  induction n generalizing xs with
  | zero => rfl
  | succ n ih =>
    have hn := ih (h.take (Nat.le_succ n))
    cases hmark : vec.getLsbD n with
    | false =>
      rw [onesBelow, hmark, items_succ_of_not_mark hmark, hn]
      rfl
    | true =>
      have hfilled : slots n ≠ none := fun hnone => by
        rw [h.holes n (Nat.lt_succ_self n) hnone] at hmark
        cases hmark
      obtain ⟨x, hx⟩ := Option.ne_none_iff_exists'.mp hfilled
      rw [onesBelow, hmark, items_succ_of_mark hmark hx, hn, List.length_append]
      rfl

end Bits

section Node

/-- The node stands for these slots: a slot has a leaf or it is in `vector`. -/
structure Internal.Shows (nd : Internal) (slots : ℕ → Option Leaf) : Prop where
  coded : Coded nd.leafvec.getLsbD slots 64 nd.leaf
  vector : ∀ i < 64, nd.vector.getLsbD i = (slots i).isNone

variable {nd : Internal} {slots : ℕ → Option Leaf} {key : ℕ} {x : Leaf}

theorem Internal.Shows.vector_of_some (h : nd.Shows slots) {i : ℕ} (hi : i < 64)
    (hx : slots i = some x) : nd.vector.getLsbD i = false := by
  rw [h.vector i hi, hx]
  rfl

theorem Internal.Shows.vector_of_none (h : nd.Shows slots) {i : ℕ} (hi : i < 64)
    (hx : slots i = none) : nd.vector.getLsbD i = true := by
  rw [h.vector i hi, hx]
  rfl

/-- The two counters of the loops over the slots. -/
theorem Internal.Shows.idx_eq (h : nd.Shows slots) {n : ℕ} (hn : n ≤ 64) :
    nd.idx n = ((items nd.leafvec.getLsbD slots n).length, onesBelow nd.vector n) := by
  induction n with
  | zero => rfl
  | succ n ih =>
    have hn' : n < 64 := hn
    rw [Internal.idx, ih hn'.le, onesBelow]
    cases hx : slots n with
    | none =>
      rw [if_pos (h.vector_of_none hn' hx), h.vector_of_none hn' hx,
        items_succ_of_not_mark (h.coded.holes n hn' hx)]
      rfl
    | some x =>
      rw [h.vector_of_some hn' hx, if_neg Bool.false_ne_true]
      cases hmark : nd.leafvec.getLsbD n with
      | false =>
        rw [items_succ_of_not_mark hmark]
        rfl
      | true =>
        rw [items_succ_of_mark hmark hx, List.length_append]
        rfl

theorem Internal.Shows.leafBefore_eq (h : nd.Shows slots) (hkey : key < 64)
    (hx : slots key = some x) : nd.leafBefore (nd.idx (key + 1)).1 = some x := by
  obtain ⟨hpos, hleaf⟩ := h.coded.getElem?_slot hkey hx
  rw [h.idx_eq hkey, Internal.leafBefore, if_neg hpos]
  exact hleaf

theorem tail_eq_some {j : ℕ} (hkey : key < 64) (h : nd.tail key = some j) :
    key < j ∧ j < 64 ∧ nd.vector.getLsbD j = false ∧ nd.leafvec.getLsbD j = false ∧
      ∀ i, key < i → i < j → nd.vector.getLsbD i = true := by
  obtain ⟨hfind, hfree⟩ := Option.filter_eq_some_iff.mp h
  obtain ⟨hleaf, hmem, hbefore⟩ := List.find?_range'_eq_some.mp hfind
  obtain ⟨k, hk, rfl⟩ := List.mem_range'.mp hmem
  refine ⟨by omega, by omega, by simpa using hleaf, by simpa using hfree, fun i hki hij => ?_⟩
  simpa using hbefore i (by omega) hij

theorem tail_eq_none (hkey : key < 64) (h : nd.tail key = none) {j : ℕ} (hkj : key < j)
    (hj : j < 64) (hvector : nd.vector.getLsbD j = false)
    (hbefore : ∀ i, key < i → i < j → nd.vector.getLsbD i = true) :
    nd.leafvec.getLsbD j = true := by
  have hfind : ((List.range' (key + 1) (63 - key)).find? fun i => !nd.vector.getLsbD i) =
      some j := by
    rw [List.find?_range'_eq_some]
    refine ⟨by rw [hvector]; rfl, List.mem_range'_1.mpr ⟨by omega, by omega⟩, fun i hki hij => ?_⟩
    rw [hbefore i (by omega) hij]
    rfl
  rw [Internal.tail, hfind, Option.filter_eq_none_iff] at h
  simpa using h j rfl

/-- A slot with a leaf is opened for a child. -/
theorem Internal.Shows.release (h : nd.Shows slots) (hkey : key < 64) (hx : slots key = some x) :
    ∃ nd' removed, nd.release key (nd.idx (key + 1)).1 = some (nd', removed) ∧
      nd'.Shows (Function.update slots key none) ∧ nd'.vector = nd.vector ||| 1#64 <<< key ∧
      nd'.child = nd.child ∧ nd'.leaf.length + removed.toNat = nd.leaf.length := by
  have hvector (i : ℕ) (hi : i < 64) : (nd.vector ||| 1#64 <<< key).getLsbD i =
      (Function.update slots key none i).isNone := by
    rw [BitVec.getLsbD_or, getLsbD_setBit hkey]
    by_cases hik : i = key
    · rw [hik, Function.update_self, decide_eq_true rfl, Bool.or_true]
      rfl
    · rw [Function.update_of_ne hik, decide_eq_false hik, Bool.or_false]
      exact h.vector i hi
  have hclear (i : ℕ) (hi : i < 64) : (nd.leafvec &&& ~~~(1#64 <<< key)).getLsbD i =
      Function.update nd.leafvec.getLsbD key false i := by
    rw [BitVec.getLsbD_and, BitVec.getLsbD_not, getLsbD_setBit hkey, decide_eq_true hi]
    by_cases hik : i = key
    · rw [hik, Function.update_self, decide_eq_true rfl, Bool.not_true, Bool.and_false,
        Bool.and_false]
    · rw [Function.update_of_ne hik, decide_eq_false hik, Bool.not_false, Bool.and_true,
        Bool.and_true]
  unfold Internal.release
  cases hmark : nd.leafvec.getLsbD key with
  | false =>
    refine ⟨_, _, rfl, ⟨?_, hvector⟩, rfl, rfl, rfl⟩
    refine (h.coded.punch hkey hx hmark).congr fun i hi => ⟨?_, rfl⟩
    rw [hclear i hi]
    by_cases hik : i = key
    · rw [hik, Function.update_self, hmark]
    · rw [Function.update_of_ne hik]
  | true =>
    simp only [if_true]
    cases htail : nd.tail key with
    | some j =>
      obtain ⟨hkj, hj, hleaf, hfree, hbefore⟩ := tail_eq_some hkey htail
      refine ⟨_, _, rfl, ⟨?_, hvector⟩, rfl, rfl, rfl⟩
      have hholes (i : ℕ) (hki : key < i) (hij : i < j) : slots i = none := by
        have hbit := hbefore i hki hij
        rw [h.vector i (hij.trans hj)] at hbit
        exact Option.isNone_iff_eq_none.mp hbit
      have hfilled : slots j ≠ none := fun hnone => by
        rw [h.vector_of_none hj hnone] at hleaf
        cases hleaf
      refine (h.coded.punch_move hx hmark hkj hj hholes hfilled hfree).congr fun i hi => ⟨?_, rfl⟩
      rw [BitVec.getLsbD_or, getLsbD_setBit hj, hclear i hi]
      by_cases hij : i = j
      · rw [hij, Function.update_self, decide_eq_true rfl, Bool.or_true]
      · rw [Function.update_of_ne hij, decide_eq_false hij, Bool.or_false]
    | none =>
      have hcoded := h.coded.punch_remove hkey hx hmark fun j hkj hj hholes hfilled => by
        obtain ⟨y, hy⟩ := Option.ne_none_iff_exists'.mp hfilled
        exact tail_eq_none hkey htail hkj hj (h.vector_of_some hj hy) fun i hki hij =>
          h.vector_of_none (hij.trans hj) (hholes i hki hij)
      have hcoded' := hcoded.congr fun i hi => ⟨hclear i hi, rfl⟩
      have hstart := h.coded.getElem?_start hkey hx hmark
      obtain ⟨hlen, -⟩ := List.getElem?_eq_some_iff.mp hstart
      have hidx : (nd.idx (key + 1)).1 = (items nd.leafvec.getLsbD slots key).length + 1 := by
        rw [h.idx_eq hkey, items_succ_of_mark hmark hx, List.length_append]
        rfl
      -- The array is one leaf longer than the bits that are left.
      have hcount : countOneBit (nd.leafvec &&& ~~~(1#64 <<< key)) + 1 = nd.leaf.length := by
        rw [countOneBit, onesBelow_eq_length hcoded', List.length_append, List.length_take,
          List.length_drop]
        omega
      have hbefore : copy nd.leaf 0 ((nd.idx (key + 1)).1 - 1) =
          some (nd.leaf.take (items nd.leafvec.getLsbD slots key).length) := by
        rw [copy, if_pos (by omega), hidx]
        rfl
      have hafter : copy nd.leaf (nd.idx (key + 1)).1
          (countOneBit (nd.leafvec &&& ~~~(1#64 <<< key)) + 1 - (nd.idx (key + 1)).1) =
          some (nd.leaf.drop ((items nd.leafvec.getLsbD slots key).length + 1)) := by
        rw [copy, if_pos (by omega), hcount, hidx, List.take_of_length_le]
        rw [List.length_drop]
      refine ⟨{ nd with
          vector := nd.vector ||| 1#64 <<< key
          leafvec := nd.leafvec &&& ~~~(1#64 <<< key)
          leaf := nd.leaf.take (items nd.leafvec.getLsbD slots key).length ++
            nd.leaf.drop ((items nd.leafvec.getLsbD slots key).length + 1) }, true, ?_,
        ⟨hcoded', hvector⟩, rfl, rfl, ?_⟩
      · simp only [hbefore, hafter]
        rfl
      · rw [List.length_append, List.length_take, List.length_drop, Bool.toNat_true]
        omega

end Node

section Loops

/-- A loop over numbers that keeps an invariant ends in a state that meets it. -/
theorem foldlM_range' {σ : Type} (f : σ → ℕ → Option σ) (inv : ℕ → σ → Prop) {start : ℕ} {a : σ}
    (ha : inv start a) (n : ℕ)
    (hstep : ∀ i b, start ≤ i → i < start + n → inv i b → ∃ c, f b i = some c ∧ inv (i + 1) c) :
    ∃ b, (List.range' start n).foldlM f a = some b ∧ inv (start + n) b := by
  induction n with
  | zero => exact ⟨a, rfl, ha⟩
  | succ n ih =>
    obtain ⟨b, hb, hinv⟩ := ih fun i b hi hlt => hstep i b hi (by omega)
    obtain ⟨c, hc, hinv'⟩ := hstep (start + n) b (by omega) (by omega) hinv
    refine ⟨c, ?_, hinv'⟩
    rw [List.range'_1_concat, List.foldlM_append, hb]
    simpa using hc

end Loops

section Fill

/-- The filled slots of the range get a new leaf. -/
def fill (slots : ℕ → Option Leaf) (key range : ℕ) (new : Leaf) (i : ℕ) : Option Leaf :=
  if key ≤ i ∧ i < key + range then (slots i).map fun _ => new else slots i

variable {nd : Internal} {slots slots' : ℕ → Option Leaf} {key range i : ℕ} {new : Leaf} {e : Edit}

theorem fill_eq_none_iff : fill slots key range new i = none ↔ slots i = none := by
  unfold fill
  split_ifs
  · exact Option.map_eq_none_iff
  · exact Iff.rfl

theorem fill_of_not_mem (h : ¬(key ≤ i ∧ i < key + range)) :
    fill slots key range new i = slots i := if_neg h

theorem fill_of_mem (hi : key ≤ i) (hlt : i < key + range) {x : Leaf} (hx : slots i = some x) :
    fill slots key range new i = some new := by
  rw [fill, if_pos ⟨hi, hlt⟩, hx]
  rfl

/-- The slots below `i` have been coded anew, from the leaves below `idx₀`. -/
structure Editing (nd : Internal) (slots slots' : ℕ → Option Leaf) (i : ℕ) (e : Edit) : Prop where
  coded : Coded e.leafvec.getLsbD slots' i e.cache
  rest : ∀ j, i ≤ j → e.leafvec.getLsbD j = nd.leafvec.getLsbD j
  idx : e.idx₀ = (items nd.leafvec.getLsbD slots i).length

/-- The slot is a hole or its run goes on. -/
theorem Editing.carry (h : Editing nd slots slots' i e) (hmark : nd.leafvec.getLsbD i = false)
    (hlast : ∀ x, slots' i = some x → lastItem slots' i = some x) {e' : Edit}
    (hleafvec : e'.leafvec = e.leafvec) (hcache : e'.cache = e.cache) (hidx : e'.idx₀ = e.idx₀) :
    Editing nd slots slots' (i + 1) e' := by
  refine ⟨?_, fun j hj => ?_, ?_⟩
  · rw [hleafvec, hcache]
    exact h.coded.carry ((h.rest i le_rfl).trans hmark) hlast
  · rw [hleafvec]
    exact h.rest j (Nat.le_of_succ_le hj)
  · rw [hidx, h.idx, items_succ_of_not_mark hmark]

/-- A run starts here, with the leaf that is put into the cache. -/
theorem Editing.start (h : Editing nd slots slots' i e) {x : Leaf} (hx : slots' i = some x)
    {e' : Edit} (hcache : e'.cache = e.cache ++ [x]) (hmark : e'.leafvec.getLsbD i = true)
    (hbits : ∀ j, j ≠ i → e'.leafvec.getLsbD j = e.leafvec.getLsbD j)
    (hidx : e'.idx₀ = (items nd.leafvec.getLsbD slots (i + 1)).length) :
    Editing nd slots slots' (i + 1) e' := by
  refine ⟨?_, fun j hj => ?_, hidx⟩
  · rw [hcache]
    exact Coded.start (h.coded.congr fun j hj => ⟨hbits j hj.ne, rfl⟩) hx hmark
  · exact (hbits j (by omega)).trans (h.rest j (by omega))

/-- A run of the node starts here, and its leaf is the one at `idx₀`. -/
theorem Editing.read (h : Editing nd slots slots' i e) (hnd : nd.Shows slots) (hi : i < 64)
    {x : Leaf} (hx : slots i = some x) (hmark : nd.leafvec.getLsbD i = true) :
    nd.leaf[e.idx₀]? = some x ∧
      e.idx₀ + 1 = (items nd.leafvec.getLsbD slots (i + 1)).length := by
  rw [h.idx, items_succ_of_mark hmark hx, List.length_append]
  exact ⟨hnd.coded.getElem?_start hi hx hmark, rfl⟩

theorem Editing.setBit {j : ℕ} (hi : i < 64) (hj : j ≠ i) :
    (e.leafvec ||| 1#64 <<< i).getLsbD j = e.leafvec.getLsbD j := by
  rw [BitVec.getLsbD_or, getLsbD_setBit hi, decide_eq_false hj, Bool.or_false]

theorem Editing.setBit_self (hi : i < 64) : (e.leafvec ||| 1#64 <<< i).getLsbD i = true := by
  rw [BitVec.getLsbD_or, getLsbD_setBit hi, decide_eq_true rfl, Bool.or_true]

/-- `last` is the leaf of the last slot that has one. -/
def LastSeen (slots : ℕ → Option Leaf) (i : ℕ) (e : Edit) : Prop :=
  ∀ x, lastItem slots i = some x → e.last = x

theorem editBefore_step (hnd : nd.Shows slots) (hkey : key ≤ 64) (hi : i < key)
    (h : Editing nd slots (fill slots key range new) i e) (hlast : LastSeen slots i e) :
    ∃ e', nd.editBefore e i = some e' ∧ Editing nd slots (fill slots key range new) (i + 1) e' ∧
      LastSeen slots (i + 1) e' := by
  have hi' : i < 64 := by omega
  have hsame (j : ℕ) (hj : j ≤ i) : fill slots key range new j = slots j :=
    fill_of_not_mem (by omega)
  have hlastItem : lastItem (fill slots key range new) i = lastItem slots i :=
    lastItem_congr fun j hj => hsame j hj.le
  unfold Internal.editBefore
  cases hx : slots i with
  | none =>
    have hmark := hnd.coded.holes i hi' hx
    refine ⟨e, ?_, h.carry hmark (fun x hx' => ?_) rfl rfl rfl, ?_⟩
    · rw [hmark, Bool.and_false, if_neg Bool.false_ne_true]
    · rw [hsame i le_rfl, hx] at hx'
      cases hx'
    · rw [LastSeen, lastItem_succ_of_none hx]
      exact hlast
  | some x =>
    rw [hnd.vector_of_some hi' hx]
    have hnext : lastItem slots (i + 1) = some x := lastItem_succ_of_some hx
    cases hmark : nd.leafvec.getLsbD i with
    | false =>
      have hcarried := hnd.coded.carried i hi' x hx hmark
      refine ⟨e, rfl, h.carry hmark (fun y hy => ?_) rfl rfl rfl, fun y hy => ?_⟩
      · rw [hsame i le_rfl, hx] at hy
        rw [hlastItem, hcarried, hy]
      · rw [hnext, ← hcarried] at hy
        exact hlast y hy
    | true =>
      obtain ⟨hleaf, hidx⟩ := h.read hnd hi' hx hmark
      refine ⟨{ e with last := x, cache := e.cache ++ [x], idx₀ := e.idx₀ + 1 }, ?_, ?_, ?_⟩
      · rw [hleaf]
        rfl
      · exact h.start ((hsame i le_rfl).trans hx) rfl ((h.rest i le_rfl).trans hmark)
          (fun _ _ => rfl) hidx
      · intro y hy
        rw [hnext] at hy
        exact Option.some.inj hy

/-- The loop over the slots before the range. -/
theorem Internal.Shows.editBefore (hnd : nd.Shows slots) (range : ℕ) (new : Leaf)
    (hkey : key ≤ 64) :
    ∃ e, (List.range' 0 key).foldlM nd.editBefore ⟨nd.leafvec, [], 0, true, ⟨0, 0⟩⟩ = some e ∧
      Editing nd slots (fill slots key range new) key e ∧ LastSeen slots key e := by
  have hstart : Editing nd slots (fill slots key range new) 0
      ⟨nd.leafvec, [], 0, true, ⟨0, 0⟩⟩ := ⟨coded_zero, fun _ _ => rfl, rfl⟩
  obtain ⟨e, he, hedit, hlast⟩ := foldlM_range' nd.editBefore
    (fun i e => Editing nd slots (fill slots key range new) i e ∧ LastSeen slots i e)
    ⟨hstart, nofun⟩ key fun i e _ hi h => editBefore_step hnd hkey (by omega) h.1 h.2
  rw [Nat.zero_add] at hedit hlast
  exact ⟨e, he, hedit, hlast⟩

/-- What the loop over the range knows before slot `i`. -/
structure InRange (nd : Internal) (slots : ℕ → Option Leaf) (key range : ℕ) (new : Leaf) (i : ℕ)
    (e : Edit) : Prop where
  editing : Editing nd slots (fill slots key range new) i e
  last : LastSeen slots i e
  first : e.first = true → ∀ j, key ≤ j → j < i → slots j = none
  later : e.first = false →
    lastItem slots i = some e.last ∧ lastItem (fill slots key range new) i = some new

theorem editRange_step (hnd : nd.Shows slots) (hrange : key + range ≤ 64) (hi : key ≤ i)
    (hlt : i < key + range) (hmask : ∀ x, slots i = some x → x.mask ≤ new.mask)
    (h : InRange nd slots key range new i e) :
    ∃ e', nd.editRange new e i = some e' ∧ InRange nd slots key range new (i + 1) e' := by
  have hi' : i < 64 := by omega
  unfold Internal.editRange
  cases hx : slots i with
  | none =>
    have hx' : fill slots key range new i = none := fill_eq_none_iff.mpr hx
    have hmark := hnd.coded.holes i hi' hx
    refine ⟨e, ?_, h.editing.carry hmark (fun x hy => ?_) rfl rfl rfl, ?_,
      fun hfirst j hj hji => ?_, fun hfirst => ?_⟩
    · rw [hnd.vector_of_none hi' hx]
      rfl
    · rw [hx'] at hy
      cases hy
    · rw [LastSeen, lastItem_succ_of_none hx]
      exact h.last
    · rcases Nat.lt_succ_iff_lt_or_eq.mp hji with hless | rfl
      · exact h.first hfirst j hj hless
      · exact hx
    · rw [lastItem_succ_of_none hx, lastItem_succ_of_none hx']
      exact h.later hfirst
  | some x =>
    have hx' : fill slots key range new i = some new := fill_of_mem hi hlt hx
    have hnext : lastItem slots (i + 1) = some x := lastItem_succ_of_some hx
    have hnext' : lastItem (fill slots key range new) (i + 1) = some new :=
      lastItem_succ_of_some hx'
    have hle := hmask x hx
    rw [hnd.vector_of_some hi' hx]
    -- Either way the slot that has been seen last is this one.
    have hdone {e' : Edit} (hedit : Editing nd slots (fill slots key range new) (i + 1) e')
        (hfirst : e'.first = false) (hlast : e'.last = x) :
        InRange nd slots key range new (i + 1) e' := by
      refine ⟨hedit, fun y hy => ?_, fun hfirst' => ?_, fun _ => ⟨?_, hnext'⟩⟩
      · rw [hnext] at hy
        exact hlast.trans (Option.some.inj hy)
      · rw [hfirst] at hfirst'
        cases hfirst'
      · rw [hlast]
        exact hnext
    cases hmark : nd.leafvec.getLsbD i with
    | true =>
      obtain ⟨hleaf, hidx⟩ := h.editing.read hnd hi' hx hmark
      refine ⟨⟨e.leafvec ||| 1#64 <<< i, e.cache ++ [new], e.idx₀ + 1, false, x⟩, ?_,
        hdone ?_ rfl rfl⟩
      · simp only [Bool.not_false, Bool.or_true, Bool.and_true, if_true, hleaf, Option.map_some]
        exact if_pos hle
      · exact h.editing.start hx' rfl (Editing.setBit_self hi') (fun j => Editing.setBit hi') hidx
    | false =>
      have hcarried := hnd.coded.carried i hi' x hx hmark
      have hlast := h.last x hcarried
      cases hfirst : e.first with
      | true =>
        refine ⟨⟨e.leafvec ||| 1#64 <<< i, e.cache ++ [new], e.idx₀, false, e.last⟩, ?_,
          hdone ?_ rfl hlast⟩
        · simp only [Bool.not_false, Bool.or_false, Bool.and_true, if_true, Bool.false_eq_true,
            if_false]
          exact if_pos (hlast ▸ hle)
        · refine h.editing.start hx' rfl (Editing.setBit_self hi') (fun j => Editing.setBit hi') ?_
          rw [items_succ_of_not_mark hmark]
          exact h.editing.idx
      | false =>
        refine ⟨e, rfl, hdone (h.editing.carry hmark (fun y hy => ?_) rfl rfl rfl) hfirst hlast⟩
        rw [hx'] at hy
        rw [(h.later hfirst).2, hy]

/-- What the loop over the slots after the range knows before slot `i`. -/
structure AfterRange (nd : Internal) (slots : ℕ → Option Leaf) (key range : ℕ) (new : Leaf)
    (i : ℕ) (e : Edit) : Prop where
  editing : Editing nd slots (fill slots key range new) i e
  first : e.first = true → lastItem slots i = some e.last
  later : e.first = false → lastItem (fill slots key range new) i = lastItem slots i

theorem editAfter_step (hnd : nd.Shows slots) (hi : key + range ≤ i) (hi' : i < 64)
    (h : AfterRange nd slots key range new i e) :
    ∃ e', nd.editAfter e i = some e' ∧ AfterRange nd slots key range new (i + 1) e' := by
  have hsame : fill slots key range new i = slots i := fill_of_not_mem (by omega)
  unfold Internal.editAfter
  cases hx : slots i with
  | none =>
    have hmark := hnd.coded.holes i hi' hx
    rw [hx] at hsame
    refine ⟨e, ?_, h.editing.carry hmark (fun y hy => ?_) rfl rfl rfl, fun hfirst => ?_,
      fun hfirst => ?_⟩
    · rw [hnd.vector_of_none hi' hx, if_pos rfl]
    · rw [hsame] at hy
      cases hy
    · rw [lastItem_succ_of_none hx]
      exact h.first hfirst
    · rw [lastItem_succ_of_none hx, lastItem_succ_of_none hsame]
      exact h.later hfirst
  | some x =>
    rw [hx] at hsame
    have hlastItem : lastItem (fill slots key range new) (i + 1) = lastItem slots (i + 1) := by
      rw [lastItem_succ_of_some hx, lastItem_succ_of_some hsame]
    have hdone {e' : Edit} (hedit : Editing nd slots (fill slots key range new) (i + 1) e')
        (hfirst : e'.first = false) : AfterRange nd slots key range new (i + 1) e' := by
      refine ⟨hedit, fun hfirst' => ?_, fun _ => hlastItem⟩
      rw [hfirst] at hfirst'
      cases hfirst'
    rw [hnd.vector_of_some hi' hx, if_neg Bool.false_ne_true]
    cases hmark : nd.leafvec.getLsbD i with
    | true =>
      obtain ⟨hleaf, hidx⟩ := h.editing.read hnd hi' hx hmark
      refine ⟨⟨e.leafvec, e.cache ++ [x], e.idx₀ + 1, false, e.last⟩, ?_, hdone ?_ rfl⟩
      · simp only [Bool.not_true, Bool.and_false, Bool.false_eq_true, if_false, if_true, hleaf]
        rfl
      · exact h.editing.start hsame rfl ((h.editing.rest i le_rfl).trans hmark) (fun _ _ => rfl)
          hidx
    | false =>
      have hcarried := hnd.coded.carried i hi' x hx hmark
      cases hfirst : e.first with
      | true =>
        have hlast : e.last = x := by
          rw [h.first hfirst] at hcarried
          exact Option.some.inj hcarried
        refine ⟨⟨e.leafvec ||| 1#64 <<< i, e.cache ++ [e.last], e.idx₀, false, e.last⟩, rfl,
          hdone ?_ rfl⟩
        refine h.editing.start (hsame.trans (congrArg some hlast.symm)) rfl
          (Editing.setBit_self hi') (fun j => Editing.setBit hi') ?_
        rw [items_succ_of_not_mark hmark]
        exact h.editing.idx
      | false =>
        refine ⟨{ e with first := false }, rfl, hdone (h.editing.carry hmark (fun y hy => ?_)
          rfl rfl rfl) rfl⟩
        rw [h.later hfirst, hcarried, ← hsame, hy]

/-- Filling a range whose leaves are not longer than the new one. -/
theorem Internal.Shows.edit (hnd : nd.Shows slots) (hrange : key + range ≤ 64) (new : Leaf)
    (hmask : ∀ i x, key ≤ i → i < key + range → slots i = some x → x.mask ≤ new.mask) :
    ∃ e, nd.edit key range new = some e ∧
      Internal.Shows { nd with leafvec := e.leafvec, leaf := e.cache }
        (fill slots key range new) := by
  obtain ⟨e₁, he₁, hedit₁, hlast₁⟩ := hnd.editBefore range new (show key ≤ 64 by omega)
  have hrange₁ : InRange nd slots key range new key { e₁ with first := true } :=
    ⟨⟨hedit₁.coded, hedit₁.rest, hedit₁.idx⟩, hlast₁, fun _ j hj hlt => by omega, nofun⟩
  obtain ⟨e₂, he₂, hrange₂⟩ := foldlM_range' (nd.editRange new)
    (InRange nd slots key range new) hrange₁ range fun i e hi hlt h =>
      editRange_step hnd hrange hi hlt (fun x => hmask i x hi hlt) h
  have hafter : AfterRange nd slots key range new (key + range) { e₂ with first := !e₂.first } := by
    obtain ⟨hedit₂, hlast₂, hnone, hsome⟩ := hrange₂
    refine ⟨⟨hedit₂.coded, hedit₂.rest, hedit₂.idx⟩, fun hfirst => ?_, fun hfirst => ?_⟩
    · exact (hsome (by simpa using hfirst)).1
    · have hholes := hnone (by simpa using hfirst)
      refine lastItem_congr fun j hj => ?_
      by_cases hmem : key ≤ j ∧ j < key + range
      · rw [hholes j hmem.1 hmem.2, fill_eq_none_iff]
        exact hholes j hmem.1 hmem.2
      · exact fill_of_not_mem hmem
  obtain ⟨e₃, he₃, hedit₃, -, -⟩ := foldlM_range' nd.editAfter
    (AfterRange nd slots key range new) hafter (64 - (key + range)) fun i e hi hlt h =>
      editAfter_step hnd hi (by omega) h
  rw [Nat.add_sub_cancel' hrange] at hedit₃
  refine ⟨e₃, ?_, hedit₃.coded, fun i hi => ?_⟩
  · rw [Internal.edit, he₁, Option.bind_eq_bind, Option.bind_some, he₂]
    exact he₃
  · rw [Bool.eq_iff_iff, hnd.vector i hi, Option.isNone_iff_eq_none, Option.isNone_iff_eq_none]
    exact fill_eq_none_iff.symm

end Fill

end NetworkLab.Tries
