import Mathlib.Data.Nat.Init
import Mathlib.Data.List.Basic
import Mathlib.Order.Basic
import Mathlib.Order.Nat

/-!
# Run-length coding of slots with holes

Slots are filled or empty. A run of filled slots with the same content stores it once, at
the marked slot where the run starts; holes do not end a run.
-/
namespace NetworkLab.RunCoding

variable {α : Type*}

section Coding

/-- The contents of the marked slots below `n`. -/
def items (mark : ℕ → Bool) (slots : ℕ → Option α) : ℕ → List α
  | 0 => []
  | n + 1 => if mark n then items mark slots n ++ (slots n).toList else items mark slots n

/-- The content of the last filled slot below `n`. -/
def lastItem (slots : ℕ → Option α) : ℕ → Option α
  | 0 => none
  | n + 1 => (slots n).or (lastItem slots n)

/-- `xs` codes the slots below `n`. -/
structure Coded (mark : ℕ → Bool) (slots : ℕ → Option α) (n : ℕ) (xs : List α) : Prop where
  items_eq : xs = items mark slots n
  carried : ∀ i < n, ∀ x, slots i = some x → mark i = false → lastItem slots i = some x
  holes : ∀ i < n, slots i = none → mark i = false

end Coding

section Basic

variable {mark mark' : ℕ → Bool} {slots slots' : ℕ → Option α} {n : ℕ} {xs : List α}

@[simp] theorem items_zero : items mark slots 0 = [] := rfl

theorem items_succ_of_mark {i : ℕ} {x : α} (hmark : mark i = true) (hx : slots i = some x) :
    items mark slots (i + 1) = items mark slots i ++ [x] := by
  rw [items, if_pos hmark, hx]
  rfl

theorem items_succ_of_not_mark {i : ℕ} (hmark : mark i = false) :
    items mark slots (i + 1) = items mark slots i := by
  rw [items, if_neg (by rw [hmark]; exact Bool.false_ne_true)]

@[simp] theorem lastItem_zero : lastItem slots 0 = none := rfl

theorem lastItem_succ_of_some {i : ℕ} {x : α} (hx : slots i = some x) :
    lastItem slots (i + 1) = some x := by
  rw [lastItem, hx]
  rfl

theorem lastItem_succ_of_none {i : ℕ} (hx : slots i = none) :
    lastItem slots (i + 1) = lastItem slots i := by
  rw [lastItem, hx]
  rfl

theorem items_congr (h : ∀ i < n, mark' i = mark i ∧ slots' i = slots i) :
    items mark' slots' n = items mark slots n := by
  induction n with
  | zero => rfl
  | succ n ih =>
    obtain ⟨hmark, hslot⟩ := h n (Nat.lt_succ_self n)
    simp only [items]
    rw [hmark, hslot, ih fun i hi => h i (Nat.lt_succ_of_lt hi)]

theorem lastItem_congr (h : ∀ i < n, slots' i = slots i) :
    lastItem slots' n = lastItem slots n := by
  induction n with
  | zero => rfl
  | succ n ih =>
    simp only [lastItem]
    rw [h n (Nat.lt_succ_self n), ih fun i hi => h i (Nat.lt_succ_of_lt hi)]

/-- Holes do not change what came last. -/
theorem lastItem_of_holes {i j : ℕ} (hij : i ≤ j) (h : ∀ k, i ≤ k → k < j → slots k = none) :
    lastItem slots j = lastItem slots i := by
  induction j, hij using Nat.le_induction with
  | base => rfl
  | succ j hij ih =>
    rw [lastItem_succ_of_none (h j hij (Nat.lt_succ_self j))]
    exact ih fun k hik hk => h k hik (Nat.lt_succ_of_lt hk)

/-- From a filled slot on, only that slot and the later ones matter. -/
theorem lastItem_agree {i j : ℕ} (hij : i < j) (hfilled : slots i ≠ none)
    (h : ∀ k, i ≤ k → k < j → slots' k = slots k) : lastItem slots' j = lastItem slots j := by
  induction j, hij using Nat.le_induction with
  | base =>
    obtain ⟨x, hx⟩ := Option.ne_none_iff_exists'.mp hfilled
    have hx' : slots' i = some x := (h i le_rfl (Nat.lt_succ_self i)).trans hx
    rw [lastItem_succ_of_some hx, lastItem_succ_of_some hx']
  | succ j hij ih =>
    have hslot := h j (Nat.le_of_succ_le hij) (Nat.lt_succ_self j)
    simp only [lastItem]
    rw [hslot, ih fun k hik hk => h k hik (Nat.lt_succ_of_lt hk)]

theorem Coded.congr (h : Coded mark slots n xs)
    (hcongr : ∀ i < n, mark' i = mark i ∧ slots' i = slots i) : Coded mark' slots' n xs := by
  refine ⟨h.items_eq.trans (items_congr hcongr).symm, fun i hi x hx hmark => ?_, fun i hi hx => ?_⟩
  · rw [lastItem_congr fun j hj => (hcongr j (hj.trans hi)).2]
    exact h.carried i hi x ((hcongr i hi).2 ▸ hx) ((hcongr i hi).1 ▸ hmark)
  · rw [(hcongr i hi).1]
    exact h.holes i hi ((hcongr i hi).2 ▸ hx)

theorem coded_zero : Coded mark slots 0 [] :=
  ⟨rfl, fun i hi => absurd hi (Nat.not_lt_zero i), fun i hi => absurd hi (Nat.not_lt_zero i)⟩

/-- One slot more: a run starts, goes on, or the slot is a hole. -/
theorem Coded.start (h : Coded mark slots n xs) {x : α} (hx : slots n = some x)
    (hmark : mark n = true) : Coded mark slots (n + 1) (xs ++ [x]) := by
  refine ⟨?_, fun i hi y hy hm => ?_, fun i hi hy => ?_⟩
  · rw [items_succ_of_mark hmark hx, h.items_eq]
  · rcases Nat.lt_succ_iff_lt_or_eq.mp hi with hlt | rfl
    · exact h.carried i hlt y hy hm
    · rw [hmark] at hm
      cases hm
  · rcases Nat.lt_succ_iff_lt_or_eq.mp hi with hlt | rfl
    · exact h.holes i hlt hy
    · rw [hx] at hy
      cases hy

theorem Coded.carry (h : Coded mark slots n xs) (hmark : mark n = false)
    (hlast : ∀ x, slots n = some x → lastItem slots n = some x) :
    Coded mark slots (n + 1) xs := by
  refine ⟨?_, fun i hi y hy hm => ?_, fun i hi hy => ?_⟩
  · rw [items_succ_of_not_mark hmark, h.items_eq]
  · rcases Nat.lt_succ_iff_lt_or_eq.mp hi with hlt | rfl
    · exact h.carried i hlt y hy hm
    · exact hlast y hy
  · rcases Nat.lt_succ_iff_lt_or_eq.mp hi with hlt | rfl
    · exact h.holes i hlt hy
    · exact hmark

theorem Coded.take (h : Coded mark slots n xs) {i : ℕ} (hi : i ≤ n) :
    Coded mark slots i (items mark slots i) :=
  ⟨rfl, fun j hj => h.carried j (hj.trans_le hi), fun j hj => h.holes j (hj.trans_le hi)⟩

/-- What came last is what was stored last. -/
theorem Coded.lastItem_eq (h : Coded mark slots n xs) : lastItem slots n = xs.getLast? := by
  rw [h.items_eq]
  induction n generalizing xs with
  | zero => rfl
  | succ n ih =>
    have hn := ih (h.take (Nat.le_succ n))
    cases hx : slots n with
    | none =>
      rw [lastItem_succ_of_none hx, items_succ_of_not_mark (h.holes n (Nat.lt_succ_self n) hx), hn]
    | some x =>
      rw [lastItem_succ_of_some hx]
      cases hmark : mark n with
      | true => rw [items_succ_of_mark hmark hx, List.getLast?_concat]
      | false =>
        rw [items_succ_of_not_mark hmark, ← hn]
        exact (h.carried n (Nat.lt_succ_self n) x hx hmark).symm

theorem items_prefix {i j : ℕ} (hij : i ≤ j) : items mark slots i <+: items mark slots j := by
  induction j, hij using Nat.le_induction with
  | base => exact List.prefix_rfl
  | succ j _ ih =>
    rw [items]
    split_ifs
    · exact ih.trans (List.prefix_append _ _)
    · exact ih

/-- A marked slot finds its content at the number of marked slots before it. -/
theorem Coded.getElem?_start (h : Coded mark slots n xs) {i : ℕ} (hi : i < n) {x : α}
    (hx : slots i = some x) (hmark : mark i = true) :
    xs[(items mark slots i).length]? = some x := by
  obtain ⟨rest, hrest⟩ : items mark slots (i + 1) <+: items mark slots n := items_prefix hi
  rw [h.items_eq, ← hrest, items_succ_of_mark hmark hx, List.append_assoc,
    List.getElem?_append_right le_rfl, Nat.sub_self]
  rfl

/-- Every filled slot finds its content at the last marked slot up to it. -/
theorem Coded.getElem?_slot (h : Coded mark slots n xs) {i : ℕ} (hi : i < n) {x : α}
    (hx : slots i = some x) :
    (items mark slots (i + 1)).length ≠ 0 ∧
      xs[(items mark slots (i + 1)).length - 1]? = some x := by
  have hlast := (h.take hi).lastItem_eq
  rw [lastItem_succ_of_some hx] at hlast
  have hne : items mark slots (i + 1) ≠ [] := by
    intro hnil
    rw [hnil] at hlast
    cases hlast
  obtain ⟨rest, hrest⟩ : items mark slots (i + 1) <+: items mark slots n := items_prefix hi
  have hpos := List.length_pos_iff.mpr hne
  refine ⟨hpos.ne', ?_⟩
  rw [h.items_eq, ← hrest, List.getElem?_append_left (by omega), hlast,
    List.getLast?_eq_getElem?]

end Basic

section Punch

variable {mark : ℕ → Bool} {slots : ℕ → Option α} {n k : ℕ} {xs : List α} {x : α}

/-- A hole in the place of a slot that went on from the one before is not seen later. -/
theorem lastItem_punch (hx : slots k = some x) (hlast : lastItem slots k = some x) (i : ℕ) :
    lastItem (Function.update slots k none) i = lastItem slots i := by
  induction i with
  | zero => rfl
  | succ i ih =>
    by_cases hik : i = k
    · subst hik
      rw [lastItem_succ_of_none (Function.update_self ..), lastItem_succ_of_some hx, ih, hlast]
    · simp only [lastItem]
      rw [Function.update_of_ne hik, ih]

/-- A hole in a slot where no run starts. -/
theorem Coded.punch (h : Coded mark slots n xs) (hk : k < n) (hx : slots k = some x)
    (hmark : mark k = false) : Coded mark (Function.update slots k none) n xs := by
  have hitems : ∀ m, items mark (Function.update slots k none) m = items mark slots m := by
    intro m
    induction m with
    | zero => rfl
    | succ m ih =>
      by_cases hmk : m = k
      · subst hmk
        rw [items_succ_of_not_mark hmark, items_succ_of_not_mark hmark, ih]
      · simp only [items]
        rw [Function.update_of_ne hmk, ih]
  refine ⟨h.items_eq.trans (hitems n).symm, fun i hi y hy hm => ?_, fun i hi hy => ?_⟩
  · rw [lastItem_punch hx (h.carried k hk x hx hmark)]
    by_cases hik : i = k
    · rw [hik, Function.update_self] at hy
      cases hy
    · rw [Function.update_of_ne hik] at hy
      exact h.carried i hi y hy hm
  · by_cases hik : i = k
    · rw [hik, hmark]
    · rw [Function.update_of_ne hik] at hy
      exact h.holes i hi hy

/-- A hole where a run starts that goes on at `j`: the run starts there instead. -/
theorem Coded.punch_move (h : Coded mark slots n xs) (hx : slots k = some x)
    (hmark : mark k = true) {j : ℕ} (hkj : k < j) (hj : j < n)
    (hholes : ∀ i, k < i → i < j → slots i = none) (hfilled : slots j ≠ none)
    (hfree : mark j = false) :
    Coded (Function.update (Function.update mark k false) j true)
      (Function.update slots k none) n xs := by
  have hjx : slots j = some x := by
    obtain ⟨y, hy⟩ := Option.ne_none_iff_exists'.mp hfilled
    have hlast := h.carried j hj y hy hfree
    rw [lastItem_of_holes (Nat.succ_le_of_lt hkj) fun i hi hij => hholes i hi hij,
      lastItem_succ_of_some hx] at hlast
    rw [hy, hlast]
  have hmarkAt (i : ℕ) (hik : i ≠ k) (hij : i ≠ j) :
      Function.update (Function.update mark k false) j true i = mark i := by
    rw [Function.update_of_ne hij, Function.update_of_ne hik]
  have hslotAt (i : ℕ) (hik : i ≠ k) : Function.update slots k none i = slots i :=
    Function.update_of_ne hik ..
  have hmarkJ : Function.update (Function.update mark k false) j true j = true :=
    Function.update_self ..
  have hmarkK : Function.update (Function.update mark k false) j true k = false := by
    rw [Function.update_of_ne hkj.ne, Function.update_self]
  have hbefore : items (Function.update (Function.update mark k false) j true)
      (Function.update slots k none) k = items mark slots k :=
    items_congr fun i hi => ⟨hmarkAt i hi.ne (hi.trans hkj).ne, hslotAt i hi.ne⟩
  -- Between the two slots the run has not started yet.
  have hbetween : ∀ m, k + 1 ≤ m → m ≤ j →
      items (Function.update (Function.update mark k false) j true)
        (Function.update slots k none) m = items mark slots k ∧
      items mark slots m = items mark slots k ++ [x] := by
    intro m hm
    induction m, hm using Nat.le_induction with
    | base =>
      intro _
      rw [items_succ_of_not_mark hmarkK, items_succ_of_mark hmark hx]
      exact ⟨hbefore, rfl⟩
    | succ m hm ih =>
      intro hmj
      obtain ⟨hnew, hold⟩ := ih (Nat.le_of_succ_le hmj)
      have hnone := h.holes m (by omega) (hholes m (by omega) (by omega))
      rw [items_succ_of_not_mark (by rw [hmarkAt m (by omega) (by omega), hnone]),
        items_succ_of_not_mark hnone]
      exact ⟨hnew, hold⟩
  have hafter : ∀ m, j + 1 ≤ m → items (Function.update (Function.update mark k false) j true)
      (Function.update slots k none) m = items mark slots m := by
    intro m hm
    induction m, hm using Nat.le_induction with
    | base =>
      obtain ⟨hnew, hold⟩ := hbetween j hkj le_rfl
      rw [items_succ_of_mark hmarkJ ((hslotAt j hkj.ne').trans hjx), items_succ_of_not_mark hfree,
        hnew, hold]
    | succ m hm ih =>
      simp only [items]
      rw [hmarkAt m (by omega) (by omega), hslotAt m (by omega), ih]
  refine ⟨h.items_eq.trans (hafter n hj).symm, fun i hi y hy hm => ?_, fun i hi hy => ?_⟩
  · have hij : i ≠ j := by
      rintro rfl
      rw [hmarkJ] at hm
      cases hm
    have hik : i ≠ k := by
      rintro rfl
      rw [Function.update_self] at hy
      cases hy
    rw [hslotAt i hik] at hy
    rw [hmarkAt i hik hij] at hm
    have hlast := h.carried i hi y hy hm
    rcases Nat.lt_or_ge i k with hlt | hge
    · rw [lastItem_congr fun m hm' => hslotAt m (by omega)]
      exact hlast
    · have hji : j < i := by
        by_contra hnot
        rw [hholes i (by omega) (by omega)] at hy
        cases hy
      rw [lastItem_agree hji hfilled fun m hm' _ => hslotAt m (by omega)]
      exact hlast
  · by_cases hik : i = k
    · rw [hik, hmarkK]
    · rw [hslotAt i hik] at hy
      have hij : i ≠ j := by
        rintro rfl
        exact hfilled hy
      rw [hmarkAt i hik hij]
      exact h.holes i hi hy

/-- A hole where a run starts that has no other slot: what was stored for it goes. -/
theorem Coded.punch_remove (h : Coded mark slots n xs) (hk : k < n) (hx : slots k = some x)
    (hmark : mark k = true)
    (hnext : ∀ j, k < j → j < n → (∀ i, k < i → i < j → slots i = none) → slots j ≠ none →
      mark j = true) :
    Coded (Function.update mark k false) (Function.update slots k none) n
      (xs.take (items mark slots k).length ++ xs.drop ((items mark slots k).length + 1)) := by
  have hmarkAt (i : ℕ) (hik : i ≠ k) : Function.update mark k false i = mark i :=
    Function.update_of_ne hik ..
  have hslotAt (i : ℕ) (hik : i ≠ k) : Function.update slots k none i = slots i :=
    Function.update_of_ne hik ..
  have hsplit : ∀ m, k + 1 ≤ m → ∃ rest, items mark slots m = items mark slots k ++ x :: rest ∧
      items (Function.update mark k false) (Function.update slots k none) m =
        items mark slots k ++ rest := by
    intro m hm
    induction m, hm using Nat.le_induction with
    | base =>
      refine ⟨[], items_succ_of_mark hmark hx, ?_⟩
      rw [items_succ_of_not_mark (Function.update_self ..), List.append_nil]
      exact items_congr fun i hi => ⟨hmarkAt i hi.ne, hslotAt i hi.ne⟩
    | succ m hm ih =>
      obtain ⟨rest, hold, hnew⟩ := ih
      simp only [items]
      rw [hmarkAt m (by omega), hslotAt m (by omega), hold, hnew]
      split_ifs
      · exact ⟨rest ++ (slots m).toList, by rw [List.append_assoc]; rfl, by rw [List.append_assoc]⟩
      · exact ⟨rest, rfl, rfl⟩
  obtain ⟨rest, hold, hnew⟩ := hsplit n hk
  refine ⟨?_, fun i hi y hy hm => ?_, fun i hi hy => ?_⟩
  · rw [h.items_eq, hold, hnew, List.take_left', List.drop_append]
    · simp
    · rfl
  · have hik : i ≠ k := by
      rintro rfl
      rw [Function.update_self] at hy
      cases hy
    rw [hslotAt i hik] at hy
    rw [hmarkAt i hik] at hm
    have hlast := h.carried i hi y hy hm
    rcases Nat.lt_or_ge i k with hlt | hge
    · rw [lastItem_congr fun m hm' => hslotAt m (by omega)]
      exact hlast
    · -- Some run has started after the hole, or this slot would have gone on from it.
      have hsome : ∃ j, k < j ∧ j < i ∧ slots j ≠ none := by
        by_contra hnone
        have hholes (j : ℕ) (hkj : k < j) (hji : j < i) : slots j = none := by
          by_contra hfilled
          exact hnone ⟨j, hkj, hji, hfilled⟩
        have hmarked := hnext i (by omega) hi hholes (by rw [hy]; exact Option.some_ne_none y)
        rw [hmarked] at hm
        cases hm
      obtain ⟨j, hkj, hji, hfilled⟩ := hsome
      rw [lastItem_agree hji hfilled fun m hm' _ => hslotAt m (by omega)]
      exact hlast
  · by_cases hik : i = k
    · rw [hik, Function.update_self]
    · rw [hslotAt i hik] at hy
      rw [hmarkAt i hik]
      exact h.holes i hi hy

end Punch

end NetworkLab.RunCoding
