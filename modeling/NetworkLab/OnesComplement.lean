import Mathlib.Data.Nat.ModEq
import Mathlib.Algebra.BigOperators.Group.List.Basic
import Mathlib.Tactic.Common

/-!
# One's-complement sums

Numbers up to `m` are added with an end-around carry: what goes past `m` is brought back as one.
A sum in larger numbers whose carries are brought back at the end gives the same, as both are
determined by the remainder modulo `m` and by being zero.
-/
namespace NetworkLab.OnesComplement

variable {m x y a b : ℕ}

/-- Addition with an end-around carry. -/
def add (m a b : ℕ) : ℕ := if a + b ≤ m then a + b else a + b - m

/-- The sum of some numbers up to `m`. -/
def sum (m : ℕ) (ws : List ℕ) : ℕ := ws.foldl (add m) 0

/-- The number up to `m` that a larger one is folded to; `0` only comes from `0`. -/
def reduce (m x : ℕ) : ℕ := if x = 0 then 0 else (x - 1) % m + 1

@[simp] theorem reduce_zero (m : ℕ) : reduce m 0 = 0 := if_pos rfl

theorem reduce_eq_zero : reduce m x = 0 ↔ x = 0 := by
  unfold reduce
  split_ifs with h
  · simp [h]
  · simp [h]

theorem reduce_le (hm : 0 < m) (x : ℕ) : reduce m x ≤ m := by
  unfold reduce
  split_ifs
  · exact Nat.zero_le m
  · exact Nat.mod_lt _ hm

theorem reduce_modEq (m x : ℕ) : reduce m x ≡ x [MOD m] := by
  unfold reduce
  split_ifs with h
  · rw [h]
  · have hone : (x - 1) % m + 1 ≡ x - 1 + 1 [MOD m] := (Nat.mod_modEq _ _).add_right 1
    rwa [Nat.sub_add_cancel (Nat.pos_of_ne_zero h)] at hone

/-- Numbers up to `m` are equal when they agree modulo `m` and in being zero. -/
theorem eq_of_modEq (hx : x ≤ m) (hy : y ≤ m) (hzero : x = 0 ↔ y = 0) (h : x ≡ y [MOD m]) :
    x = y := by
  by_cases hxm : x = m
  · subst hxm
    rcases Nat.lt_or_eq_of_le hy with hlt | rfl
    · have hy0 : y = 0 := by simpa [Nat.ModEq, Nat.mod_eq_of_lt hlt] using h.symm
      rw [hy0, hzero.mpr hy0]
    · rfl
  · have hlt : x < m := Nat.lt_of_le_of_ne hx hxm
    by_cases hym : y = m
    · subst hym
      have hx0 : x = 0 := by simpa [Nat.ModEq, Nat.mod_eq_of_lt hlt] using h
      rw [hx0, hzero.mp hx0]
    · exact h.eq_of_lt_of_lt hlt (Nat.lt_of_le_of_ne hy hym)

theorem reduce_eq_iff (hm : 0 < m) :
    reduce m x = reduce m y ↔ (x = 0 ↔ y = 0) ∧ x ≡ y [MOD m] := by
  constructor
  · intro h
    refine ⟨by rw [← reduce_eq_zero (m := m) (x := x), h, reduce_eq_zero], ?_⟩
    exact (reduce_modEq m x).symm.trans ((congrArg (· % m) h : _ ≡ _ [MOD m]).trans
      (reduce_modEq m y))
  · rintro ⟨hzero, h⟩
    refine eq_of_modEq (reduce_le hm x) (reduce_le hm y) ?_ ?_
    · rw [reduce_eq_zero, reduce_eq_zero, hzero]
    · exact ((reduce_modEq m x).trans h).trans (reduce_modEq m y).symm

theorem reduce_of_le (h : x ≤ m) : reduce m x = x := by
  rcases Nat.eq_zero_or_pos x with rfl | hpos
  · exact reduce_zero m
  · rw [reduce, if_neg hpos.ne', Nat.mod_eq_of_lt (by omega)]
    omega

theorem reduce_add_self (hm : 0 < m) (hx : x ≠ 0) : reduce m (x + m) = reduce m x :=
  (reduce_eq_iff hm).mpr ⟨by omega, by simp [Nat.ModEq]⟩

/-- Folding twice is folding once. -/
theorem reduce_reduce_add (hm : 0 < m) (x y : ℕ) :
    reduce m (reduce m x + y) = reduce m (x + y) := by
  refine (reduce_eq_iff hm).mpr ⟨?_, (reduce_modEq m x).add_right y⟩
  rw [Nat.add_eq_zero_iff, reduce_eq_zero, Nat.add_eq_zero_iff]

/-- One round that adds the carries to the rest. -/
theorem reduce_carry (hm : 0 < m) (x : ℕ) :
    reduce m (x / (m + 1) + x % (m + 1)) = reduce m x := by
  have hsplit := Nat.div_add_mod x (m + 1)
  refine (reduce_eq_iff hm).mpr ⟨?_, ?_⟩
  · constructor
    · intro h
      obtain ⟨hdiv, hmod⟩ := Nat.add_eq_zero_iff.mp h
      rw [hdiv, hmod] at hsplit
      simpa using hsplit.symm
    · rintro rfl
      simp
  · have hmul : x / (m + 1) + x % (m + 1) + m * (x / (m + 1)) = x := by
      rw [Nat.add_comm, ← Nat.add_assoc, ← Nat.succ_mul]
      exact hsplit
    conv_rhs => rw [← hmul]
    simp [Nat.ModEq]

theorem add_eq_reduce (ha : a ≤ m) (hb : b ≤ m) : add m a b = reduce m (a + b) := by
  unfold add
  split_ifs with h
  · exact (reduce_of_le h).symm
  · have hm : 0 < m := by omega
    have hsub : a + b - m ≤ m := by omega
    rw [← reduce_of_le hsub]
    refine (reduce_eq_iff hm).mpr ⟨by omega, ?_⟩
    have hback : a + b - m + m ≡ a + b - m [MOD m] := by simp [Nat.ModEq]
    rw [Nat.sub_add_cancel (by omega)] at hback
    exact hback.symm

/-- It makes no difference when the carries are brought back. -/
theorem sum_eq_reduce (hm : 0 < m) {ws : List ℕ} (h : ∀ w ∈ ws, w ≤ m) :
    sum m ws = reduce m ws.sum := by
  have hfold (ws : List ℕ) (h : ∀ w ∈ ws, w ≤ m) (x : ℕ) :
      ws.foldl (add m) (reduce m x) = reduce m (x + ws.sum) := by
    induction ws generalizing x with
    | nil => rfl
    | cons w ws ih =>
      obtain ⟨hw, hws⟩ := List.forall_mem_cons.mp h
      rw [List.foldl_cons, add_eq_reduce (reduce_le hm x) hw, reduce_reduce_add hm, ih hws,
        List.sum_cons, Nat.add_assoc]
  have hzero := hfold ws h 0
  rwa [reduce_zero, Nat.zero_add] at hzero

end NetworkLab.OnesComplement
