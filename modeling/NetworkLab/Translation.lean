import Mathlib.Algebra.Group.Nat.Defs
import Mathlib.Data.List.Basic
import Mathlib.Tactic.Common

/-!
# Comparing 32-bit numbers before and after a translation

Translation by a constant keeps equality and differences. It keeps the order of
two different numbers exactly when it takes both across `2 ^ 32` or neither.
-/
namespace NetworkLab.Translation

/-- Adding `k` takes both numbers across `2 ^ 32` or neither. -/
def SameSide (k a b : UInt32) : Prop :=
  a.toNat + k.toNat < 2 ^ 32 ↔ b.toNat + k.toNat < 2 ^ 32

instance (k a b : UInt32) : Decidable (SameSide k a b) :=
  inferInstanceAs (Decidable (_ ↔ _))

/-- The two numbers compare in the same way after the translation by `k`. -/
def Keeps (k a b : UInt32) : Prop := a = b ∨ SameSide k a b

instance (k a b : UInt32) : Decidable (Keeps k a b) := inferInstanceAs (Decidable (_ ∨ _))

theorem lt_add_iff (k a b : UInt32) : (a + k < b + k ↔ a < b) ↔ Keeps k a b := by
  have ha := a.toNat_lt
  have hb := b.toNat_lt
  have hk := k.toNat_lt
  unfold Keeps SameSide
  rw [UInt32.lt_iff_toNat_lt, UInt32.lt_iff_toNat_lt, ← UInt32.toNat_inj, UInt32.toNat_add,
    UInt32.toNat_add]
  omega

theorem Keeps.symm {k a b : UInt32} (h : Keeps k a b) : Keeps k b a :=
  h.imp Eq.symm Iff.symm

theorem Keeps.lt_iff {k a b : UInt32} (h : Keeps k a b) : a + k < b + k ↔ a < b :=
  (lt_add_iff k a b).mpr h

/-- Where the translation changes an order, it turns it round. -/
theorem lt_add_iff_not_of_not_keeps {k a b : UInt32} (h : ¬Keeps k a b) :
    a + k < b + k ↔ ¬a < b := by
  have hiff := (lt_add_iff k a b).not.mpr h
  tauto

theorem sub_add_eq (k a b : UInt32) : a + k - (b + k) = a - b := by
  grind

section Walk

variable {α : Type*}

/-- `ok` holds of every element that a walk along the list looks at; the walk goes on
as long as `more` holds. -/
def AlongWalk (more ok : α → Prop) : List α → Prop
  | [] => True
  | a :: l => ok a ∧ (more a → AlongWalk more ok l)

instance decidableAlongWalk (more ok : α → Prop) [DecidablePred more] [DecidablePred ok] :
    (l : List α) → Decidable (AlongWalk more ok l)
  | [] => isTrue trivial
  | _ :: l =>
    have := decidableAlongWalk more ok l
    inferInstanceAs (Decidable (_ ∧ (_ → _)))

end Walk

end NetworkLab.Translation
