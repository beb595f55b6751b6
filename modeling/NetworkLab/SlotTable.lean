import Mathlib.Tactic

/-!
# Tables with a key in each slot

A table has a fixed set of slots, and a slot is free or has a key with a value. A scan over the
slots finds the first one with a key. What it finds is the last value that was stored for the key
as long as no key is in two slots.
-/
namespace NetworkLab.SlotTable

variable {ι κ ν : Type*}

/-- The value of the first slot with the key. -/
def lookup [DecidableEq κ] (slots : List ι) (t : ι → Option (κ × ν)) (key : κ) : Option ν :=
  slots.findSome? fun i => (t i).bind fun entry => if entry.1 = key then some entry.2 else none

/-- The slot has the key. -/
def Holds (t : ι → Option (κ × ν)) (i : ι) (key : κ) : Prop := ∃ value, t i = some (key, value)

/-- No key is in two slots. -/
def OneEach (t : ι → Option (κ × ν)) : Prop :=
  ∀ i j key, Holds t i key → Holds t j key → i = j

variable {slots : List ι} {t t' : ι → Option (κ × ν)} {i s : ι} {key : κ} {value : ν}

theorem lookup_eq_some [DecidableEq κ] (h : OneEach t) (hi : i ∈ slots)
    (hvalue : t i = some (key, value)) : lookup slots t key = some value := by
  cases hfound : lookup slots t key with
  | none =>
    have hnone := List.findSome?_eq_none_iff.mp hfound i hi
    rw [hvalue, Option.bind_some, if_pos rfl] at hnone
    cases hnone
  | some value' =>
    obtain ⟨j, -, hj⟩ := List.exists_of_findSome?_eq_some hfound
    obtain ⟨⟨key', value''⟩, hentry, hkey⟩ := Option.bind_eq_some_iff.mp hj
    split_ifs at hkey with heq
    obtain rfl : key' = key := heq
    obtain rfl := h i j key' ⟨value, hvalue⟩ ⟨value'', hentry⟩
    rw [hvalue] at hentry
    rw [← Option.some.inj hkey, ← Option.some.inj hentry]

/-- Slots may be freed, and values changed. -/
theorem OneEach.of_holds (h : OneEach t) (hsub : ∀ i key, Holds t' i key → Holds t i key) :
    OneEach t' :=
  fun i j key hi hj => h i j key (hsub i key hi) (hsub j key hj)

variable [DecidableEq ι]

theorem holds_update_same : Holds (Function.update t s (some (key, value))) s key :=
  ⟨value, Function.update_self ..⟩

theorem holds_update_of_ne (h : i ≠ s) (key' : κ) :
    Holds (Function.update t s (some (key, value))) i key' ↔ Holds t i key' := by
  rw [Holds, Holds, Function.update_of_ne h]

theorem key_of_holds_update {key' : κ}
    (h : Holds (Function.update t s (some (key, value))) s key') : key' = key := by
  obtain ⟨value', h⟩ := h
  rw [Function.update_self] at h
  exact (Prod.mk.inj (Option.some.inj h)).1.symm

/-- A slot can be given a key that no other slot has. -/
theorem oneEach_update_iff (h : OneEach t) :
    OneEach (Function.update t s (some (key, value))) ↔ ∀ i, Holds t i key → i = s := by
  constructor
  · intro hone i hi
    by_contra hne
    exact hne (hone i s key ((holds_update_of_ne hne key).mpr hi) holds_update_same)
  · intro honly i j key' hi hj
    by_cases his : i = s
    · subst his
      by_contra hne
      rw [key_of_holds_update hi, holds_update_of_ne (Ne.symm hne)] at hj
      exact hne (honly j hj).symm
    · by_cases hjs : j = s
      · subst hjs
        rw [key_of_holds_update hj, holds_update_of_ne his] at hi
        exact absurd (honly i hi) his
      · rw [holds_update_of_ne his] at hi
        rw [holds_update_of_ne hjs] at hj
        exact h i j key' hi hj

/-- The value that has been stored is found. -/
theorem lookup_update [DecidableEq κ] (hs : s ∈ slots)
    (h : OneEach (Function.update t s (some (key, value)))) :
    lookup slots (Function.update t s (some (key, value))) key = some value :=
  lookup_eq_some h hs (Function.update_self ..)

end NetworkLab.SlotTable
