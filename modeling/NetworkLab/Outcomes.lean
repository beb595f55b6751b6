import Mathlib.Tactic.Common

/-!
# Postconditions of computations that can fail

A computation ends with a result or with an error, and each of the two has a
postcondition. The rules follow the structure of the computation.
-/
namespace NetworkLab.Outcomes

universe u

variable {ε : Type*} {α β : Type u}

/-- The result meets `post`, or the error meets `err`. -/
def Ends (r : Except ε α) (post : α → Prop) (err : ε → Prop) : Prop :=
  match r with
  | .ok a => post a
  | .error e => err e

@[simp] theorem ends_ok {a : α} {post : α → Prop} {err : ε → Prop} :
    Ends (.ok a) post err ↔ post a := Iff.rfl

@[simp] theorem ends_error {e : ε} {post : α → Prop} {err : ε → Prop} :
    Ends (.error e : Except ε α) post err ↔ err e := Iff.rfl

theorem Ends.mono {r : Except ε α} {post post' : α → Prop} {err : ε → Prop}
    (h : Ends r post err) (hpost : ∀ a, post a → post' a) : Ends r post' err := by
  cases r with
  | ok a => exact hpost a h
  | error e => exact h

/-- Sequencing: what the first part establishes is what the second starts from. -/
theorem Ends.bind {r : Except ε α} {f : α → Except ε β} {post : α → Prop} {post' : β → Prop}
    {err : ε → Prop} (h : Ends r post err) (hf : ∀ a, post a → Ends (f a) post' err) :
    Ends (r >>= f) post' err := by
  cases r with
  | ok a => exact hf a h
  | error e => exact h

theorem Ends.and {r : Except ε α} {post post' : α → Prop} {err err' : ε → Prop}
    (h : Ends r post err) (h' : Ends r post' err') :
    Ends r (fun a => post a ∧ post' a) (fun e => err e ∧ err' e) := by
  cases r with
  | ok a => exact ⟨h, h'⟩
  | error e => exact ⟨h, h'⟩

theorem Ends.map {r : Except ε α} {f : α → β} {post : α → Prop} {post' : β → Prop}
    {err : ε → Prop} (h : Ends r post err) (hf : ∀ a, post a → post' (f a)) :
    Ends (f <$> r) post' err := by
  cases r with
  | ok a => exact hf a h
  | error e => exact h

end NetworkLab.Outcomes
