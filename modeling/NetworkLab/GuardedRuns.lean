import Mathlib.Logic.Relation

/-!
# Runs of a labelled system whose steps meet a side condition

A system is a step function on states and events; `none` means that the event
cannot happen in the state. A guarded run takes only steps that meet a side
condition on the state before the step and on the event. Invariants of such
runs are proved from one step at a time.
-/
namespace NetworkLab.GuardedRuns

variable {σ σ' ε ε' : Type*}

/-- States reached from an initial state by steps that all meet `ok`. -/
inductive Reaches (step : σ → ε → Option σ) (ok : σ → ε → Prop) (init : σ → Prop) : σ → Prop
  | start {s : σ} : init s → Reaches step ok init s
  | next {s t : σ} {e : ε} :
      Reaches step ok init s → ok s e → step s e = some t → Reaches step ok init t

/-- The side condition of a run that may take every step. -/
def anyStep (_ : σ) (_ : ε) : Prop := True

/-- A property that holds initially and that every allowed step preserves holds
in every state of every guarded run. -/
theorem Reaches.invariant {step : σ → ε → Option σ} {ok : σ → ε → Prop} {init : σ → Prop}
    {s : σ} (h : Reaches step ok init s) (Inv : σ → Prop) (hinit : ∀ s, init s → Inv s)
    (hstep : ∀ s e t, Inv s → ok s e → step s e = some t → Inv t) : Inv s := by
  induction h with
  | start hs => exact hinit _ hs
  | next _ hok hs ih => exact hstep _ _ _ ih hok hs

/-- A run under a side condition is a run under any weaker one. -/
theorem Reaches.weaken {step : σ → ε → Option σ} {ok ok' : σ → ε → Prop} {init : σ → Prop}
    (hok : ∀ s e, ok s e → ok' s e) {s : σ} (h : Reaches step ok init s) :
    Reaches step ok' init s := by
  induction h with
  | start hs => exact .start hs
  | next _ ho hs ih => exact .next ih (hok _ _ ho) hs

/-- Runs compose: what is reached from a reached state is reached. -/
theorem Reaches.trans {step : σ → ε → Option σ} {ok : σ → ε → Prop} {init : σ → Prop}
    {s t : σ} (hs : Reaches step ok init s) (ht : Reaches step ok (· = s) t) :
    Reaches step ok init t := by
  induction ht with
  | start h => exact h ▸ hs
  | next _ hok hst ih => exact .next ih hok hst

instance (s : σ) (e : ε) : Decidable (anyStep s e) := isTrue trivial

/-- Take the listed events in order, as long as each meets the side condition. -/
def exec (step : σ → ε → Option σ) (ok : σ → ε → Prop) [∀ s e, Decidable (ok s e)] :
    σ → List ε → Option σ
  | s, [] => some s
  | s, e :: es => if ok s e then (step s e).bind (fun t => exec step ok t es) else none

/-- A list of events that can be executed leads to a reached state. -/
theorem Reaches.of_exec {step : σ → ε → Option σ} {ok : σ → ε → Prop}
    [∀ s e, Decidable (ok s e)] {init : σ → Prop} {s t : σ} {es : List ε}
    (hs : Reaches step ok init s) (h : exec step ok s es = some t) :
    Reaches step ok init t := by
  induction es generalizing s with
  | nil =>
    simp only [exec, Option.some.injEq] at h
    exact h ▸ hs
  | cons e es ih =>
    simp only [exec] at h
    split at h
    next hok =>
      obtain ⟨u, hu, ht⟩ := Option.bind_eq_some_iff.mp h
      exact ih (.next hs hok hu) ht
    next => cases h

/-- The state that a list of events leads to is reached from its first state. -/
theorem Reaches.exec_get {step : σ → ε → Option σ} {ok : σ → ε → Prop}
    [∀ s e, Decidable (ok s e)] (s : σ) (es : List ε) (h : (exec step ok s es).isSome) :
    Reaches step ok (fun t => t = s) ((exec step ok s es).get h) :=
  .of_exec (.start rfl) (Option.some_get h).symm

/-- A list of events that can be executed and leads to a state with a property. -/
theorem exists_of_exec {step : σ → ε → Option σ} {ok : σ → ε → Prop}
    [∀ s e, Decidable (ok s e)] {init : σ → Prop} {s : σ} (hs : init s) (es : List ε)
    (P : σ → Prop) [DecidablePred P]
    (h : (exec step ok s es).any (fun t => decide (P t)) = true) :
    ∃ t, Reaches step ok init t ∧ P t := by
  cases hrun : exec step ok s es with
  | none =>
    rw [hrun] at h
    cases h
  | some t =>
    rw [hrun] at h
    exact ⟨t, .of_exec (.start hs) hrun, of_decide_eq_true h⟩

/-- The same for runs from one state. -/
theorem exists_of_exec_from {step : σ → ε → Option σ} {ok : σ → ε → Prop}
    [∀ s e, Decidable (ok s e)] (s : σ) (es : List ε) (P : σ → Prop) [DecidablePred P]
    (h : (exec step ok s es).any (fun t => decide (P t)) = true) :
    ∃ t, Reaches step ok (fun t => t = s) t ∧ P t := by
  obtain ⟨t, ht, hP⟩ := exists_of_exec (Eq.refl s) es P h
  refine ⟨t, ht.invariant _ (fun u hu => .start hu.symm) ?_, hP⟩
  exact fun u e v hu hok hstep => .next hu hok hstep

/-- Every step of the run has the property, as far as the run goes. -/
def Along (step : σ → ε → Option σ) (P : σ → ε → Prop) : σ → List ε → Prop
  | _, [] => True
  | s, e :: es => P s e ∧ ∀ t, step s e = some t → Along step P t es

/-- Two properties that agree on the steps of the system agree on its runs. -/
theorem along_congr {step : σ → ε → Option σ} {P Q : σ → ε → Prop} (h : ∀ s e, P s e ↔ Q s e)
    (s : σ) (es : List ε) : Along step P s es ↔ Along step Q s es := by
  induction es generalizing s with
  | nil => simp [Along]
  | cons e es ih => simp [Along, h, ih]

/-- Two properties that agree on the steps from states with an invariant, which the first one
keeps, agree on the runs. -/
theorem along_iff {step : σ → ε → Option σ} {P Q : σ → ε → Prop} (Inv : σ → Prop)
    (h : ∀ s e, Inv s → (P s e ↔ Q s e))
    (hstep : ∀ s e t, Inv s → P s e → step s e = some t → Inv t) {s : σ} (hs : Inv s)
    (es : List ε) : Along step P s es ↔ Along step Q s es := by
  induction es generalizing s with
  | nil => exact Iff.rfl
  | cons e es ih =>
    constructor
    · rintro ⟨hP, hrest⟩
      exact ⟨(h s e hs).mp hP, fun t ht => (ih (hstep s e t hs hP ht)).mp (hrest t ht)⟩
    · rintro ⟨hQ, hrest⟩
      have hP := (h s e hs).mpr hQ
      exact ⟨hP, fun t ht => (ih (hstep s e t hs hP ht)).mpr (hrest t ht)⟩

/-- The property holds of a step after the ones before it. -/
theorem Along.last {step : σ → ε → Option σ} {P : σ → ε → Prop} {s t : σ} {es : List ε} {e : ε}
    (h : Along step P s (es ++ [e])) (hrun : exec step anyStep s es = some t) : P t e := by
  induction es generalizing s with
  | nil =>
    obtain rfl : s = t := by simpa [exec] using hrun
    exact h.1
  | cons e' es ih =>
    obtain ⟨u, hu, hrest⟩ := Option.bind_eq_some_iff.mp hrun
    exact ih (h.2 u hu) hrest

end NetworkLab.GuardedRuns
