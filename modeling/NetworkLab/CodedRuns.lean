import NetworkLab.GuardedRuns

/-!
# Runs of a system on coded states

Where each step of the system on the codes is one of the system itself, and the other way round,
the codes of the reached states are what the system on the codes reaches.
-/
namespace NetworkLab.GuardedRuns

variable {σ σ' ε ε' α β : Type*} {step : σ → ε → Option σ} {step' : σ' → ε' → Option σ'}
  {inv : σ → Prop} {code : σ → σ'} {event : ε' → ε}

/-- From states with an invariant the steps on the codes are the steps of the system. -/
structure Codes (step : σ → ε → Option σ) (step' : σ' → ε' → Option σ') (inv : σ → Prop)
    (code : σ → σ') (event : ε' → ε) : Prop where
  keeps : ∀ s e t, inv s → step s e = some t → inv t
  forward : ∀ s e t, inv s → step s e = some t →
    ∃ e', event e' = e ∧ step' (code s) e' = some (code t)
  backward : ∀ s e' t', inv s → step' (code s) e' = some t' →
    ∃ t, step s (event e') = some t ∧ t' = code t

theorem Codes.reaches_iff (h : Codes step step' inv code event) {ok : σ → ε → Prop}
    {ok' : σ' → ε' → Prop} (hok : ∀ s e', inv s → (ok' (code s) e' ↔ ok s (event e'))) {s₀ : σ}
    (hs₀ : inv s₀) (s' : σ') : Reaches step' ok' (fun x => x = code s₀) s' ↔
      ∃ s, Reaches step ok (fun x => x = s₀) s ∧ s' = code s := by
  constructor
  · intro hs'
    have hboth : ∃ s, inv s ∧ Reaches step ok (fun x => x = s₀) s ∧ s' = code s := by
      induction hs' with
      | start heq => exact ⟨s₀, hs₀, .start rfl, heq⟩
      | next _ hok' hstep ih =>
        obtain ⟨s, hinv, hs, rfl⟩ := ih
        obtain ⟨t, ht, rfl⟩ := h.backward _ _ _ hinv hstep
        exact ⟨t, h.keeps _ _ _ hinv ht, .next hs ((hok _ _ hinv).mp hok') ht, rfl⟩
    obtain ⟨s, -, hs⟩ := hboth
    exact ⟨s, hs⟩
  · rintro ⟨s, hs, rfl⟩
    have hboth : inv s ∧ Reaches step' ok' (fun x => x = code s₀) (code s) := by
      induction hs with
      | start heq =>
        subst heq
        exact ⟨hs₀, .start rfl⟩
      | next _ hoks hstep ih =>
        obtain ⟨hinv, hs'⟩ := ih
        obtain ⟨e', rfl, hstep'⟩ := h.forward _ _ _ hinv hstep
        exact ⟨h.keeps _ _ _ hinv hstep, .next hs' ((hok _ _ hinv).mpr hoks) hstep'⟩
    exact hboth.2

/-- What is taken out of a list is taken out of the list of codes, if nothing else in the list has
its code. -/
theorem erase_map_of_inj [BEq α] [LawfulBEq α] [BEq β] [LawfulBEq β] {f : α → β} {a : α}
    {l : List α} (h : ∀ b ∈ l, f b = f a → b = a) :
    (l.map f).erase (f a) = (l.erase a).map f := by
  induction l with
  | nil => rfl
  | cons b l ih =>
    by_cases hb : b = a
    · simp [hb]
    · have hcode : f b ≠ f a := fun heq => hb (h b List.mem_cons_self heq)
      have hrest := ih fun c hc => h c (List.mem_cons_of_mem b hc)
      simp [hb, hcode, hrest]

end NetworkLab.GuardedRuns
