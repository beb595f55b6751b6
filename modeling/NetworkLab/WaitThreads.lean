import Mathlib.Data.List.Nodup
import Mathlib.Logic.Function.Basic
import NetworkLab.GuardedRuns
import NetworkLab.SynchWait

/-!
# Many threads on one `synch_wait`

Any number of threads call `sleep_on`, `wake_up` and `wait_exit` on one event.
`sleep` says whether a thread waits, but the first thread that returns clears it
for all of them. A `wake_up` or a `wait_exit` after that leaves the other threads
blocked.
-/
namespace NetworkLab

open GuardedRuns

/-- The event and the position of every thread in its `sleep_on`; `none` for a
thread that is outside of it. -/
structure WaitThreads (τ : Type*) where
  wait : SynchWait τ
  pos : τ → Option SleepPc

namespace WaitThreads

/-- What the threads do. In `wakeUp u r` the caller is `u` and a signal, if there
is one, goes to `r`. -/
inductive Event (τ : Type*)
  | call (t : τ)
  | sleepOn (t : τ)
  | spurious (t : τ)
  | wakeUp (u r : τ)
  | waitExit (u : τ)

variable {τ : Type*}

def Initial (s : WaitThreads τ) : Prop :=
  s.wait = SynchWait.waitInit ∧ ∀ t, s.pos t = none

section Step

variable [DecidableEq τ]

/-- One step of one thread. A call of `wake_up` or `wait_exit` is one critical
section; a signal goes to a blocked thread whenever there is one, and
`pthread_cond_wait` may return without a signal. -/
def step (s : WaitThreads τ) : Event τ → Option (WaitThreads τ)
  | .call t =>
    if s.pos t = none then some { s with pos := Function.update s.pos t (some .lock) } else none
  | .sleepOn t =>
    (s.pos t).bind fun pc => (s.wait.sleepOn t pc).map fun (pos, wait) =>
      ⟨wait, Function.update s.pos t pos⟩
  | .spurious t =>
    if t ∈ s.wait.blocked then some { s with wait := s.wait.condSignal t } else none
  | .wakeUp u r =>
    if s.pos u = none ∧ (r ∈ s.wait.blocked ∨ s.wait.blocked = []) then
      (s.wait.wakeUp r).map fun wait => { s with wait := wait }
    else none
  | .waitExit u =>
    if s.pos u = none then s.wait.waitExit.map fun wait => { s with wait := wait } else none

/-- Thread `t` is inside `pthread_cond_wait` and its next step returns from `sleep_on`. -/
def CanReturn (s : WaitThreads τ) (t : τ) : Prop :=
  s.pos t = some .wait ∧ ∃ s', s.step (.sleepOn t) = some s' ∧ s'.pos t = none

end Step

/-- Threads block only as long as nothing has happened or a released thread is
still to come; nobody blocks on a dead event. -/
structure Awake (s : WaitThreads τ) : Prop where
  notified : s.wait.notified = true → s.wait.blocked ≠ [] → s.wait.signalled ≠ []
  dead : s.wait.dead = true → s.wait.blocked = []

/-- The side condition on the steps: a call of `wake_up` or `wait_exit` that has
something to say to blocked threads finds `sleep` set. -/
def SleepSeen (s : WaitThreads τ) : Event τ → Prop
  | .wakeUp _ _ => s.wait.dead = false → s.wait.notified = false → s.wait.blocked ≠ [] →
      s.wait.sleep = true ∨ s.wait.signalled ≠ []
  | .waitExit _ => s.wait.dead = false → s.wait.blocked ≠ [] → s.wait.sleep = true
  | _ => True

instance (s : WaitThreads τ) (e : Event τ) : Decidable (s.SleepSeen e) := by
  cases e <;> simp only [SleepSeen] <;> infer_instance

/-- How the mutex, the positions and the condition variable hang together. -/
structure Consistent (s : WaitThreads τ) : Prop where
  held : ∀ t, s.pos t = some .test → s.wait.lock = true
  single : ∀ t u, s.pos t = some .test → s.pos u = some .test → t = u
  alive : s.wait.lock = true → s.wait.dead = false
  inside : ∀ t, s.pos t = some .wait ↔ t ∈ s.wait.blocked ++ s.wait.signalled
  nodup : (s.wait.blocked ++ s.wait.signalled).Nodup

theorem Consistent.of_initial {s : WaitThreads τ} (h : Initial s) : s.Consistent := by
  obtain ⟨hw, hp⟩ := h
  exact ⟨by simp [hp], by simp [hp], by simp [hw, SynchWait.waitInit],
    by simp [hp, hw, SynchWait.waitInit], by simp [hw, SynchWait.waitInit]⟩

/-- A critical section of a thread outside of `sleep_on` keeps the mutex free and
only moves threads from `blocked` to `signalled`. -/
theorem Consistent.of_perm {s : WaitThreads τ} (h : s.Consistent) {wait : SynchWait τ}
    (hlock : wait.lock = s.wait.lock) (hdead : wait.lock = true → wait.dead = s.wait.dead)
    (hperm : (wait.blocked ++ wait.signalled).Perm (s.wait.blocked ++ s.wait.signalled)) :
    Consistent { s with wait := wait } where
  held t ht := by
    simpa [hlock] using h.held t ht
  single := h.single
  alive hl := by
    simpa [hdead hl] using h.alive (hlock ▸ hl)
  inside t := (h.inside t).trans hperm.mem_iff.symm
  nodup := hperm.nodup_iff.mpr h.nodup

section Preserved

variable [DecidableEq τ]

theorem Consistent.sleepOn {s s' : WaitThreads τ} (h : s.Consistent) {t : τ}
    (hstep : s.step (.sleepOn t) = some s') : s'.Consistent := by
  obtain ⟨pc, hpos, hmap⟩ := Option.bind_eq_some_iff.mp hstep
  obtain ⟨⟨pos, wait⟩, hgo, rfl⟩ := Option.map_eq_some_iff.mp hmap
  obtain ⟨rfl, hl, hd, rfl, rfl⟩ | ⟨rfl, hl, hd, rfl, rfl⟩ | ⟨rfl, hn, rfl, rfl⟩ |
    ⟨rfl, hn, rfl, rfl⟩ | ⟨rfl, hl, ht, rfl, rfl⟩ := SynchWait.sleepOn_cases hgo
  · refine ⟨fun u hu => h.held u ?_, fun u v hu hv => h.single u v ?_ ?_, h.alive, ?_, h.nodup⟩
    all_goals grind [Function.update_apply, h.inside]
  · refine ⟨fun _ _ => rfl, ?_, fun _ => hd, ?_, h.nodup⟩
    · grind [Function.update_apply, h.held]
    · grind [Function.update_apply, h.inside]
  · have hlock := h.held t hpos
    have hsingle := fun u => h.single t u hpos
    refine ⟨?_, ?_, by simp, ?_, h.nodup⟩
    all_goals grind [Function.update_apply, h.inside]
  · have hout : t ∉ s.wait.blocked ++ s.wait.signalled := by
      intro ht
      simp [(h.inside t).mpr ht] at hpos
    have hsingle := fun u => h.single t u hpos
    refine ⟨?_, ?_, by simp, ?_, List.nodup_cons.mpr ⟨hout, h.nodup⟩⟩
    all_goals grind [Function.update_apply, h.inside]
  · have hnodup := List.nodup_append.mp h.nodup
    refine ⟨?_, ?_, by simp [hl], ?_, ?_⟩
    · grind [Function.update_apply, h.held]
    · grind [Function.update_apply, h.held]
    · have herase := fun u => hnodup.2.1.mem_erase_iff (a := u) (b := t)
      have hb : t ∉ s.wait.blocked := fun hb => hnodup.2.2 t hb t ht rfl
      grind [Function.update_apply, h.inside]
    · exact h.nodup.sublist (.append_left (List.erase_sublist) _)

theorem Consistent.wakeUp {s s' : WaitThreads τ} (h : s.Consistent) {u r : τ}
    (hstep : s.step (.wakeUp u r) = some s') : s'.Consistent := by
  simp only [step] at hstep
  split at hstep
  next =>
    obtain ⟨wait, hw, rfl⟩ := Option.map_eq_some_iff.mp hstep
    obtain ⟨hl, ⟨rfl, -⟩ | ⟨-, -, ⟨-, rfl⟩ | ⟨-, rfl⟩⟩⟩ := SynchWait.wakeUp_cases hw
    · exact h
    · refine h.of_perm ?_ ?_ (SynchWait.condSignal_perm _ r)
      all_goals simp only [SynchWait.condSignal]; split <;> simp
    · exact h.of_perm rfl (fun _ => rfl) (.refl _)
  next => cases hstep

theorem Consistent.waitExit {s s' : WaitThreads τ} (h : s.Consistent) {u : τ}
    (hstep : s.step (.waitExit u) = some s') : s'.Consistent := by
  simp only [step] at hstep
  split at hstep
  next =>
    obtain ⟨wait, hw, rfl⟩ := Option.map_eq_some_iff.mp hstep
    obtain ⟨hl, ⟨rfl, -⟩ | ⟨-, ⟨-, rfl⟩ | ⟨-, rfl⟩⟩⟩ := SynchWait.waitExit_cases hw
    · exact h
    · exact h.of_perm rfl (by simp [SynchWait.condBroadcast, hl])
        (by simp [SynchWait.condBroadcast])
    · exact h.of_perm rfl (by simp [hl]) (.refl _)
  next => cases hstep

theorem Consistent.step {s s' : WaitThreads τ} {e : Event τ} (h : s.Consistent)
    (hstep : s.step e = some s') : s'.Consistent := by
  cases e with
  | call t =>
    simp only [WaitThreads.step] at hstep
    split at hstep
    next hpos =>
      cases hstep
      refine ⟨?_, ?_, h.alive, ?_, h.nodup⟩
      · grind [Function.update_apply, h.held]
      · grind [Function.update_apply, h.single]
      · grind [Function.update_apply, h.inside]
    next => cases hstep
  | sleepOn t => exact h.sleepOn hstep
  | spurious t =>
    simp only [WaitThreads.step] at hstep
    split at hstep
    next =>
      cases hstep
      refine h.of_perm ?_ ?_ (SynchWait.condSignal_perm _ t)
      all_goals simp only [SynchWait.condSignal]; split <;> simp
    next => cases hstep
  | wakeUp u r => exact h.wakeUp hstep
  | waitExit u => exact h.waitExit hstep

/-- After a `wake_up` nobody blocks next to a pending notification exactly when the
call was seen. -/
theorem Awake.wakeUp_iff {s s' : WaitThreads τ} (ha : s.Awake) {u r : τ}
    (hstep : s.step (.wakeUp u r) = some s') : s'.Awake ↔ s.SleepSeen (.wakeUp u r) := by
  simp only [WaitThreads.step] at hstep
  split at hstep
  next hr =>
    obtain ⟨wait, hw, rfl⟩ := Option.map_eq_some_iff.mp hstep
    obtain ⟨hl, ⟨rfl, hd⟩ | ⟨hd, hn, ⟨hs, rfl⟩ | ⟨hs, rfl⟩⟩⟩ := SynchWait.wakeUp_cases hw
    · refine iff_of_true ha fun hd' hn' => ?_
      simp [hd', hn'] at hd
    · refine iff_of_true ⟨fun _ hb => ?_, ?_⟩ fun _ _ _ => .inl hs
      · simp only [SynchWait.condSignal] at hb ⊢
        grind
      · simp only [SynchWait.condSignal]
        grind
    · constructor
      · intro h _ _ hb
        exact .inr (h.notified rfl hb)
      · intro h
        refine ⟨fun _ hb => ?_, ha.dead⟩
        simpa [hs] using h hd hn hb
  next => cases hstep

theorem Awake.waitExit_iff {s s' : WaitThreads τ} (ha : s.Awake) {u : τ}
    (hstep : s.step (.waitExit u) = some s') : s'.Awake ↔ s.SleepSeen (.waitExit u) := by
  simp only [WaitThreads.step] at hstep
  split at hstep
  next =>
    obtain ⟨wait, hw, rfl⟩ := Option.map_eq_some_iff.mp hstep
    obtain ⟨hl, ⟨rfl, hd⟩ | ⟨hd, ⟨hs, rfl⟩ | ⟨hs, rfl⟩⟩⟩ := SynchWait.waitExit_cases hw
    · refine iff_of_true ha fun hd' => ?_
      simp [hd'] at hd
    · exact iff_of_true ⟨by simp [SynchWait.condBroadcast], by simp [SynchWait.condBroadcast]⟩
        fun _ _ => hs
    · constructor
      · intro h _ hb
        exact absurd (h.dead rfl) hb
      · intro h
        have hb : s.wait.blocked = [] := by
          by_contra hb
          simp [h hd hb] at hs
        exact ⟨by simp [hb], fun _ => hb⟩
  next => cases hstep

/-- The side condition is exact: a step keeps the sleepers awake exactly when it meets it. -/
theorem Awake.step_iff {s s' : WaitThreads τ} {e : Event τ} (hc : s.Consistent) (ha : s.Awake)
    (hstep : s.step e = some s') : s'.Awake ↔ s.SleepSeen e := by
  cases e with
  | call t =>
    simp only [WaitThreads.step] at hstep
    split at hstep
    next =>
      cases hstep
      exact iff_of_true ⟨ha.notified, ha.dead⟩ trivial
    next => cases hstep
  | sleepOn t =>
    refine iff_of_true ?_ trivial
    obtain ⟨pc, hpos, hmap⟩ := Option.bind_eq_some_iff.mp hstep
    obtain ⟨⟨pos, wait⟩, hgo, rfl⟩ := Option.map_eq_some_iff.mp hmap
    obtain ⟨rfl, hl, hd, rfl, rfl⟩ | ⟨rfl, hl, hd, rfl, rfl⟩ | ⟨rfl, hn, rfl, rfl⟩ |
      ⟨rfl, hn, rfl, rfl⟩ | ⟨rfl, hl, ht, rfl, rfl⟩ := SynchWait.sleepOn_cases hgo
    · exact ⟨ha.notified, ha.dead⟩
    · exact ⟨ha.notified, ha.dead⟩
    · exact ⟨by simp, ha.dead⟩
    · have hd := hc.alive (hc.held t hpos)
      exact ⟨by simp [hn], by simp [hd]⟩
    · exact ⟨by simp, ha.dead⟩
  | spurious t =>
    simp only [WaitThreads.step] at hstep
    split at hstep
    next ht =>
      cases hstep
      have hd : s.wait.dead = false := by
        by_contra hd
        simp [ha.dead (by simpa using hd)] at ht
      refine iff_of_true ⟨?_, ?_⟩ trivial
      · simp [SynchWait.condSignal, ht]
      · simp [SynchWait.condSignal, ht, hd]
    next => cases hstep
  | wakeUp u r => exact ha.wakeUp_iff hstep
  | waitExit u => exact ha.waitExit_iff hstep

/-- A released thread returns as soon as the mutex is free. -/
theorem Consistent.canReturn {s : WaitThreads τ} (h : s.Consistent) (hl : s.wait.lock = false)
    {t : τ} (ht : t ∈ s.wait.signalled) : s.CanReturn t := by
  have hpos : s.pos t = some .wait := (h.inside t).mpr (List.mem_append_right _ ht)
  refine ⟨hpos, ?_⟩
  simp only [WaitThreads.step, hpos, Option.bind_some, SynchWait.sleepOn, hl, ht, and_self,
    if_true, Option.map_some, Option.some.injEq, exists_eq_left']
  simp

/-- The critical sections of other threads leave the mutex free and take nobody out
of `pthread_cond_wait`. -/
theorem step_wakeUp {s s' : WaitThreads τ} {u r : τ} (hstep : s.step (.wakeUp u r) = some s') :
    s'.wait.lock = false ∧ s'.pos = s.pos ∧
      (s'.wait.dead = true ∨ s'.wait.notified = true) := by
  simp only [WaitThreads.step] at hstep
  split at hstep
  next =>
    obtain ⟨wait, hw, rfl⟩ := Option.map_eq_some_iff.mp hstep
    obtain ⟨hl, ⟨rfl, hd⟩ | ⟨-, -, ⟨-, rfl⟩ | ⟨-, rfl⟩⟩⟩ := SynchWait.wakeUp_cases hw
    · exact ⟨hl, rfl, hd⟩
    · simp only [SynchWait.condSignal]
      split <;> simp [hl]
    · exact ⟨hl, rfl, .inr rfl⟩
  next => cases hstep

theorem step_waitExit {s s' : WaitThreads τ} {u : τ} (hstep : s.step (.waitExit u) = some s') :
    s'.wait.lock = false ∧ s'.pos = s.pos ∧ s'.wait.dead = true := by
  simp only [WaitThreads.step] at hstep
  split at hstep
  next =>
    obtain ⟨wait, hw, rfl⟩ := Option.map_eq_some_iff.mp hstep
    obtain ⟨hl, ⟨rfl, hd⟩ | ⟨-, ⟨-, rfl⟩ | ⟨-, rfl⟩⟩⟩ := SynchWait.waitExit_cases hw
    · exact ⟨hl, rfl, hd⟩
    · exact ⟨hl, rfl, rfl⟩
    · exact ⟨hl, rfl, rfl⟩
  next => cases hstep

/-- On an awake event that is notified and not held, one of the waiting threads can return. -/
theorem Awake.exists_canReturn {s : WaitThreads τ} (ha : s.Awake) (hc : s.Consistent)
    (hl : s.wait.lock = false) (hn : s.wait.dead = true ∨ s.wait.notified = true) {t : τ}
    (ht : s.pos t = some .wait) : ∃ r, s.pos r = some .wait ∧ s.CanReturn r := by
  have hsig : s.wait.signalled ≠ [] := by
    obtain hb | hs := List.mem_append.mp ((hc.inside t).mp ht)
    · obtain hd | hn := hn
      · simp [ha.dead hd] at hb
      · exact ha.notified hn (List.ne_nil_of_mem hb)
    · exact List.ne_nil_of_mem hs
  obtain ⟨r, hr⟩ := List.exists_mem_of_ne_nil _ hsig
  have hret := hc.canReturn hl hr
  exact ⟨r, hret.1, hret⟩

/-- On a dead event that is awake, every waiting thread can return. -/
theorem Awake.canReturn {s : WaitThreads τ} (ha : s.Awake) (hc : s.Consistent)
    (hd : s.wait.dead = true) {t : τ} (ht : s.pos t = some .wait) : s.CanReturn t := by
  have hl : s.wait.lock = false := by
    by_contra hl
    simp [hc.alive (by simpa using hl)] at hd
  refine hc.canReturn hl ?_
  simpa [ha.dead hd] using (hc.inside t).mp ht

theorem consistent_and_awake {s : WaitThreads τ} (h : Reaches step SleepSeen Initial s) :
    s.Consistent ∧ s.Awake := by
  refine h.invariant (fun s => s.Consistent ∧ s.Awake) ?_ ?_
  · intro s hs
    exact ⟨.of_initial hs, by simp [hs.1, SynchWait.waitInit], by simp [hs.1, SynchWait.waitInit]⟩
  · intro s e s' ⟨hc, ha⟩ hok hstep
    exact ⟨hc.step hstep, (ha.step_iff hc hstep).mpr hok⟩

end Preserved

/-- In a run where every `wake_up` and `wait_exit` sees its sleepers, no thread is
left blocked: a `wake_up` lets one of the waiting threads return and a `wait_exit`
all of them. One call that does not see them breaks this. -/
theorem wake_ups_reach_a_sleeper [DecidableEq τ] {s : WaitThreads τ}
    (h : Reaches step SleepSeen Initial s) :
    s.Awake ∧
    (∀ u r s', s.SleepSeen (.wakeUp u r) → s.step (.wakeUp u r) = some s' →
      ∀ t, s.pos t = some .wait → ∃ t', s.pos t' = some .wait ∧ s'.CanReturn t') ∧
    (∀ u s', s.SleepSeen (.waitExit u) → s.step (.waitExit u) = some s' →
      ∀ t, s.pos t = some .wait → s'.CanReturn t) ∧
    ∀ e s', s.step e = some s' → (s'.Awake ↔ s.SleepSeen e) := by
  obtain ⟨hc, ha⟩ := consistent_and_awake h
  refine ⟨ha, ?_, ?_, fun e s' hstep => ha.step_iff hc hstep⟩
  · intro u r s' hok hstep t ht
    obtain ⟨hl, hpos, hn⟩ := step_wakeUp hstep
    have ha' : s'.Awake := (ha.step_iff hc hstep).mpr hok
    simpa only [hpos] using ha'.exists_canReturn (hc.step hstep) hl hn (hpos ▸ ht)
  · intro u s' hok hstep t ht
    obtain ⟨-, hpos, hd⟩ := step_waitExit hstep
    have ha' : s'.Awake := (ha.step_iff hc hstep).mpr hok
    exact ha'.canReturn (hc.step hstep) hd (hpos ▸ ht)

/-- Nobody uses a new event. -/
def start : WaitThreads ℕ := ⟨SynchWait.waitInit, fun _ => none⟩

theorem initial_start : Initial start := ⟨rfl, fun _ => rfl⟩

/-- Thread `t` calls `sleep_on` and blocks. -/
def blocks (t : ℕ) : List (Event ℕ) := [.call t, .sleepOn t, .sleepOn t]

/-- Two threads sleep and a third one wakes one of them. -/
theorem wake_ups_reach_a_sleeper_two : ∃ s s' : WaitThreads ℕ,
    s.pos 0 = some .wait ∧ s.pos 1 = some .wait ∧ s.step (.wakeUp 2 0) = some s' ∧
      ∃ t, s.pos t = some .wait ∧ s'.CanReturn t := by
  obtain ⟨s, hs, h0, h1, hseen, hsome⟩ : ∃ s : WaitThreads ℕ, Reaches step SleepSeen Initial s ∧
      s.pos 0 = some .wait ∧ s.pos 1 = some .wait ∧ s.SleepSeen (.wakeUp 2 0) ∧
        (s.step (.wakeUp 2 0)).isSome :=
    exists_of_exec initial_start (blocks 0 ++ blocks 1) _ (by decide +kernel)
  obtain ⟨s', hs'⟩ := Option.isSome_iff_exists.mp hsome
  exact ⟨s, s', h0, h1, hs', (wake_ups_reach_a_sleeper hs).2.1 2 0 s' hseen hs' 0 h0⟩

/-- Two threads sleep, one is woken and returns, and nobody is told of the next
`wake_up` or of the `wait_exit`: the other thread stays blocked. -/
theorem sleeper_misses_wake_up :
    (∃ s : WaitThreads ℕ, Reaches step anyStep Initial s ∧ 1 ∈ s.wait.blocked ∧
      s.wait.notified = true ∧ s.wait.signalled = []) ∧
    ∃ s : WaitThreads ℕ, Reaches step anyStep Initial s ∧ 1 ∈ s.wait.blocked ∧
      s.wait.dead = true ∧ s.wait.signalled = [] := by
  constructor
  · exact exists_of_exec initial_start
      (blocks 0 ++ blocks 1 ++ [.wakeUp 2 0, .sleepOn 0, .wakeUp 2 1]) _ (by decide +kernel)
  · exact exists_of_exec initial_start
      (blocks 0 ++ blocks 1 ++ [.wakeUp 2 0, .sleepOn 0, .waitExit 2]) _ (by decide +kernel)

end WaitThreads

end NetworkLab
