import Mathlib.Data.List.Basic
import Mathlib.Data.List.Perm.Basic

/-!
# `synch_wait`: an event with a mutex and a condition variable

`sleep_on` holds the mutex over two steps, because its flag `sleep` is read by
other threads without the mutex. `wake_up` is one critical section.
-/
namespace NetworkLab

variable {τ : Type*}

/-- `struct synch_wait`, over the threads that use it. The condition variable is
the list of threads inside `pthread_cond_wait`; a signalled thread still has to
take the mutex back before it goes on. -/
structure SynchWait (τ : Type*) where
  lock : Bool
  notified : Bool
  dead : Bool
  sleep : Bool
  blocked : List τ
  signalled : List τ
  deriving DecidableEq

/-- Positions inside `sleep_on`: before the lock, at the test of `notified` with
the lock held, and inside `pthread_cond_wait`. -/
inductive SleepPc
  | lock
  | test
  | wait
  deriving DecidableEq

namespace SynchWait

/-- `wait_init`. -/
def waitInit : SynchWait τ := ⟨false, false, false, false, [], []⟩

/-- One step of `sleep_on` by thread `t`; `none` as the next position means that
the call has returned, no step that the thread has to wait. -/
def sleepOn [DecidableEq τ] (wait : SynchWait τ) (t : τ) :
    SleepPc → Option (Option SleepPc × SynchWait τ)
  | .lock =>
    if wait.lock then none
    else if wait.dead then some (none, wait)
    else some (some .test, { wait with lock := true, sleep := true })
  | .test =>
    if wait.notified then
      some (none, { wait with notified := false, sleep := false, lock := false })
    else some (some .wait, { wait with lock := false, blocked := t :: wait.blocked })
  | .wait =>
    if wait.lock = false ∧ t ∈ wait.signalled then
      some (none, { wait with
        notified := false, sleep := false, signalled := wait.signalled.erase t })
    else none

/-- `pthread_cond_signal` that releases `t`, if it is blocked. -/
def condSignal [DecidableEq τ] (wait : SynchWait τ) (t : τ) : SynchWait τ :=
  if t ∈ wait.blocked then
    { wait with blocked := wait.blocked.erase t, signalled := t :: wait.signalled }
  else wait

/-- `pthread_cond_broadcast`. -/
def condBroadcast (wait : SynchWait τ) : SynchWait τ :=
  { wait with blocked := [], signalled := wait.blocked ++ wait.signalled }

/-- `wait_exit`. -/
def waitExit (wait : SynchWait τ) : Option (SynchWait τ) :=
  if wait.lock then none
  else if wait.dead then some wait
  else if wait.sleep then some (condBroadcast { wait with dead := true })
  else some { wait with dead := true }

/-- `wake_up`, where a signal releases `t`. -/
def wakeUp [DecidableEq τ] (wait : SynchWait τ) (t : τ) : Option (SynchWait τ) :=
  if wait.lock then none
  else if wait.dead then some wait
  else if wait.notified then some wait
  else if wait.sleep then some (condSignal { wait with notified := true } t)
  else some { wait with notified := true }

/-- The state of an event whose only sleeper is `t`, at a position of its
`sleep_on` or outside of it. -/
def Serves (wait : SynchWait τ) (t : τ) : Option SleepPc → Prop
  | none | some .lock => wait.lock = false ∧ wait.dead = false ∧ wait.sleep = false ∧
      wait.blocked = [] ∧ wait.signalled = []
  | some .test => wait.lock = true ∧ wait.dead = false ∧ wait.sleep = true ∧
      wait.blocked = [] ∧ wait.signalled = []
  | some .wait => wait.lock = false ∧ wait.dead = false ∧ wait.sleep = true ∧
      (wait.notified = false ∧ wait.blocked = [t] ∧ wait.signalled = [] ∨
        wait.blocked = [] ∧ wait.signalled = [t])

theorem serves_waitInit (t : τ) : (waitInit : SynchWait τ).Serves t none :=
  ⟨rfl, rfl, rfl, rfl, rfl⟩

/-- The steps of `sleep_on`. -/
theorem sleepOn_cases [DecidableEq τ] {wait wait' : SynchWait τ} {t : τ} {pc : SleepPc}
    {pos : Option SleepPc} (h : wait.sleepOn t pc = some (pos, wait')) :
    (pc = .lock ∧ wait.lock = false ∧ wait.dead = true ∧ pos = none ∧ wait' = wait) ∨
    (pc = .lock ∧ wait.lock = false ∧ wait.dead = false ∧ pos = some .test ∧
      wait' = { wait with lock := true, sleep := true }) ∨
    (pc = .test ∧ wait.notified = true ∧ pos = none ∧
      wait' = { wait with notified := false, sleep := false, lock := false }) ∨
    (pc = .test ∧ wait.notified = false ∧ pos = some .wait ∧
      wait' = { wait with lock := false, blocked := t :: wait.blocked }) ∨
    (pc = .wait ∧ wait.lock = false ∧ t ∈ wait.signalled ∧ pos = none ∧
      wait' = { wait with
        notified := false, sleep := false, signalled := wait.signalled.erase t }) := by
  cases pc with
  | lock =>
    cases hl : wait.lock <;> cases hd : wait.dead <;> simp [sleepOn, hl, hd] at h ⊢ <;>
      simp [← h.1, ← h.2]
  | test =>
    cases hn : wait.notified <;> simp [sleepOn, hn] at h ⊢ <;> simp [← h.1, ← h.2]
  | wait =>
    simp only [sleepOn] at h
    split at h
    next hw =>
      cases h
      simp [hw]
    next => cases h

/-- The steps of `wake_up`. -/
theorem wakeUp_cases [DecidableEq τ] {wait wait' : SynchWait τ} {r : τ}
    (h : wait.wakeUp r = some wait') :
    wait.lock = false ∧
      (wait' = wait ∧ (wait.dead = true ∨ wait.notified = true) ∨
        wait.dead = false ∧ wait.notified = false ∧
          (wait.sleep = true ∧ wait' = condSignal { wait with notified := true } r ∨
            wait.sleep = false ∧ wait' = { wait with notified := true })) := by
  obtain ⟨lock, notified, dead, sleep, blocked, signalled⟩ := wait
  cases lock <;> cases dead <;> cases notified <;> cases sleep <;>
    simp [wakeUp] at h ⊢ <;> exact h.symm

/-- The steps of `wait_exit`. -/
theorem waitExit_cases {wait wait' : SynchWait τ} (h : wait.waitExit = some wait') :
    wait.lock = false ∧
      (wait' = wait ∧ wait.dead = true ∨
        wait.dead = false ∧
          (wait.sleep = true ∧ wait' = condBroadcast { wait with dead := true } ∨
            wait.sleep = false ∧ wait' = { wait with dead := true })) := by
  obtain ⟨lock, notified, dead, sleep, blocked, signalled⟩ := wait
  cases lock <;> cases dead <;> cases sleep <;>
    simp [waitExit] at h ⊢ <;> exact h.symm

/-- A signal moves a thread from one end of the condition variable to the other. -/
theorem condSignal_perm [DecidableEq τ] (wait : SynchWait τ) (t : τ) :
    ((wait.condSignal t).blocked ++ (wait.condSignal t).signalled).Perm
      (wait.blocked ++ wait.signalled) := by
  simp only [condSignal]
  split
  next ht =>
    have hmiddle : (wait.blocked.erase t ++ t :: wait.signalled).Perm
        (t :: wait.blocked.erase t ++ wait.signalled) := List.perm_middle
    exact hmiddle.trans ((List.perm_cons_erase ht).symm.append_right _)
  next => rfl

/-- The sleeper is blocked only inside `pthread_cond_wait`. -/
theorem Serves.blocked {wait : SynchWait τ} {t : τ} {pos : Option SleepPc}
    (h : wait.Serves t pos) (ht : t ∈ wait.blocked) :
    pos = some .wait ∧ wait.sleep = true ∧ wait.notified = false := by
  rcases pos with _ | _ | _ | _ <;> simp only [Serves] at h
  case none => simp [h.2.2.2.1] at ht
  case some.lock => simp [h.2.2.2.1] at ht
  case some.test => simp [h.2.2.2.1] at ht
  case some.wait =>
    obtain ⟨-, -, hs, ⟨hn, -, -⟩ | ⟨hb, -⟩⟩ := h
    · exact ⟨rfl, hs, hn⟩
    · simp [hb] at ht

/-- A thread inside `pthread_cond_wait` that is not blocked has been signalled. -/
theorem Serves.signalled {wait : SynchWait τ} {t : τ} (h : wait.Serves t (some .wait))
    (ht : t ∉ wait.blocked) : wait.lock = false ∧ t ∈ wait.signalled := by
  obtain ⟨hl, -, -, ⟨-, hb, -⟩ | ⟨-, hs⟩⟩ := h
  · simp [hb] at ht
  · exact ⟨hl, by simp [hs]⟩

section Step

variable [DecidableEq τ]

theorem Serves.sleepOn {wait wait' : SynchWait τ} {t : τ} {pc : SleepPc} {pos : Option SleepPc}
    (h : wait.Serves t (some pc)) (hstep : wait.sleepOn t pc = some (pos, wait')) :
    wait'.Serves t pos := by
  obtain ⟨lock, notified, dead, sleep, blocked, signalled⟩ := wait
  cases pc with
  | lock =>
    obtain ⟨rfl, rfl, rfl, rfl, rfl⟩ := h
    cases hstep
    exact ⟨rfl, rfl, rfl, rfl, rfl⟩
  | test =>
    obtain ⟨rfl, rfl, rfl, rfl, rfl⟩ := h
    cases notified with
    | true =>
      cases hstep
      exact ⟨rfl, rfl, rfl, rfl, rfl⟩
    | false =>
      cases hstep
      exact ⟨rfl, rfl, rfl, .inl ⟨rfl, rfl, rfl⟩⟩
  | wait =>
    obtain ⟨rfl, rfl, rfl, ⟨rfl, rfl, rfl⟩ | ⟨rfl, rfl⟩⟩ := h
    · cases hstep
    · have hw : pos = none ∧ wait' = ⟨false, false, false, false, [], []⟩ := by
        simpa [SynchWait.sleepOn, eq_comm] using hstep
      simp [hw, Serves]

/-- A blocked sleeper does not go on by itself. -/
theorem Serves.sleepOn_blocked {wait : SynchWait τ} {t : τ} {pos : Option SleepPc}
    (h : wait.Serves t pos) (ht : t ∈ wait.blocked) : wait.sleepOn t .wait = none := by
  obtain ⟨rfl, -, -⟩ := h.blocked ht
  obtain ⟨-, -, -, ⟨-, -, hg⟩ | ⟨hb, -⟩⟩ := h
  · simp [SynchWait.sleepOn, hg]
  · simp [hb] at ht

/-- After `wake_up` the sleeper is not blocked. -/
theorem Serves.wakeUp {wait wait' : SynchWait τ} {t : τ} {pos : Option SleepPc}
    (h : wait.Serves t pos) (hstep : wait.wakeUp t = some wait') :
    wait'.Serves t pos ∧ t ∉ wait'.blocked := by
  obtain ⟨lock, notified, dead, sleep, blocked, signalled⟩ := wait
  rcases pos with _ | _ | _ | _ <;> simp only [Serves] at h
  case some.test =>
    obtain ⟨rfl, -⟩ := h
    cases hstep
  case some.wait =>
    obtain ⟨rfl, rfl, rfl, ⟨rfl, rfl, rfl⟩ | ⟨rfl, rfl⟩⟩ := h
    · have hw : wait' = ⟨false, true, false, true, [], [t]⟩ := by
        simpa [SynchWait.wakeUp, condSignal] using hstep.symm
      simp [hw, Serves]
    · have hw : wait' = ⟨false, true, false, true, [], [t]⟩ := by
        cases notified <;> simpa [SynchWait.wakeUp, condSignal] using hstep.symm
      simp [hw, Serves]
  all_goals
    obtain ⟨rfl, rfl, rfl, rfl, rfl⟩ := h
    have hw : wait' = ⟨false, true, false, false, [], []⟩ := by
      cases notified <;> simpa [SynchWait.wakeUp] using hstep.symm
    simp [hw, Serves]

end Step

end SynchWait

end NetworkLab
