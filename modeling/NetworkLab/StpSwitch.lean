import NetworkLab.GuardedRuns
import NetworkLab.Stp

/-!
# Spanning tree protocol: runs of one switch

One switch with its hello timer takes any sequence of hello timeouts and configs.
Time is counted in ticks and read anew at every use, so readings are parameters
of the events. The switch has `n` ports, at most 32 in the source
(`STP_MAX_PORTS`), and what is shown for any `n` holds for these.
-/
namespace NetworkLab.Stp
open GuardedRuns

/-- `STP_HELLO_TIME` in ticks. -/
def stpHelloTime : ℤ := 2000 * 256 / 1000

/-- `stp_timer_t` without its handler. -/
structure StpTimer where
  active : Bool
  time : ℤ
  timeout : ℤ

def stpStartTimer (timer : StpTimer) (time : ℤ) : StpTimer :=
  { timer with active := true, time := time }

def stpStopTimer (timer : StpTimer) : StpTimer := { timer with active := false }

def stpCheckTimer (timer : StpTimer) (now : ℤ) : Bool × StpTimer :=
  if timer.active then
    if timer.time + timer.timeout ≤ now then (true, stpStopTimer timer) else (false, timer)
  else (false, timer)

/-- The switch and the time when its hello timer was set active. -/
structure TimedSwitch (n : ℕ) where
  stp : Switch n
  time : ℤ

namespace TimedSwitch

variable {n : ℕ}

def timer (s : TimedSwitch n) : StpTimer := ⟨s.stp.helloTimer, s.time, stpHelloTime⟩

def setTimer (s : TimedSwitch n) (timer : StpTimer) : TimedSwitch n :=
  ⟨{ s.stp with helloTimer := timer.active }, timer.time⟩

/-- `stp_handle_hello_timeout` with the configs it sends. -/
def handleHelloTimeout (s : TimedSwitch n) (now : ℤ) :
    TimedSwitch n × List (Fin n × StpConfig) :=
  (s.setTimer (stpStartTimer s.timer now), sendConfig s.stp)

/-- `stp_timer_run_once`; the handler reads the time again. -/
def timerRunOnce (s : TimedSwitch n) (now later : ℤ) :
    TimedSwitch n × List (Fin n × StpConfig) :=
  let checked := stpCheckTimer s.timer now
  if checked.1 then (s.setTimer checked.2).handleHelloTimeout later
  else (s.setTimer checked.2, [])

inductive Event (n : ℕ)
  | timer (now later : ℤ)
  | config (p : Fin n) (config : StpConfig)

/-- The next state. There is none when `root_path_cost` overflows, which is
undefined for an `int`. -/
def step (s : TimedSwitch n) : Event n → Option (TimedSwitch n)
  | .timer now later => some (s.timerRunOnce now later).1
  | .config p config =>
    let stp := (handleConfig s.stp p config).1
    if -2 ^ 31 ≤ stp.rootPathCost ∧ stp.rootPathCost < 2 ^ 31 then some { s with stp := stp }
    else none

/-- `stp_init` at some time. -/
def initial (n switchId : ℕ) (time : ℤ) : TimedSwitch n := ⟨stpInit n switchId, time⟩

/-- The configs of other switches, which count hops from the root; the cost is
unsigned in the packet. -/
def Admissible (s : TimedSwitch n) : Event n → Prop
  | .timer _ _ => True
  | .config _ config => config.switchId ≠ s.stp.switchId ∧
      0 ≤ config.rootPathCost ∧ config.rootPathCost < 2 ^ 31 - 1 ∧
      (config.rootPathCost = 0 → config.rootId = config.switchId)

instance (s : TimedSwitch n) (e : Event n) : Decidable (s.Admissible e) := by
  cases e <;> simp only [Admissible] <;> infer_instance

/-- A timeout changes nothing but the time. -/
theorem timerRunOnce_stp (s : TimedSwitch n) (now later : ℤ) :
    (s.timerRunOnce now later).1.stp = s.stp := by
  obtain ⟨⟨switchId, designatedRoot, rootPathCost, rootPort, helloTimer, ports⟩, time⟩ := s
  cases helloTimer with
  | false => simp [timerRunOnce, stpCheckTimer, timer, setTimer]
  | true =>
    by_cases hdue : time + stpHelloTime ≤ now
    · simp [timerRunOnce, stpCheckTimer, timer, setTimer, handleHelloTimeout, stpStartTimer,
        stpStopTimer, hdue]
    · simp [timerRunOnce, stpCheckTimer, timer, setTimer, hdue]

end TimedSwitch

variable {n : ℕ}

/-- Root, cost, root port and timer of a switch fit together, and designated ports
carry the root and cost of the switch. -/
structure Consistent (stp : Switch n) : Prop where
  root_le : stp.designatedRoot ≤ stp.switchId
  root_none_iff : stp.rootPort = none ↔ stp.designatedRoot = stp.switchId
  hello_iff : stp.designatedRoot = stp.switchId ↔ stp.helloTimer = true
  root_none : stp.rootPort = none → stp.rootPathCost = 0
  root_some : ∀ r, stp.rootPort = some r →
    stp.designatedRoot = (stp.ports r).designatedRoot ∧
    stp.rootPathCost = (stp.ports r).designatedCost + (stp.ports r).pathCost
  designated : ∀ i, stp.Designated i →
    (stp.ports i).designatedRoot = stp.designatedRoot ∧
    (stp.ports i).designatedCost = stp.rootPathCost

/-- What every event keeps: the vectors taken over from other switches name a root
below the switch. -/
structure Below (stp : Switch n) : Prop where
  wellFormed : WellFormed stp
  stored : ∀ i, ¬ stp.Designated i → (stp.ports i).designatedRoot < stp.switchId ∧
    0 ≤ (stp.ports i).designatedCost ∧ (stp.ports i).designatedCost < 2 ^ 31 - 1
  hello : stp.helloTimer = true ↔ stp.rootPort = none

theorem below_stpInit (n switchId : ℕ) : Below (stpInit n switchId) :=
  ⟨wellFormed_stpInit n switchId,
    fun i hi => absurd ((designated_iff _ i).mpr ⟨rfl, rfl⟩) hi, by simp [stpInit]⟩

theorem Below.consistent {stp : Switch n} (h : Below stp) : Consistent stp := by
  have hdesignated : ∀ i, stp.Designated i →
      (stp.ports i).designatedRoot = stp.designatedRoot ∧
      (stp.ports i).designatedCost = stp.rootPathCost := by
    intro i hi
    have hvec := h.wellFormed.designated i hi
    simp only [StpPort.vector, Switch.advert, Priority.mk.injEq] at hvec
    exact ⟨hvec.1, hvec.2.1⟩
  cases hroot : stp.rootPort with
  | none =>
    obtain ⟨-, hown, hzero⟩ := h.wellFormed.root_none hroot
    have hhello := h.hello.mpr hroot
    exact ⟨hown.le, by simp [hroot, hown], by simp [hown, hhello], fun _ => hzero,
      by simp [hroot], hdesignated⟩
  | some r =>
    obtain ⟨hr, hroot', hcost⟩ := h.wellFormed.root_some r hroot
    obtain ⟨hlt, -⟩ := h.stored r hr.not_designated
    have hhello : ¬ stp.helloTimer = true := fun ht => by simp [h.hello.mp ht] at hroot
    have hne : stp.designatedRoot ≠ stp.switchId := by omega
    refine ⟨by omega, by simp [hroot, hne], by simp [hne, hhello], by simp [hroot], ?_,
      hdesignated⟩
    intro r' hr'
    obtain rfl : r = r' := by simpa [hroot] using hr'
    exact ⟨hroot', by rw [hcost, h.wellFormed.path_cost]⟩

/-- A config that is taken over names a root below the switch. -/
theorem Below.rootId_lt {stp : Switch n} (h : Below stp) {p : Fin n} {config : StpConfig}
    (hle : config.vector.Le (stp.ports p).vector) (hid : config.switchId ≠ stp.switchId)
    (hcost : 0 ≤ config.rootPathCost)
    (hzero : config.rootPathCost = 0 → config.rootId = config.switchId) :
    config.rootId < stp.switchId := by
  by_cases hd : stp.Designated p
  · obtain ⟨hroot, hpathCost⟩ := h.consistent.designated p hd
    have hle' := h.consistent.root_le
    have hnone := h.consistent.root_none
    have hiff := h.consistent.root_none_iff
    simp only [Priority.Le, StpConfig.vector, StpPort.vector, hroot, hpathCost] at hle
    by_cases hown : stp.designatedRoot = stp.switchId
    · -- The switch is the root: a config with its own id as the root has a positive cost.
      have hown0 := hnone (hiff.mpr hown)
      by_contra hge
      have hsame : config.rootId = stp.switchId := by omega
      have hz : config.rootPathCost = 0 := by omega
      exact hid ((hzero hz).symm.trans hsame)
    · omega
  · have hlt := (h.stored p hd).1
    simp only [Priority.Le, StpConfig.vector, StpPort.vector] at hle
    omega

theorem Below.adopt {stp : Switch n} (h : Below stp) {p r : Fin n} {config : StpConfig}
    (hr : IsRootPort (stp.store p config) r) (hlt : config.rootId < stp.switchId)
    (hcost : 0 ≤ config.rootPathCost) (hbound : config.rootPathCost < 2 ^ 31 - 1) :
    Below (stp.adopt p config r) := by
  refine ⟨h.wellFormed.adopt hr, fun i hi => ?_, ?_⟩
  · rw [adopt_designated] at hi
    rw [adopt_ports, if_neg hi, adopt_switchId]
    by_cases hip : i = p
    · subst hip
      rw [store_ports]
      exact ⟨hlt, hcost, hbound⟩
    · rw [store_designated_of_ne stp config hip] at hi
      rw [store_ports_of_ne stp config hip]
      exact h.stored i hi
  · have htimer : (stp.adopt p config r).helloTimer =
        if stp.isRootSwitch then false else stp.helloTimer := rfl
    rw [htimer, adopt_rootPort]
    by_cases hroot : stp.isRootSwitch = true
    · simp [hroot]
    · have hne : stp.designatedRoot ≠ stp.switchId := by
        simpa [Switch.isRootSwitch] using hroot
      have hoff := mt h.consistent.hello_iff.mpr hne
      simp [hroot, hoff]

namespace TimedSwitch

/-- What a config does to a switch: the invariant stays, root and cost do not get
worse, and the new cost is an `int`. -/
theorem handleConfig_below {stp : Switch n} (h : Below stp) {p : Fin n} {config : StpConfig}
    (hid : config.switchId ≠ stp.switchId) (hcost : 0 ≤ config.rootPathCost)
    (hbound : config.rootPathCost < 2 ^ 31 - 1)
    (hzero : config.rootPathCost = 0 → config.rootId = config.switchId) :
    Below (handleConfig stp p config).1 ∧
    NotAbove (handleConfig stp p config).1.designatedRoot
      (handleConfig stp p config).1.rootPathCost stp.designatedRoot stp.rootPathCost := by
  by_cases hle : config.vector.Le (stp.ports p).vector
  · obtain ⟨r, hr, hhandle⟩ := handleConfig_accept hle hid
    have hlt := h.rootId_lt hle hid hcost hzero
    rw [hhandle]
    exact ⟨h.adopt hr hlt hcost hbound,
      adopt_notAbove h.wellFormed hle hr (store_not_designated stp p hid) (by omega)⟩
  · rw [handleConfig_reject hle]
    exact ⟨h, .inr ⟨rfl, le_refl _⟩⟩

/-- The cost of a switch is an `int`. -/
theorem cost_bounds {stp : Switch n} (h : Below stp) :
    -2 ^ 31 ≤ stp.rootPathCost ∧ stp.rootPathCost < 2 ^ 31 := by
  cases hroot : stp.rootPort with
  | none =>
    have hzero := h.consistent.root_none hroot
    omega
  | some r =>
    obtain ⟨hr, -, hcost⟩ := h.wellFormed.root_some r hroot
    have hstored := h.stored r hr.not_designated
    omega

/-- Every admissible event can be handled. -/
theorem step_admissible {s : TimedSwitch n} (h : Below s.stp) {e : Event n}
    (hok : s.Admissible e) : ∃ t, s.step e = some t ∧ Below t.stp ∧
      NotAbove t.stp.designatedRoot t.stp.rootPathCost s.stp.designatedRoot s.stp.rootPathCost := by
  cases e with
  | timer now later =>
    refine ⟨_, rfl, ?_⟩
    rw [timerRunOnce_stp]
    exact ⟨h, .inr ⟨rfl, le_refl _⟩⟩
  | config p config =>
    obtain ⟨hid, hcost, hbound, hzero⟩ := hok
    obtain ⟨hbelow, hle⟩ := handleConfig_below (p := p) h hid hcost hbound hzero
    exact ⟨_, if_pos (cost_bounds hbelow), hbelow, hle⟩

theorem below_of_reaches {switchId : ℕ} {time : ℤ} {s : TimedSwitch n}
    (h : Reaches step Admissible (fun s => s = initial n switchId time) s) : Below s.stp := by
  refine h.invariant (fun s => Below s.stp) ?_ ?_
  · rintro s rfl
    exact below_stpInit n switchId
  · intro s e t hs hok hstep
    obtain ⟨t', ht', hbelow, -⟩ := step_admissible hs hok
    obtain rfl : t' = t := by simpa [ht'] using hstep
    exact hbelow

/-- In every run the root, the cost, the root port, the timer and the designated
ports fit together, root and cost never get worse, and the next event can always
be handled. -/
theorem switch_invariants {switchId : ℕ} {time : ℤ} {s t : TimedSwitch n}
    (hs : Reaches step Admissible (fun s => s = initial n switchId time) s)
    (ht : Reaches step Admissible (fun u => u = s) t) :
    Consistent t.stp ∧
    NotAbove t.stp.designatedRoot t.stp.rootPathCost s.stp.designatedRoot s.stp.rootPathCost ∧
    ∀ e, t.Admissible e → ∃ u, t.step e = some u := by
  have hrun : Below t.stp ∧ NotAbove t.stp.designatedRoot t.stp.rootPathCost
      s.stp.designatedRoot s.stp.rootPathCost := by
    refine ht.invariant (fun t => Below t.stp ∧ NotAbove t.stp.designatedRoot
      t.stp.rootPathCost s.stp.designatedRoot s.stp.rootPathCost) ?_ ?_
    · rintro u rfl
      exact ⟨below_of_reaches hs, .inr ⟨rfl, le_refl _⟩⟩
    · intro u e u' ⟨hbelow, hle⟩ hok hstep
      obtain ⟨v, hv, hbelow', hle'⟩ := step_admissible hbelow hok
      obtain rfl : v = u' := by simpa [hv] using hstep
      refine ⟨hbelow', ?_⟩
      unfold NotAbove at *
      omega
  obtain ⟨hbelow, hle⟩ := hrun
  refine ⟨hbelow.consistent, hle, fun e hok => ?_⟩
  obtain ⟨u, hu, -⟩ := step_admissible hbelow hok
  exact ⟨u, hu⟩

/-- A switch with id 5 hears of the roots 3 and 1 and loses its hello timer. -/
theorem switch_invariants_two : ∃ t : TimedSwitch 2,
    t.stp.designatedRoot = 1 ∧ t.stp.rootPathCost = 2 ∧ t.stp.helloTimer = false ∧
      Consistent t.stp := by
  obtain ⟨t, ht, hroot, hcost, htimer⟩ : ∃ t : TimedSwitch 2,
      Reaches step Admissible (fun u => u = initial 2 5 0) t ∧
        t.stp.designatedRoot = 1 ∧ t.stp.rootPathCost = 2 ∧ t.stp.helloTimer = false :=
    exists_of_exec_from _ [.timer 600 601, .config 0 ⟨3, 0, 3, 32769⟩,
      .config 1 ⟨1, 1, 4, 32770⟩] _ (by decide +kernel)
  exact ⟨t, hroot, hcost, htimer, (switch_invariants (.start rfl) ht).1⟩

end TimedSwitch

end NetworkLab.Stp
