import NetworkLab.StpSwitch

/-!
# Spanning tree protocol: the roles of the ports

A port that is neither root port nor designated should hold a better vector than
the switch itself would advertise on it. Since no port is ever made designated
again, this depends on the configs: the one that improves the switch must not
improve it beyond what is stored in another port. Configs are arbitrary here, also
those that name the switch itself as their sender. A switch of the source has at
most 32 ports (`STP_MAX_PORTS`), and the statements cover any number.
-/
namespace NetworkLab.Stp
open GuardedRuns

/-- Lexicographic order of vectors, strict. -/
def Priority.Lt (a b : Priority) : Prop :=
  a.root < b.root ∨ a.root = b.root ∧ (a.cost < b.cost ∨ a.cost = b.cost ∧
    (a.switch < b.switch ∨ a.switch = b.switch ∧ a.port < b.port))

instance (a b : Priority) : Decidable (a.Lt b) := inferInstanceAs (Decidable (_ ∨ _))

theorem Priority.lt_iff {a b : Priority} : a.Lt b ↔ ¬ b.Le a := by
  unfold Priority.Lt Priority.Le
  omega

/-- One hop further a better vector stays the better one. -/
theorem Priority.Le.hop {a b : Priority} (h : a.Le b) (switch port : ℕ) :
    Priority.Le ⟨a.root, a.cost + 1, switch, port⟩ ⟨b.root, b.cost + 1, switch, port⟩ := by
  simp only [Priority.Le, le_refl, and_self, or_true, and_true] at h ⊢
  omega

variable {n : ℕ}

/-- Every port that is neither root port nor designated stores a better vector than
the switch would advertise on it. -/
def RolesCorrect (stp : Switch n) : Prop :=
  ∀ i, stp.rootPort ≠ some i → ¬ stp.Designated i → (stp.ports i).vector.Lt (stp.advert i)

instance (stp : Switch n) : Decidable (RolesCorrect stp) :=
  inferInstanceAs (Decidable (∀ _, _ → _ → _))

/-- The root port always stores a better vector than the switch would advertise. -/
theorem WellFormed.rolesCorrect_iff {stp : Switch n} (h : WellFormed stp) :
    RolesCorrect stp ↔ ∀ i, ¬ stp.Designated i → ¬ (stp.advert i).Le (stp.ports i).vector := by
  constructor
  · intro hroles i hi
    by_cases hroot : stp.rootPort = some i
    · obtain ⟨-, hsame, hcost⟩ := h.root_some i hroot
      simp only [Priority.Le, Switch.advert, StpPort.vector]
      omega
    · exact Priority.lt_iff.mp (hroles i hroot hi)
  · intro hroles i _ hi
    exact Priority.lt_iff.mpr (hroles i hi)

/-- The switch after a config that leaves it without a root port. -/
def Switch.reclaim (stp : Switch n) (p : Fin n) (config : StpConfig) : Switch n :=
  updateDesignated (setRoot (stp.store p config) stp.isRootSwitch none)

/-- What a switch does with any config that is not worse than what its port stores. -/
theorem handleConfig_take {stp : Switch n} {p : Fin n} {config : StpConfig}
    (hle : config.vector.Le (stp.ports p).vector) :
    (∃ r, IsRootPort (stp.store p config) r ∧
      (handleConfig stp p config).1 = stp.adopt p config r) ∨
    (∀ i, (stp.store p config).Designated i) ∧
      (handleConfig stp p config).1 = stp.reclaim p config := by
  have hcmp : portCmp (stp.ports p) (configToPort config (stp.ports p)) = true :=
    (portCmp_iff _ _).mpr hle
  have helected := elected_electPorts (stp.store p config)
  have hsame : redesignate (setRoot (stp.store p config) stp.isRootSwitch
        (electPorts (stp.store p config)).2) p (electPorts (stp.store p config)).1
        (electPorts (stp.store p config)).2 =
      setRoot (stp.store p config) stp.isRootSwitch (electPorts (stp.store p config)).2 := by
    refine redesignate_eq ?_ ?_ p
    all_goals cases (electPorts (stp.store p config)).2 <;> rfl
  have hhandle : (handleConfig stp p config).1 = updateDesignated
      (setRoot (stp.store p config) stp.isRootSwitch (electPorts (stp.store p config)).2) := by
    simp only [handleConfig, hcmp, if_true, hsame]
  cases hroot : (electPorts (stp.store p config)).2 with
  | none =>
    rw [hroot] at hhandle
    exact .inr ⟨fun i => helected.all_designated hroot i (List.mem_finRange i), hhandle⟩
  | some r =>
    obtain ⟨hnot, hmin⟩ := helected.root_le r hroot
    rw [hroot] at hhandle
    exact .inl ⟨r, ⟨hnot, fun i => hmin i (List.mem_finRange i)⟩, hhandle⟩

theorem reclaim_ports {stp : Switch n} {p : Fin n} {config : StpConfig}
    (hall : ∀ i, (stp.store p config).Designated i) (i : Fin n) :
    (stp.reclaim p config).ports i = { (stp.store p config).ports i with
      designatedRoot := stp.switchId, designatedCost := 0 } :=
  if_pos (hall i)

theorem reclaim_designated {stp : Switch n} {p : Fin n} {config : StpConfig}
    (hall : ∀ i, (stp.store p config).Designated i) (i : Fin n) :
    (stp.reclaim p config).Designated i := by
  have hi := (designated_iff _ i).mp (hall i)
  rw [designated_iff, reclaim_ports hall]
  exact hi

theorem WellFormed.reclaim {stp : Switch n} (h : WellFormed stp) {p : Fin n}
    {config : StpConfig} (hall : ∀ i, (stp.store p config).Designated i) :
    WellFormed (stp.reclaim p config) := by
  have hports := reclaim_ports hall
  have hdes := reclaim_designated hall
  refine ⟨fun i => ?_, fun i hi => ?_, fun _ => ⟨hdes, rfl, rfl⟩, fun r hr => by cases hr⟩
  · rw [hports]
    exact store_pathCost h p config i
  · obtain ⟨hswitch, hport⟩ := (designated_iff _ i).mp hi
    simp only [StpPort.vector, Switch.advert, Priority.mk.injEq]
    exact ⟨by rw [hports]; rfl, by rw [hports]; rfl, hswitch, hport⟩

theorem WellFormed.handleConfig {stp : Switch n} (h : WellFormed stp) (p : Fin n)
    (config : StpConfig) : WellFormed (handleConfig stp p config).1 := by
  by_cases hle : config.vector.Le (stp.ports p).vector
  · obtain ⟨r, hr, hstate⟩ | ⟨hall, hstate⟩ := handleConfig_take hle
    · rw [hstate]
      exact h.adopt hr
    · rw [hstate]
      exact h.reclaim hall
  · rw [handleConfig_reject hle]
    exact h

/-- Where a config takes its port out of the election, root and cost of the switch
do not get better, so the other ports keep their roles. -/
theorem rolesCorrect_own {stp : Switch n} (h : WellFormed stp) (hroles : RolesCorrect stp)
    {p r : Fin n} {config : StpConfig} (hdes : (stp.store p config).Designated p)
    (hr : IsRootPort (stp.store p config) r) : RolesCorrect (stp.adopt p config r) := by
  have hother : ∀ i, ¬ (stp.store p config).Designated i →
      i ≠ p ∧ ¬ stp.Designated i ∧ (stp.store p config).ports i = stp.ports i := by
    intro i hi
    have hip : i ≠ p := by
      rintro rfl
      exact hi hdes
    exact ⟨hip, fun hd => hi ((store_designated_of_ne stp config hip).mpr hd),
      store_ports_of_ne stp config hip⟩
  obtain ⟨-, hrnot, hrports⟩ := hother r hr.not_designated
  apply (h.adopt hr).rolesCorrect_iff.mpr
  intro i hi
  rw [adopt_designated] at hi
  obtain ⟨-, hinot, hiports⟩ := hother i hi
  have hbefore := h.rolesCorrect_iff.mp hroles i hinot
  cases hroot : stp.rootPort with
  | none => exact absurd ((h.root_none hroot).1 i) hinot
  | some r₀ =>
    obtain ⟨hr₀, hroot₀, hcost₀⟩ := h.root_some r₀ hroot
    have hhop := (hr₀.le r hrnot).hop stp.switchId (stp.ports i).portId
    have hadvert : (stp.adopt p config r).advert i = ⟨(stp.ports r).designatedRoot,
        (stp.ports r).designatedCost + 1, stp.switchId, (stp.ports i).portId⟩ := by
      simp [Switch.advert, hrports, h.path_cost]
    have hold : stp.advert i = ⟨(stp.ports r₀).designatedRoot,
        (stp.ports r₀).designatedCost + 1, stp.switchId, (stp.ports i).portId⟩ := by
      simp [Switch.advert, hroot₀, hcost₀]
    rw [hadvert, adopt_ports, if_neg hi, hiports]
    rw [hold] at hbefore
    exact fun hle => hbefore (hhop.trans hle)

/-- The config makes root and cost of the switch better than what another alternate
port stores, so that port should become designated. -/
def Overtakes (stp : Switch n) (p : Fin n) (config : StpConfig) : Prop :=
  ∃ i, i ≠ p ∧ ¬ stp.Designated i ∧
    Priority.Le ⟨config.rootId, config.rootPathCost + 1, stp.switchId, (stp.ports i).portId⟩
      (stp.ports i).vector

instance (stp : Switch n) (p : Fin n) (config : StpConfig) : Decidable (Overtakes stp p config) :=
  inferInstanceAs (Decidable (∃ _, _))

/-- The config is stored as that of another port and is the best of all that are stored. -/
def BecomesBest (stp : Switch n) (p : Fin n) (config : StpConfig) : Prop :=
  config.vector.Le (stp.ports p).vector ∧
  ¬ (config.switchId = stp.switchId ∧ config.portId = (stp.ports p).portId) ∧
  ∀ i, i ≠ p → ¬ stp.Designated i → config.vector.Le (stp.ports i).vector

instance (stp : Switch n) (p : Fin n) (config : StpConfig) :
    Decidable (BecomesBest stp p config) := inferInstanceAs (Decidable (_ ∧ _ ∧ _))

/-- The roles stay correct exactly when the config does not overtake another port. -/
theorem rolesCorrect_handleConfig_iff {stp : Switch n} (h : WellFormed stp)
    (hroles : RolesCorrect stp) (p : Fin n) (config : StpConfig) :
    RolesCorrect (handleConfig stp p config).1 ↔
      (BecomesBest stp p config → ¬ Overtakes stp p config) := by
  by_cases hle : config.vector.Le (stp.ports p).vector
  swap
  · rw [handleConfig_reject hle]
    exact iff_of_true hroles fun hbest => absurd hbest.1 hle
  obtain ⟨r, hr, hstate⟩ | ⟨hall, hstate⟩ := handleConfig_take hle
  swap
  · rw [hstate]
    apply iff_of_true (fun i _ hi => absurd (reclaim_designated hall i) hi)
    intro hbest
    exact absurd ((store_designated_iff stp p config).mp (hall p)) hbest.2.1
  rw [hstate]
  by_cases hdes : (stp.store p config).Designated p
  · apply iff_of_true (rolesCorrect_own h hroles hdes hr)
    intro hbest
    exact absurd ((store_designated_iff stp p config).mp hdes) hbest.2.1
  have hwf := h.adopt hr
  constructor
  · rintro hafter ⟨-, -, hbest⟩ ⟨i, hip, hi, hover⟩
    obtain ⟨hroot, hcost⟩ := root_of_best hr hdes hbest
    have hi' : ¬ (stp.store p config).Designated i :=
      fun hd => hi ((store_designated_of_ne stp config hip).mp hd)
    have hout := hwf.rolesCorrect_iff.mp hafter i (by rwa [adopt_designated])
    have hadvert : (stp.adopt p config r).advert i =
        ⟨config.rootId, config.rootPathCost + 1, stp.switchId, (stp.ports i).portId⟩ := by
      simp [Switch.advert, hroot, hcost, store_pathCost h]
    rw [hadvert, adopt_ports, if_neg hi', store_ports_of_ne stp config hip] at hout
    exact hout hover
  · intro hkeeps
    apply hwf.rolesCorrect_iff.mpr
    intro i hi
    refine settled_adopt h hle hr hdes (h.rolesCorrect_iff.mp hroles) ?_ hi
    intro hbest j hjp hj hover
    exact hkeeps ⟨hle, mt (store_designated_iff stp p config).mpr hdes, hbest⟩
      ⟨j, hjp, hj, hover⟩

namespace TimedSwitch

/-- The side condition of a config. -/
def KeepsRoles (s : TimedSwitch n) : Event n → Prop
  | .timer _ _ => True
  | .config p config => BecomesBest s.stp p config → ¬ Overtakes s.stp p config

instance (s : TimedSwitch n) : ∀ e, Decidable (s.KeepsRoles e)
  | .timer _ _ => isTrue trivial
  | .config p config =>
    inferInstanceAs (Decidable (BecomesBest s.stp p config → ¬ Overtakes s.stp p config))

theorem step_config {s t : TimedSwitch n} {p : Fin n} {config : StpConfig}
    (hstep : s.step (.config p config) = some t) : t.stp = (handleConfig s.stp p config).1 := by
  simp only [step] at hstep
  split at hstep
  next =>
    cases hstep
    rfl
  next => cases hstep

theorem wellFormed_step {s t : TimedSwitch n} {e : Event n} (h : WellFormed s.stp)
    (hstep : s.step e = some t) : WellFormed t.stp := by
  cases e with
  | timer now later =>
    cases hstep
    rwa [timerRunOnce_stp]
  | config p config =>
    rw [step_config hstep]
    exact h.handleConfig p config

theorem rolesCorrect_step_iff {s t : TimedSwitch n} {e : Event n} (h : WellFormed s.stp)
    (hroles : RolesCorrect s.stp) (hstep : s.step e = some t) :
    RolesCorrect t.stp ↔ s.KeepsRoles e := by
  cases e with
  | timer now later =>
    cases hstep
    rw [timerRunOnce_stp]
    exact iff_of_true hroles trivial
  | config p config =>
    rw [step_config hstep]
    exact rolesCorrect_handleConfig_iff h hroles p config

/-- As long as no config overtakes an alternate port the roles are correct in every
run, and the first config that does makes them wrong. -/
theorem roles_correct {switchId : ℕ} {time : ℤ} {s : TimedSwitch n}
    (h : Reaches step KeepsRoles (fun s => s = initial n switchId time) s) :
    RolesCorrect s.stp ∧
      ∀ e t, s.step e = some t → (RolesCorrect t.stp ↔ s.KeepsRoles e) := by
  have hrun : WellFormed s.stp ∧ RolesCorrect s.stp := by
    refine h.invariant (fun s => WellFormed s.stp ∧ RolesCorrect s.stp) ?_ ?_
    · rintro s rfl
      refine ⟨wellFormed_stpInit n switchId, fun i _ hi => ?_⟩
      exact absurd ((designated_iff _ i).mpr ⟨rfl, rfl⟩) hi
    · intro s e t ⟨hwf, hroles⟩ hok hstep
      exact ⟨wellFormed_step hwf hstep, (rolesCorrect_step_iff hwf hroles hstep).mpr hok⟩
  exact ⟨hrun.2, fun e t hstep => rolesCorrect_step_iff hrun.1 hrun.2 hstep⟩

/-- Two ports lead to the same root, and one of them is the alternate port. -/
theorem roles_correct_alternate : ∃ s : TimedSwitch 2, s.stp.rootPort = some 0 ∧
    ¬ s.stp.Designated 1 ∧ (s.stp.ports 1).vector.Lt (s.stp.advert 1) := by
  obtain ⟨s, hs, hroot, hone⟩ : ∃ s : TimedSwitch 2,
      Reaches step KeepsRoles (fun s => s = initial 2 5 0) s ∧
        s.stp.rootPort = some 0 ∧ ¬ s.stp.Designated 1 :=
    exists_of_exec_from _ [.config 0 ⟨3, 0, 3, 32769⟩, .config 1 ⟨3, 0, 4, 32769⟩] _
      (by decide +kernel)
  exact ⟨s, hroot, hone, (roles_correct hs).1 1 (by simp [hroot]) hone⟩

/-- A config from a better root overtakes the alternate port, which stays alternate
with the worse vector. -/
theorem alternate_port_overtaken : ∃ s : TimedSwitch 2,
    Reaches step anyStep (fun s => s = initial 2 5 0) s ∧ s.stp.rootPort = some 0 ∧
      ¬ s.stp.Designated 1 ∧ (s.stp.advert 1).Lt (s.stp.ports 1).vector :=
  exists_of_exec_from _ [.config 0 ⟨3, 0, 3, 32769⟩, .config 1 ⟨3, 0, 4, 32769⟩,
    .config 0 ⟨1, 0, 1, 32769⟩] _ (by decide +kernel)

end TimedSwitch

end NetworkLab.Stp
