import Mathlib.Data.Fintype.Basic
import Mathlib.Logic.Function.Basic
import Mathlib.Tactic

/-!
# Spanning tree protocol: one switch

`stp.c` of one switch with `n` ports. The array of the source has `STP_MAX_PORTS`
places, so `n` is at most 32 there. Identifiers are only compared, and costs count
hops, so both are unbounded here; a field of a config is its value in host order.
What a switch can do when it takes over a config is said once, in
`handleConfig_accept`.
-/
namespace NetworkLab.Stp

/-- `STP_PORT_PRIORITY`. -/
def stpPortPriority : ℕ := 128

structure StpPort where
  portId : ℕ
  pathCost : ℤ
  designatedRoot : ℕ
  designatedSwitch : ℕ
  designatedPort : ℕ
  designatedCost : ℤ
  deriving DecidableEq

/-- The fields of a config that are not the same in all configs. -/
structure StpConfig where
  rootId : ℕ
  rootPathCost : ℤ
  switchId : ℕ
  portId : ℕ
  deriving DecidableEq

/-- `stp_t` with the index of the root port and the activity of the hello timer. -/
structure Switch (n : ℕ) where
  switchId : ℕ
  designatedRoot : ℕ
  rootPathCost : ℤ
  rootPort : Option (Fin n)
  helloTimer : Bool
  ports : Fin n → StpPort

theorem Switch.eq_iff_fields {n : ℕ} (a b : Switch n) :
    (a.switchId = b.switchId ∧ a.designatedRoot = b.designatedRoot ∧
      a.rootPathCost = b.rootPathCost ∧ a.rootPort = b.rootPort ∧
      a.helloTimer = b.helloTimer ∧ ∀ i, a.ports i = b.ports i) ↔ a = b := by
  constructor
  · rintro ⟨hid, hroot, hcost, hport, htimer, hports⟩
    cases a
    cases b
    simp only [Switch.mk.injEq]
    exact ⟨hid, hroot, hcost, hport, htimer, funext hports⟩
  · rintro rfl
    exact ⟨rfl, rfl, rfl, rfl, rfl, fun _ => rfl⟩

instance {n : ℕ} : DecidableEq (Switch n) :=
  fun a b => decidable_of_iff _ (Switch.eq_iff_fields a b)

section Source

variable {n : ℕ}

def Switch.isRootSwitch (stp : Switch n) : Bool := decide (stp.designatedRoot = stp.switchId)

def Switch.portIsDesignated (stp : Switch n) (p : StpPort) : Bool :=
  decide (p.designatedSwitch = stp.switchId) && decide (p.designatedPort = p.portId)

/-- The config built for a port. -/
def Switch.config (stp : Switch n) (p : Fin n) : StpConfig where
  rootId := stp.designatedRoot
  rootPathCost := stp.rootPathCost
  switchId := stp.switchId
  portId := (stp.ports p).portId

/-- What `stp_port_send_config` sends, with the port it is sent on. -/
def portSendConfig (stp : Switch n) (p : Fin n) : List (Fin n × StpConfig) :=
  if !stp.isRootSwitch && stp.rootPort.isNone then [] else [(p, stp.config p)]

def sendConfig (stp : Switch n) : List (Fin n × StpConfig) :=
  (List.finRange n).flatMap fun i =>
    if stp.portIsDesignated (stp.ports i) then portSendConfig stp i else []

def configToPort (config : StpConfig) (p : StpPort) : StpPort :=
  { p with
    designatedRoot := config.rootId
    designatedCost := config.rootPathCost
    designatedSwitch := config.switchId
    designatedPort := config.portId }

/-- True when the first port does not have the higher priority. -/
def portCmp (p1 p2 : StpPort) : Bool :=
  if p1.designatedRoot ≠ p2.designatedRoot then decide (p1.designatedRoot > p2.designatedRoot)
  else if p1.designatedCost ≠ p2.designatedCost then
    decide (p1.designatedCost > p2.designatedCost)
  else if p1.designatedSwitch ≠ p2.designatedSwitch then
    decide (p1.designatedSwitch > p2.designatedSwitch)
  else decide (p1.designatedPort ≥ p2.designatedPort)

/-- Keep the candidate, or take the port when there is none or the port is not worse. -/
def elect (ports : Fin n → StpPort) (best : Option (Fin n)) (i : Fin n) : Option (Fin n) :=
  match best with
  | none => some i
  | some b => if portCmp (ports b) (ports i) then some i else some b

/-- The loop that determines `max_port` and `root_port`. -/
def electPorts (stp : Switch n) : Option (Fin n) × Option (Fin n) :=
  (List.finRange n).foldl
    (fun best i =>
      (elect stp.ports best.1 i,
        if stp.portIsDesignated (stp.ports i) then best.2 else elect stp.ports best.2 i))
    (none, none)

/-- Root, cost and timer after the election; `isRoot` is from before it. -/
def setRoot (stp : Switch n) (isRoot : Bool) (rootPort : Option (Fin n)) : Switch n :=
  match rootPort with
  | some r =>
    { stp with
      rootPort := some r
      designatedRoot := (stp.ports r).designatedRoot
      rootPathCost := (stp.ports r).designatedCost + (stp.ports r).pathCost
      helloTimer := if isRoot then false else stp.helloTimer }
  | none => { stp with rootPort := none, designatedRoot := stp.switchId, rootPathCost := 0 }

/-- The attempt to make a port designated again. -/
def redesignate (stp : Switch n) (p : Fin n) (maxPort rootPort : Option (Fin n)) : Switch n :=
  match maxPort with
  | none => stp
  | some m =>
    if maxPort ≠ rootPort ∧ !stp.portIsDesignated (stp.ports m) then
      { stp with ports := Function.update stp.ports m { stp.ports m with
          designatedSwitch := stp.switchId, designatedPort := (stp.ports p).portId } }
    else stp

/-- The last loop: designated ports carry the root and cost of the switch. -/
def updateDesignated (stp : Switch n) : Switch n :=
  { stp with ports := fun i =>
      if stp.portIsDesignated (stp.ports i) then
        { stp.ports i with
          designatedRoot := stp.designatedRoot, designatedCost := stp.rootPathCost }
      else stp.ports i }

/-- The config is stored in the port it came in on. -/
def Switch.store (stp : Switch n) (p : Fin n) (config : StpConfig) : Switch n :=
  { stp with ports := Function.update stp.ports p (configToPort config (stp.ports p)) }

/-- `stp_handle_config_packet`: the new state and the configs sent. -/
def handleConfig (stp : Switch n) (p : Fin n) (config : StpConfig) :
    Switch n × List (Fin n × StpConfig) :=
  if portCmp (stp.ports p) (configToPort config (stp.ports p)) then
    let stored := stp.store p config
    let best := electPorts stored
    let stp := updateDesignated
      (redesignate (setRoot stored stp.isRootSwitch best.2) p best.1 best.2)
    (stp, sendConfig stp)
  else (stp, portSendConfig stp p)

/-- `stp_init` with the given switch id. -/
def stpInit (n switchId : ℕ) : Switch n where
  switchId := switchId
  designatedRoot := switchId
  rootPathCost := 0
  rootPort := none
  helloTimer := true
  ports i :=
    { portId := stpPortPriority <<< 8 ||| (i.val + 1)
      pathCost := 1
      designatedRoot := switchId
      designatedSwitch := switchId
      designatedPort := stpPortPriority <<< 8 ||| (i.val + 1)
      designatedCost := 0 }

end Source

/-- A priority vector. -/
structure Priority where
  root : ℕ
  cost : ℤ
  switch : ℕ
  port : ℕ

/-- Lexicographic order; the smaller vector has the higher priority. -/
def Priority.Le (a b : Priority) : Prop :=
  a.root < b.root ∨ a.root = b.root ∧ (a.cost < b.cost ∨ a.cost = b.cost ∧
    (a.switch < b.switch ∨ a.switch = b.switch ∧ a.port ≤ b.port))

def StpPort.vector (p : StpPort) : Priority :=
  ⟨p.designatedRoot, p.designatedCost, p.designatedSwitch, p.designatedPort⟩

def StpConfig.vector (c : StpConfig) : Priority :=
  ⟨c.rootId, c.rootPathCost, c.switchId, c.portId⟩

/-- What the switch would advertise on the port. -/
def Switch.advert {n : ℕ} (stp : Switch n) (i : Fin n) : Priority :=
  ⟨stp.designatedRoot, stp.rootPathCost, stp.switchId, (stp.ports i).portId⟩

instance (a b : Priority) : Decidable (a.Le b) := inferInstanceAs (Decidable (_ ∨ _))

/-- Order of root and cost alone. -/
def NotAbove (root : ℕ) (cost : ℤ) (root' : ℕ) (cost' : ℤ) : Prop :=
  root < root' ∨ root = root' ∧ cost ≤ cost'

theorem Priority.Le.refl (a : Priority) : a.Le a := by
  unfold Priority.Le
  omega

theorem Priority.Le.trans {a b c : Priority} (hab : a.Le b) (hbc : b.Le c) : a.Le c := by
  unfold Priority.Le at *
  omega

theorem Priority.Le.total (a b : Priority) : a.Le b ∨ b.Le a := by
  unfold Priority.Le
  omega

theorem portCmp_iff (p1 p2 : StpPort) : portCmp p1 p2 = true ↔ p2.vector.Le p1.vector := by
  unfold portCmp Priority.Le StpPort.vector
  split_ifs <;> simp only [decide_eq_true_eq] <;> omega

section Election

variable {n : ℕ} {stp : Switch n}

/-- The switch treats port `i` as designated. -/
def Switch.Designated (stp : Switch n) (i : Fin n) : Prop :=
  stp.portIsDesignated (stp.ports i) = true

instance (stp : Switch n) (i : Fin n) : Decidable (stp.Designated i) :=
  inferInstanceAs (Decidable (_ = _))

/-- What the election loop knows after the ports in `seen`. The candidate over all
ports is never worse than the root port, and when it is not a designated port it
is the root port. -/
structure Elected (stp : Switch n) (seen : List (Fin n))
    (best : Option (Fin n) × Option (Fin n)) : Prop where
  all_designated : best.2 = none → ∀ i ∈ seen, stp.Designated i
  root_le : ∀ r, best.2 = some r → ¬ stp.Designated r ∧
    ∀ i ∈ seen, ¬ stp.Designated i → (stp.ports r).vector.Le (stp.ports i).vector
  max_le : ∀ r, best.2 = some r →
    ∃ m, best.1 = some m ∧ (stp.ports m).vector.Le (stp.ports r).vector
  root_eq_max : ∀ m, best.1 = some m → ¬ stp.Designated m → best.2 = some m

/-- The result of one comparison: the new candidate is not worse than either. -/
theorem elect_cases (ports : Fin n → StpPort) (best : Option (Fin n)) (i : Fin n) :
    (elect ports best i = some i ∧ ∀ b, best = some b → (ports i).vector.Le (ports b).vector) ∨
      ∃ b, best = some b ∧ elect ports best i = some b ∧
        ¬ (ports i).vector.Le (ports b).vector := by
  cases best with
  | none => exact .inl ⟨rfl, by simp⟩
  | some b =>
    by_cases hle : (ports i).vector.Le (ports b).vector
    · exact .inl ⟨by simp [elect, (portCmp_iff _ _).mpr hle], by simpa using hle⟩
    · have hcmp : portCmp (ports b) (ports i) = false := by
        simpa [← portCmp_iff] using hle
      exact .inr ⟨b, rfl, by simp [elect, hcmp], hle⟩

/-- A designated port competes for the first candidate only. -/
theorem Elected.step_designated {seen : List (Fin n)}
    {best : Option (Fin n) × Option (Fin n)} (h : Elected stp seen best) {i : Fin n}
    (hi : stp.Designated i) :
    Elected stp (seen ++ [i]) (elect stp.ports best.1 i, best.2) := by
  constructor
  · intro hnone x hx
    rcases List.mem_append.mp hx with hx | hx
    · exact h.all_designated hnone x hx
    · obtain rfl := List.mem_singleton.mp hx
      exact hi
  · intro r hr
    obtain ⟨hnot, hle⟩ := h.root_le r hr
    refine ⟨hnot, fun x hx hxnot => ?_⟩
    rcases List.mem_append.mp hx with hx | hx
    · exact hle x hx hxnot
    · obtain rfl := List.mem_singleton.mp hx
      exact absurd hi hxnot
  · intro r hr
    obtain ⟨m, hm, hle⟩ := h.max_le r hr
    rcases elect_cases stp.ports best.1 i with ⟨helect, hbest⟩ | ⟨b, hb, helect, -⟩
    · exact ⟨i, helect, (hbest m hm).trans hle⟩
    · obtain rfl : b = m := by simpa [hb] using hm
      exact ⟨b, helect, hle⟩
  · intro m hm hnot
    rcases elect_cases stp.ports best.1 i with ⟨helect, -⟩ | ⟨b, hb, helect, -⟩
    · obtain rfl : i = m := by simpa [helect] using hm
      exact absurd hi hnot
    · obtain rfl : b = m := by simpa [helect] using hm
      exact h.root_eq_max b hb hnot

/-- A port that is not designated competes for both. -/
theorem Elected.step_not_designated {seen : List (Fin n)}
    {best : Option (Fin n) × Option (Fin n)} (h : Elected stp seen best) {i : Fin n}
    (hi : ¬ stp.Designated i) :
    Elected stp (seen ++ [i]) (elect stp.ports best.1 i, elect stp.ports best.2 i) := by
  constructor
  · intro hnone
    rcases elect_cases stp.ports best.2 i with ⟨helect, -⟩ | ⟨b, -, helect, -⟩
    · simp [helect] at hnone
    · simp [helect] at hnone
  · intro r hr
    rcases elect_cases stp.ports best.2 i with ⟨helect, hbest⟩ | ⟨b, hb, helect, hworse⟩
    · obtain rfl : i = r := by simpa [helect] using hr
      refine ⟨hi, fun x hx hxnot => ?_⟩
      rcases List.mem_append.mp hx with hx | hx
      · cases hb : best.2 with
        | none => exact absurd (h.all_designated hb x hx) hxnot
        | some b => exact (hbest b hb).trans ((h.root_le b hb).2 x hx hxnot)
      · obtain rfl := List.mem_singleton.mp hx
        exact .refl _
    · obtain rfl : b = r := by simpa [helect] using hr
      obtain ⟨hnot, hle⟩ := h.root_le b hb
      refine ⟨hnot, fun x hx hxnot => ?_⟩
      rcases List.mem_append.mp hx with hx | hx
      · exact hle x hx hxnot
      · obtain rfl := List.mem_singleton.mp hx
        exact (Priority.Le.total _ _).resolve_left hworse
  · intro r hr
    rcases elect_cases stp.ports best.1 i with ⟨hmax, hmaxle⟩ | ⟨m, hm, hmax, hworse⟩
    · refine ⟨i, hmax, ?_⟩
      rcases elect_cases stp.ports best.2 i with ⟨helect, -⟩ | ⟨b, hb, helect, -⟩
      · obtain rfl : i = r := by simpa [helect] using hr
        exact .refl _
      · obtain rfl : b = r := by simpa [helect] using hr
        obtain ⟨m, hm, hle⟩ := h.max_le b hb
        exact (hmaxle m hm).trans hle
    · refine ⟨m, hmax, ?_⟩
      rcases elect_cases stp.ports best.2 i with ⟨helect, -⟩ | ⟨b, hb, helect, -⟩
      · obtain rfl : i = r := by simpa [helect] using hr
        exact (Priority.Le.total _ _).resolve_left hworse
      · obtain rfl : b = r := by simpa [helect] using hr
        obtain ⟨m', hm', hle⟩ := h.max_le b hb
        obtain rfl : m = m' := by simpa [hm] using hm'
        exact hle
  · intro m hm hnot
    rcases elect_cases stp.ports best.1 i with ⟨hmax, hmaxle⟩ | ⟨m', hm', hmax, hworse⟩
    · obtain rfl : i = m := by simpa [hmax] using hm
      rcases elect_cases stp.ports best.2 i with ⟨helect, -⟩ | ⟨b, hb, -, hrworse⟩
      · exact helect
      · obtain ⟨m', hm', hle⟩ := h.max_le b hb
        exact absurd ((hmaxle m' hm').trans hle) hrworse
    · obtain rfl : m' = m := by simpa [hmax] using hm
      have hroot := h.root_eq_max m' hm' hnot
      rcases elect_cases stp.ports best.2 i with ⟨-, hbest⟩ | ⟨b, hb, helect, -⟩
      · exact absurd (hbest m' hroot) hworse
      · obtain rfl : b = m' := by simpa [hb] using hroot
        exact helect

theorem elected_electPorts (stp : Switch n) : Elected stp (List.finRange n) (electPorts stp) := by
  have hfold : ∀ (l seen : List (Fin n)) (best : Option (Fin n) × Option (Fin n)),
      Elected stp seen best → Elected stp (seen ++ l) (l.foldl
        (fun best i => (elect stp.ports best.1 i,
          if stp.portIsDesignated (stp.ports i) then best.2 else elect stp.ports best.2 i))
        best) := by
    intro l
    induction l with
    | nil => simp
    | cons i l ih =>
      intro seen best h
      by_cases hi : stp.portIsDesignated (stp.ports i) = true
      · simpa [hi] using ih (seen ++ [i]) _ (h.step_designated hi)
      · simpa [hi] using ih (seen ++ [i]) _ (h.step_not_designated hi)
  have hstart : Elected stp [] (none, none) := ⟨by simp, by simp, by simp, by simp⟩
  simpa [electPorts] using hfold (List.finRange n) [] (none, none) hstart

end Election

section Accept

variable {n : ℕ}

/-- The state after the switch has stored a config and elected `r`. -/
def Switch.adopt (stp : Switch n) (p : Fin n) (config : StpConfig) (r : Fin n) : Switch n :=
  updateDesignated (setRoot (stp.store p config) stp.isRootSwitch (some r))

/-- Port `r` has the best vector among the ports that are not designated. -/
structure IsRootPort (stp : Switch n) (r : Fin n) : Prop where
  not_designated : ¬ stp.Designated r
  le : ∀ i, ¬ stp.Designated i → (stp.ports r).vector.Le (stp.ports i).vector

theorem store_ports (stp : Switch n) (p : Fin n) (config : StpConfig) :
    (stp.store p config).ports p = configToPort config (stp.ports p) := by
  simp [Switch.store]

theorem store_ports_of_ne (stp : Switch n) {p i : Fin n} (config : StpConfig) (hi : i ≠ p) :
    (stp.store p config).ports i = stp.ports i := by
  simp [Switch.store, hi]

/-- A config of another switch makes its port not designated. -/
theorem store_not_designated (stp : Switch n) (p : Fin n) {config : StpConfig}
    (hid : config.switchId ≠ stp.switchId) : ¬ (stp.store p config).Designated p := by
  simp [Switch.Designated, Switch.portIsDesignated, configToPort, Switch.store, hid]

theorem store_designated_of_ne (stp : Switch n) {p i : Fin n} (config : StpConfig) (hi : i ≠ p) :
    (stp.store p config).Designated i ↔ stp.Designated i := by
  simp [Switch.Designated, Switch.portIsDesignated, Switch.store, hi]

/-- The attempt to make a port designated again never finds one. -/
theorem redesignate_eq {stp stp' : Switch n} (hports : stp'.ports = stp.ports)
    (hid : stp'.switchId = stp.switchId) (p : Fin n) :
    redesignate stp' p (electPorts stp).1 (electPorts stp).2 = stp' := by
  cases hmax : (electPorts stp).1 with
  | none => rfl
  | some m =>
    simp only [redesignate, hports, Switch.portIsDesignated, hid]
    rw [if_neg]
    rintro ⟨hne, hnot⟩
    have hdes : ¬ stp.Designated m := by
      intro hd
      have hd' : stp.portIsDesignated (stp.ports m) = true := hd
      simp only [Switch.portIsDesignated] at hd'
      simp [hd'] at hnot
    exact hne ((elected_electPorts stp).root_eq_max m hmax hdes).symm

/-- What a switch does with a config it takes over. -/
theorem handleConfig_accept {stp : Switch n} {p : Fin n} {config : StpConfig}
    (hle : config.vector.Le (stp.ports p).vector) (hid : config.switchId ≠ stp.switchId) :
    ∃ r, IsRootPort (stp.store p config) r ∧
      handleConfig stp p config = (stp.adopt p config r, sendConfig (stp.adopt p config r)) := by
  have hcmp : portCmp (stp.ports p) (configToPort config (stp.ports p)) = true :=
    (portCmp_iff _ _).mpr hle
  have helected := elected_electPorts (stp.store p config)
  cases hroot : (electPorts (stp.store p config)).2 with
  | none =>
    exact absurd (helected.all_designated hroot p (List.mem_finRange p))
      (store_not_designated stp p hid)
  | some r =>
    obtain ⟨hnot, hmin⟩ := helected.root_le r hroot
    refine ⟨r, ⟨hnot, fun i => hmin i (List.mem_finRange i)⟩, ?_⟩
    have hsame : redesignate (setRoot (stp.store p config) stp.isRootSwitch (some r)) p
        (electPorts (stp.store p config)).1 (some r) =
        setRoot (stp.store p config) stp.isRootSwitch (some r) := by
      rw [← hroot]
      exact redesignate_eq (by simp [setRoot, hroot]) (by simp [setRoot, hroot]) p
    simp only [handleConfig, hcmp, if_true, hroot, hsame, Switch.adopt]

theorem handleConfig_reject {stp : Switch n} {p : Fin n} {config : StpConfig}
    (hle : ¬ config.vector.Le (stp.ports p).vector) :
    handleConfig stp p config = (stp, portSendConfig stp p) := by
  have hcmp : portCmp (stp.ports p) (configToPort config (stp.ports p)) = false :=
    Bool.eq_false_iff.mpr (fun hc => hle ((portCmp_iff _ _).mp hc))
  simp [handleConfig, hcmp]

variable (stp : Switch n) (p : Fin n) (config : StpConfig) (r : Fin n)

@[simp] theorem adopt_switchId : (stp.adopt p config r).switchId = stp.switchId := rfl

@[simp] theorem adopt_rootPort : (stp.adopt p config r).rootPort = some r := rfl

@[simp] theorem adopt_designatedRoot :
    (stp.adopt p config r).designatedRoot = ((stp.store p config).ports r).designatedRoot := rfl

@[simp] theorem adopt_rootPathCost :
    (stp.adopt p config r).rootPathCost = ((stp.store p config).ports r).designatedCost +
      ((stp.store p config).ports r).pathCost := rfl

/-- The adoption changes the vectors of designated ports only. -/
theorem adopt_ports (i : Fin n) :
    (stp.adopt p config r).ports i =
      if (stp.store p config).Designated i then
        { (stp.store p config).ports i with
          designatedRoot := (stp.adopt p config r).designatedRoot
          designatedCost := (stp.adopt p config r).rootPathCost }
      else (stp.store p config).ports i := rfl

theorem adopt_designated (i : Fin n) :
    (stp.adopt p config r).Designated i ↔ (stp.store p config).Designated i := by
  unfold Switch.Designated
  rw [adopt_ports]
  split_ifs <;> rfl

@[simp] theorem adopt_portId (i : Fin n) :
    ((stp.adopt p config r).ports i).portId = (stp.ports i).portId := by
  rw [adopt_ports]
  by_cases hi : i = p
  · subst hi
    split_ifs <;> simp [store_ports, configToPort]
  · split_ifs <;> simp [store_ports_of_ne, hi]

@[simp] theorem adopt_pathCost (i : Fin n) :
    ((stp.adopt p config r).ports i).pathCost = (stp.ports i).pathCost := by
  rw [adopt_ports]
  by_cases hi : i = p
  · subst hi
    split_ifs <;> simp [store_ports, configToPort]
  · split_ifs <;> simp [store_ports_of_ne, hi]

end Accept

section WellFormed

variable {n : ℕ}

/-- Designated ports carry the vector of the switch, and root and cost come from
the best of the other ports. -/
structure WellFormed (stp : Switch n) : Prop where
  path_cost : ∀ i, (stp.ports i).pathCost = 1
  designated : ∀ i, stp.Designated i → (stp.ports i).vector = stp.advert i
  root_none : stp.rootPort = none →
    (∀ i, stp.Designated i) ∧ stp.designatedRoot = stp.switchId ∧ stp.rootPathCost = 0
  root_some : ∀ r, stp.rootPort = some r → IsRootPort stp r ∧
    stp.designatedRoot = (stp.ports r).designatedRoot ∧
    stp.rootPathCost = (stp.ports r).designatedCost + 1

theorem designated_iff (stp : Switch n) (i : Fin n) :
    stp.Designated i ↔ (stp.ports i).designatedSwitch = stp.switchId ∧
      (stp.ports i).designatedPort = (stp.ports i).portId := by
  simp [Switch.Designated, Switch.portIsDesignated]

/-- A config makes its port designated when it names the switch and the port. -/
theorem store_designated_iff (stp : Switch n) (p : Fin n) (config : StpConfig) :
    (stp.store p config).Designated p ↔
      config.switchId = stp.switchId ∧ config.portId = (stp.ports p).portId := by
  rw [designated_iff, store_ports]
  rfl

theorem wellFormed_stpInit (n switchId : ℕ) : WellFormed (stpInit n switchId) := by
  have hall : ∀ i, (stpInit n switchId).Designated i :=
    fun i => (designated_iff _ i).mpr ⟨rfl, rfl⟩
  exact ⟨fun _ => rfl, fun _ _ => rfl, fun _ => ⟨hall, rfl, rfl⟩, fun _ h => by cases h⟩

theorem WellFormed.adopt {stp : Switch n} (h : WellFormed stp) {p : Fin n} {config : StpConfig}
    {r : Fin n} (hr : IsRootPort (stp.store p config) r) :
    WellFormed (stp.adopt p config r) := by
  constructor
  · intro i
    simpa using h.path_cost i
  · intro i hi
    have hstored := (adopt_designated stp p config r i).mp hi
    obtain ⟨hswitch, hport⟩ := (designated_iff _ i).mp hi
    simp only [StpPort.vector, Switch.advert, Priority.mk.injEq]
    refine ⟨?_, ?_, hswitch, hport⟩
    · rw [adopt_ports, if_pos hstored]
    · rw [adopt_ports, if_pos hstored]
  · intro hnone
    simp at hnone
  · intro r' hr'
    obtain rfl : r = r' := by simpa using hr'
    have hsame : ∀ i, ¬ (stp.store p config).Designated i →
        (stp.adopt p config r).ports i = (stp.store p config).ports i := by
      intro i hi
      rw [adopt_ports, if_neg hi]
    refine ⟨⟨fun hd => hr.not_designated ((adopt_designated stp p config r r).mp hd),
      fun i hi => ?_⟩, ?_, ?_⟩
    · have hi' : ¬ (stp.store p config).Designated i :=
        fun hd => hi ((adopt_designated stp p config r i).mpr hd)
      rw [hsame r hr.not_designated, hsame i hi']
      exact hr.le i hi'
    · rw [hsame r hr.not_designated, adopt_designatedRoot]
    · have hcost := h.path_cost r
      have hpath := adopt_pathCost stp p config r r
      rw [hsame r hr.not_designated] at hpath ⊢
      rw [adopt_rootPathCost, hpath, hcost]

theorem store_pathCost {stp : Switch n} (h : WellFormed stp) (p : Fin n)
    (config : StpConfig) (i : Fin n) : ((stp.store p config).ports i).pathCost = 1 := by
  by_cases hip : i = p
  · subst hip
    simpa [store_ports, configToPort] using h.path_cost i
  · rw [store_ports_of_ne stp config hip, h.path_cost]

/-- Root and cost only get better. -/
theorem adopt_notAbove {stp : Switch n} (h : WellFormed stp) {p r : Fin n}
    {config : StpConfig} (hle : config.vector.Le (stp.ports p).vector)
    (hr : IsRootPort (stp.store p config) r)
    (hdes : ¬ (stp.store p config).Designated p)
    (hpos : config.rootId = stp.switchId → 0 < config.rootPathCost) :
    NotAbove (stp.adopt p config r).designatedRoot (stp.adopt p config r).rootPathCost
      stp.designatedRoot stp.rootPathCost := by
  have hpath := store_pathCost h p config r
  have hp := hr.le p hdes
  rw [adopt_designatedRoot, adopt_rootPathCost, hpath]
  cases hroot : stp.rootPort with
  | none =>
    obtain ⟨hall, hown, hzero⟩ := h.root_none hroot
    have hrp : r = p := by
      by_contra hne
      exact hr.not_designated ((store_designated_of_ne stp config hne).mpr (hall r))
    subst hrp
    rw [h.designated r (hall r)] at hle
    rw [store_ports]
    simp only [Priority.Le, StpConfig.vector, Switch.advert] at hle
    simp only [NotAbove, configToPort]
    by_cases hself : config.rootId = stp.switchId
    · have hlow := hpos hself
      omega
    · omega
  | some r₀ =>
    obtain ⟨hr₀, hroot₀, hcost₀⟩ := h.root_some r₀ hroot
    have hbest : ((stp.store p config).ports r).vector.Le (stp.ports r₀).vector := by
      by_cases hrp : r₀ = p
      · subst hrp
        rw [store_ports] at hp
        exact hp.trans hle
      · have hnot : ¬ (stp.store p config).Designated r₀ :=
          fun hd => hr₀.not_designated ((store_designated_of_ne stp config hrp).mp hd)
        have hbest := hr.le r₀ hnot
        rwa [store_ports_of_ne stp config hrp] at hbest
    unfold NotAbove
    simp only [Priority.Le, StpPort.vector] at hbest
    omega

/-- A config that becomes the best one determines root and cost. -/
theorem root_of_best {stp : Switch n} {p r : Fin n} {config : StpConfig}
    (hr : IsRootPort (stp.store p config) r) (hdes : ¬ (stp.store p config).Designated p)
    (hbest : ∀ i, i ≠ p → ¬ stp.Designated i → config.vector.Le (stp.ports i).vector) :
    ((stp.store p config).ports r).designatedRoot = config.rootId ∧
      ((stp.store p config).ports r).designatedCost = config.rootPathCost := by
  by_cases hrp : r = p
  · subst hrp
    rw [store_ports]
    exact ⟨rfl, rfl⟩
  · have hdown := hr.le p hdes
    have hnot : ¬ stp.Designated r :=
      fun hd => hr.not_designated ((store_designated_of_ne stp config hrp).mpr hd)
    have hup := hbest r hrp hnot
    rw [store_ports, store_ports_of_ne stp config hrp] at hdown
    rw [store_ports_of_ne stp config hrp]
    simp only [Priority.Le, StpPort.vector, StpConfig.vector, configToPort] at hdown hup
    omega

/-- A config that is worse than some other port leaves root and cost as they are. -/
theorem root_of_not_best {stp : Switch n} (h : WellFormed stp) {p r j : Fin n}
    {config : StpConfig} (hle : config.vector.Le (stp.ports p).vector)
    (hr : IsRootPort (stp.store p config) r) (hj : j ≠ p) (hjnot : ¬ stp.Designated j)
    (hworse : ¬ config.vector.Le (stp.ports j).vector) :
    ((stp.store p config).ports r).designatedRoot = stp.designatedRoot ∧
      ((stp.store p config).ports r).designatedCost + 1 = stp.rootPathCost := by
  cases hroot : stp.rootPort with
  | none => exact absurd ((h.root_none hroot).1 j) hjnot
  | some r₀ =>
    obtain ⟨hr₀, hroot₀, hcost₀⟩ := h.root_some r₀ hroot
    have hr₀p : r₀ ≠ p := by
      rintro rfl
      exact hworse (hle.trans (hr₀.le j hjnot))
    have hrp : r ≠ p := by
      rintro rfl
      have hmin := hr.le j (fun hd => hjnot ((store_designated_of_ne stp config hj).mp hd))
      rw [store_ports, store_ports_of_ne stp config hj] at hmin
      exact hworse hmin
    have hdown := hr.le r₀
      (fun hd => hr₀.not_designated ((store_designated_of_ne stp config hr₀p).mp hd))
    have hup := hr₀.le r
      (fun hd => hr.not_designated ((store_designated_of_ne stp config hrp).mpr hd))
    rw [store_ports_of_ne stp config hrp, store_ports_of_ne stp config hr₀p] at hdown
    rw [store_ports_of_ne stp config hrp]
    simp only [Priority.Le, StpPort.vector] at hdown hup
    omega

/-- The switch that takes over a config stays settled if the config keeps the roles. -/
theorem settled_adopt {stp : Switch n} (h : WellFormed stp) {p r : Fin n}
    {config : StpConfig} (hle : config.vector.Le (stp.ports p).vector)
    (hr : IsRootPort (stp.store p config) r) (hdes : ¬ (stp.store p config).Designated p)
    (hsettled : ∀ i, ¬ stp.Designated i → ¬ (stp.advert i).Le (stp.ports i).vector)
    (hkeeps : (∀ i, i ≠ p → ¬ stp.Designated i → config.vector.Le (stp.ports i).vector) →
      ∀ i, i ≠ p → ¬ stp.Designated i →
        ¬ Priority.Le ⟨config.rootId, config.rootPathCost + 1, stp.switchId,
          (stp.ports i).portId⟩ (stp.ports i).vector)
    {i : Fin n} (hi : ¬ (stp.adopt p config r).Designated i) :
    ¬ ((stp.adopt p config r).advert i).Le ((stp.adopt p config r).ports i).vector := by
  have hi' : ¬ (stp.store p config).Designated i :=
    fun hd => hi ((adopt_designated stp p config r i).mpr hd)
  have hpath := store_pathCost h p config r
  have hadvert : (stp.adopt p config r).advert i =
      ⟨((stp.store p config).ports r).designatedRoot,
        ((stp.store p config).ports r).designatedCost + 1, stp.switchId,
        (stp.ports i).portId⟩ := by
    simp [Switch.advert, hpath]
  have hports : (stp.adopt p config r).ports i = (stp.store p config).ports i := by
    rw [adopt_ports, if_neg hi']
  rw [hadvert, hports]
  by_cases hbest : ∀ j, j ≠ p → ¬ stp.Designated j → config.vector.Le (stp.ports j).vector
  · obtain ⟨hroot, hcost⟩ := root_of_best hr hdes hbest
    rw [hroot, hcost]
    by_cases hip : i = p
    · subst hip
      rw [store_ports]
      simp only [Priority.Le, StpPort.vector, configToPort]
      omega
    · rw [store_designated_of_ne stp config hip] at hi'
      rw [store_ports_of_ne stp config hip]
      exact hkeeps hbest i hip hi'
  · push Not at hbest
    obtain ⟨j, hj, hjnot, hworse⟩ := hbest
    obtain ⟨hroot, hcost⟩ := root_of_not_best h hle hr hj hjnot hworse
    rw [hroot, hcost]
    by_cases hip : i = p
    · subst hip
      rw [store_ports]
      intro hadv
      have hadv' : (stp.advert i).Le config.vector := hadv
      by_cases hd : stp.Designated i
      · have hown := mt (store_designated_iff stp i config).mpr hdes
        rw [h.designated i hd] at hle
        simp only [Priority.Le, StpConfig.vector, Switch.advert] at hle hadv'
        omega
      · exact hsettled i hd (hadv'.trans hle)
    · rw [store_designated_of_ne stp config hip] at hi'
      rw [store_ports_of_ne stp config hip]
      exact hsettled i hi'

end WellFormed

end NetworkLab.Stp
