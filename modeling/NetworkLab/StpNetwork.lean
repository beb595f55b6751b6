import NetworkLab.GreedyLayers
import NetworkLab.GuardedRuns
import NetworkLab.Stp

/-!
# Spanning tree protocol: a network of switches

Any switches with distinct ids, their ports joined by links, and the configs in
flight, which are delivered in any order. In every run the root and cost of a
switch only get better, and every vector that is stored or in flight is one that
the switch at the other end of the link had before.
-/
namespace NetworkLab.Stp
open GreedyLayers (Walk)

variable {V : Type*}

/-- Ports and links; a port without a peer leads to a host. -/
structure Topology (V : Type*) where
  nports : V → ℕ
  switchId : V → ℕ
  switchId_injective : Function.Injective switchId
  peer : (Σ v, Fin (nports v)) → Option (Σ v, Fin (nports v))
  peer_symm : ∀ e f, peer e = some f → peer f = some e
  peer_ne : ∀ e f, peer e = some f → e.1 ≠ f.1

/-- An end of a link. -/
abbrev Topology.End (net : Topology V) : Type _ := Σ v, Fin (net.nports v)

open Classical in
/-- The two switches are joined by a link. -/
noncomputable def Topology.edge (net : Topology V) (u v : V) : Bool :=
  decide (∃ e f, net.peer e = some f ∧ e.1 = u ∧ f.1 = v)

structure World (net : Topology V) where
  switches : ∀ v, Switch (net.nports v)
  flight : List (net.End × StpConfig)

def World.initial (net : Topology V) : World net :=
  ⟨fun v => stpInit (net.nports v) (net.switchId v), []⟩

/-- Put the configs sent by a switch on its links. -/
def transmit (net : Topology V) (v : V) (sends : List (Fin (net.nports v) × StpConfig)) :
    List (net.End × StpConfig) :=
  sends.filterMap fun m => (net.peer ⟨v, m.1⟩).map fun e => (e, m.2)

inductive Event (net : Topology V)
  | hello (v : V)
  | deliver (e : net.End) (config : StpConfig)

/-- A hello timer fires, or a config in flight is handled by the switch it is for. -/
def step [DecidableEq V] {net : Topology V} (w : World net) : Event net → Option (World net)
  | .hello v =>
    if (w.switches v).helloTimer then
      some { w with flight := w.flight ++ transmit net v (sendConfig (w.switches v)) }
    else none
  | .deliver e config =>
    if (e, config) ∈ w.flight then
      some ⟨Function.update w.switches e.1 (handleConfig (w.switches e.1) e.2 config).1,
        w.flight.erase (e, config) ++
          transmit net e.1 (handleConfig (w.switches e.1) e.2 config).2⟩
    else none

section Invariant

variable {net : Topology V}

/-- The root is a switch, and the cost is the length of a walk to it. -/
def Sound (net : Topology V) (u : V) (root : ℕ) (cost : ℤ) : Prop :=
  ∃ (o : V) (n : ℕ), root = net.switchId o ∧ cost = n ∧ Walk (fun v => v = o) net.edge n u

/-- The vector is one that the switch at `e` had for its port, now or earlier. -/
structure Reports (w : World net) (e : net.End) (x : Priority) : Prop where
  switch_eq : x.switch = net.switchId e.1
  port_eq : x.port = ((w.switches e.1).ports e.2).portId
  notAbove : NotAbove (w.switches e.1).designatedRoot (w.switches e.1).rootPathCost x.root x.cost
  sound : Sound net e.1 x.root x.cost

/-- What holds in every run. -/
structure Inv (w : World net) : Prop where
  switchId : ∀ v, (w.switches v).switchId = net.switchId v
  wellFormed : ∀ v, WellFormed (w.switches v)
  own : ∀ v, NotAbove (w.switches v).designatedRoot (w.switches v).rootPathCost
    (net.switchId v) 0
  sound : ∀ v, Sound net v (w.switches v).designatedRoot (w.switches v).rootPathCost
  stored : ∀ v i, ¬ (w.switches v).Designated i →
    ∃ e, net.peer ⟨v, i⟩ = some e ∧ Reports w e ((w.switches v).ports i).vector
  flight : ∀ m ∈ w.flight, ∃ e, net.peer m.1 = some e ∧ Reports w e m.2.vector

theorem edge_of_peer {e f : net.End} (h : net.peer e = some f) : net.edge e.1 f.1 = true := by
  simp only [Topology.edge, decide_eq_true_eq]
  exact ⟨e, f, h, rfl, rfl⟩

/-- One hop further the cost is one more. -/
theorem Sound.next {e f : net.End} (h : net.peer e = some f) {root : ℕ} {cost : ℤ}
    (hs : Sound net e.1 root cost) : Sound net f.1 root (cost + 1) := by
  obtain ⟨o, n, hroot, hcost, hwalk⟩ := hs
  exact ⟨o, n + 1, hroot, by omega, e.1, hwalk, edge_of_peer h⟩

/-- A config never reports its receiver as a root without cost. -/
theorem Reports.cost_pos {w : World net} {e f : net.End} {x : Priority} (h : Reports w e x)
    (hpeer : net.peer f = some e) (hroot : x.root = net.switchId f.1) : 0 < x.cost := by
  obtain ⟨o, n, ho, hcost, hwalk⟩ := h.sound
  have hof : o = f.1 := net.switchId_injective (ho.symm.trans hroot)
  cases n with
  | zero =>
    have heo : e.1 = o := hwalk
    exact absurd (hof.symm.trans heo.symm) (net.peer_ne f e hpeer)
  | succ n => omega

/-- A config comes from another switch. -/
theorem Reports.switchId_ne {w : World net} {e f : net.End} {x : Priority} (h : Reports w e x)
    (hinv : Inv w) (hpeer : net.peer f = some e) : x.switch ≠ (w.switches f.1).switchId := by
  rw [h.switch_eq, hinv.switchId]
  exact fun hsame => net.peer_ne f e hpeer (net.switchId_injective hsame).symm

/-- Vectors stay reports when the switches only improve. -/
theorem Reports.mono {w w' : World net} {e : net.End} {x : Priority} (h : Reports w e x)
    (hport : ((w'.switches e.1).ports e.2).portId = ((w.switches e.1).ports e.2).portId)
    (hle : NotAbove (w'.switches e.1).designatedRoot (w'.switches e.1).rootPathCost
      (w.switches e.1).designatedRoot (w.switches e.1).rootPathCost) : Reports w' e x := by
  refine ⟨h.switch_eq, h.port_eq.trans hport.symm, ?_, h.sound⟩
  have hx := h.notAbove
  unfold NotAbove at *
  omega

theorem Inv.reports_advert {w : World net} (h : Inv w) (v : V) (i : Fin (net.nports v)) :
    Reports w ⟨v, i⟩ ((w.switches v).advert i) :=
  ⟨h.switchId v, rfl, .inr ⟨rfl, le_refl _⟩, h.sound v⟩

/-- A switch advertises nothing but its own vectors. -/
theorem mem_portSendConfig {n : ℕ} {stp : Switch n} {p : Fin n} {m : Fin n × StpConfig}
    (h : m ∈ portSendConfig stp p) : m.1 = p ∧ m.2.vector = stp.advert p := by
  unfold portSendConfig at h
  split_ifs at h
  · simp at h
  · simp only [List.mem_singleton] at h
    subst h
    exact ⟨rfl, rfl⟩

theorem mem_sendConfig {n : ℕ} {stp : Switch n} {m : Fin n × StpConfig}
    (h : m ∈ sendConfig stp) : m.2.vector = stp.advert m.1 := by
  obtain ⟨i, -, hm⟩ := List.mem_flatMap.mp h
  split_ifs at hm
  · obtain ⟨rfl, hvec⟩ := mem_portSendConfig hm
    exact hvec
  · simp at hm

theorem mem_transmit {v : V} {sends : List (Fin (net.nports v) × StpConfig)}
    {m : net.End × StpConfig} (h : m ∈ transmit net v sends) :
    ∃ i, (i, m.2) ∈ sends ∧ net.peer m.1 = some ⟨v, i⟩ := by
  obtain ⟨⟨i, config⟩, hmem, hm⟩ := List.mem_filterMap.mp h
  obtain ⟨e, hpeer, rfl⟩ := Option.map_eq_some_iff.mp hm
  exact ⟨i, hmem, net.peer_symm _ _ hpeer⟩

theorem inv_initial (net : Topology V) : Inv (World.initial net) := by
  refine ⟨fun _ => rfl, fun v => wellFormed_stpInit _ _, fun v => .inr ⟨rfl, le_refl _⟩,
    fun v => ⟨v, 0, rfl, rfl, rfl⟩, fun v i hi => ?_, fun m hm => by cases hm⟩
  exact absurd ((designated_iff _ i).mpr ⟨rfl, rfl⟩) hi

/-- The port elected by a switch holds what the other end of its link reported. -/
theorem Inv.reports_stored {w : World net} (h : Inv w) {e f : net.End} {config : StpConfig}
    (hpeer : net.peer f = some e) (hrep : Reports w e config.vector) {i : Fin (net.nports f.1)}
    (hi : ¬ ((w.switches f.1).store f.2 config).Designated i) :
    ∃ e', net.peer ⟨f.1, i⟩ = some e' ∧
      Reports w e' (((w.switches f.1).store f.2 config).ports i).vector := by
  by_cases hif : i = f.2
  · subst hif
    rw [store_ports]
    exact ⟨e, hpeer, hrep⟩
  · rw [store_ports_of_ne _ config hif]
    rw [store_designated_of_ne _ config hif] at hi
    exact h.stored f.1 i hi

/-- A world in which one switch has improved and some configs have been sent. -/
theorem Inv.improve [DecidableEq V] {w : World net} (h : Inv w) (v : V)
    (stp : Switch (net.nports v)) (hid : stp.switchId = net.switchId v) (hwf : WellFormed stp)
    (hport : ∀ i, (stp.ports i).portId = ((w.switches v).ports i).portId)
    (hle : NotAbove stp.designatedRoot stp.rootPathCost (w.switches v).designatedRoot
      (w.switches v).rootPathCost)
    (hsound : Sound net v stp.designatedRoot stp.rootPathCost)
    (hstored : ∀ i, ¬ stp.Designated i →
      ∃ e, net.peer ⟨v, i⟩ = some e ∧ Reports w e (stp.ports i).vector)
    {kept sent : List (net.End × StpConfig)} (hkept : ∀ m ∈ kept, m ∈ w.flight)
    (hsent : ∀ m ∈ sent, ∃ i, net.peer m.1 = some ⟨v, i⟩ ∧ m.2.vector = stp.advert i) :
    Inv (⟨Function.update w.switches v stp, kept ++ sent⟩ : World net) := by
  have hself : (Function.update w.switches v stp) v = stp := Function.update_self ..
  have hother : ∀ u, u ≠ v → (Function.update w.switches v stp) u = w.switches u :=
    fun u hu => Function.update_of_ne hu ..
  have hmono : ∀ e x, Reports w e x →
      Reports (⟨Function.update w.switches v stp, kept ++ sent⟩ : World net) e x := by
    intro e x hx
    by_cases he : e.1 = v
    · obtain ⟨u, i⟩ := e
      obtain rfl : u = v := he
      exact hx.mono (by simp only [hself]; exact hport i) (by simp only [hself]; exact hle)
    · exact hx.mono (by simp only [hother _ he]) (by
        simp only [hother _ he]
        exact .inr ⟨rfl, le_refl _⟩)
  constructor
  · intro u
    by_cases hu : u = v
    · subst hu
      simp only [hself]
      exact hid
    · simp only [hother u hu]
      exact h.switchId u
  · intro u
    by_cases hu : u = v
    · subst hu
      simp only [hself]
      exact hwf
    · simp only [hother u hu]
      exact h.wellFormed u
  · intro u
    by_cases hu : u = v
    · subst hu
      simp only [hself]
      have hold := h.own u
      unfold NotAbove at *
      omega
    · simp only [hother u hu]
      exact h.own u
  · intro u
    by_cases hu : u = v
    · subst hu
      simp only [hself]
      exact hsound
    · simp only [hother u hu]
      exact h.sound u
  · intro u i hi
    by_cases hu : u = v
    · subst hu
      simp only [hself] at hi ⊢
      obtain ⟨e, hpeer, hrep⟩ := hstored i hi
      exact ⟨e, hpeer, hmono e _ hrep⟩
    · simp only [hother u hu] at hi ⊢
      obtain ⟨e, hpeer, hrep⟩ := h.stored u i hi
      exact ⟨e, hpeer, hmono e _ hrep⟩
  · intro m hm
    rcases List.mem_append.mp hm with hm | hm
    · obtain ⟨e, hpeer, hrep⟩ := h.flight m (hkept m hm)
      exact ⟨e, hpeer, hmono e _ hrep⟩
    · obtain ⟨i, hpeer, hvec⟩ := hsent m hm
      refine ⟨⟨v, i⟩, hpeer, ?_⟩
      rw [hvec]
      exact ⟨hid, by simp only [hself]; rfl, by simp only [hself]; exact .inr ⟨rfl, le_refl _⟩,
        hsound⟩

/-- Without a change of any switch the invariant needs only the new configs. -/
theorem Inv.send {w : World net} (h : Inv w) (v : V) {kept sent : List (net.End × StpConfig)}
    (hkept : ∀ m ∈ kept, m ∈ w.flight)
    (hsent : ∀ m ∈ sent, ∃ i, net.peer m.1 = some ⟨v, i⟩ ∧
      m.2.vector = (w.switches v).advert i) :
    Inv (⟨w.switches, kept ++ sent⟩ : World net) := by
  refine ⟨h.switchId, h.wellFormed, h.own, h.sound, fun u i hi => ?_, fun m hm => ?_⟩
  · obtain ⟨e, hpeer, hrep⟩ := h.stored u i hi
    exact ⟨e, hpeer, ⟨hrep.switch_eq, hrep.port_eq, hrep.notAbove, hrep.sound⟩⟩
  · rcases List.mem_append.mp hm with hm | hm
    · obtain ⟨e, hpeer, hrep⟩ := h.flight m (hkept m hm)
      exact ⟨e, hpeer, ⟨hrep.switch_eq, hrep.port_eq, hrep.notAbove, hrep.sound⟩⟩
    · obtain ⟨i, hpeer, hvec⟩ := hsent m hm
      have hrep := h.reports_advert v i
      refine ⟨⟨v, i⟩, hpeer, ?_⟩
      rw [hvec]
      exact ⟨hrep.switch_eq, hrep.port_eq, hrep.notAbove, hrep.sound⟩

theorem Inv.deliver_accept [DecidableEq V] {w : World net} (h : Inv w) {e f : net.End}
    {config : StpConfig} (hpeer : net.peer f = some e) (hrep : Reports w e config.vector)
    (hle : config.vector.Le ((w.switches f.1).ports f.2).vector)
    {r : Fin (net.nports f.1)} (hr : IsRootPort ((w.switches f.1).store f.2 config) r) :
    Inv (⟨Function.update w.switches f.1 ((w.switches f.1).adopt f.2 config r),
      w.flight.erase (f, config) ++
        transmit net f.1 (sendConfig ((w.switches f.1).adopt f.2 config r))⟩ : World net) := by
  have hid : config.switchId ≠ (w.switches f.1).switchId := hrep.switchId_ne h hpeer
  have hpos : config.rootId = (w.switches f.1).switchId → 0 < config.rootPathCost :=
    fun hroot => hrep.cost_pos hpeer (hroot.trans (h.switchId f.1))
  refine h.improve f.1 ((w.switches f.1).adopt f.2 config r) (h.switchId f.1)
    ((h.wellFormed f.1).adopt hr) (by simp)
    (adopt_notAbove (h.wellFormed f.1) hle hr (store_not_designated _ f.2 hid) hpos) ?_ ?_
    (fun m hm => List.mem_of_mem_erase hm) ?_
  · obtain ⟨e', hpeer', hrep'⟩ := h.reports_stored hpeer hrep hr.not_designated
    have hwf := (h.wellFormed f.1).adopt hr
    obtain ⟨-, hroot, hcost⟩ := hwf.root_some r rfl
    have hports : ((w.switches f.1).adopt f.2 config r).ports r =
        ((w.switches f.1).store f.2 config).ports r := by
      rw [adopt_ports, if_neg hr.not_designated]
    rw [hroot, hcost, hports]
    exact hrep'.sound.next (net.peer_symm _ _ hpeer')
  · intro i hi
    rw [adopt_designated] at hi
    rw [adopt_ports, if_neg hi]
    exact h.reports_stored hpeer hrep hi
  · intro m hm
    obtain ⟨i, hi, hpeer'⟩ := mem_transmit hm
    exact ⟨i, hpeer', mem_sendConfig hi⟩

/-- Every step keeps the invariant. -/
theorem Inv.step [DecidableEq V] {w w' : World net} {ev : Event net} (h : Inv w)
    (hs : step w ev = some w') : Inv w' := by
  cases ev with
  | hello v =>
    simp only [Stp.step] at hs
    split_ifs at hs
    cases hs
    refine h.send v (fun _ hm => hm) (fun m hm => ?_)
    obtain ⟨i, hi, hpeer⟩ := mem_transmit hm
    exact ⟨i, hpeer, mem_sendConfig hi⟩
  | deliver f config =>
    simp only [Stp.step] at hs
    split_ifs at hs with hmem
    cases hs
    obtain ⟨e, hpeer, hrep⟩ := h.flight _ hmem
    by_cases hle : config.vector.Le ((w.switches f.1).ports f.2).vector
    · have hid : config.switchId ≠ (w.switches f.1).switchId := by
        have heq : config.switchId = net.switchId e.1 := hrep.switch_eq
        rw [heq, h.switchId]
        exact fun hsame => net.peer_ne f e hpeer (net.switchId_injective hsame).symm
      obtain ⟨r, hr, hhandle⟩ := handleConfig_accept hle hid
      rw [hhandle]
      exact h.deliver_accept hpeer hrep hle hr
    · rw [handleConfig_reject hle, Function.update_eq_self]
      refine h.send f.1 (fun _ hm => List.mem_of_mem_erase hm) (fun m hm => ?_)
      obtain ⟨i, hi, hpeer'⟩ := mem_transmit hm
      obtain ⟨rfl, hvec⟩ := mem_portSendConfig hi
      exact ⟨f.2, hpeer', hvec⟩

end Invariant

end NetworkLab.Stp
