import NetworkLab.StpNetwork

/-!
# When the spanning tree protocol agrees

A port that has once taken over a config never becomes designated again, because
the attempt to make it so never finds a candidate. Where no switch runs into
this, a quiet network has the root, the costs and the roles it should have. The
switches of the source have at most 32 ports (`STP_MAX_PORTS`), a bound that the
argument does not need.
-/
namespace NetworkLab.Stp
open GuardedRuns
open GreedyLayers (Walk IsDist)

variable {V : Type*} {net : Topology V}

/-- When a config makes its port the root port, every other port that is not
designated stores a better vector than the switch will now advertise on it. -/
def KeepsRoles (w : World net) : Event net → Prop
  | .hello _ => True
  | .deliver f config =>
    config.vector.Le ((w.switches f.1).ports f.2).vector →
    (∀ i, i ≠ f.2 → ¬ (w.switches f.1).Designated i →
      config.vector.Le ((w.switches f.1).ports i).vector) →
    ∀ i, i ≠ f.2 → ¬ (w.switches f.1).Designated i →
      ¬ Priority.Le ⟨config.rootId, config.rootPathCost + 1, (w.switches f.1).switchId,
        ((w.switches f.1).ports i).portId⟩ ((w.switches f.1).ports i).vector

instance (w : World net) (ev : Event net) : Decidable (KeepsRoles w ev) :=
  match ev with
  | .hello _ => isTrue trivial
  | .deliver _ _ => inferInstanceAs (Decidable (_ → _ → _))

/-- No config is in flight, and sending the config of a designated port again
changes no receiver. -/
def Quiescent (w : World net) : Prop :=
  w.flight = [] ∧ ∀ v i, (w.switches v).Designated i →
    ∀ m ∈ transmit net v (portSendConfig (w.switches v) i),
      (handleConfig (w.switches m.1.1) m.1.2 m.2).1 = w.switches m.1.1

/-- All switches have the least id as their root and the hop distance as their
cost, and every link has exactly one designated end. -/
def Agreement (w : World net) : Prop :=
  ∃ o, (∀ v, net.switchId o ≤ net.switchId v) ∧
    (∀ v, (w.switches v).designatedRoot = net.switchId o ∧
      ∃ d : ℕ, (w.switches v).rootPathCost = d ∧ IsDist (fun u => u = o) net.edge d v) ∧
    ∀ e f, net.peer e = some f →
      ((w.switches e.1).Designated e.2 ↔ ¬ (w.switches f.1).Designated f.2)

/-- A port that is not designated stores a better vector than its own switch
would advertise. -/
def Settled (w : World net) : Prop :=
  ∀ v i, ¬ (w.switches v).Designated i →
    ¬ ((w.switches v).advert i).Le ((w.switches v).ports i).vector

section Roles

theorem settled_initial (net : Topology V) : Settled (World.initial net) :=
  fun _ i hi => absurd ((designated_iff _ i).mpr ⟨rfl, rfl⟩) hi

theorem Settled.step [DecidableEq V] {w w' : World net} {ev : Event net} (h : Settled w)
    (hinv : Inv w) (hok : KeepsRoles w ev) (hs : step w ev = some w') : Settled w' := by
  cases ev with
  | hello v =>
    simp only [Stp.step] at hs
    split_ifs at hs
    cases hs
    exact h
  | deliver f config =>
    simp only [Stp.step] at hs
    split_ifs at hs with hmem
    cases hs
    obtain ⟨e, hpeer, hrep⟩ := hinv.flight _ hmem
    by_cases hle : config.vector.Le ((w.switches f.1).ports f.2).vector
    · have hid := hrep.switchId_ne hinv hpeer
      obtain ⟨r, hr, hhandle⟩ := handleConfig_accept hle hid
      rw [hhandle]
      intro v i hi
      by_cases hv : v = f.1
      · obtain ⟨u, p⟩ := f
        obtain rfl : v = u := hv
        simp only [Function.update_self] at hi ⊢
        exact settled_adopt (hinv.wellFormed v) hle hr (store_not_designated _ p hid) (h v)
          (hok hle) hi
      · simp only [Function.update_of_ne hv] at hi ⊢
        exact h v i hi
    · rw [handleConfig_reject hle, Function.update_eq_self]
      exact h

end Roles

section Quiet

/-- What a switch reported is not better than what it advertises now. -/
theorem Reports.advert_le {w : World net} {e : net.End} {x : Priority} (hinv : Inv w)
    (h : Reports w e x) : ((w.switches e.1).advert e.2).Le x := by
  have hid := h.switch_eq
  have hport := h.port_eq
  have hle := h.notAbove
  have hown := hinv.switchId e.1
  simp only [Priority.Le, Switch.advert]
  unfold NotAbove at hle
  omega

/-- A switch that is not the root has a root port, so it always sends. -/
theorem portSendConfig_eq {n : ℕ} {stp : Switch n} (h : WellFormed stp) (p : Fin n) :
    portSendConfig stp p = [(p, stp.config p)] := by
  unfold portSendConfig
  rw [if_neg]
  intro hsilent
  cases hroot : stp.rootPort with
  | none => simp [Switch.isRootSwitch, (h.root_none hroot).2.1] at hsilent
  | some r => simp [hroot] at hsilent

/-- In a quiescent network a better advertisement of a designated port is what the
other end stores. -/
theorem Quiescent.stored_eq {w : World net} (hq : Quiescent w) (hinv : Inv w) {e f : net.End}
    (hpeer : net.peer e = some f) (hd : (w.switches e.1).Designated e.2)
    (hle : ((w.switches e.1).advert e.2).Le ((w.switches f.1).ports f.2).vector) :
    ((w.switches f.1).ports f.2).vector = (w.switches e.1).advert e.2 ∧
      ¬ (w.switches f.1).Designated f.2 := by
  obtain ⟨v, i⟩ := e
  have hmem : (f, (w.switches v).config i) ∈
      transmit net v (portSendConfig (w.switches v) i) := by
    simp [portSendConfig_eq (hinv.wellFormed v), transmit, hpeer]
  have hsame := hq.2 v i hd _ hmem
  have hid : ((w.switches v).config i).switchId ≠ (w.switches f.1).switchId :=
    (hinv.reports_advert v i).switchId_ne hinv (net.peer_symm _ _ hpeer)
  have hle' : ((w.switches v).config i).vector.Le ((w.switches f.1).ports f.2).vector := hle
  obtain ⟨r, hr, hhandle⟩ := handleConfig_accept hle' hid
  simp only [hhandle] at hsame
  have hnot := store_not_designated (w.switches f.1) f.2 hid
  have hports := adopt_ports (w.switches f.1) f.2 ((w.switches v).config i) r f.2
  rw [if_neg hnot, store_ports, hsame] at hports
  constructor
  · rw [hports]
    rfl
  · intro hdes
    rw [← hsame, adopt_designated] at hdes
    exact hnot hdes

variable {o : V}

/-- In a quiescent, settled network good news has travelled along every path. -/
theorem Quiescent.notAbove {w : World net} (hq : Quiescent w) (hinv : Inv w) (hset : Settled w)
    {d : ℕ} {v : V} (hd : IsDist (fun u => u = o) net.edge d v) :
    NotAbove (w.switches v).designatedRoot (w.switches v).rootPathCost (net.switchId o) d := by
  induction d generalizing v with
  | zero =>
    obtain rfl : v = o := hd.1
    exact hinv.own v
  | succ d ih =>
    obtain ⟨u, hu, hedge⟩ := hd.exists_pred
    simp only [Topology.edge, decide_eq_true_eq] at hedge
    obtain ⟨e, f, hpeer, rfl, rfl⟩ := hedge
    have hbest := ih hu
    by_cases hde : (w.switches e.1).Designated e.2
    · by_cases hle : ((w.switches e.1).advert e.2).Le ((w.switches f.1).ports f.2).vector
      · obtain ⟨hvec, hdf⟩ := hq.stored_eq hinv hpeer hde hle
        cases hroot : (w.switches f.1).rootPort with
        | none => exact absurd (((hinv.wellFormed f.1).root_none hroot).1 f.2) hdf
        | some r =>
          obtain ⟨hr, hroot, hcost⟩ := (hinv.wellFormed f.1).root_some r hroot
          have hmin := hr.le f.2 hdf
          rw [hvec] at hmin
          simp only [Priority.Le, StpPort.vector, Switch.advert] at hmin
          unfold NotAbove at *
          push_cast
          omega
      · by_cases hdf : (w.switches f.1).Designated f.2
        · rw [(hinv.wellFormed f.1).designated f.2 hdf] at hle
          simp only [Priority.Le, Switch.advert] at hle
          unfold NotAbove at *
          push_cast
          omega
        · obtain ⟨e', hpeer', hrep⟩ := hinv.stored f.1 f.2 hdf
          obtain rfl : e = e' := by simpa [net.peer_symm _ _ hpeer] using hpeer'
          exact absurd (hrep.advert_le hinv) hle
    · obtain ⟨f', hpeer', hrep⟩ := hinv.stored e.1 e.2 hde
      obtain rfl : f = f' := by simpa [hpeer] using hpeer'
      have hlow := hset e.1 e.2 hde
      have hold := hrep.notAbove
      simp only [Priority.Le, Switch.advert] at hlow
      unfold NotAbove at *
      push_cast
      omega

/-- Both ends of a link cannot store each other's vectors, and two designated ends
would still change each other. -/
theorem Quiescent.one_designated {w : World net} (hq : Quiescent w) (hinv : Inv w)
    (hset : Settled w) {e f : net.End} (hpeer : net.peer e = some f) :
    (w.switches e.1).Designated e.2 ↔ ¬ (w.switches f.1).Designated f.2 := by
  have hback := net.peer_symm _ _ hpeer
  constructor
  · intro hde hdf
    have hve := (hinv.wellFormed e.1).designated e.2 hde
    have hvf := (hinv.wellFormed f.1).designated f.2 hdf
    rcases Priority.Le.total ((w.switches e.1).advert e.2) ((w.switches f.1).advert f.2)
      with hle | hle
    · exact (hq.stored_eq hinv hpeer hde (by rwa [hvf])).2 hdf
    · exact (hq.stored_eq hinv hback hdf (by rwa [hve])).2 hde
  · intro hdf
    by_contra hde
    obtain ⟨f', hpeer', hrepf⟩ := hinv.stored e.1 e.2 hde
    obtain rfl : f = f' := by simpa [hpeer] using hpeer'
    obtain ⟨e', hback', hrepe⟩ := hinv.stored f.1 f.2 hdf
    obtain rfl : e = e' := by simpa [hback] using hback'
    have hef := (Priority.Le.total _ _).resolve_left (hset e.1 e.2 hde)
    exact hset f.1 f.2 hdf (((hrepf.advert_le hinv).trans hef).trans (hrepe.advert_le hinv))

theorem Quiescent.agreement [Finite V] [Nonempty V] {w : World net}
    (hconn : ∀ u v, ∃ n, Walk (fun x => x = u) net.edge n v) (hq : Quiescent w) (hinv : Inv w)
    (hset : Settled w) : Agreement w := by
  obtain ⟨o, ho⟩ := Finite.exists_min net.switchId
  refine ⟨o, ho, fun v => ?_, fun e f hpeer => hq.one_designated hinv hset hpeer⟩
  obtain ⟨n, hn⟩ := hconn o v
  obtain ⟨d, -, hd⟩ := hn.exists_isDist
  have hup := hq.notAbove hinv hset hd
  obtain ⟨o', n', hroot, hcost, hwalk⟩ := hinv.sound v
  have hmin := ho o'
  have hsame : net.switchId o' = net.switchId o := by
    unfold NotAbove at hup
    omega
  obtain rfl := net.switchId_injective hsame
  have hdn : d ≤ n' := by
    by_contra hlt
    exact hd.2 n' (by omega) hwalk
  refine ⟨hroot, d, ?_, hd⟩
  unfold NotAbove at hup
  omega

end Quiet

/-- A run in which every config keeps the roles ends, when the network is quiet, in
agreement. -/
theorem stp_agreement [DecidableEq V] [Finite V] [Nonempty V]
    (hconn : ∀ u v, ∃ n, Walk (fun x => x = u) net.edge n v) {w : World net}
    (hw : Reaches step KeepsRoles (fun x => x = World.initial net) w) (hq : Quiescent w) :
    Agreement w := by
  have hinv := hw.invariant (fun x => Inv x ∧ Settled x)
    (fun x hx => hx ▸ ⟨inv_initial net, settled_initial net⟩)
    (fun x ev y hx hok hs => ⟨hx.1.step hs, hx.2.step hx.1 hok hs⟩)
  exact hq.agreement hconn hinv.1 hinv.2

section Instance

instance [DecidableEq V] [Fintype V] (w : World net) : Decidable (Quiescent w) :=
  inferInstanceAs (Decidable (_ = _ ∧ ∀ v i, (w.switches v).Designated i →
    ∀ m ∈ transmit net v (portSendConfig (w.switches v) i), _ = _))

/-- What the literals of `Fin 3` rest on. -/
local instance three_neZero : NeZero 3 := ⟨by decide⟩

def chainPorts : Fin 3 → ℕ := ![1, 2, 1]

/-- Switch `1` in the middle is joined to switches `0` and `2`. -/
def chainPeer (e : Σ v, Fin (chainPorts v)) : Option (Σ v, Fin (chainPorts v)) :=
  if e.1 = 0 then some ⟨1, ⟨0, by decide⟩⟩
  else if e.1 = 2 then some ⟨1, ⟨1, by decide⟩⟩
  else if e.2.val = 0 then some ⟨0, ⟨0, by decide⟩⟩
  else some ⟨2, ⟨0, by decide⟩⟩

/-- The least id is at the far end from switch `0`. -/
def chain : Topology (Fin 3) where
  nports := chainPorts
  switchId := ![2, 3, 1]
  switchId_injective := by decide
  peer := chainPeer
  peer_symm := by decide
  peer_ne := by decide

/-- The root speaks first and the news goes down the chain. -/
def rootFirst : List (Event chain) :=
  [.hello 2, .deliver ⟨1, ⟨1, by decide⟩⟩ ⟨1, 0, 1, 32769⟩,
    .deliver ⟨0, ⟨0, by decide⟩⟩ ⟨1, 1, 3, 32769⟩]

theorem rootFirst_isSome :
    (exec step KeepsRoles (World.initial chain) rootFirst).isSome := by decide +kernel

theorem chain_connected (u v : Fin 3) : ∃ n, Walk (fun x => x = u) chain.edge n v := by
  have hin : ∀ u, u ≠ 1 → chain.edge u 1 = true := by
    intro u hu
    simp only [Topology.edge, decide_eq_true_eq]
    revert hu
    fin_cases u
    · exact fun _ => ⟨⟨0, ⟨0, by decide⟩⟩, ⟨1, ⟨0, by decide⟩⟩, by decide⟩
    · simp
    · exact fun _ => ⟨⟨2, ⟨0, by decide⟩⟩, ⟨1, ⟨1, by decide⟩⟩, by decide⟩
  have hout : ∀ v, v ≠ 1 → chain.edge 1 v = true := by
    intro v hv
    have hedge := hin v hv
    simp only [Topology.edge, decide_eq_true_eq] at hedge ⊢
    obtain ⟨e, f, hpeer, he, hf⟩ := hedge
    exact ⟨f, e, chain.peer_symm _ _ hpeer, hf, he⟩
  have hmiddle : ∃ n, Walk (fun x => x = u) chain.edge n 1 := by
    by_cases hu : u = 1
    · exact ⟨0, hu.symm⟩
    · exact ⟨1, u, rfl, hin u hu⟩
  obtain ⟨n, hn⟩ := hmiddle
  by_cases hv : v = 1
  · exact ⟨n, hv ▸ hn⟩
  · exact ⟨n + 1, 1, hn, hout v hv⟩

theorem stp_agreement_chain :
    Agreement ((exec step KeepsRoles (World.initial chain) rootFirst).get rootFirst_isSome) :=
  stp_agreement chain_connected (Reaches.exec_get _ rootFirst rootFirst_isSome)
    (by decide +kernel)

/-- Switch `0` speaks first; the middle switch then learns of the root on its other
port, and its first port never becomes designated again. -/
def rootLast : List (Event chain) :=
  [.hello 0, .deliver ⟨1, ⟨0, by decide⟩⟩ ⟨2, 0, 2, 32769⟩,
    .deliver ⟨2, ⟨0, by decide⟩⟩ ⟨2, 1, 3, 32770⟩,
    .deliver ⟨1, ⟨1, by decide⟩⟩ ⟨1, 0, 1, 32769⟩]

theorem rootLast_isSome : (exec step anyStep (World.initial chain) rootLast).isSome := by
  decide +kernel

def disagreeing : World chain :=
  (exec step anyStep (World.initial chain) rootLast).get rootLast_isSome

/-- The chain is quiet and switch `0` still takes itself for the root. -/
theorem chain_disagrees : ∃ w, Reaches step anyStep (fun x => x = World.initial chain) w ∧
    Quiescent w ∧ ¬ Agreement w := by
  refine ⟨disagreeing, Reaches.exec_get _ rootLast rootLast_isSome, by decide +kernel, ?_⟩
  rintro ⟨o, ho, hall, -⟩
  have hroot : (disagreeing.switches 0).designatedRoot = 2 := by decide +kernel
  have hleast := ho 2
  rw [← (hall 0).1, hroot] at hleast
  exact absurd hleast (by decide)

end Instance

end NetworkLab.Stp
