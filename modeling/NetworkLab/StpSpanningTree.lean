import NetworkLab.ParentTree
import NetworkLab.StpAgreement

/-!
# The links that the spanning tree protocol leaves in use

A link is in use when neither of its ports is in the state `ALTERNATE`. In a quiet network whose
switches have kept their roles these links are a spanning tree, whatever the network was like, and
the way of each switch to the root is a shortest one.
-/
namespace NetworkLab.Stp
open GuardedRuns ParentTree
open GreedyLayers (Walk IsDist)

/-- `STP_MAX_PORTS`. -/
def stpMaxPorts : ℕ := 32

inductive PortState
  | root | designated | alternate
  deriving DecidableEq

/-- `stp_port_state`, which compares the ids of the ports. -/
def Switch.portState {n : ℕ} (stp : Switch n) (p : Fin n) : PortState :=
  if stp.rootPort.any fun r => decide ((stp.ports p).portId = (stp.ports r).portId) then .root
  else if stp.portIsDesignated (stp.ports p) then .designated
  else .alternate

/-- The ids that `stp_init` gives to the ports. -/
def Switch.Numbered {n : ℕ} (stp : Switch n) : Prop :=
  ∀ i, (stp.ports i).portId = stpPortPriority <<< 8 ||| (i.val + 1)

section State

variable {n : ℕ} {stp : Switch n} {i j : Fin n}

theorem Switch.Numbered.portId_inj (h : stp.Numbered) (hn : n ≤ stpMaxPorts) :
    (stp.ports i).portId = (stp.ports j).portId ↔ i = j := by
  have hid (k : Fin n) : (stp.ports k).portId = stpPortPriority <<< 8 + (k.val + 1) := by
    have hk : k.val + 1 < 2 ^ 8 := by
      have := k.isLt
      simp only [stpMaxPorts] at hn
      omega
    rw [h k, Nat.shiftLeft_add_eq_or_of_lt hk]
  rw [hid, hid, Fin.ext_iff]
  omega

/-- The states are those that the roles of the protocol say. -/
theorem Switch.Numbered.portState_ne_alternate (h : stp.Numbered) (hn : n ≤ stpMaxPorts) :
    stp.portState i ≠ .alternate ↔ stp.rootPort = some i ∨ stp.Designated i := by
  unfold Switch.portState Switch.Designated
  cases hroot : stp.rootPort with
  | none => by_cases hd : stp.portIsDesignated (stp.ports i) = true <;> simp [hd]
  | some r =>
    by_cases hr : r = i
    · simp [hr]
    · have hne : (stp.ports i).portId ≠ (stp.ports r).portId :=
        fun heq => hr ((h.portId_inj hn).mp heq).symm
      by_cases hd : stp.portIsDesignated (stp.ports i) = true <;> simp [hne, hr, hd]

end State

section Graph

variable {V : Type*} {net : Topology V}

/-- A link from `e` to `f`, none of its ports alternate. -/
structure World.InUse (w : World net) (e f : net.End) : Prop where
  peer : net.peer e = some f
  near : (w.switches e.1).portState e.2 ≠ .alternate
  far : (w.switches f.1).portState f.2 ≠ .alternate

theorem World.InUse.symm {w : World net} {e f : net.End} (h : w.InUse e f) : w.InUse f e :=
  ⟨net.peer_symm _ _ h.peer, h.far, h.near⟩

/-- The switches are joined by a link in use. -/
def World.Joined (w : World net) (u v : V) : Prop :=
  ∃ e f, w.InUse e f ∧ e.1 = u ∧ f.1 = v

theorem World.Joined.symm {w : World net} {u v : V} (h : w.Joined u v) : w.Joined v u := by
  obtain ⟨e, f, huse, he, hf⟩ := h
  exact ⟨f, e, huse.symm, hf, he⟩

theorem World.Joined.irrefl {w : World net} {v : V} : ¬ w.Joined v v := by
  rintro ⟨e, f, huse, he, hf⟩
  exact net.peer_ne e f huse.peer (he.trans hf.symm)

def World.inUse (w : World net) : SimpleGraph V where
  Adj := w.Joined
  symm := ⟨fun _ _ h => h.symm⟩
  loopless := ⟨fun _ => World.Joined.irrefl⟩

/-- The switch at the other end of the root port. -/
def World.parent (w : World net) (v : V) : V :=
  match (w.switches v).rootPort with
  | none => v
  | some r => ((net.peer ⟨v, r⟩).map Sigma.fst).getD v

/-- The links in use are a tree of shortest ways to the switch with the least id, and no two of
them join the same switches. -/
def SpanningTree (w : World net) : Prop :=
  ∃ o, (∀ v, net.switchId o ≤ net.switchId v) ∧ w.inUse.IsTree ∧
    (∀ v, IsDist (fun u => u = o) net.edge (w.inUse.dist o v) v) ∧
    ∀ e f e' f', w.InUse e f → w.InUse e' f' → e.1 = e'.1 → f.1 = f'.1 → e = e'

/-- No step changes the ids of the ports. -/
theorem numbered_step [DecidableEq V] {w w' : World net} {ev : Event net} (hinv : Inv w)
    (h : ∀ v, (w.switches v).Numbered) (hs : step w ev = some w') :
    ∀ v, (w'.switches v).Numbered := by
  cases ev with
  | hello v =>
    simp only [Stp.step] at hs
    split_ifs at hs
    cases hs
    exact h
  | deliver f config =>
    simp only [Stp.step] at hs
    split_ifs at hs with hmem
    cases hs
    intro v i
    by_cases hv : v = f.1
    · obtain ⟨u, p⟩ := f
      obtain rfl : v = u := hv
      simp only [Function.update_self]
      by_cases hle : config.vector.Le ((w.switches v).ports p).vector
      · obtain ⟨e, hpeer, hrep⟩ := hinv.flight _ hmem
        obtain ⟨r, -, hhandle⟩ := handleConfig_accept hle (hrep.switchId_ne hinv hpeer)
        rw [hhandle, adopt_portId]
        exact h v i
      · rw [handleConfig_reject hle]
        exact h v i
    · simp only [Function.update_of_ne hv]
      exact h v i

/-- The network is quiet and all switches have kept their roles. -/
structure Steady (w : World net) : Prop where
  quiescent : Quiescent w
  inv : Inv w
  settled : Settled w
  numbered : ∀ v, (w.switches v).Numbered
  ports : ∀ v, net.nports v ≤ stpMaxPorts

variable {w : World net} {e f : net.End} {v : V}

/-- The root port leads to a designated port of a switch one hop nearer to the root. -/
theorem Steady.rootPort (h : Steady w) {r : Fin (net.nports v)}
    (hr : (w.switches v).rootPort = some r) :
    ∃ e, net.peer ⟨v, r⟩ = some e ∧ (w.switches e.1).Designated e.2 ∧
      (w.switches v).rootPathCost = (w.switches e.1).rootPathCost + 1 := by
  obtain ⟨hport, -, hcost⟩ := (h.inv.wellFormed v).root_some r hr
  obtain ⟨e, hpeer, hrep⟩ := h.inv.stored v r hport.not_designated
  have hdes := (h.quiescent.one_designated h.inv h.settled (net.peer_symm _ _ hpeer)).mpr
    hport.not_designated
  obtain ⟨hvec, -⟩ := h.quiescent.stored_eq h.inv (net.peer_symm _ _ hpeer) hdes
    (hrep.advert_le h.inv)
  have hstored : ((w.switches v).ports r).designatedCost = (w.switches e.1).rootPathCost :=
    congrArg Priority.cost hvec
  exact ⟨e, hpeer, hdes, by rw [hcost, hstored]⟩

/-- One end of a link in use is the root port of its switch, the other one is designated. -/
theorem Steady.inUse_iff (h : Steady w) : w.InUse e f ↔ net.peer e = some f ∧
    ((w.switches e.1).rootPort = some e.2 ∨ (w.switches f.1).rootPort = some f.2) := by
  have hnear := (h.numbered e.1).portState_ne_alternate (i := e.2) (h.ports e.1)
  have hfar := (h.numbered f.1).portState_ne_alternate (i := f.2) (h.ports f.1)
  constructor
  · rintro ⟨hpeer, he, hf⟩
    have hone := h.quiescent.one_designated h.inv h.settled hpeer
    rw [hnear] at he
    rw [hfar] at hf
    exact ⟨hpeer, by tauto⟩
  · rintro ⟨hpeer, he | hf⟩
    · obtain ⟨f', hpeer', hdes, -⟩ := h.rootPort he
      obtain rfl : f = f' := Option.some.inj (hpeer.symm.trans hpeer')
      exact ⟨hpeer, hnear.mpr (.inl he), hfar.mpr (.inr hdes)⟩
    · obtain ⟨e', hpeer', hdes, -⟩ := h.rootPort hf
      obtain rfl : e = e' := Option.some.inj ((net.peer_symm _ _ hpeer).symm.trans hpeer')
      exact ⟨hpeer, hnear.mpr (.inr hdes), hfar.mpr (.inl hf)⟩

theorem World.parent_eq {r : Fin (net.nports v)} (hr : (w.switches v).rootPort = some r)
    (hpeer : net.peer ⟨v, r⟩ = some e) : w.parent v = e.1 := by
  simp [World.parent, hr, hpeer]

variable {o : V}

/-- What agreement says about the costs. -/
structure Agreed (w : World net) (o : V) : Prop where
  least : ∀ v, net.switchId o ≤ net.switchId v
  root : ∀ v, (w.switches v).designatedRoot = net.switchId o
  cost : ∀ v, (w.switches v).rootPathCost = (w.switches v).rootPathCost.toNat
  dist : ∀ v, IsDist (fun u => u = o) net.edge (w.switches v).rootPathCost.toNat v

theorem Agreement.agreed (h : Agreement w) : ∃ o, Agreed w o := by
  obtain ⟨o, hleast, hall, -⟩ := h
  have hcost (v : V) : ∃ d : ℕ, (w.switches v).rootPathCost = d ∧
      IsDist (fun u => u = o) net.edge d v := (hall v).2
  refine ⟨o, hleast, fun v => (hall v).1, fun v => ?_, fun v => ?_⟩
  · obtain ⟨d, hd, -⟩ := hcost v
    simp [hd]
  · obtain ⟨d, hd, hdist⟩ := hcost v
    simpa [hd] using hdist

/-- All switches but the root have a root port. -/
theorem Agreed.rootPort (ha : Agreed w o) (h : Steady w) :
    (∃ r, (w.switches v).rootPort = some r) ↔ v ≠ o := by
  have hzero : (w.switches o).rootPathCost = 0 := by
    have hwalk : Walk (fun u => u = o) net.edge 0 o := rfl
    have hdist := ha.dist o
    rw [ha.cost o, hdist.unique ⟨hwalk, by simp⟩]
    rfl
  constructor
  · rintro ⟨r, hr⟩ rfl
    obtain ⟨e, -, -, hcost⟩ := h.rootPort hr
    have := ha.cost e.1
    omega
  · intro hne
    cases hroot : (w.switches v).rootPort with
    | some r => exact ⟨r, rfl⟩
    | none =>
      have hself := ((h.inv.wellFormed v).root_none hroot).2.1
      rw [ha.root v, h.inv.switchId v] at hself
      exact absurd (net.switchId_injective hself).symm hne

/-- The switches at the other ends of the root ports are the parents. -/
theorem Agreed.parented (ha : Agreed w o) (h : Steady w) :
    Parented w.inUse o w.parent (fun v => (w.switches v).rootPathCost.toNat) := by
  constructor
  · exact (ha.dist o).unique ⟨rfl, by simp⟩
  · intro v hv
    obtain ⟨r, hr⟩ := (ha.rootPort h).mpr hv
    obtain ⟨e, hpeer, -⟩ := h.rootPort hr
    rw [World.parent_eq hr hpeer]
    exact ⟨⟨v, r⟩, e, h.inUse_iff.mpr ⟨hpeer, .inl hr⟩, rfl, rfl⟩
  · intro v hv
    obtain ⟨r, hr⟩ := (ha.rootPort h).mpr hv
    obtain ⟨e, hpeer, -, hcost⟩ := h.rootPort hr
    rw [World.parent_eq hr hpeer]
    have hv := ha.cost v
    have he := ha.cost e.1
    omega
  · rintro u v ⟨e, f, huse, rfl, rfl⟩
    obtain ⟨hpeer, hroot | hroot⟩ := h.inUse_iff.mp huse
    · exact .inl ⟨(ha.rootPort h).mp ⟨_, hroot⟩, (World.parent_eq hroot hpeer).symm⟩
    · exact .inr ⟨(ha.rootPort h).mp ⟨_, hroot⟩,
        (World.parent_eq hroot (net.peer_symm _ _ hpeer)).symm⟩

/-- Two links in use between the same switches are the same. -/
theorem Steady.inUse_unique (h : Steady w) {e' f' : net.End} (huse : w.InUse e f)
    (huse' : w.InUse e' f') (he : e.1 = e'.1) (hf : f.1 = f'.1) : e = e' := by
  obtain ⟨u, i⟩ := e
  obtain ⟨v, j⟩ := f
  obtain ⟨u', i'⟩ := e'
  obtain ⟨v', j'⟩ := f'
  obtain rfl : u = u' := he
  obtain rfl : v = v' := hf
  obtain ⟨hpeer, hroot⟩ := h.inUse_iff.mp huse
  obtain ⟨hpeer', hroot'⟩ := h.inUse_iff.mp huse'
  have hnear (k : Fin (net.nports u)) (l : Fin (net.nports v))
      (hk : net.peer ⟨u, k⟩ = some ⟨v, l⟩) (hr : (w.switches u).rootPort = some k) :
      (w.switches u).rootPathCost = (w.switches v).rootPathCost + 1 := by
    obtain ⟨x, hx, -, hcost⟩ := h.rootPort hr
    obtain rfl := Option.some.inj (hk.symm.trans hx)
    exact hcost
  have hfar (k : Fin (net.nports u)) (l : Fin (net.nports v))
      (hk : net.peer ⟨u, k⟩ = some ⟨v, l⟩) (hr : (w.switches v).rootPort = some l) :
      (w.switches v).rootPathCost = (w.switches u).rootPathCost + 1 := by
    obtain ⟨x, hx, -, hcost⟩ := h.rootPort hr
    obtain rfl := Option.some.inj ((net.peer_symm _ _ hk).symm.trans hx)
    exact hcost
  rcases hroot with hi | hj
  · rcases hroot' with hi' | hj'
    · obtain rfl : i = i' := Option.some.inj (hi.symm.trans hi')
      rfl
    · have hup := hnear i j hpeer hi
      have hdown := hfar i' j' hpeer' hj'
      omega
  · rcases hroot' with hi' | hj'
    · have hup := hfar i j hpeer hj
      have hdown := hnear i' j' hpeer' hi'
      omega
    · obtain rfl : j = j' := Option.some.inj (hj.symm.trans hj')
      exact Option.some.inj ((net.peer_symm _ _ hpeer).symm.trans (net.peer_symm _ _ hpeer'))

theorem Steady.spanningTree [Finite V] [Nonempty V]
    (hconn : ∀ u v, ∃ n, Walk (fun x => x = u) net.edge n v) (h : Steady w) :
    SpanningTree w := by
  obtain ⟨o, ha⟩ := (h.quiescent.agreement hconn h.inv h.settled).agreed
  have hparented := ha.parented h
  refine ⟨o, ha.least, hparented.isTree, fun v => ?_, ?_⟩
  · rw [hparented.dist_eq]
    exact ha.dist v
  · exact fun _ _ _ _ huse huse' => h.inUse_unique huse huse'

/-- Whatever links the switches have, those left in use at the end of a run in which every config
keeps the roles are a spanning tree. -/
theorem stp_spanning_tree [DecidableEq V] [Finite V] [Nonempty V]
    (hconn : ∀ u v, ∃ n, Walk (fun x => x = u) net.edge n v)
    (hports : ∀ v, net.nports v ≤ stpMaxPorts)
    (hw : Reaches step KeepsRoles (fun x => x = World.initial net) w) (hq : Quiescent w) :
    SpanningTree w := by
  obtain ⟨hinv, hsettled, hnumbered⟩ := hw.invariant
    (fun x => Inv x ∧ Settled x ∧ ∀ v, (x.switches v).Numbered)
    (fun x hx => hx ▸ ⟨inv_initial net, settled_initial net, fun _ _ => rfl⟩)
    (fun x ev y hx hok hs => ⟨hx.1.step hs, hx.2.1.step hx.1 hok hs,
      numbered_step hx.1 hx.2.2 hs⟩)
  exact Steady.spanningTree hconn ⟨hq, hinv, hsettled, hnumbered, hports⟩

end Graph

section Instance

inductive Corner
  | a | b | c
  deriving DecidableEq

instance : Fintype Corner := ⟨{.a, .b, .c}, fun v => by cases v <;> decide⟩

instance : Nonempty Corner := ⟨.a⟩

def Corner.id : Corner → ℕ
  | .a => 1
  | .b => 2
  | .c => 3

def Corner.next : Corner → Corner
  | .a => .b
  | .b => .c
  | .c => .a

/-- The first port of a corner leads to the second one of the next corner. -/
def Corner.peer (e : Σ _ : Corner, Fin 2) : Option (Σ _ : Corner, Fin 2) :=
  some ⟨if e.2.val = 0 then e.1.next else e.1.next.next, e.2.rev⟩

theorem Corner.id_injective : Function.Injective Corner.id := by decide

theorem Corner.peer_symm : ∀ e f, Corner.peer e = some f → Corner.peer f = some e := by decide

theorem Corner.peer_ne : ∀ e f, Corner.peer e = some f → e.1 ≠ f.1 := by decide

/-- Three switches in a ring. -/
def ring : Topology Corner where
  nports := fun _ => 2
  switchId := Corner.id
  switchId_injective := Corner.id_injective
  peer := Corner.peer
  peer_symm := Corner.peer_symm
  peer_ne := Corner.peer_ne

/-- The news of the root goes round in both directions, and the last link is cut. -/
def bothWays : List (Event ring) :=
  [.hello .a, .deliver ⟨.b, Fin.last 1⟩ ⟨1, 0, 1, 32769⟩,
    .deliver ⟨.c, (Fin.last 1).rev⟩ ⟨1, 0, 1, 32770⟩,
    .deliver ⟨.c, Fin.last 1⟩ ⟨1, 1, 2, 32769⟩,
    .deliver ⟨.b, (Fin.last 1).rev⟩ ⟨1, 1, 3, 32770⟩,
    .deliver ⟨.c, Fin.last 1⟩ ⟨1, 1, 2, 32769⟩]

theorem bothWays_isSome : (exec step KeepsRoles (World.initial ring) bothWays).isSome := by
  decide +kernel

theorem ring_ports : ∀ v, ring.nports v ≤ stpMaxPorts := by decide

theorem ring_connected (u v : Corner) : ∃ n, Walk (fun x => x = u) ring.edge n v := by
  have hedge (e : ring.End) (f : ring.End) (hpeer : ring.peer e = some f) :
      ring.edge e.1 f.1 = true := edge_of_peer hpeer
  have hall (v : Corner) : v = u ∨ ∃ e : ring.End, ∃ f : ring.End,
      ring.peer e = some f ∧ e.1 = u ∧ f.1 = v := by
    revert u v
    decide +kernel
  rcases hall v with rfl | ⟨e, f, hpeer, rfl, rfl⟩
  · exact ⟨0, rfl⟩
  · exact ⟨1, e.1, rfl, hedge e f hpeer⟩

theorem stp_spanning_tree_ring :
    SpanningTree ((exec step KeepsRoles (World.initial ring) bothWays).get bothWays_isSome) :=
  stp_spanning_tree ring_connected ring_ports
    (Reaches.exec_get _ bothWays bothWays_isSome) (by decide +kernel)

end Instance

end NetworkLab.Stp
