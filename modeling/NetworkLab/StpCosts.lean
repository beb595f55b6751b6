import Mathlib.Data.Fintype.Card
import NetworkLab.StpNetwork

/-!
# Spanning tree protocol: costs stay below the number of switches

A root and its cost come from one switch to the next, and a switch that has passed them on never
goes back to a worse cost. So the switches on the way are all different.
-/
namespace NetworkLab.Stp

variable {V : Type*} {net : Topology V} {w w' : World net} {u v : V} {root : ℕ} {cost : ℤ}

section Model

/-- Root and cost have come to `u` through so many other switches. -/
def Passed (w : World net) (u : V) (root : ℕ) (cost : ℤ) : Prop :=
  ∃ through : Finset V, u ∉ through ∧ (through.card : ℤ) = cost ∧
    ∀ v ∈ through, NotAbove (w.switches v).designatedRoot (w.switches v).rootPathCost root
      (cost - 1)

/-- Whatever a switch, a port or a config says has come from one switch to the next. -/
structure Costs (w : World net) : Prop where
  own : ∀ v, Passed w v (w.switches v).designatedRoot (w.switches v).rootPathCost
  stored : ∀ v i e, ¬ (w.switches v).Designated i → net.peer ⟨v, i⟩ = some e →
    Passed w e.1 ((w.switches v).ports i).designatedRoot ((w.switches v).ports i).designatedCost
  flight : ∀ m ∈ w.flight, ∀ e, net.peer m.1 = some e →
    Passed w e.1 m.2.rootId m.2.rootPathCost

/-- No switch has a worse root or cost than before. -/
def Improved (w w' : World net) : Prop :=
  ∀ v, NotAbove (w'.switches v).designatedRoot (w'.switches v).rootPathCost
    (w.switches v).designatedRoot (w.switches v).rootPathCost

end Model

section Ways

theorem Passed.mono (h : Passed w u root cost) (hle : Improved w w') : Passed w' u root cost := by
  obtain ⟨through, hu, hcard, hall⟩ := h
  refine ⟨through, hu, hcard, fun v hv => ?_⟩
  have hold := hall v hv
  have hnew := hle v
  unfold NotAbove at *
  omega

/-- A switch that is worse off takes the root over at one more. -/
theorem Passed.next (h : Passed w u root cost)
    (hu : NotAbove (w.switches u).designatedRoot (w.switches u).rootPathCost root cost)
    (hv : ¬ NotAbove (w.switches v).designatedRoot (w.switches v).rootPathCost root cost) :
    Passed w v root (cost + 1) := by
  classical
  obtain ⟨through, hnot, hcard, hall⟩ := h
  have hle : ∀ x ∈ insert u through,
      NotAbove (w.switches x).designatedRoot (w.switches x).rootPathCost root cost := by
    intro x hx
    rcases Finset.mem_insert.mp hx with rfl | hold
    · exact hu
    · have hx := hall x hold
      unfold NotAbove at *
      omega
  refine ⟨insert u through, fun hmem => hv (hle v hmem), ?_, fun x hx => ?_⟩
  · rw [Finset.card_insert_of_notMem hnot]
    omega
  · rw [add_sub_cancel_right]
    exact hle x hx

theorem Passed.cost_bounds [Fintype V] (h : Passed w u root cost) :
    0 ≤ cost ∧ cost < Fintype.card V := by
  obtain ⟨through, hu, rfl, -⟩ := h
  exact ⟨Int.natCast_nonneg _, by exact_mod_cast Finset.card_lt_univ_of_notMem hu⟩

end Ways

section Steps

theorem costs_initial (net : Topology V) : Costs (World.initial net) where
  own v := ⟨∅, Finset.notMem_empty v, rfl, fun _ hv => absurd hv (Finset.notMem_empty _)⟩
  stored _ i _ hi := absurd ((designated_iff _ i).mpr ⟨rfl, rfl⟩) hi
  flight _ hm := absurd hm List.not_mem_nil

/-- What is sent is what the switch says of itself. -/
theorem Costs.sent (h : Costs w) (v : V) {kept sent : List (net.End × StpConfig)}
    (hkept : ∀ m ∈ kept, m ∈ w.flight)
    (hsent : ∀ m ∈ sent, ∃ i, net.peer m.1 = some ⟨v, i⟩ ∧ m.2.vector = (w.switches v).advert i) :
    Costs (⟨w.switches, kept ++ sent⟩ : World net) := by
  refine ⟨h.own, h.stored, fun m hm e hpeer => ?_⟩
  rcases List.mem_append.mp hm with hold | hnew
  · exact h.flight m (hkept m hold) e hpeer
  · obtain ⟨i, hpeer', hvec⟩ := hsent m hnew
    obtain rfl : e = ⟨v, i⟩ := Option.some.inj (hpeer.symm.trans hpeer')
    have hroot : m.2.rootId = (w.switches v).designatedRoot := congrArg Priority.root hvec
    have hcost : m.2.rootPathCost = (w.switches v).rootPathCost := congrArg Priority.cost hvec
    rw [hroot, hcost]
    exact h.own v

/-- The world with what `f` has taken over and before anything is sent. -/
theorem Costs.adopt [DecidableEq V] (hinv : Inv w) (h : Costs w) {f e : net.End}
    {config : StpConfig} (hmem : (f, config) ∈ w.flight) (hpeer : net.peer f = some e)
    (hrep : Reports w e config.vector)
    (hle : config.vector.Le ((w.switches f.1).ports f.2).vector) {r : Fin (net.nports f.1)}
    (hr : IsRootPort ((w.switches f.1).store f.2 config) r) :
    Costs (⟨Function.update w.switches f.1 ((w.switches f.1).adopt f.2 config r),
      w.flight.erase (f, config)⟩ : World net) := by
  have hid : config.switchId ≠ (w.switches f.1).switchId := hrep.switchId_ne hinv hpeer
  have hpos : config.rootId = (w.switches f.1).switchId → 0 < config.rootPathCost :=
    fun hroot => hrep.cost_pos hpeer (hroot.trans (hinv.switchId f.1))
  have hwf := (hinv.wellFormed f.1).adopt hr
  have hbetter := adopt_notAbove (hinv.wellFormed f.1) hle hr (store_not_designated _ f.2 hid) hpos
  have himproved : Improved w
      ⟨Function.update w.switches f.1 ((w.switches f.1).adopt f.2 config r),
        w.flight.erase (f, config)⟩ := by
    intro v
    by_cases hv : v = f.1
    · subst hv
      simpa using hbetter
    · simp only [Function.update_of_ne hv]
      exact .inr ⟨rfl, le_refl _⟩
  -- What the ports hold after the config has been stored.
  have hports (i : Fin (net.nports f.1)) (e' : net.End) (hpeer' : net.peer ⟨f.1, i⟩ = some e')
      (hi : ¬ ((w.switches f.1).store f.2 config).Designated i) :
      Passed w e'.1 (((w.switches f.1).store f.2 config).ports i).designatedRoot
        (((w.switches f.1).store f.2 config).ports i).designatedCost := by
    by_cases hif : i = f.2
    · subst hif
      rw [store_ports]
      exact h.flight _ hmem e' hpeer'
    · rw [store_ports_of_ne _ config hif]
      rw [store_designated_of_ne _ config hif] at hi
      exact h.stored f.1 i e' hi hpeer'
  refine ⟨fun v => ?_, fun v i e' hi hpeer' => ?_, fun m hm e' hpeer' => ?_⟩
  · by_cases hv : v = f.1
    · subst hv
      simp only [Function.update_self]
      obtain ⟨e', hpeer', hrep'⟩ := hinv.reports_stored hpeer hrep hr.not_designated
      obtain ⟨-, hroot, hcost⟩ := hwf.root_some r rfl
      rw [adopt_ports, if_neg hr.not_designated] at hroot hcost
      rw [hroot, hcost] at hbetter ⊢
      refine ((hports r e' hpeer' hr.not_designated).next hrep'.notAbove fun hworse => ?_).mono
        himproved
      unfold NotAbove at hbetter hworse
      omega
    · simp only [Function.update_of_ne hv]
      exact (h.own v).mono himproved
  · by_cases hv : v = f.1
    · subst hv
      simp only [Function.update_self] at hi ⊢
      rw [adopt_designated] at hi
      rw [adopt_ports, if_neg hi]
      exact (hports i e' hpeer' hi).mono himproved
    · simp only [Function.update_of_ne hv] at hi ⊢
      exact (h.stored v i e' hi hpeer').mono himproved
  · exact (h.flight m (List.mem_of_mem_erase hm) e' hpeer').mono himproved

theorem Costs.step [DecidableEq V] {ev : Event net} (hinv : Inv w) (h : Costs w)
    (hs : step w ev = some w') : Costs w' := by
  cases ev with
  | hello v =>
    simp only [Stp.step] at hs
    split_ifs at hs
    cases hs
    refine h.sent v (fun _ hm => hm) fun m hm => ?_
    obtain ⟨i, hi, hpeer⟩ := mem_transmit hm
    exact ⟨i, hpeer, mem_sendConfig hi⟩
  | deliver f config =>
    simp only [Stp.step] at hs
    split_ifs at hs with hmem
    cases hs
    obtain ⟨e, hpeer, hrep⟩ := hinv.flight _ hmem
    by_cases hle : config.vector.Le ((w.switches f.1).ports f.2).vector
    · obtain ⟨r, hr, hhandle⟩ := handleConfig_accept hle (hrep.switchId_ne hinv hpeer)
      rw [hhandle]
      refine (h.adopt hinv hmem hpeer hrep hle hr).sent f.1 (fun _ hm => hm) fun m hm => ?_
      obtain ⟨i, hi, hpeer'⟩ := mem_transmit hm
      exact ⟨i, hpeer', by simpa using mem_sendConfig hi⟩
    · rw [handleConfig_reject hle, Function.update_eq_self]
      refine h.sent f.1 (fun _ hm => List.mem_of_mem_erase hm) fun m hm => ?_
      obtain ⟨i, hi, hpeer'⟩ := mem_transmit hm
      obtain ⟨rfl, hvec⟩ := mem_portSendConfig hi
      exact ⟨f.2, hpeer', hvec⟩

end Steps

end NetworkLab.Stp
