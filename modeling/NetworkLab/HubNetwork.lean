import Mathlib.Combinatorics.SimpleGraph.Star
import Mathlib.Tactic
import NetworkLab.GuardedRuns
import NetworkLab.NonBacktracking

/-!
# Hubs that are connected to each other

`broadcast_packet` of the hub sends a frame on all interfaces but the one that it has come in on,
and keeps nothing. Where the links form a tree a frame arrives once at every node. Where they have
a cycle its copies go round for ever, the broadcast storm of `round_nodes_bw.py`.
-/
namespace NetworkLab.Hub
open GuardedRuns NonBacktracking

variable {V : Type*}

section Model

variable [DecidableEq V]

/-- The interfaces that `broadcast_packet` sends on. An interface is named by the node at the
other end of its link. -/
def broadcastPacket (ifaceList : List V) (iface : V) : List V :=
  ifaceList.filter fun pos => decide (pos ≠ iface)

/-- The copies of a frame: those on links, those that have arrived and those that are lost. A copy
has the nodes on its way, the one it goes to first. -/
structure Flood (V : Type*) where
  flight : List (List V)
  arrived : List (List V)
  lost : List (List V)

inductive Event
  | deliver (k : ℕ)
  | lose (k : ℕ)

/-- A copy arrives, and `handle_packet` sends it on; the node knows the interface that it has come
in on. A host is a node with one interface. -/
def Flood.step (ifaces : V → List V) (s : Flood V) : Event → Option (Flood V)
  | .deliver k =>
    match s.flight[k]? with
    | some (v :: u :: way) => some {
        flight := s.flight.eraseIdx k ++
          (broadcastPacket (ifaces v) u).map fun w => w :: v :: u :: way
        arrived := s.arrived ++ [v :: u :: way]
        lost := s.lost }
    | _ => none
  | .lose k =>
    match s.flight[k]? with
    | some way => some { s with flight := s.flight.eraseIdx k, lost := s.lost ++ [way] }
    | none => none

/-- The frame that one node sends to the next. -/
def Flood.start (x y : V) : Flood V := ⟨[[y, x]], [], []⟩

/-- No copy is lost. -/
def lossless (_ : Flood V) : Event → Prop
  | .deliver _ => True
  | .lose _ => False

instance (s : Flood V) : ∀ e, Decidable (lossless s e)
  | .deliver _ => isTrue trivial
  | .lose _ => isFalse id

/-- The copies that have arrived at a node. -/
def Flood.arrivals (s : Flood V) (v : V) : ℕ :=
  (s.arrived.map List.head?).count (some v)

/-- The interfaces are those of the links. -/
def Wired (G : SimpleGraph V) (ifaces : V → List V) : Prop :=
  ∀ v, (ifaces v).Nodup ∧ ∀ w, w ∈ ifaces v ↔ G.Adj v w

/-- All copies that there have been. -/
def Flood.copies (s : Flood V) : List (List V) := s.arrived ++ s.lost ++ s.flight

end Model

section Invariant

variable [DecidableEq V] {G : SimpleGraph V} {ifaces : V → List V} {x y v u w : V}
  {s t : Flood V} {way : List V}

/-- The copies are on different ways; what has arrived has been sent on over every way there is. -/
structure Flood.Right (G : SimpleGraph V) (x y : V) (s : Flood V) : Prop where
  ways : ∀ way ∈ s.copies, Way G x y way
  nodup : s.copies.Nodup
  first : [y, x] ∈ s.copies
  parents : ∀ w way, w :: way ∈ s.copies → way = [x] ∨ way ∈ s.arrived
  closed : ∀ w, ∀ way ∈ s.arrived, Way G x y (w :: way) → w :: way ∈ s.copies

theorem mem_broadcastPacket (hwired : Wired G ifaces) :
    w ∈ broadcastPacket (ifaces v) u ↔ G.Adj v w ∧ w ≠ u := by
  rw [broadcastPacket, List.mem_filter, (hwired v).2, decide_eq_true_iff]

/-- A step takes a copy off its link; one that arrives is sent on. -/
inductive Flood.Stepped (ifaces : V → List V) (s : Flood V) : Flood V → Prop
  | deliver {v u : V} {way : List V} {rest : List (List V)}
      (hflight : s.flight.Perm ((v :: u :: way) :: rest)) :
      Flood.Stepped ifaces s ⟨rest ++ (broadcastPacket (ifaces v) u).map fun w =>
        w :: v :: u :: way, s.arrived ++ [v :: u :: way], s.lost⟩
  | lose {way : List V} {rest : List (List V)} (hflight : s.flight.Perm (way :: rest)) :
      Flood.Stepped ifaces s ⟨rest, s.arrived, s.lost ++ [way]⟩

theorem Flood.stepped {e : Event} (h : s.step ifaces e = some t) : s.Stepped ifaces t := by
  have hperm {k : ℕ} {way : List V} (hk : s.flight[k]? = some way) :
      s.flight.Perm (way :: s.flight.eraseIdx k) := by
    obtain ⟨hlt, rfl⟩ := List.getElem?_eq_some_iff.mp hk
    exact (List.getElem_cons_eraseIdx_perm hlt).symm
  cases e with
  | deliver k =>
    rw [Flood.step] at h
    split at h
    next v u way hk =>
      obtain rfl := Option.some.inj h
      exact .deliver (hperm hk)
    next => cases h
  | lose k =>
    rw [Flood.step] at h
    split at h
    next way hk =>
      obtain rfl := Option.some.inj h
      exact .lose (hperm hk)
    next => cases h

omit [DecidableEq V] in
theorem Flood.right_start (hadj : G.Adj x y) : (Flood.start x y).Right G x y where
  ways way hway := by
    obtain rfl := List.mem_singleton.mp hway
    exact .start hadj
  nodup := List.nodup_singleton _
  first := List.mem_singleton.mpr rfl
  parents w way hway := .inl (List.cons.inj (List.mem_singleton.mp hway)).2
  closed _ way hway := absurd hway List.not_mem_nil

theorem Flood.Right.deliver {rest : List (List V)} (h : s.Right G x y) (hwired : Wired G ifaces)
    (hflight : s.flight.Perm ((v :: u :: way) :: rest)) :
    Flood.Right G x y ⟨rest ++ (broadcastPacket (ifaces v) u).map fun w => w :: v :: u :: way,
      s.arrived ++ [v :: u :: way], s.lost⟩ := by
  have hmem : v :: u :: way ∈ s.flight := hflight.mem_iff.mpr List.mem_cons_self
  have hway := h.ways _ (List.mem_append_right _ hmem)
  have hnew (l : List V) : l ∈ (broadcastPacket (ifaces v) u).map (fun w => w :: v :: u :: way) ↔
      ∃ w, G.Adj v w ∧ w ≠ u ∧ l = w :: v :: u :: way := by
    simp only [List.mem_map, mem_broadcastPacket hwired]
    constructor
    · rintro ⟨w, ⟨hadj, hne⟩, rfl⟩
      exact ⟨w, hadj, hne, rfl⟩
    · rintro ⟨w, hadj, hne, rfl⟩
      exact ⟨w, ⟨hadj, hne⟩, rfl⟩
  have hperm : (s.arrived ++ [v :: u :: way] ++ s.lost ++ (rest ++
      (broadcastPacket (ifaces v) u).map fun w => w :: v :: u :: way)).Perm
      (s.copies ++ (broadcastPacket (ifaces v) u).map fun w => w :: v :: u :: way) := by
    rw [Flood.copies, ← List.append_assoc]
    refine List.Perm.append_right _ ?_
    rw [List.append_assoc, List.append_assoc, List.append_assoc]
    refine List.Perm.append_left _ ?_
    exact (@List.perm_middle _ (v :: u :: way) s.lost rest).symm.trans
      (hflight.symm.append_left _)
  -- A copy that has not arrived has not been sent on.
  have hapart : v :: u :: way ∉ s.arrived := by
    intro hin
    have hdisjoint := List.nodup_append.mp h.nodup
    exact hdisjoint.2.2 _ (List.mem_append_left _ hin) _ hmem rfl
  refine ⟨fun l hl => ?_, ?_, ?_, fun w l hl => ?_, fun w l hl hext => ?_⟩
  · rcases List.mem_append.mp (hperm.mem_iff.mp hl) with hold | hl
    · exact h.ways l hold
    · obtain ⟨w, hadj, hne, rfl⟩ := (hnew l).mp hl
      exact hway.next hadj hne
  · refine hperm.nodup_iff.mpr (List.nodup_append.mpr ⟨h.nodup, ?_, fun l hl l' hl' heq => ?_⟩)
    · exact ((hwired v).1.filter _).map fun w w' heq => (List.cons.inj heq).1
    · subst heq
      obtain ⟨w, -, -, rfl⟩ := (hnew l).mp hl'
      rcases h.parents w _ hl with heq | hin
      · cases heq
      · exact hapart hin
  · exact hperm.mem_iff.mpr (List.mem_append_left _ h.first)
  · rcases List.mem_append.mp (hperm.mem_iff.mp hl) with hold | hl
    · exact (h.parents w l hold).imp_right fun hin => List.mem_append_left _ hin
    · obtain ⟨w', -, -, heq⟩ := (hnew _).mp hl
      obtain ⟨-, rfl⟩ := List.cons.inj heq
      exact .inr (List.mem_append_right _ List.mem_cons_self)
  · refine hperm.mem_iff.mpr ?_
    rcases List.mem_append.mp hl with hold | hl
    · exact List.mem_append_left _ (h.closed w l hold hext)
    · obtain rfl := List.mem_singleton.mp hl
      refine List.mem_append_right _ ((hnew _).mpr ?_)
      rcases hext.cases_cons with heq | ⟨v', u', l', heq, -, hadj, hne⟩
      · cases heq
      · obtain ⟨hv, heq⟩ := List.cons.inj heq
        obtain ⟨hu, -⟩ := List.cons.inj heq
        exact ⟨w, hv ▸ hadj, hu ▸ hne, rfl⟩

omit [DecidableEq V] in
theorem Flood.Right.lose {rest : List (List V)} (h : s.Right G x y)
    (hflight : s.flight.Perm (way :: rest)) :
    Flood.Right G x y ⟨rest, s.arrived, s.lost ++ [way]⟩ := by
  have hperm : (s.arrived ++ (s.lost ++ [way]) ++ rest).Perm s.copies := by
    rw [Flood.copies, List.append_assoc, List.append_assoc, List.append_assoc]
    exact (hflight.symm.append_left _).append_left _
  exact {
    ways := fun l hl => h.ways l (hperm.mem_iff.mp hl)
    nodup := hperm.nodup_iff.mpr h.nodup
    first := hperm.mem_iff.mpr h.first
    parents := fun w l hl => h.parents w l (hperm.mem_iff.mp hl)
    closed := fun w l hl hext => hperm.mem_iff.mpr (h.closed w l hl hext) }

theorem Flood.Right.of_reaches {ok : Flood V → Event → Prop} (hwired : Wired G ifaces)
    (hadj : G.Adj x y) (h : Reaches (Flood.step ifaces) ok (fun u => u = Flood.start x y) s) :
    s.Right G x y := by
  refine h.invariant (Flood.Right G x y) ?_ fun s e t hs _ hstep => ?_
  · rintro s rfl
    exact right_start hadj
  · cases Flood.stepped hstep with
    | deliver hflight => exact hs.deliver hwired hflight
    | lose hflight => exact hs.lose hflight

end Invariant

section Runs

variable [DecidableEq V] {G : SimpleGraph V} {ifaces : V → List V} {x y v : V} {s : Flood V}

omit [DecidableEq V] in
/-- Where nothing is on its way and nothing is lost, every way has been taken. -/
theorem Flood.Right.mem_arrived (h : s.Right G x y) (hflight : s.flight = []) (hlost : s.lost = [])
    {way : List V} (hway : Way G x y way) : way ∈ s.arrived := by
  have hcopies : s.copies = s.arrived := by
    rw [Flood.copies, hflight, hlost, List.append_nil, List.append_nil]
  induction hway with
  | start => exact hcopies ▸ h.first
  | next hprev hadj hne ih => exact hcopies ▸ h.closed _ _ ih (hprev.next hadj hne)

omit [DecidableEq V] in
/-- In a tree the copies go to different nodes. -/
theorem Flood.Right.nodup_heads (h : s.Right G x y) (hG : G.IsAcyclic) :
    (s.copies.map List.head?).Nodup := by
  refine h.nodup.map_on fun way hway way' hway' heq => ?_
  obtain ⟨v, u, l, rfl⟩ := (h.ways way hway).exists_cons
  obtain ⟨v', u', l', rfl⟩ := (h.ways way' hway').exists_cons
  obtain rfl : v = v' := Option.some.inj heq
  rw [Way.unique hG (h.ways _ hway) (h.ways _ hway')]

theorem Flood.Right.length_lt [Fintype V] (h : s.Right G x y) (hG : G.IsAcyclic) :
    s.copies.length < Fintype.card V := by
  have hsub : (s.copies.map List.head?).toFinset ⊆ (Finset.univ.erase x).image some := by
    intro head hhead
    obtain ⟨way, hway, rfl⟩ := List.mem_map.mp (List.mem_toFinset.mp hhead)
    obtain ⟨v, u, l, rfl⟩ := (h.ways way hway).exists_cons
    exact Finset.mem_image_of_mem some
      (Finset.mem_erase.mpr ⟨(h.ways _ hway).head_ne hG, Finset.mem_univ v⟩)
  have hle := (Finset.card_le_card hsub).trans Finset.card_image_le
  rw [List.toFinset_card_of_nodup (h.nodup_heads hG), List.length_map,
    Finset.card_erase_of_mem (Finset.mem_univ x), Finset.card_univ] at hle
  have hpos : 0 < Fintype.card V := Fintype.card_pos_iff.mpr ⟨x⟩
  omega

theorem Flood.arrivals_le (h : s.Right G x y) (hG : G.IsAcyclic) (v : V) : s.arrivals v ≤ 1 := by
  have hsub : (s.arrived.map List.head?).Sublist (s.copies.map List.head?) := by
    rw [Flood.copies, List.append_assoc]
    exact (List.sublist_append_left _ _).map _
  exact (hsub.count_le _).trans (List.nodup_iff_count_le_one.mp (h.nodup_heads hG) _)

/-- On a tree a frame comes to every node once at most and never back, there are fewer copies than
nodes, and when none is on a link and none has been lost, the frame has come to every node once. -/
theorem tree_broadcasts [Fintype V] (hG : G.IsTree) (hwired : Wired G ifaces)
    (hx : ifaces x = [y])
    (h : Reaches (Flood.step ifaces) anyStep (fun u => u = Flood.start x y) s) :
    (∀ v, s.arrivals v ≤ 1) ∧ s.arrivals x = 0 ∧ s.copies.length < Fintype.card V ∧
      (s.flight = [] → s.lost = [] → ∀ v, v ≠ x → s.arrivals v = 1) := by
  have hone (w : V) : G.Adj x w ↔ w = y := by
    rw [← (hwired x).2, hx, List.mem_singleton]
  have hright := Flood.Right.of_reaches hwired ((hone y).mpr rfl) h
  refine ⟨Flood.arrivals_le hright hG.isAcyclic, ?_, hright.length_lt hG.isAcyclic,
    fun hflight hlost v hv => ?_⟩
  · refine List.count_eq_zero.mpr fun hin => ?_
    obtain ⟨way, hway, hhead⟩ := List.mem_map.mp hin
    have hcopy : way ∈ s.copies := List.mem_append_left _ (List.mem_append_left _ hway)
    obtain ⟨v, u, l, rfl⟩ := (hright.ways way hcopy).exists_cons
    exact (hright.ways _ hcopy).head_ne hG.isAcyclic (Option.some.inj hhead)
  · obtain ⟨l, hway⟩ := (exists_way hone (hG.connected.preconnected x v)).resolve_left hv
    have hin := List.mem_map_of_mem (f := List.head?) (hright.mem_arrived hflight hlost hway)
    exact le_antisymm (Flood.arrivals_le hright hG.isAcyclic v) (List.count_pos_iff.mpr hin)

/-- The hub of `three_nodes_bw.py` and its three hosts. -/
inductive ThreeNodes
  | b1
  | h1
  | h2
  | h3
  deriving DecidableEq

instance : Fintype ThreeNodes := ⟨{.b1, .h1, .h2, .h3}, fun v => by cases v <;> decide⟩

def threeHosts : ThreeNodes → List ThreeNodes
  | .b1 => [.h1, .h2, .h3]
  | .h1 | .h2 | .h3 => [.b1]

theorem wired_threeHosts : Wired (SimpleGraph.starGraph .b1) threeHosts := by
  simp only [Wired, SimpleGraph.starGraph_adj]
  decide

theorem tree_broadcasts_threeHosts : ∃ s : Flood ThreeNodes,
    s.flight = [] ∧ s.lost = [] ∧ ∀ v, v ≠ .h1 → s.arrivals v = 1 := by
  have hrun : ∃ s, Reaches (Flood.step threeHosts) anyStep (fun u => u = Flood.start .h1 .b1) s ∧
      s.flight = [] ∧ s.lost = [] :=
    exists_of_exec_from (Flood.start ThreeNodes.h1 .b1) [.deliver 0, .deliver 1, .deliver 0] _
      (by decide +kernel)
  obtain ⟨s, hs, hflight, hlost⟩ := hrun
  exact ⟨s, hflight, hlost, (tree_broadcasts (SimpleGraph.isTree_starGraph .b1) wired_threeHosts rfl
    hs).2.2.2 hflight hlost⟩

/-- Without losses nothing is lost. -/
theorem Flood.lost_eq_nil
    (h : Reaches (Flood.step ifaces) lossless (fun u => u = Flood.start x y) s) : s.lost = [] := by
  refine h.invariant (fun s => s.lost = []) (fun s hs => by rw [hs]; rfl) ?_
  intro s e t hlost hok hstep
  cases e with
  | lose k => exact absurd hok not_false
  | deliver k =>
    rw [Flood.step] at hstep
    split at hstep
    · obtain rfl := Option.some.inj hstep
      exact hlost
    · cases hstep

/-- A copy on a link can arrive. -/
theorem Flood.Right.exists_deliver (h : s.Right G x y) (hflight : s.flight ≠ []) :
    ∃ t, s.step ifaces (.deliver 0) = some t ∧ t.arrived.length = s.arrived.length + 1 := by
  obtain ⟨way, rest, hcons⟩ := List.exists_cons_of_ne_nil hflight
  have hcopy : way ∈ s.copies := by
    rw [Flood.copies, hcons]
    exact List.mem_append_right _ List.mem_cons_self
  obtain ⟨v, u, l, rfl⟩ := (h.ways way hcopy).exists_cons
  rw [Flood.step, hcons]
  exact ⟨_, rfl, List.length_append⟩

/-- Where no copy is lost, they come to an end on a tree, and only there. -/
theorem broadcast_ends_iff [Fintype V] (hG : G.Connected) (hwired : Wired G ifaces)
    (hx : ifaces x = [y]) :
    (∃ s, Reaches (Flood.step ifaces) lossless (fun u => u = Flood.start x y) s ∧ s.flight = []) ↔
      G.IsTree := by
  have hone (w : V) : G.Adj x w ↔ w = y := by
    rw [← (hwired x).2, hx, List.mem_singleton]
  have hright {s : Flood V}
      (h : Reaches (Flood.step ifaces) lossless (fun u => u = Flood.start x y) s) :
      s.Right G x y := Flood.Right.of_reaches hwired ((hone y).mpr rfl) h
  constructor
  · rintro ⟨s, hs, hflight⟩
    refine ⟨hG, fun v c hc => ?_⟩
    -- The cycle gives more ways than copies can have taken.
    obtain ⟨w, hw⟩ := exists_endless (hG.preconnected x v) (endless_of_isCycle hc)
    obtain rfl : w = y := by
      obtain ⟨f, rfl, rfl, hf⟩ := hw
      exact (hone _).mp (hf 0).1
    obtain ⟨way, hway, hlen⟩ := hw.exists_way (s.arrived.map List.length).sum
    have hin := (hright hs).mem_arrived hflight (Flood.lost_eq_nil hs) hway
    have hle := List.le_sum_of_mem (List.mem_map_of_mem (f := List.length) hin)
    omega
  · intro htree
    have hends (n : ℕ) : ∀ s, Reaches (Flood.step ifaces) lossless
        (fun u => u = Flood.start x y) s → Fintype.card V - s.arrived.length ≤ n →
        ∃ t, Reaches (Flood.step ifaces) lossless (fun u => u = Flood.start x y) t ∧
          t.flight = [] := by
      induction n with
      | zero =>
        intro s hs hle
        have hlt := (hright hs).length_lt htree.isAcyclic
        rw [Flood.copies, List.length_append, List.length_append] at hlt
        omega
      | succ n ih =>
        intro s hs hle
        by_cases hflight : s.flight = []
        · exact ⟨s, hs, hflight⟩
        · obtain ⟨t, ht, hlen⟩ := (hright hs).exists_deliver hflight
          exact ih t (.next hs (e := .deliver 0) trivial ht) (by omega)
    exact hends (Fintype.card V) _ (.start rfl) (Nat.sub_le _ _)

theorem broadcast_ends_iff_threeHosts :
    ∃ s, Reaches (Flood.step threeHosts) lossless (fun u => u = Flood.start .h1 .b1) s ∧
      s.flight = [] :=
  (broadcast_ends_iff (SimpleGraph.connected_starGraph ThreeNodes.b1) wired_threeHosts rfl).mpr
    (SimpleGraph.isTree_starGraph ThreeNodes.b1)

end Runs

end NetworkLab.Hub
