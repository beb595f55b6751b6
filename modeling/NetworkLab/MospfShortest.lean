import NetworkLab.MospfPaths

/-!
# When the computed distances are shortest

The first phase gives the rows of the direct neighbours their distance; the rounds
are then those of the search by layers, so the result is right exactly for the
matrices in which single claims cover every layer. The routes always follow the
edges that were taken.
-/
namespace NetworkLab.Mospf
open GreedyLayers (IsDist Saturated Frontier Agrees remaining)

variable {ι : Type*}

section Link

/-- State of the first phase after the neighbours whose rows are in `linked`. -/
structure Linked (m : Mtx ι) (linked : Row → Prop) (c : Calc ι) : Prop where
  rowOf_eq : ∀ rid, rowOf m.sup c.record rid = rowOf m.sup m.record rid
  dist_one : ∀ j, linked j → (c.record j).dist = 1
  dist_zero : ∀ j, ¬ linked j → (c.record j).dist = 0
  farther : c.farther = true ↔ ∃ j, linked j

/-- The rows found for router ids depend on two fields only. -/
theorem rowOf_update (sup : ℕ) (record : Row → MtxMap ι) (i : Row) (row : MtxMap ι) (rid : UInt32)
    (hvalid : row.valid = (record i).valid) (hentry : row.dbEntry = (record i).dbEntry) :
    rowOf sup (Function.update record i row) rid = rowOf sup record rid := by
  unfold rowOf
  congr 1
  funext j
  by_cases hj : j = i
  · subst hj
    simp [hvalid, hentry]
  · simp [hj]

theorem Linked.linkNbr {m : Mtx ι} {linked : Row → Prop} {c : Calc ι} (h : Linked m linked c)
    (start : ℕ) (iface : ι) (nbr : MospfNbr) :
    Linked m (fun j => linked j ∨ rowOf m.sup m.record nbr.nbrId = some j)
      (Mospf.linkNbr m.sup start iface c nbr) := by
  unfold Mospf.linkNbr
  rw [h.rowOf_eq]
  cases hrow : rowOf m.sup m.record nbr.nbrId with
  | none => exact ⟨h.rowOf_eq, by simpa using h.dist_one, by simpa using h.dist_zero,
      by simpa using h.farther⟩
  | some i =>
    simp only [Option.some.injEq]
    constructor
    · intro rid
      refine Eq.trans ?_ (h.rowOf_eq rid)
      exact rowOf_update _ _ _ _ _ rfl rfl
    · intro j hj
      by_cases hji : j = i
      · simp [hji]
      · have hlinked : linked j := hj.resolve_right (fun hij => hji hij.symm)
        simpa [hji] using h.dist_one j hlinked
    · intro j hj
      have hji : j ≠ i := fun hji => hj (.inr hji.symm)
      simpa [hji] using h.dist_zero j (fun hlinked => hj (.inl hlinked))
    · exact iff_of_true rfl ⟨i, .inr rfl⟩

theorem Linked.foldl_linkNbr {m : Mtx ι} {linked : Row → Prop} {c : Calc ι}
    (h : Linked m linked c) (start : ℕ) (iface : ι) (nbrs : List MospfNbr) :
    Linked m (fun j => linked j ∨ ∃ nbr ∈ nbrs, rowOf m.sup m.record nbr.nbrId = some j)
      (nbrs.foldl (Mospf.linkNbr m.sup start iface) c) := by
  induction nbrs generalizing linked c with
  | nil => simpa using h
  | cons nbr nbrs ih => simpa [or_assoc] using ih (h.linkNbr start iface nbr)

theorem Linked.foldl_linkIface {m : Mtx ι} {linked : Row → Prop} {c : Calc ι}
    (h : Linked m linked c) (start : ℕ) (ifaceList : List (ι × List MospfNbr)) :
    Linked m (fun j => linked j ∨ Direct m ifaceList j)
      (ifaceList.foldl (linkIface m.sup start) c) := by
  induction ifaceList generalizing linked c with
  | nil => simpa [Direct] using h
  | cons iface ifaceList ih =>
    simpa [Direct, linkIface, or_assoc] using ih (h.foldl_linkNbr start iface.1 iface.2)

theorem linked_link (m : Mtx ι) (start : ℕ) (ifaceList : List (ι × List MospfNbr))
    (rtable : List (RtEntry ι)) :
    Linked m (Direct m ifaceList) (link m start ifaceList rtable) := by
  have hstart : Linked m (fun _ => False) ⟨m.record, rtable.take start, false⟩ :=
    ⟨fun _ => rfl, fun _ h => h.elim, fun j _ => m.dist_eq j, by simp⟩
  simpa [link] using hstart.foldl_linkIface start ifaceList

/-- After the first phase exactly the first layer has its distance. -/
theorem agrees_link (m : Mtx ι) (start : ℕ) (ifaceList : List (ι × List MospfNbr))
    (rtable : List (RtEntry ι)) :
    Agrees (Direct m ifaceList) m.edge 1 (link m start ifaceList rtable).frontier := by
  have h := linked_link m start ifaceList rtable
  constructor
  · intro d j hd hdist
    obtain rfl : d = 0 := by omega
    exact h.dist_one j hdist.1
  · intro j hno
    exact h.dist_zero j (fun hj => hno 0 (by omega) ⟨hj, fun m hm => absurd hm (by omega)⟩)

end Link

section Routes

theorem EdgeRoutes.discover {m : Mtx ι} {dist : ℕ} {c : Calc ι} {i : Row} (hdist : dist ≠ 0)
    (hi : (c.record i).dist = dist) (h : EdgeRoutes m c) : EdgeRoutes m (discover m dist c i) := by
  rcases discover_cases m dist c i with ⟨hsame, -⟩ | ⟨j, -, hedge, hj, hrec, hrt, -⟩
  · rwa [hsame]
  · have hij : i ≠ j := by
      rintro rfl
      omega
    intro x hx
    rw [hrt]
    by_cases hxj : x = j
    · subst hxj
      refine ⟨i, ?_, hedge, ?_⟩
      · simp [hrec, hij, hi]
      · simp [hrec, addRtEntry]
    · have hxold : (Mospf.discover m dist c i).record x = c.record x := by simp [hrec, hxj]
      rw [hxold] at hx ⊢
      obtain ⟨y, hy, hye, hmem⟩ := h x hx
      have hyj : y ≠ j := by
        rintro rfl
        omega
      refine ⟨y, ?_, hye, List.mem_append_left _ hmem⟩
      simpa [hrec, hyj] using hy

theorem EdgeRoutes.expand {m : Mtx ι} {dist : ℕ} {c : Calc ι} (hdist : dist ≠ 0)
    (routerId : UInt32) (i : Row) (h : EdgeRoutes m c) :
    EdgeRoutes m (expand m routerId dist c i) := by
  unfold Mospf.expand
  split_ifs with hi
  · obtain ⟨hrec, -, hrt⟩ := foldl_hostRoute m.sup routerId
      ((Mospf.discover m dist c i).record i) (Mospf.discover m dist c i)
      ((Mospf.discover m dist c i).record i).dbEntry.array
    intro x hx
    rw [hrec] at hx ⊢
    obtain ⟨y, hy, hye, hmem⟩ := h.discover hdist hi x hx
    exact ⟨y, hy, hye, hrt _ hmem⟩
  · exact h

theorem EdgeRoutes.round {m : Mtx ι} {dist : ℕ} {c : Calc ι} (hdist : dist ≠ 0)
    (routerId : UInt32) (h : EdgeRoutes m c) : EdgeRoutes m (round m routerId dist c) := by
  have hfold : ∀ (is : List Row) (c : Calc ι), EdgeRoutes m c →
      EdgeRoutes m (is.foldl (Mospf.expand m routerId dist) c) := by
    intro is
    induction is with
    | nil => exact fun _ h => h
    | cons i is ih => exact fun c h => ih _ (h.expand hdist routerId i)
  exact hfold _ _ h

theorem EdgeRoutes.loop {m : Mtx ι} {routerId : UInt32} {fuel dist : ℕ} {c c' : Calc ι}
    (h : EdgeRoutes m c) (hloop : loop m routerId fuel dist c = some c') : EdgeRoutes m c' := by
  induction fuel generalizing dist c with
  | zero =>
    simp only [Mospf.loop] at hloop
    split_ifs at hloop
    cases hloop
    exact h
  | succ fuel ih =>
    simp only [Mospf.loop] at hloop
    split_ifs at hloop
    · exact ih (h.round (by omega) routerId) hloop
    · cases hloop
      exact h

theorem edgeRoutes_link (m : Mtx ι) (start : ℕ) (ifaceList : List (ι × List MospfNbr))
    (rtable : List (RtEntry ι)) : EdgeRoutes m (link m start ifaceList rtable) := by
  intro j hj
  have h := linked_link m start ifaceList rtable
  by_cases hd : Direct m ifaceList j
  · have hone := h.dist_one j hd
    omega
  · have hzero := h.dist_zero j hd
    omega

end Routes

theorem length_rows_le (sup : ℕ) : (rows sup).length ≤ sup := by
  have hnodup : ((rows sup).map Fin.val).Nodup :=
    ((List.nodup_finRange maxNodes).filter _).map Fin.val_injective
  have hsub : (rows sup).map Fin.val ⊆ List.range sup := by
    intro n hn
    obtain ⟨i, hi, rfl⟩ := List.mem_map.mp hn
    simpa using (List.mem_filter.mp hi).2
  simpa using (hnodup.subperm hsub).length_le

/-- The loop ends within `sup + 1` rounds. -/
theorem calcPath_isSome (m : Mtx ι) (routerId : UInt32) (start : ℕ)
    (ifaceList : List (ι × List MospfNbr)) (rtable : List (RtEntry ι)) (extra : ℕ) :
    ∃ c, calcPath m routerId start ifaceList rtable (m.sup + 1 + extra) = some c := by
  have hsome : (GreedyLayers.loop m.edge (rows m.sup) (m.sup + 1 + extra) 0
      (link m start ifaceList rtable).frontier).isSome := by
    refine GreedyLayers.loop_isSome (fun _ => ?_)
    have hcount : remaining (rows m.sup) (link m start ifaceList rtable).frontier ≤
        (rows m.sup).length := List.countP_le_length
    have hlen := length_rows_le m.sup
    omega
  rw [← loop_frontier m routerId, Option.isSome_map] at hsome
  exact Option.isSome_iff_exists.mp hsome

/-- The distances are shortest and the routes follow them exactly when every layer
is taken. -/
theorem calcPath_shortest_iff (m : Mtx ι) (routerId : UInt32) (start : ℕ)
    (ifaceList : List (ι × List MospfNbr)) (rtable : List (RtEntry ι)) (extra : ℕ) :
    ∃ c, calcPath m routerId start ifaceList rtable (m.sup + 1 + extra) = some c ∧
      (ShortestPaths m ifaceList c ∧ EdgeRoutes m c ↔ EveryLayerTaken m ifaceList) := by
  obtain ⟨c, hc⟩ := calcPath_isSome m routerId start ifaceList rtable extra
  have hroutes := (edgeRoutes_link m start ifaceList rtable).loop hc
  have hsearch : GreedyLayers.loop m.edge (rows m.sup) (m.sup + 1 + extra) 0
      (link m start ifaceList rtable).frontier = some c.frontier := by
    rw [← loop_frontier m routerId]
    exact congrArg (Option.map Calc.frontier) hc
  have hstop : (link m start ifaceList rtable).frontier.farther = false →
      ∀ j, ¬ IsDist (Direct m ifaceList) m.edge 0 j := by
    intro hf j hdist
    have hfar := (linked_link m start ifaceList rtable).farther.mpr ⟨j, hdist.1⟩
    have hnot : (link m start ifaceList rtable).farther = false := hf
    rw [hfar] at hnot
    cases hnot
  have hcorrect := GreedyLayers.loop_correct_iff
    (agrees_link m start ifaceList rtable) hstop hsearch
  refine ⟨c, hc, ?_⟩
  calc ShortestPaths m ifaceList c ∧ EdgeRoutes m c
      ↔ ShortestPaths m ifaceList c := and_iff_left hroutes
    _ ↔ ∀ d, 0 ≤ d → Saturated (Direct m ifaceList) m.edge (rows m.sup) d := hcorrect
    _ ↔ EveryLayerTaken m ifaceList := by simp [EveryLayerTaken]

section Instance

/-- Row `0` is a neighbour; it has two successors and nobody else has one. -/
def fork : Mtx Unit where
  pathMap i j := ⟨0x0a000000 + UInt32.ofNat j.val, 0xffffffff,
    if i = 0 ∧ j ≠ 0 ∧ j.val < 3 then 1 else 0⟩
  record i := ⟨⟨UInt32.ofNat i.val + 1, 0, 0, 0, []⟩, decide (i.val < 3), 0, 0, ()⟩
  sup := 3
  valid_lt i h := by simpa using h
  edge_valid i j h := by
    by_contra hno
    simp_all
  dist_eq _ := rfl

def forkNbrs : List (Unit × List MospfNbr) := [((), [⟨1, 0x0a000001, 0xffffff00⟩])]

/-- The second successor never gets a distance. -/
theorem calcPath_misses_successor :
    ∃ c, calcPath fork 9 0 forkNbrs [] (fork.sup + 1) = some c ∧
      ¬ (ShortestPaths fork forkNbrs c ∧ EdgeRoutes fork c) := by
  have hdist : (calcPath fork 9 0 forkNbrs [] (fork.sup + 1)).map (fun c => (c.record 2).dist) =
      some 0 := by decide +kernel
  obtain ⟨c, hc, hzero⟩ := Option.map_eq_some_iff.mp hdist
  refine ⟨c, hc, fun h => ?_⟩
  have hdirect : ∀ j, Direct fork forkNbrs j ↔ j = 0 := by
    intro j
    have hrow : rowOf fork.sup fork.record 1 = some 0 := by decide +kernel
    simp [Direct, forkNbrs, hrow, eq_comm]
  have hone : IsDist (Direct fork forkNbrs) fork.edge 1 2 := by
    refine ⟨⟨0, (hdirect 0).mpr rfl, by decide⟩, fun m hm hw => ?_⟩
    obtain rfl : m = 0 := by omega
    exact absurd ((hdirect 2).mp hw) (by decide)
  have htwo := h.1.1 1 2 hone
  omega

end Instance

end NetworkLab.Mospf
