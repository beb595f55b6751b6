import NetworkLab.GreedyLayers
import NetworkLab.RoutingTable

/-!
# Shortest paths of the mOSPF daemon

`calc_path` of `mospf_database.c`. The rows of the matrix are the routers of the
database; the field `dist` of a row is both its result and the frontier of the
search. A row leaves its inner loop after the first row it discovers.
-/
namespace NetworkLab.Mospf
open GreedyLayers (IsDist Saturated Frontier expandRow)

variable {ι : Type*}

/-- `MAX_NODES`. -/
def maxNodes : ℕ := 10

instance : NeZero maxNodes := ⟨by decide⟩

abbrev Row := Fin maxNodes

structure MospfLsa where
  network : UInt32
  mask : UInt32
  rid : UInt32
  deriving DecidableEq

/-- An entry of the link state database; `array` has `nadv` elements. -/
structure MospfDbEntry where
  rid : UInt32
  seq : UInt16
  alive : ℤ
  map2mtx : ℤ
  array : List MospfLsa
  deriving DecidableEq

/-- `mtx_map_t`; fields of an invalid row are left from earlier rounds. -/
structure MtxMap (ι : Type*) where
  dbEntry : MospfDbEntry
  valid : Bool
  dist : ℕ
  gw : UInt32
  iface : ι

structure NetInfo where
  network : UInt32
  mask : UInt32
  value : ℤ

structure MospfNbr where
  nbrId : UInt32
  nbrIp : UInt32
  nbrMask : UInt32

/-- The matrix as `renew_matrix` leaves it: `sup` is above all valid rows, edges
lead to valid rows, and no row has a distance. -/
structure Mtx (ι : Type*) where
  pathMap : Row → Row → NetInfo
  record : Row → MtxMap ι
  sup : ℕ
  valid_lt : ∀ i, (record i).valid = true → i.val < sup
  edge_valid : ∀ i j, (pathMap i j).value = 1 → (record j).valid = true
  dist_eq : ∀ i, (record i).dist = 0

/-- What `calc_path` writes: the rows, the routing table, and its flag. -/
structure Calc (ι : Type*) where
  record : Row → MtxMap ι
  rtable : List (RtEntry ι)
  farther : Bool

/-- The rows that the loops up to `sup` visit. -/
def rows (sup : ℕ) : List Row := (List.finRange maxNodes).filter (fun i => decide (i.val < sup))

/-- The first valid row of a router id. -/
def rowOf (sup : ℕ) (record : Row → MtxMap ι) (rid : UInt32) : Option Row :=
  (rows sup).find? (fun i => (record i).valid && decide ((record i).dbEntry.rid = rid))

/-- Position of the first kernel route for the subnet, among the first `start`. -/
def chkInit (start : ℕ) (rtable : List (RtEntry ι)) (subnet : UInt32) : Option ℕ :=
  (rtable.take start).findIdx? (fun item => decide (subnet = item.mask &&& item.dest))

/-- One neighbour of the first phase. -/
def linkNbr (sup start : ℕ) (iface : ι) (c : Calc ι) (nbr : MospfNbr) : Calc ι :=
  match rowOf sup c.record nbr.nbrId with
  | none => c
  | some i =>
    { record := Function.update c.record i
        { c.record i with dist := 1, gw := nbr.nbrIp, iface := iface }
      rtable := match chkInit start c.rtable (nbr.nbrIp &&& nbr.nbrMask) with
        | some test => c.rtable.modify test (fun item => { item with gw := nbr.nbrIp })
        | none => addRtEntry c.rtable
            ⟨nbr.nbrIp &&& nbr.nbrMask, nbr.nbrMask, nbr.nbrIp, iface⟩
      farther := true }

/-- The neighbours of one interface. -/
def linkIface (sup start : ℕ) (c : Calc ι) (iface : ι × List MospfNbr) : Calc ι :=
  iface.2.foldl (linkNbr sup start iface.1) c

/-- The inner loop over `j`, which ends at the first row that is discovered. -/
def discover (m : Mtx ι) (dist : ℕ) (c : Calc ι) (i : Row) : Calc ι :=
  match (rows m.sup).find? (fun j =>
      decide ((m.pathMap i j).value = 1) && decide ((c.record j).dist = 0)) with
  | none => c
  | some j =>
    { record := Function.update c.record j { c.record j with
        dist := dist + 1, gw := (c.record i).gw, iface := (c.record i).iface }
      rtable := addRtEntry c.rtable
        ⟨(m.pathMap i j).network &&& (m.pathMap i j).mask, (m.pathMap i j).mask,
          (c.record i).gw, (c.record i).iface⟩
      farther := true }

/-- A route for an advertised network without a router in the database. -/
def hostRoute (sup : ℕ) (routerId : UInt32) (row : MtxMap ι) (c : Calc ι) (lsa : MospfLsa) :
    Calc ι :=
  if lsa.rid = routerId then c
  else match rowOf sup c.record lsa.rid with
  | some _ => c
  | none => { c with
    rtable := addRtEntry c.rtable ⟨lsa.mask &&& lsa.network, lsa.mask, row.gw, row.iface⟩ }

/-- The body of the loop over `i`. -/
def expand (m : Mtx ι) (routerId : UInt32) (dist : ℕ) (c : Calc ι) (i : Row) : Calc ι :=
  if (c.record i).dist = dist then
    let c := discover m dist c i
    (c.record i).dbEntry.array.foldl (hostRoute m.sup routerId (c.record i)) c
  else c

/-- One iteration of `while (farther)`. -/
def round (m : Mtx ι) (routerId : UInt32) (dist : ℕ) (c : Calc ι) : Calc ι :=
  (rows m.sup).foldl (expand m routerId dist) { c with farther := false }

/-- `while (farther)`, with `none` when the fuel does not suffice. -/
def loop (m : Mtx ι) (routerId : UInt32) : ℕ → ℕ → Calc ι → Option (Calc ι)
  | 0, _, c => if c.farther then none else some c
  | fuel + 1, dist, c =>
    if c.farther then loop m routerId fuel (dist + 1) (round m routerId (dist + 1) c) else some c

/-- The first phase: drop the computed routes and enter the neighbours. -/
def link (m : Mtx ι) (start : ℕ) (ifaceList : List (ι × List MospfNbr))
    (rtable : List (RtEntry ι)) : Calc ι :=
  ifaceList.foldl (linkIface m.sup start) ⟨m.record, rtable.take start, false⟩

def calcPath (m : Mtx ι) (routerId : UInt32) (start : ℕ) (ifaceList : List (ι × List MospfNbr))
    (rtable : List (RtEntry ι)) (fuel : ℕ) : Option (Calc ι) :=
  loop m routerId fuel 0 (link m start ifaceList rtable)

/-- The rows of direct neighbours. -/
def Direct (m : Mtx ι) (ifaceList : List (ι × List MospfNbr)) (j : Row) : Prop :=
  ∃ iface ∈ ifaceList, ∃ nbr ∈ iface.2, rowOf m.sup m.record nbr.nbrId = some j

def Mtx.edge (m : Mtx ι) (i j : Row) : Bool := decide ((m.pathMap i j).value = 1)

/-- `dist` is one more than the least number of edges from the row of a direct
neighbour, and zero where there is no such path. -/
def ShortestPaths (m : Mtx ι) (ifaceList : List (ι × List MospfNbr)) (c : Calc ι) : Prop :=
  (∀ d j, IsDist (Direct m ifaceList) m.edge d j → (c.record j).dist = d + 1) ∧
    ∀ j, (∀ d, ¬ IsDist (Direct m ifaceList) m.edge d j) → (c.record j).dist = 0

/-- There is a route for the subnet of an edge by which each row was reached that
is not a direct neighbour's. -/
def EdgeRoutes (m : Mtx ι) (c : Calc ι) : Prop :=
  ∀ j, 2 ≤ (c.record j).dist → ∃ i, (c.record i).dist + 1 = (c.record j).dist ∧
    m.edge i j = true ∧
      ⟨(m.pathMap i j).network &&& (m.pathMap i j).mask, (m.pathMap i j).mask,
        (c.record j).gw, (c.record j).iface⟩ ∈ c.rtable

/-- Every distance `d` is such that the rows at `d`, in order, each taking the first
successor at `d + 1` that is left, take all rows at `d + 1`. -/
def EveryLayerTaken (m : Mtx ι) (ifaceList : List (ι × List MospfNbr)) : Prop :=
  ∀ d, Saturated (Direct m ifaceList) m.edge (rows m.sup) d

section Refinement

/-- The part of the state that the search is about. -/
def Calc.frontier (c : Calc ι) : Frontier Row := ⟨fun i => (c.record i).dist, c.farther⟩

theorem foldl_hostRoute (sup : ℕ) (routerId : UInt32) (row : MtxMap ι) (c : Calc ι)
    (lsas : List MospfLsa) :
    (lsas.foldl (hostRoute sup routerId row) c).record = c.record ∧
      (lsas.foldl (hostRoute sup routerId row) c).farther = c.farther ∧
      ∀ e ∈ c.rtable, e ∈ (lsas.foldl (hostRoute sup routerId row) c).rtable := by
  induction lsas generalizing c with
  | nil => exact ⟨rfl, rfl, fun _ h => h⟩
  | cons lsa lsas ih =>
    have hone : (hostRoute sup routerId row c lsa).record = c.record ∧
        (hostRoute sup routerId row c lsa).farther = c.farther ∧
        ∀ e ∈ c.rtable, e ∈ (hostRoute sup routerId row c lsa).rtable := by
      unfold hostRoute
      split_ifs
      · exact ⟨rfl, rfl, fun _ h => h⟩
      · split
        · exact ⟨rfl, rfl, fun _ h => h⟩
        · exact ⟨rfl, rfl, fun _ h => List.mem_append_left _ h⟩
    obtain ⟨hrec, hfar, hrt⟩ := ih (hostRoute sup routerId row c lsa)
    exact ⟨hrec.trans hone.1, hfar.trans hone.2.1, fun e he => hrt e (hone.2.2 e he)⟩

/-- Either nothing is discovered, or one row without a distance, over an edge. -/
theorem discover_cases (m : Mtx ι) (dist : ℕ) (c : Calc ι) (i : Row) :
    discover m dist c i = c ∧
        (rows m.sup).find? (fun j => m.edge i j && decide ((c.record j).dist = 0)) = none ∨
      ∃ j, (rows m.sup).find? (fun j => m.edge i j && decide ((c.record j).dist = 0)) = some j ∧
        m.edge i j = true ∧ (c.record j).dist = 0 ∧
        (discover m dist c i).record = Function.update c.record j { c.record j with
          dist := dist + 1, gw := (c.record i).gw, iface := (c.record i).iface } ∧
        (discover m dist c i).rtable = addRtEntry c.rtable
          ⟨(m.pathMap i j).network &&& (m.pathMap i j).mask, (m.pathMap i j).mask,
            (c.record i).gw, (c.record i).iface⟩ ∧
        (discover m dist c i).farther = true := by
  unfold discover Mtx.edge
  split
  next hnone => exact .inl ⟨rfl, hnone⟩
  next j hfind =>
    have hj := List.find?_some hfind
    simp only [Bool.and_eq_true, decide_eq_true_eq] at hj
    exact .inr ⟨j, hfind, by simpa using hj.1, hj.2, rfl, rfl, rfl⟩

theorem discover_frontier (m : Mtx ι) {dist : ℕ} {c : Calc ι} {i : Row}
    (hi : (c.record i).dist = dist) :
    (discover m dist c i).frontier = expandRow m.edge (rows m.sup) dist c.frontier i := by
  unfold expandRow
  rw [if_pos (show c.frontier.dist i = dist from hi)]
  rcases discover_cases m dist c i with ⟨hsame, hnone⟩ | ⟨j, hfind, -, -, hrec, -, hfar⟩
  · have hnone' : (rows m.sup).find? (fun j => m.edge i j &&
        decide (c.frontier.dist j = 0)) = none := hnone
    rw [hnone', hsame]
  · have hfind' : (rows m.sup).find? (fun j => m.edge i j &&
        decide (c.frontier.dist j = 0)) = some j := hfind
    rw [hfind']
    simp only [Calc.frontier, hrec, hfar, Frontier.mk.injEq, and_true]
    funext x
    by_cases hx : x = j <;> simp [hx]

theorem expand_frontier (m : Mtx ι) (routerId : UInt32) (dist : ℕ) (c : Calc ι) (i : Row) :
    (expand m routerId dist c i).frontier =
      expandRow m.edge (rows m.sup) dist c.frontier i := by
  unfold expand
  split_ifs with hi
  · obtain ⟨hrec, hfar, -⟩ := foldl_hostRoute m.sup routerId
      ((discover m dist c i).record i) (discover m dist c i)
      ((discover m dist c i).record i).dbEntry.array
    rw [← discover_frontier m hi]
    simp only [Calc.frontier, hrec, hfar]
  · rw [expandRow, if_neg (show ¬ c.frontier.dist i = dist from hi)]

theorem round_frontier (m : Mtx ι) (routerId : UInt32) (dist : ℕ) (c : Calc ι) :
    (round m routerId dist c).frontier =
      GreedyLayers.round m.edge (rows m.sup) dist c.frontier := by
  have hfold : ∀ (is : List Row) (c : Calc ι),
      (is.foldl (expand m routerId dist) c).frontier =
        is.foldl (expandRow m.edge (rows m.sup) dist) c.frontier := by
    intro is
    induction is with
    | nil => exact fun _ => rfl
    | cons i is ih =>
      intro c
      rw [List.foldl_cons, List.foldl_cons, ih, expand_frontier]
  exact hfold _ _

/-- The loop refines the search by layers. -/
theorem loop_frontier (m : Mtx ι) (routerId : UInt32) (fuel dist : ℕ) (c : Calc ι) :
    (loop m routerId fuel dist c).map Calc.frontier =
      GreedyLayers.loop m.edge (rows m.sup) fuel dist c.frontier := by
  induction fuel generalizing dist c with
  | zero =>
    cases hf : c.farther <;> simp [loop, GreedyLayers.loop, Calc.frontier, hf]
  | succ fuel ih =>
    cases hf : c.farther with
    | true =>
      have hf' : c.frontier.farther = true := hf
      simp only [loop, GreedyLayers.loop, hf, hf', if_true, ih, round_frontier]
    | false =>
      have hf' : c.frontier.farther = false := hf
      simp [loop, GreedyLayers.loop, hf, hf']

end Refinement

end NetworkLab.Mospf
