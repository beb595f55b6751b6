import NetworkLab.MospfShortest
import NetworkLab.MospfRenew

/-!
# What a recomputation depends on

Two states of the globals that have the same entries and the same valid rows, and differ in what
earlier rounds have left behind: the distances, gateways and interfaces of the rows, the edges,
and the fields of invalid rows. `renew_matrix` and `calc_path` take them to the same result.
-/
namespace NetworkLab.Mospf

section Renewal

variable {ι : Type} {record record' record₁ : Row → RowRecord ι} {sup sup₁ : ℕ}
  {db db₁ : List MospfDbEntry} {pathMap pathMap' : Row → Row → NetInfo}

/-- The same rows are valid, for the same routers. -/
structure SameRows (record record' : Row → RowRecord ι) : Prop where
  valid : ∀ i, (record' i).valid = (record i).valid
  dbEntry : ∀ i, (record i).valid = true → (record' i).dbEntry = (record i).dbEntry

theorem SameRows.symm (h : SameRows record record') : SameRows record' record :=
  ⟨fun i => (h.valid i).symm, fun i hi => (h.dbEntry i (h.valid i ▸ hi)).symm⟩

/-- Both records get rows that agree. -/
theorem SameRows.update (h : SameRows record record') (i : Row) {row row' : RowRecord ι}
    (hvalid : row'.valid = row.valid) (hentry : row.valid = true → row'.dbEntry = row.dbEntry) :
    SameRows (Function.update record i row) (Function.update record' i row') := by
  constructor
  · intro j
    by_cases hj : j = i
    · subst hj
      rw [Function.update_self, Function.update_self]
      exact hvalid
    · rw [Function.update_of_ne hj, Function.update_of_ne hj]
      exact h.valid j
  · intro j
    by_cases hj : j = i
    · subst hj
      rw [Function.update_self, Function.update_self]
      exact hentry
    · rw [Function.update_of_ne hj, Function.update_of_ne hj]
      exact h.dbEntry j

theorem SameRows.freeRow_eq (h : SameRows record record') : freeRow record' = freeRow record := by
  rw [freeRow, freeRow]
  congr 1
  funext i
  rw [h.valid i]

theorem SameRows.renewEntries (h : SameRows record record')
    (hrun : renewEntries record sup db = some (db₁, record₁, sup₁)) :
    ∃ record₁', renewEntries record' sup db = some (db₁, record₁', sup₁) ∧
      SameRows record₁ record₁' := by
  induction db generalizing record record' sup db₁ with
  | nil =>
    obtain ⟨rfl, hrest⟩ := Prod.mk.inj (Option.some.inj hrun)
    obtain ⟨rfl, rfl⟩ := Prod.mk.inj hrest
    exact ⟨record', rfl, h⟩
  | cons entry db ih =>
    rw [Mospf.renewEntries]
    rcases renewEntries_cons hrun with ⟨hmarked, i, hrow, hrest⟩ |
      ⟨hmarked, hfree, kept, rfl, hrest⟩ | ⟨hmarked, hadd, i, kept, hfree, rfl, hrest⟩
    · rw [if_pos (show entry.map2mtx ≤ nodeDelete from hmarked), hrow, rowAt_natCast]
      have hremoved : SameRows (Function.update record i { record i with valid := false })
          (Function.update record' i { record' i with valid := false }) :=
        h.update i rfl fun hvalid => by cases hvalid
      exact ih hremoved hrest
    · obtain ⟨record₁', hrest', hsame⟩ := ih h hrest
      refine ⟨record₁', ?_, hsame⟩
      rw [if_neg (show ¬entry.map2mtx ≤ nodeDelete from hmarked)]
      by_cases hadd : entry.map2mtx = nodeAdd
      · rw [if_pos hadd, h.freeRow_eq, hfree hadd]
        show (Mospf.renewEntries record' sup db).map _ = _
        rw [hrest', Option.map_some]
      · rw [if_neg hadd, hrest', Option.map_some]
    · have hadded : SameRows
          (Function.update record i { record i with valid := true, dbEntry := entry.rid })
          (Function.update record' i { record' i with valid := true, dbEntry := entry.rid }) :=
        h.update i rfl fun _ => rfl
      obtain ⟨record₁', hrest', hsame⟩ := ih hadded hrest
      refine ⟨record₁', ?_, hsame⟩
      rw [if_neg (show ¬entry.map2mtx ≤ nodeDelete from hmarked), if_pos hadd, h.freeRow_eq, hfree]
      show (Mospf.renewEntries _ _ db).map _ = _
      rw [hrest', Option.map_some]

/-- The same edges, with the same networks. -/
structure SamePaths (pathMap pathMap' : Row → Row → NetInfo) : Prop where
  value : ∀ i j, (pathMap' i j).value = (pathMap i j).value
  network : ∀ i j, (pathMap i j).value = 1 →
    (pathMap' i j).network = (pathMap i j).network ∧ (pathMap' i j).mask = (pathMap i j).mask

theorem SamePaths.editLsa (hrows : SameRows record record') (h : SamePaths pathMap pathMap')
    (sup : ℕ) (line : Row) (lsa : MospfLsa) :
    SamePaths (editLsa record sup line pathMap lsa) (editLsa record' sup line pathMap' lsa) := by
  have hrow (j : Row) : ((record' j).valid = true ∧ (record' j).dbEntry = lsa.rid) ↔
      ((record j).valid = true ∧ (record j).dbEntry = lsa.rid) := by
    rw [hrows.valid j]
    exact and_congr_right fun hvalid => by rw [hrows.dbEntry j hvalid]
  constructor
  · intro i j
    simp only [Mospf.editLsa, hrow j]
    split_ifs
    · rfl
    · rfl
    · exact h.value i j
  · intro i j
    simp only [Mospf.editLsa, hrow j]
    split_ifs
    · exact fun _ => ⟨rfl, rfl⟩
    · exact fun hone => absurd hone (show ¬(0 : ℤ) = 1 by decide)
    · exact h.network i j

theorem SamePaths.foldl_editLsa (hrows : SameRows record record') (h : SamePaths pathMap pathMap')
    (sup : ℕ) (line : Row) (lsas : List MospfLsa) :
    SamePaths (lsas.foldl (Mospf.editLsa record sup line) pathMap)
      (lsas.foldl (Mospf.editLsa record' sup line) pathMap') := by
  induction lsas generalizing pathMap pathMap' with
  | nil => exact h
  | cons lsa lsas ih => exact ih (h.editLsa hrows sup line lsa)

theorem SamePaths.editRows {rows : List Row} {count i k : ℕ} {pathMap₁ : Row → Row → NetInfo}
    (hrows : SameRows record record') (h : SamePaths pathMap pathMap')
    (hrun : editRows db record sup rows count pathMap i = some (pathMap₁, k)) :
    ∃ pathMap₁', editRows db record' sup rows count pathMap' i = some (pathMap₁', k) ∧
      SamePaths pathMap₁ pathMap₁' := by
  refine editRows_induction (motive := fun rows count pathMap i => ∀ pathMap',
    SamePaths pathMap pathMap' → ∃ pathMap₁', Mospf.editRows db record' sup rows count pathMap' i =
      some (pathMap₁', k) ∧ SamePaths pathMap₁ pathMap₁') ?_ ?_ ?_ hrun pathMap' h
  · intro rows pathMap' h
    exact ⟨pathMap', by cases rows <;> rfl, h⟩
  · intro line rows count pathMap i entry hvalid hentry ih pathMap' h
    obtain ⟨pathMap₁', hrest, hsame⟩ := ih _ (h.foldl_editLsa hrows sup line entry.array)
    refine ⟨pathMap₁', ?_, hsame⟩
    rw [Mospf.editRows, hrows.valid line, if_pos hvalid, editMtx, hrows.dbEntry line hvalid, hentry]
    exact hrest
  · intro line rows count pathMap i hvalid ih pathMap' h
    rw [Mospf.editRows, hrows.valid line, if_neg hvalid]
    exact ih pathMap' h

/-- The globals agree but for what is left from earlier rounds. -/
structure SameMatrix (m m' : Matrix ι) : Prop where
  db : m'.db = m.db
  sup : m'.sup = m.sup
  rows : SameRows m.record m'.record

/-- After a renewal the edges agree too, and the distances are zero. -/
structure SameRenewed (m m' : Matrix ι) : Prop extends SameMatrix m m' where
  paths : SamePaths m.pathMap m'.pathMap
  dist : ∀ i, (m'.record i).dist = (m.record i).dist

theorem SameMatrix.renewMatrix {m m' m₁ : Matrix ι} (h : SameMatrix m m')
    (hrun : renewMatrix m = some m₁) : ∃ m₁', renewMatrix m' = some m₁' ∧ SameRenewed m₁ m₁' := by
  obtain ⟨⟨db, record, sup⟩, hentries, hrest⟩ := Option.bind_eq_some_iff.mp hrun
  obtain ⟨⟨pathMap, k⟩, hedit, heq⟩ := Option.bind_eq_some_iff.mp hrest
  obtain rfl := Option.some.inj heq
  obtain ⟨record', hentries', hrows⟩ := h.rows.renewEntries hentries
  have hrows' : SameRows (fun i => { record i with dist := 0 })
      (fun i => { record' i with dist := 0 }) := ⟨hrows.valid, hrows.dbEntry⟩
  have hzero : SamePaths (fun i j => { m.pathMap i j with value := 0 })
      (fun i j => { m'.pathMap i j with value := 0 }) :=
    ⟨fun _ _ => rfl, fun _ _ hone => absurd hone (show ¬(0 : ℤ) = 1 by decide)⟩
  obtain ⟨pathMap', hedit', hpaths⟩ := hzero.editRows hrows' hedit
  refine ⟨⟨db, fun i => { record' i with dist := 0 }, pathMap', k⟩, ?_,
    ⟨⟨rfl, rfl, hrows'⟩, hpaths, fun _ => rfl⟩⟩
  refine Option.bind_eq_some_iff.mpr ⟨(db, record', sup), ?_, ?_⟩
  · rw [h.db, h.sup]
    exact hentries'
  · exact Option.bind_eq_some_iff.mpr ⟨(pathMap', k), hedit', rfl⟩

end Renewal

section Calculation

variable {ι : Type*} {m m' : Mtx ι} {c c' : Calc ι} {start : ℕ}
  {rtable rtable' : List (RtEntry ι)}

/-- The networks of the routes with the interfaces that they leave by. -/
def networks (rtable : List (RtEntry ι)) : List (UInt32 × UInt32 × ι) :=
  rtable.map fun item => (item.dest, item.mask, item.iface)

/-- The same routes, of which the first `start` may have other gateways. -/
structure SameRoutes (start : ℕ) (rtable rtable' : List (RtEntry ι)) : Prop where
  networks : networks rtable' = networks rtable
  computed : rtable'.drop start = rtable.drop start

theorem SameRoutes.length_eq (h : SameRoutes start rtable rtable') :
    rtable'.length = rtable.length := by
  simpa [Mospf.networks] using congrArg List.length h.networks

theorem SameRoutes.addRtEntry (h : SameRoutes start rtable rtable') (entry : RtEntry ι) :
    SameRoutes start (NetworkLab.addRtEntry rtable entry)
      (NetworkLab.addRtEntry rtable' entry) := by
  have hnetworks := h.networks
  unfold Mospf.networks at hnetworks
  constructor
  · simp [Mospf.networks, NetworkLab.addRtEntry, hnetworks]
  · simp [NetworkLab.addRtEntry, List.drop_append, h.computed, h.length_eq]

theorem networks_modify (rtable : List (RtEntry ι)) (test : ℕ) (gw : UInt32) :
    networks (rtable.modify test fun item => { item with gw := gw }) = networks rtable := by
  refine List.ext_getElem? fun k => ?_
  simp only [networks, List.getElem?_map, List.getElem?_modify]
  cases rtable[k]? with
  | none => rfl
  | some item => by_cases hk : test = k <;> simp [hk]

theorem SameRoutes.setGw (h : SameRoutes start rtable rtable') {test : ℕ} (htest : test < start)
    (gw : UInt32) : SameRoutes start (rtable.modify test fun item => { item with gw := gw })
      (rtable'.modify test fun item => { item with gw := gw }) := by
  constructor
  · rw [networks_modify, networks_modify, h.networks]
  · rw [List.drop_modify_of_lt _ _ _ _ htest, List.drop_modify_of_lt _ _ _ _ htest, h.computed]

/-- A gateway does not count for `chk_init`. -/
theorem chkInit_of_networks (h : networks (rtable'.take start) = networks (rtable.take start))
    (subnet : UInt32) : chkInit start rtable' subnet = chkInit start rtable subnet := by
  have hfind (l : List (RtEntry ι)) :
      l.findIdx? (fun item => decide (subnet = item.mask &&& item.dest)) =
        (networks l).findIdx? fun net => decide (subnet = net.2.1 &&& net.1) := by
    rw [networks, List.findIdx?_map]
    rfl
  rw [chkInit, chkInit, hfind, hfind, h]

theorem SameRoutes.chkInit_eq (h : SameRoutes start rtable rtable') (subnet : UInt32) :
    chkInit start rtable' subnet = chkInit start rtable subnet := by
  refine chkInit_of_networks ?_ subnet
  have hnetworks := h.networks
  unfold Mospf.networks at hnetworks ⊢
  rw [List.map_take, List.map_take, hnetworks]

theorem chkInit_lt {subnet : UInt32} {test : ℕ} (h : chkInit start rtable subnet = some test) :
    test < start := by
  obtain ⟨hlt, -⟩ := List.findIdx?_eq_some_iff_getElem.mp h
  exact hlt.trans_le (List.length_take_le _ _)

/-- Two states of the calculation agree on the rows that have a distance, on the routers of the
valid rows, and on the routes but for gateways among the first `start`. -/
structure SameCalc (start : ℕ) (m : Mtx ι) (c c' : Calc ι) : Prop where
  valid : ∀ i, (c.record i).valid = (m.record i).valid ∧ (c'.record i).valid = (m.record i).valid
  dist : ∀ i, (c'.record i).dist = (c.record i).dist
  dbEntry : ∀ i, (m.record i).valid = true → (c'.record i).dbEntry = (c.record i).dbEntry
  linked : ∀ i, (c.record i).dist ≠ 0 → (m.record i).valid = true ∧
    (c'.record i).gw = (c.record i).gw ∧ (c'.record i).iface = (c.record i).iface
  routes : SameRoutes start c.rtable c'.rtable
  farther : c'.farther = c.farther

/-- Two matrices with the same edges and the same valid rows. -/
structure SameMtx (m m' : Mtx ι) : Prop where
  paths : SamePaths m.pathMap m'.pathMap
  sup : m'.sup = m.sup
  valid : ∀ i, (m'.record i).valid = (m.record i).valid
  dbEntry : ∀ i, (m.record i).valid = true → (m'.record i).dbEntry = (m.record i).dbEntry

theorem SameCalc.rowOf_eq (h : SameCalc start m c c') (sup : ℕ) (rid : UInt32) :
    rowOf sup c'.record rid = rowOf sup c.record rid := by
  rw [rowOf, rowOf]
  congr 1
  funext i
  rw [(h.valid i).1, (h.valid i).2]
  by_cases hvalid : (m.record i).valid = true
  · rw [h.dbEntry i hvalid]
  · rw [Bool.not_eq_true] at hvalid
    rw [hvalid, Bool.false_and, Bool.false_and]

theorem valid_of_rowOf {sup : ℕ} {record : Row → MtxMap ι} {rid : UInt32} {i : Row}
    (h : rowOf sup record rid = some i) :
    (record i).valid = true ∧ (record i).dbEntry.rid = rid := by
  have hfound := List.find?_some h
  rwa [Bool.and_eq_true, decide_eq_true_iff] at hfound

/-- A valid row gets the same distance, gateway and interface in both. -/
theorem SameCalc.update (h : SameCalc start m c c') (i : Row) (hvalid : (m.record i).valid = true)
    (dist : ℕ) (gw : UInt32) (iface : ι) (hroutes : SameRoutes start rtable rtable')
    (farther : Bool) :
    SameCalc start m
      ⟨Function.update c.record i { c.record i with dist := dist, gw := gw, iface := iface },
        rtable, farther⟩
      ⟨Function.update c'.record i { c'.record i with dist := dist, gw := gw, iface := iface },
        rtable', farther⟩ := by
  refine ⟨fun j => ?_, fun j => ?_, fun j hj => ?_, fun j => ?_, hroutes, rfl⟩
  · by_cases hji : j = i
    · subst hji
      simp only [Function.update_self]
      exact h.valid j
    · simp only [Function.update_of_ne hji]
      exact h.valid j
  · by_cases hji : j = i
    · simp only [hji, Function.update_self]
    · simp only [Function.update_of_ne hji]
      exact h.dist j
  · by_cases hji : j = i
    · subst hji
      simp only [Function.update_self]
      exact h.dbEntry j hj
    · simp only [Function.update_of_ne hji]
      exact h.dbEntry j hj
  · by_cases hji : j = i
    · subst hji
      simp only [Function.update_self]
      exact fun _ => ⟨hvalid, trivial, trivial⟩
    · simp only [Function.update_of_ne hji]
      exact h.linked j

theorem SameCalc.linkNbr (h : SameCalc start m c c') (sup : ℕ) (iface : ι) (nbr : MospfNbr) :
    SameCalc start m (linkNbr sup start iface c nbr) (linkNbr sup start iface c' nbr) := by
  rw [Mospf.linkNbr, Mospf.linkNbr, h.rowOf_eq, h.routes.chkInit_eq]
  cases hrow : rowOf sup c.record nbr.nbrId with
  | none => exact h
  | some i =>
    refine h.update i ((h.valid i).1 ▸ (valid_of_rowOf hrow).1) 1 nbr.nbrIp iface ?_ true
    cases htest : chkInit start c.rtable (nbr.nbrIp &&& nbr.nbrMask) with
    | none => exact h.routes.addRtEntry _
    | some test => exact h.routes.setGw (chkInit_lt htest) nbr.nbrIp

theorem SameCalc.link (h : SameMtx m m') (hdist : ∀ i, (m.record i).dist = 0)
    (ifaceList : List (ι × List MospfNbr))
    (hnetworks : networks (rtable'.take start) = networks (rtable.take start)) :
    SameCalc start m (Mospf.link m start ifaceList rtable)
      (Mospf.link m' start ifaceList rtable') := by
  have hfirst : SameCalc start m ⟨m.record, rtable.take start, false⟩
      ⟨m'.record, rtable'.take start, false⟩ :=
    ⟨fun i => ⟨rfl, h.valid i⟩, fun i => by rw [hdist i, m'.dist_eq i], h.dbEntry,
      fun i hi => absurd (hdist i) hi, ⟨hnetworks, by simp⟩, rfl⟩
  have hnbrs (iface : ι) (nbrs : List MospfNbr) {c c' : Calc ι} (hc : SameCalc start m c c') :
      SameCalc start m (nbrs.foldl (Mospf.linkNbr m.sup start iface) c)
        (nbrs.foldl (Mospf.linkNbr m.sup start iface) c') := by
    induction nbrs generalizing c c' with
    | nil => exact hc
    | cons nbr nbrs ih => exact ih (hc.linkNbr m.sup iface nbr)
  rw [Mospf.link, Mospf.link, h.sup]
  revert hfirst
  generalize (⟨m.record, rtable.take start, false⟩ : Calc ι) = c
  generalize (⟨m'.record, rtable'.take start, false⟩ : Calc ι) = c'
  intro hc
  induction ifaceList generalizing c c' with
  | nil => exact hc
  | cons iface ifaceList ih => exact ih _ _ (hnbrs iface.1 iface.2 hc)

theorem SameCalc.discover (hm : SameMtx m m') (h : SameCalc start m c c') (dist : ℕ) {i : Row}
    (hi : (c.record i).dist ≠ 0) :
    SameCalc start m (discover m dist c i) (discover m' dist c' i) := by
  have hfind : (rows m'.sup).find? (fun j =>
      decide ((m'.pathMap i j).value = 1) && decide ((c'.record j).dist = 0)) =
      (rows m.sup).find? (fun j =>
        decide ((m.pathMap i j).value = 1) && decide ((c.record j).dist = 0)) := by
    rw [hm.sup]
    congr 1
    funext j
    rw [hm.paths.value, h.dist]
  obtain ⟨-, hgw, hiface⟩ := h.linked i hi
  rw [Mospf.discover, Mospf.discover, hfind]
  cases hrow : (rows m.sup).find? (fun j =>
      decide ((m.pathMap i j).value = 1) && decide ((c.record j).dist = 0)) with
  | none => exact h
  | some j =>
    have hfound := List.find?_some hrow
    rw [Bool.and_eq_true, decide_eq_true_iff] at hfound
    obtain ⟨hnetwork, hmask⟩ := hm.paths.network i j hfound.1
    simp only [hgw, hiface, hnetwork, hmask]
    exact h.update j (m.edge_valid i j hfound.1) (dist + 1) _ _ (h.routes.addRtEntry _) true

theorem SameCalc.foldl_hostRoute (h : SameCalc start m c c') (sup : ℕ) (routerId : UInt32)
    {row row' : MtxMap ι} (hgw : row'.gw = row.gw) (hiface : row'.iface = row.iface)
    (lsas : List MospfLsa) :
    SameCalc start m (lsas.foldl (hostRoute sup routerId row) c)
      (lsas.foldl (hostRoute sup routerId row') c') := by
  induction lsas generalizing c c' with
  | nil => exact h
  | cons lsa lsas ih =>
    apply ih
    rw [hostRoute, hostRoute, h.rowOf_eq]
    split_ifs
    · exact h
    · cases rowOf sup c.record lsa.rid with
      | some i => exact h
      | none =>
        refine ⟨h.valid, h.dist, h.dbEntry, h.linked, ?_, h.farther⟩
        rw [hgw, hiface]
        exact h.routes.addRtEntry _

theorem SameCalc.expand (hm : SameMtx m m') (h : SameCalc start m c c') (routerId : UInt32)
    {dist : ℕ} (hdist : dist ≠ 0) (i : Row) :
    SameCalc start m (expand m routerId dist c i) (expand m' routerId dist c' i) := by
  rw [Mospf.expand, Mospf.expand, h.dist]
  by_cases hi : (c.record i).dist = dist
  · rw [if_pos hi, if_pos hi, hm.sup]
    have hc := h.discover hm dist (hi.trans_ne hdist)
    have hlinked : ((Mospf.discover m dist c i).record i).dist ≠ 0 := by
      rcases discover_cases m dist c i with ⟨hsame, -⟩ | ⟨j, -, -, hj, hrec, -, -⟩
      · rw [hsame]
        exact hi.trans_ne hdist
      · have hij : i ≠ j := by
          rintro rfl
          exact hdist (hi.symm.trans hj)
        rw [hrec, Function.update_of_ne hij]
        exact hi.trans_ne hdist
    obtain ⟨hvalid, hgw, hiface⟩ := hc.linked i hlinked
    simp only [hc.dbEntry i hvalid]
    exact hc.foldl_hostRoute m.sup routerId hgw hiface _
  · rw [if_neg hi, if_neg hi]
    exact h

theorem SameCalc.round (hm : SameMtx m m') (h : SameCalc start m c c') (routerId : UInt32)
    {dist : ℕ} (hdist : dist ≠ 0) :
    SameCalc start m (round m routerId dist c) (round m' routerId dist c') := by
  have hfold (is : List Row) {c c' : Calc ι} (hc : SameCalc start m c c') :
      SameCalc start m (is.foldl (Mospf.expand m routerId dist) c)
        (is.foldl (Mospf.expand m' routerId dist) c') := by
    induction is generalizing c c' with
    | nil => exact hc
    | cons i is ih => exact ih (hc.expand hm routerId hdist i)
  rw [Mospf.round, Mospf.round, hm.sup]
  exact hfold _ ⟨h.valid, h.dist, h.dbEntry, h.linked, h.routes, rfl⟩

theorem SameCalc.loop (hm : SameMtx m m') (h : SameCalc start m c c') (routerId : UInt32)
    {fuel dist : ℕ} {c₁ : Calc ι} (hrun : loop m routerId fuel dist c = some c₁) :
    ∃ c₁', loop m' routerId fuel dist c' = some c₁' ∧ SameCalc start m c₁ c₁' := by
  induction fuel generalizing dist c c' with
  | zero =>
    rw [Mospf.loop] at hrun ⊢
    rw [h.farther]
    split_ifs at hrun ⊢
    obtain rfl := Option.some.inj hrun
    exact ⟨c', rfl, h⟩
  | succ fuel ih =>
    rw [Mospf.loop] at hrun ⊢
    rw [h.farther]
    split_ifs at hrun ⊢
    · exact ih (h.round hm routerId (Nat.succ_ne_zero dist)) hrun
    · obtain rfl := Option.some.inj hrun
      exact ⟨c', rfl, h⟩

/-- The routes that are computed do not depend on what earlier rounds have left. -/
theorem SameMtx.calcPath (hm : SameMtx m m') (routerId : UInt32)
    (ifaceList : List (ι × List MospfNbr))
    (hnetworks : networks (rtable'.take start) = networks (rtable.take start)) {fuel : ℕ}
    (hrun : calcPath m routerId start ifaceList rtable fuel = some c) :
    ∃ c', calcPath m' routerId start ifaceList rtable' fuel = some c' ∧ SameCalc start m c c' :=
  (SameCalc.link hm m.dist_eq ifaceList hnetworks).loop hm routerId hrun

end Calculation

end NetworkLab.Mospf
