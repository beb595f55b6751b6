import NetworkLab.MospfAgreement
import NetworkLab.GuardedRuns

/-!
# The routing table and its history

The daemon: LSUs, checks of the database and changes of the neighbour lists at any time, and a
thread that alternates `renew_matrix` and `calc_path`. The routes of the kernel stay in the table,
but `calc_path` writes the address of a neighbour over the gateway of a kernel route and nothing
writes it back.
-/
namespace NetworkLab.Mospf
open GuardedRuns

variable {ι : Type}

section Model

/-- The entry that the pointer in a row leads to. -/
def entryAt (db : List MospfDbEntry) (rid : UInt32) : MospfDbEntry :=
  (db.find? fun entry => decide (entry.rid = rid)).getD ⟨rid, 0, 0, 0, []⟩

/-- The matrix as `calc_path` takes it, if it is as a renewal leaves it. -/
def Matrix.mtx (m : Matrix ι) : Option (Mtx ι) :=
  if h : (∀ i, (m.record i).valid = true → i.val < m.sup) ∧
      (∀ i j, (m.pathMap i j).value = 1 → (m.record j).valid = true) ∧
      ∀ i, (m.record i).dist = 0 then
    some
      { pathMap := m.pathMap
        record := fun i => ⟨entryAt m.db (m.record i).dbEntry, (m.record i).valid,
          (m.record i).dist, (m.record i).gw, (m.record i).iface⟩
        sup := m.sup
        valid_lt := h.1
        edge_valid := h.2.1
        dist_eq := h.2.2 }
  else none

/-- `renewed` tells whether the thread is between `renew_matrix` and `calc_path`. -/
structure Daemon (ι : Type) where
  matrix : Matrix ι
  rtable : List (RtEntry ι)
  ifaceList : List (ι × List MospfNbr)
  renewed : Bool

inductive DaemonEvent (ι : Type)
  | lsu (lsu : Lsu)
  | check
  | neighbours (ifaceList : List (ι × List MospfNbr))
  | renewMatrix
  | calcPath

/-- What `calc_path` makes of the globals. -/
def Daemon.calc (routerId : UInt32) (start : ℕ) (s : Daemon ι) : Option (Calc ι) := do
  let m ← s.matrix.mtx
  calcPath m routerId start s.ifaceList s.rtable (m.sup + 1)

def Daemon.step (routerId : UInt32) (start : ℕ) (s : Daemon ι) :
    DaemonEvent ι → Option (Daemon ι)
  | .lsu lsu => some { s with matrix := { s.matrix with db := deliver routerId s.matrix.db lsu } }
  | .check =>
    some { s with matrix := { s.matrix with db := s.matrix.db.map MospfDbEntry.check } }
  | .neighbours ifaceList => some { s with ifaceList := ifaceList }
  | .renewMatrix =>
    if s.renewed then none
    else (renewMatrix s.matrix).map fun matrix => { s with matrix := matrix, renewed := true }
  | .calcPath =>
    if s.renewed then
      (s.calc routerId start).map fun c => { s with
        matrix := { s.matrix with record := fun i => { s.matrix.record i with
          dist := (c.record i).dist, gw := (c.record i).gw, iface := (c.record i).iface } }
        rtable := c.rtable
        renewed := false }
    else none

/-- The routing table after a `renew_matrix` and a `calc_path`. -/
def Daemon.refresh (routerId : UInt32) (start : ℕ) (s : Daemon ι) :
    Option (List (RtEntry ι)) := do
  let matrix ← renewMatrix s.matrix
  let c ← { s with matrix := matrix }.calc routerId start
  some c.rtable

/-- After `init_mospf_db`, with these routes from the kernel. -/
def Daemon.Initial (kernel : List (RtEntry ι)) (s : Daemon ι) : Prop :=
  s.matrix.db = [] ∧ (∀ i, (s.matrix.record i).valid = false) ∧ s.matrix.sup = 0 ∧
    s.rtable = kernel ∧ s.renewed = false

/-- The neighbours that have a row, in the order in which `calc_path` comes to them. -/
def Daemon.linked (s : Daemon ι) : List MospfNbr :=
  (s.ifaceList.flatMap (·.2)).filter fun nbr =>
    decide (∃ i, (s.matrix.record i).valid = true ∧ (s.matrix.record i).dbEntry = nbr.nbrId)

/-- The last of these neighbours for whose subnet `chk_init` finds the entry. -/
def lastOn (start : ℕ) (rtable : List (RtEntry ι)) (nbrs : List MospfNbr) (test : ℕ) :
    Option MospfNbr :=
  (nbrs.filter fun nbr =>
    decide (chkInit start rtable (nbr.nbrIp &&& nbr.nbrMask) = some test)).getLast?

/-- `calc_path` leaves the kernel routes the gateways that they have: of the neighbours with a row
that are on the subnet of a kernel route, the last one has the gateway as its address. -/
def keepsGateways (start : ℕ) (s : Daemon ι) : DaemonEvent ι → Prop
  | .calcPath => ∀ test < start, ∀ nbr ∈ lastOn start s.rtable s.linked test,
      ∀ item ∈ s.rtable[test]?, item.gw = nbr.nbrIp
  | _ => True

/-- The kernel routes that no neighbour with a row is on in the next round have the gateways that
they have in the other table. -/
def Daemon.SameUnwritten (start : ℕ) (s : Daemon ι) (rtable : List (RtEntry ι)) : Prop :=
  ∀ matrix ∈ renewMatrix s.matrix, ∀ test < start,
    lastOn start s.rtable ({ s with matrix := matrix } : Daemon ι).linked test = none →
      ∀ item ∈ s.rtable[test]?, ∀ other ∈ rtable[test]?, other.gw = item.gw

/-- The same neighbour lists, the same database, and the same rows. -/
structure SameState (s s' : Daemon ι) : Prop where
  ifaceList : s'.ifaceList = s.ifaceList
  db : s'.matrix.db = s.matrix.db
  rows : SameRows s.matrix.record s'.matrix.record

end Model

section Rows

variable {record : Row → RowRecord ι} {sup : ℕ} {db : List MospfDbEntry}

/-- `sup` is the number after the last valid row. -/
structure Tight (record : Row → RowRecord ι) (sup : ℕ) : Prop where
  below : ∀ i, (record i).valid = true → i.val < sup
  last : sup = 0 ∨ ∃ i, (record i).valid = true ∧ i.val + 1 = sup

theorem Tight.sup_eq {record' : Row → RowRecord ι} {sup' : ℕ} (h : Tight record sup)
    (h' : Tight record' sup') (hrows : SameRows record record') : sup' = sup := by
  have hle {r r' : Row → RowRecord ι} {n n' : ℕ} (h : Tight r n) (h' : Tight r' n')
      (hrows : SameRows r r') : n ≤ n' := by
    rcases h.last with hzero | ⟨i, hvalid, hi⟩
    · omega
    · have hlt := h'.below i ((hrows.valid i).trans hvalid)
      omega
  exact le_antisymm (hle h' h hrows.symm) (hle h h' hrows)

/-- The valid rows among these. -/
def validRows (record : Row → RowRecord ι) (rows : List Row) : List Row :=
  rows.filter fun i => (record i).valid

theorem validRows_cons (record : Row → RowRecord ι) (line : Row) (rows : List Row) :
    validRows record (line :: rows) =
      if (record line).valid then line :: validRows record rows else validRows record rows := by
  rw [validRows, List.filter_cons]
  rfl

/-- The loop ends behind the row with which it has seen as many valid rows as there are entries. -/
theorem editRows_count {rows : List Row} {count i k : ℕ} {pathMap pathMap' : Row → Row → NetInfo}
    (h : editRows db record sup rows count pathMap i = some (pathMap', k)) :
    ∃ n ≤ rows.length, k = i + n ∧ (validRows record (rows.take n)).length = count ∧
      (n = 0 ∨ ∃ line, rows[n - 1]? = some line ∧ (record line).valid = true) := by
  refine editRows_induction (motive := fun rows count _ i => ∃ n ≤ rows.length, k = i + n ∧
    (validRows record (rows.take n)).length = count ∧
      (n = 0 ∨ ∃ line, rows[n - 1]? = some line ∧ (record line).valid = true)) ?_ ?_ ?_ h
  · intro rows
    exact ⟨0, Nat.zero_le _, rfl, rfl, .inl rfl⟩
  · rintro line rows count - i entry hvalid - ⟨n, hn, rfl, hcount, hlast⟩
    refine ⟨n + 1, Nat.succ_le_succ hn, by omega, ?_, .inr ?_⟩
    · rw [List.take_succ_cons, validRows_cons, if_pos hvalid, List.length_cons, hcount]
    · cases n with
      | zero => exact ⟨line, rfl, hvalid⟩
      | succ n => exact hlast.resolve_left (Nat.succ_ne_zero n)
  · rintro line rows count - i hvalid ⟨n, hn, rfl, hcount, hlast⟩
    refine ⟨n + 1, Nat.succ_le_succ hn, by omega, ?_, .inr ?_⟩
    · rw [List.take_succ_cons, validRows_cons, if_neg hvalid, hcount]
    · cases n with
      | zero => cases hcount
      | succ n => exact hlast.resolve_left (Nat.succ_ne_zero n)

/-- No two rows belong to one router. -/
theorem Paired.row_unique (h : Paired db record) {i j : Row} (hi : (record i).valid = true)
    (hj : (record j).valid = true) (heq : (record i).dbEntry = (record j).dbEntry) : i = j := by
  obtain ⟨entry, hentry, hrid, hrow⟩ := h.owned i hi
  obtain ⟨other, hother, hrid', hrow'⟩ := h.owned j hj
  obtain rfl := h.mem_unique hentry hother ((hrid'.trans heq.symm).trans hrid.symm)
  exact Fin.ext (Int.ofNat_inj.mp (hrow.symm.trans hrow'))

/-- There are no more valid rows than entries. -/
theorem Paired.length_validRows_le (h : Paired db record) :
    (validRows record (List.finRange maxNodes)).length ≤ db.length := by
  have hvalid (i : Row) (hi : i ∈ validRows record (List.finRange maxNodes)) :
      (record i).valid = true := (List.mem_filter.mp hi).2
  have hnodup : ((validRows record (List.finRange maxNodes)).map
      fun i => (record i).dbEntry).Nodup := by
    refine List.Nodup.map_on (fun i hi j hj heq => ?_) ((List.nodup_finRange maxNodes).filter _)
    exact h.row_unique (hvalid i hi) (hvalid j hj) heq
  have hsub : ((validRows record (List.finRange maxNodes)).map fun i => (record i).dbEntry) ⊆
      db.map (·.rid) := by
    intro rid hrid
    obtain ⟨i, hi, rfl⟩ := List.mem_map.mp hrid
    obtain ⟨entry, hentry, heq, -⟩ := h.owned i (hvalid i hi)
    exact heq ▸ List.mem_map_of_mem hentry
  have hle := (hnodup.subperm hsub).length_le
  rwa [List.length_map, List.length_map] at hle

/-- Where there are no more valid rows than entries, the loop ends behind the last one. -/
theorem Tight.of_editRows {count k : ℕ} {pathMap pathMap' : Row → Row → NetInfo}
    (hle : (validRows record (List.finRange maxNodes)).length ≤ count)
    (h : editRows db record sup (List.finRange maxNodes) count pathMap 0 = some (pathMap', k)) :
    Tight record k := by
  obtain ⟨n, hn, rfl, hcount, hlast⟩ := editRows_count h
  have hrow (i : Row) : (List.finRange maxNodes)[i.val]? = some i := by
    rw [List.getElem?_eq_some_iff]
    exact ⟨by rw [List.length_finRange]; exact i.isLt, List.getElem_finRange _⟩
  rw [Nat.zero_add]
  refine ⟨fun i hvalid => ?_, ?_⟩
  · by_contra hge
    rw [← List.take_append_drop n (List.finRange maxNodes), validRows, List.filter_append,
      List.length_append] at hle
    have hdrop : i ∈ (List.finRange maxNodes).drop n := by
      refine List.mem_of_getElem? (i := i.val - n) ?_
      rw [List.getElem?_drop, Nat.add_sub_cancel' (not_lt.mp hge)]
      exact hrow i
    have hpos : 0 < (((List.finRange maxNodes).drop n).filter fun i => (record i).valid).length :=
      List.length_pos_of_mem (List.mem_filter.mpr ⟨hdrop, hvalid⟩)
    rw [validRows] at hcount
    omega
  · rcases hlast with rfl | ⟨line, hline, hvalid⟩
    · exact .inl rfl
    · by_cases hzero : n = 0
      · exact .inl hzero
      · refine .inr ⟨line, hvalid, ?_⟩
        have hlt : n - 1 < maxNodes := by
          rw [List.length_finRange] at hn
          omega
        have hline' := hrow ⟨n - 1, hlt⟩
        rw [hline, Option.some.injEq] at hline'
        rw [hline']
        show n - 1 + 1 = n
        omega

/-- A renewal leaves `sup` at the number after the last valid row. -/
theorem tight_renewMatrix {m m' : Matrix ι} (hpaired : Paired m.db m.record)
    (h : renewMatrix m = some m') : Tight m'.record m'.sup := by
  have hkept := hpaired.renewMatrix h
  obtain ⟨⟨db, record, sup⟩, -, hrest⟩ := Option.bind_eq_some_iff.mp h
  obtain ⟨⟨pathMap, k⟩, hedit, heq⟩ := Option.bind_eq_some_iff.mp hrest
  obtain rfl := Option.some.inj heq
  exact .of_editRows hkept.length_validRows_le hedit

/-- Edges lead to valid rows. -/
def EdgesValid (record : Row → RowRecord ι) (pathMap : Row → Row → NetInfo) : Prop :=
  ∀ i j, (pathMap i j).value = 1 → (record j).valid = true

theorem EdgesValid.foldl_editLsa {pathMap : Row → Row → NetInfo} (h : EdgesValid record pathMap)
    (sup : ℕ) (line : Row) (lsas : List MospfLsa) :
    EdgesValid record (lsas.foldl (editLsa record sup line) pathMap) := by
  induction lsas generalizing pathMap with
  | nil => exact h
  | cons lsa lsas ih =>
    refine ih fun i j => ?_
    rw [editLsa]
    split_ifs with hline hrow
    · exact fun _ => hrow.1
    · exact fun hone => absurd hone (show ¬(0 : ℤ) = 1 by decide)
    · exact h i j

theorem EdgesValid.editRows {rows : List Row} {count i k : ℕ}
    {pathMap pathMap' : Row → Row → NetInfo} (h : EdgesValid record pathMap)
    (hrun : editRows db record sup rows count pathMap i = some (pathMap', k)) :
    EdgesValid record pathMap' := by
  refine editRows_induction (motive := fun _ _ pathMap _ =>
    EdgesValid record pathMap → EdgesValid record pathMap') ?_ ?_ ?_ hrun h
  · exact fun _ hdone => hdone
  · intro line rows count pathMap i entry _ _ ih h
    exact ih (h.foldl_editLsa sup line entry.array)
  · exact fun line rows count pathMap i _ ih => ih

/-- After a renewal `calc_path` finds the matrix in order. -/
theorem mtx_renewMatrix {m m' : Matrix ι} (hpaired : Paired m.db m.record)
    (h : renewMatrix m = some m') : ∃ mtx, m'.mtx = some mtx := by
  have htight := tight_renewMatrix hpaired h
  obtain ⟨⟨db, record, sup⟩, -, hrest⟩ := Option.bind_eq_some_iff.mp h
  obtain ⟨⟨pathMap, k⟩, hedit, heq⟩ := Option.bind_eq_some_iff.mp hrest
  obtain rfl := Option.some.inj heq
  have hedges : EdgesValid (fun i => { record i with dist := 0 }) pathMap :=
    EdgesValid.editRows (fun _ _ hone => absurd hone (show ¬(0 : ℤ) = 1 by decide)) hedit
  rw [Matrix.mtx, dif_pos ⟨htight.below, hedges, fun _ => rfl⟩]
  exact ⟨_, rfl⟩

end Rows

section Kernel

variable {m : Mtx ι} {c c' : Calc ι} {kernel : List (RtEntry ι)} {start : ℕ}

theorem rtable_discover (m : Mtx ι) (dist : ℕ) (c : Calc ι) (i : Row) :
    c.rtable <+: (discover m dist c i).rtable := by
  rcases discover_cases m dist c i with ⟨hsame, -⟩ | ⟨j, -, -, -, -, hrtable, -⟩
  · rw [hsame]
  · rw [hrtable]
    exact List.prefix_append _ _

theorem rtable_hostRoute (sup : ℕ) (routerId : UInt32) (row : MtxMap ι) (c : Calc ι)
    (lsa : MospfLsa) : c.rtable <+: (hostRoute sup routerId row c lsa).rtable := by
  rw [hostRoute]
  split_ifs
  · exact List.prefix_rfl
  · cases rowOf sup c.record lsa.rid with
    | some i => exact List.prefix_rfl
    | none => exact List.prefix_append _ _

/-- A loop whose body only adds routes only adds routes. -/
theorem rtable_foldl {α : Type*} {f : Calc ι → α → Calc ι}
    (h : ∀ c a, c.rtable <+: (f c a).rtable) (l : List α) (c : Calc ι) :
    c.rtable <+: (l.foldl f c).rtable := by
  induction l generalizing c with
  | nil => exact List.prefix_rfl
  | cons a l ih => exact (h c a).trans (ih (f c a))

theorem rtable_round (m : Mtx ι) (routerId : UInt32) (dist : ℕ) (c : Calc ι) :
    c.rtable <+: (round m routerId dist c).rtable := by
  have hexpand (c : Calc ι) (i : Row) : c.rtable <+: (expand m routerId dist c i).rtable := by
    rw [expand]
    split_ifs
    · exact (rtable_discover m dist c i).trans
        (rtable_foldl (rtable_hostRoute m.sup routerId _) _ _)
    · exact List.prefix_rfl
  exact rtable_foldl hexpand (rows m.sup) { c with farther := false }

/-- After the first phase routes are only added. -/
theorem rtable_loop {routerId : UInt32} {fuel dist : ℕ}
    (h : loop m routerId fuel dist c = some c') : c.rtable <+: c'.rtable := by
  induction fuel generalizing dist c with
  | zero =>
    rw [loop] at h
    split_ifs at h
    obtain rfl := Option.some.inj h
    exact List.prefix_rfl
  | succ fuel ih =>
    rw [loop] at h
    split_ifs at h
    · exact (rtable_round m routerId (dist + 1) c).trans (ih h)
    · obtain rfl := Option.some.inj h
      exact List.prefix_rfl

theorem lastOn_append (kernel : List (RtEntry ι)) (nbrs nbrs' : List MospfNbr) (test : ℕ) :
    lastOn start kernel (nbrs ++ nbrs') test =
      (lastOn start kernel nbrs' test).or (lastOn start kernel nbrs test) := by
  rw [lastOn, lastOn, lastOn, List.filter_append, List.getLast?_append]

theorem lastOn_append_singleton (kernel : List (RtEntry ι)) (nbrs : List MospfNbr)
    (nbr : MospfNbr) (test : ℕ) :
    lastOn start kernel (nbrs ++ [nbr]) test =
      if chkInit start kernel (nbr.nbrIp &&& nbr.nbrMask) = some test then some nbr
      else lastOn start kernel nbrs test := by
  rw [lastOn_append]
  by_cases htest : chkInit start kernel (nbr.nbrIp &&& nbr.nbrMask) = some test
  · simp [lastOn, htest]
  · simp [lastOn, htest]

/-- The kernel routes with the gateways that these neighbours leave in them. -/
def overwrite (kernel : List (RtEntry ι)) (nbrs : List MospfNbr) : List (RtEntry ι) :=
  kernel.mapIdx fun test item =>
    match lastOn kernel.length kernel nbrs test with
    | none => item
    | some nbr => { item with gw := nbr.nbrIp }

theorem overwrite_nil (kernel : List (RtEntry ι)) : overwrite kernel [] = kernel := by
  refine List.ext_getElem? fun test => ?_
  rw [overwrite, List.getElem?_mapIdx]
  show Option.map (fun item => item) kernel[test]? = kernel[test]?
  exact Option.map_id'

theorem getElem?_overwrite (nbrs : List MospfNbr) (test : ℕ) :
    (overwrite kernel nbrs)[test]? = kernel[test]?.map fun route =>
      { route with
        gw := ((lastOn kernel.length kernel nbrs test).map MospfNbr.nbrIp).getD route.gw } := by
  rw [overwrite, List.getElem?_mapIdx]
  cases lastOn kernel.length kernel nbrs test <;> rfl

theorem networks_overwrite (nbrs : List MospfNbr) :
    networks (overwrite kernel nbrs) = networks kernel := by
  refine List.ext_getElem? fun test => ?_
  rw [networks, networks, List.getElem?_map, List.getElem?_map, getElem?_overwrite,
    Option.map_map]
  rfl

theorem chkInit_overwrite {rtable : List (RtEntry ι)} {nbrs : List MospfNbr}
    (h : rtable.take kernel.length = overwrite kernel nbrs) (subnet : UInt32) :
    chkInit kernel.length rtable subnet = chkInit kernel.length kernel subnet :=
  chkInit_of_networks (by rw [h, networks_overwrite, List.take_length]) subnet

theorem lastOn_overwrite {rtable : List (RtEntry ι)} {done : List MospfNbr}
    (h : rtable.take kernel.length = overwrite kernel done) (nbrs : List MospfNbr) (test : ℕ) :
    lastOn kernel.length rtable nbrs test = lastOn kernel.length kernel nbrs test := by
  simp only [lastOn, chkInit_overwrite h]

/-- What earlier neighbours have left shows in the routes that no later neighbour is on. -/
theorem overwrite_append_eq_iff (before before' nbrs : List MospfNbr) :
    overwrite kernel (before' ++ nbrs) = overwrite kernel (before ++ nbrs) ↔
      ∀ test < kernel.length, lastOn kernel.length kernel nbrs test = none →
        ∀ item ∈ (overwrite kernel before)[test]?, ∀ other ∈ (overwrite kernel before')[test]?,
          other.gw = item.gw := by
  have hentry (before : List MospfNbr) {test : ℕ}
      (hnone : lastOn kernel.length kernel nbrs test = none) :
      (overwrite kernel (before ++ nbrs))[test]? = (overwrite kernel before)[test]? := by
    rw [getElem?_overwrite, getElem?_overwrite, lastOn_append, hnone, Option.none_or]
  constructor
  · intro h test _ hnone item hitem other hother
    rw [← hentry before hnone, ← h, hentry before' hnone] at hitem
    rw [Option.mem_unique hother hitem]
  · intro h
    refine List.ext_getElem? fun test => ?_
    cases hlast : lastOn kernel.length kernel nbrs test with
    | some nbr => simp [getElem?_overwrite, lastOn_append, hlast]
    | none =>
      rw [hentry before hlast, hentry before' hlast]
      cases hroute : kernel[test]? with
      | none => simp [getElem?_overwrite, hroute]
      | some route =>
        have hlt := (List.getElem?_eq_some_iff.mp hroute).1
        have hgw := h test hlt hlast
        simp only [getElem?_overwrite, hroute, Option.map_some, Option.mem_def] at hgw ⊢
        have hsame := hgw _ rfl _ rfl
        simp only at hsame
        rw [hsame]

/-- A neighbour on the subnet of a kernel route leaves its address there. -/
theorem modify_overwrite {nbrs : List MospfNbr} {nbr : MospfNbr} {test : ℕ}
    (htest : chkInit kernel.length kernel (nbr.nbrIp &&& nbr.nbrMask) = some test) :
    (overwrite kernel nbrs).modify test (fun item => { item with gw := nbr.nbrIp }) =
      overwrite kernel (nbrs ++ [nbr]) := by
  refine List.ext_getElem? fun k => ?_
  rw [List.getElem?_modify, overwrite, overwrite, List.getElem?_mapIdx, List.getElem?_mapIdx,
    lastOn_append_singleton, htest]
  cases kernel[k]? with
  | none => rfl
  | some item =>
    by_cases hk : test = k
    · subst hk
      cases hlast : lastOn kernel.length kernel nbrs test with
      | none => simp
      | some other => simp
    · cases hlast : lastOn kernel.length kernel nbrs k with
      | none => simp [hk]
      | some other => simp [hk]

theorem take_linkNbr {nbrs : List MospfNbr}
    (h : c.rtable.take kernel.length = overwrite kernel nbrs) (sup : ℕ) (iface : ι)
    (nbr : MospfNbr) :
    (linkNbr sup kernel.length iface c nbr).rtable.take kernel.length =
      overwrite kernel (if (rowOf sup c.record nbr.nbrId).isSome then nbrs ++ [nbr] else nbrs) := by
  rw [linkNbr, chkInit_overwrite h]
  cases rowOf sup c.record nbr.nbrId with
  | none => exact h
  | some i =>
    cases htest : chkInit kernel.length kernel (nbr.nbrIp &&& nbr.nbrMask) with
    | none =>
      have hlen : kernel.length ≤ c.rtable.length := by
        have hle := congrArg List.length h
        rw [List.length_take, overwrite, List.length_mapIdx] at hle
        exact min_eq_left_iff.mp hle
      have hsame : overwrite kernel (nbrs ++ [nbr]) = overwrite kernel nbrs := by
        simp [overwrite, lastOn_append_singleton, htest]
      show (c.rtable ++ [_]).take kernel.length = overwrite kernel (nbrs ++ [nbr])
      rw [List.take_append_of_le_length hlen, h, hsame]
    | some test =>
      show (c.rtable.modify test _).take kernel.length = overwrite kernel (nbrs ++ [nbr])
      rw [List.take_modify, h, modify_overwrite htest]

theorem rowOf_linkNbr (sup start : ℕ) (iface : ι) (c : Calc ι) (nbr : MospfNbr) (rid : UInt32) :
    rowOf sup (linkNbr sup start iface c nbr).record rid = rowOf sup c.record rid := by
  rw [linkNbr]
  cases rowOf sup c.record nbr.nbrId with
  | none => rfl
  | some i => exact rowOf_update sup c.record i _ rid rfl rfl

/-- The gateways stay if and only if each is the address that is written last. -/
theorem overwrite_eq_iff (nbrs : List MospfNbr) : overwrite kernel nbrs = kernel ↔
    ∀ test < kernel.length, ∀ nbr ∈ lastOn kernel.length kernel nbrs test,
      ∀ item ∈ kernel[test]?, item.gw = nbr.nbrIp := by
  constructor
  · intro h test _ nbr hnbr item hitem
    have hentry := congrArg (·[test]?) h
    simp only [overwrite, List.getElem?_mapIdx, Option.mem_def.mp hitem, Option.mem_def.mp hnbr,
      Option.map_some, Option.some.injEq] at hentry
    exact (congrArg RtEntry.gw hentry).symm
  · intro h
    refine List.ext_getElem? fun test => ?_
    rw [overwrite, List.getElem?_mapIdx]
    cases hitem : kernel[test]? with
    | none => rfl
    | some item =>
      cases hlast : lastOn kernel.length kernel nbrs test with
      | none => rfl
      | some nbr =>
        have hlt := (List.getElem?_eq_some_iff.mp hitem).1
        simp only [Option.map_some, ← h test hlt nbr hlast item hitem]

/-- What the first phase leaves of the kernel routes. -/
theorem take_link {rtable : List (RtEntry ι)} {before : List MospfNbr}
    (h : rtable.take kernel.length = overwrite kernel before) (m : Mtx ι)
    (ifaceList : List (ι × List MospfNbr)) :
    (link m kernel.length ifaceList rtable).rtable.take kernel.length =
      overwrite kernel (before ++ (ifaceList.flatMap (·.2)).filter fun nbr =>
        (rowOf m.sup m.record nbr.nbrId).isSome) := by
  have hnbrs (iface : ι) (nbrs done : List MospfNbr) (c : Calc ι)
      (hrows : ∀ rid, rowOf m.sup c.record rid = rowOf m.sup m.record rid)
      (hc : c.rtable.take kernel.length = overwrite kernel done) :
      (∀ rid, rowOf m.sup (nbrs.foldl (linkNbr m.sup kernel.length iface) c).record rid =
        rowOf m.sup m.record rid) ∧
      (nbrs.foldl (linkNbr m.sup kernel.length iface) c).rtable.take kernel.length =
        overwrite kernel (done ++ nbrs.filter fun nbr =>
          (rowOf m.sup m.record nbr.nbrId).isSome) := by
    induction nbrs generalizing c done with
    | nil =>
      rw [List.filter_nil, List.append_nil]
      exact ⟨hrows, hc⟩
    | cons nbr nbrs ih =>
      have hnbr := take_linkNbr hc m.sup iface nbr
      rw [hrows] at hnbr
      obtain ⟨hrows', hc'⟩ := ih _ _ (fun rid => (rowOf_linkNbr ..).trans (hrows rid)) hnbr
      refine ⟨hrows', hc'.trans ?_⟩
      rw [List.filter_cons]
      split_ifs
      · rw [List.append_assoc, List.singleton_append]
      · rfl
  have hifaces (is : List (ι × List MospfNbr)) (done : List MospfNbr) (c : Calc ι)
      (hrows : ∀ rid, rowOf m.sup c.record rid = rowOf m.sup m.record rid)
      (hc : c.rtable.take kernel.length = overwrite kernel done) :
      (is.foldl (linkIface m.sup kernel.length) c).rtable.take kernel.length =
        overwrite kernel (done ++ (is.flatMap (·.2)).filter fun nbr =>
          (rowOf m.sup m.record nbr.nbrId).isSome) := by
    induction is generalizing c done with
    | nil =>
      rw [List.flatMap_nil, List.filter_nil, List.append_nil]
      exact hc
    | cons iface is ih =>
      obtain ⟨hrows', hc'⟩ := hnbrs iface.1 iface.2 done c hrows hc
      rw [List.flatMap_cons, List.filter_append, ← List.append_assoc]
      exact ih _ _ hrows' hc'
  refine hifaces ifaceList before ⟨m.record, rtable.take kernel.length, false⟩ (fun _ => rfl) ?_
  rw [List.take_take, Nat.min_self, h]

theorem take_calcPath {routerId : UInt32} {ifaceList : List (ι × List MospfNbr)}
    {rtable : List (RtEntry ι)} {before : List MospfNbr} {fuel : ℕ}
    (h : rtable.take kernel.length = overwrite kernel before)
    (hrun : calcPath m routerId kernel.length ifaceList rtable fuel = some c) :
    c.rtable.take kernel.length =
      overwrite kernel (before ++ (ifaceList.flatMap (·.2)).filter fun nbr =>
        (rowOf m.sup m.record nbr.nbrId).isSome) := by
  have hlink := take_link h m ifaceList
  have hle : kernel.length ≤ (link m kernel.length ifaceList rtable).rtable.length := by
    have hlen := congrArg List.length hlink
    rw [List.length_take, overwrite, List.length_mapIdx] at hlen
    exact min_eq_left_iff.mp hlen
  obtain ⟨tail, htail⟩ := rtable_loop hrun
  rw [← htail, List.take_append_of_le_length hle]
  exact hlink

theorem isSome_rowOf_iff (m : Mtx ι) (rid : UInt32) : (rowOf m.sup m.record rid).isSome ↔
    ∃ i, (m.record i).valid = true ∧ (m.record i).dbEntry.rid = rid := by
  constructor
  · intro h
    obtain ⟨i, hi⟩ := Option.isSome_iff_exists.mp h
    exact ⟨i, valid_of_rowOf hi⟩
  · rintro ⟨i, hvalid, hrid⟩
    rw [rowOf, List.find?_isSome]
    refine ⟨i, List.mem_filter.mpr ⟨List.mem_finRange i, ?_⟩, ?_⟩
    · exact decide_eq_true (m.valid_lt i hvalid)
    · rw [hvalid, Bool.true_and]
      exact decide_eq_true hrid

end Kernel

section Recomputation

variable {routerId : UInt32} {start : ℕ} {m m' : Matrix ι} {s s' t : Daemon ι}
  {e : DaemonEvent ι} {kernel : List (RtEntry ι)}

theorem rid_entryAt (db : List MospfDbEntry) (rid : UInt32) : (entryAt db rid).rid = rid := by
  rw [entryAt]
  cases hfound : db.find? fun entry => decide (entry.rid = rid) with
  | none => rfl
  | some entry =>
    have hrid := List.find?_some hfound
    exact of_decide_eq_true hrid

theorem SameRenewed.mtx {mtx : Mtx ι} (h : SameRenewed m m') (hmtx : m.mtx = some mtx) :
    ∃ mtx', m'.mtx = some mtx' ∧ SameMtx mtx mtx' := by
  rw [Matrix.mtx] at hmtx
  split_ifs at hmtx with horder
  obtain rfl := Option.some.inj hmtx
  obtain ⟨hvalid, hedge, hdist⟩ := horder
  rw [Matrix.mtx, dif_pos]
  · refine ⟨_, rfl, h.paths, h.sup, h.rows.valid, fun i hi => ?_⟩
    show entryAt m'.db (m'.record i).dbEntry = entryAt m.db (m.record i).dbEntry
    rw [h.db, h.rows.dbEntry i hi]
  · refine ⟨fun i hi => ?_, fun i j hone => ?_, fun i => (h.dist i).trans (hdist i)⟩
    · rw [h.sup]
      exact hvalid i ((h.rows.valid i).symm.trans hi)
    · rw [h.rows.valid]
      exact hedge i j ((h.paths.value i j).symm.trans hone)

theorem SameState.symm (h : SameState s s') : SameState s' s :=
  ⟨h.ifaceList.symm, h.db.symm, h.rows.symm⟩

/-- The neighbours with a row are the same. -/
theorem SameState.linked_eq (h : SameState s s') : s'.linked = s.linked := by
  rw [Daemon.linked, Daemon.linked, h.ifaceList]
  refine List.filter_congr fun nbr _ => decide_eq_decide.mpr ?_
  constructor
  · rintro ⟨i, hvalid, hentry⟩
    have hvalid' := (h.rows.valid i).symm.trans hvalid
    exact ⟨i, hvalid', (h.rows.dbEntry i hvalid').symm.trans hentry⟩
  · rintro ⟨i, hvalid, hentry⟩
    exact ⟨i, (h.rows.valid i).trans hvalid, (h.rows.dbEntry i hvalid).trans hentry⟩

/-- They are the same after a renewal too. -/
theorem SameState.renewed (h : SameState s s') (hsup : s'.matrix.sup = s.matrix.sup)
    (hrenew : renewMatrix s.matrix = some m) :
    ∃ m', renewMatrix s'.matrix = some m' ∧ SameRenewed m m' ∧
      SameState { s with matrix := m } { s' with matrix := m' } := by
  have hmatrix : SameMatrix s.matrix s'.matrix := ⟨h.db, hsup, h.rows⟩
  obtain ⟨m', hrenew', hrenewed⟩ := hmatrix.renewMatrix hrenew
  exact ⟨m', hrenew', hrenewed, h.ifaceList, hrenewed.db, hrenewed.rows⟩

/-- The routes that are computed after those of the kernel are the same. -/
theorem SameState.refresh (h : SameState s s') (hsup : s'.matrix.sup = s.matrix.sup)
    (hnetworks : networks (s'.rtable.take start) = networks (s.rtable.take start))
    {rtable : List (RtEntry ι)} (hrun : s.refresh routerId start = some rtable) :
    ∃ rtable', s'.refresh routerId start = some rtable' ∧
      rtable'.drop start = rtable.drop start := by
  obtain ⟨matrix, hrenew, hrest⟩ := Option.bind_eq_some_iff.mp hrun
  obtain ⟨c, hcalc, heq⟩ := Option.bind_eq_some_iff.mp hrest
  obtain ⟨mtx, hmtx, hpath⟩ := Option.bind_eq_some_iff.mp hcalc
  obtain ⟨matrix', hrenew', hrenewed, -⟩ := h.renewed hsup hrenew
  obtain ⟨mtx', hmtx', hsame⟩ := hrenewed.mtx hmtx
  obtain ⟨c', hpath', hc⟩ := hsame.calcPath routerId s.ifaceList hnetworks hpath
  obtain rfl := Option.some.inj heq
  refine ⟨c'.rtable, ?_, hc.routes.computed⟩
  refine Option.bind_eq_some_iff.mpr ⟨matrix', hrenew', Option.bind_eq_some_iff.mpr ⟨c', ?_, rfl⟩⟩
  refine Option.bind_eq_some_iff.mpr ⟨mtx', hmtx', ?_⟩
  rw [hsame.sup, show s'.ifaceList = s.ifaceList from h.ifaceList]
  exact hpath'

/-- `calc_path` has a result after every renewal. -/
theorem Daemon.refresh_eq_none_iff (hpaired : Paired s.matrix.db s.matrix.record) :
    s.refresh routerId start = none ↔ renewMatrix s.matrix = none := by
  cases hrenew : renewMatrix s.matrix with
  | none =>
    rw [Daemon.refresh, hrenew]
    exact iff_of_true rfl rfl
  | some matrix =>
    obtain ⟨mtx, hmtx⟩ := mtx_renewMatrix hpaired hrenew
    obtain ⟨c, hc⟩ := calcPath_isSome mtx routerId start s.ifaceList s.rtable 0
    have hcalc : Daemon.calc routerId start { s with matrix := matrix } = some c :=
      Option.bind_eq_some_iff.mpr ⟨mtx, hmtx, hc⟩
    have hrefresh : s.refresh routerId start = some c.rtable :=
      Option.bind_eq_some_iff.mpr ⟨matrix, hrenew, Option.bind_eq_some_iff.mpr ⟨c, hcalc, rfl⟩⟩
    rw [hrefresh]
    exact iff_of_false (Option.some_ne_none _) (Option.some_ne_none _)

/-- Without neighbours `calc_path` only drops the computed routes. -/
theorem calcPath_of_empty (mtx : Mtx ι) {ifaceList : List (ι × List MospfNbr)}
    (h : ∀ iface ∈ ifaceList, iface.2 = []) (rtable : List (RtEntry ι)) (fuel : ℕ) :
    calcPath mtx routerId start ifaceList rtable fuel =
      some ⟨mtx.record, rtable.take start, false⟩ := by
  have hlink (c : Calc ι) : ifaceList.foldl (linkIface mtx.sup start) c = c := by
    induction ifaceList generalizing c with
    | nil => rfl
    | cons iface ifaceList ih =>
      rw [List.foldl_cons, linkIface, h iface List.mem_cons_self]
      exact ih (fun other hother => h other (List.mem_cons_of_mem _ hother)) c
  rw [calcPath, link, hlink]
  cases fuel with
  | zero => rfl
  | succ fuel => rfl

theorem renewMatrix_of_empty (hdb : m.db = []) :
    renewMatrix m = some ⟨[], fun i => { m.record i with dist := 0 },
      fun i j => { m.pathMap i j with value := 0 }, 0⟩ := by
  rw [renewMatrix, hdb]
  rfl

/-- Without neighbours and entries the routes of the kernel are left. -/
theorem Daemon.refresh_of_empty (hpaired : Paired s.matrix.db s.matrix.record)
    (hdb : s.matrix.db = []) (hnbrs : ∀ iface ∈ s.ifaceList, iface.2 = []) :
    s.refresh routerId start = some (s.rtable.take start) := by
  have hrenew := renewMatrix_of_empty hdb
  obtain ⟨mtx, hmtx⟩ := mtx_renewMatrix hpaired hrenew
  have hcalc : calcPath mtx routerId start s.ifaceList s.rtable (mtx.sup + 1) =
      some ⟨mtx.record, s.rtable.take start, false⟩ :=
    calcPath_of_empty mtx hnbrs s.rtable (mtx.sup + 1)
  refine Option.bind_eq_some_iff.mpr ⟨_, hrenew, Option.bind_eq_some_iff.mpr
    ⟨⟨mtx.record, s.rtable.take start, false⟩, ?_, rfl⟩⟩
  exact Option.bind_eq_some_iff.mpr ⟨mtx, hmtx, hcalc⟩

/-- What holds in every state: the kernel routes are there, with gateways that some neighbours
have left in them. -/
structure Daemon.Kept (kernel : List (RtEntry ι)) (s : Daemon ι) : Prop where
  paired : Paired s.matrix.db s.matrix.record
  tight : Tight s.matrix.record s.matrix.sup
  kernel : ∃ before, s.rtable.take kernel.length = overwrite kernel before

theorem Daemon.Initial.kept (h : s.Initial kernel) : s.Kept kernel := by
  obtain ⟨hdb, hrecord, hsup, hrtable, -⟩ := h
  refine ⟨.of_empty hdb hrecord, ⟨fun i hi => ?_, .inl hsup⟩, [], ?_⟩
  · rw [hrecord i] at hi
    cases hi
  · rw [hrtable, List.take_length, overwrite_nil]

theorem Paired.deliver {db : List MospfDbEntry} {record : Row → RowRecord ι}
    (h : Paired db record) (routerId : UInt32) (lsu : Lsu) :
    Paired (deliver routerId db lsu) record := by
  rw [Mospf.deliver, handleMospfLsu]
  split_ifs
  · exact h
  · cases hstore : storeLsu db lsu with
    | none => exact h
    | some db' => exact h.store hstore

/-- The neighbours whose rows `calc_path` finds. -/
theorem filter_rowOf_eq {mtx : Mtx ι} (hmtx : s.matrix.mtx = some mtx) :
    ((s.ifaceList.flatMap (·.2)).filter fun nbr =>
      (rowOf mtx.sup mtx.record nbr.nbrId).isSome) = s.linked := by
  refine List.filter_congr fun nbr _ => ?_
  rw [Bool.eq_iff_iff, isSome_rowOf_iff, decide_eq_true_iff]
  rw [Matrix.mtx] at hmtx
  split_ifs at hmtx
  obtain rfl := Option.some.inj hmtx
  simp only [rid_entryAt]

theorem take_calc {before : List MospfNbr} {c : Calc ι}
    (h : s.rtable.take kernel.length = overwrite kernel before)
    (hcalc : s.calc routerId kernel.length = some c) :
    c.rtable.take kernel.length = overwrite kernel (before ++ s.linked) := by
  obtain ⟨mtx, hmtx, hpath⟩ := Option.bind_eq_some_iff.mp hcalc
  rw [take_calcPath h hpath, filter_rowOf_eq hmtx]

/-- The kernel routes stay as they are in exactly the rounds that keep the gateways. -/
theorem keepsGateways_iff {c : Calc ι} (h : s.rtable.take kernel.length = kernel)
    (hcalc : s.calc routerId kernel.length = some c) :
    c.rtable.take kernel.length = kernel ↔ keepsGateways kernel.length s .calcPath := by
  have hwritten := h.trans (overwrite_nil kernel).symm
  rw [take_calc hwritten hcalc, List.nil_append, overwrite_eq_iff]
  have hentry (test : ℕ) (hlt : test < kernel.length) : s.rtable[test]? = kernel[test]? := by
    rw [← List.getElem?_take_of_lt hlt, h]
  refine forall_congr' fun test => forall_congr' fun hlt => ?_
  rw [lastOn_overwrite hwritten, hentry test hlt]

theorem Daemon.Kept.step (h : s.Kept kernel)
    (hstep : s.step routerId kernel.length e = some t) : t.Kept kernel := by
  cases e with
  | lsu lsu =>
    obtain rfl := Option.some.inj hstep
    exact ⟨h.paired.deliver routerId lsu, h.tight, h.kernel⟩
  | check =>
    obtain rfl := Option.some.inj hstep
    exact ⟨h.paired.check, h.tight, h.kernel⟩
  | neighbours ifaceList =>
    obtain rfl := Option.some.inj hstep
    exact ⟨h.paired, h.tight, h.kernel⟩
  | renewMatrix =>
    rw [Daemon.step] at hstep
    split_ifs at hstep
    obtain ⟨matrix, hrenew, rfl⟩ := Option.map_eq_some_iff.mp hstep
    exact ⟨h.paired.renewMatrix hrenew, tight_renewMatrix h.paired hrenew, h.kernel⟩
  | calcPath =>
    rw [Daemon.step] at hstep
    split_ifs at hstep
    obtain ⟨c, hcalc, rfl⟩ := Option.map_eq_some_iff.mp hstep
    obtain ⟨before, hbefore⟩ := h.kernel
    exact ⟨⟨h.paired.nodup, h.paired.owns, h.paired.owned⟩, ⟨h.tight.below, h.tight.last⟩,
      _, take_calc hbefore hcalc⟩

theorem kept_of_reaches {ok : Daemon ι → DaemonEvent ι → Prop}
    (h : Reaches (Daemon.step routerId kernel.length) ok (Daemon.Initial kernel) s) :
    s.Kept kernel :=
  h.invariant (Daemon.Kept kernel) (fun _ => Daemon.Initial.kept) fun _ _ _ hs _ => hs.step

/-- In a run that keeps the gateways the kernel routes stay as they are. -/
theorem take_of_keepsGateways
    (h : Reaches (Daemon.step routerId kernel.length) (keepsGateways kernel.length)
      (Daemon.Initial kernel) s) : s.rtable.take kernel.length = kernel := by
  refine h.invariant (fun s => s.rtable.take kernel.length = kernel) ?_ fun s e t hs hok hstep => ?_
  · rintro s ⟨-, -, -, hrtable, -⟩
    rw [hrtable, List.take_length]
  · cases e with
    | lsu => exact Option.some.inj hstep ▸ hs
    | check => exact Option.some.inj hstep ▸ hs
    | neighbours => exact Option.some.inj hstep ▸ hs
    | renewMatrix =>
      rw [Daemon.step] at hstep
      split_ifs at hstep
      obtain ⟨matrix, -, rfl⟩ := Option.map_eq_some_iff.mp hstep
      exact hs
    | calcPath =>
      rw [Daemon.step] at hstep
      split_ifs at hstep
      obtain ⟨c, hcalc, rfl⟩ := Option.map_eq_some_iff.mp hstep
      exact (keepsGateways_iff hs hcalc).mpr hok

theorem take_refresh {before : List MospfNbr} {rtable : List (RtEntry ι)}
    (h : s.rtable.take kernel.length = overwrite kernel before)
    (hrenew : renewMatrix s.matrix = some m)
    (hrun : s.refresh routerId kernel.length = some rtable) :
    rtable.take kernel.length =
      overwrite kernel (before ++ ({ s with matrix := m } : Daemon ι).linked) := by
  obtain ⟨matrix, hmatrix, hrest⟩ := Option.bind_eq_some_iff.mp hrun
  obtain rfl : matrix = m := Option.some.inj (hmatrix.symm.trans hrenew)
  obtain ⟨c, hcalc, heq⟩ := Option.bind_eq_some_iff.mp hrest
  obtain rfl := Option.some.inj heq
  exact take_calc h hcalc

/-- The next tables are the same if and only if the kernel routes that are not written have the
same gateways. -/
theorem SameState.refresh_eq_iff (h : SameState s s') (hs : s.Kept kernel)
    (hs' : s'.Kept kernel) :
    s'.refresh routerId kernel.length = s.refresh routerId kernel.length ↔
      s.SameUnwritten kernel.length s'.rtable := by
  have hsup : s'.matrix.sup = s.matrix.sup := hs.tight.sup_eq hs'.tight h.rows
  cases hrenew : renewMatrix s.matrix with
  | none =>
    have hnone : renewMatrix s'.matrix = none := by
      apply Option.eq_none_iff_forall_ne_some.mpr
      intro m' hm'
      obtain ⟨m, hm, -⟩ := h.symm.renewed hsup.symm hm'
      rw [hrenew] at hm
      cases hm
    rw [(Daemon.refresh_eq_none_iff hs.paired).mpr hrenew,
      (Daemon.refresh_eq_none_iff hs'.paired).mpr hnone]
    apply iff_of_true rfl
    intro matrix hmatrix
    rw [hrenew] at hmatrix
    cases hmatrix
  | some m =>
    obtain ⟨before, hbefore⟩ := hs.kernel
    obtain ⟨before', hbefore'⟩ := hs'.kernel
    obtain ⟨m', hrenew', -, hlinked⟩ := h.renewed hsup hrenew
    obtain ⟨rtable, hrun⟩ : ∃ rtable, s.refresh routerId kernel.length = some rtable := by
      apply Option.ne_none_iff_exists'.mp
      intro hnone
      rw [Daemon.refresh_eq_none_iff hs.paired, hrenew] at hnone
      cases hnone
    have hnetworks : networks (s'.rtable.take kernel.length) =
        networks (s.rtable.take kernel.length) := by
      rw [hbefore, hbefore', networks_overwrite, networks_overwrite]
    obtain ⟨rtable', hrun', hdrop⟩ := h.refresh hsup hnetworks hrun
    have htables : s'.refresh routerId kernel.length = s.refresh routerId kernel.length ↔
        rtable'.take kernel.length = rtable.take kernel.length := by
      rw [hrun, hrun', Option.some.injEq]
      constructor
      · exact fun heq => heq ▸ rfl
      · intro heq
        rw [← List.take_append_drop kernel.length rtable', heq, hdrop, List.take_append_drop]
    rw [htables, take_refresh hbefore hrenew hrun, take_refresh hbefore' hrenew' hrun',
      hlinked.linked_eq, overwrite_append_eq_iff, ← hbefore, ← hbefore']
    constructor
    · intro hall matrix hmatrix test hlt hnone
      obtain rfl : m = matrix := Option.some.inj (hrenew.symm.trans hmatrix)
      have hsame := hall test hlt ((lastOn_overwrite hbefore _ test).symm.trans hnone)
      rwa [List.getElem?_take_of_lt hlt, List.getElem?_take_of_lt hlt] at hsame
    · intro hall test hlt hnone
      rw [List.getElem?_take_of_lt hlt, List.getElem?_take_of_lt hlt]
      exact hall m hrenew test hlt ((lastOn_overwrite hbefore _ test).trans hnone)

/-- The routing table after the next renewal does not depend on the events before, where the
kernel routes that no neighbour is on have the same gateways, and only there. The kernel routes
are never removed, and with the gateways of the kernel they are the table without neighbours. -/
theorem refresh_history_independent
    (h : Reaches (Daemon.step routerId kernel.length) anyStep (Daemon.Initial kernel) s)
    (h' : Reaches (Daemon.step routerId kernel.length) anyStep (Daemon.Initial kernel) s')
    (hsame : SameState s s') :
    (s'.refresh routerId kernel.length = s.refresh routerId kernel.length ↔
      s.SameUnwritten kernel.length s'.rtable) ∧
      (s.refresh routerId kernel.length = none ↔ renewMatrix s.matrix = none) ∧
      networks (s.rtable.take kernel.length) = networks kernel ∧
      (s.matrix.db = [] → (∀ iface ∈ s.ifaceList, iface.2 = []) →
        (s.refresh routerId kernel.length = some kernel ↔
          s.SameUnwritten kernel.length kernel)) ∧
      (Reaches (Daemon.step routerId kernel.length) (keepsGateways kernel.length)
        (Daemon.Initial kernel) s →
        s.rtable.take kernel.length = kernel ∧
          ∀ c, s.calc routerId kernel.length = some c →
            (c.rtable.take kernel.length = kernel ↔
              keepsGateways kernel.length s .calcPath)) := by
  have hkept := kept_of_reaches h
  refine ⟨hsame.refresh_eq_iff hkept (kept_of_reaches h'), Daemon.refresh_eq_none_iff hkept.paired,
    ?_, fun hdb hnbrs => ?_, fun hgateways => ?_⟩
  · obtain ⟨before, hbefore⟩ := hkept.kernel
    rw [hbefore, networks_overwrite]
  · have hloaded : ({ s with rtable := kernel } : Daemon ι).Kept kernel :=
      ⟨hkept.paired, hkept.tight, [], by rw [List.take_length, overwrite_nil]⟩
    have hreload : SameState s { s with rtable := kernel } :=
      ⟨rfl, rfl, fun _ => rfl, fun _ _ => rfl⟩
    have hempty : ({ s with rtable := kernel } : Daemon ι).refresh routerId kernel.length =
        some kernel := by
      rw [Daemon.refresh_of_empty hloaded.paired hdb hnbrs, List.take_length]
    rw [← hreload.refresh_eq_iff hkept hloaded, hempty, eq_comm]
  · have htake := take_of_keepsGateways hgateways
    exact ⟨htake, fun c => keepsGateways_iff htake⟩

end Recomputation

section Runs

deriving instance DecidableEq for MospfNbr

instance (start : ℕ) (s : Daemon ι) : ∀ e, Decidable (keepsGateways start s e)
  | .calcPath => inferInstanceAs (Decidable (∀ test < start,
      ∀ nbr ∈ lastOn start s.rtable s.linked test, ∀ item ∈ s.rtable[test]?, item.gw = nbr.nbrIp))
  | .lsu _ => isTrue trivial
  | .check => isTrue trivial
  | .neighbours _ => isTrue trivial
  | .renewMatrix => isTrue trivial

instance (start : ℕ) (s : Daemon ι) (rtable : List (RtEntry ι)) :
    Decidable (s.SameUnwritten start rtable) :=
  inferInstanceAs (Decidable (∀ matrix ∈ renewMatrix s.matrix, ∀ test < start,
    lastOn start s.rtable ({ s with matrix := matrix } : Daemon ι).linked test = none →
      ∀ item ∈ s.rtable[test]?, ∀ other ∈ rtable[test]?, other.gw = item.gw))

instance (s s' : Daemon Unit) : Decidable (SameState s s') :=
  decidable_of_iff (s'.ifaceList = s.ifaceList ∧ s'.matrix.db = s.matrix.db ∧
      (∀ i, (s'.matrix.record i).valid = (s.matrix.record i).valid) ∧
      ∀ i, (s.matrix.record i).valid = true →
        (s'.matrix.record i).dbEntry = (s.matrix.record i).dbEntry)
    ⟨fun ⟨hiface, hdb, hvalid, hentry⟩ => ⟨hiface, hdb, hvalid, hentry⟩,
      fun h => ⟨h.ifaceList, h.db, h.rows.valid, h.rows.dbEntry⟩⟩

/-- The kernel has one route, to the network 10.0.1.0/24 of the interface. -/
def oneRoute : List (RtEntry Unit) := [⟨0x0a000100, 0xffffff00, 0, ()⟩]

/-- The globals before any event. -/
def oneInterface : Daemon Unit :=
  ⟨⟨[], fun _ => ⟨0, false, 0, 0, ()⟩, fun _ _ => ⟨0, 0, 0⟩, 0⟩, oneRoute, [((), [])], false⟩

theorem initial_oneInterface : oneInterface.Initial oneRoute :=
  ⟨rfl, fun _ => rfl, rfl, rfl, rfl⟩

/-- The router 2 has this address. -/
def nbrTwo (nbrIp : UInt32) : MospfNbr := ⟨2, nbrIp, 0xffffff00⟩

/-- Router 2 comes up with this address and a route is computed. -/
def upEvents (nbrIp : UInt32) : List (DaemonEvent Unit) :=
  [.lsu ⟨2, 0, []⟩, .renewMatrix, .neighbours [((), [nbrTwo nbrIp])], .calcPath]

/-- It goes down again. -/
def downEvents : List (DaemonEvent Unit) :=
  .neighbours [((), [])] :: List.replicate 8 .check ++ [.renewMatrix, .calcPath]

/-- Two runs of listed events to states that are in a relation. -/
theorem exists_two_runs {ok : Daemon Unit → DaemonEvent Unit → Prop} [∀ s e, Decidable (ok s e)]
    (es es' : List (DaemonEvent Unit)) (P : Daemon Unit → Daemon Unit → Prop)
    [∀ s s', Decidable (P s s')]
    (h : (exec (Daemon.step 1 oneRoute.length) ok oneInterface es).any (fun s =>
      (exec (Daemon.step 1 oneRoute.length) ok oneInterface es').any
        fun s' => decide (P s s')) = true) :
    ∃ s s', Reaches (Daemon.step 1 oneRoute.length) ok (Daemon.Initial oneRoute) s ∧
      Reaches (Daemon.step 1 oneRoute.length) ok (Daemon.Initial oneRoute) s' ∧ P s s' := by
  obtain ⟨s, hs, hsecond⟩ := exists_of_exec initial_oneInterface es
    (fun s => (exec (Daemon.step 1 oneRoute.length) ok oneInterface es').any
      (fun s' => decide (P s s')) = true) (by simpa using h)
  obtain ⟨s', hs', hP⟩ := exists_of_exec initial_oneInterface es' (P s) hsecond
  exact ⟨s, s', hs, hs', hP⟩

/-- In one run router 2 has had another address before, which `calc_path` writes over. -/
theorem refresh_history_independent_two : ∃ s s' : Daemon Unit,
    s.rtable ≠ s'.rtable ∧ s.refresh 1 oneRoute.length ≠ some oneRoute ∧
      s'.refresh 1 oneRoute.length = s.refresh 1 oneRoute.length := by
  obtain ⟨s, s', h, h', hsame, hunwritten, hdiff, hroute⟩ :=
    @exists_two_runs anyStep _
      [.lsu ⟨2, 0, []⟩, .renewMatrix, .calcPath, .neighbours [((), [nbrTwo 0x0a000102])]]
      (upEvents 0x0a000103 ++ [.neighbours [((), [nbrTwo 0x0a000102])]])
      (fun s s' => SameState s s' ∧ s.SameUnwritten oneRoute.length s'.rtable ∧
        s.rtable ≠ s'.rtable ∧ s.refresh 1 oneRoute.length ≠ some oneRoute)
      _ (by decide +kernel)
  exact ⟨s, s', hdiff, hroute, (refresh_history_independent h h' hsame).1.mpr hunwritten⟩

/-- The gateway that router 2 has left in the kernel route stays when it has gone down. -/
theorem refresh_keeps_gateway : ∃ s s' : Daemon Unit,
    Reaches (Daemon.step 1 oneRoute.length) anyStep (Daemon.Initial oneRoute) s ∧
    Reaches (Daemon.step 1 oneRoute.length) anyStep (Daemon.Initial oneRoute) s' ∧
    SameState s s' ∧ s.matrix.db = [] ∧ (∀ iface ∈ s.ifaceList, iface.2 = []) ∧
    s.refresh 1 oneRoute.length = some oneRoute ∧
    s'.refresh 1 oneRoute.length = some [⟨0x0a000100, 0xffffff00, 0x0a000102, ()⟩] :=
  exists_two_runs [] (upEvents 0x0a000102 ++ downEvents)
    (fun s s' => SameState s s' ∧ s.matrix.db = [] ∧ (∀ iface ∈ s.ifaceList, iface.2 = []) ∧
      s.refresh 1 oneRoute.length = some oneRoute ∧
      s'.refresh 1 oneRoute.length = some [⟨0x0a000100, 0xffffff00, 0x0a000102, ()⟩])
    (by decide +kernel)

end Runs

end NetworkLab.Mospf
