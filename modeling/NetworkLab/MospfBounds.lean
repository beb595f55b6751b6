import NetworkLab.MospfAdjacency

/-!
# The accesses of a renewal

The elements of the two tables that `renew_matrix` and `edit_mtx` access, in order and up to the
first that does not exist. The tables have ten rows, and nothing bounds the number of entries: the
loop that counts them runs past the last row, and an entry that is deleted before it has a row is
deleted with the row after the last.
-/
namespace NetworkLab.Mospf
open GuardedRuns

variable {ι : Type}

section Model

/-- An element of `record` or of `path_map`, with the index that the code computes. -/
inductive TableAccess
  | record (i : ℤ)
  | pathMap (i j : ℤ)
  deriving DecidableEq

/-- The index of a row that exists. -/
def RowIndex (i : ℤ) : Prop := 0 ≤ i ∧ i < maxNodes

instance (i : ℤ) : Decidable (RowIndex i) := inferInstanceAs (Decidable (_ ∧ _))

/-- The element exists. -/
def TableAccess.InBounds : TableAccess → Prop
  | .record i => RowIndex i
  | .pathMap i j => RowIndex i ∧ RowIndex j

/-- `record[0]` up to `record[n - 1]`. -/
def scanAccesses (n : ℕ) : List TableAccess := (List.range n).map fun i : ℕ => .record i

/-- The accesses of the first loop of `renew_matrix`. -/
def entriesAccesses (record : Row → RowRecord ι) : List MospfDbEntry → List TableAccess
  | [] => []
  | entry :: db =>
    if entry.map2mtx ≤ nodeDelete then
      .record (nodeDelete - entry.map2mtx) ::
        match rowAt (nodeDelete - entry.map2mtx) with
        | none => []
        | some i => entriesAccesses (Function.update record i { record i with valid := false }) db
    else if entry.map2mtx = nodeAdd then
      match freeRow record with
      | none => scanAccesses maxNodes ++ entriesAccesses record db
      | some i => scanAccesses (i.val + 1) ++
        entriesAccesses
          (Function.update record i { record i with valid := true, dbEntry := entry.rid }) db
    else entriesAccesses record db

/-- The accesses of `init_matrix`. -/
def initAccesses : List TableAccess :=
  (List.range maxNodes).flatMap fun i : ℕ =>
    ((List.range maxNodes).map fun j : ℕ => TableAccess.pathMap i j) ++ [.record i]

/-- The accesses of `edit_mtx`. -/
def editAccesses (sup : ℕ) (line : Row) (array : List MospfLsa) : List TableAccess :=
  .record line.val :: array.flatMap fun _ =>
    (List.range sup).flatMap fun j : ℕ => [.record j, .pathMap line.val j]

/-- The accesses of the loop `while (count)`. -/
def editRowsAccesses (db : List MospfDbEntry) (record : Row → RowRecord ι) (sup : ℕ) :
    List Row → ℕ → List TableAccess
  | _, 0 => []
  | [], _ + 1 => [.record maxNodes]
  | line :: rows, count + 1 =>
    .record line.val ::
      if (record line).valid then
        editAccesses sup line (entryAt db (record line).dbEntry).array ++
          editRowsAccesses db record sup rows count
      else editRowsAccesses db record sup rows (count + 1)

/-- The accesses of `renew_matrix`. -/
def renewAccesses (m : Matrix ι) : List TableAccess :=
  entriesAccesses m.record m.db ++
    match renewEntries m.record m.sup m.db with
    | none => []
    | some (db, record, sup) =>
      initAccesses ++ editRowsAccesses db record sup (List.finRange maxNodes) db.length

/-- Every access is to an element of its table, and the loops end. -/
structure SafeRenewal (m : Matrix ι) : Prop where
  inBounds : ∀ access ∈ renewAccesses m, access.InBounds
  ends : (renewMatrix m).isSome

/-- The entries that the next renewal deletes have rows, and there is a row for each other one. -/
def RowsSuffice (db : List MospfDbEntry) : Prop :=
  (∀ entry ∈ db, entry.map2mtx ≠ nodeDelete - nodeAdd) ∧
    (db.filter fun entry => !decide entry.Marked).length ≤ maxNodes

/-- The entries with rows come before those that wait. -/
def Arranged (db : List MospfDbEntry) : Prop :=
  (db.map MospfDbEntry.rowNumber).Pairwise fun n n' => n = nodeAdd → n' = nodeAdd

end Model

section Accesses

variable {record record' : Row → RowRecord ι} {sup sup' : ℕ} {db db' : List MospfDbEntry}

theorem rowIndex_val (i : Row) : RowIndex i.val :=
  ⟨Int.natCast_nonneg _, Int.ofNat_lt.mpr i.isLt⟩

theorem rowIndex_natCast_iff {n : ℕ} : RowIndex n ↔ n < maxNodes :=
  ⟨fun h => Int.ofNat_lt.mp h.2, fun h => ⟨Int.natCast_nonneg _, Int.ofNat_lt.mpr h⟩⟩

theorem rowIndex_iff_rowAt {n : ℤ} : RowIndex n ↔ ∃ i, rowAt n = some i := by
  constructor
  · intro h
    exact ⟨_, dif_pos h⟩
  · rintro ⟨i, hi⟩
    rw [rowAt_eq_some_iff.mp hi]
    exact rowIndex_val i

theorem inBounds_scanAccesses {n : ℕ} (h : n ≤ maxNodes) :
    ∀ access ∈ scanAccesses n, access.InBounds := by
  intro access haccess
  obtain ⟨i, hi, rfl⟩ := List.mem_map.mp haccess
  exact rowIndex_natCast_iff.mpr ((List.mem_range.mp hi).trans_le h)

/-- A search for a free row stays in the table. -/
theorem forall_scan_append_iff {n : ℕ} (h : n ≤ maxNodes) (accesses : List TableAccess) :
    (∀ access ∈ scanAccesses n ++ accesses, access.InBounds) ↔
      ∀ access ∈ accesses, access.InBounds := by
  rw [List.forall_mem_append]
  exact and_iff_right (inBounds_scanAccesses h)

/-- The first loop leaves the table if and only if it has no result. -/
theorem entriesAccesses_iff (record : Row → RowRecord ι) (sup : ℕ) (db : List MospfDbEntry) :
    (∀ access ∈ entriesAccesses record db, access.InBounds) ↔
      (renewEntries record sup db).isSome := by
  induction db generalizing record sup with
  | nil => exact iff_of_true (fun access h => absurd h List.not_mem_nil) rfl
  | cons entry db ih =>
    rw [entriesAccesses, renewEntries]
    by_cases hmarked : entry.map2mtx ≤ nodeDelete
    · rw [if_pos hmarked, if_pos hmarked, List.forall_mem_cons]
      cases hrow : rowAt (nodeDelete - entry.map2mtx) with
      | none =>
        refine iff_of_false (fun h => ?_) (by simp)
        obtain ⟨i, hi⟩ := rowIndex_iff_rowAt.mp h.1
        rw [hrow] at hi
        cases hi
      | some i =>
        rw [← ih]
        exact and_iff_right (rowIndex_iff_rowAt.mpr ⟨i, hrow⟩)
    · rw [if_neg hmarked, if_neg hmarked]
      by_cases hadd : entry.map2mtx = nodeAdd
      · rw [if_pos hadd, if_pos hadd]
        cases freeRow record with
        | none => rw [forall_scan_append_iff le_rfl, Option.isSome_map, ih]
        | some i => rw [forall_scan_append_iff i.isLt, Option.isSome_map, ih]
      · rw [if_neg hadd, if_neg hadd, Option.isSome_map, ih]

theorem inBounds_initAccesses : ∀ access ∈ initAccesses, access.InBounds := by
  intro access haccess
  obtain ⟨i, hi, hrow⟩ := List.mem_flatMap.mp haccess
  have hin := rowIndex_natCast_iff.mpr (List.mem_range.mp hi)
  rcases List.mem_append.mp hrow with hcell | hlast
  · obtain ⟨j, hj, rfl⟩ := List.mem_map.mp hcell
    exact ⟨hin, rowIndex_natCast_iff.mpr (List.mem_range.mp hj)⟩
  · rw [List.mem_singleton.mp hlast]
    exact hin

theorem inBounds_editAccesses (hsup : sup ≤ maxNodes) (line : Row) (array : List MospfLsa) :
    ∀ access ∈ editAccesses sup line array, access.InBounds := by
  refine List.forall_mem_cons.mpr ⟨rowIndex_val line, fun access haccess => ?_⟩
  obtain ⟨lsa, -, hlsa⟩ := List.mem_flatMap.mp haccess
  obtain ⟨j, hj, hcell⟩ := List.mem_flatMap.mp hlsa
  have hin := rowIndex_natCast_iff.mpr ((List.mem_range.mp hj).trans_le hsup)
  simp only [List.mem_cons, List.not_mem_nil, or_false] at hcell
  rcases hcell with rfl | rfl
  · exact hin
  · exact ⟨rowIndex_val line, hin⟩

/-- The loop `while (count)` stays in the table if and only if there are as many valid rows. -/
theorem editRowsAccesses_iff (hsup : sup ≤ maxNodes) (rows : List Row) (count : ℕ) :
    (∀ access ∈ editRowsAccesses db record sup rows count, access.InBounds) ↔
      count ≤ (validRows record rows).length := by
  induction rows generalizing count with
  | nil =>
    cases count with
    | zero => exact iff_of_true (fun access h => absurd h List.not_mem_nil) le_rfl
    | succ count =>
      refine iff_of_false (fun h => ?_) (Nat.not_succ_le_zero count)
      exact absurd (h _ List.mem_cons_self).2 (lt_irrefl _)
  | cons line rows ih =>
    cases count with
    | zero => exact iff_of_true (fun access h => absurd h List.not_mem_nil) (Nat.zero_le _)
    | succ count =>
      rw [editRowsAccesses, List.forall_mem_cons, validRows_cons]
      refine (and_iff_right (rowIndex_val line)).trans ?_
      by_cases hvalid : (record line).valid = true
      · rw [if_pos hvalid, if_pos hvalid, List.forall_mem_append, List.length_cons, ih,
          Nat.succ_le_succ_iff]
        exact and_iff_right (inBounds_editAccesses hsup line _)
      · rw [if_neg hvalid, if_neg hvalid, ih]

/-- The new `sup` is the old one or the index of a row. -/
theorem sup_renewEntries (h : renewEntries record sup db = some (db', record', sup'))
    (hsup : sup ≤ maxNodes) : sup' ≤ maxNodes := by
  induction db generalizing record sup db' with
  | nil =>
    obtain ⟨-, hrest⟩ := Prod.mk.inj (Option.some.inj h)
    obtain ⟨-, rfl⟩ := Prod.mk.inj hrest
    exact hsup
  | cons entry db ih =>
    rcases renewEntries_cons h with ⟨-, i, -, hrest⟩ | ⟨-, -, kept, -, hrest⟩ |
      ⟨-, -, i, kept, -, -, hrest⟩
    · exact ih hrest hsup
    · exact ih hrest hsup
    · refine ih hrest ?_
      have hlt := i.isLt
      split_ifs
      · omega
      · exact hsup

theorem Tight.sup_le (h : Tight record sup) : sup ≤ maxNodes := by
  rcases h.last with hzero | ⟨i, -, hi⟩
  · omega
  · have hlt := i.isLt
    omega

/-- The loop `while (count)` has counted valid rows. -/
theorem length_le_of_editRows {rows : List Row} {count i : ℕ} {pathMap : Row → Row → NetInfo}
    {r : (Row → Row → NetInfo) × ℕ} (h : editRows db record sup rows count pathMap i = some r) :
    count ≤ (validRows record rows).length := by
  obtain ⟨n, -, -, hcount, -⟩ := editRows_count h
  rw [← hcount]
  exact ((List.take_sublist n rows).filter _).length_le

end Accesses

section Rows

variable {record record' : Row → RowRecord ι} {sup sup' : ℕ} {db db' : List MospfDbEntry}
  {m : Matrix ι}

/-- A renewal has a result if and only if the entries that it keeps all get rows. -/
theorem Consistent.isSome_iff (h : Consistent m) : (renewMatrix m).isSome ↔
    ∃ db record sup, renewEntries m.record m.sup m.db = some (db, record, sup) ∧
      db.length ≤ (validRows record (List.finRange maxNodes)).length := by
  constructor
  · intro hsome
    obtain ⟨m', hrun⟩ := Option.isSome_iff_exists.mp hsome
    obtain ⟨⟨db, record, sup⟩, hentries, hrest⟩ := Option.bind_eq_some_iff.mp hrun
    obtain ⟨r, hedit, -⟩ := Option.bind_eq_some_iff.mp hrest
    have hlen := length_le_of_editRows hedit
    exact ⟨db, record, sup, hentries, hlen⟩
  · rintro ⟨db, record, sup, hentries, hlen⟩
    have hbefore : Paired ([] ++ m.db) m.record := h.paired
    have hpaired : Paired ([] ++ db) record := hbefore.renewEntries hentries
    obtain ⟨r, hedit⟩ := hpaired.dist.exists_editRows hlen sup
      fun i j => { m.pathMap i j with value := 0 }
    exact Option.isSome_iff_exists.mpr ⟨_, Option.bind_eq_some_iff.mpr ⟨_, hentries,
      Option.bind_eq_some_iff.mpr ⟨r, hedit, rfl⟩⟩⟩

/-- The accesses stay in the tables if and only if the renewal has a result. -/
theorem Consistent.inBounds_iff (h : Consistent m) :
    (∀ access ∈ renewAccesses m, access.InBounds) ↔ (renewMatrix m).isSome := by
  rw [h.isSome_iff, renewAccesses, List.forall_mem_append, entriesAccesses_iff m.record m.sup m.db]
  cases hentries : renewEntries m.record m.sup m.db with
  | none =>
    refine iff_of_false (fun hsome => by cases hsome.1) ?_
    rintro ⟨db, record, sup, hrun, -⟩
    cases hrun
  | some result =>
    obtain ⟨db, record, sup⟩ := result
    have hsup : sup ≤ maxNodes := sup_renewEntries hentries h.tight.sup_le
    refine (and_iff_right rfl).trans ?_
    rw [List.forall_mem_append, editRowsAccesses_iff hsup]
    refine (and_iff_right inBounds_initAccesses).trans ⟨fun hlen => ⟨_, _, _, rfl, hlen⟩, ?_⟩
    rintro ⟨db', record', sup', hrun, hlen⟩
    obtain ⟨rfl, hrest⟩ := Prod.mk.inj (Option.some.inj hrun)
    obtain ⟨rfl, -⟩ := Prod.mk.inj hrest
    exact hlen

/-- An entry that waits leaves fewer valid rows than entries. -/
theorem Paired.length_validRows_lt {entry : MospfDbEntry} (h : Paired db record)
    (hentry : entry ∈ db) (hadd : entry.rowNumber = nodeAdd) :
    (validRows record (List.finRange maxNodes)).length < db.length := by
  obtain ⟨done, rest, rfl⟩ := List.append_of_mem hentry
  have hle := (h.drop hadd).length_validRows_le
  simp only [List.length_append, List.length_cons] at hle ⊢
  omega

/-- After a renewal all entries have rows. -/
theorem Consistent.mapped {m' : Matrix ι} (h : Consistent m) (hrun : renewMatrix m = some m') :
    ∀ entry ∈ m'.db, entry.rowNumber ≠ nodeAdd := by
  intro entry hentry hadd
  have hlt := (h.paired.renewMatrix hrun).length_validRows_lt hentry hadd
  obtain ⟨⟨db, record, sup⟩, -, hrest⟩ := Option.bind_eq_some_iff.mp hrun
  obtain ⟨r, hedit, heq⟩ := Option.bind_eq_some_iff.mp hrest
  obtain rfl := Option.some.inj heq
  exact absurd (length_le_of_editRows hedit) (not_le.mpr hlt)

theorem marked_renewEntries (h : renewEntries record sup db = some (db', record', sup'))
    {entry : MospfDbEntry} (hentry : entry ∈ db) (hmarked : entry.Marked) :
    ∃ i : Row, entry.rowNumber = i.val := by
  induction db generalizing record sup db' with
  | nil => exact absurd hentry List.not_mem_nil
  | cons first db ih =>
    rcases renewEntries_cons h with ⟨-, i, hrow, hrest⟩ | ⟨hnot, -, kept, -, hrest⟩ |
      ⟨hnot, -, i, kept, -, -, hrest⟩
    · rcases List.mem_cons.mp hentry with rfl | hin
      · exact ⟨i, (rowNumber_of_marked hmarked).trans hrow⟩
      · exact ih hrest hin
    · rcases List.mem_cons.mp hentry with rfl | hin
      · exact absurd hmarked hnot
      · exact ih hrest hin
    · rcases List.mem_cons.mp hentry with rfl | hin
      · exact absurd hmarked hnot
      · exact ih hrest hin

/-- An entry is deleted without a row if and only if its `map2mtx` has been taken from
`NODE_ADD`. -/
theorem marked_nodeAdd_iff (entry : MospfDbEntry) :
    entry.Marked ∧ entry.rowNumber = nodeAdd ↔ entry.map2mtx = nodeDelete - nodeAdd := by
  have hadd := nodeAdd_eq
  have hdelete := nodeDelete_eq
  constructor
  · rintro ⟨hmarked, hrow⟩
    rw [rowNumber_of_marked hmarked] at hrow
    omega
  · intro hmap
    have hmarked : entry.Marked := by
      show entry.map2mtx ≤ nodeDelete
      omega
    refine ⟨hmarked, ?_⟩
    rw [rowNumber_of_marked hmarked]
    omega

/-- Where the entries that wait come last and there are enough rows, all entries get one. -/
theorem Paired.allMapped_of_arranged {done : List MospfDbEntry} (h : Paired (done ++ db) record)
    (hrun : Mospf.renewEntries record sup db = some (db', record', sup')) (harranged : Arranged db)
    (hmarked : ∀ entry ∈ db, entry.Marked → entry.rowNumber ≠ nodeAdd)
    (hlen : done.length + (db.filter fun entry => !decide entry.Marked).length ≤ maxNodes) :
    AllMapped db' := by
  induction db generalizing done record sup db' with
  | nil =>
    obtain ⟨rfl, -⟩ := Prod.mk.inj (Option.some.inj hrun)
    exact fun entry hentry => absurd hentry List.not_mem_nil
  | cons entry db ih =>
    rw [Arranged, List.map_cons, List.pairwise_cons] at harranged
    obtain ⟨hafter, harranged⟩ := harranged
    have hmarked' := fun other hother => hmarked other (List.mem_cons_of_mem entry hother)
    by_cases hadd : entry.rowNumber = nodeAdd
    · -- From here on all entries wait, and none is marked.
      have hwait : ∀ other ∈ entry :: db, ¬other.Marked := by
        refine List.forall_mem_cons.mpr ⟨fun hin => ?_, fun other hother hin => ?_⟩
        · exact hmarked entry List.mem_cons_self hin hadd
        · exact hmarked' other hother hin (hafter _ (List.mem_map_of_mem hother) hadd)
      rw [List.filter_eq_self.mpr fun other hother => by simpa using hwait other hother] at hlen
      refine h.allMapped_renewEntries hrun ?_
      rw [List.length_append]
      exact hlen
    · rcases renewEntries_cons hrun with ⟨hin, i, hrow, hrest⟩ | ⟨hnot, -, kept, rfl, hrest⟩ |
        ⟨hnot, hmap, -⟩
      · rw [List.filter_cons_of_neg (by simpa using hin)] at hlen
        exact ih (h.remove ((rowNumber_of_marked hin).trans hrow)) hrest harranged hmarked' hlen
      · rw [List.filter_cons_of_pos (by simpa using hnot), List.length_cons] at hlen
        rw [rowNumber_of_not_marked hnot] at hadd
        have hmove : Paired ((done ++ [entry]) ++ db) record := by
          rw [List.append_assoc]
          exact h
        refine List.forall_mem_cons.mpr ⟨hadd, ih hmove hrest harranged hmarked' ?_⟩
        rw [List.length_append, List.length_singleton]
        omega
      · rw [rowNumber_of_not_marked hnot] at hadd
        exact absurd hmap hadd

/-- The renewal has a result exactly where the rows suffice. -/
theorem Consistent.isSome_iff_rowsSuffice (h : Consistent m) (harranged : Arranged m.db) :
    (renewMatrix m).isSome ↔ RowsSuffice m.db := by
  rw [h.isSome_iff]
  constructor
  · rintro ⟨db, record, sup, hentries, hlen⟩
    refine ⟨fun entry hentry hmap => ?_, ?_⟩
    · obtain ⟨hmarked, hadd⟩ := (marked_nodeAdd_iff entry).mpr hmap
      obtain ⟨i, hi⟩ := marked_renewEntries hentries hentry hmarked
      have hlt := Row.natCast_lt i
      rw [hadd, nodeAdd_eq] at hi
      omega
    · have hrids := congrArg List.length (map_rid_renewEntries hentries)
      rw [List.length_map, List.length_map] at hrids
      rw [← hrids]
      refine hlen.trans ((List.length_filter_le _ _).trans ?_)
      rw [List.length_finRange]
  · rintro ⟨hmap, hlen⟩
    have hrow (entry : MospfDbEntry) (hentry : entry ∈ m.db) (hmarked : entry.Marked) :
        entry.rowNumber ≠ nodeAdd := fun hadd =>
      hmap entry hentry ((marked_nodeAdd_iff entry).mp ⟨hmarked, hadd⟩)
    obtain ⟨⟨db, record, sup⟩, hentries⟩ := renewEntries_isSome m.record m.sup m.db
      fun entry hentry hmarked => by
        obtain ⟨i, hi, -⟩ :=
          (h.paired.owns entry hentry).resolve_left (hrow entry hentry hmarked)
        exact ⟨i, (rowNumber_of_marked hmarked).symm.trans hi⟩
    have hbefore : Paired ([] ++ m.db) m.record := h.paired
    have hpaired : Paired ([] ++ db) record := hbefore.renewEntries hentries
    have hmapped : AllMapped db :=
      hbefore.allMapped_of_arranged hentries harranged hrow (by simpa using hlen)
    refine ⟨db, record, sup, hentries, le_of_eq (hpaired.length_validRows ?_).symm⟩
    intro entry hentry
    rw [rowNumber_of_not_marked (not_marked_renewEntries hentries entry hentry)]
    exact hmapped entry hentry

end Rows

section Runs

variable {routerId : UInt32} {start : ℕ} {kernel : List (RtEntry ι)} {s : Daemon ι}
  {db db' : List MospfDbEntry}

/-- A stored LSU leaves the entries where they are, or adds one at the end. -/
theorem map_rowNumber_storeLsu {lsu : Lsu} (h : storeLsu db lsu = some db') :
    db'.map MospfDbEntry.rowNumber = db.map MospfDbEntry.rowNumber ∨
      db'.map MospfDbEntry.rowNumber = db.map MospfDbEntry.rowNumber ++ [nodeAdd] := by
  induction db generalizing db' with
  | nil =>
    obtain rfl := Option.some.inj h
    exact .inr rfl
  | cons entry db ih =>
    rw [storeLsu] at h
    by_cases hrid : lsu.rid = entry.rid
    · rw [if_pos hrid] at h
      split_ifs at h
      obtain rfl := Option.some.inj h
      exact .inl rfl
    · rw [if_neg hrid, Option.map_eq_some_iff] at h
      obtain ⟨db₁, hstore, rfl⟩ := h
      rcases ih hstore with hsame | hnew
      · exact .inl (congrArg (entry.rowNumber :: ·) hsame)
      · exact .inr (congrArg (entry.rowNumber :: ·) hnew)

theorem Arranged.deliver (h : Arranged db) (routerId : UInt32) (lsu : Lsu) :
    Arranged (deliver routerId db lsu) := by
  rw [Mospf.deliver, handleMospfLsu]
  split_ifs
  · exact h
  · cases hstore : storeLsu db lsu with
    | none => exact h
    | some db' =>
      rw [Option.getD_some, Arranged]
      rcases map_rowNumber_storeLsu hstore with hsame | hnew
      · rw [hsame]
        exact h
      · rw [hnew]
        refine List.pairwise_append.mpr ⟨h, List.pairwise_singleton _ _, fun n _ n' hn' _ => ?_⟩
        exact List.mem_singleton.mp hn'

/-- What every state of the daemon has. -/
structure Daemon.InOrder (s : Daemon ι) : Prop where
  consistent : Consistent s.matrix
  arranged : Arranged s.matrix.db

theorem Daemon.InOrder.step {e : DaemonEvent ι} {t : Daemon ι} (h : s.InOrder)
    (hstep : s.step routerId start e = some t) : t.InOrder := by
  refine ⟨h.consistent.step hstep, ?_⟩
  cases e with
  | lsu lsu =>
    obtain rfl := Option.some.inj hstep
    exact h.arranged.deliver routerId lsu
  | check =>
    obtain rfl := Option.some.inj hstep
    have hsame : (s.matrix.db.map MospfDbEntry.check).map MospfDbEntry.rowNumber =
        s.matrix.db.map MospfDbEntry.rowNumber := by
      rw [List.map_map]
      exact List.map_congr_left fun entry hentry =>
        rowNumber_check (h.consistent.paired.rowNumber_mem hentry)
    show Arranged (s.matrix.db.map MospfDbEntry.check)
    rw [Arranged, hsame]
    exact h.arranged
  | neighbours ifaceList =>
    obtain rfl := Option.some.inj hstep
    exact h.arranged
  | renewMatrix =>
    rw [Daemon.step] at hstep
    split_ifs at hstep
    obtain ⟨matrix, hrenew, rfl⟩ := Option.map_eq_some_iff.mp hstep
    refine List.pairwise_of_forall_mem_list fun n hn n' _ hadd => ?_
    obtain ⟨entry, hentry, rfl⟩ := List.mem_map.mp hn
    exact absurd hadd (h.consistent.mapped hrenew entry hentry)
  | calcPath =>
    rw [Daemon.step] at hstep
    split_ifs at hstep
    obtain ⟨c, -, rfl⟩ := Option.map_eq_some_iff.mp hstep
    exact h.arranged

/-- The next renewal is safe exactly where each entry that it keeps can have a row, and each entry
that it deletes has one. -/
theorem safeRenewal_iff
    (h : Reaches (Daemon.step routerId start) anyStep (Daemon.Initial kernel) s) :
    SafeRenewal s.matrix ↔ RowsSuffice s.matrix.db := by
  have horder : s.InOrder := by
    refine h.invariant Daemon.InOrder (fun s hs => ?_) fun _ _ _ hs _ hstep => hs.step hstep
    refine ⟨hs.consistent, ?_⟩
    rw [Arranged, hs.1]
    exact .nil
  have hsome := horder.consistent.isSome_iff_rowsSuffice horder.arranged
  refine ⟨fun hsafe => hsome.mp hsafe.ends, fun hrows => ⟨?_, hsome.mpr hrows⟩⟩
  exact horder.consistent.inBounds_iff.mpr (hsome.mpr hrows)

instance (db : List MospfDbEntry) : Decidable (RowsSuffice db) :=
  inferInstanceAs (Decidable (_ ∧ _))

/-- An LSU for each of these routers. -/
def routerEvents (n : ℕ) : List (DaemonEvent Unit) :=
  (List.range n).map fun i => .lsu ⟨UInt32.ofNat i + 2, 0, []⟩

/-- Ten routers fill the tables. -/
theorem safeRenewal_ten : ∃ s : Daemon Unit, s.matrix.db.length = 10 ∧ SafeRenewal s.matrix := by
  obtain ⟨s, hreach, hlen, hrows⟩ : ∃ s : Daemon Unit,
      Reaches (Daemon.step 1 oneRoute.length) anyStep (Daemon.Initial oneRoute) s ∧
        s.matrix.db.length = 10 ∧ RowsSuffice s.matrix.db :=
    exists_of_exec initial_oneInterface (routerEvents 10) _ (by decide +kernel)
  exact ⟨s, hlen, (safeRenewal_iff hreach).mpr hrows⟩

/-- The loop over an eleventh router reads the row after the last, and a router without a row that
is not heard of again is deleted with that row. -/
theorem renewMatrix_leaves_table :
    (∃ s : Daemon Unit,
      Reaches (Daemon.step 1 oneRoute.length) anyStep (Daemon.Initial oneRoute) s ∧
      s.renewed = false ∧ .record 10 ∈ renewAccesses s.matrix ∧ ¬SafeRenewal s.matrix) ∧
    ∃ s : Daemon Unit,
      Reaches (Daemon.step 1 oneRoute.length) anyStep (Daemon.Initial oneRoute) s ∧
      s.renewed = false ∧ s.matrix.db.length = 1 ∧ renewAccesses s.matrix = [.record 10] ∧
      ¬SafeRenewal s.matrix := by
  have hunsafe {m : Matrix Unit} (hmem : .record 10 ∈ renewAccesses m) : ¬SafeRenewal m := by
    intro hsafe
    have hrow : RowIndex 10 := hsafe.inBounds _ hmem
    exact absurd hrow (by decide)
  constructor
  · obtain ⟨s, hreach, hrenewed, hmem⟩ : ∃ s : Daemon Unit,
        Reaches (Daemon.step 1 oneRoute.length) anyStep (Daemon.Initial oneRoute) s ∧
          s.renewed = false ∧ .record 10 ∈ renewAccesses s.matrix :=
      exists_of_exec initial_oneInterface (routerEvents 11) _ (by decide +kernel)
    exact ⟨s, hreach, hrenewed, hmem, hunsafe hmem⟩
  · obtain ⟨s, hreach, hrenewed, hlen, haccesses⟩ : ∃ s : Daemon Unit,
        Reaches (Daemon.step 1 oneRoute.length) anyStep (Daemon.Initial oneRoute) s ∧
          s.renewed = false ∧ s.matrix.db.length = 1 ∧ renewAccesses s.matrix = [.record 10] :=
      exists_of_exec initial_oneInterface (routerEvents 1 ++ List.replicate 8 .check) _
        (by decide +kernel)
    exact ⟨s, hreach, hrenewed, hlen, haccesses, hunsafe (haccesses ▸ List.mem_cons_self)⟩

end Runs

end NetworkLab.Mospf
