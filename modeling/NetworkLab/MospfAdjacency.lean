import NetworkLab.MospfHistory

/-!
# The matrix against the database

After `renew_matrix` the matrix should be the adjacency matrix of the database. Each LSA of an
entry writes the whole line of the entry, so the last one decides; and a row that is added at the
end of the table is the last index that `sup` gets, so its column is not written in that round.
-/
namespace NetworkLab.Mospf
open GuardedRuns

variable {ι : Type}

section Model

/-- The matrix and the rows are those of the database. -/
structure MatchesDatabase (m : Matrix ι) : Prop where
  row : ∀ entry ∈ m.db, ∃ i : Row, entry.map2mtx = i.val ∧ (m.record i).valid = true ∧
    (m.record i).dbEntry = entry.rid
  own : ∀ entry ∈ m.db, ∀ other ∈ m.db, entry.map2mtx = other.map2mtx → entry = other
  edge : ∀ i j, (m.record i).valid = true → (m.record j).valid = true →
    ((m.pathMap i j).value = 1 ↔
      ∃ lsa ∈ (entryAt m.db (m.record i).dbEntry).array, lsa.rid = (m.record j).dbEntry)
  subnet : ∀ i j, (m.pathMap i j).value = 1 →
    ∃ lsa ∈ (entryAt m.db (m.record i).dbEntry).array, lsa.rid = (m.record j).dbEntry ∧
      (m.pathMap i j).network = lsa.network ∧ (m.pathMap i j).mask = lsa.mask
  valid : ∀ i j, (m.pathMap i j).value = 1 →
    (m.record i).valid = true ∧ (m.record j).valid = true
  zero : ∀ i j, (m.pathMap i j).value = 1 ∨ (m.pathMap i j).value = 0

/-- What earlier rounds leave: entries and rows belong together, and `sup` is the number after the
last valid row. -/
structure Consistent (m : Matrix ι) : Prop where
  paired : Paired m.db m.record
  tight : Tight m.record m.sup

/-- The router of the last entry that waits for a row. -/
def lastAdded (db : List MospfDbEntry) : Option UInt32 :=
  ((db.filter fun entry => decide (entry.map2mtx = nodeAdd)).getLast?).map (·.rid)

/-- In each entry, the last LSA names the only router of the database that the entry names. -/
def LastNames (db : List MospfDbEntry) : Prop :=
  ∀ entry ∈ db, ∀ lsa ∈ entry.array, lsa.rid ∈ db.map (·.rid) →
    ∀ last ∈ entry.array.getLast?, last.rid = lsa.rid

/-- Where the entries do not fit below `sup`, no entry names the last one that is added. -/
def LastUnnamed (m : Matrix ι) : Prop :=
  m.sup < m.db.length → ∀ rid ∈ lastAdded m.db, ∀ entry ∈ m.db, ∀ lsa ∈ entry.array,
    lsa.rid ≠ rid

end Model

section Rows

variable {record record' : Row → RowRecord ι} {sup sup' base : ℕ} {db db' : List MospfDbEntry}
  {r : Row} {rid : UInt32}

theorem freeRow_eq_some_iff {i : Row} : freeRow record = some i ↔
    (record i).valid = false ∧ ∀ j < i, (record j).valid = true := by
  rw [freeRow, List.find?_eq_some_iff_getElem]
  simp only [Bool.not_eq_true', List.getElem_finRange, Bool.not_not]
  refine and_congr_right fun _ => ⟨?_, fun h => ?_⟩
  · rintro ⟨k, hk, rfl, hbefore⟩ j hj
    exact hbefore j.val hj
  · exact ⟨i.val, by simp, rfl, fun j hj => h ⟨j, _⟩ hj⟩

theorem freeRow_eq_none_iff : freeRow record = none ↔ ∀ i, (record i).valid = true := by
  simp [freeRow]

/-- The entries that are left, with what they advertise. -/
theorem map_array_renewEntries (h : renewEntries record sup db = some (db', record', sup')) :
    db'.map (fun entry => (entry.rid, entry.array)) =
      (db.filter fun entry => !decide entry.Marked).map
        fun entry => (entry.rid, entry.array) :=
  map_renewEntries _ (fun _ _ => rfl) h

/-- Without the entry that waits for a row there are as many entries as rows at least. -/
theorem Paired.drop {done : List MospfDbEntry} {entry : MospfDbEntry}
    (h : Paired (done ++ entry :: db) record) (hadd : entry.rowNumber = nodeAdd) :
    Paired (done ++ db) record := by
  have hsub : (done ++ db).Sublist (done ++ entry :: db) :=
    (List.sublist_cons_self entry db).append_left done
  refine ⟨(hsub.map _).nodup h.nodup, fun other hother => h.owns other (hsub.subset hother),
    fun i hi => ?_⟩
  obtain ⟨other, hother, hrid, hrow⟩ := h.owned i hi
  refine ⟨other, ?_, hrid, hrow⟩
  rcases List.mem_append.mp hother with hdone | hrest
  · exact List.mem_append_left _ hdone
  · rcases List.mem_cons.mp hrest with rfl | hdb
    · have hlt := Row.natCast_lt i
      rw [hadd, nodeAdd_eq] at hrow
      omega
    · exact List.mem_append_right _ hdb

/-- An entry that waits finds a free row when there are not more entries than rows. -/
theorem Paired.exists_freeRow {done : List MospfDbEntry} {entry : MospfDbEntry}
    (h : Paired (done ++ entry :: db) record) (hadd : entry.rowNumber = nodeAdd)
    (hlen : (done ++ entry :: db).length ≤ maxNodes) : ∃ i, freeRow record = some i := by
  cases hfree : freeRow record with
  | some i => exact ⟨i, rfl⟩
  | none =>
    have hall := freeRow_eq_none_iff.mp hfree
    have hrows : validRows record (List.finRange maxNodes) = List.finRange maxNodes :=
      List.filter_eq_self.mpr fun i _ => hall i
    have hle := (h.drop hadd).length_validRows_le
    rw [hrows, List.length_finRange] at hle
    simp only [List.length_append, List.length_cons] at hle hlen
    omega

/-- The last row that has been added is `r`, for this router; no row before it is free, and `base`
is the value of `sup` before the round. -/
structure Filled (base : ℕ) (record : Row → RowRecord ι) (sup : ℕ) (r : Row) (rid : UInt32) :
    Prop where
  below : ∀ j ≤ r, (record j).valid = true
  entry : (record r).dbEntry = rid
  above : ∀ j, r < j → (record j).valid = true → j.val < base
  sup_eq : sup = max base r.val

/-- A row is added where `sup` has not yet fallen behind. -/
theorem filled_of_freeRow {i : Row} (hfree : freeRow record = some i)
    (habove : ∀ j, i < j → (record j).valid = true → j.val < base)
    (hsup : sup ≤ max base i.val) (hbase : base ≤ sup) :
    Filled base (Function.update record i { record i with valid := true, dbEntry := rid })
      (if sup < i.val then i.val else sup) i rid := by
  obtain ⟨-, hbelow⟩ := freeRow_eq_some_iff.mp hfree
  refine ⟨fun j hj => ?_, by rw [Function.update_self], fun j hj hvalid => ?_, ?_⟩
  · rcases hj.lt_or_eq with hlt | rfl
    · rw [Function.update_of_ne hlt.ne]
      exact hbelow j hlt
    · rw [Function.update_self]
  · rw [Function.update_of_ne hj.ne'] at hvalid
    exact habove j hj hvalid
  · split_ifs with hlt
    · omega
    · omega

/-- Rows are added one after another. -/
theorem Filled.add {i : Row} {rid' : UInt32} (h : Filled base record sup r rid)
    (hfree : freeRow record = some i) :
    Filled base (Function.update record i { record i with valid := true, dbEntry := rid' })
      (if sup < i.val then i.val else sup) i rid' := by
  obtain ⟨hinvalid, -⟩ := freeRow_eq_some_iff.mp hfree
  have hlt : r < i := by
    by_contra hle
    rw [h.below i (not_lt.mp hle)] at hinvalid
    cases hinvalid
  have hsup := h.sup_eq
  have hri : r.val < i.val := hlt
  exact filled_of_freeRow hfree (fun j hj => h.above j (hlt.trans hj)) (by omega) (by omega)

theorem lastAdded_cons (entry : MospfDbEntry) (db : List MospfDbEntry) :
    lastAdded (entry :: db) =
      if entry.map2mtx = nodeAdd then some ((lastAdded db).getD entry.rid) else lastAdded db := by
  rw [lastAdded, lastAdded]
  by_cases hadd : entry.map2mtx = nodeAdd
  · rw [if_pos hadd, List.filter_cons_of_pos (by simpa using hadd), List.getLast?_cons]
    cases (db.filter fun entry => decide (entry.map2mtx = nodeAdd)).getLast? with
    | none => rfl
    | some last => rfl
  · rw [if_neg hadd, List.filter_cons_of_neg (by simpa using hadd)]

/-- No entry waits for a row. -/
def AllMapped (db : List MospfDbEntry) : Prop := ∀ entry ∈ db, entry.map2mtx ≠ nodeAdd

/-- The loop goes on after the first row that it has added. -/
theorem Filled.renewEntries (h : Filled base record sup r rid)
    (hrun : renewEntries record sup db = some (db', record', sup'))
    (hmarked : ∀ entry ∈ db, ¬entry.Marked) (hmapped : AllMapped db') :
    ∃ r', Filled base record' sup' r' ((lastAdded db).getD rid) := by
  induction db generalizing record sup db' r rid with
  | nil =>
    obtain ⟨-, hrest⟩ := Prod.mk.inj (Option.some.inj hrun)
    obtain ⟨rfl, rfl⟩ := Prod.mk.inj hrest
    exact ⟨r, h⟩
  | cons entry db ih =>
    have hmarked' := fun other hother => hmarked other (List.mem_cons_of_mem entry hother)
    rw [lastAdded_cons]
    rcases renewEntries_cons hrun with ⟨hentry, -⟩ | ⟨-, -, kept, rfl, hrest⟩ |
      ⟨-, hadd, i, kept, hfree, rfl, hrest⟩
    · exact absurd hentry (hmarked entry List.mem_cons_self)
    · rw [if_neg (hmapped entry List.mem_cons_self)]
      exact ih h hrest hmarked' fun other hother => hmapped other (List.mem_cons_of_mem _ hother)
    · rw [if_pos hadd, Option.getD_some]
      exact ih (h.add hfree) hrest hmarked' fun other hother =>
        hmapped other (List.mem_cons_of_mem _ hother)

/-- The whole loop: nothing is added, or the last row added is that of the last entry that has
waited. -/
theorem renewEntries_filled (hrun : renewEntries record sup db = some (db', record', sup'))
    (hbelow : ∀ i, (record i).valid = true → i.val < sup)
    (hmarked : ∀ entry ∈ db, ¬entry.Marked) (hmapped : AllMapped db') :
    (lastAdded db = none ∧ record' = record ∧ sup' = sup) ∨
      ∃ r rid, lastAdded db = some rid ∧ Filled sup record' sup' r rid := by
  induction db generalizing db' with
  | nil =>
    obtain ⟨-, hrest⟩ := Prod.mk.inj (Option.some.inj hrun)
    obtain ⟨rfl, rfl⟩ := Prod.mk.inj hrest
    exact .inl ⟨rfl, rfl, rfl⟩
  | cons entry db ih =>
    have hmarked' := fun other hother => hmarked other (List.mem_cons_of_mem entry hother)
    rw [lastAdded_cons]
    rcases renewEntries_cons hrun with ⟨hentry, -⟩ | ⟨-, -, kept, rfl, hrest⟩ |
      ⟨-, hadd, i, kept, hfree, rfl, hrest⟩
    · exact absurd hentry (hmarked entry List.mem_cons_self)
    · rw [if_neg (hmapped entry List.mem_cons_self)]
      exact ih hrest hmarked' fun other hother => hmapped other (List.mem_cons_of_mem _ hother)
    · have hfirst : Filled sup _ _ i entry.rid :=
        filled_of_freeRow hfree (fun j _ => hbelow j) (le_max_left _ _) le_rfl
      obtain ⟨r, hfilled⟩ := hfirst.renewEntries hrest hmarked' fun other hother =>
        hmapped other (List.mem_cons_of_mem _ hother)
      rw [if_pos hadd]
      exact .inr ⟨r, _, rfl, hfilled⟩

/-- With at most as many entries as rows every entry gets one. -/
theorem Paired.allMapped_renewEntries {done : List MospfDbEntry} (h : Paired (done ++ db) record)
    (hrun : Mospf.renewEntries record sup db = some (db', record', sup'))
    (hlen : (done ++ db).length ≤ maxNodes) : AllMapped db' := by
  induction db generalizing done record sup db' with
  | nil =>
    obtain ⟨rfl, -⟩ := Prod.mk.inj (Option.some.inj hrun)
    exact fun entry hentry => absurd hentry List.not_mem_nil
  | cons entry db ih =>
    have hmove (entry' : MospfDbEntry) (db : List MospfDbEntry) :
        done ++ entry' :: db = (done ++ [entry']) ++ db := by
      rw [List.append_assoc]
      rfl
    have hlen' (entry' : MospfDbEntry) : ((done ++ [entry']) ++ db).length ≤ maxNodes := by
      simp only [List.length_append, List.length_cons, List.length_nil] at hlen ⊢
      omega
    rcases renewEntries_cons hrun with ⟨hmarked, i, hrow, hrest⟩ |
      ⟨hmarked, hfull, kept, rfl, hrest⟩ | ⟨hmarked, hadd, i, kept, hfree, rfl, hrest⟩
    · refine ih (h.remove ((rowNumber_of_marked hmarked).trans hrow)) hrest ?_
      simp only [List.length_append, List.length_cons] at hlen ⊢
      omega
    · refine List.forall_mem_cons.mpr ⟨fun hadd => ?_, ?_⟩
      · obtain ⟨i, hfree⟩ := h.exists_freeRow ((rowNumber_of_not_marked hmarked).trans hadd) hlen
        rw [hfull hadd] at hfree
        cases hfree
      · rw [hmove] at h
        exact ih h hrest (hlen' entry)
    · have hinvalid := (freeRow_eq_some_iff.mp hfree).1
      have hassign := h.assign hinvalid ((rowNumber_of_not_marked hmarked).trans hadd)
      rw [hmove] at hassign
      refine List.forall_mem_cons.mpr ⟨fun heq => ?_, ih hassign hrest (hlen' _)⟩
      have hlt := Row.natCast_lt i
      have hten : (i.val : ℤ) = 10 := heq
      omega

/-- Where every entry has a row there are as many valid rows as entries. -/
theorem Paired.length_validRows (h : Paired db record)
    (hmapped : ∀ entry ∈ db, entry.rowNumber ≠ nodeAdd) :
    (validRows record (List.finRange maxNodes)).length = db.length := by
  refine le_antisymm h.length_validRows_le ?_
  have hsub : db.map (·.rid) ⊆
      (validRows record (List.finRange maxNodes)).map fun i => (record i).dbEntry := by
    intro rid hrid
    obtain ⟨entry, hentry, rfl⟩ := List.mem_map.mp hrid
    obtain ⟨i, -, hvalid, heq⟩ := (h.owns entry hentry).resolve_left (hmapped entry hentry)
    exact List.mem_map.mpr ⟨i, List.mem_filter.mpr ⟨List.mem_finRange i, hvalid⟩, heq⟩
  have hle := (h.nodup.subperm hsub).length_le
  rwa [List.length_map, List.length_map] at hle

theorem length_validRows_eq_card (record : Row → RowRecord ι) :
    (validRows record (List.finRange maxNodes)).length =
      (Finset.univ.filter fun i => (record i).valid = true).card := by
  have hnodup : (validRows record (List.finRange maxNodes)).Nodup :=
    (List.nodup_finRange maxNodes).filter _
  rw [← List.toFinset_card_of_nodup hnodup]
  congr 1
  ext i
  simp [validRows]

/-- The rows have gone past `base` if and only if there are more of them. -/
theorem Filled.base_le_iff (h : Filled base record sup r rid) :
    base ≤ r.val ↔ base < (validRows record (List.finRange maxNodes)).length := by
  rw [length_validRows_eq_card]
  constructor
  · intro hle
    have hsub : Finset.Iic r ⊆ Finset.univ.filter fun i => (record i).valid = true := by
      intro j hj
      simpa using h.below j (Finset.mem_Iic.mp hj)
    have hcard := Finset.card_le_card hsub
    rw [Fin.card_Iic] at hcard
    omega
  · intro hlt
    by_contra hle
    have hmaps : ∀ j ∈ Finset.univ.filter fun i => (record i).valid = true,
        j.val ∈ Finset.range base := by
      intro j hj
      rw [Finset.mem_range]
      rcases lt_or_ge r j with hrj | hjr
      · exact h.above j hrj (by simpa using hj)
      · have hval : j.val ≤ r.val := hjr
        omega
    have hcard := Finset.card_le_card_of_injOn Fin.val hmaps Fin.val_injective.injOn
    rw [Finset.card_range] at hcard
    omega

end Rows

section Lines

variable {record : Row → RowRecord ι} {sup : ℕ} {db : List MospfDbEntry} {line : Row}
  {pathMap pathMap' : Row → Row → NetInfo}

/-- What `edit_mtx` leaves in a line: the last LSA decides for all columns below `sup`. -/
def LineOf (record : Row → RowRecord ι) (sup : ℕ) (entry : MospfDbEntry) (cells : Row → NetInfo) :
    Prop :=
  ∀ j, (j.val < sup ∧ ∃ last ∈ entry.array.getLast?, (record j).valid = true ∧
      last.rid = (record j).dbEntry ∧ cells j = ⟨last.network, last.mask, 1⟩) ∨
    (¬(j.val < sup ∧ ∃ last ∈ entry.array.getLast?, (record j).valid = true ∧
      last.rid = (record j).dbEntry) ∧ (cells j).value = 0)

theorem foldl_editLsa_of_ne {i j : Row} (h : ¬(i = line ∧ j.val < sup)) (lsas : List MospfLsa)
    (pathMap : Row → Row → NetInfo) :
    (lsas.foldl (editLsa record sup line) pathMap) i j = pathMap i j := by
  induction lsas generalizing pathMap with
  | nil => rfl
  | cons lsa lsas ih => rw [List.foldl_cons, ih, editLsa, if_neg h]

theorem lineOf_foldl_editLsa (entry : MospfDbEntry) (hzero : ∀ j, (pathMap line j).value = 0) :
    LineOf record sup entry (entry.array.foldl (editLsa record sup line) pathMap line) := by
  intro j
  by_cases hj : j.val < sup
  · cases harray : entry.array using List.reverseRecOn with
    | nil =>
      refine .inr ⟨?_, hzero j⟩
      rintro ⟨-, last, hlast, -⟩
      rw [List.getLast?_nil] at hlast
      cases hlast
    | append_singleton lsas last =>
      rw [List.getLast?_concat, List.foldl_append, List.foldl_cons, List.foldl_nil, editLsa,
        if_pos ⟨rfl, hj⟩]
      by_cases hrow : (record j).valid = true ∧ (record j).dbEntry = last.rid
      · rw [if_pos hrow]
        exact .inl ⟨hj, last, rfl, hrow.1, hrow.2.symm, rfl⟩
      · rw [if_neg hrow]
        refine .inr ⟨?_, rfl⟩
        rintro ⟨-, other, hother, hvalid, hrid⟩
        obtain rfl := Option.some.inj hother
        exact hrow ⟨hvalid, hrid.symm⟩
  · refine .inr ⟨fun h => hj h.1, ?_⟩
    rw [foldl_editLsa_of_ne (fun h => hj h.2)]
    exact hzero j

/-- When the loop comes to all valid rows it writes the lines of these and no others. -/
theorem lines_editRows {rows : List Row} {count i k : ℕ} (hnodup : rows.Nodup)
    (hzero : ∀ i ∈ rows, ∀ j, (pathMap i j).value = 0)
    (hcount : (validRows record rows).length ≤ count)
    (h : editRows db record sup rows count pathMap i = some (pathMap', k)) :
    (∀ line ∈ rows, (record line).valid = true →
      LineOf record sup (entryAt db (record line).dbEntry) (pathMap' line)) ∧
    ∀ line, ¬(line ∈ rows ∧ (record line).valid = true) → pathMap' line = pathMap line := by
  refine editRows_induction (motive := fun rows count pathMap _ => rows.Nodup →
    (∀ i ∈ rows, ∀ j, (pathMap i j).value = 0) → (validRows record rows).length ≤ count →
      (∀ line ∈ rows, (record line).valid = true →
        LineOf record sup (entryAt db (record line).dbEntry) (pathMap' line)) ∧
      ∀ line, ¬(line ∈ rows ∧ (record line).valid = true) → pathMap' line = pathMap line)
    ?_ ?_ ?_ h hnodup hzero hcount
  · intro rows _ _ hcount
    have hnone : validRows record rows = [] := List.length_eq_zero_iff.mp (Nat.le_zero.mp hcount)
    exact ⟨fun line hline hvalid => absurd hvalid (List.filter_eq_nil_iff.mp hnone line hline),
      fun _ _ => rfl⟩
  · intro line rows count pathMap _ entry hvalid hfind ih hnodup hzero hcount
    obtain ⟨hline, hrows⟩ := List.nodup_cons.mp hnodup
    rw [validRows_cons, if_pos hvalid, List.length_cons] at hcount
    have hne (i : Row) (hi : i ∈ rows) : i ≠ line := fun heq => hline (heq ▸ hi)
    have hsame (i : Row) (hi : i ≠ line) (j : Row) :
        entry.array.foldl (editLsa record sup line) pathMap i j = pathMap i j :=
      foldl_editLsa_of_ne (fun h => hi h.1) entry.array pathMap
    have hzero' (i : Row) (hi : i ∈ rows) (j : Row) :
        (entry.array.foldl (editLsa record sup line) pathMap i j).value = 0 := by
      rw [hsame i (hne i hi) j]
      exact hzero i (List.mem_cons_of_mem line hi) j
    obtain ⟨hlines, hother⟩ := ih hrows hzero' (Nat.le_of_succ_le_succ hcount)
    refine ⟨fun i hi hvalid' => ?_, fun i hi => ?_⟩
    · rcases List.mem_cons.mp hi with rfl | hi
      · have hentry : entryAt db (record i).dbEntry = entry := by
          rw [entryAt, hfind, Option.getD_some]
        rw [hentry, hother i fun h => hline h.1]
        exact lineOf_foldl_editLsa entry (hzero i List.mem_cons_self)
      · exact hlines i hi hvalid'
    · have hine : i ≠ line := by
        rintro rfl
        exact hi ⟨List.mem_cons_self, hvalid⟩
      rw [hother i fun h => hi ⟨List.mem_cons_of_mem _ h.1, h.2⟩]
      exact funext (hsame i hine)
  · intro line rows count pathMap _ hvalid ih hnodup hzero hcount
    rw [validRows_cons, if_neg hvalid] at hcount
    obtain ⟨hlines, hother⟩ := ih (List.nodup_cons.mp hnodup).2
      (fun i hi => hzero i (List.mem_cons_of_mem line hi)) hcount
    refine ⟨fun i hi hvalid' => ?_, fun i hi => ?_⟩
    · rcases List.mem_cons.mp hi with rfl | hi
      · exact absurd hvalid' hvalid
      · exact hlines i hi hvalid'
    · exact hother i fun h => hi ⟨List.mem_cons_of_mem _ h.1, h.2⟩

/-- The loop finds as many valid rows as it counts. -/
theorem editRows_isSome {rows : List Row} {count : ℕ}
    (hfind : ∀ line, (record line).valid = true →
      ∃ entry, db.find? (fun entry => decide (entry.rid = (record line).dbEntry)) = some entry)
    (hcount : count ≤ (validRows record rows).length) (pathMap : Row → Row → NetInfo) (i : ℕ) :
    ∃ r, editRows db record sup rows count pathMap i = some r := by
  induction rows generalizing count pathMap i with
  | nil =>
    obtain rfl : count = 0 := Nat.le_zero.mp hcount
    exact ⟨_, rfl⟩
  | cons line rows ih =>
    cases count with
    | zero => exact ⟨_, rfl⟩
    | succ count =>
      rw [validRows_cons] at hcount
      rw [editRows]
      by_cases hvalid : (record line).valid = true
      · rw [if_pos hvalid, List.length_cons] at hcount
        obtain ⟨entry, hentry⟩ := hfind line hvalid
        obtain ⟨r, hr⟩ := ih (Nat.le_of_succ_le_succ hcount)
          (entry.array.foldl (editLsa record sup line) pathMap) (i + 1)
        rw [if_pos hvalid]
        exact ⟨r, Option.bind_eq_some_iff.mpr
          ⟨_, Option.bind_eq_some_iff.mpr ⟨entry, hentry, rfl⟩, hr⟩⟩
      · rw [if_neg hvalid] at hcount ⊢
        exact ih hcount pathMap (i + 1)

/-- The entry of a valid row is in the database. -/
theorem Paired.find?_entry (h : Paired db record) (hvalid : (record line).valid = true) :
    ∃ entry ∈ db, entry.rid = (record line).dbEntry ∧
      db.find? (fun entry => decide (entry.rid = (record line).dbEntry)) = some entry := by
  obtain ⟨entry, hentry, hrid, -⟩ := h.owned line hvalid
  cases hfind : db.find? fun entry => decide (entry.rid = (record line).dbEntry) with
  | none => exact absurd (decide_eq_true hrid) (List.find?_eq_none.mp hfind entry hentry)
  | some found =>
    have hfound := List.find?_some hfind
    have hrid' : found.rid = (record line).dbEntry := of_decide_eq_true hfound
    obtain rfl := h.mem_unique hentry (List.mem_of_find?_eq_some hfind) (hrid'.trans hrid.symm)
    exact ⟨found, hentry, hrid, rfl⟩

theorem Paired.exists_editRows (h : Paired db record)
    (hlen : db.length ≤ (validRows record (List.finRange maxNodes)).length) (sup : ℕ)
    (pathMap : Row → Row → NetInfo) :
    ∃ r, editRows db record sup (List.finRange maxNodes) db.length pathMap 0 = some r :=
  editRows_isSome (fun _ hvalid => (h.find?_entry hvalid).imp fun _ hentry => hentry.2.2)
    hlen pathMap 0

end Lines

section Renewal

variable {m m' : Matrix ι} {sup : ℕ}

/-- What `renew_matrix` leaves, with the bound `sup` that its lines are written with. -/
structure Renewed (m m' : Matrix ι) (sup : ℕ) : Prop where
  paired : Paired m'.db m'.record
  kept : ∀ entry ∈ m'.db, ¬entry.Marked ∧ entry.map2mtx ≠ nodeAdd
  adverts : m'.db.map (fun entry => (entry.rid, entry.array)) =
    m.db.map fun entry => (entry.rid, entry.array)
  line : ∀ i, (m'.record i).valid = true →
    LineOf m'.record sup (entryAt m'.db (m'.record i).dbEntry) (m'.pathMap i)
  zero : ∀ i, (m'.record i).valid ≠ true → ∀ j, (m'.pathMap i j).value = 0
  missed : ∀ j, (m'.record j).valid = true →
    (¬j.val < sup ↔ m.sup < m.db.length ∧ lastAdded m.db = some (m'.record j).dbEntry)

/-- The column that is not written is that of the last row that is added, if it is past the rows of
the earlier rounds. -/
theorem missed_renewEntries {record' : Row → RowRecord ι} {db' : List MospfDbEntry}
    (h : Consistent m) (hmarked : ∀ entry ∈ m.db, ¬entry.Marked)
    (hrun : renewEntries m.record m.sup m.db = some (db', record', sup))
    (hpaired : Paired db' record') (hmapped : AllMapped db') (j : Row)
    (hj : (record' j).valid = true) :
    ¬j.val < sup ↔ m.sup < m.db.length ∧ lastAdded m.db = some (record' j).dbEntry := by
  rcases renewEntries_filled hrun h.tight.below hmarked hmapped with
    ⟨hnone, rfl, rfl⟩ | ⟨r, rid, hlast, hfilled⟩
  · rw [hnone]
    exact iff_of_false (fun hge => hge (h.tight.below j hj)) fun hmissed => by cases hmissed.2
  · have hrids := map_rid_renewEntries hrun
    rw [List.filter_eq_self.mpr fun entry hentry => by simpa using hmarked entry hentry] at hrids
    have hlength : db'.length = m.db.length := by simpa using congrArg List.length hrids
    have hrows : (validRows record' (List.finRange maxNodes)).length = m.db.length := by
      rw [← hlength]
      refine hpaired.length_validRows fun entry hentry => ?_
      rw [rowNumber_of_not_marked (not_marked_renewEntries hrun entry hentry)]
      exact hmapped entry hentry
    have hbase := hfilled.base_le_iff
    rw [hrows] at hbase
    have hsup := hfilled.sup_eq
    rw [hlast, ← hbase, Option.some.injEq]
    constructor
    · intro hge
      have hjr : j = r := by
        rcases lt_trichotomy j r with hlt | heq | hgt
        · have hval : j.val < r.val := hlt
          omega
        · exact heq
        · have hbelow := hfilled.above j hgt hj
          omega
      subst hjr
      exact ⟨by omega, hfilled.entry.symm⟩
    · rintro ⟨hle, hrid⟩
      have hjr : j = r :=
        hpaired.row_unique hj (hfilled.below r le_rfl) (hrid.symm.trans hfilled.entry.symm)
      subst hjr
      omega

/-- With at most as many entries as rows, and none of them marked, the renewal has a result. -/
theorem Consistent.renewed (h : Consistent m) (hlen : m.db.length ≤ maxNodes)
    (hmarked : ∀ entry ∈ m.db, ¬entry.Marked) :
    ∃ m' sup, renewMatrix m = some m' ∧ Renewed m m' sup := by
  obtain ⟨⟨db, record, sup⟩, hentries⟩ := renewEntries_isSome m.record m.sup m.db
    fun entry hentry hin => absurd hin (hmarked entry hentry)
  have hbefore : Paired ([] ++ m.db) m.record := h.paired
  have hpaired : Paired ([] ++ db) record := hbefore.renewEntries hentries
  have hmapped : AllMapped db := hbefore.allMapped_renewEntries hentries hlen
  have hnot := not_marked_renewEntries hentries
  have hall : m.db.filter (fun entry => !decide entry.Marked) = m.db :=
    List.filter_eq_self.mpr fun entry hentry => by simpa using hmarked entry hentry
  have hrows : (validRows record (List.finRange maxNodes)).length = db.length :=
    hpaired.length_validRows fun entry hentry => by
      rw [rowNumber_of_not_marked (hnot entry hentry)]
      exact hmapped entry hentry
  have hdist : Paired db fun i => { record i with dist := 0 } := hpaired.dist
  have hcount : (validRows (fun i => { record i with dist := 0 })
      (List.finRange maxNodes)).length = db.length := hrows
  have hmissed := missed_renewEntries h hmarked hentries hpaired hmapped
  obtain ⟨⟨pathMap, k⟩, hedit⟩ := hdist.exists_editRows (le_of_eq hcount.symm) sup
    fun i j => { m.pathMap i j with value := 0 }
  obtain ⟨hlines, hother⟩ := lines_editRows (List.nodup_finRange maxNodes) (fun _ _ _ => rfl)
    (le_of_eq hcount) hedit
  refine ⟨⟨db, fun i => { record i with dist := 0 }, pathMap, k⟩, sup, ?_, ?_⟩
  · exact Option.bind_eq_some_iff.mpr ⟨_, hentries,
      Option.bind_eq_some_iff.mpr ⟨_, hedit, rfl⟩⟩
  · refine ⟨hdist, fun entry hentry => ⟨hnot entry hentry, hmapped entry hentry⟩, ?_,
      fun i => hlines i (List.mem_finRange i), fun i hi j => ?_, ?_⟩
    · rw [map_array_renewEntries hentries, hall]
    · show (pathMap i j).value = 0
      rw [hother i fun hin => hi hin.2]
    · exact hmissed

/-- A cell is one where the last LSA of the entry names a router whose column is written. -/
theorem Renewed.cell (h : Renewed m m' sup) (i j : Row) :
    ((m'.pathMap i j).value = 1 ∧ (m'.record i).valid = true ∧ (m'.record j).valid = true ∧
      j.val < sup ∧ ∃ last ∈ (entryAt m'.db (m'.record i).dbEntry).array.getLast?,
        last.rid = (m'.record j).dbEntry ∧ (m'.pathMap i j).network = last.network ∧
        (m'.pathMap i j).mask = last.mask) ∨
    ((m'.pathMap i j).value = 0 ∧ ((m'.record i).valid = true → (m'.record j).valid = true →
      j.val < sup → ∀ last ∈ (entryAt m'.db (m'.record i).dbEntry).array.getLast?,
        last.rid ≠ (m'.record j).dbEntry)) := by
  by_cases hi : (m'.record i).valid = true
  · rcases h.line i hi j with ⟨hj, last, hlast, hvalid, hrid, hcell⟩ | ⟨hnone, hzero⟩
    · rw [hcell]
      exact .inl ⟨rfl, hi, hvalid, hj, last, hlast, hrid, rfl, rfl⟩
    · exact .inr ⟨hzero, fun _ hvalid hj last hlast hrid =>
        hnone ⟨hj, last, hlast, hvalid, hrid⟩⟩
  · exact .inr ⟨h.zero i hi j, fun hvalid => absurd hvalid hi⟩

/-- The entries before and after a renewal advertise the same. -/
theorem Renewed.mem_adverts_iff (h : Renewed m m' sup) (rid : UInt32) (array : List MospfLsa) :
    (∃ entry ∈ m'.db, entry.rid = rid ∧ entry.array = array) ↔
      ∃ entry ∈ m.db, entry.rid = rid ∧ entry.array = array := by
  have hmem : (rid, array) ∈ m'.db.map (fun entry => (entry.rid, entry.array)) ↔
      (rid, array) ∈ m.db.map fun entry => (entry.rid, entry.array) := by rw [h.adverts]
  simpa only [List.mem_map, Prod.mk.injEq] using hmem

/-- The row of an entry, and the entry of the row. -/
theorem Renewed.exists_row (h : Renewed m m' sup) {entry : MospfDbEntry} (hentry : entry ∈ m.db) :
    ∃ i, (m'.record i).valid = true ∧ (m'.record i).dbEntry = entry.rid ∧
      (entryAt m'.db (m'.record i).dbEntry).array = entry.array := by
  obtain ⟨entry', hmem, hrid, harray⟩ := (h.mem_adverts_iff _ _).mpr ⟨entry, hentry, rfl, rfl⟩
  obtain ⟨hmarked, hmapped⟩ := h.kept entry' hmem
  have hrow : entry'.rowNumber ≠ nodeAdd := by rwa [rowNumber_of_not_marked hmarked]
  obtain ⟨i, -, hvalid, hdb⟩ := (h.paired.owns entry' hmem).resolve_left hrow
  obtain ⟨found, hfound, hfrid, hfind⟩ := h.paired.find?_entry hvalid
  obtain rfl := h.paired.mem_unique hmem hfound (hfrid.trans hdb)
  refine ⟨i, hvalid, hdb.trans hrid, ?_⟩
  rw [entryAt, hfind, Option.getD_some, harray]

theorem Renewed.exists_entry (h : Renewed m m' sup) {i : Row}
    (hvalid : (m'.record i).valid = true) : ∃ entry ∈ m.db,
      entry.rid = (m'.record i).dbEntry ∧
        entry.array = (entryAt m'.db (m'.record i).dbEntry).array := by
  obtain ⟨found, hfound, hrid, hfind⟩ := h.paired.find?_entry hvalid
  obtain ⟨entry, hentry, hsame, harray⟩ := (h.mem_adverts_iff _ _).mp ⟨found, hfound, hrid, rfl⟩
  refine ⟨entry, hentry, hsame, ?_⟩
  rw [entryAt, hfind, Option.getD_some, harray]

theorem Renewed.matchesDatabase (h : Renewed m m' sup) (hnames : LastNames m.db)
    (hunnamed : LastUnnamed m) : MatchesDatabase m' := by
  have hrow (entry : MospfDbEntry) (hentry : entry ∈ m'.db) : ∃ i : Row,
      entry.map2mtx = i.val ∧ (m'.record i).valid = true ∧
        (m'.record i).dbEntry = entry.rid := by
    obtain ⟨hmarked, hmapped⟩ := h.kept entry hentry
    have howns := h.paired.owns entry hentry
    rw [rowNumber_of_not_marked hmarked] at howns
    exact howns.resolve_left hmapped
  refine ⟨hrow, fun entry hentry other hother heq => ?_, fun i j hi hj => ?_, fun i j hone => ?_,
    fun i j hone => ?_, fun i j => ?_⟩
  · obtain ⟨i, hmap, -, hrid⟩ := hrow entry hentry
    obtain ⟨j, hmap', -, hrid'⟩ := hrow other hother
    have hij : i = j := Fin.ext (Int.ofNat_inj.mp ((hmap.symm.trans heq).trans hmap'))
    subst hij
    exact h.paired.mem_unique hother hentry (hrid.symm.trans hrid')
  · rcases h.cell i j with ⟨hone, -, -, -, last, hlast, hrid, -⟩ | ⟨hzero, hnone⟩
    · exact iff_of_true hone ⟨last, List.mem_of_getLast? hlast, hrid⟩
    · refine iff_of_false (by rw [hzero]; decide) ?_
      rintro ⟨lsa, hlsa, hrid⟩
      obtain ⟨entry, hentry, -, harray⟩ := h.exists_entry hi
      obtain ⟨other, hother, horid, -⟩ := h.exists_entry hj
      rw [← harray] at hlsa hnone
      have hin : lsa.rid ∈ m.db.map (·.rid) :=
        List.mem_map.mpr ⟨other, hother, horid.trans hrid.symm⟩
      have hlast := hnames entry hentry lsa hlsa hin
      obtain ⟨last, hmem⟩ : ∃ last, last ∈ entry.array.getLast? :=
        ⟨_, List.getLast?_eq_getLast_of_ne_nil (List.ne_nil_of_mem hlsa)⟩
      have hge : ¬j.val < sup := fun hlt =>
        hnone hi hj hlt last hmem ((hlast last hmem).trans hrid)
      obtain ⟨hmore, hadded⟩ := (h.missed j hj).mp hge
      exact hunnamed hmore _ hadded entry hentry lsa hlsa hrid
  · rcases h.cell i j with ⟨-, -, -, -, last, hlast, hcell⟩ | ⟨hzero, -⟩
    · exact ⟨last, List.mem_of_getLast? hlast, hcell⟩
    · rw [hzero] at hone
      cases hone
  · rcases h.cell i j with ⟨-, hi, hj, -⟩ | ⟨hzero, -⟩
    · exact ⟨hi, hj⟩
    · rw [hzero] at hone
      cases hone
  · rcases h.cell i j with ⟨hone, -⟩ | ⟨hzero, -⟩
    · exact .inl hone
    · exact .inr hzero

/-- After `renew_matrix` the matrix is that of the database exactly where the last LSA of each entry
names all its routers, and the router of a row past the earlier ones is not named. -/
theorem renewMatrix_matches_iff (h : Consistent m) (hlen : m.db.length ≤ maxNodes)
    (hmarked : ∀ entry ∈ m.db, ¬entry.Marked) :
    ∃ m', renewMatrix m = some m' ∧
      (MatchesDatabase m' ↔ LastNames m.db ∧ LastUnnamed m) := by
  obtain ⟨m', sup, hrun, hrenewed⟩ := h.renewed hlen hmarked
  refine ⟨m', hrun, fun hmatch => ?_, fun hcond => hrenewed.matchesDatabase hcond.1 hcond.2⟩
  -- An LSA that names a router of the database makes its cell one.
  have hcell (entry : MospfDbEntry) (hentry : entry ∈ m.db) (lsa : MospfLsa)
      (hlsa : lsa ∈ entry.array) (hin : lsa.rid ∈ m.db.map (·.rid)) : ∃ j,
        (m'.record j).valid = true ∧ (m'.record j).dbEntry = lsa.rid ∧ j.val < sup ∧
        ∃ last ∈ entry.array.getLast?, last.rid = lsa.rid := by
    obtain ⟨other, hother, horid⟩ := List.mem_map.mp hin
    obtain ⟨i, hi, -, harray⟩ := hrenewed.exists_row hentry
    obtain ⟨j, hj, hjrid, -⟩ := hrenewed.exists_row hother
    have hnamed : lsa.rid = (m'.record j).dbEntry := (hjrid.trans horid).symm
    have hone : (m'.pathMap i j).value = 1 :=
      (hmatch.edge i j hi hj).mpr ⟨lsa, by rw [harray]; exact hlsa, hnamed⟩
    rcases hrenewed.cell i j with ⟨-, -, -, hlt, last, hlast, hrid, -⟩ | ⟨hzero, -⟩
    · rw [harray] at hlast
      exact ⟨j, hj, hnamed.symm, hlt, last, hlast, hrid.trans hnamed.symm⟩
    · rw [hzero] at hone
      cases hone
  refine ⟨fun entry hentry lsa hlsa hin last hlast => ?_,
    fun hmore rid hrid entry hentry lsa hlsa hnamed => ?_⟩
  · obtain ⟨j, -, -, -, last', hlast', hrid⟩ := hcell entry hentry lsa hlsa hin
    obtain rfl := Option.mem_unique hlast hlast'
    exact hrid
  · obtain ⟨added, hadded, rfl⟩ := Option.map_eq_some_iff.mp hrid
    have hin : lsa.rid ∈ m.db.map (·.rid) := by
      rw [hnamed]
      exact List.mem_map_of_mem (List.mem_filter.mp (List.mem_of_getLast? hadded)).1
    obtain ⟨j, hj, hjrid, hlt, -⟩ := hcell entry hentry lsa hlsa hin
    refine (hrenewed.missed j hj).mpr ⟨hmore, ?_⟩ hlt
    rw [hjrid, hnamed]
    exact hrid

end Renewal

section Runs

variable {routerId : UInt32} {kernel : List (RtEntry ι)} {s : Daemon ι}

theorem Consistent.step {e : DaemonEvent ι} {t : Daemon ι} {start : ℕ}
    (h : Consistent s.matrix) (hstep : s.step routerId start e = some t) :
    Consistent t.matrix := by
  cases e with
  | lsu lsu =>
    obtain rfl := Option.some.inj hstep
    exact ⟨h.paired.deliver routerId lsu, h.tight⟩
  | check =>
    obtain rfl := Option.some.inj hstep
    exact ⟨h.paired.check, h.tight⟩
  | neighbours ifaceList =>
    obtain rfl := Option.some.inj hstep
    exact h
  | renewMatrix =>
    rw [Daemon.step] at hstep
    split_ifs at hstep
    obtain ⟨matrix, hrenew, rfl⟩ := Option.map_eq_some_iff.mp hstep
    exact ⟨h.paired.renewMatrix hrenew, tight_renewMatrix h.paired hrenew⟩
  | calcPath =>
    rw [Daemon.step] at hstep
    split_ifs at hstep
    obtain ⟨c, -, rfl⟩ := Option.map_eq_some_iff.mp hstep
    exact ⟨⟨h.paired.nodup, h.paired.owns, h.paired.owned⟩, ⟨h.tight.below, h.tight.last⟩⟩

theorem Daemon.Initial.consistent (h : s.Initial kernel) : Consistent s.matrix := by
  obtain ⟨hdb, hrecord, hsup, -, -⟩ := h
  refine ⟨.of_empty hdb hrecord, ⟨fun i hi => ?_, .inl hsup⟩⟩
  rw [hrecord i] at hi
  cases hi

theorem consistent_of_reaches {start : ℕ}
    (h : Reaches (Daemon.step routerId start) anyStep (Daemon.Initial kernel) s) :
    Consistent s.matrix :=
  h.invariant (fun s => Consistent s.matrix) (fun _ => Daemon.Initial.consistent)
    fun _ _ _ hs _ => hs.step

instance (db : List MospfDbEntry) : Decidable (LastNames db) :=
  inferInstanceAs (Decidable (∀ entry ∈ db, ∀ lsa ∈ entry.array, _ → ∀ last ∈ _, _))

instance (m : Matrix ι) : Decidable (LastUnnamed m) :=
  inferInstanceAs (Decidable (_ → ∀ rid ∈ _, ∀ entry ∈ m.db, ∀ lsa ∈ entry.array, _))

/-- Routers 2 and 3 name each other. -/
def pairEvents : List (DaemonEvent Unit) :=
  [.lsu ⟨2, 0, [⟨0x0a000200, 0xffffff00, 3⟩]⟩, .lsu ⟨3, 0, [⟨0x0a000200, 0xffffff00, 2⟩]⟩]

/-- In the second round both columns are written. -/
theorem renewMatrix_matches_pair : ∃ (s : Daemon Unit) (m' : Matrix Unit),
    s.matrix.db.length = 2 ∧ renewMatrix s.matrix = some m' ∧ MatchesDatabase m' := by
  obtain ⟨s, hreach, hlen, hmarked, hcond⟩ : ∃ s : Daemon Unit,
      Reaches (Daemon.step 1 oneRoute.length) anyStep (Daemon.Initial oneRoute) s ∧
        s.matrix.db.length = 2 ∧ (∀ entry ∈ s.matrix.db, ¬entry.Marked) ∧
        LastNames s.matrix.db ∧ LastUnnamed s.matrix :=
    exists_of_exec initial_oneInterface (pairEvents ++ [.renewMatrix, .calcPath]) _
      (by decide +kernel)
  obtain ⟨m', hrun, hiff⟩ := renewMatrix_matches_iff (consistent_of_reaches hreach)
    (by rw [hlen]; decide) hmarked
  exact ⟨s, m', hlen, hrun, hiff.mpr hcond⟩

/-- Router 2 names 3 and 4. The LSA for 4 clears the cell of 3, and the column of 4 is that of the
row `sup`. -/
theorem renewMatrix_misses_edges : ∃ s : Daemon Unit,
    Reaches (Daemon.step 1 oneRoute.length) anyStep (Daemon.Initial oneRoute) s ∧
    s.renewed = false ∧ s.matrix.db.length ≤ maxNodes ∧
    (∀ entry ∈ s.matrix.db, ¬entry.Marked) ∧
    ∃ m', renewMatrix s.matrix = some m' ∧ (m'.pathMap 0 1).value = 0 ∧
      (m'.pathMap 0 2).value = 0 ∧ ¬MatchesDatabase m' := by
  obtain ⟨s, hreach, hrenewed, hlen, hmarked, hcell⟩ : ∃ s : Daemon Unit,
      Reaches (Daemon.step 1 oneRoute.length) anyStep (Daemon.Initial oneRoute) s ∧
        s.renewed = false ∧ s.matrix.db.length ≤ maxNodes ∧
        (∀ entry ∈ s.matrix.db, ¬entry.Marked) ∧ (renewMatrix s.matrix).any (fun m' => decide
          ((m'.pathMap 0 1).value = 0 ∧ (m'.pathMap 0 2).value = 0 ∧
            (m'.record 0).valid = true ∧ (m'.record 1).valid = true ∧
            ∃ lsa ∈ (entryAt m'.db (m'.record 0).dbEntry).array,
              lsa.rid = (m'.record 1).dbEntry)) = true :=
    exists_of_exec initial_oneInterface
      [.lsu ⟨2, 0, [⟨0x0a000200, 0xffffff00, 3⟩, ⟨0x0a000300, 0xffffff00, 4⟩]⟩,
        .lsu ⟨3, 0, []⟩, .lsu ⟨4, 0, []⟩] _ (by decide +kernel)
  cases hrun : renewMatrix s.matrix with
  | none =>
    rw [hrun] at hcell
    cases hcell
  | some m' =>
    rw [hrun, Option.any_some, decide_eq_true_iff] at hcell
    obtain ⟨hone, htwo, hvalid, hvalid', hnamed⟩ := hcell
    refine ⟨s, hreach, hrenewed, hlen, hmarked, m', hrun, hone, htwo, fun hmatch => ?_⟩
    rw [(hmatch.edge 0 1 hvalid hvalid').mpr hnamed] at hone
    cases hone

end Runs

end NetworkLab.Mospf
