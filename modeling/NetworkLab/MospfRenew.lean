import NetworkLab.MospfDatabase

/-!
# Rows of the matrix

`renew_matrix` and `checking_database_thread`. The field `map2mtx` of an entry is the number of
its row, `NODE_ADD` before it has one, and the difference of that to `NODE_DELETE` when the
entry has been marked for deletion; each check of a stale entry takes the difference again.
-/
namespace NetworkLab.Mospf

variable {ι : Type}

section Model

/-- A row of `record`. The pointer to the entry is given by the entry's router, and an invalid
row is as earlier rounds have left it. -/
structure RowRecord (ι : Type) where
  dbEntry : UInt32
  valid : Bool
  dist : ℕ
  gw : UInt32
  iface : ι

/-- The globals of `mospf_database.c`. -/
structure Matrix (ι : Type) where
  db : List MospfDbEntry
  record : Row → RowRecord ι
  pathMap : Row → Row → NetInfo
  sup : ℕ

/-- An entry after a round of `checking_database_thread`. -/
def MospfDbEntry.check (entry : MospfDbEntry) : MospfDbEntry :=
  let alive := entry.alive - 5
  if alive ≤ 0 then { entry with alive := alive, map2mtx := nodeDelete - entry.map2mtx }
  else { entry with alive := alive }

/-- The entry has been marked for deletion. -/
def MospfDbEntry.Marked (entry : MospfDbEntry) : Prop := entry.map2mtx ≤ nodeDelete

instance (entry : MospfDbEntry) : Decidable entry.Marked := inferInstanceAs (Decidable (_ ≤ _))

/-- The row with this number, if there is one. -/
def rowAt (n : ℤ) : Option Row :=
  if h : 0 ≤ n ∧ n < maxNodes then some ⟨n.toNat, (Int.toNat_lt h.1).mpr h.2⟩ else none

/-- The first row that is free. -/
def freeRow (record : Row → RowRecord ι) : Option Row :=
  (List.finRange maxNodes).find? fun i => !(record i).valid

/-- The first loop of `renew_matrix`. A write to a row that does not exist has no defined
result. -/
def renewEntries (record : Row → RowRecord ι) (sup : ℕ) :
    List MospfDbEntry → Option (List MospfDbEntry × (Row → RowRecord ι) × ℕ)
  | [] => some ([], record, sup)
  | entry :: db =>
    if entry.map2mtx ≤ nodeDelete then
      match rowAt (nodeDelete - entry.map2mtx) with
      | none => none
      | some i => renewEntries (Function.update record i { record i with valid := false }) sup db
    else if entry.map2mtx = nodeAdd then
      match freeRow record with
      | none => (renewEntries record sup db).map fun r => (entry :: r.1, r.2)
      | some i =>
        (renewEntries
          (Function.update record i { record i with valid := true, dbEntry := entry.rid })
          (if sup < i.val then i.val else sup) db).map
          fun r => ({ entry with map2mtx := i.val } :: r.1, r.2)
    else (renewEntries record sup db).map fun r => (entry :: r.1, r.2)

/-- The inner loop of `edit_mtx`. -/
def editLsa (record : Row → RowRecord ι) (sup : ℕ) (line : Row) (pathMap : Row → Row → NetInfo)
    (lsa : MospfLsa) : Row → Row → NetInfo :=
  fun i j =>
    if i = line ∧ j.val < sup then
      if (record j).valid = true ∧ (record j).dbEntry = lsa.rid then ⟨lsa.network, lsa.mask, 1⟩
      else { pathMap i j with value := 0 }
    else pathMap i j

/-- `edit_mtx`. -/
def editMtx (db : List MospfDbEntry) (record : Row → RowRecord ι) (sup : ℕ)
    (pathMap : Row → Row → NetInfo) (line : Row) : Option (Row → Row → NetInfo) := do
  let entry ← db.find? fun entry => decide (entry.rid = (record line).dbEntry)
  some (entry.array.foldl (editLsa record sup line) pathMap)

/-- The loop `while (count)` over the rows that are left, with the number of those before. -/
def editRows (db : List MospfDbEntry) (record : Row → RowRecord ι) (sup : ℕ) :
    List Row → ℕ → (Row → Row → NetInfo) → ℕ → Option ((Row → Row → NetInfo) × ℕ)
  | _, 0, pathMap, i => some (pathMap, i)
  | [], _ + 1, _, _ => none
  | line :: rows, count + 1, pathMap, i =>
    if (record line).valid then do
      let pathMap ← editMtx db record sup pathMap line
      editRows db record sup rows count pathMap (i + 1)
    else editRows db record sup rows (count + 1) pathMap (i + 1)

/-- `renew_matrix`. -/
def renewMatrix (m : Matrix ι) : Option (Matrix ι) := do
  let (db, record, sup) ← renewEntries m.record m.sup m.db
  let record := fun i => { record i with dist := 0 }
  let pathMap := fun i j => { m.pathMap i j with value := 0 }
  let (pathMap, i) ← editRows db record sup (List.finRange maxNodes) db.length pathMap 0
  some ⟨db, record, pathMap, i⟩

end Model

section Loop

variable {record record' : Row → RowRecord ι} {sup sup' : ℕ} {db db' : List MospfDbEntry}

theorem rowAt_natCast (i : Row) : rowAt (i.val : ℤ) = some i := by
  have hlt : (i.val : ℤ) < maxNodes := Int.ofNat_lt.mpr i.isLt
  rw [rowAt, dif_pos ⟨Int.natCast_nonneg _, hlt⟩]
  rfl

theorem rowAt_eq_some_iff {n : ℤ} {i : Row} : rowAt n = some i ↔ n = i.val := by
  constructor
  · intro h
    rw [rowAt] at h
    split_ifs at h with hn
    obtain rfl := Option.some.inj h
    exact (Int.toNat_of_nonneg hn.1).symm
  · rintro rfl
    exact rowAt_natCast i

/-- Induction over a run of the loop `while (count)`: it ends when the entries are counted, and
before that it writes the line of a valid row and goes past any other row. -/
theorem editRows_induction {pathMap' : Row → Row → NetInfo} {k : ℕ}
    {motive : List Row → ℕ → (Row → Row → NetInfo) → ℕ → Prop}
    (done : ∀ rows, motive rows 0 pathMap' k)
    (edit : ∀ line rows count pathMap i entry, (record line).valid = true →
      db.find? (fun entry => decide (entry.rid = (record line).dbEntry)) = some entry →
      motive rows count (entry.array.foldl (editLsa record sup line) pathMap) (i + 1) →
      motive (line :: rows) (count + 1) pathMap i)
    (skip : ∀ line rows count pathMap i, (record line).valid ≠ true →
      motive rows (count + 1) pathMap (i + 1) → motive (line :: rows) (count + 1) pathMap i)
    {rows : List Row} {count i : ℕ} {pathMap : Row → Row → NetInfo}
    (h : editRows db record sup rows count pathMap i = some (pathMap', k)) :
    motive rows count pathMap i := by
  induction rows generalizing count pathMap i with
  | nil =>
    cases count with
    | zero =>
      obtain ⟨rfl, rfl⟩ := Prod.mk.inj (Option.some.inj h)
      exact done []
    | succ count => cases h
  | cons line rows ih =>
    cases count with
    | zero =>
      obtain ⟨rfl, rfl⟩ := Prod.mk.inj (Option.some.inj h)
      exact done (line :: rows)
    | succ count =>
      rw [editRows] at h
      by_cases hvalid : (record line).valid = true
      · rw [if_pos hvalid] at h
        obtain ⟨pathMap₁, hedit, hrest⟩ := Option.bind_eq_some_iff.mp h
        obtain ⟨entry, hentry, heq⟩ := Option.bind_eq_some_iff.mp hedit
        obtain rfl := Option.some.inj heq
        exact edit line rows count pathMap i entry hvalid hentry (ih hrest)
      · rw [if_neg hvalid] at h
        exact skip line rows count pathMap i hvalid (ih h)

/-- What the loop does with its first entry: it is taken out, kept as it is, or given a row. -/
theorem renewEntries_cons {entry : MospfDbEntry}
    (h : renewEntries record sup (entry :: db) = some (db', record', sup')) :
    (entry.Marked ∧ ∃ i : Row, nodeDelete - entry.map2mtx = i.val ∧
      renewEntries (Function.update record i { record i with valid := false }) sup db =
        some (db', record', sup')) ∨
    (¬entry.Marked ∧ (entry.map2mtx = nodeAdd → freeRow record = none) ∧
      ∃ kept, db' = entry :: kept ∧ renewEntries record sup db = some (kept, record', sup')) ∨
    ¬entry.Marked ∧ entry.map2mtx = nodeAdd ∧ ∃ i kept, freeRow record = some i ∧
      db' = { entry with map2mtx := i.val } :: kept ∧
      renewEntries (Function.update record i
        { record i with valid := true, dbEntry := entry.rid })
        (if sup < i.val then i.val else sup) db = some (kept, record', sup') := by
  rw [renewEntries] at h
  have hkeep {o : Option (List MospfDbEntry × (Row → RowRecord ι) × ℕ)} {entry' : MospfDbEntry}
      (h : o.map (fun r => (entry' :: r.1, r.2)) = some (db', record', sup')) :
      ∃ kept, db' = entry' :: kept ∧ o = some (kept, record', sup') := by
    obtain ⟨⟨kept, rest⟩, hrest, heq⟩ := Option.map_eq_some_iff.mp h
    obtain ⟨rfl, rfl⟩ := Prod.mk.inj heq
    exact ⟨kept, rfl, hrest⟩
  by_cases hmarked : entry.map2mtx ≤ nodeDelete
  · rw [if_pos hmarked] at h
    cases hrow : rowAt (nodeDelete - entry.map2mtx) with
    | none =>
      rw [hrow] at h
      cases h
    | some i =>
      rw [hrow] at h
      exact .inl ⟨hmarked, i, rowAt_eq_some_iff.mp hrow, h⟩
  · rw [if_neg hmarked] at h
    by_cases hadd : entry.map2mtx = nodeAdd
    · rw [if_pos hadd] at h
      cases hfree : freeRow record with
      | none =>
        rw [hfree] at h
        exact .inr (.inl ⟨hmarked, fun _ => rfl, hkeep h⟩)
      | some i =>
        rw [hfree] at h
        obtain ⟨kept, hdb, hrest⟩ := hkeep h
        exact .inr (.inr ⟨hmarked, hadd, i, kept, rfl, hdb, hrest⟩)
    · rw [if_neg hadd] at h
      exact .inr (.inl ⟨hmarked, fun h => absurd h hadd, hkeep h⟩)

/-- The loop takes out the marked entries and no others, and changes rows only. -/
theorem map_renewEntries {β : Type*} (f : MospfDbEntry → β)
    (hf : ∀ entry row, f { entry with map2mtx := row } = f entry)
    (h : renewEntries record sup db = some (db', record', sup')) :
    db'.map f = (db.filter fun entry => !decide entry.Marked).map f := by
  induction db generalizing record sup db' with
  | nil =>
    obtain ⟨rfl, -⟩ := Prod.mk.inj (Option.some.inj h)
    rfl
  | cons entry db ih =>
    rcases renewEntries_cons h with ⟨hmarked, i, -, hrest⟩ | ⟨hmarked, -, kept, rfl, hrest⟩ |
      ⟨hmarked, -, i, kept, -, rfl, hrest⟩
    · rw [List.filter_cons_of_neg (by simpa using hmarked)]
      exact ih hrest
    · rw [List.filter_cons_of_pos (by simpa using hmarked), List.map_cons, List.map_cons, ih hrest]
    · rw [List.filter_cons_of_pos (by simpa using hmarked), List.map_cons, List.map_cons, ih hrest,
        hf]

theorem map_rid_renewEntries (h : renewEntries record sup db = some (db', record', sup')) :
    db'.map (·.rid) = (db.filter fun entry => !decide entry.Marked).map (·.rid) :=
  map_renewEntries _ (fun _ _ => rfl) h

/-- After the loop no entry is marked. -/
theorem not_marked_renewEntries (h : renewEntries record sup db = some (db', record', sup')) :
    ∀ entry ∈ db', ¬entry.Marked := by
  induction db generalizing record sup db' with
  | nil =>
    obtain ⟨rfl, -⟩ := Prod.mk.inj (Option.some.inj h)
    exact fun entry hentry => absurd hentry List.not_mem_nil
  | cons first db ih =>
    rcases renewEntries_cons h with ⟨-, i, -, hrest⟩ | ⟨hmarked, -, kept, rfl, hrest⟩ |
      ⟨-, -, i, kept, -, rfl, hrest⟩
    · exact ih hrest
    · exact List.forall_mem_cons.mpr ⟨hmarked, ih hrest⟩
    · refine List.forall_mem_cons.mpr ⟨?_, ih hrest⟩
      have hdelete : nodeDelete < 0 := by decide
      show ¬(i.val : ℤ) ≤ nodeDelete
      omega

/-- The loop has a defined result where all marked entries have rows. -/
theorem renewEntries_isSome (record : Row → RowRecord ι) (sup : ℕ) (db : List MospfDbEntry)
    (h : ∀ entry ∈ db, entry.Marked → ∃ i : Row, nodeDelete - entry.map2mtx = i.val) :
    ∃ r, renewEntries record sup db = some r := by
  induction db generalizing record sup with
  | nil => exact ⟨_, rfl⟩
  | cons entry db ih =>
    have ih' (record : Row → RowRecord ι) (sup : ℕ) :=
      ih record sup fun entry hentry => h entry (List.mem_cons_of_mem _ hentry)
    rw [renewEntries]
    by_cases hmarked : entry.map2mtx ≤ nodeDelete
    · obtain ⟨i, hi⟩ := h entry List.mem_cons_self hmarked
      rw [if_pos hmarked, hi, rowAt_natCast]
      exact ih' _ _
    · have hmap {record : Row → RowRecord ι} {sup : ℕ} {entry' : MospfDbEntry} :
          ∃ r, (renewEntries record sup db).map (fun r => (entry' :: r.1, r.2)) = some r := by
        obtain ⟨r, hr⟩ := ih' record sup
        exact ⟨_, by rw [hr, Option.map_some]⟩
      rw [if_neg hmarked]
      by_cases hadd : entry.map2mtx = nodeAdd
      · rw [if_pos hadd]
        cases freeRow record with
        | none => exact hmap
        | some i => exact hmap
      · rw [if_neg hadd]
        exact hmap

end Loop

section Rows

/-- The number of the entry's row, or `NODE_ADD`, whether the entry is marked or not. -/
def MospfDbEntry.rowNumber (entry : MospfDbEntry) : ℤ :=
  if entry.Marked then nodeDelete - entry.map2mtx else entry.map2mtx

/-- Entries and rows belong together: an entry has a row of its own or none, and a valid row
has an entry. -/
structure Paired (db : List MospfDbEntry) (record : Row → RowRecord ι) : Prop where
  nodup : (db.map (·.rid)).Nodup
  owns : ∀ entry ∈ db, entry.rowNumber = nodeAdd ∨ ∃ i : Row, entry.rowNumber = i.val ∧
    (record i).valid = true ∧ (record i).dbEntry = entry.rid
  owned : ∀ i, (record i).valid = true → ∃ entry ∈ db, entry.rid = (record i).dbEntry ∧
    entry.rowNumber = i.val

variable {record record' : Row → RowRecord ι} {sup sup' : ℕ} {db db' : List MospfDbEntry}
  {entry : MospfDbEntry} {routerId : UInt32} {lsu : Lsu}

theorem nodeAdd_eq : nodeAdd = 10 := rfl

theorem nodeDelete_eq : nodeDelete = -10 := rfl

theorem Row.natCast_lt (i : Row) : (i.val : ℤ) < 10 := Int.ofNat_lt.mpr i.isLt

theorem rowNumber_of_marked (h : entry.Marked) : entry.rowNumber = nodeDelete - entry.map2mtx :=
  if_pos h

theorem rowNumber_of_not_marked (h : ¬entry.Marked) : entry.rowNumber = entry.map2mtx := if_neg h

theorem Paired.of_empty (hdb : db = []) (hrecord : ∀ i, (record i).valid = false) :
    Paired db record := by
  subst hdb
  refine ⟨List.nodup_nil, fun entry hentry => absurd hentry List.not_mem_nil, fun i hi => ?_⟩
  rw [hrecord i] at hi
  cases hi

theorem Paired.rowNumber_mem (h : Paired db record) (hentry : entry ∈ db) :
    0 ≤ entry.rowNumber ∧ entry.rowNumber ≤ 10 := by
  rcases h.owns entry hentry with hadd | ⟨i, hi, -⟩
  · rw [hadd, nodeAdd_eq]
    omega
  · have hlt := Row.natCast_lt i
    omega

/-- A check keeps the row, however often an entry is marked. -/
theorem rowNumber_check (h : 0 ≤ entry.rowNumber ∧ entry.rowNumber ≤ 10) :
    entry.check.rowNumber = entry.rowNumber := by
  have hdelete := nodeDelete_eq
  rw [MospfDbEntry.check]
  by_cases halive : entry.alive - 5 ≤ 0
  · simp only [if_pos halive]
    by_cases hmarked : entry.Marked
    · have hmap : entry.map2mtx ≤ nodeDelete := hmarked
      rw [rowNumber_of_marked hmarked] at h ⊢
      refine (rowNumber_of_not_marked ?_).trans ?_
      · show ¬nodeDelete - entry.map2mtx ≤ nodeDelete
        omega
      · rfl
    · rw [rowNumber_of_not_marked hmarked] at h ⊢
      refine (rowNumber_of_marked ?_).trans ?_
      · show nodeDelete - entry.map2mtx ≤ nodeDelete
        omega
      · show nodeDelete - (nodeDelete - entry.map2mtx) = entry.map2mtx
        omega
  · simp only [if_neg halive]
    rfl

theorem rid_check (entry : MospfDbEntry) : entry.check.rid = entry.rid := by
  rw [MospfDbEntry.check]
  split_ifs <;> rfl

theorem Paired.check (h : Paired db record) : Paired (db.map MospfDbEntry.check) record := by
  refine ⟨?_, fun entry hentry => ?_, fun i hi => ?_⟩
  · have hrids : (db.map MospfDbEntry.check).map (·.rid) = db.map (·.rid) := by
      rw [List.map_map]
      exact List.map_congr_left fun entry _ => rid_check entry
    rw [hrids]
    exact h.nodup
  · obtain ⟨old, hold, rfl⟩ := List.mem_map.mp hentry
    rw [rowNumber_check (h.rowNumber_mem hold), rid_check]
    exact h.owns old hold
  · obtain ⟨entry, hentry, hrid, hrow⟩ := h.owned i hi
    refine ⟨entry.check, List.mem_map_of_mem hentry, ?_, ?_⟩
    · rw [rid_check, hrid]
    · rw [rowNumber_check (h.rowNumber_mem hentry), hrow]

/-- The entries after an LSU has been stored: the new one, and the old ones with their rows. -/
theorem storeLsu_cases (h : storeLsu db lsu = some db') :
    (∀ entry ∈ db', entry = newEntry lsu ∨ ∃ old ∈ db, entry.rid = old.rid ∧
      entry.map2mtx = old.map2mtx ∧ (entry = old ∨ entry = old.renew lsu ∧ lsu.rid = old.rid)) ∧
    ∀ old ∈ db, ∃ entry ∈ db', entry.rid = old.rid ∧ entry.map2mtx = old.map2mtx := by
  induction db generalizing db' with
  | nil =>
    obtain rfl := Option.some.inj h
    exact ⟨fun entry hentry => .inl (List.mem_singleton.mp hentry),
      fun old hold => absurd hold List.not_mem_nil⟩
  | cons first db ih =>
    rw [storeLsu] at h
    by_cases hrid : lsu.rid = first.rid
    · rw [if_pos hrid] at h
      split_ifs at h
      obtain rfl := Option.some.inj h
      refine ⟨fun entry hentry => .inr ?_, fun old hold => ?_⟩
      · rcases List.mem_cons.mp hentry with rfl | hentry
        · exact ⟨first, List.mem_cons_self, rfl, rfl, .inr ⟨rfl, hrid⟩⟩
        · exact ⟨entry, List.mem_cons_of_mem _ hentry, rfl, rfl, .inl rfl⟩
      · rcases List.mem_cons.mp hold with rfl | hold
        · exact ⟨_, List.mem_cons_self, rfl, rfl⟩
        · exact ⟨old, List.mem_cons_of_mem _ hold, rfl, rfl⟩
    · rw [if_neg hrid, Option.map_eq_some_iff] at h
      obtain ⟨db₁, hstore, rfl⟩ := h
      obtain ⟨hnew, hold⟩ := ih hstore
      refine ⟨fun entry hentry => ?_, fun old hold' => ?_⟩
      · rcases List.mem_cons.mp hentry with rfl | hentry
        · exact .inr ⟨entry, List.mem_cons_self, rfl, rfl, .inl rfl⟩
        · rcases hnew entry hentry with hfresh | ⟨old, hmem, hsame⟩
          · exact .inl hfresh
          · exact .inr ⟨old, List.mem_cons_of_mem _ hmem, hsame⟩
      · rcases List.mem_cons.mp hold' with rfl | hold'
        · exact ⟨old, List.mem_cons_self, rfl, rfl⟩
        · obtain ⟨entry, hentry, hsame⟩ := hold old hold'
          exact ⟨entry, List.mem_cons_of_mem _ hentry, hsame⟩

/-- After an LSU has been stored, an entry has been written by it or is an old one of another
router. -/
theorem mem_storeLsu (h : storeLsu db lsu = some db') (hdb : (db.map (·.rid)).Nodup)
    (hentry : entry ∈ db') :
    (entry = newEntry lsu ∨ ∃ old ∈ db, old.rid = lsu.rid ∧ entry = old.renew lsu) ∨
      entry ∈ db ∧ entry.rid ≠ lsu.rid := by
  induction db generalizing db' with
  | nil =>
    obtain rfl := Option.some.inj h
    exact .inl (.inl (List.mem_singleton.mp hentry))
  | cons first db ih =>
    obtain ⟨hfirst, hrest⟩ := List.nodup_cons.mp hdb
    rw [storeLsu] at h
    by_cases hrid : lsu.rid = first.rid
    · rw [if_pos hrid] at h
      split_ifs at h
      obtain rfl := Option.some.inj h
      rcases List.mem_cons.mp hentry with rfl | hentry
      · exact .inl (.inr ⟨first, List.mem_cons_self, hrid.symm, rfl⟩)
      · refine .inr ⟨List.mem_cons_of_mem _ hentry, fun heq => hfirst ?_⟩
        have hsame : entry.rid = first.rid := heq.trans hrid
        exact List.mem_map.mpr ⟨entry, hentry, hsame⟩
    · rw [if_neg hrid, Option.map_eq_some_iff] at h
      obtain ⟨db₁, hstore, rfl⟩ := h
      rcases List.mem_cons.mp hentry with rfl | hentry
      · exact .inr ⟨List.mem_cons_self, Ne.symm hrid⟩
      · rcases ih hstore hrest hentry with (hnew | ⟨old, hold, hsame⟩) | ⟨hold, hne⟩
        · exact .inl (.inl hnew)
        · exact .inl (.inr ⟨old, List.mem_cons_of_mem _ hold, hsame⟩)
        · exact .inr ⟨List.mem_cons_of_mem _ hold, hne⟩

theorem rowNumber_congr {old : MospfDbEntry} (h : entry.map2mtx = old.map2mtx) :
    entry.rowNumber = old.rowNumber := by
  have hmarked : entry.Marked ↔ old.Marked := by
    unfold MospfDbEntry.Marked
    rw [h]
  rw [MospfDbEntry.rowNumber, MospfDbEntry.rowNumber, h, if_congr hmarked rfl rfl]

theorem Paired.store (h : Paired db record) (hstore : storeLsu db lsu = some db') :
    Paired db' record := by
  obtain ⟨hnew, hold⟩ := storeLsu_cases hstore
  refine ⟨nodup_storeLsu hstore h.nodup, fun entry hentry => ?_, fun i hi => ?_⟩
  · rcases hnew entry hentry with rfl | ⟨old, hmem, hrid, hmap, -⟩
    · left
      rfl
    · rw [rowNumber_congr hmap, hrid]
      exact h.owns old hmem
  · obtain ⟨old, hmem, hrid, hrow⟩ := h.owned i hi
    obtain ⟨entry, hentry, hrid', hmap⟩ := hold old hmem
    exact ⟨entry, hentry, hrid'.trans hrid, (rowNumber_congr hmap).trans hrow⟩

theorem Paired.mem_unique (h : Paired db record) {other : MospfDbEntry} (hentry : entry ∈ db)
    (hother : other ∈ db) (hrid : other.rid = entry.rid) : other = entry :=
  List.inj_on_of_nodup_map h.nodup hother hentry hrid

/-- The entry leaves its row. -/
theorem Paired.remove {done : List MospfDbEntry} {i : Row}
    (h : Paired (done ++ entry :: db) record) (hrow : entry.rowNumber = i.val) :
    Paired (done ++ db) (Function.update record i { record i with valid := false }) := by
  have hsub : (done ++ db).Sublist (done ++ entry :: db) :=
    (List.sublist_cons_self entry db).append_left done
  have hmem : entry ∈ done ++ entry :: db := List.mem_append_right _ List.mem_cons_self
  have howner : (record i).valid = true ∧ (record i).dbEntry = entry.rid := by
    rcases h.owns entry hmem with hadd | ⟨j, hj, hvalid, hrid⟩
    · have hlt := Row.natCast_lt i
      rw [hrow, nodeAdd_eq] at hadd
      omega
    · have hij : i = j := Fin.ext (Int.ofNat_inj.mp (hrow.symm.trans hj))
      exact hij ▸ ⟨hvalid, hrid⟩
  have hnodup := h.nodup
  -- No other entry has the router of this one.
  have hother (other : MospfDbEntry) (hin : other ∈ done ++ db) : other.rid ≠ entry.rid := by
    intro hrid
    rw [List.map_append, List.map_cons, List.nodup_append] at hnodup
    rcases List.mem_append.mp hin with hdone | hdb
    · exact hnodup.2.2 other.rid (List.mem_map_of_mem hdone) entry.rid List.mem_cons_self hrid
    · exact (List.nodup_cons.mp hnodup.2.1).1 (hrid ▸ List.mem_map_of_mem hdb)
  refine ⟨(hsub.map _).nodup h.nodup, fun other hin => ?_, fun j hj => ?_⟩
  · rcases h.owns other (hsub.subset hin) with hadd | ⟨j, hj, hvalid, hrid⟩
    · exact .inl hadd
    · have hne : j ≠ i := by
        rintro rfl
        exact hother other hin (hrid.symm.trans howner.2)
      refine .inr ⟨j, hj, ?_⟩
      rw [Function.update_of_ne hne]
      exact ⟨hvalid, hrid⟩
  · have hne : j ≠ i := by
      rintro rfl
      rw [Function.update_self] at hj
      cases hj
    rw [Function.update_of_ne hne] at hj ⊢
    obtain ⟨other, hin, hrid, hnum⟩ := h.owned j hj
    refine ⟨other, ?_, hrid, hnum⟩
    rcases List.mem_append.mp hin with hdone | hdb
    · exact List.mem_append_left _ hdone
    · rcases List.mem_cons.mp hdb with rfl | hdb
      · exact absurd (Fin.ext (Int.ofNat_inj.mp (hnum.symm.trans hrow))) hne
      · exact List.mem_append_right _ hdb

/-- The entry gets a row that was free. -/
theorem Paired.assign {done : List MospfDbEntry} {i : Row}
    (h : Paired (done ++ entry :: db) record) (hfree : (record i).valid = false)
    (hadd : entry.rowNumber = nodeAdd) :
    Paired (done ++ { entry with map2mtx := i.val } :: db)
      (Function.update record i { record i with valid := true, dbEntry := entry.rid }) := by
  have hmem : entry ∈ done ++ entry :: db := List.mem_append_right _ List.mem_cons_self
  have hnumber : ({ entry with map2mtx := i.val } : MospfDbEntry).rowNumber = i.val := by
    refine rowNumber_of_not_marked ?_
    have hdelete := nodeDelete_eq
    show ¬(i.val : ℤ) ≤ nodeDelete
    omega
  -- An old entry with a row has another one.
  have hne {j : Row} (hvalid : (record j).valid = true) : j ≠ i := by
    rintro rfl
    rw [hfree] at hvalid
    cases hvalid
  refine ⟨?_, fun other hin => ?_, fun j hj => ?_⟩
  · have hnodup := h.nodup
    rw [List.map_append, List.map_cons] at hnodup ⊢
    exact hnodup
  · have hcases : other = { entry with map2mtx := i.val } ∨ other ∈ done ++ entry :: db := by
      rcases List.mem_append.mp hin with hdone | hrest
      · exact .inr (List.mem_append_left _ hdone)
      · rcases List.mem_cons.mp hrest with heq | hdb
        · exact .inl heq
        · exact .inr (List.mem_append_right _ (List.mem_cons_of_mem _ hdb))
    rcases hcases with rfl | hold
    · refine .inr ⟨i, hnumber, ?_⟩
      rw [Function.update_self]
      exact ⟨rfl, rfl⟩
    · rcases h.owns other hold with hnone | ⟨j, hj, hvalid, hrid⟩
      · exact .inl hnone
      · refine .inr ⟨j, hj, ?_⟩
        rw [Function.update_of_ne (hne hvalid)]
        exact ⟨hvalid, hrid⟩
  · by_cases hji : j = i
    · subst hji
      rw [Function.update_self]
      exact ⟨_, List.mem_append_right _ List.mem_cons_self, rfl, hnumber⟩
    · rw [Function.update_of_ne hji] at hj ⊢
      obtain ⟨other, hin, hrid, hnum⟩ := h.owned j hj
      refine ⟨other, ?_, hrid, hnum⟩
      rcases List.mem_append.mp hin with hdone | hrest
      · exact List.mem_append_left _ hdone
      · rcases List.mem_cons.mp hrest with rfl | hdb
        · have hlt := Row.natCast_lt j
          rw [hadd, nodeAdd_eq] at hnum
          omega
        · exact List.mem_append_right _ (List.mem_cons_of_mem _ hdb)

/-- The loop keeps entries and rows together. -/
theorem Paired.renewEntries {done : List MospfDbEntry} (h : Paired (done ++ db) record)
    (hrun : renewEntries record sup db = some (db', record', sup')) :
    Paired (done ++ db') record' := by
  induction db generalizing done record sup db' with
  | nil =>
    obtain ⟨rfl, hrest⟩ := Prod.mk.inj (Option.some.inj hrun)
    obtain ⟨rfl, -⟩ := Prod.mk.inj hrest
    exact h
  | cons entry db ih =>
    -- An entry that is kept goes to those before the rest.
    have hmove (entry' : MospfDbEntry) (db : List MospfDbEntry) :
        done ++ entry' :: db = (done ++ [entry']) ++ db := by
      rw [List.append_assoc]
      rfl
    rcases renewEntries_cons hrun with ⟨hmarked, i, hrow, hrest⟩ | ⟨-, -, kept, rfl, hrest⟩ |
      ⟨hmarked, hadd, i, kept, hfree, rfl, hrest⟩
    · exact ih (h.remove ((rowNumber_of_marked hmarked).trans hrow)) hrest
    · rw [hmove] at h ⊢
      exact ih h hrest
    · have hinvalid : (record i).valid = false := by simpa using List.find?_some hfree
      have hassign := h.assign hinvalid ((rowNumber_of_not_marked hmarked).trans hadd)
      rw [hmove] at hassign ⊢
      exact ih hassign hrest

theorem Paired.dist (h : Paired db record) : Paired db fun i => { record i with dist := 0 } :=
  ⟨h.nodup, h.owns, h.owned⟩

/-- What a renewal of the matrix leaves of the database and the rows. -/
theorem renewMatrix_eq_some {m m' : Matrix ι} (h : renewMatrix m = some m') :
    ∃ record sup, renewEntries m.record m.sup m.db = some (m'.db, record, sup) ∧
      m'.record = fun i => { record i with dist := 0 } := by
  obtain ⟨⟨db, record, sup⟩, hentries, hrest⟩ := Option.bind_eq_some_iff.mp h
  obtain ⟨⟨pathMap, i⟩, -, heq⟩ := Option.bind_eq_some_iff.mp hrest
  obtain rfl := Option.some.inj heq
  exact ⟨record, sup, hentries, rfl⟩

theorem Paired.renewMatrix {m m' : Matrix ι} (h : Paired m.db m.record)
    (hrun : renewMatrix m = some m') : Paired m'.db m'.record := by
  obtain ⟨record, sup, hentries, hrecord⟩ := renewMatrix_eq_some hrun
  have hkept : Paired ([] ++ m'.db) record := .renewEntries h hentries
  rw [hrecord]
  exact hkept.dist

end Rows

end NetworkLab.Mospf
