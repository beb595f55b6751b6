import NetworkLab.MospfRenew
import NetworkLab.GuardedRuns

/-!
# Expiry of entries

An entry that no LSU has renewed for eight checks is marked and taken out by the next
`renew_matrix`. A further check before that takes the mark away again, an LSU leaves it in
place, and an entry without a row is marked with the number of a row that does not exist.
-/
namespace NetworkLab.Mospf
open GuardedRuns

variable {ι : Type}

section Model

/-- The globals, and for every router the checks since its last LSU was accepted. -/
structure Expiry (ι : Type) where
  matrix : Matrix ι
  checks : UInt32 → ℕ

inductive ExpiryEvent
  | lsu (lsu : Lsu)
  | check
  | renew

/-- The LSU is stored: it is not the router's own, and it is newer than its entry. -/
def Accepts (routerId : UInt32) (db : List MospfDbEntry) (lsu : Lsu) : Prop :=
  lsu.rid ≠ routerId ∧ Newer db lsu

def Expiry.step (routerId : UInt32) (s : Expiry ι) : ExpiryEvent → Option (Expiry ι)
  | .lsu lsu =>
    match handleMospfLsu routerId s.matrix.db lsu with
    | none => some s
    | some db => some ⟨{ s.matrix with db := db }, Function.update s.checks lsu.rid 0⟩
  | .check => some ⟨{ s.matrix with db := s.matrix.db.map MospfDbEntry.check },
      fun rid => s.checks rid + 1⟩
  | .renew => (renewMatrix s.matrix).map fun matrix => ⟨matrix, s.checks⟩

/-- After `init_mospf_db`. -/
def Expiry.Initial (s : Expiry ι) : Prop :=
  s.matrix.db = [] ∧ ∀ i, (s.matrix.record i).valid = false

/-- An accepted LSU finds its entry not marked, and a check finds no entry marked and marks only
entries that have a row. -/
def unmarked (routerId : UInt32) (s : Expiry ι) : ExpiryEvent → Prop
  | .lsu lsu => Accepts routerId s.matrix.db lsu →
      ∀ entry ∈ s.matrix.db, entry.rid = lsu.rid → ¬entry.Marked
  | .check => ∀ entry ∈ s.matrix.db, ¬entry.Marked ∧ (entry.alive ≤ 5 → entry.map2mtx ≠ nodeAdd)
  | .renew => True

end Model

section Timing

/-- Entries and rows belong together, and the marked entries are those that are stale. -/
structure Expiry.Timed (s : Expiry ι) : Prop where
  paired : Paired s.matrix.db s.matrix.record
  alive : ∀ entry ∈ s.matrix.db, entry.alive = 40 - 5 * s.checks entry.rid
  marked : ∀ entry ∈ s.matrix.db, entry.Marked ↔ 8 ≤ s.checks entry.rid
  row : ∀ entry ∈ s.matrix.db, entry.Marked → entry.rowNumber ≠ nodeAdd

variable {routerId : UInt32} {s t : Expiry ι} {e : ExpiryEvent}

theorem check_not_marked {entry : MospfDbEntry} (hmarked : ¬entry.Marked)
    (hrow : 0 ≤ entry.rowNumber ∧ entry.rowNumber ≤ 10) :
    entry.check.Marked ↔ entry.alive ≤ 5 := by
  have hdelete := nodeDelete_eq
  have hmap : ¬entry.map2mtx ≤ nodeDelete := hmarked
  rw [rowNumber_of_not_marked hmarked] at hrow
  by_cases halive : entry.alive - 5 ≤ 0
  · refine iff_of_true ?_ (by omega)
    rw [MospfDbEntry.check]
    simp only [if_pos halive]
    show nodeDelete - entry.map2mtx ≤ nodeDelete
    omega
  · refine iff_of_false ?_ (by omega)
    rw [MospfDbEntry.check]
    simp only [if_neg halive]
    exact hmarked

theorem alive_check (entry : MospfDbEntry) : entry.check.alive = entry.alive - 5 := by
  rw [MospfDbEntry.check]
  split_ifs <;> rfl

theorem Expiry.Timed.lsu {lsu : Lsu} (h : s.Timed) (hok : unmarked routerId s (.lsu lsu))
    (hstep : s.step routerId (.lsu lsu) = some t) : t.Timed := by
  rw [Expiry.step, handleMospfLsu] at hstep
  by_cases hown : lsu.rid = routerId
  · rw [if_pos hown] at hstep
    obtain rfl := Option.some.inj hstep
    exact h
  · rw [if_neg hown] at hstep
    cases hstore : storeLsu s.matrix.db lsu with
    | none =>
      rw [hstore] at hstep
      obtain rfl := Option.some.inj hstep
      exact h
    | some db =>
      rw [hstore] at hstep
      obtain rfl := Option.some.inj hstep
      have hfree := hok ⟨hown, newer_of_storeLsu hstore⟩
      -- An entry has been written by the LSU or belongs to another router.
      have hentry (entry : MospfDbEntry) (hmem : entry ∈ db) :
          (entry.rid = lsu.rid ∧ entry.alive = 40 ∧ ¬entry.Marked) ∨
            (entry ∈ s.matrix.db ∧ entry.rid ≠ lsu.rid) := by
        rcases mem_storeLsu hstore h.paired.nodup hmem with (rfl | ⟨old, hold, hrid, rfl⟩) | hother
        · exact .inl ⟨rfl, rfl, show ¬nodeAdd ≤ nodeDelete by decide⟩
        · exact .inl ⟨hrid, rfl, hfree old hold hrid⟩
        · exact .inr hother
      refine ⟨h.paired.store hstore, fun entry hmem => ?_, fun entry hmem => ?_,
        fun entry hmem hmarked => ?_⟩
      · show entry.alive = 40 - 5 * (Function.update s.checks lsu.rid 0 entry.rid : ℕ)
        rcases hentry entry hmem with ⟨hrid, halive, -⟩ | ⟨hold, hne⟩
        · rw [hrid, Function.update_self, halive]
          rfl
        · rw [Function.update_of_ne hne]
          exact h.alive entry hold
      · show entry.Marked ↔ 8 ≤ Function.update s.checks lsu.rid 0 entry.rid
        rcases hentry entry hmem with ⟨hrid, -, hmarked⟩ | ⟨hold, hne⟩
        · rw [hrid, Function.update_self]
          exact iff_of_false hmarked (by omega)
        · rw [Function.update_of_ne hne]
          exact h.marked entry hold
      · rcases hentry entry hmem with ⟨-, -, hnot⟩ | ⟨hold, -⟩
        · exact absurd hmarked hnot
        · exact h.row entry hold hmarked

theorem Expiry.Timed.check (h : s.Timed) (hok : unmarked routerId s .check)
    (hstep : s.step routerId .check = some t) : t.Timed := by
  obtain rfl := Option.some.inj hstep
  refine ⟨h.paired.check, fun entry hmem => ?_, fun entry hmem => ?_, fun entry hmem hmarked => ?_⟩
  all_goals
    obtain ⟨old, hold, rfl⟩ := List.mem_map.mp hmem
    obtain ⟨hnot, hrow⟩ := hok old hold
    have halive := h.alive old hold
    have hnumber := h.paired.rowNumber_mem hold
  · show old.check.alive = 40 - 5 * ((s.checks old.check.rid + 1 : ℕ) : ℤ)
    rw [alive_check, rid_check]
    omega
  · show old.check.Marked ↔ 8 ≤ s.checks old.check.rid + 1
    rw [check_not_marked hnot hnumber, rid_check]
    omega
  · rw [rowNumber_check hnumber, rowNumber_of_not_marked hnot]
    exact hrow ((check_not_marked hnot hnumber).mp hmarked)

/-- What a renewal keeps is as it was before, but for a row that has been given. -/
theorem mem_renewEntries {record record' : Row → RowRecord ι} {sup sup' : ℕ}
    {db db' : List MospfDbEntry} {entry : MospfDbEntry}
    (h : renewEntries record sup db = some (db', record', sup')) (hentry : entry ∈ db') :
    ∃ old ∈ db, ¬old.Marked ∧ entry.rid = old.rid ∧ entry.alive = old.alive := by
  induction db generalizing record sup db' with
  | nil =>
    obtain ⟨rfl, -⟩ := Prod.mk.inj (Option.some.inj h)
    exact absurd hentry List.not_mem_nil
  | cons first db ih =>
    have hrest {record : Row → RowRecord ι} {sup : ℕ} {kept : List MospfDbEntry}
        (hrun : renewEntries record sup db = some (kept, record', sup')) (hin : entry ∈ kept) :
        ∃ old ∈ first :: db, ¬old.Marked ∧ entry.rid = old.rid ∧ entry.alive = old.alive := by
      obtain ⟨old, hold, hsame⟩ := ih hrun hin
      exact ⟨old, List.mem_cons_of_mem _ hold, hsame⟩
    rcases renewEntries_cons h with ⟨-, i, -, hrun⟩ | ⟨hmarked, -, kept, rfl, hrun⟩ |
      ⟨hmarked, -, i, kept, -, rfl, hrun⟩
    · exact hrest hrun hentry
    · rcases List.mem_cons.mp hentry with rfl | hin
      · exact ⟨entry, List.mem_cons_self, hmarked, rfl, rfl⟩
      · exact hrest hrun hin
    · rcases List.mem_cons.mp hentry with rfl | hin
      · exact ⟨first, List.mem_cons_self, hmarked, rfl, rfl⟩
      · exact hrest hrun hin

theorem Expiry.Timed.renew (h : s.Timed) (hstep : s.step routerId .renew = some t) :
    t.Timed := by
  obtain ⟨matrix, hrenew, rfl⟩ := Option.map_eq_some_iff.mp hstep
  obtain ⟨record, sup, hentries, hrecord⟩ := renewMatrix_eq_some hrenew
  refine ⟨h.paired.renewMatrix hrenew, fun entry hmem => ?_, fun entry hmem => ?_,
    fun entry hmem hmarked => ?_⟩
  · obtain ⟨old, hold, -, hrid, halive⟩ := mem_renewEntries hentries hmem
    rw [halive, hrid]
    exact h.alive old hold
  · obtain ⟨old, hold, hnot, hrid, -⟩ := mem_renewEntries hentries hmem
    refine iff_of_false (not_marked_renewEntries hentries entry hmem) ?_
    rw [hrid]
    exact fun hchecks => hnot ((h.marked old hold).mpr hchecks)
  · exact absurd hmarked (not_marked_renewEntries hentries entry hmem)

theorem Expiry.Timed.step (h : s.Timed) (hok : unmarked routerId s e)
    (hstep : s.step routerId e = some t) : t.Timed := by
  cases e with
  | lsu lsu => exact h.lsu hok hstep
  | check => exact h.check hok hstep
  | renew => exact h.renew hstep

theorem Expiry.Initial.timed (h : s.Initial) : s.Timed := by
  obtain ⟨hdb, hrecord⟩ := h
  have hnone (entry : MospfDbEntry) (hentry : entry ∈ s.matrix.db) : False := by
    rw [hdb] at hentry
    exact List.not_mem_nil hentry
  exact ⟨.of_empty hdb hrecord, fun entry hmem => (hnone entry hmem).elim,
    fun entry hmem => (hnone entry hmem).elim, fun entry hmem => (hnone entry hmem).elim⟩

end Timing

section Expiry

variable {routerId : UInt32} {s : Expiry ι}

/-- The next `renew_matrix` takes out the entries that eight checks have found stale, and each
leaves a row that is its own. -/
theorem expiry_exact (h : Reaches (Expiry.step routerId) (unmarked routerId) Expiry.Initial s) :
    (∃ db record sup, renewEntries s.matrix.record s.matrix.sup s.matrix.db =
        some (db, record, sup) ∧
      ∀ entry ∈ s.matrix.db, entry.rid ∉ db.map (·.rid) ↔
        mospfDatabaseTimeout / 5 ≤ s.checks entry.rid) ∧
    ∀ entry ∈ s.matrix.db, entry.Marked → ∃ i : Row, nodeDelete - entry.map2mtx = i.val ∧
      (s.matrix.record i).valid = true ∧ (s.matrix.record i).dbEntry = entry.rid := by
  have htimed : s.Timed :=
    h.invariant Expiry.Timed (fun _ => Expiry.Initial.timed) fun _ _ _ => Expiry.Timed.step
  have hrow (entry : MospfDbEntry) (hentry : entry ∈ s.matrix.db) (hmarked : entry.Marked) :
      ∃ i : Row, nodeDelete - entry.map2mtx = i.val ∧
        (s.matrix.record i).valid = true ∧ (s.matrix.record i).dbEntry = entry.rid := by
    rw [← rowNumber_of_marked hmarked]
    exact (htimed.paired.owns entry hentry).resolve_left (htimed.row entry hentry hmarked)
  refine ⟨?_, hrow⟩
  obtain ⟨⟨db, record, sup⟩, hentries⟩ :=
    renewEntries_isSome s.matrix.record s.matrix.sup s.matrix.db fun entry hentry hmarked => by
      obtain ⟨i, hi, -⟩ := hrow entry hentry hmarked
      exact ⟨i, hi⟩
  refine ⟨db, record, sup, hentries, fun entry hentry => ?_⟩
  rw [map_rid_renewEntries hentries]
  have htimeout : mospfDatabaseTimeout / 5 ≤ s.checks entry.rid ↔ 8 ≤ s.checks entry.rid := by
    rw [show mospfDatabaseTimeout / 5 = 8 by decide]
    omega
  rw [htimeout, ← htimed.marked entry hentry]
  constructor
  · intro hout
    by_contra hmarked
    refine hout (List.mem_map_of_mem (List.mem_filter.mpr ⟨hentry, ?_⟩))
    simpa using hmarked
  · intro hmarked hin
    obtain ⟨other, hother, hrid⟩ := List.mem_map.mp hin
    obtain ⟨hmem, hnot⟩ := List.mem_filter.mp hother
    obtain rfl := htimed.paired.mem_unique hentry hmem hrid
    simp [hmarked] at hnot

end Expiry

section Runs

/-- The globals before any event. -/
def noEntries : Expiry Unit :=
  ⟨⟨[], fun _ => ⟨0, false, 0, 0, ()⟩, fun _ _ => ⟨0, 0, 0⟩, 0⟩, fun _ => 0⟩

theorem initial_noEntries : noEntries.Initial := ⟨rfl, fun _ => rfl⟩

instance (routerId : UInt32) (db : List MospfDbEntry) (lsu : Lsu) :
    Decidable (Accepts routerId db lsu) := inferInstanceAs (Decidable (_ ∧ _))

instance (routerId : UInt32) (s : Expiry ι) : ∀ e, Decidable (unmarked routerId s e)
  | .lsu lsu => inferInstanceAs (Decidable (Accepts routerId s.matrix.db lsu → _))
  | .check => inferInstanceAs (Decidable (∀ entry ∈ s.matrix.db, _ ∧ (_ → _ ≠ _)))
  | .renew => isTrue trivial

/-- An LSU is stored and its entry gets a row. -/
def storeEvents : List ExpiryEvent := [.lsu ⟨2, 0, []⟩, .renew]

/-- As many checks. -/
def checkEvents (n : ℕ) : List ExpiryEvent := List.replicate n .check

theorem expiry_exact_one : ∃ s : Expiry Unit,
    (∃ entry ∈ s.matrix.db, entry.rid = 2 ∧ s.checks 2 = 8) ∧
    ∃ db record sup, renewEntries s.matrix.record s.matrix.sup s.matrix.db =
      some (db, record, sup) ∧ 2 ∉ db.map (·.rid) := by
  obtain ⟨s, hreach, hentry⟩ : ∃ s : Expiry Unit,
      Reaches (Expiry.step 1) (unmarked 1) Expiry.Initial s ∧
        ∃ entry ∈ s.matrix.db, entry.rid = 2 ∧ s.checks 2 = 8 :=
    exists_of_exec initial_noEntries (storeEvents ++ checkEvents 8) _ (by decide +kernel)
  obtain ⟨⟨db, record, sup, hentries, hremoved⟩, -⟩ := expiry_exact hreach
  refine ⟨s, hentry, db, record, sup, hentries, ?_⟩
  obtain ⟨entry, hmem, hrid, hchecks⟩ := hentry
  rw [← hrid]
  refine (hremoved entry hmem).mpr ?_
  rw [hrid, hchecks]
  decide

/-- A ninth check takes the mark away, an LSU does not, and an entry without a row is marked
with the number of a row that does not exist. -/
theorem expiry_misses :
    (∃ s : Expiry Unit, Reaches (Expiry.step 1) anyStep Expiry.Initial s ∧
      ∃ entry ∈ s.matrix.db, s.checks entry.rid = 9 ∧
        (renewEntries s.matrix.record s.matrix.sup s.matrix.db).any
          (fun r => decide (entry.rid ∈ r.1.map (·.rid))) = true) ∧
    (∃ s : Expiry Unit, Reaches (Expiry.step 1) anyStep Expiry.Initial s ∧
      ∃ entry ∈ s.matrix.db, s.checks entry.rid = 0 ∧
        (renewEntries s.matrix.record s.matrix.sup s.matrix.db).any
          (fun r => decide (entry.rid ∉ r.1.map (·.rid))) = true) ∧
    ∃ s : Expiry Unit, Reaches (Expiry.step 1) anyStep Expiry.Initial s ∧
      ∃ entry ∈ s.matrix.db, entry.Marked ∧ nodeDelete - entry.map2mtx = maxNodes := by
  refine ⟨?_, ?_, ?_⟩
  · exact exists_of_exec initial_noEntries (storeEvents ++ checkEvents 9) _ (by decide +kernel)
  · exact exists_of_exec initial_noEntries (storeEvents ++ checkEvents 8 ++ [.lsu ⟨2, 1, []⟩]) _
      (by decide +kernel)
  · exact exists_of_exec initial_noEntries (.lsu ⟨2, 0, []⟩ :: checkEvents 8) _ (by decide +kernel)

end Runs

end NetworkLab.Mospf
