import NetworkLab.MospfPaths

/-!
# The link state database

`handle_mospf_lsu` up to the relay: an LSU of another router is stored when there is no entry
for its router, or when it is newer than the entry. Of the LSUs that have arrived from a router
the database keeps the newest, whatever the order.
-/
namespace NetworkLab.Mospf

section Model

/-- `NODE_ADD`. -/
def nodeAdd : ℤ := maxNodes

/-- `NODE_DELETE`. -/
def nodeDelete : ℤ := -maxNodes

/-- `MOSPF_DATABASE_TIMEOUT`. -/
def mospfDatabaseTimeout : ℤ := 40

/-- What `handle_mospf_lsu` reads of an LSU; `array` has `nadv` elements. -/
structure Lsu where
  rid : UInt32
  seq : UInt16
  array : List MospfLsa
  deriving DecidableEq

/-- The entry after the fields of the LSU have been written over it. -/
def MospfDbEntry.renew (entry : MospfDbEntry) (lsu : Lsu) : MospfDbEntry :=
  { entry with seq := lsu.seq, alive := mospfDatabaseTimeout, array := lsu.array }

/-- The entry for a router that had none. -/
def newEntry (lsu : Lsu) : MospfDbEntry :=
  ⟨lsu.rid, lsu.seq, mospfDatabaseTimeout, nodeAdd, lsu.array⟩

/-- The search for the entry and what is written, or `none` for an LSU that is not newer. -/
def storeLsu : List MospfDbEntry → Lsu → Option (List MospfDbEntry)
  | [], lsu => some [newEntry lsu]
  | entry :: db, lsu =>
    if lsu.rid = entry.rid then
      if lsu.seq ≤ entry.seq then none else some (entry.renew lsu :: db)
    else (storeLsu db lsu).map (entry :: ·)

/-- `handle_mospf_lsu` up to the relay, or `none` where it returns before. -/
def handleMospfLsu (routerId : UInt32) (db : List MospfDbEntry) (lsu : Lsu) :
    Option (List MospfDbEntry) :=
  if lsu.rid = routerId then none else storeLsu db lsu

/-- The database after a delivery. -/
def deliver (routerId : UInt32) (db : List MospfDbEntry) (lsu : Lsu) : List MospfDbEntry :=
  (handleMospfLsu routerId db lsu).getD db

end Model

section Entries

/-- What the database says about a router. -/
def entryOf (db : List MospfDbEntry) (rid : UInt32) : Option (UInt16 × List MospfLsa) :=
  (db.find? fun entry => decide (entry.rid = rid)).map fun entry => (entry.seq, entry.array)

/-- The LSU is newer than what the database says about its router. -/
def Newer (db : List MospfDbEntry) (lsu : Lsu) : Prop :=
  ∀ stored ∈ entryOf db lsu.rid, stored.1 < lsu.seq

instance (db : List MospfDbEntry) (lsu : Lsu) : Decidable (Newer db lsu) :=
  inferInstanceAs (Decidable (∀ stored ∈ entryOf db lsu.rid, stored.1 < lsu.seq))

variable {routerId rid : UInt32} {db db' : List MospfDbEntry} {lsu : Lsu}

theorem entryOf_cons (entry : MospfDbEntry) (db : List MospfDbEntry) (rid : UInt32) :
    entryOf (entry :: db) rid =
      if entry.rid = rid then some (entry.seq, entry.array) else entryOf db rid := by
  by_cases h : entry.rid = rid
  · rw [entryOf, List.find?_cons_of_pos (by simpa using h), if_pos h]
    rfl
  · rw [entryOf, List.find?_cons_of_neg (by simpa using h), if_neg h]
    rfl

/-- An LSU that is not newer is dropped. -/
theorem storeLsu_eq_none_iff (db : List MospfDbEntry) (lsu : Lsu) :
    storeLsu db lsu = none ↔ ¬Newer db lsu := by
  induction db with
  | nil => exact iff_of_false (Option.some_ne_none _) fun h => h fun stored hs => by cases hs
  | cons entry db ih =>
    rw [storeLsu, Newer, entryOf_cons]
    by_cases hrid : lsu.rid = entry.rid
    · rw [if_pos hrid, if_pos hrid.symm]
      by_cases hseq : lsu.seq ≤ entry.seq
      · rw [if_pos hseq]
        exact iff_of_true rfl fun h => UInt16.not_lt.mpr hseq (h _ rfl)
      · rw [if_neg hseq]
        refine iff_of_false (Option.some_ne_none _) fun h => h fun stored hs => ?_
        obtain rfl := Option.some.inj hs
        exact UInt16.not_le.mp hseq
    · rw [if_neg hrid, if_neg (Ne.symm hrid), Option.map_eq_none_iff]
      exact ih

theorem newer_of_storeLsu (h : storeLsu db lsu = some db') : Newer db lsu := by
  by_contra hold
  rw [(storeLsu_eq_none_iff db lsu).mpr hold] at h
  cases h

/-- A stored LSU is what the database says about its router, and about no other. -/
theorem entryOf_storeLsu (h : storeLsu db lsu = some db') (rid : UInt32) :
    entryOf db' rid = if lsu.rid = rid then some (lsu.seq, lsu.array) else entryOf db rid := by
  induction db generalizing db' with
  | nil =>
    obtain rfl := Option.some.inj h
    exact entryOf_cons _ _ _
  | cons entry db ih =>
    rw [storeLsu] at h
    by_cases hrid : lsu.rid = entry.rid
    · rw [if_pos hrid] at h
      by_cases hseq : lsu.seq ≤ entry.seq
      · rw [if_pos hseq] at h
        cases h
      · rw [if_neg hseq] at h
        obtain rfl := Option.some.inj h
        rw [entryOf_cons, entryOf_cons, MospfDbEntry.renew, hrid]
        split_ifs
        · rfl
        · rfl
    · rw [if_neg hrid, Option.map_eq_some_iff] at h
      obtain ⟨db₁, hstore, rfl⟩ := h
      rw [entryOf_cons, entryOf_cons, ih hstore]
      split_ifs with hentry hlsu
      · exact absurd (hlsu.trans hentry.symm) hrid
      · rfl
      · rfl
      · rfl

/-- The routers of the database after an LSU has been stored. -/
theorem map_rid_storeLsu (h : storeLsu db lsu = some db') :
    db'.map (·.rid) = db.map (·.rid) ∨
      (db'.map (·.rid) = db.map (·.rid) ++ [lsu.rid] ∧ lsu.rid ∉ db.map (·.rid)) := by
  induction db generalizing db' with
  | nil =>
    obtain rfl := Option.some.inj h
    exact .inr ⟨rfl, List.not_mem_nil⟩
  | cons entry db ih =>
    rw [storeLsu] at h
    by_cases hrid : lsu.rid = entry.rid
    · rw [if_pos hrid] at h
      split_ifs at h
      obtain rfl := Option.some.inj h
      exact .inl rfl
    · rw [if_neg hrid, Option.map_eq_some_iff] at h
      obtain ⟨db₁, hstore, rfl⟩ := h
      rcases ih hstore with hsame | ⟨hnew, hnot⟩
      · exact .inl (congrArg (entry.rid :: ·) hsame)
      · refine .inr ⟨congrArg (entry.rid :: ·) hnew, ?_⟩
        rw [List.map_cons, List.mem_cons]
        rintro (heq | hmem)
        · exact hrid heq
        · exact hnot hmem

/-- No router has two entries. -/
theorem nodup_storeLsu (h : storeLsu db lsu = some db') (hdb : (db.map (·.rid)).Nodup) :
    (db'.map (·.rid)).Nodup := by
  rcases map_rid_storeLsu h with hsame | ⟨hnew, hnot⟩
  · rw [hsame]
    exact hdb
  · rw [hnew]
    exact List.nodup_append.mpr ⟨hdb, List.nodup_singleton _, fun a ha b hb heq => by
      rw [List.mem_singleton.mp hb] at heq
      exact hnot (heq ▸ ha)⟩

end Entries

section Deliveries

variable {routerId rid : UInt32} {ls : List Lsu} {lsu : Lsu}

/-- The database after these LSUs have arrived one after another. -/
def databaseAfter (routerId : UInt32) (ls : List Lsu) : List MospfDbEntry :=
  ls.foldl (deliver routerId) []

theorem databaseAfter_append (routerId : UInt32) (ls : List Lsu) (lsu : Lsu) :
    databaseAfter routerId (ls ++ [lsu]) = deliver routerId (databaseAfter routerId ls) lsu :=
  List.foldl_append

/-- A delivery changes the entry of the LSU's router at most. -/
theorem entryOf_deliver (routerId : UInt32) (db : List MospfDbEntry) (lsu : Lsu) (rid : UInt32) :
    entryOf (deliver routerId db lsu) rid =
      if lsu.rid = rid ∧ rid ≠ routerId ∧ Newer db lsu then some (lsu.seq, lsu.array)
      else entryOf db rid := by
  rw [deliver, handleMospfLsu]
  by_cases hown : lsu.rid = routerId
  · rw [if_pos hown, Option.getD_none, if_neg]
    rintro ⟨hrid, hne, -⟩
    exact hne (hrid ▸ hown)
  · rw [if_neg hown]
    cases hstore : storeLsu db lsu with
    | none =>
      have hold := (storeLsu_eq_none_iff db lsu).mp hstore
      rw [Option.getD_none, if_neg fun h => hold h.2.2]
    | some db' =>
      rw [Option.getD_some, entryOf_storeLsu hstore]
      by_cases hrid : lsu.rid = rid
      · subst hrid
        rw [if_pos rfl, if_pos]
        exact ⟨rfl, hown, newer_of_storeLsu hstore⟩
      · rw [if_neg hrid, if_neg fun h => hrid h.1]

theorem nodup_databaseAfter (routerId : UInt32) (ls : List Lsu) :
    ((databaseAfter routerId ls).map (·.rid)).Nodup := by
  induction ls using List.reverseRecOn with
  | nil => exact List.nodup_nil
  | append_singleton ls lsu ih =>
    rw [databaseAfter_append, deliver, handleMospfLsu]
    split_ifs
    · exact ih
    · cases hstore : storeLsu (databaseAfter routerId ls) lsu with
      | none => exact ih
      | some db' => exact nodup_storeLsu hstore ih

/-- The entry of another router is the newest of its LSUs. -/
theorem entryOf_databaseAfter (hrid : rid ≠ routerId) (ls : List Lsu) :
    (∀ seq array, entryOf (databaseAfter routerId ls) rid = some (seq, array) →
      ⟨rid, seq, array⟩ ∈ ls) ∧
    ∀ lsu ∈ ls, lsu.rid = rid → ∃ seq array,
      entryOf (databaseAfter routerId ls) rid = some (seq, array) ∧ lsu.seq ≤ seq := by
  induction ls using List.reverseRecOn with
  | nil =>
    exact ⟨fun seq array h => absurd h (Option.some_ne_none _).symm,
      fun lsu h => absurd h List.not_mem_nil⟩
  | append_singleton ls lsu ih =>
    obtain ⟨hmem, hmax⟩ := ih
    rw [databaseAfter_append, entryOf_deliver]
    by_cases hnew : lsu.rid = rid ∧ rid ≠ routerId ∧ Newer (databaseAfter routerId ls) lsu
    · rw [if_pos hnew]
      refine ⟨fun seq array h => ?_, fun m hm hmrid => ⟨_, _, rfl, ?_⟩⟩
      · obtain ⟨rfl, rfl⟩ := Prod.mk.inj (Option.some.inj h)
        obtain ⟨rfl, -, -⟩ := hnew
        exact List.mem_concat_self
      · rcases List.mem_append.mp hm with hold | hlast
        · obtain ⟨seq, array, hentry, hle⟩ := hmax m hold hmrid
          rw [← hnew.1] at hentry
          exact UInt16.le_trans hle (UInt16.le_of_lt (hnew.2.2 _ hentry))
        · rw [List.mem_singleton.mp hlast]
          exact UInt16.le_refl _
    · rw [if_neg hnew]
      refine ⟨fun seq array h => List.mem_append_left _ (hmem seq array h),
        fun m hm hmrid => ?_⟩
      rcases List.mem_append.mp hm with hold | hlast
      · exact hmax m hold hmrid
      · obtain rfl := List.mem_singleton.mp hlast
        by_contra hnone
        refine hnew ⟨hmrid, hrid, fun stored hentry => UInt16.not_le.mp fun hle => ?_⟩
        rw [hmrid] at hentry
        exact hnone ⟨stored.1, stored.2, hentry, hle⟩

theorem entryOf_databaseAfter_own (routerId : UInt32) (ls : List Lsu) :
    entryOf (databaseAfter routerId ls) routerId = none := by
  induction ls using List.reverseRecOn with
  | nil => rfl
  | append_singleton ls lsu ih =>
    rw [databaseAfter_append, entryOf_deliver, if_neg fun h => h.2.1 rfl]
    exact ih

/-- The database does not depend on the order of the deliveries or on duplicates. -/
theorem database_converges (routerId : UInt32) (ls ls' : List Lsu)
    (hcontent : ∀ lsu ∈ ls, ∀ lsu' ∈ ls, lsu.rid ≠ routerId → lsu.rid = lsu'.rid →
      lsu.seq = lsu'.seq → lsu.array = lsu'.array)
    (hsame : ∀ lsu, lsu ∈ ls ↔ lsu ∈ ls') :
    (∀ rid, entryOf (databaseAfter routerId ls) rid = entryOf (databaseAfter routerId ls') rid) ∧
    ((databaseAfter routerId ls).map (·.rid)).Nodup ∧
    (∀ lsu ∈ ls, lsu.rid ≠ routerId → ∃ newest ∈ ls, newest.rid = lsu.rid ∧
      (∀ other ∈ ls, other.rid = lsu.rid → other.seq ≤ newest.seq) ∧
      entryOf (databaseAfter routerId ls) lsu.rid = some (newest.seq, newest.array)) ∧
    ∀ entry ∈ databaseAfter routerId ls, entry.rid ≠ routerId := by
  have hnewest (rid : UInt32) (hrid : rid ≠ routerId) (lsu : Lsu) (hlsu : lsu ∈ ls)
      (heq : lsu.rid = rid) : ∃ newest ∈ ls, newest.rid = rid ∧
      (∀ other ∈ ls, other.rid = rid → other.seq ≤ newest.seq) ∧
      entryOf (databaseAfter routerId ls) rid = some (newest.seq, newest.array) := by
    obtain ⟨hmem, hmax⟩ := entryOf_databaseAfter hrid ls
    obtain ⟨seq, array, hentry, -⟩ := hmax lsu hlsu heq
    refine ⟨⟨rid, seq, array⟩, hmem seq array hentry, rfl, fun other hother horid => ?_, hentry⟩
    obtain ⟨seq', array', hentry', hle⟩ := hmax other hother horid
    obtain ⟨rfl, rfl⟩ := Prod.mk.inj (Option.some.inj (hentry.symm.trans hentry'))
    exact hle
  refine ⟨fun rid => ?_, nodup_databaseAfter routerId ls,
    fun lsu hlsu hrid => hnewest lsu.rid hrid lsu hlsu rfl, fun entry hentry heq => ?_⟩
  · by_cases hrid : rid = routerId
    · rw [hrid, entryOf_databaseAfter_own, entryOf_databaseAfter_own]
    · obtain ⟨hmem', hmax'⟩ := entryOf_databaseAfter hrid ls'
      cases hentry : entryOf (databaseAfter routerId ls') rid with
      | none =>
        cases hentry' : entryOf (databaseAfter routerId ls) rid with
        | none => rfl
        | some pair =>
          have hlsu := (entryOf_databaseAfter hrid ls).1 pair.1 pair.2 hentry'
          obtain ⟨seq, array, hsome, -⟩ := hmax' _ ((hsame _).mp hlsu) rfl
          rw [hentry] at hsome
          cases hsome
      | some pair =>
        have hlast := (hsame _).mpr (hmem' pair.1 pair.2 hentry)
        obtain ⟨newest, hmem, hnrid, hmax, hnentry⟩ := hnewest rid hrid _ hlast rfl
        obtain ⟨seq, array, hsome, hle⟩ := hmax' newest ((hsame _).mp hmem) hnrid
        obtain ⟨rfl, rfl⟩ := Prod.mk.inj (Option.some.inj (hentry.symm.trans hsome))
        have hseq : newest.seq = pair.1 := UInt16.le_antisymm hle (hmax _ hlast rfl)
        rw [hnentry, hcontent newest hmem _ hlast (hnrid ▸ hrid) hnrid hseq, hseq]
  · have hfind : (databaseAfter routerId ls).find? (fun e => decide (e.rid = routerId)) ≠ none := by
      rw [ne_eq, List.find?_eq_none]
      intro hall
      exact hall entry hentry (decide_eq_true heq)
    have hown := entryOf_databaseAfter_own routerId ls
    rw [entryOf, Option.map_eq_none_iff] at hown
    exact hfind hown

theorem database_converges_swap :
    entryOf (databaseAfter 1 [⟨2, 0, []⟩, ⟨2, 1, [⟨3, 4, 5⟩]⟩]) 2 =
      entryOf (databaseAfter 1 [⟨2, 1, [⟨3, 4, 5⟩]⟩, ⟨2, 0, []⟩, ⟨2, 1, [⟨3, 4, 5⟩]⟩]) 2 :=
  (database_converges 1 [⟨2, 0, []⟩, ⟨2, 1, [⟨3, 4, 5⟩]⟩]
    [⟨2, 1, [⟨3, 4, 5⟩]⟩, ⟨2, 0, []⟩, ⟨2, 1, [⟨3, 4, 5⟩]⟩] (by decide)
    (fun lsu => by simp only [List.mem_cons, List.not_mem_nil, or_false]; tauto)).1 2

end Deliveries

end NetworkLab.Mospf
