import NetworkLab.GuardedRuns
import NetworkLab.MacTable

/-!
# The MAC table and what has happened to it

The table is accessed by insertions, lookups and sweeps in any order, each under its lock. The log
of what they did says which addresses the table has and when each was used last.
-/
namespace NetworkLab.LearningSwitch
open GuardedRuns

variable {ι : Type*}

section Model

/-- `sweep_aged_mac_port_entry` with the time that is read for the entry of each address. -/
def sweepEntries (m : MacPortMap ι) (clock : Mac → ℤ) : MacPortMap ι :=
  m.filter fun entry => !decide (clock entry.mac - entry.visited > macPortTimeout)

/-- A sweep at one time. -/
theorem sweepEntries_const (m : MacPortMap ι) (now : ℤ) :
    sweepEntries m (fun _ => now) = sweepAgedMacPortEntry m now := rfl

inductive Access (ι : Type*)
  | insert (mac : Mac) (iface : ι) (now : ℤ)
  | lookup (mac : Mac) (now : ℤ)
  | sweep (clock : Mac → ℤ)

/-- What an access did: an insertion or a lookup that found an entry, or the removal of those
addresses that the table had before and not after. -/
inductive Record
  | inserted (mac : Mac) (now : ℤ)
  | found (mac : Mac) (now : ℤ)
  | removed (gone : Mac → Bool)

/-- The table with the log, latest first. -/
structure Logged (ι : Type*) where
  table : MacPortMap ι
  log : List Record

def Logged.access (w : Logged ι) : Access ι → Logged ι
  | .insert mac iface now => ⟨insertMacPort w.table mac iface now, .inserted mac now :: w.log⟩
  | .lookup mac now =>
    ⟨(lookupPort w.table mac now).2,
      if (lookupPort w.table mac now).1.isSome then .found mac now :: w.log else w.log⟩
  | .sweep clock =>
    let table := sweepEntries w.table clock
    ⟨table, .removed (fun mac => (w.table.get mac).isSome && (table.get mac).isNone) :: w.log⟩

/-- After `init_mac_port_table`. -/
def Logged.initial : Logged ι := ⟨BucketTable.empty, []⟩

/-- The address was inserted and not removed since. -/
def present : List Record → Mac → Bool
  | [], _ => false
  | .inserted mac _ :: log, d => decide (mac = d) || present log d
  | .found _ _ :: log, d => present log d
  | .removed gone :: log, d => !gone d && present log d

/-- The time of the last insertion or successful lookup of the address. -/
def lastTouched : List Record → Mac → Option ℤ
  | [], _ => none
  | .inserted mac now :: log, d => if mac = d then some now else lastTouched log d
  | .found mac now :: log, d => if mac = d then some now else lastTouched log d
  | .removed _ :: log, d => lastTouched log d

/-- The last use of the address lies more than `macPortTimeout` before a time. -/
def Aged (log : List Record) (d : Mac) (now : ℤ) : Prop :=
  ∃ touched, lastTouched log d = some touched ∧ now - touched > macPortTimeout

/-- The table is a map from addresses, has those that were inserted and not removed since, and a
sweep takes away those that have aged and leaves the others in their order. -/
structure IsAgeingMap (w : Logged ι) : Prop where
  placed : ∀ b, ∀ entry ∈ w.table.bucket b, hash8 entry.mac.toList = b
  unique : ∀ b, ((w.table.bucket b).map MacPortEntry.mac).Nodup
  lookup : ∀ mac now, (lookupPort w.table mac now).1.isSome ↔ present w.log mac = true
  sweep : ∀ clock b, ∃ kept : MacPortEntry ι → Bool,
    (sweepEntries w.table clock).bucket b = (w.table.bucket b).filter kept ∧
      ∀ entry ∈ w.table.bucket b, kept entry = false ↔ Aged w.log entry.mac (clock entry.mac)

/-- The log knows what the table knows. -/
def Logged.Agrees (w : Logged ι) : Prop :=
  ∀ d, (∀ p, view w.table d = some p → lastTouched w.log d = some p.2) ∧
    ((view w.table d).isSome ↔ present w.log d = true)

end Model

section Accesses

variable {w : Logged ι}

theorem view_sweepEntries (m : MacPortMap ι) (clock : Mac → ℤ) (d : Mac) :
    view (sweepEntries m clock) d =
      (view m d).filter (fun p => !decide (clock d - p.2 > macPortTimeout)) := by
  cases h : m.get d with
  | none => simp [view, sweepEntries, BucketTable.get_filter, h]
  | some entry =>
    have hmac : entry.mac = d := by simpa using List.find?_some h
    by_cases hage : clock d - entry.visited > macPortTimeout <;>
      simp [view, sweepEntries, BucketTable.get_filter, h, hmac, Option.filter, hage]

theorem isSome_get (m : MacPortMap ι) (d : Mac) : (m.get d).isSome = (view m d).isSome := by
  rw [view, Option.isSome_map]

theorem Logged.Agrees.insert (h : w.Agrees) (mac : Mac) (iface : ι) (now : ℤ) :
    (w.access (.insert mac iface now)).Agrees := by
  intro d
  obtain ⟨htouched, hpresent⟩ := h d
  rw [Logged.access, view_insertMacPort, lastTouched, present]
  by_cases hd : mac = d
  · rw [if_pos hd, if_pos hd, decide_eq_true hd]
    exact ⟨fun p hp => Option.some.inj hp ▸ rfl, by simp⟩
  · rw [if_neg hd, if_neg hd, decide_eq_false hd, Bool.false_or]
    exact ⟨htouched, hpresent⟩

theorem Logged.Agrees.lookup (h : w.Agrees) (mac : Mac) (now : ℤ) :
    (w.access (.lookup mac now)).Agrees := by
  intro d
  obtain ⟨htouched, hpresent⟩ := h d
  rw [Logged.access, view_lookupPort]
  cases hfound : (lookupPort w.table mac now).1.isSome with
  | true =>
    rw [if_pos rfl, lastTouched, present]
    by_cases hd : mac = d
    · rw [if_pos hd, if_pos hd, Option.isSome_map]
      refine ⟨fun p hp => ?_, hpresent⟩
      obtain ⟨q, -, rfl⟩ := Option.map_eq_some_iff.mp hp
      rfl
    · rw [if_neg hd, if_neg hd]
      exact ⟨htouched, hpresent⟩
  | false =>
    rw [if_neg Bool.false_ne_true]
    by_cases hd : mac = d
    · subst hd
      have hnone : view w.table mac = none := by
        rw [lookupPort_fst, Option.isSome_map] at hfound
        exact Option.not_isSome_iff_eq_none.mp (Bool.eq_false_iff.mp hfound)
      rw [hnone] at htouched hpresent
      rw [if_pos rfl, hnone]
      exact ⟨htouched, hpresent⟩
    · rw [if_neg hd]
      exact ⟨htouched, hpresent⟩

theorem Logged.Agrees.sweep (h : w.Agrees) (clock : Mac → ℤ) :
    (w.access (.sweep clock)).Agrees := by
  intro d
  obtain ⟨htouched, hpresent⟩ := h d
  rw [Logged.access, lastTouched, present]
  refine ⟨fun p hp => ?_, ?_⟩
  · rw [view_sweepEntries] at hp
    exact htouched p (Option.filter_eq_some_iff.mp hp).1
  · rw [isSome_get, ← Option.not_isSome, isSome_get, view_sweepEntries]
    cases hview : view w.table d with
    | none =>
      rw [hview] at hpresent
      have habsent : present w.log d = false := Bool.eq_false_iff.mpr fun hp => by
        simpa using hpresent.mpr hp
      simp [habsent]
    | some p =>
      rw [hview] at hpresent
      have hp : present w.log d = true := hpresent.mp rfl
      by_cases hage : clock d - p.2 > macPortTimeout <;> simp [hp, hage, Option.filter]

end Accesses

section Runs

variable {w : Logged ι}

theorem agrees_of_reaches
    (h : Reaches (fun w e => some (Logged.access w e)) anyStep (· = Logged.initial) w) :
    w.Agrees := by
  refine h.invariant Logged.Agrees (fun w hw => ?_) fun w e w' hagrees _ hstep => ?_
  · subst hw
    exact fun d => ⟨fun p hp => by simp [Logged.initial] at hp, by simp [Logged.initial, present]⟩
  · obtain rfl := Option.some.inj hstep
    cases e with
    | insert mac iface now => exact hagrees.insert mac iface now
    | lookup mac now => exact hagrees.lookup mac now
    | sweep clock => exact hagrees.sweep clock

/-- After any accesses in any order the table is a map with ageing. -/
theorem mac_table_ages
    (h : Reaches (fun w e => some (Logged.access w e)) anyStep (· = Logged.initial) w) :
    IsAgeingMap w := by
  have hagrees := agrees_of_reaches h
  refine ⟨w.table.placed, w.table.unique, fun mac now => ?_, fun clock b => ⟨_, rfl, ?_⟩⟩
  · rw [lookupPort_fst, Option.isSome_map]
    exact (hagrees mac).2
  · intro entry hentry
    have hview : view w.table entry.mac = some (entry.iface, entry.visited) := by
      rw [view, w.table.get_of_mem hentry]
      rfl
    have htouched := (hagrees entry.mac).1 _ hview
    rw [Bool.not_eq_false', decide_eq_true_iff]
    constructor
    · exact fun hage => ⟨entry.visited, htouched, hage⟩
    · rintro ⟨touched, hlast, hage⟩
      rw [htouched] at hlast
      have heq : entry.visited = touched := Option.some.inj hlast
      rwa [heq]

/-- Two stations of one bucket are learned, one is looked up, and a sweep takes the other. -/
def twoStations : List (Access ℕ) :=
  [.insert (Vector.replicate 6 2) 1 100, .insert (Vector.replicate 6 3) 2 105,
    .lookup (Vector.replicate 6 2) 120, .sweep fun _ => 140]

theorem mac_table_ages_twoStations : ∃ w : Logged ℕ, IsAgeingMap w ∧
    view w.table (Vector.replicate 6 2) = some (1, 120) ∧
      view w.table (Vector.replicate 6 3) = none := by
  have hrun : ∃ w : Logged ℕ,
      Reaches (fun w e => some (Logged.access w e)) anyStep (· = Logged.initial) w ∧
        view w.table (Vector.replicate 6 2) = some (1, 120) ∧
          view w.table (Vector.replicate 6 3) = none :=
    exists_of_exec_from Logged.initial twoStations
      (fun w => view w.table (Vector.replicate 6 2) = some (1, 120) ∧
        view w.table (Vector.replicate 6 3) = none) (by decide +kernel)
  obtain ⟨w, hw, hview⟩ := hrun
  exact ⟨w, mac_table_ages hw, hview⟩

end Runs

end NetworkLab.LearningSwitch
