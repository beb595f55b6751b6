import NetworkLab.ArpInsertion

/-!
# The ARP table of the first router

An insertion takes the first free slot without looking for the address in the table, and where no
slot is free the one that the time gives. The sweep decides by its age alone whether an entry is
valid, also for an entry that was not. A lookup is that of the last version.
-/
namespace NetworkLab.Router
open GuardedRuns SlotTable
open Arp (ArpCacheEntry maxArpSize arpEntryTimeout arpcacheLookup view)

variable {μ : Type*}

section Model

/-- The slot of a new entry; times are in seconds since the epoch. -/
def insertSlot (entries : Fin maxArpSize → ArpCacheEntry μ) (now : ℕ) : Fin maxArpSize :=
  match (List.finRange maxArpSize).find? fun i => !(entries i).valid with
  | some i => i
  | none => Fin.ofNat maxArpSize now

/-- The first part of `arpcache_insert`. -/
def insertEntry (entries : Fin maxArpSize → ArpCacheEntry μ) (ip4 : UInt32) (mac : μ) (now : ℕ) :
    Fin maxArpSize → ArpCacheEntry μ :=
  Function.update entries (insertSlot entries now) ⟨ip4, mac, now, true⟩

/-- `now - entry->added < ARP_ENTRY_TIMEOUT`. -/
def Young (entry : ArpCacheEntry μ) (now : ℕ) : Prop := now - entry.added < arpEntryTimeout

instance (entry : ArpCacheEntry μ) (now : ℕ) : Decidable (Young entry now) :=
  inferInstanceAs (Decidable (_ < _))

/-- The first loop of `arpcache_sweep`. -/
def ageEntries (entries : Fin maxArpSize → ArpCacheEntry μ) (now : ℕ) :
    Fin maxArpSize → ArpCacheEntry μ :=
  fun i => { entries i with valid := decide (Young (entries i) now) }

inductive CacheEvent (μ : Type*)
  | insert (ip4 : UInt32) (mac : μ) (now : ℕ)
  | sweep (now : ℕ)

def cacheStep (entries : Fin maxArpSize → ArpCacheEntry μ) :
    CacheEvent μ → Fin maxArpSize → ArpCacheEntry μ
  | .insert ip4 mac now => insertEntry entries ip4 mac now
  | .sweep now => ageEntries entries now

/-- After the event no address has two valid entries, and one that was inserted is found. -/
def StaysFresh (entries : Fin maxArpSize → ArpCacheEntry μ) (e : CacheEvent μ) : Prop :=
  OneEach (view (cacheStep entries e)) ∧
    match e with
    | .insert ip4 mac _ => arpcacheLookup (cacheStep entries e) ip4 = some mac
    | .sweep _ => True

/-- An inserted address has no entry in another slot than the one that is taken, and no free slot
gets young again whose address is in another young one. -/
def NoSecond (entries : Fin maxArpSize → ArpCacheEntry μ) : CacheEvent μ → Prop
  | .insert ip4 _ now => ∀ i, (entries i).valid = true → (entries i).ip4 = ip4 →
    i = insertSlot entries now
  | .sweep now => ∀ i j, (entries i).valid = false → Young (entries i) now →
    Young (entries j) now → (entries i).ip4 = (entries j).ip4 → i = j

instance (entries : Fin maxArpSize → ArpCacheEntry μ) (e : CacheEvent μ) :
    Decidable (NoSecond entries e) :=
  match e with
  | .insert _ _ _ => inferInstanceAs (Decidable (∀ _, _ → _ → _))
  | .sweep _ => inferInstanceAs (Decidable (∀ _ _, _ → _ → _ → _ → _))

end Model

section Steps

variable {entries : Fin maxArpSize → ArpCacheEntry μ}

theorem holds_ageEntries_iff {now : ℕ} {i : Fin maxArpSize} {ip4 : UInt32} :
    Holds (view (ageEntries entries now)) i ip4 ↔
      Young (entries i) now ∧ (entries i).ip4 = ip4 := by
  rw [Arp.holds_view_iff, ageEntries, decide_eq_true_iff]

/-- One event keeps the table fresh if and only if it makes no second entry. -/
theorem staysFresh_iff (hone : OneEach (view entries)) (e : CacheEvent μ) :
    StaysFresh entries e ↔ NoSecond entries e := by
  cases e with
  | insert ip4 mac now =>
    have hview : view (cacheStep entries (.insert ip4 mac now)) =
        Function.update (view entries) (insertSlot entries now) (some (ip4, mac)) :=
      Arp.view_update _ _ _ _
    have hiff : OneEach (view (cacheStep entries (.insert ip4 mac now))) ↔
        NoSecond entries (.insert ip4 mac now) := by
      rw [hview, oneEach_update_iff hone]
      exact forall_congr' fun i => by rw [Arp.holds_view_iff, and_imp]
    refine ⟨fun h => hiff.mp h.1, fun h => ⟨hiff.mpr h, ?_⟩⟩
    have hfresh := hiff.mpr h
    rw [hview] at hfresh
    show arpcacheLookup (cacheStep entries (.insert ip4 mac now)) ip4 = some mac
    rw [Arp.arpcacheLookup_eq, hview, lookup_update (List.mem_finRange _) hfresh]
  | sweep now =>
    constructor
    · rintro ⟨hfresh, -⟩ i j - hi hj hip
      exact hfresh i j _ (holds_ageEntries_iff.mpr ⟨hi, hip⟩) (holds_ageEntries_iff.mpr ⟨hj, rfl⟩)
    · refine fun h => ⟨fun i j key hi hj => ?_, trivial⟩
      obtain ⟨hyoung, hip⟩ := holds_ageEntries_iff.mp hi
      obtain ⟨hyoung', hip'⟩ := holds_ageEntries_iff.mp hj
      cases hvalid : (entries i).valid with
      | false => exact h i j hvalid hyoung hyoung' (hip.trans hip'.symm)
      | true =>
        cases hvalid' : (entries j).valid with
        | false => exact (h j i hvalid' hyoung' hyoung (hip'.trans hip.symm)).symm
        | true =>
          exact hone i j key (Arp.holds_view_iff.mpr ⟨hvalid, hip⟩)
            (Arp.holds_view_iff.mpr ⟨hvalid', hip'⟩)

end Steps

section Runs

/-- Along every run from an empty table each event keeps it fresh if and only if each makes no
second entry. -/
theorem cache_fresh_iff {entries : Fin maxArpSize → ArpCacheEntry μ}
    (h : ∀ i, (entries i).valid = false) (events : List (CacheEvent μ)) :
    Along (fun s e => some (cacheStep s e)) StaysFresh entries events ↔
      Along (fun s e => some (cacheStep s e)) NoSecond entries events := by
  refine along_iff (fun s => OneEach (view s)) (fun s e hs => staysFresh_iff hs e) ?_
    (Arp.oneEach_of_not_valid h) events
  intro s e t _ hfresh hstep
  exact Option.some.inj hstep ▸ hfresh.1

def emptyEntries : Fin maxArpSize → ArpCacheEntry ℕ := fun _ => ⟨0, 0, 0, false⟩

theorem cache_fresh_one : Along (fun s e => some (cacheStep s e)) StaysFresh emptyEntries
    [.insert 0x0a000001 7 100, .sweep 116] := by
  refine (cache_fresh_iff (fun _ => rfl) _).mpr ⟨by decide +kernel, fun t ht => ?_⟩
  obtain rfl := Option.some.inj ht
  exact ⟨by decide +kernel, fun _ _ => trivial⟩

/-- The second address of 10.0.0.1 goes to another slot, and a lookup finds the first one. -/
theorem stale_entry : ¬Along (fun s e => some (cacheStep s e)) StaysFresh emptyEntries
      [.insert 0x0a000001 7 100, .insert 0x0a000001 8 101] ∧
    arpcacheLookup (cacheStep (cacheStep emptyEntries (.insert 0x0a000001 7 100))
      (.insert 0x0a000001 8 101)) 0x0a000001 = some 7 := by
  have hstale : arpcacheLookup (cacheStep (cacheStep emptyEntries (.insert 0x0a000001 7 100))
      (.insert 0x0a000001 8 101)) 0x0a000001 = some 7 := by decide +kernel
  refine ⟨fun h => ?_, hstale⟩
  have hfound : arpcacheLookup (cacheStep (cacheStep emptyEntries (.insert 0x0a000001 7 100))
      (.insert 0x0a000001 8 101)) 0x0a000001 = some 8 := (h.2 _ rfl).1.2
  rw [hstale] at hfound
  exact absurd hfound (by decide)

end Runs

end NetworkLab.Router
