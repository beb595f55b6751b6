import NetworkLab.ArpCache
import NetworkLab.SlotTable

/-!
# Where `arpcache_insert` puts an entry

An address that is not in the table goes to a random slot, also where another slot is free, and to
the place in front of the table where none is free: the test that should choose the random slot
only for a full table is the wrong way round.
-/
namespace NetworkLab.Arp
open GuardedRuns SlotTable

variable {μ π : Type*}

section Model

def arpcacheLookup (entries : Fin maxArpSize → ArpCacheEntry μ) (ip4 : UInt32) : Option μ :=
  ((List.finRange maxArpSize).find? fun i => (entries i).valid && (entries i).ip4 == ip4).map
    fun i => (entries i).mac

/-- One round of the first loop of `arpcache_insert`, on `pos`. -/
def nextPos (entries : Fin maxArpSize → ArpCacheEntry μ) (pos : ℤ) (i : Fin maxArpSize) : ℤ :=
  if (entries i).valid then pos else i.val

/-- `pos` after the loop. -/
def freePos (entries : Fin maxArpSize → ArpCacheEntry μ) : ℤ :=
  (List.finRange maxArpSize).foldl (nextPos entries) (-1)

/-- The places in the table that `arpcache_insert` writes to. -/
def insertSlots (entries : Fin maxArpSize → ArpCacheEntry μ) (ip4 : UInt32) (rand : ℕ) : List ℤ :=
  match (List.finRange maxArpSize).filter fun i => (entries i).valid && (entries i).ip4 == ip4 with
  | [] =>
    let pos := freePos entries
    [if pos ≠ -1 then (rand % maxArpSize : ℕ) else pos]
  | found => found.map fun i => (i.val : ℤ)

/-- What the slots hold. -/
def view (entries : Fin maxArpSize → ArpCacheEntry μ) (i : Fin maxArpSize) :
    Option (UInt32 × μ) :=
  if (entries i).valid then some ((entries i).ip4, (entries i).mac) else none

/-- An insertion writes into the table, is found by a lookup after it, leaves each address in one
slot, and takes the slot of another address only if none was free. -/
structure InsertRight (entries : Fin maxArpSize → ArpCacheEntry μ) (ip4 : UInt32) (mac : μ)
    (now : ℤ) (rand : ℕ) : Prop where
  inTable : ∀ pos ∈ insertSlots entries ip4 rand, 0 ≤ pos ∧ pos < maxArpSize
  found : arpcacheLookup (insertEntry entries ip4 mac now rand) ip4 = some mac
  unique : OneEach (view (insertEntry entries ip4 mac now rand))
  spared : ∀ i, (i.val : ℤ) ∈ insertSlots entries ip4 rand → (entries i).valid = true →
    (entries i).ip4 ≠ ip4 → ∀ j, (entries j).valid = true

/-- After `arpcache_init`. -/
def World.Empty (s : World μ π) : Prop := s.Initial ∧ ∀ i, (s.entries i).valid = false

end Model

section Slots

variable {entries : Fin maxArpSize → ArpCacheEntry μ} {ip4 : UInt32} {mac : μ} {now : ℤ}
  {rand : ℕ} {i : Fin maxArpSize}

theorem holds_view_iff : Holds (view entries) i ip4 ↔
    (entries i).valid = true ∧ (entries i).ip4 = ip4 := by
  rw [Holds, view]
  by_cases hvalid : (entries i).valid = true <;> simp [hvalid]

/-- The code's scan is that of a table. -/
theorem arpcacheLookup_eq (entries : Fin maxArpSize → ArpCacheEntry μ) (ip4 : UInt32) :
    arpcacheLookup entries ip4 = lookup (List.finRange maxArpSize) (view entries) ip4 := by
  rw [arpcacheLookup, lookup]
  induction List.finRange maxArpSize with
  | nil => rfl
  | cons i slots ih =>
    rw [List.findSome?_cons, ← ih, view]
    cases hvalid : (entries i).valid with
    | false => simp [hvalid]
    | true => by_cases hip : (entries i).ip4 = ip4 <;> simp [hvalid, hip]

theorem freePos_eq_iff : freePos entries = -1 ↔ ∀ i, (entries i).valid = true := by
  have hfold (slots : List (Fin maxArpSize)) (pos : ℤ) :
      slots.foldl (nextPos entries) pos = -1 ↔
        (∀ i ∈ slots, (entries i).valid = true) ∧ pos = -1 := by
    induction slots generalizing pos with
    | nil => simp
    | cons i slots ih =>
      rw [List.foldl_cons, ih, List.forall_mem_cons, nextPos]
      cases hvalid : (entries i).valid with
      | false =>
        have hne : (i.val : ℤ) ≠ -1 := by omega
        simp [hne]
      | true => simp
  rw [freePos, hfold]
  simp

/-- The address has an entry. -/
def Cached (entries : Fin maxArpSize → ArpCacheEntry μ) (ip4 : UInt32) : Prop :=
  ∃ i, (entries i).valid = true ∧ (entries i).ip4 = ip4

theorem mem_insertSlots_of_cached (h : Cached entries ip4) {pos : ℤ} :
    pos ∈ insertSlots entries ip4 rand ↔
      ∃ i : Fin maxArpSize, (i.val : ℤ) = pos ∧ Holds (view entries) i ip4 := by
  rw [insertSlots]
  split
  next hnone =>
    obtain ⟨i, hvalid, hip⟩ := h
    have := List.filter_eq_nil_iff.mp hnone i (List.mem_finRange i)
    simp [hvalid, hip] at this
  next =>
    simp only [List.mem_map, List.mem_filter, List.mem_finRange, holds_view_iff]
    simp [and_comm]

theorem insertSlots_of_not_cached (h : ¬Cached entries ip4) (rand : ℕ) :
    insertSlots entries ip4 rand =
      [if ∀ i, (entries i).valid = true then -1 else ((Fin.ofNat maxArpSize rand).val : ℤ)] := by
  have hnone : ((List.finRange maxArpSize).filter fun i =>
      (entries i).valid && (entries i).ip4 == ip4) = [] := by
    refine List.filter_eq_nil_iff.mpr fun i _ hi => h ⟨i, ?_⟩
    simpa using hi
  rw [insertSlots, hnone]
  by_cases hfull : ∀ i, (entries i).valid = true
  · have hpos := freePos_eq_iff.mpr hfull
    simp [hfull, hpos]
  · have hpos := mt freePos_eq_iff.mp hfull
    simp [hfull, hpos]

end Slots

section Entries

variable {entries : Fin maxArpSize → ArpCacheEntry μ} {ip4 : UInt32} {mac : μ} {now : ℤ}
  {rand : ℕ}

theorem view_update (s : Fin maxArpSize) (ip4 : UInt32) (mac : μ) (now : ℤ) :
    view (Function.update entries s ⟨ip4, mac, now, true⟩) =
      Function.update (view entries) s (some (ip4, mac)) := by
  funext i
  by_cases hi : i = s
  · subst hi
    simp [view]
  · rw [view, Function.update_of_ne hi, Function.update_of_ne hi, view]

/-- An address that is in the table keeps its slot. -/
theorem view_insertEntry_of_holds (hone : OneEach (view entries)) {s : Fin maxArpSize}
    (hs : Holds (view entries) s ip4) (mac : μ) (now : ℤ) (rand : ℕ) :
    view (insertEntry entries ip4 mac now rand) =
      Function.update (view entries) s (some (ip4, mac)) := by
  have hcached := holds_view_iff.mp hs
  rw [insertEntry, if_pos ⟨s, hcached⟩]
  funext i
  by_cases hi : i = s
  · subst hi
    rw [Function.update_self, view, if_pos hcached, if_pos hcached.1, hcached.2]
  · have hnot : ¬((entries i).valid = true ∧ (entries i).ip4 = ip4) := fun h =>
      hi (hone i s ip4 (holds_view_iff.mpr h) hs)
    rw [Function.update_of_ne hi, view, if_neg hnot, view]

theorem insertEntry_of_free (h : ¬Cached entries ip4) (hfree : ∃ i, (entries i).valid = false) :
    insertEntry entries ip4 mac now rand =
      Function.update entries (Fin.ofNat maxArpSize rand) ⟨ip4, mac, now, true⟩ :=
  (if_neg h).trans (if_pos hfree)

theorem insertEntry_of_full (h : ¬Cached entries ip4) (hfull : ¬∃ i, (entries i).valid = false) :
    insertEntry entries ip4 mac now rand = entries :=
  (if_neg h).trans (if_neg hfull)

theorem oneEach_of_not_valid (h : ∀ i, (entries i).valid = false) : OneEach (view entries) := by
  intro i j key hi _
  have hvalid := (holds_view_iff.mp hi).1
  rw [h i] at hvalid
  cases hvalid

theorem not_holds_of_not_cached (h : ¬Cached entries ip4) (i : Fin maxArpSize) :
    ¬Holds (view entries) i ip4 := fun hi => h ⟨i, holds_view_iff.mp hi⟩

/-- No insertion gives an address a second slot. -/
theorem oneEach_insertEntry (hone : OneEach (view entries)) (ip4 : UInt32) (mac : μ) (now : ℤ)
    (rand : ℕ) :
    OneEach (view (insertEntry entries ip4 mac now rand)) := by
  by_cases hcached : Cached entries ip4
  · obtain ⟨s, hs⟩ := hcached
    have hs := holds_view_iff.mpr hs
    rw [view_insertEntry_of_holds hone hs]
    exact (oneEach_update_iff hone).mpr fun i hi => hone i s ip4 hi hs
  · by_cases hfree : ∃ i, (entries i).valid = false
    · rw [insertEntry_of_free hcached hfree, view_update]
      exact (oneEach_update_iff hone).mpr fun i hi =>
        absurd hi (not_holds_of_not_cached hcached i)
    · rw [insertEntry_of_full hcached hfree]
      exact hone

theorem oneEach_expireEntries (hone : OneEach (view entries)) :
    OneEach (view (expireEntries entries now)) := by
  apply hone.of_holds
  intro i key h
  rw [holds_view_iff, expireEntries] at h
  split_ifs at h with hold
  · exact absurd h.1 not_false
  · exact holds_view_iff.mpr h

theorem insertRight_of_cached (hone : OneEach (view entries)) (hcached : Cached entries ip4) :
    InsertRight entries ip4 mac now rand := by
  have hunique := oneEach_insertEntry hone ip4 mac now rand
  refine ⟨fun pos hpos => ?_, ?_, hunique, fun i hi _ hip => ?_⟩
  · obtain ⟨i, rfl, -⟩ := (mem_insertSlots_of_cached hcached).mp hpos
    exact ⟨Int.natCast_nonneg _, Int.ofNat_lt.mpr i.isLt⟩
  · obtain ⟨s, hs⟩ := hcached
    have hview := view_insertEntry_of_holds hone (holds_view_iff.mpr hs) mac now rand
    rw [hview] at hunique
    rw [arpcacheLookup_eq, hview, lookup_update (List.mem_finRange s) hunique]
  · obtain ⟨j, hj, hholds⟩ := (mem_insertSlots_of_cached hcached).mp hi
    obtain rfl : j = i := Fin.ext (by exact_mod_cast hj)
    exact absurd (holds_view_iff.mp hholds).2 hip

/-- The random slot must not take the place of another address while a slot is free. -/
theorem insertRight_iff_of_free (hone : OneEach (view entries)) (hcached : ¬Cached entries ip4)
    (hfree : ∃ i, (entries i).valid = false) :
    InsertRight entries ip4 mac now rand ↔
      (entries (Fin.ofNat maxArpSize rand)).valid = false := by
  have hunique := oneEach_insertEntry hone ip4 mac now rand
  have hslots := insertSlots_of_not_cached hcached rand
  have hnotall : ¬∀ i, (entries i).valid = true := by simpa using hfree
  rw [if_neg hnotall] at hslots
  constructor
  · intro h
    by_contra hnot
    have hvalid : (entries (Fin.ofNat maxArpSize rand)).valid = true := by simpa using hnot
    refine hnotall (h.spared (Fin.ofNat maxArpSize rand) ?_ hvalid fun hip =>
      hcached ⟨_, hvalid, hip⟩)
    rw [hslots]
    exact List.mem_singleton.mpr rfl
  · intro hslot
    refine ⟨fun pos hpos => ?_, ?_, hunique, fun i hi hvalid => ?_⟩
    · rw [hslots, List.mem_singleton] at hpos
      rw [hpos]
      exact ⟨Int.natCast_nonneg _, Int.ofNat_lt.mpr (Fin.isLt _)⟩
    · rw [insertEntry_of_free hcached hfree, view_update] at hunique
      rw [arpcacheLookup_eq, insertEntry_of_free hcached hfree, view_update,
        lookup_update (List.mem_finRange _) hunique]
    · rw [hslots, List.mem_singleton] at hi
      obtain rfl : i = Fin.ofNat maxArpSize rand := Fin.ext (by exact_mod_cast hi)
      rw [hslot] at hvalid
      cases hvalid

/-- A full table is written in front of. -/
theorem insertSlots_of_full (hcached : ¬Cached entries ip4)
    (hfull : ∀ i, (entries i).valid = true) (rand : ℕ) :
    insertSlots entries ip4 rand = [-1] := by
  rw [insertSlots_of_not_cached hcached, if_pos hfull]

theorem not_insertRight_of_full (hcached : ¬Cached entries ip4)
    (hfull : ∀ i, (entries i).valid = true) : ¬InsertRight entries ip4 mac now rand := by
  intro h
  have hmem : (-1 : ℤ) ∈ insertSlots entries ip4 rand := by
    rw [insertSlots_of_full hcached hfull]
    exact List.mem_singleton.mpr rfl
  exact absurd (h.inTable _ hmem).1 (by decide)

/-- An insertion is right if the address has an entry, or the random slot is free. -/
theorem insertRight_iff_slot (hone : OneEach (view entries)) :
    InsertRight entries ip4 mac now rand ↔
      Cached entries ip4 ∨ (entries (Fin.ofNat maxArpSize rand)).valid = false := by
  by_cases hcached : Cached entries ip4
  · exact iff_of_true (insertRight_of_cached hone hcached) (.inl hcached)
  · rw [or_iff_right hcached]
    by_cases hfree : ∃ i, (entries i).valid = false
    · exact insertRight_iff_of_free hone hcached hfree
    · have hfull : ∀ i, (entries i).valid = true := by simpa using hfree
      exact iff_of_false (not_insertRight_of_full hcached hfull) fun h => hfree ⟨_, h⟩

end Entries

section Runs

variable {s t : World μ π}

/-- Only insertions and the sweep change the table. -/
theorem World.entries_step {e : Event μ π} (hstep : s.step e = some t) :
    t.entries = s.entries ∨
      (∃ ip4 mac now rand, t.entries = insertEntry s.entries ip4 mac now rand) ∨
      ∃ now, t.entries = expireEntries s.entries now := by
  cases World.stepped hstep with
  | appendFound => exact .inl rfl
  | appendNew => exact .inl rfl
  | request => exact .inl rfl
  | insert ip4 mac now rand => exact .inr (.inl ⟨ip4, mac, now, rand, rfl⟩)
  | flush ip4 mac now rand => exact .inr (.inl ⟨ip4, mac, now, rand, rfl⟩)
  | sweep now => exact .inr (.inr ⟨now, rfl⟩)
  | report => exact .inl rfl

/-- In every run no address has two slots. -/
theorem oneEach_of_reaches (h : Reaches World.step anyStep World.Empty s) :
    OneEach (view s.entries) := by
  refine h.invariant (fun s => OneEach (view s.entries)) (fun _ hs => oneEach_of_not_valid hs.2) ?_
  intro s e t hone _ hstep
  rcases World.entries_step hstep with heq | ⟨ip4, mac, now, rand, heq⟩ | ⟨now, heq⟩
  · rwa [heq]
  · rw [heq]
    exact oneEach_insertEntry hone ip4 mac now rand
  · rw [heq]
    exact oneEach_expireEntries hone

/-- In every state of every run an insertion is right if the address has an entry, or the random
slot is free. -/
theorem insertRight_iff (h : Reaches World.step anyStep World.Empty s) (ip4 : UInt32) (mac : μ)
    (now : ℤ) (rand : ℕ) : InsertRight s.entries ip4 mac now rand ↔
      (∃ i, (s.entries i).valid = true ∧ (s.entries i).ip4 = ip4) ∨
        (s.entries (Fin.ofNat maxArpSize rand)).valid = false :=
  insertRight_iff_slot (oneEach_of_reaches h)

def emptyWorld : World ℕ ℕ where
  entries := fun _ => ⟨0, 0, 0, false⟩
  reqList := []
  pktList := []
  toRequest := []
  nextSerial := 0
  appended := []
  sent := []
  reported := []
  requests := []

theorem empty_emptyWorld : emptyWorld.Empty := by simp [World.Empty, World.Initial, emptyWorld]

/-- Two addresses have been learned. -/
def learned : List (Event ℕ ℕ) := [.insert 0x0a000001 7 0 3, .insert 0x0a000002 8 1 4]

/-- A third address goes into a free slot, and the first one keeps its slot. -/
theorem insertRight_learned : ∃ s : World ℕ ℕ,
    (s.entries 3).ip4 = 0x0a000001 ∧ (s.entries 4).ip4 = 0x0a000002 ∧
      InsertRight s.entries 0x0a000003 9 2 5 ∧ InsertRight s.entries 0x0a000001 9 2 4 := by
  have hrun : ∃ s : World ℕ ℕ, Reaches World.step anyStep World.Empty s ∧
      ((s.entries 3).ip4 = 0x0a000001 ∧ (s.entries 3).valid = true) ∧
        (s.entries 4).ip4 = 0x0a000002 ∧ (s.entries 5).valid = false :=
    exists_of_exec empty_emptyWorld learned
      (fun s => ((s.entries 3).ip4 = 0x0a000001 ∧ (s.entries 3).valid = true) ∧
        (s.entries 4).ip4 = 0x0a000002 ∧ (s.entries 5).valid = false) (by decide +kernel)
  obtain ⟨s, hs, ⟨hfirst, hvalid⟩, hsecond, hfree⟩ := hrun
  exact ⟨s, hfirst, hsecond, (insertRight_iff hs _ _ _ 5).mpr (.inr hfree),
    (insertRight_iff hs _ _ _ 4).mpr (.inl ⟨3, hvalid, hfirst⟩)⟩

/-- The first slots hold addresses that count up. -/
def Filled (entries : Fin maxArpSize → ArpCacheEntry μ) (n : ℕ) : Prop :=
  ∀ i, ((entries i).valid = true ↔ i.val < n) ∧
    (i.val < n → (entries i).ip4 = UInt32.ofNat i.val)

theorem Filled.succ {entries : Fin maxArpSize → ArpCacheEntry μ} {n : ℕ} (h : Filled entries n)
    (hn : n < maxArpSize) (mac : μ) :
    Filled (insertEntry entries (UInt32.ofNat n) mac 0 n) (n + 1) := by
  have hslot : (Fin.ofNat maxArpSize n).val = n := Nat.mod_eq_of_lt hn
  have hcached : ¬Cached entries (UInt32.ofNat n) := by
    rintro ⟨i, hvalid, hip⟩
    have hlt := (h i).1.mp hvalid
    rw [(h i).2 hlt] at hip
    have hnat := congrArg UInt32.toNat hip
    rw [UInt32.toNat_ofNat', UInt32.toNat_ofNat', maxArpSize] at *
    omega
  have hfree : (entries (Fin.ofNat maxArpSize n)).valid = false := by
    apply Bool.eq_false_iff.mpr
    intro hvalid
    have hlt := (h _).1.mp hvalid
    rw [hslot] at hlt
    exact Nat.lt_irrefl n hlt
  rw [insertEntry_of_free hcached ⟨_, hfree⟩]
  intro i
  by_cases hi : i = Fin.ofNat maxArpSize n
  · rw [hi, Function.update_self, hslot]
    exact ⟨iff_of_true rfl (Nat.lt_succ_self n), fun _ => rfl⟩
  · have hne : i.val ≠ n := fun heq => hi (Fin.ext (heq.trans hslot.symm))
    rw [Function.update_of_ne hi]
    exact ⟨(h i).1.trans (by omega), fun hlt => (h i).2 (by omega)⟩

/-- The table can be filled, by random numbers that go through the slots in order. -/
theorem exists_filled (n : ℕ) (hn : n ≤ maxArpSize) : ∃ s : World ℕ ℕ,
    Reaches World.step anyStep World.Empty s ∧ s.reqList = [] ∧ Filled s.entries n := by
  induction n with
  | zero => exact ⟨emptyWorld, .start empty_emptyWorld, rfl, fun i => by simp [emptyWorld]⟩
  | succ n ih =>
    obtain ⟨s, hs, hreq, hfilled⟩ := ih (Nat.le_of_succ_le hn)
    refine ⟨{ s with entries := insertEntry s.entries (UInt32.ofNat n) 0 0 n },
      .next (e := .insert (UInt32.ofNat n) 0 0 n) hs trivial ?_, hreq, hfilled.succ hn 0⟩
    rw [World.step, hreq]
    rfl

/-- An insertion into a full table writes in front of it. -/
theorem full_table_overrun : ∃ s : World ℕ ℕ, Reaches World.step anyStep World.Empty s ∧
    insertSlots s.entries 0x0a000001 0 = [-1] ∧ ¬InsertRight s.entries 0x0a000001 7 0 0 := by
  obtain ⟨s, hs, -, hfilled⟩ := exists_filled maxArpSize le_rfl
  have hall (i : Fin maxArpSize) : (s.entries i).valid = true := (hfilled i).1.mpr i.isLt
  have hcached : ¬Cached s.entries 0x0a000001 := by
    rintro ⟨i, -, hip⟩
    rw [(hfilled i).2 i.isLt] at hip
    have hnat : (UInt32.ofNat i.val).toNat = 167772161 := congrArg UInt32.toNat hip
    have hlt : i.val < 32 := i.isLt
    rw [UInt32.toNat_ofNat'] at hnat
    omega
  exact ⟨s, hs, insertSlots_of_full hcached hall 0, not_insertRight_of_full hcached hall⟩

end Runs

end NetworkLab.Arp
