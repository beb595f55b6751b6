import NetworkLab.BucketTable
import NetworkLab.Hash

/-!
# The MAC table of the learning switch

The table of `mac.c`: 256 chained buckets indexed by the exclusive or of the
address bytes. Interfaces are pointers in the source; here they are elements of
an arbitrary type. `view` forgets the buckets and keeps, for every address, the
interface and the time of the last visit.
-/
namespace NetworkLab.LearningSwitch

/-- A hardware address, `ETH_ALEN` bytes. -/
abbrev Mac := Vector UInt8 6

def macHash (mac : Mac) : UInt8 := hash8 mac.toList

/-- Seconds after which an unvisited entry is swept. -/
def macPortTimeout : ℤ := 30

structure MacPortEntry (ι : Type*) where
  mac : Mac
  iface : ι
  visited : ℤ
  deriving DecidableEq

abbrev MacPortMap (ι : Type*) :=
  BucketTable (MacPortEntry ι) Mac UInt8 MacPortEntry.mac macHash

variable {ι : Type*}

/-- The visit that a successful search records. -/
def visit (now : ℤ) (entry : MacPortEntry ι) : MacPortEntry ι := { entry with visited := now }

@[simp] theorem visit_mac (now : ℤ) (entry : MacPortEntry ι) :
    (visit now entry).mac = entry.mac := rfl

/-- Interface of an address, if it has an entry; the entry counts as visited. -/
def lookupPort (m : MacPortMap ι) (mac : Mac) (now : ℤ) : Option ι × MacPortMap ι :=
  match m.get mac with
  | some entry => (some entry.iface, m.modify mac (visit now) (visit_mac now))
  | none => (none, m)

/-- Learn a source address. An address that already has an entry is only marked
as visited: the interface stored for it stays the old one. -/
def insertMacPort (m : MacPortMap ι) (mac : Mac) (iface : ι) (now : ℤ) : MacPortMap ι :=
  match h : m.get mac with
  | some _ => m.modify mac (visit now) (visit_mac now)
  | none => m.add ⟨mac, iface, now⟩ h

/-- Delete the entries not visited during the last `macPortTimeout` seconds. -/
def sweepAgedMacPortEntry (m : MacPortMap ι) (now : ℤ) : MacPortMap ι :=
  m.filter (fun entry => !decide (now - entry.visited > macPortTimeout))

/-- What the table knows of an address: its interface and its last visit. -/
def view (m : MacPortMap ι) (mac : Mac) : Option (ι × ℤ) :=
  (m.get mac).map (fun entry => (entry.iface, entry.visited))

@[simp] theorem view_empty (mac : Mac) : view (BucketTable.empty : MacPortMap ι) mac = none := by
  simp [view, BucketTable.get_empty]

theorem lookupPort_fst (m : MacPortMap ι) (mac : Mac) (now : ℤ) :
    (lookupPort m mac now).1 = (view m mac).map Prod.fst := by
  cases h : m.get mac <;> simp [lookupPort, view, h]

theorem view_modify (m : MacPortMap ι) (mac : Mac) (now : ℤ) (d : Mac) :
    view (m.modify mac (visit now) (visit_mac now)) d =
      if mac = d then (view m d).map (fun p => (p.1, now)) else view m d := by
  by_cases hd : mac = d
  · subst hd
    cases h : m.get mac <;> simp [view, BucketTable.get_modify, visit, h]
  · simp [view, BucketTable.get_modify, hd]

theorem view_lookupPort (m : MacPortMap ι) (mac : Mac) (now : ℤ) (d : Mac) :
    view (lookupPort m mac now).2 d =
      if mac = d then (view m d).map (fun p => (p.1, now)) else view m d := by
  cases h : m.get mac with
  | none =>
    by_cases hd : mac = d
    · subst hd; simp [lookupPort, view, h]
    · simp [lookupPort, h, hd]
  | some entry => simp only [lookupPort, h, view_modify]

/-- Learning keeps the old interface of an address that has an entry. -/
theorem view_insertMacPort (m : MacPortMap ι) (mac : Mac) (iface : ι) (now : ℤ) (d : Mac) :
    view (insertMacPort m mac iface now) d =
      if mac = d then some (((view m d).map Prod.fst).getD iface, now) else view m d := by
  unfold insertMacPort
  split
  next entry h =>
    rw [view_modify]
    by_cases hd : mac = d
    · subst hd; simp [view, h]
    · simp [hd]
  next h =>
    by_cases hd : mac = d
    · subst hd; simp [view, BucketTable.get_add, h]
    · simp [view, BucketTable.get_add, hd]

theorem view_sweepAgedMacPortEntry (m : MacPortMap ι) (now : ℤ) (d : Mac) :
    view (sweepAgedMacPortEntry m now) d =
      (view m d).filter (fun p => !decide (now - p.2 > macPortTimeout)) := by
  cases h : m.get d with
  | none => simp [view, sweepAgedMacPortEntry, BucketTable.get_filter, h]
  | some entry =>
    by_cases hage : now - entry.visited > macPortTimeout <;>
      simp [view, sweepAgedMacPortEntry, BucketTable.get_filter, h, Option.filter, hage]

end NetworkLab.LearningSwitch
