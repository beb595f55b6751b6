import Mathlib.Tactic

/-!
# Routing tables

Entries of `rtable.h` in list order, and the longest prefix match of `ip.c`.
The type of interfaces is a parameter: it is the pointer stored in an entry.
-/
namespace NetworkLab

structure RtEntry (ι : Type*) where
  dest : UInt32
  mask : UInt32
  gw : UInt32
  iface : ι
  deriving DecidableEq

/-- `add_rt_entry`. -/
def addRtEntry {ι : Type*} (rtable : List (RtEntry ι)) (entry : RtEntry ι) : List (RtEntry ι) :=
  rtable ++ [entry]

/-- The entry covers the address. -/
def RtEntry.Matches {ι : Type*} (entry : RtEntry ι) (dst : UInt32) : Prop :=
  dst &&& entry.mask = entry.dest &&& entry.mask

instance {ι : Type*} (entry : RtEntry ι) (dst : UInt32) : Decidable (entry.Matches dst) :=
  inferInstanceAs (Decidable (_ = _))

/-- One step of the scan: keep the entry unless the new one is longer. -/
def longer {ι : Type*} (dst : UInt32) (selected : Option (RtEntry ι)) (entry : RtEntry ι) :
    Option (RtEntry ι) :=
  if entry.Matches dst then
    match selected with
    | none => some entry
    | some s => if s.mask < entry.mask then some entry else some s
  else selected

def longestPrefixMatch {ι : Type*} (rtable : List (RtEntry ι)) (dst : UInt32) :
    Option (RtEntry ι) := rtable.foldl (longer dst) none

theorem foldl_longer_eq_none {ι : Type*} (dst : UInt32) (rtable : List (RtEntry ι))
    (selected : Option (RtEntry ι)) :
    rtable.foldl (longer dst) selected = none ↔
      selected = none ∧ ∀ entry ∈ rtable, ¬ entry.Matches dst := by
  induction rtable generalizing selected with
  | nil => simp
  | cons entry rtable ih =>
    have hstep : longer dst selected entry = none ↔ selected = none ∧ ¬ entry.Matches dst := by
      unfold longer
      by_cases hm : entry.Matches dst
      · cases selected with
        | none => simp [hm]
        | some s => by_cases hlt : s.mask < entry.mask <;> simp [hm, hlt]
      · simp [hm]
    simp only [List.foldl_cons, ih, hstep, List.mem_cons, forall_eq_or_imp, and_assoc]

/-- The match is missing exactly when no entry covers the address. -/
theorem longestPrefixMatch_eq_none {ι : Type*} (rtable : List (RtEntry ι)) (dst : UInt32) :
    longestPrefixMatch rtable dst = none ↔ ∀ entry ∈ rtable, ¬ entry.Matches dst := by
  simp [longestPrefixMatch, foldl_longer_eq_none]

theorem longestPrefixMatch_append {ι : Type*} (rtable : List (RtEntry ι)) (entry : RtEntry ι)
    (dst : UInt32) : longestPrefixMatch (rtable ++ [entry]) dst =
      longer dst (longestPrefixMatch rtable dst) entry :=
  List.foldl_append

/-- Of the entries around it that cover the address, an earlier one is as long or a later one is
longer. -/
def Outdone {ι : Type*} (dst : UInt32) (before : List (RtEntry ι)) (entry : RtEntry ι)
    (after : List (RtEntry ι)) : Prop :=
  (∃ other ∈ before, other.Matches dst ∧ entry.mask ≤ other.mask) ∨
    ∃ other ∈ after, other.Matches dst ∧ entry.mask < other.mask

/-- The match covers the address and is not outdone. -/
theorem longestPrefixMatch_spec {ι : Type*} {rtable : List (RtEntry ι)} {dst : UInt32}
    {entry : RtEntry ι} (h : longestPrefixMatch rtable dst = some entry) :
    ∃ before after, rtable = before ++ entry :: after ∧ entry.Matches dst ∧
      ¬Outdone dst before entry after := by
  induction rtable using List.reverseRecOn generalizing entry with
  | nil => cases h
  | append_singleton rtable last ih =>
    rw [longestPrefixMatch_append] at h
    unfold longer at h
    -- The match so far is not outdone by a last entry that is not longer.
    have hkept (hbest : longestPrefixMatch rtable dst = some entry)
        (hlast : last.Matches dst → last.mask ≤ entry.mask) :
        ∃ before after, rtable ++ [last] = before ++ entry :: after ∧ entry.Matches dst ∧
          ¬Outdone dst before entry after := by
      obtain ⟨before, after, rfl, hmatch, hbeats⟩ := ih hbest
      refine ⟨before, after ++ [last], by simp, hmatch, ?_⟩
      rintro (hbefore | ⟨other, hother, hcovers, hlonger⟩)
      · exact hbeats (.inl hbefore)
      · rcases List.mem_append.mp hother with hold | hnew
        · exact hbeats (.inr ⟨other, hold, hcovers, hlonger⟩)
        · obtain rfl := List.mem_singleton.mp hnew
          exact UInt32.not_lt.mpr (hlast hcovers) hlonger
    split_ifs at h with hlast
    · cases hbest : longestPrefixMatch rtable dst with
      | none =>
        rw [hbest] at h
        obtain rfl := Option.some.inj h
        have hnone := (longestPrefixMatch_eq_none rtable dst).mp hbest
        refine ⟨rtable, [], rfl, hlast, ?_⟩
        rintro (⟨other, hother, hcovers, -⟩ | ⟨other, hother, -⟩)
        · exact hnone other hother hcovers
        · cases hother
      | some best =>
        rw [hbest] at h
        simp only at h
        split_ifs at h with hlt
        · obtain rfl := Option.some.inj h
          obtain ⟨before, after, rfl, hmatch, hbeats⟩ := ih hbest
          refine ⟨before ++ best :: after, [], rfl, hlast, ?_⟩
          rintro (⟨other, hother, hcovers, hle⟩ | ⟨other, hother, -⟩)
          · have hlonger : best.mask < other.mask := UInt32.lt_of_lt_of_le hlt hle
            simp only [List.mem_append, List.mem_cons] at hother
            rcases hother with hold | rfl | hnew
            · exact hbeats (.inl ⟨other, hold, hcovers, UInt32.le_of_lt hlonger⟩)
            · exact UInt32.lt_irrefl _ hlonger
            · exact hbeats (.inr ⟨other, hnew, hcovers, hlonger⟩)
          · cases hother
        · obtain rfl := Option.some.inj h
          exact hkept hbest fun _ => UInt32.not_lt.mp hlt
    · exact hkept h fun hcovers => absurd hcovers hlast

/-- An entry that covers the address and is not outdone is the match. -/
theorem longestPrefixMatch_of_not_outdone {ι : Type*} {before after : List (RtEntry ι)}
    {dst : UInt32} {entry : RtEntry ι} (hmatch : entry.Matches dst)
    (hbeats : ¬Outdone dst before entry after) :
    longestPrefixMatch (before ++ entry :: after) dst = some entry := by
  induction after using List.reverseRecOn with
  | nil =>
    rw [longestPrefixMatch_append]
    unfold longer
    rw [if_pos hmatch]
    cases hbest : longestPrefixMatch before dst with
    | none => rfl
    | some best =>
      obtain ⟨before₁, after₁, rfl, hcovers, -⟩ := longestPrefixMatch_spec hbest
      refine if_pos (UInt32.not_le.mp fun hle => hbeats (.inl ⟨best, ?_, hcovers, hle⟩))
      exact List.mem_append_right _ List.mem_cons_self
  | append_singleton after last ih =>
    have hprefix : ¬Outdone dst before entry after := by
      rintro (hbefore | ⟨other, hother, hother'⟩)
      · exact hbeats (.inl hbefore)
      · exact hbeats (.inr ⟨other, List.mem_append_left _ hother, hother'⟩)
    rw [← List.cons_append, ← List.append_assoc, longestPrefixMatch_append, ih hprefix]
    unfold longer
    split_ifs with hcovers
    · exact if_neg fun hlonger =>
        hbeats (.inr ⟨last, List.mem_concat_self, hcovers, hlonger⟩)
    · rfl

end NetworkLab
