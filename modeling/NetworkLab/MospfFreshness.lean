import NetworkLab.MospfDatabase
import NetworkLab.GuardedRuns

/-!
# Freshness of a link state entry

One router sends its LSUs to another over a link that loses nothing and keeps the order. The
sequence number has 16 bits and the receiver compares it as it is, so the entry follows the
sender until the number has gone round.
-/
namespace NetworkLab.Mospf
open GuardedRuns

section Model

/-- The sender's `sequence_num`, the LSUs on the link, and the receiver's database; beside them
what has been sent, what has arrived, and how often the loop of the sender has run. -/
structure LsuLink where
  sequenceNum : UInt16
  wire : List Lsu
  db : List MospfDbEntry
  sent : List Lsu
  delivered : List Lsu
  rounds : ℕ

inductive LsuEvent
  /-- One round of `sending_mospf_lsu_thread`, with as many copies for the receiver. -/
  | round (array : List MospfLsa) (copies : ℕ)
  | deliver

/-- The sender is `rid`, the receiver `routerId`. -/
def LsuLink.step (rid routerId : UInt32) (s : LsuLink) : LsuEvent → Option LsuLink
  | .round array copies =>
    let lsus := List.replicate copies ⟨rid, s.sequenceNum, array⟩
    some { s with
      sequenceNum := s.sequenceNum + 1
      wire := s.wire ++ lsus
      sent := s.sent ++ lsus
      rounds := s.rounds + 1 }
  | .deliver =>
    match s.wire with
    | [] => none
    | lsu :: wire => some { s with
        wire := wire
        db := Mospf.deliver routerId s.db lsu
        delivered := s.delivered ++ [lsu] }

/-- After `mospf_init` on both sides. -/
def LsuLink.start : LsuLink := ⟨0, [], [], [], [], 0⟩

/-- A round that sends is one of the first 65536. -/
def beforeWrap (s : LsuLink) : LsuEvent → Prop
  | .round _ copies => copies = 0 ∨ s.rounds < 2 ^ 16
  | .deliver => True

end Model

section Fresh

variable {rid routerId : UInt32} {s t : LsuLink} {e : LsuEvent}

/-- Every LSU sent is newer than those before it. -/
structure LsuLink.Rising (rid routerId : UInt32) (s : LsuLink) : Prop where
  sequence : s.sequenceNum = UInt16.ofNat s.rounds
  below : ∀ lsu ∈ s.sent, lsu.rid = rid ∧ lsu.seq.toNat < s.rounds
  rising : s.sent.Pairwise fun lsu lsu' => lsu = lsu' ∨ lsu.seq < lsu'.seq
  order : s.sent = s.delivered ++ s.wire
  db : s.db = databaseAfter routerId s.delivered

theorem LsuLink.Rising.step (h : s.Rising rid routerId) (hok : beforeWrap s e)
    (hstep : s.step rid routerId e = some t) : t.Rising rid routerId := by
  cases e with
  | round array copies =>
    obtain rfl := Option.some.inj hstep
    -- A copy that is sent in this round has the number of the round.
    have hnew (lsu : Lsu) (hlsu : lsu ∈ List.replicate copies ⟨rid, s.sequenceNum, array⟩) :
        lsu = ⟨rid, s.sequenceNum, array⟩ ∧ s.sequenceNum.toNat = s.rounds := by
      obtain ⟨hcopies, rfl⟩ := List.mem_replicate.mp hlsu
      refine ⟨rfl, ?_⟩
      rw [h.sequence]
      exact UInt16.toNat_ofNat_of_lt' (hok.resolve_left hcopies)
    refine ⟨?_, fun lsu hlsu => ?_, ?_, ?_, h.db⟩
    · show s.sequenceNum + 1 = UInt16.ofNat (s.rounds + 1)
      rw [h.sequence, UInt16.ofNat_add]
      rfl
    · show lsu.rid = rid ∧ lsu.seq.toNat < s.rounds + 1
      rcases List.mem_append.mp hlsu with hold | hlast
      · obtain ⟨hrid, hlt⟩ := h.below lsu hold
        exact ⟨hrid, hlt.trans (Nat.lt_succ_self _)⟩
      · obtain ⟨rfl, hseq⟩ := hnew lsu hlast
        exact ⟨rfl, hseq ▸ Nat.lt_succ_self _⟩
    · refine List.pairwise_append.mpr ⟨h.rising, ?_, fun lsu hold lsu' hlast => .inr ?_⟩
      · exact List.pairwise_replicate.mpr (.inr (.inl rfl))
      · obtain ⟨rfl, hseq⟩ := hnew lsu' hlast
        exact UInt16.lt_iff_toNat_lt.mpr (hseq ▸ (h.below lsu hold).2)
    · show s.sent ++ _ = s.delivered ++ (s.wire ++ _)
      rw [h.order, List.append_assoc]
  | deliver =>
    rw [LsuLink.step] at hstep
    cases hwire : s.wire with
    | nil =>
      rw [hwire] at hstep
      cases hstep
    | cons lsu wire =>
      rw [hwire] at hstep
      obtain rfl := Option.some.inj hstep
      refine ⟨h.sequence, h.below, h.rising, ?_, ?_⟩
      · show s.sent = s.delivered ++ [lsu] ++ wire
        rw [h.order, hwire, List.append_assoc]
        rfl
      · show deliver routerId s.db lsu = databaseAfter routerId (s.delivered ++ [lsu])
        rw [databaseAfter_append, h.db]

/-- Until the sequence number has gone round the entry is the LSU that has arrived last, which
is the last one sent when nothing is on the link. -/
theorem lsu_fresh (hne : rid ≠ routerId)
    (h : Reaches (LsuLink.step rid routerId) beforeWrap (· = LsuLink.start) s) :
    s.sent = s.delivered ++ s.wire ∧
      ∀ lsu, s.delivered.getLast? = some lsu → entryOf s.db rid = some (lsu.seq, lsu.array) := by
  have hrising : s.Rising rid routerId := by
    refine h.invariant (LsuLink.Rising rid routerId) ?_ fun _ _ _ => LsuLink.Rising.step
    rintro _ rfl
    exact ⟨rfl, fun lsu hlsu => absurd hlsu List.not_mem_nil, List.Pairwise.nil, rfl, rfl⟩
  refine ⟨hrising.order, fun lsu hlast => ?_⟩
  obtain ⟨before, hbefore⟩ : ∃ before, s.delivered = before ++ [lsu] :=
    ⟨s.delivered.dropLast, (List.dropLast_append_getLast? lsu hlast).symm⟩
  have hsub : ∀ l ∈ s.delivered, l ∈ s.sent := fun l hl => by
    rw [hrising.order]
    exact List.mem_append_left _ hl
  have hmem : lsu ∈ s.delivered := by
    rw [hbefore]
    exact List.mem_concat_self
  have hrid := (hrising.below lsu (hsub lsu hmem)).1
  obtain ⟨hsome, hmax⟩ := entryOf_databaseAfter hne s.delivered
  obtain ⟨seq, array, hentry, hle⟩ := hmax lsu hmem hrid
  have hstored := hsome seq array hentry
  rw [hrising.db, hentry]
  have hsorted : s.delivered.Pairwise fun lsu lsu' => lsu = lsu' ∨ lsu.seq < lsu'.seq := by
    have hall := hrising.rising
    rw [hrising.order] at hall
    exact (List.pairwise_append.mp hall).1
  rw [hbefore] at hstored hsorted
  rcases List.mem_append.mp hstored with hold | hend
  · rcases (List.pairwise_append.mp hsorted).2.2 _ hold lsu (List.mem_singleton_self lsu) with
      heq | hlt
    · rw [← heq]
    · exact absurd hle (UInt16.not_le.mpr hlt)
  · rw [← List.mem_singleton.mp hend]

instance (s : LsuLink) : (e : LsuEvent) → Decidable (beforeWrap s e)
  | .round _ _ => inferInstanceAs (Decidable (_ ∨ _))
  | .deliver => isTrue trivial

/-- Three rounds; the second LSU has arrived after two copies of the first, the third has not. -/
def threeRounds : List LsuEvent :=
  [.round [⟨3, 4, 5⟩] 2, .deliver, .round [⟨3, 4, 5⟩, ⟨6, 4, 7⟩] 1, .deliver, .deliver,
    .round [] 1]

theorem lsu_fresh_threeRounds : ∃ s : LsuLink, s.rounds = 3 ∧
    s.delivered.map Lsu.seq = [0, 0, 1] ∧ s.wire.map Lsu.seq = [2] ∧
      entryOf s.db 2 = some (1, [⟨3, 4, 5⟩, ⟨6, 4, 7⟩]) := by
  have hrun : ∃ s, Reaches (LsuLink.step 2 1) beforeWrap (· = LsuLink.start) s ∧
      s.rounds = 3 ∧ s.delivered.map Lsu.seq = [0, 0, 1] ∧ s.wire.map Lsu.seq = [2] ∧
        s.delivered.getLast? = some ⟨2, 1, [⟨3, 4, 5⟩, ⟨6, 4, 7⟩]⟩ :=
    exists_of_exec_from LsuLink.start threeRounds
      (fun s => s.rounds = 3 ∧ s.delivered.map Lsu.seq = [0, 0, 1] ∧ s.wire.map Lsu.seq = [2] ∧
        s.delivered.getLast? = some ⟨2, 1, [⟨3, 4, 5⟩, ⟨6, 4, 7⟩]⟩) (by decide +kernel)
  obtain ⟨s, hs, hrounds, hdelivered, hwire, hlast⟩ := hrun
  exact ⟨s, hrounds, hdelivered, hwire, (lsu_fresh (by decide) hs).2 _ hlast⟩

end Fresh

section Wrap

/-- After `n + 1` rounds that have each been delivered before the next. -/
def inStep (n : ℕ) (sent : List Lsu) : LsuLink :=
  ⟨UInt16.ofNat (n + 1), [], [⟨2, UInt16.ofNat n, mospfDatabaseTimeout, nodeAdd, []⟩], sent, sent,
    n + 1⟩

theorem reaches_inStep (n : ℕ) (hn : n < 2 ^ 16) :
    ∃ sent, Reaches (LsuLink.step 2 1) anyStep (· = LsuLink.start) (inStep n sent) := by
  induction n with
  | zero =>
    refine ⟨[⟨2, 0, []⟩], ?_⟩
    exact .next (e := .deliver) (.next (e := .round [] 1) (.start rfl) trivial rfl) trivial rfl
  | succ n ih =>
    obtain ⟨sent, hreach⟩ := ih (by omega)
    have hlt : ¬UInt16.ofNat (n + 1) ≤ UInt16.ofNat n := by
      rw [UInt16.le_iff_toNat_le, UInt16.toNat_ofNat_of_lt' hn,
        UInt16.toNat_ofNat_of_lt' (Nat.lt_of_succ_lt hn)]
      omega
    have hdb : Mospf.deliver 1 (inStep n sent).db ⟨2, UInt16.ofNat (n + 1), []⟩ =
        (inStep (n + 1) sent).db := by
      have htwo : (2 : UInt32) ≠ 1 := by decide
      simp only [Mospf.deliver, handleMospfLsu, storeLsu, inStep, hlt, htwo, if_true, if_false,
        Option.getD_some, MospfDbEntry.renew]
    have hseq : UInt16.ofNat (n + 1) + 1 = UInt16.ofNat (n + 2) := by
      rw [UInt16.ofNat_add (n + 1) 1]
      rfl
    refine ⟨sent ++ [⟨2, UInt16.ofNat (n + 1), []⟩], ?_⟩
    refine .next (e := .deliver) (.next (e := .round [] 1) hreach trivial rfl) trivial ?_
    have hstep : some (⟨UInt16.ofNat (n + 1) + 1, [],
        Mospf.deliver 1 (inStep n sent).db ⟨2, UInt16.ofNat (n + 1), []⟩,
        sent ++ [⟨2, UInt16.ofNat (n + 1), []⟩], sent ++ [⟨2, UInt16.ofNat (n + 1), []⟩],
        n + 2⟩ : LsuLink) = some (inStep (n + 1) (sent ++ [⟨2, UInt16.ofNat (n + 1), []⟩])) := by
      rw [hdb, hseq]
      rfl
    exact hstep

/-- The LSU with the number zero after that with 65535 is taken for an old one. -/
theorem lsu_stale_after_wrap : ∃ s lsu,
    Reaches (LsuLink.step 2 1) anyStep (· = LsuLink.start) s ∧ s.wire = [] ∧
      s.sent.getLast? = some lsu ∧ s.delivered.getLast? = some lsu ∧
      lsu = ⟨2, 0, [⟨3, 4, 5⟩]⟩ ∧ entryOf s.db 2 = some (65535, []) := by
  obtain ⟨sent, hreach⟩ := reaches_inStep 65535 (by norm_num)
  have hround := Reaches.next (e := .round [⟨3, 4, 5⟩] 1) hreach trivial rfl
  have hdeliver := Reaches.next (e := .deliver) hround trivial rfl
  refine ⟨_, ⟨2, 0, [⟨3, 4, 5⟩]⟩, hdeliver, rfl, ?_, ?_, rfl, rfl⟩
  · exact List.getLast?_append_of_ne_nil _ (List.cons_ne_nil _ _)
  · exact List.getLast?_append_of_ne_nil _ (List.cons_ne_nil _ _)

end Wrap

end NetworkLab.Mospf
