import NetworkLab.AckRecovery
import NetworkLab.RetransTimer

/-!
# The growth of the congestion window

In congestion avoidance the window is to grow by one segment for as many acknowledged ones as it
has. They are counted in `cwnd_unit`, which recovery and timeouts leave as it is when they
reduce the window.
-/
namespace NetworkLab.Tcp
open GuardedRuns

section Window

/-- What `tcp_cwnd_inc` reads and writes. -/
def TcpSock.congestion (tsk : TcpSock) : CgtState × UInt32 × UInt32 × UInt32 :=
  (tsk.cgtState, tsk.cwnd, tsk.cwndUnit, tsk.ssthresh)

variable {tsk tsk' : TcpSock} {ack : UInt32}

theorem congestion_eq_iff : tsk'.congestion = tsk.congestion ↔ tsk'.cgtState = tsk.cgtState ∧
    tsk'.cwnd = tsk.cwnd ∧ tsk'.cwndUnit = tsk.cwndUnit ∧ tsk'.ssthresh = tsk.ssthresh := by
  simp only [TcpSock.congestion, Prod.mk.injEq]

theorem congestion_tcpCwndInc (h : tsk'.congestion = tsk.congestion) :
    (tcpCwndInc tsk').congestion = (tcpCwndInc tsk).congestion := by
  obtain ⟨hcgt, hcwnd, hunit, hthresh⟩ := congestion_eq_iff.mp h
  unfold tcpCwndInc
  rw [hcgt, hcwnd, hunit, hthresh]
  split_ifs
  · exact h
  · rfl
  · rfl
  · rfl

theorem congestion_iterate (h : tsk'.congestion = tsk.congestion) (n : ℕ) :
    (tcpCwndInc^[n] tsk').congestion = (tcpCwndInc^[n] tsk).congestion := by
  induction n generalizing tsk tsk' with
  | zero => exact h
  | succ n ih => exact ih (congestion_tcpCwndInc h)

/-- Each segment that an ACK releases counts for the window. -/
theorem congestion_popAcked (ack : UInt32) (bufs : List SendBuffer) (tsk : TcpSock) :
    (popAcked ack bufs tsk).congestion =
      (tcpCwndInc^[(bufs.takeWhile fun buf => decide (buf.seqEnd ≤ ack)).length]
        tsk).congestion := by
  induction bufs generalizing tsk with
  | nil => rfl
  | cons buf bufs ih =>
    simp only [popAcked]
    by_cases hle : buf.seqEnd ≤ ack
    · rw [if_neg (UInt32.not_lt.mpr hle), List.takeWhile_cons_of_pos (by simpa using hle),
        List.length_cons, ih, Function.iterate_succ_apply]
      have hpop : (tcpPopSendbuf { tsk with sndUna := buf.seqEnd }).congestion = tsk.congestion :=
        rfl
      exact congestion_iterate (congestion_tcpCwndInc hpop) _
    · rw [if_pos (UInt32.not_le.mp hle), List.takeWhile_cons_of_neg (by simpa using hle)]
      rfl

/-- Outside of the state `OPEN` the window stays. -/
theorem iterate_tcpCwndInc_of_ne (h : tsk.cgtState ≠ .opn) (n : ℕ) : tcpCwndInc^[n] tsk = tsk := by
  have hone : tcpCwndInc tsk = tsk := if_pos h
  exact Function.iterate_fixed hone n

/-- What an ACK changes of the window: `cwnd`, its counter and its threshold. -/
def TcpSock.window (tsk : TcpSock) : UInt32 × UInt32 × UInt32 :=
  (tsk.cwnd, tsk.cwndUnit, tsk.ssthresh)

theorem window_eq_iff : tsk'.window = tsk.window ↔ tsk'.cwnd = tsk.cwnd ∧
    tsk'.cwndUnit = tsk.cwndUnit ∧ tsk'.ssthresh = tsk.ssthresh := by
  simp only [TcpSock.window, Prod.mk.injEq]

theorem window_of_congestion (h : tsk'.congestion = tsk.congestion) :
    tsk'.window = tsk.window := congrArg Prod.snd h

theorem congestion_tcpUpdateWindowSafe (run : Run) (cb : TcpCb) :
    (tcpUpdateWindowSafe run cb).tsk.congestion = run.tsk.congestion := by
  unfold tcpUpdateWindowSafe tcpUpdateWindow
  simp only
  split_ifs <;> rfl

theorem window_leaveRecovery (run : Run) (ack : UInt32) :
    (leaveRecovery run ack).tsk.window = run.tsk.window := by
  unfold leaveRecovery
  split
  · split_ifs
    · rfl
    · rw [tsk_retransmitFirst]
  · split_ifs <;> rfl
  · rfl

/-- A new ACK changes the window by the segments that it releases. -/
theorem window_ackNew (run : Run) (ack : UInt32) : (ackNew run ack).tsk.window =
    (tcpCwndInc^[(run.tsk.sendBuf.takeWhile fun buf => decide (buf.seqEnd ≤ ack)).length]
      run.tsk).window := by
  rw [ackNew, window_leaveRecovery, Run.update_tsk]
  have hrep : { run.tsk with repAck := 0 }.congestion = run.tsk.congestion := rfl
  exact window_of_congestion ((congestion_popAcked ack _ _).trans (congestion_iterate hrep _))

/-- The window after a reduction. -/
structure Reduced (tsk tsk' : TcpSock) : Prop where
  unit : tsk'.cwndUnit = tsk.cwndUnit
  one_le : 1 ≤ tsk'.cwnd.toNat
  le : tsk'.cwnd.toNat ≤ tsk.cwnd.toNat
  thresh : 1 ≤ tsk'.ssthresh.toNat

theorem reduced_deflate (hmany : tsk.repAck > 1) (hcwnd : 1 ≤ tsk.cwnd.toNat)
    (hthresh : 1 ≤ tsk.ssthresh.toNat) : Reduced tsk (deflate tsk) := by
  have hone : (1 : UInt32).toNat = 1 := rfl
  have hsub : (tsk.cwnd - 1).toNat = tsk.cwnd.toNat - 1 :=
    UInt32.toNat_sub_of_le _ _ (UInt32.le_iff_toNat_le.mpr hcwnd)
  have hbounds : 1 ≤ (if tsk.cwnd - 1 < 1 then 1 else tsk.cwnd - 1).toNat ∧
      (if tsk.cwnd - 1 < 1 then 1 else tsk.cwnd - 1).toNat ≤ tsk.cwnd.toNat := by
    split_ifs with hlt
    · exact ⟨le_rfl, hcwnd⟩
    · rw [UInt32.lt_iff_toNat_lt] at hlt
      omega
  rw [deflate, if_pos hmany]
  exact ⟨rfl, hbounds.1, hbounds.2, hthresh⟩

theorem toNat_add_one {n : UInt32} (h : n.toNat + 1 < 2 ^ 32) : (n + 1).toNat = n.toNat + 1 :=
  (UInt32.toNat_add n 1).trans (Nat.mod_eq_of_lt h)

/-- Half of a window that is not full. -/
theorem one_le_half (hcwnd : 1 ≤ tsk.cwnd.toNat) (htop : tsk.cwnd.toNat + 1 < 2 ^ 32) :
    1 ≤ ((tsk.cwnd + 1) / 2).toNat := by
  rw [UInt32.toNat_div, toNat_add_one htop]
  exact show 1 ≤ (tsk.cwnd.toNat + 1) / 2 by omega

theorem Reduced.of_window {tsk₁ : TcpSock} (h : Reduced tsk₁ tsk')
    (hunit : tsk₁.cwndUnit = tsk.cwndUnit) (hcwnd : tsk₁.cwnd = tsk.cwnd) : Reduced tsk tsk' :=
  ⟨h.unit.trans hunit, h.one_le, hcwnd ▸ h.le, h.thresh⟩

theorem Reduced.congr {tsk₁ : TcpSock} (h : Reduced tsk tsk₁)
    (hwindow : tsk'.window = tsk₁.window) : Reduced tsk tsk' := by
  obtain ⟨hcwnd, hunit, hthresh⟩ := window_eq_iff.mp hwindow
  exact ⟨hunit.trans h.unit, hcwnd ▸ h.one_le, hcwnd ▸ h.le, hthresh ▸ h.thresh⟩

theorem enterRecovery_window (run : Run) :
    (enterRecovery run).tsk.window = (run.tsk.cwnd, run.tsk.cwndUnit, (run.tsk.cwnd + 1) / 2) ∧
      (enterRecovery run).tsk.repAck = run.tsk.repAck := by
  unfold enterRecovery
  simp only
  split <;> exact ⟨rfl, rfl⟩

/-- An ACK that repeats `snd_una` reduces the window or leaves it as it is. -/
theorem ackRepeated_window (run : Run) (hcwnd : 1 ≤ run.tsk.cwnd.toNat)
    (htop : run.tsk.cwnd.toNat + 1 < 2 ^ 32) (hthresh : 1 ≤ run.tsk.ssthresh.toNat) :
    (Deflates run.tsk ∧ Reduced run.tsk (ackRepeated run).tsk) ∨
      (ackRepeated run).tsk.window = run.tsk.window := by
  have hrep : run.countAck.tsk.repAck = run.tsk.repAck + 1 := rfl
  have hcount : run.countAck.tsk.window = run.tsk.window := rfl
  unfold ackRepeated
  cases hcgt : run.tsk.cgtState with
  | opn =>
    simp only
    split_ifs with hmany
    · obtain ⟨hwindow, hrep'⟩ := enterRecovery_window run.countAck
      simp only [TcpSock.window, Prod.mk.injEq] at hwindow
      obtain ⟨hcwnd', hunit', hthresh'⟩ := hwindow
      refine .inl ⟨.inl ⟨hcgt, hmany⟩, Reduced.of_window (reduced_deflate ?_ ?_ ?_) hunit' hcwnd'⟩
      · rw [hrep', hrep]
        omega
      · rw [hcwnd']
        exact hcwnd
      · rw [hthresh']
        exact one_le_half hcwnd htop
    · exact .inr hcount
  | rcvr =>
    by_cases hmany : run.tsk.repAck + 1 > 1
    · have hreduced : Reduced run.countAck.tsk (deflate run.countAck.tsk) :=
        reduced_deflate (hrep ▸ hmany) hcwnd hthresh
      exact .inl ⟨.inr ⟨hcgt, hmany⟩, hreduced.of_window rfl rfl⟩
    · have hstay : deflate run.countAck.tsk = run.countAck.tsk := if_neg (hrep ▸ hmany)
      simp only [Run.update_tsk, hstay]
      exact .inr hcount
  | loss => exact .inr hcount

/-- A round of the timer in which entries run out reduces the window. -/
theorem reduced_scan (hexpired : 0 < expired tsk.sendBuf) (hcwnd : 1 ≤ tsk.cwnd.toNat)
    (htop : tsk.cwnd.toNat + 1 < 2 ^ 32) : Reduced tsk (tcpScanRetrans tsk) := by
  obtain ⟨n, hn⟩ := Nat.exists_eq_succ_of_ne_zero hexpired.ne'
  rw [tcpScanRetrans_eq, hn]
  cases n with
  | zero => exact ⟨rfl, le_rfl, hcwnd, one_le_half hcwnd htop⟩
  | succ n =>
    rw [iterate_enterLoss]
    exact ⟨rfl, le_rfl, hcwnd, le_rfl⟩

/-- After the block for ACKs the switch over the flags leaves the window alone. -/
theorem congestion_tcpProcess (tsk : TcpSock) (cb : TcpCb) (newIss : UInt32) (reads : List ℕ) :
    (tcpProcess tsk cb newIss reads).last.tsk.congestion =
      (entered tsk cb reads).tsk.congestion := by
  obtain ⟨⟨_, _, _, _, hframe⟩, -⟩ := tcpProcess_switched tsk cb newIss reads
  rw [hframe]
  unfold switched afterControl
  split_ifs <;> rfl

instance (tsk : TcpSock) : Decidable (Deflates tsk) := inferInstanceAs (Decidable (_ ∨ _))

/-- The event reduces the window. -/
def Reduces (tsk : TcpSock) : SendEvent → Prop
  | .deliver cb _ _ => cb.flags &&& tcpAck ≠ 0 ∧ cb.ack = tsk.sndUna ∧ Deflates tsk
  | .scan => 0 < expired tsk.sendBuf
  | _ => False

instance (tsk : TcpSock) : ∀ e, Decidable (Reduces tsk e)
  | .deliver cb _ _ =>
    inferInstanceAs (Decidable (cb.flags &&& tcpAck ≠ 0 ∧ cb.ack = tsk.sndUna ∧ Deflates tsk))
  | .scan => inferInstanceAs (Decidable (0 < expired tsk.sendBuf))
  | .sendControl _ => isFalse id
  | .sendData _ => isFalse id
  | .change _ => isFalse id

/-- The window after the ACK of a packet. -/
theorem window_processAck (tsk : TcpSock) (cb : TcpCb) (newIss : UInt32) (reads : List ℕ)
    (hack : cb.flags &&& tcpAck ≠ 0) (hcwnd : 1 ≤ tsk.cwnd.toNat)
    (htop : tsk.cwnd.toNat + 1 < 2 ^ 32) (hthresh : 1 ≤ tsk.ssthresh.toNat) :
    (entered tsk cb reads).tsk.window =
        (tcpCwndInc^[(released tsk cb.ack).length] tsk).window ∨
      (Reduces tsk (.deliver cb newIss reads) ∧ released tsk cb.ack = [] ∧
        Reduced tsk (entered tsk cb reads).tsk) := by
  obtain ⟨nxt, wnd, rcvBuf, ofo, hrecv⟩ := receiveFrame_updateRcvNxt tsk cb
  rw [entered_of_ack tsk cb reads hack, hrecv]
  let run : Run :=
    ⟨{ tsk with rcvNxt := nxt, rcvWnd := wnd, rcvBuf := rcvBuf, rcvOfoBuf := ofo }, reads, []⟩
  have hwindow : (processAck run cb).tsk.window = (countedAck run cb.ack).tsk.window := by
    simp only [processAck]
    split_ifs
    · rfl
    · exact window_of_congestion (congestion_tcpUpdateWindowSafe _ cb)
  by_cases hrepeats : cb.ack = tsk.sndUna
  · have hnone : released tsk cb.ack = [] := if_pos hrepeats
    have hcounted : countedAck run cb.ack = ackRepeated run := if_pos hrepeats
    rw [hcounted] at hwindow
    rw [hnone]
    rcases ackRepeated_window run hcwnd htop hthresh with ⟨hdeflates, hreduced⟩ | hstay
    · have hreduced' : Reduced tsk (ackRepeated run).tsk := hreduced.of_window rfl rfl
      exact .inr ⟨⟨hack, hrepeats, hdeflates⟩, rfl, hreduced'.congr hwindow⟩
    · exact .inl (hwindow.trans hstay)
  · have hcounted : countedAck run cb.ack = ackNew run cb.ack := if_neg hrepeats
    rw [hcounted] at hwindow
    rw [released, if_neg hrepeats]
    refine .inl (hwindow.trans ((window_ackNew run cb.ack).trans ?_))
    have hsame : run.tsk.congestion = tsk.congestion := rfl
    exact window_of_congestion (congestion_iterate hsame _)

/-- What an event makes of the window. -/
theorem sendStep_window {e : SendEvent} (h : sendStep tsk e = some tsk')
    (hchange : ∀ tsk₁, e = .change tsk₁ → tsk₁.congestion = tsk.congestion)
    (hcwnd : 1 ≤ tsk.cwnd.toNat) (htop : tsk.cwnd.toNat + 1 < 2 ^ 32)
    (hthresh : 1 ≤ tsk.ssthresh.toNat) :
    tsk'.window = (tcpCwndInc^[(releasedBy tsk e).length] tsk).window ∨
      (Reduces tsk e ∧ releasedBy tsk e = [] ∧ Reduced tsk tsk') := by
  cases e with
  | sendControl flags =>
    obtain rfl := Option.some.inj h
    refine .inl ?_
    unfold afterControl
    split_ifs <;> rfl
  | sendData data =>
    obtain rfl := Option.some.inj h
    exact .inl rfl
  | deliver cb newIss reads =>
    obtain rfl := Option.some.inj h
    have hlast := congestion_tcpProcess tsk cb newIss reads
    by_cases hack : cb.flags &&& tcpAck = 0
    · have hnone : releasedBy tsk (.deliver cb newIss reads) = [] := if_neg (not_not_intro hack)
      obtain ⟨_, _, _, _, hrecv⟩ := receiveFrame_updateRcvNxt tsk cb
      rw [entered_of_not_ack tsk cb reads hack, hrecv] at hlast
      rw [hnone]
      exact .inl (window_of_congestion hlast)
    · have hreleased : releasedBy tsk (.deliver cb newIss reads) = released tsk cb.ack :=
        if_pos hack
      rw [hreleased]
      rcases window_processAck tsk cb newIss reads hack hcwnd htop hthresh with
        hgrown | ⟨hreduces, hnone, hreduced⟩
      · exact .inl ((window_of_congestion hlast).trans hgrown)
      · exact .inr ⟨hreduces, hnone, hreduced.congr (window_of_congestion hlast)⟩
  | scan =>
    obtain rfl := Option.some.inj h
    rcases Nat.eq_zero_or_pos (expired tsk.sendBuf) with hzero | hpos
    · rw [tcpScanRetrans_eq, hzero]
      exact .inl rfl
    · exact .inr ⟨hpos, rfl, reduced_scan hpos hcwnd htop⟩
  | change tsk₁ =>
    simp only [sendStep] at h
    split_ifs at h
    obtain rfl := Option.some.inj h
    exact .inl (window_of_congestion (hchange _ rfl))

end Window

section Pace

/-- A socket with the number of segments acknowledged since `cwnd` has changed last. -/
structure Paced where
  tsk : TcpSock
  acked : ℕ

namespace Paced

/-- One more segment is acknowledged. -/
def segment (w : Paced) : Paced where
  tsk := tcpCwndInc w.tsk
  acked := if (tcpCwndInc w.tsk).cwnd = w.tsk.cwnd then w.acked + 1 else 0

/-- In congestion avoidance the window does not grow with the next segment before as many have
been acknowledged as it has. -/
def GrowsSlowly (w : Paced) : Prop :=
  w.tsk.ssthresh ≤ w.tsk.cwnd → w.tsk.cwnd < w.segment.tsk.cwnd → w.tsk.cwnd.toNat ≤ w.acked + 1

instance (w : Paced) : Decidable w.GrowsSlowly := inferInstanceAs (Decidable (_ → _ → _))

/-- The segments that an event releases are acknowledged one after another. -/
def release (w : Paced) (e : SendEvent) : Paced := segment^[(releasedBy w.tsk e).length] w

/-- The congestion state is changed by packets with ACK and by the timer only. -/
def Confined (w : Paced) : SendEvent → Prop
  | .change tsk => tsk.congestion = w.tsk.congestion
  | _ => True

instance (w : Paced) : ∀ e, Decidable (w.Confined e)
  | .change tsk => inferInstanceAs (Decidable (tsk.congestion = w.tsk.congestion))
  | .sendControl _ => isTrue trivial
  | .sendData _ => isTrue trivial
  | .deliver _ _ _ => isTrue trivial
  | .scan => isTrue trivial

def step (w : Paced) (e : SendEvent) : Option Paced :=
  if w.Confined e then
    (sendStep w.tsk e).map fun tsk =>
      ⟨tsk, if tsk.cwnd = (w.release e).tsk.cwnd then (w.release e).acked else 0⟩
  else none

/-- The congestion state is that of `alloc_tcp_sock`. -/
def Initial (w : Paced) : Prop := w.tsk.congestion = allocTcpSock.congestion ∧ w.acked = 0

/-- `cwnd_unit` is zero when the window is reduced, and the window does not reach `2 ^ 32`. -/
structure Paceable (w : Paced) (e : SendEvent) : Prop where
  unit : Reduces w.tsk e → w.tsk.cwndUnit = 0
  room : w.tsk.cwnd.toNat + (releasedBy w.tsk e).length + 1 < 2 ^ 32

theorem paceable_iff {w : Paced} {e : SendEvent} : w.Paceable e ↔
    (Reduces w.tsk e → w.tsk.cwndUnit = 0) ∧
      w.tsk.cwnd.toNat + (releasedBy w.tsk e).length + 1 < 2 ^ 32 :=
  ⟨fun h => ⟨h.unit, h.room⟩, fun h => ⟨h.1, h.2⟩⟩

instance (w : Paced) (e : SendEvent) : Decidable (w.Paceable e) := decidable_of_iff' _ paceable_iff

/-- How the window grows in a step. -/
structure Grows (w : Paced) (e : SendEvent) (t : Paced) : Prop where
  onAck : w.tsk.cwnd < t.tsk.cwnd → w.tsk.cgtState = .opn ∧
    ∃ cb newIss reads, e = .deliver cb newIss reads ∧ cb.flags &&& tcpAck ≠ 0
  bySegments : w.tsk.cwnd < t.tsk.cwnd → t.tsk.cwnd = (w.release e).tsk.cwnd
  few : t.tsk.cwnd.toNat ≤ w.tsk.cwnd.toNat + (releasedBy w.tsk e).length
  slowly : ∀ i < (releasedBy w.tsk e).length, (segment^[i] w).GrowsSlowly

/-- `cwnd_unit` counts segments that have been acknowledged since `cwnd` has changed. -/
structure Inv (w : Paced) : Prop where
  one_le : 1 ≤ w.tsk.cwnd.toNat
  thresh : 1 ≤ w.tsk.ssthresh.toNat
  unit : w.tsk.cwndUnit.toNat < w.tsk.cwnd.toNat
  slow : w.tsk.cwnd < w.tsk.ssthresh → w.tsk.cwndUnit = 0
  acked : w.tsk.cwndUnit.toNat ≤ w.acked

variable {w t : Paced} {e : SendEvent}

theorem tsk_segments (w : Paced) (n : ℕ) : (segment^[n] w).tsk = tcpCwndInc^[n] w.tsk := by
  induction n generalizing w with
  | zero => rfl
  | succ n ih => exact ih w.segment

theorem Inv.unit_succ (h : w.Inv) : (w.tsk.cwndUnit + 1).toNat = w.tsk.cwndUnit.toNat + 1 := by
  have hlt := w.tsk.cwnd.toNat_lt
  have hunit := h.unit
  exact toNat_add_one (by omega)

theorem Inv.growsSlowly (h : w.Inv) : w.GrowsSlowly := by
  intro hthresh hgrows
  have hstay : ¬w.tsk.cwnd < w.tsk.cwnd := UInt32.lt_irrefl _
  unfold segment tcpCwndInc at hgrows
  simp only at hgrows
  split_ifs at hgrows with hstate hslow hfull
  · exact absurd hgrows hstay
  · exact absurd hslow (UInt32.not_lt.mpr hthresh)
  · have hfull' := UInt32.le_iff_toNat_le.mp hfull
    rw [h.unit_succ] at hfull'
    have hacked := h.acked
    omega
  · exact absurd hgrows hstay

/-- The invariant is one of the window and the segments acknowledged. -/
theorem Inv.of_window (h : w.Inv) (hwindow : t.tsk.window = w.tsk.window)
    (hacked : t.acked = w.acked) : t.Inv := by
  obtain ⟨hcwnd, hunit, hthresh⟩ := window_eq_iff.mp hwindow
  constructor
  · exact hcwnd ▸ h.one_le
  · exact hthresh ▸ h.thresh
  · rw [hcwnd, hunit]
    exact h.unit
  · rw [hcwnd, hunit, hthresh]
    exact h.slow
  · rw [hunit, hacked]
    exact h.acked

/-- With no segment counted it asks for a window and a threshold of at least one. -/
theorem inv_of_unit (hunit : w.tsk.cwndUnit = 0) (hcwnd : 1 ≤ w.tsk.cwnd.toNat)
    (hthresh : 1 ≤ w.tsk.ssthresh.toNat) : w.Inv := by
  have hzero : w.tsk.cwndUnit.toNat = 0 := congrArg UInt32.toNat hunit
  exact ⟨hcwnd, hthresh, by omega, fun _ => hunit, by omega⟩

/-- One more segment grows the window by one and finds the counter at zero, or is counted. -/
theorem Inv.segment (h : w.Inv) (htop : w.tsk.cwnd.toNat + 1 < 2 ^ 32) :
    w.segment.Inv ∧ w.segment.tsk.cwnd.toNat ≤ w.tsk.cwnd.toNat + 1 := by
  have hcwnd := toNat_add_one htop
  have hgrown : 1 ≤ (w.tsk.cwnd + 1).toNat := by omega
  by_cases hstate : w.tsk.cgtState ≠ .opn
  · have hstay : tcpCwndInc w.tsk = w.tsk := if_pos hstate
    have hsegment : w.segment = ⟨w.tsk, w.acked + 1⟩ := by
      simp only [Paced.segment, hstay, if_true]
    rw [hsegment]
    exact ⟨⟨h.one_le, h.thresh, h.unit, h.slow, Nat.le_succ_of_le h.acked⟩, Nat.le_succ _⟩
  by_cases hslow : w.tsk.cwnd < w.tsk.ssthresh
  · have hinc : tcpCwndInc w.tsk = { w.tsk with cwnd := w.tsk.cwnd + 1 } := by
      rw [tcpCwndInc, if_neg hstate, if_pos hslow]
    have htsk : w.segment.tsk = { w.tsk with cwnd := w.tsk.cwnd + 1 } := hinc
    rw [htsk]
    exact ⟨inv_of_unit (htsk ▸ h.slow hslow) (htsk ▸ hgrown) (htsk ▸ h.thresh), hcwnd.le⟩
  by_cases hfull : w.tsk.cwndUnit + 1 ≥ w.tsk.cwnd
  · have hinc : tcpCwndInc w.tsk = { w.tsk with cwndUnit := 0, cwnd := w.tsk.cwnd + 1 } := by
      rw [tcpCwndInc, if_neg hstate, if_neg hslow, if_pos hfull]
    have htsk : w.segment.tsk = { w.tsk with cwndUnit := 0, cwnd := w.tsk.cwnd + 1 } := hinc
    rw [htsk]
    exact ⟨inv_of_unit (htsk ▸ rfl) (htsk ▸ hgrown) (htsk ▸ h.thresh), hcwnd.le⟩
  · have hinc : tcpCwndInc w.tsk = { w.tsk with cwndUnit := w.tsk.cwndUnit + 1 } := by
      rw [tcpCwndInc, if_neg hstate, if_neg hslow, if_neg hfull]
    have hsegment : w.segment = ⟨{ w.tsk with cwndUnit := w.tsk.cwndUnit + 1 }, w.acked + 1⟩ := by
      simp only [Paced.segment, hinc, if_true]
    have hunit := h.unit_succ
    have hbelow : (w.tsk.cwndUnit + 1).toNat < w.tsk.cwnd.toNat :=
      UInt32.lt_iff_toNat_lt.mp (UInt32.not_le.mp hfull)
    have hacked := h.acked
    rw [hsegment]
    refine ⟨⟨h.one_le, h.thresh, hbelow, fun hlt => absurd hlt hslow, ?_⟩, Nat.le_succ _⟩
    exact hunit.trans_le (Nat.succ_le_succ hacked)

/-- Segments that are acknowledged one after another. -/
theorem Inv.segments (h : w.Inv) {n : ℕ} (htop : w.tsk.cwnd.toNat + n < 2 ^ 32) :
    (Paced.segment^[n] w).Inv ∧ (Paced.segment^[n] w).tsk.cwnd.toNat ≤ w.tsk.cwnd.toNat + n ∧
      ∀ i < n, (Paced.segment^[i] w).GrowsSlowly := by
  induction n with
  | zero => exact ⟨h, le_rfl, fun i hi => absurd hi (Nat.not_lt_zero i)⟩
  | succ n ih =>
    obtain ⟨hinv, hle, hslowly⟩ := ih (by omega)
    obtain ⟨hinv', hle'⟩ := hinv.segment (by omega)
    rw [Function.iterate_succ_apply']
    refine ⟨hinv', by omega, fun i hi => ?_⟩
    rcases Nat.lt_succ_iff_lt_or_eq.mp hi with hlt | rfl
    · exact hslowly i hlt
    · exact hinv.growsSlowly

/-- The window after a step is the one that the released segments leave, or a reduced one. -/
theorem step_window (h : w.step e = some t) (hinv : w.Inv) (hok : w.Paceable e) :
    (t.tsk.window = (w.release e).tsk.window ∧ t.acked = (w.release e).acked) ∨
      (Reduces w.tsk e ∧ releasedBy w.tsk e = [] ∧ Reduced w.tsk t.tsk) := by
  simp only [step] at h
  split_ifs at h with hconfined
  obtain ⟨tsk, hstep, rfl⟩ := Option.map_eq_some_iff.mp h
  have hroom := hok.room
  have hchange : ∀ tsk₁, e = .change tsk₁ → tsk₁.congestion = w.tsk.congestion := by
    rintro tsk₁ rfl
    exact hconfined
  have hcases := sendStep_window hstep hchange hinv.one_le (by omega) hinv.thresh
  rw [← tsk_segments] at hcases
  refine hcases.imp_left fun hwindow => ⟨hwindow, ?_⟩
  exact if_pos (window_eq_iff.mp hwindow).1

theorem Inv.step (h : w.Inv) (hok : w.Paceable e) (hstep : w.step e = some t) : t.Inv := by
  have hroom := hok.room
  rcases step_window hstep h hok with ⟨hwindow, hacked⟩ | ⟨hreduces, -, hreduced⟩
  · exact (h.segments (by omega)).1.of_window hwindow hacked
  · exact inv_of_unit (hreduced.unit.trans (hok.unit hreduces)) hreduced.one_le hreduced.thresh

/-- The window grows by segments that an ACK releases in the state `OPEN`. -/
theorem Inv.grows (h : w.Inv) (hok : w.Paceable e) (hstep : w.step e = some t) : w.Grows e t := by
  have hroom := hok.room
  obtain ⟨-, hfew, hslowly⟩ := h.segments (show _ + (releasedBy w.tsk e).length < 2 ^ 32 by omega)
  rcases step_window hstep h hok with ⟨hwindow, -⟩ | ⟨-, hnone, hreduced⟩
  · have hcwnd : t.tsk.cwnd = (w.release e).tsk.cwnd := (window_eq_iff.mp hwindow).1
    refine ⟨fun hlt => ?_, fun _ => hcwnd, hcwnd ▸ hfew, hslowly⟩
    have hsegments : t.tsk.cwnd = (tcpCwndInc^[(releasedBy w.tsk e).length] w.tsk).cwnd := by
      rw [hcwnd, release, tsk_segments]
    constructor
    · by_contra hstate
      rw [hsegments, iterate_tcpCwndInc_of_ne hstate] at hlt
      exact UInt32.lt_irrefl _ hlt
    · have hsome : releasedBy w.tsk e ≠ [] := by
        intro hnone
        rw [hsegments, hnone] at hlt
        exact UInt32.lt_irrefl _ hlt
      cases e with
      | deliver cb newIss reads =>
        refine ⟨cb, newIss, reads, rfl, fun hack => hsome ?_⟩
        exact if_neg (not_not_intro hack)
      | _ => exact absurd rfl hsome
  · have hle := hreduced.le
    have hnot : ¬w.tsk.cwnd < t.tsk.cwnd := UInt32.not_lt.mpr (UInt32.le_iff_toNat_le.mpr hle)
    exact ⟨fun hlt => absurd hlt hnot, fun hlt => absurd hlt hnot, by omega, hslowly⟩

theorem Initial.inv (h : w.Initial) : w.Inv := by
  obtain ⟨-, hcwnd, hunit, hthresh⟩ := congestion_eq_iff.mp h.1
  refine inv_of_unit hunit ?_ ?_
  · rw [hcwnd]
    decide
  · rw [hthresh]
    decide

/-- A socket that a listening one has made for a SYN. -/
def accepted : Paced :=
  ⟨childSock { allocTcpSock with state := .listen }
    ⟨2, 1, 1024, 80, 500, 501, 0, 8192, tcpSyn, [], 0⟩ 100, 0⟩

theorem initial_accepted : accepted.Initial := ⟨rfl, rfl⟩

def ackAt (ack : UInt32) : SendEvent := .deliver (idleAck ack) 0 []

/-- Segments of one byte, each acknowledged before the next one is sent. -/
def exchanged (ack : UInt32) (n : ℕ) : List SendEvent :=
  (List.range n).flatMap fun i => [.sendData [0], ackAt (ack + UInt32.ofNat i)]

/-- A segment that is acknowledged after three repetitions of `snd_una`. -/
def recovered (una : UInt32) : List SendEvent :=
  [.sendData [0], ackAt una, ackAt una, ackAt una, ackAt (una + 1)]

/-- Slow start, a recovery, and two segments of congestion avoidance. -/
def counted : List SendEvent :=
  [.sendControl (tcpSyn ||| tcpAck), ackAt 1] ++ exchanged 2 3 ++ recovered 4 ++ exchanged 6 2

/-- As long as no reduction of the window finds segments counted and the window does not run
over, it is at least one, grows only by ACKs in the state `OPEN`, and in congestion avoidance
by one segment for as many as it has. -/
theorem cwnd_paced (h : Reaches step Paceable Initial w) :
    w.tsk.cgtState ∈ [.opn, .rcvr, .loss] ∧ 1 ≤ w.tsk.cwnd.toNat ∧ 1 ≤ w.tsk.ssthresh.toNat ∧
      ∀ e t, w.Paceable e → w.step e = some t → w.Grows e t := by
  have hinv : w.Inv :=
    h.invariant Inv (fun _ => Initial.inv) fun _ _ _ hinv hok hstep => hinv.step hok hstep
  refine ⟨?_, hinv.one_le, hinv.thresh, fun e t hok hstep => hinv.grows hok hstep⟩
  cases w.tsk.cgtState <;> simp

theorem cwnd_paced_counted : ∃ w, Reaches step Paceable Initial w ∧ w.tsk.cwnd = 4 ∧
    w.tsk.cwndUnit = 2 ∧ w.tsk.cgtState ∈ [.opn, .rcvr, .loss] ∧ 1 ≤ w.tsk.cwnd.toNat ∧
      1 ≤ w.tsk.ssthresh.toNat ∧ ∀ e t, w.Paceable e → w.step e = some t → w.Grows e t := by
  have hrun : ∃ w, Reaches step Paceable Initial w ∧ w.tsk.cwnd = 4 ∧ w.tsk.cwndUnit = 2 :=
    exists_of_exec initial_accepted counted _ (by decide +kernel)
  obtain ⟨w, hw, hcwnd, hunit⟩ := hrun
  exact ⟨w, hw, hcwnd, hunit, cwnd_paced hw⟩

/-- A second recovery leaves the two segments counted: the window of three grows with the second
segment that is acknowledged. -/
theorem cwnd_not_paced : ∃ w t, Reaches step anyStep Initial w ∧ w.step (ackAt 9) = some t ∧
    w.tsk.ssthresh ≤ w.tsk.cwnd ∧ w.tsk.cwnd = 3 ∧ t.tsk.cwnd = 4 ∧ w.acked = 1 ∧
      ¬w.Grows (ackAt 9) t := by
  have hrun : ∃ w, Reaches step anyStep Initial w ∧
      ((w.step (ackAt 9)).any fun t => decide (t.tsk.cwnd = 4)) = true ∧
      w.tsk.ssthresh ≤ w.tsk.cwnd ∧ w.tsk.cwnd = 3 ∧ w.acked = 1 ∧
      0 < (releasedBy w.tsk (ackAt 9)).length ∧ ¬w.GrowsSlowly :=
    exists_of_exec initial_accepted (counted ++ recovered 7 ++ [.sendData [0]]) _
      (by decide +kernel)
  obtain ⟨w, hw, hstep, hthresh, hcwnd, hacked, hsome, hfast⟩ := hrun
  obtain ⟨t, ht, hfour⟩ := (Option.any_eq_true _ _).mp hstep
  exact ⟨w, t, hw, ht, hthresh, hcwnd, of_decide_eq_true hfour, hacked,
    fun h => hfast (h.slowly 0 hsome)⟩

end Paced

end Pace

end NetworkLab.Tcp
