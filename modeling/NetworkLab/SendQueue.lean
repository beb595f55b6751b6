import NetworkLab.GuardedRuns
import NetworkLab.SlidingWindow
import NetworkLab.TcpRelease
import NetworkLab.TcpSend
import Mathlib.Tactic.FinCases

/-!
# The queue of segments that are not acknowledged

`send_buf` is a queue: sending appends a segment, an ACK removes segments from the
front, and the timer changes nothing but the timers of the entries.
-/
namespace NetworkLab.Tcp
open GuardedRuns SlidingWindow

section Cumulative

/-- `ack` acknowledges something that is outstanding. -/
def Outstanding (tsk : TcpSock) (ack : UInt32) : Prop :=
  lessThan32b tsk.sndUna ack ∧ lessOrEqual32b ack tsk.sndNxt

/-- The test of `tcp_update_window_safe`. -/
def InRange (tsk : TcpSock) (ack : UInt32) : Prop :=
  lessOrEqual32b tsk.sndUna ack ∧ lessOrEqual32b ack tsk.sndNxt

theorem Outstanding.inRange {tsk : TcpSock} {ack : UInt32} (h : Outstanding tsk ack) :
    InRange tsk ack := by
  obtain ⟨hlt, hle⟩ := h
  simp only [lessThan32b, decide_eq_true_eq] at hlt
  exact ⟨by simpa [lessOrEqual32b] using Int32.le_of_lt hlt, hle⟩

/-- A cumulative ACK: it releases only what it acknowledges, and one from outside the
range is ignored. -/
structure Cumulative (tsk : TcpSock) (ack : UInt32) (tsk' : TcpSock) : Prop where
  covered : ∃ popped, tsk.sendBuf = popped ++ tsk'.sendBuf ∧
    ∀ buf ∈ popped, Outstanding tsk ack ∧ lessOrEqual32b buf.seqEnd ack
  outside : ¬InRange tsk ack → tsk'.sendBuf = tsk.sendBuf ∧ tsk'.sndUna = tsk.sndUna ∧
    tsk'.cwnd = tsk.cwnd ∧ tsk'.inflight = tsk.inflight

/-- The next repetition of `snd_una` makes the congestion window smaller. -/
def Deflates (tsk : TcpSock) : Prop :=
  tsk.cgtState = .opn ∧ tsk.repAck + 1 > 2 ∨ tsk.cgtState = .rcvr ∧ tsk.repAck + 1 > 1

/-- Where the plain order does no harm. -/
structure PlainOrderAgrees (tsk : TcpSock) (ack : UInt32) : Prop where
  forged : ack ≠ tsk.sndUna → ¬Outstanding tsk ack → ∀ first ∈ tsk.sendBuf.head?, ack < first.seqEnd
  wrapped : Outstanding tsk ack →
    ∀ buf ∈ tsk.sendBuf.takeWhile fun buf => decide (buf.seqEnd ≤ ack),
      lessOrEqual32b buf.seqEnd ack
  steady : ack = tsk.sndUna → ¬InRange tsk ack → Deflates tsk → tsk.cwnd = 1

theorem released_eq_nil_iff (tsk : TcpSock) (ack : UInt32) : released tsk ack = [] ↔
    (ack ≠ tsk.sndUna → ∀ first ∈ tsk.sendBuf.head?, ack < first.seqEnd) := by
  unfold released
  split_ifs with heq
  · exact ⟨fun _ h => absurd heq h, fun _ => rfl⟩
  · cases tsk.sendBuf with
    | nil => simp
    | cons buf bufs => simp [heq, List.takeWhile_cons, UInt32.not_le]

theorem deflate_cwnd (tsk : TcpSock) :
    (deflate tsk).cwnd = tsk.cwnd ↔ (tsk.repAck > 1 → tsk.cwnd = 1) := by
  have hone (cwnd : UInt32) : (if cwnd - 1 < 1 then 1 else cwnd - 1) = cwnd ↔ cwnd = 1 := by
    split_ifs with h <;> grind
  unfold deflate
  by_cases hmany : tsk.repAck > 1
  · rw [if_pos hmany, hone]
    exact ⟨fun h _ => h, fun h => h hmany⟩
  · rw [if_neg hmany]
    exact ⟨fun _ h => absurd h hmany, fun _ => rfl⟩

theorem enterRecovery_cwnd (run : Run) : (enterRecovery run).tsk.cwnd = run.tsk.cwnd ∧
    (enterRecovery run).tsk.repAck = run.tsk.repAck := by
  unfold enterRecovery
  simp only
  split <;> exact ⟨rfl, rfl⟩

theorem ackRepeated_cwnd (run : Run) : (ackRepeated run).tsk.cwnd = run.tsk.cwnd ↔
    (Deflates run.tsk → run.tsk.cwnd = 1) := by
  have hrep : run.countAck.tsk.repAck = run.tsk.repAck + 1 := rfl
  have hcwnd : run.countAck.tsk.cwnd = run.tsk.cwnd := rfl
  unfold ackRepeated Deflates
  cases hcgt : run.tsk.cgtState with
  | opn =>
    simp only [true_and, reduceCtorEq, false_and, or_false]
    split_ifs with hmany
    · obtain ⟨hcwnd', hrep'⟩ := enterRecovery_cwnd run.countAck
      have hdeflate := deflate_cwnd (enterRecovery run.countAck).tsk
      rw [hcwnd', hrep', hrep, hcwnd] at hdeflate
      rw [Run.update_tsk, hdeflate]
      exact ⟨fun h _ => h (by omega), fun h _ => h hmany⟩
    · exact ⟨fun _ h => absurd h hmany, fun _ => hcwnd⟩
  | rcvr =>
    have hdeflate := deflate_cwnd run.countAck.tsk
    rw [hrep, hcwnd] at hdeflate
    simp only [reduceCtorEq, false_and, true_and, false_or]
    exact hdeflate
  | loss => exact ⟨fun _ h => by simp at h, fun _ => hcwnd⟩

theorem leaveRecovery_cwnd (run : Run) (ack : UInt32) :
    (leaveRecovery run ack).tsk.cwnd = run.tsk.cwnd := by
  unfold leaveRecovery
  split
  · split_ifs
    · rfl
    · rw [tsk_retransmitFirst]
  · split_ifs <;> rfl
  · rfl

theorem popAcked_of_released {ack : UInt32} {bufs : List SendBuffer}
    (h : bufs.takeWhile (fun buf => decide (buf.seqEnd ≤ ack)) = []) (tsk : TcpSock) :
    popAcked ack bufs tsk = tsk := by
  cases bufs with
  | nil => rfl
  | cons buf bufs =>
    have hgt : ack < buf.seqEnd := by simpa [List.takeWhile_cons, UInt32.not_le] using h
    simp only [popAcked, if_pos hgt]

/-- An ACK that releases nothing leaves `cwnd` alone, up to the deflation by a repeated
ACK. -/
theorem processAck_cwnd (run : Run) (cb : TcpCb) (hnone : released run.tsk cb.ack = []) :
    (processAck run cb).tsk.cwnd = run.tsk.cwnd ↔
      (cb.ack = run.tsk.sndUna → Deflates run.tsk → run.tsk.cwnd = 1) := by
  have hwindow (r : Run) : (tcpUpdateWindowSafe r cb).tsk.cwnd = r.tsk.cwnd := by
    unfold tcpUpdateWindowSafe tcpUpdateWindow
    simp only
    split_ifs <;> rfl
  have hsame : (processAck run cb).tsk.cwnd = (countedAck run cb.ack).tsk.cwnd := by
    simp only [processAck]
    split_ifs
    · rfl
    · exact hwindow _
  rw [hsame, countedAck]
  split_ifs with heq
  · rw [ackRepeated_cwnd]
    exact ⟨fun h _ => h, fun h => h heq⟩
  · rw [released, if_neg heq] at hnone
    refine ⟨fun _ h => absurd h heq, fun _ => ?_⟩
    rw [ackNew, leaveRecovery_cwnd, Run.update_tsk, popAcked_of_released hnone]

theorem tcpProcess_cwnd (tsk : TcpSock) {cb : TcpCb} (newIss : UInt32) (reads : List ℕ)
    (hack : cb.flags &&& tcpAck ≠ 0) : (tcpProcess tsk cb newIss reads).last.tsk.cwnd =
      (processAck ⟨updateRcvNxt tsk cb, reads, []⟩ cb).tsk.cwnd := by
  obtain ⟨⟨_, _, _, _, hframe⟩, -⟩ := tcpProcess_switched tsk cb newIss reads
  rw [hframe, switched_seen_of_ack tsk cb reads _ hack, entered_of_ack tsk cb reads hack]

theorem Outstanding.ne {tsk : TcpSock} {ack : UInt32} (h : Outstanding tsk ack) :
    ack ≠ tsk.sndUna := by
  rintro rfl
  have hself := h.1
  simp only [lessThan32b, UInt32.sub_self] at hself
  exact absurd hself (by decide)

/-- A packet with ACK is processed as a cumulative ACK exactly where the plain order
agrees with the order of sequence numbers. -/
theorem cumulative_iff (tsk : TcpSock) (cb : TcpCb) (newIss : UInt32) (reads : List ℕ)
    (hack : cb.flags &&& tcpAck ≠ 0) :
    Cumulative tsk cb.ack (tcpProcess tsk cb newIss reads).last.tsk ↔
      PlainOrderAgrees tsk cb.ack := by
  have hpops := tcpProcess_pops tsk newIss reads hack
  have hcwnd (hnone : released tsk cb.ack = []) :
      (tcpProcess tsk cb newIss reads).last.tsk.cwnd = tsk.cwnd ↔
        (cb.ack = tsk.sndUna → Deflates tsk → tsk.cwnd = 1) := by
    obtain ⟨_, _, _, _, hrecv⟩ := receiveFrame_updateRcvNxt tsk cb
    have h := processAck_cwnd ⟨updateRcvNxt tsk cb, reads, []⟩ cb (by rw [hrecv]; exact hnone)
    rw [tcpProcess_cwnd tsk newIss reads hack]
    rw [hrecv] at h ⊢
    exact h
  constructor
  · intro h
    obtain ⟨popped, hbuf, hcovered⟩ := h.covered
    have hpopped : released tsk cb.ack = popped :=
      List.append_cancel_right (hpops.sendBuf.symm.trans hbuf)
    refine ⟨fun hne hout => ?_, fun hin => ?_, fun heq hout => ?_⟩
    · refine (released_eq_nil_iff tsk cb.ack).mp ?_ hne
      rw [hpopped, List.eq_nil_iff_forall_not_mem]
      exact fun buf hmem => hout (hcovered buf hmem).1
    · rw [released, if_neg hin.ne] at hpopped
      rw [hpopped]
      exact fun buf hmem => (hcovered buf hmem).2
    · have hnone : released tsk cb.ack = [] := if_pos heq
      exact (hcwnd hnone).mp (h.outside hout).2.2.1 heq
  · intro h
    refine ⟨⟨released tsk cb.ack, hpops.sendBuf, fun buf hmem => ?_⟩, fun hout => ?_⟩
    · by_cases heq : cb.ack = tsk.sndUna
      · rw [released, if_pos heq] at hmem
        cases hmem
      · by_cases hin : Outstanding tsk cb.ack
        · rw [released, if_neg heq] at hmem
          exact ⟨hin, h.wrapped hin buf hmem⟩
        · have hnone := (released_eq_nil_iff tsk cb.ack).mpr fun hne => h.forged hne hin
          rw [hnone] at hmem
          cases hmem
    · have hnone := (released_eq_nil_iff tsk cb.ack).mpr
        fun hne => h.forged hne fun hin => hout hin.inRange
      rw [hnone] at hpops
      refine ⟨hpops.sendBuf.symm, hpops.sndUna, (hcwnd hnone).mpr fun heq => h.steady heq hout, ?_⟩
      simpa using hpops.inflight

/-- A forged ACK beyond `snd_nxt`: the segment is released and will not be sent again. -/
def unacked : TcpSock :=
  afterData { allocTcpSock with state := .established, sndUna := 100, sndNxt := 100 } [1, 2, 3]

def forgedAck : TcpCb := ⟨1, 2, 80, 1024, 50, 50, 5000, 8192, tcpAck, [], 0⟩

theorem forged_ack_releases :
    ¬Cumulative unacked forgedAck.ack (tcpProcess unacked forgedAck 0 []).last.tsk := by
  intro h
  obtain ⟨popped, hbuf, hcovered⟩ := h.covered
  have hempty : (tcpProcess unacked forgedAck 0 []).last.tsk.sendBuf = [] := by decide +kernel
  rw [hempty, List.append_nil] at hbuf
  have hmem : unacked.sendBuf.head (by decide) ∈ popped := hbuf ▸ List.head_mem _
  have hout := (hcovered _ hmem).1.2
  exact absurd hout (by decide)

/-- The ACK of the segment. -/
def properAck : TcpCb := { forgedAck with ack := 103 }

theorem cumulative_properAck :
    Cumulative unacked properAck.ack (tcpProcess unacked properAck 0 []).last.tsk := by
  refine (cumulative_iff unacked properAck 0 [] (by decide)).mpr ⟨?_, ?_, ?_⟩
  · exact fun _ hout => absurd (by unfold Outstanding; decide) hout
  · intro _ buf hbuf
    fin_cases hbuf
    decide
  · exact fun heq => absurd heq (by decide)

end Cumulative

section History

/-- What the timer leaves of an entry: packet, length and end. -/
def SendBuffer.stored (buf : SendBuffer) : Segment × ℤ × UInt32 := (buf.packet, buf.len, buf.seqEnd)

/-- What concerns the queue. `change` is everything that leaves it alone: reads, waits
and state changes of other threads, and the rest of a call that was blocked. -/
inductive SendEvent
  | sendControl (flags : UInt8)
  | sendData (data : List UInt8)
  | deliver (cb : TcpCb) (newIss : UInt32) (reads : List ℕ)
  | scan
  | change (tsk : TcpSock)

/-- A socket and the entries that `put_sendbuf` ever stored, in order. -/
structure Sender where
  tsk : TcpSock
  history : List SendBuffer

/-- The entry that `put_sendbuf` stores in a control packet. -/
def storedByControl (tsk : TcpSock) (flags : UInt8) : List SendBuffer :=
  if flags &&& (tcpSyn ||| tcpFin) ≠ 0 then
    [⟨controlPacket tsk flags, 54, tsk.sndNxt + 1, 1, tcpRetransIntervalInitial, 0⟩]
  else []

/-- The entries that an event stores; of the packets that are answered only a FIN is
answered by one that is kept. -/
def storedBy (tsk : TcpSock) : SendEvent → List SendBuffer
  | .sendControl flags => storedByControl tsk flags
  | .sendData data =>
    [⟨dataPacket tsk data, 54 + data.length, tsk.sndNxt + UInt32.ofNat data.length, 1,
      tcpRetransIntervalInitial, 0⟩]
  | .deliver cb _ _ =>
    if cb.flags = tcpFin ∧ tsk.state = .established then
      storedByControl (updateRcvNxt tsk cb) (tcpAck ||| tcpFin)
    else []
  | .scan => []
  | .change _ => []

def sendStep (tsk : TcpSock) : SendEvent → Option TcpSock
  | .sendControl flags => some (afterControl tsk flags)
  | .sendData data => some (afterData tsk data)
  | .deliver cb newIss reads => some (tcpProcess tsk cb newIss reads).last.tsk
  | .scan => some (tcpScanRetrans tsk)
  | .change tsk' =>
    if tsk'.sendBuf = tsk.sendBuf ∧ tsk'.inflight = tsk.inflight ∧ tsk'.sndUna = tsk.sndUna ∧
      tsk'.sndNxt = tsk.sndNxt then some tsk' else none

def Sender.step (s : Sender) (e : SendEvent) : Option Sender :=
  (sendStep s.tsk e).map fun tsk => ⟨tsk, s.history ++ storedBy s.tsk e⟩

/-- A socket that has sent nothing since its `snd_nxt` was set. -/
def Fresh (tsk : TcpSock) : Prop := tsk.sendBuf = [] ∧ tsk.inflight = 0

theorem fresh_childSock (tsk : TcpSock) (cb : TcpCb) (newIss : UInt32) :
    Fresh (childSock tsk cb newIss) := ⟨rfl, rfl⟩

/-- The queue as a window; an entry covers the numbers from its packet's to its end. -/
def Sender.window (s : Sender) : Window UInt32 (Segment × ℤ × UInt32) :=
  ⟨s.history.map (·.stored), s.tsk.sendBuf.map (·.stored), s.tsk.sndUna, s.tsk.sndNxt⟩

/-- The queue holds the segments stored last, in order and without gaps up to `snd_nxt`,
begins at `snd_una` once something has been released, and is counted by `inflight`. -/
structure QueueInv (s : Sender) : Prop where
  sound : Sound (fun k : Segment × ℤ × UInt32 => k.1.seq) (fun k => k.2.2) s.window
  inflight : s.tsk.inflight = s.tsk.sendBuf.length

theorem queueInv_fresh {tsk : TcpSock} (h : Fresh tsk) : QueueInv ⟨tsk, []⟩ := by
  obtain ⟨hbuf, hflight⟩ := h
  refine ⟨?_, by simp [hflight, hbuf]⟩
  simp only [Sender.window, hbuf]
  exact sound_empty _ _

theorem QueueInv.pop {s : Sender} (h : QueueInv s) {popped : List SendBuffer} {tsk : TcpSock}
    (hpops : Pops s.tsk popped tsk) : QueueInv ⟨tsk, s.history⟩ := by
  have hsound := h.sound
  have hflight := h.inflight
  simp only [Sender.window, hpops.sendBuf, List.map_append] at hsound
  refine ⟨?_, ?_⟩
  · have hpop := hsound.pop
    simp only [Sender.window, hpops.sndUna, hpops.sndNxt]
    rw [List.getLast?_map, Option.map_map] at hpop
    exact hpop
  · rw [hpops.inflight, hflight, hpops.sendBuf, List.length_append]
    push_cast
    omega

/-- `put_sendbuf` after the segment has moved `snd_nxt`. -/
theorem QueueInv.put {s : Sender} (h : QueueInv s) {tsk : TcpSock} {packet : Segment} {size : ℤ}
    (hbuf : tsk.sendBuf = s.tsk.sendBuf) (hflight : tsk.inflight = s.tsk.inflight)
    (huna : tsk.sndUna = s.tsk.sndUna) (hseq : packet.seq = s.tsk.sndNxt) :
    QueueInv ⟨putSendbuf tsk packet size,
      s.history ++ [⟨packet, size, tsk.sndNxt, 1, tcpRetransIntervalInitial, 0⟩]⟩ := by
  have hpush := h.sound.push (k := (packet, size, tsk.sndNxt)) hseq
  refine ⟨?_, ?_⟩
  · simp only [Sender.window, putSendbuf, List.map_append, List.map_cons, List.map_nil, hbuf, huna]
    exact hpush
  · have hcount := h.inflight
    simp only [putSendbuf, hbuf, hflight, List.length_append, List.length_singleton]
    push_cast
    omega

/-- The rest of the socket does not matter for the queue. -/
theorem QueueInv.of_same {s : Sender} (h : QueueInv s) {tsk : TcpSock}
    (hbuf : tsk.sendBuf.map (·.stored) = s.tsk.sendBuf.map (·.stored))
    (hflight : tsk.inflight = s.tsk.inflight) (huna : tsk.sndUna = s.tsk.sndUna)
    (hnxt : tsk.sndNxt = s.tsk.sndNxt) : QueueInv ⟨tsk, s.history⟩ := by
  refine ⟨?_, ?_⟩
  · simp only [Sender.window, hbuf, huna, hnxt]
    exact h.sound
  · have hlen := congrArg List.length hbuf
    rw [List.length_map, List.length_map] at hlen
    rw [hflight, h.inflight, hlen]

theorem QueueInv.control {s : Sender} (h : QueueInv s) (flags : UInt8) :
    QueueInv ⟨afterControl s.tsk flags, s.history ++ storedByControl s.tsk flags⟩ := by
  unfold afterControl storedByControl
  split_ifs
  · exact h.put rfl rfl rfl rfl
  · rw [List.append_nil]
    exact h

theorem QueueInv.data {s : Sender} (h : QueueInv s) (data : List UInt8) :
    QueueInv ⟨afterData s.tsk data, s.history ++ storedBy s.tsk (.sendData data)⟩ :=
  h.put rfl rfl rfl rfl

/-- The timer changes no packet, no length and no end. -/
theorem scanEntries_queue (tsk : TcpSock) (bufs : List SendBuffer) :
    (scanEntries tsk bufs).2.1.map (·.stored) = bufs.map (·.stored) ∧
      (scanEntries tsk bufs).1.inflight = tsk.inflight ∧
      (scanEntries tsk bufs).1.sndUna = tsk.sndUna ∧
      (scanEntries tsk bufs).1.sndNxt = tsk.sndNxt := by
  induction bufs generalizing tsk with
  | nil => exact ⟨rfl, rfl, rfl, rfl⟩
  | cons buf bufs ih =>
    have hrestart (b : SendBuffer) : b.restart.stored = b.stored := by
      unfold SendBuffer.restart
      split_ifs <;> rfl
    simp only [scanEntries]
    split_ifs
    all_goals
      obtain ⟨hbufs, hflight, huna, hnxt⟩ := ih _
      refine ⟨?_, hflight, huna, hnxt⟩
      simp only [List.map_cons, hrestart, hbufs]
      rfl

theorem QueueInv.scan {s : Sender} (h : QueueInv s) :
    QueueInv ⟨tcpScanRetrans s.tsk, s.history⟩ := by
  obtain ⟨hbufs, hflight, huna, hnxt⟩ := scanEntries_queue s.tsk s.tsk.sendBuf
  exact h.of_same hbufs hflight huna hnxt

/-- A packet with ACK puts nothing into the queue. -/
theorem storedBy_deliver_of_ack (tsk : TcpSock) {cb : TcpCb} (newIss : UInt32) (reads : List ℕ)
    (hack : cb.flags &&& tcpAck ≠ 0) : storedBy tsk (.deliver cb newIss reads) = [] := by
  have hfin : ¬(cb.flags = tcpFin ∧ tsk.state = .established) := by
    rintro ⟨hfin, -⟩
    rw [hfin] at hack
    exact absurd (by decide) hack
  rw [storedBy, if_neg hfin]

theorem QueueInv.deliver {s : Sender} (h : QueueInv s) (cb : TcpCb) (newIss : UInt32)
    (reads : List ℕ) : QueueInv ⟨(tcpProcess s.tsk cb newIss reads).last.tsk,
      s.history ++ storedBy s.tsk (.deliver cb newIss reads)⟩ := by
  by_cases hack : cb.flags &&& tcpAck = 0
  · obtain ⟨⟨_, _, _, _, hframe⟩, -⟩ := tcpProcess_switched s.tsk cb newIss reads
    obtain ⟨_, _, _, _, hrecv⟩ := receiveFrame_updateRcvNxt s.tsk cb
    rw [entered_of_not_ack _ cb reads hack, seen_of_not_ack _ cb reads hack] at hframe
    simp only [storedBy, hframe, switched]
    have hstate : (updateRcvNxt s.tsk cb).state = s.tsk.state := by rw [hrecv]
    rw [hstate]
    split_ifs
    · have hbefore : QueueInv ⟨updateRcvNxt s.tsk cb, s.history⟩ := by
        rw [hrecv]
        exact h.of_same rfl rfl rfl rfl
      exact (hbefore.control (tcpAck ||| tcpFin)).of_same rfl rfl rfl rfl
    · rw [hrecv, List.append_nil]
      exact h.of_same rfl rfl rfl rfl
  · rw [storedBy_deliver_of_ack s.tsk newIss reads hack, List.append_nil]
    exact h.pop (tcpProcess_pops s.tsk newIss reads hack)

theorem QueueInv.step {s t : Sender} {e : SendEvent} (h : QueueInv s) (hstep : s.step e = some t) :
    QueueInv t := by
  obtain ⟨tsk, hsend, rfl⟩ := Option.map_eq_some_iff.mp hstep
  cases e with
  | sendControl flags => cases hsend; exact h.control flags
  | sendData data => cases hsend; exact h.data data
  | deliver cb newIss reads => cases hsend; exact h.deliver cb newIss reads
  | scan =>
    cases hsend
    rw [storedBy, List.append_nil]
    exact h.scan
  | change tsk' =>
    simp only [sendStep] at hsend
    split_ifs at hsend with hsame
    cases hsend
    rw [storedBy, List.append_nil]
    exact h.of_same (congrArg _ hsame.1) hsame.2.1 hsame.2.2.1 hsame.2.2.2

/-- Whatever is sent, acknowledged or timed out, in whatever order, `send_buf` holds the
segments that were stored last, up to `snd_nxt`. -/
theorem sendBuf_is_tail {s : Sender}
    (h : Reaches Sender.step anyStep (fun s => Fresh s.tsk ∧ s.history = []) s) : QueueInv s := by
  refine h.invariant QueueInv (fun s hs => ?_) fun s e t hinv _ hstep => hinv.step hstep
  obtain ⟨tsk, history⟩ := s
  obtain ⟨hfresh, rfl⟩ : Fresh tsk ∧ history = [] := hs
  exact queueInv_fresh hfresh

/-- A connection is opened and sends two segments; the first is acknowledged after a
round of the timer. -/
def opening : List SendEvent :=
  [.sendControl tcpSyn,
    .deliver ⟨2, 1, 1024, 80, 500, 501, 101, 8192, tcpSyn ||| tcpAck, [], 0⟩ 0 [],
    .sendData [1, 2, 3], .sendData [4, 5], .scan,
    .deliver ⟨2, 1, 1024, 80, 501, 501, 104, 8192, tcpAck, [], 0⟩ 0 []]

def connecting : Sender := ⟨{ allocTcpSock with state := .synSent, iss := 100, sndNxt := 100 }, []⟩

theorem opening_isSome : (exec Sender.step anyStep connecting opening).isSome := by
  decide +kernel

theorem sendBuf_is_tail_opening : ∃ s : Sender,
    s.tsk.sendBuf.map (·.packet.data) = [[4, 5]] ∧ s.history.length = 3 ∧ s.tsk.sndUna = 104 ∧
      QueueInv s := by
  have hrun := Option.some_get opening_isSome
  refine ⟨_, ?_, ?_, ?_, sendBuf_is_tail (.of_exec (.start ⟨⟨rfl, rfl⟩, rfl⟩) hrun.symm)⟩
  · decide +kernel
  · decide +kernel
  · decide +kernel

end History

end NetworkLab.Tcp
