import NetworkLab.SendQueue

/-!
# Rounds of the retransmission timer

A round of the timer subtracts the interval from the timeout of each entry of `send_buf`.
Where it reaches zero the socket takes a loss and the entry is sent again, at most twice
before its timer starts anew. Entries that run out in one round each take a loss, and
every loss after the first halves the window that the one before has left.
-/
namespace NetworkLab.Tcp
open GuardedRuns

section Round

/-- The timeout reaches zero in the next round. -/
def Expires (buf : SendBuffer) : Prop := buf.timeout - tcpTimerScanInterval = 0

/-- The next round sends the packet again. -/
def Resends (buf : SendBuffer) : Prop := Expires buf ∧ buf.times ≠ 3

instance (buf : SendBuffer) : Decidable (Expires buf) := inferInstanceAs (Decidable (_ = _))

instance (buf : SendBuffer) : Decidable (Resends buf) := inferInstanceAs (Decidable (_ ∧ _))

def expired (bufs : List SendBuffer) : ℕ := bufs.countP fun buf => Expires buf

/-- An entry after a round. -/
def SendBuffer.scan (buf : SendBuffer) : SendBuffer :=
  if Expires buf then { buf with timeout := buf.timeout - tcpTimerScanInterval }.restart
  else { buf with timeout := buf.timeout - tcpTimerScanInterval }

/-- The socket takes a loss for each entry that runs out. -/
theorem scanEntries_eq (tsk : TcpSock) (bufs : List SendBuffer) :
    scanEntries tsk bufs = (enterLoss^[expired bufs] tsk, bufs.map SendBuffer.scan,
      (bufs.filter fun buf => Resends buf).map (·.packet)) := by
  induction bufs generalizing tsk with
  | nil => rfl
  | cons buf bufs ih =>
    simp only [scanEntries]
    by_cases hexpires : Expires buf
    · have hzero : buf.timeout - tcpTimerScanInterval = 0 := hexpires
      by_cases htimes : buf.times = 3 <;>
        simp [hzero, ih, expired, SendBuffer.scan, Resends, hexpires, htimes]
    · have hzero : ¬buf.timeout - tcpTimerScanInterval = 0 := hexpires
      simp [hzero, ih, expired, SendBuffer.scan, Resends, hexpires]

theorem tcpScanRetrans_eq (tsk : TcpSock) : tcpScanRetrans tsk =
    { enterLoss^[expired tsk.sendBuf] tsk with sendBuf := tsk.sendBuf.map SendBuffer.scan } := by
  rw [tcpScanRetrans, scanEntries_eq]

theorem retransmitted_eq (tsk : TcpSock) : retransmitted tsk =
    (tsk.sendBuf.filter fun buf => Resends buf).map (·.packet) := by
  rw [retransmitted, scanEntries_eq]

end Round

section Loss

variable {tsk : TcpSock}

/-- A second loss finds a window of one segment. -/
theorem enterLoss_enterLoss (tsk : TcpSock) :
    enterLoss (enterLoss tsk) = { enterLoss tsk with ssthresh := 1 } := by
  simp [enterLoss]

theorem iterate_enterLoss (tsk : TcpSock) (n : ℕ) :
    enterLoss^[n + 2] tsk = { enterLoss tsk with ssthresh := 1 } := by
  induction n with
  | zero => exact enterLoss_enterLoss tsk
  | succ n ih =>
    rw [Function.iterate_succ_apply', ih]
    simp [enterLoss]

/-- The threshold is half of the window, and recovery lasts up to `snd_nxt`. -/
structure LossEntered (tsk tsk' : TcpSock) : Prop where
  ssthresh : tsk'.ssthresh = (tsk.cwnd + 1) / 2
  cwnd : tsk'.cwnd = 1
  cgtState : tsk'.cgtState = .loss
  recoveryPoint : tsk'.recoveryPoint = tsk.sndNxt

theorem lossEntered_enterLoss (hstate : tsk.cgtState ≠ .loss) :
    LossEntered tsk (enterLoss tsk) := by
  constructor <;> simp [enterLoss, hstate]

theorem half_eq_one_iff (cwnd : UInt32) : (cwnd + 1) / 2 = 1 ↔ cwnd = 1 ∨ cwnd = 2 := by
  have hlt := cwnd.toNat_lt
  simp [← UInt32.toNat_inj]
  omega

/-- A round in which entries run out halves the threshold once if and only if there is one
of them, or half of the window is one segment. -/
theorem scan_halves_once_iff (hstate : tsk.cgtState ≠ .loss) (hexpired : 0 < expired tsk.sendBuf) :
    LossEntered tsk (tcpScanRetrans tsk) ↔
      expired tsk.sendBuf = 1 ∨ tsk.cwnd = 1 ∨ tsk.cwnd = 2 := by
  have hone := lossEntered_enterLoss hstate
  obtain ⟨n, hn⟩ := Nat.exists_eq_succ_of_ne_zero hexpired.ne'
  rw [tcpScanRetrans_eq, hn]
  cases n with
  | zero => exact ⟨fun _ => .inl rfl, fun _ => ⟨hone.1, hone.2, hone.3, hone.4⟩⟩
  | succ n =>
    rw [iterate_enterLoss]
    constructor
    · intro h
      exact .inr ((half_eq_one_iff tsk.cwnd).mp h.ssthresh.symm)
    · intro h
      have hcwnd := h.resolve_left (by omega)
      exact ⟨((half_eq_one_iff tsk.cwnd).mpr hcwnd).symm, hone.2, hone.3, hone.4⟩

/-- Segments in flight that were sent at one time, twenty rounds ago. -/
def burst (segments : ℕ) : TcpSock :=
  { allocTcpSock with
    state := .established, cwnd := 4, ssthresh := 8, inflight := segments
    sendBuf := List.replicate segments
      ⟨controlPacket allocTcpSock tcpAck, 54, 0, 1, tcpTimerScanInterval, 0⟩ }

theorem scan_halves_once_single : LossEntered (burst 1) (tcpScanRetrans (burst 1)) :=
  (scan_halves_once_iff (by decide) (by decide)).mpr (.inl (by decide))

/-- Two segments run out in one round: the threshold is one instead of two. -/
theorem scan_halves_twice : (burst 2).cgtState ≠ .loss ∧ 0 < expired (burst 2).sendBuf ∧
    ¬LossEntered (burst 2) (tcpScanRetrans (burst 2)) := by
  refine ⟨by decide, by decide, fun h => ?_⟩
  exact absurd h.ssthresh (by decide)

end Loss

section Schedule

/-- An entry with the rounds since it was stored and those of them that sent it again. -/
structure Tracked where
  buf : SendBuffer
  scans : ℕ
  resent : List ℕ

def Tracked.scan (t : Tracked) : Tracked where
  buf := t.buf.scan
  scans := t.scans + 1
  resent := if Resends t.buf then t.resent ++ [t.scans + 1] else t.resent

/-- `times` after a number of rounds, and the round of the cycle in which the timer runs
out next. -/
def phase (n : ℕ) : ℕ × ℕ :=
  if n % 140 < 20 then (1, 20) else if n % 140 < 60 then (2, 60) else (3, 140)

/-- The rounds that send the packet again. -/
def ResendsAt (j : ℕ) : Prop := j % 140 = 20 ∨ j % 140 = 60

instance (j : ℕ) : Decidable (ResendsAt j) := inferInstanceAs (Decidable (_ ∨ _))

/-- The timer of an entry after a number of rounds. -/
structure Scheduled (n : ℕ) (buf : SendBuffer) : Prop where
  times : buf.times = (phase n).1
  timeout : buf.timeout = ((phase n).2 - n % 140 : ℕ) * tcpTimerScanInterval

structure OnSchedule (t : Tracked) : Prop where
  timer : Scheduled t.scans t.buf
  resent : t.resent = (List.range (t.scans + 1)).filter fun j => ResendsAt j

theorem scan_running {buf : SendBuffer} {k : ℕ} (hk : 1 < k)
    (htimeout : buf.timeout = k * tcpTimerScanInterval) :
    ¬Expires buf ∧ buf.scan.times = buf.times ∧
      buf.scan.timeout = (k - 1 : ℕ) * tcpTimerScanInterval := by
  have hexpires : ¬Expires buf := by
    simp only [Expires, htimeout, tcpTimerScanInterval]
    omega
  simp only [SendBuffer.scan, hexpires, not_false_eq_true, if_false, htimeout,
    tcpTimerScanInterval, true_and]
  omega

theorem scan_expired {buf : SendBuffer} (htimeout : buf.timeout = tcpTimerScanInterval) :
    Expires buf ∧
      buf.scan.times = (if buf.times = 3 then 1 else buf.times + 1) ∧
      buf.scan.timeout =
        if buf.times = 3 then 20 * tcpTimerScanInterval
        else if buf.times + 1 = 2 then 40 * tcpTimerScanInterval
        else 80 * tcpTimerScanInterval := by
  have hexpires : Expires buf := by simp [Expires, htimeout]
  simp only [SendBuffer.scan, hexpires, if_true, SendBuffer.restart, true_and]
  split_ifs <;> simp [tcpRetransIntervalInitial, tcpTimerScanInterval]

theorem phase_running {n : ℕ} (h : n % 140 + 1 < (phase n).2) :
    phase (n + 1) = phase n ∧ (n + 1) % 140 = n % 140 + 1 ∧ ¬ResendsAt (n + 1) := by
  have hmod : (n + 1) % 140 = n % 140 + 1 := by
    unfold phase at h
    split_ifs at h <;> simp at h <;> omega
  unfold phase ResendsAt at *
  rw [hmod]
  split_ifs at * <;> simp at * <;> omega

/-- The next phase begins after the round in which the timer runs out. -/
theorem phase_expired {n : ℕ} (h : n % 140 + 1 = (phase n).2) :
    (phase (n + 1)).1 = (if (phase n).1 = 3 then 1 else (phase n).1 + 1) ∧
    (phase (n + 1)).2 - (n + 1) % 140 =
      (if (phase n).1 = 3 then 20 else if (phase n).1 + 1 = 2 then 40 else 80) ∧
    (ResendsAt (n + 1) ↔ (phase n).1 ≠ 3) := by
  unfold phase ResendsAt at *
  split_ifs at * <;> simp <;> omega

theorem phase_lt (n : ℕ) : n % 140 < (phase n).2 := by
  unfold phase
  split_ifs <;> simp only <;> omega

/-- What one round makes of an entry. -/
theorem Scheduled.scan {buf : SendBuffer} {n : ℕ} (h : Scheduled n buf) :
    Scheduled (n + 1) buf.scan ∧ (Resends buf ↔ ResendsAt (n + 1)) := by
  have hlt := phase_lt n
  by_cases hlast : n % 140 + 1 = (phase n).2
  · obtain ⟨hphase, hrest, hat⟩ := phase_expired hlast
    have htimeout : buf.timeout = tcpTimerScanInterval := by
      rw [h.timeout, show (phase n).2 - n % 140 = 1 by omega, Nat.cast_one, one_mul]
    obtain ⟨hexpires, htimes', htimeout'⟩ := scan_expired htimeout
    have hthird : buf.times = 3 ↔ (phase n).1 = 3 := by
      rw [h.times]
      norm_cast
    have hsecond : buf.times + 1 = 2 ↔ (phase n).1 + 1 = 2 := by
      rw [h.times]
      norm_cast
    refine ⟨⟨?_, ?_⟩, ?_⟩
    · simp only [htimes', hphase, hthird]
      split_ifs <;> simp [h.times]
    · simp only [htimeout', hrest, hthird, hsecond]
      split_ifs <;> simp
    · simp [Resends, hexpires, hat, hthird]
  · have hrunning : n % 140 + 1 < (phase n).2 := by omega
    obtain ⟨hphase, hmod, hat⟩ := phase_running hrunning
    obtain ⟨hexpires, htimes', htimeout'⟩ := scan_running (by omega) h.timeout
    refine ⟨⟨?_, ?_⟩, ?_⟩
    · rw [htimes', hphase, h.times]
    · rw [htimeout', hphase, hmod, Nat.sub_sub]
    · simp [Resends, hexpires, hat]

theorem OnSchedule.scan {t : Tracked} (h : OnSchedule t) : OnSchedule t.scan := by
  obtain ⟨htimer, hresends⟩ := h.timer.scan
  constructor
  · exact htimer
  · simp only [Tracked.scan, h.resent, hresends]
    rw [List.range_succ (n := t.scans + 1), List.filter_append]
    split_ifs with hat <;> simp [hat]

/-- The number of rounds that send the packet again. -/
theorem length_resendsAt (n : ℕ) :
    ((List.range (n + 1)).filter fun j => ResendsAt j).length =
      2 * (n / 140) + (if 20 ≤ n % 140 then 1 else 0) + if 60 ≤ n % 140 then 1 else 0 := by
  induction n with
  | zero => decide
  | succ n ih =>
    have hlast : ([n + 1].filter fun j => ResendsAt j).length =
        if (n + 1) % 140 = 20 ∨ (n + 1) % 140 = 60 then 1 else 0 := by
      by_cases hat : (n + 1) % 140 = 20 ∨ (n + 1) % 140 = 60
      · have hresends : ResendsAt (n + 1) := hat
        simp [hat, hresends]
      · have hresends : ¬ResendsAt (n + 1) := hat
        simp [hat, hresends]
    rw [List.range_succ, List.filter_append, List.length_append, ih, hlast]
    clear ih hlast
    split_ifs <;> omega

/-- Between two rounds that send the packet again there are less than a hundred. -/
theorem exists_resendsAt (i : ℕ) : ∃ j, ResendsAt j ∧ i < j ∧ j ≤ i + 101 := by
  by_cases hfirst : i % 140 < 20
  · exact ⟨i - i % 140 + 20, by unfold ResendsAt; omega, by omega, by omega⟩
  by_cases hsecond : i % 140 < 60
  · exact ⟨i - i % 140 + 60, by unfold ResendsAt; omega, by omega, by omega⟩
  · exact ⟨i - i % 140 + 160, by unfold ResendsAt; omega, by omega, by omega⟩

end Schedule

section Runs

/-- The timer of an entry never stalls. -/
structure NeverStalls (t : Tracked) : Prop where
  timeout : ∃ k : ℕ, 0 < k ∧ t.buf.timeout = k * tcpTimerScanInterval
  times : 1 ≤ t.buf.times ∧ t.buf.times ≤ 3
  count : t.resent.length = 2 * (t.scans / 140) +
    (if 20 ≤ t.scans % 140 then 1 else 0) + if 60 ≤ t.scans % 140 then 1 else 0
  often : ∀ i, i + 101 ≤ t.scans → ∃ j ∈ t.resent, i < j ∧ j ≤ i + 101

theorem OnSchedule.neverStalls {t : Tracked} (h : OnSchedule t) : NeverStalls t := by
  constructor
  case timeout =>
    have hlt := phase_lt t.scans
    exact ⟨_, by omega, h.timer.timeout⟩
  case times =>
    rw [h.timer.times]
    unfold phase
    split_ifs <;> simp
  case count => rw [h.resent, length_resendsAt]
  case often =>
    intro i hi
    obtain ⟨j, hat, hafter, hbefore⟩ := exists_resendsAt i
    refine ⟨j, ?_, hafter, hbefore⟩
    rw [h.resent, List.mem_filter, List.mem_range]
    exact ⟨by omega, by simpa using hat⟩

/-- A socket whose entries are tracked. -/
structure Timed where
  tsk : TcpSock
  tracked : List Tracked

/-- The entries that an event removes. -/
def releasedBy (tsk : TcpSock) : SendEvent → List SendBuffer
  | .deliver cb _ _ => if cb.flags &&& tcpAck ≠ 0 then released tsk cb.ack else []
  | _ => []

def Tracked.fresh (buf : SendBuffer) : Tracked := ⟨buf, 0, []⟩

def Timed.track (w : Timed) : SendEvent → List Tracked
  | .scan => w.tracked.map Tracked.scan
  | e => w.tracked.drop (releasedBy w.tsk e).length ++ (storedBy w.tsk e).map Tracked.fresh

def Timed.step (w : Timed) (e : SendEvent) : Option Timed :=
  (sendStep w.tsk e).map fun tsk => ⟨tsk, w.track e⟩

/-- A socket that has nothing in its queue yet. -/
def Timed.Empty (w : Timed) : Prop := w.tsk.sendBuf = [] ∧ w.tracked = []

theorem sendBuf_sendControl (tsk : TcpSock) (flags : UInt8) :
    (afterControl tsk flags).sendBuf = tsk.sendBuf ++ storedByControl tsk flags := by
  unfold afterControl storedByControl
  split_ifs
  · rfl
  · simp

theorem sendBuf_deliver (tsk : TcpSock) (cb : TcpCb) (newIss : UInt32) (reads : List ℕ) :
    (tcpProcess tsk cb newIss reads).last.tsk.sendBuf =
      tsk.sendBuf.drop (releasedBy tsk (.deliver cb newIss reads)).length ++
        storedBy tsk (.deliver cb newIss reads) := by
  by_cases hack : cb.flags &&& tcpAck = 0
  · obtain ⟨⟨_, _, _, _, hframe⟩, -⟩ := tcpProcess_switched tsk cb newIss reads
    obtain ⟨_, _, _, _, hrecv⟩ := receiveFrame_updateRcvNxt tsk cb
    have hstate : (updateRcvNxt tsk cb).state = tsk.state := by rw [hrecv]
    have hbuf : (updateRcvNxt tsk cb).sendBuf = tsk.sendBuf := by rw [hrecv]
    have hnone : releasedBy tsk (.deliver cb newIss reads) = [] := if_neg (not_not_intro hack)
    rw [hframe, entered_of_not_ack _ cb reads hack, seen_of_not_ack _ cb reads hack, hnone,
      List.length_nil, List.drop_zero, ← hbuf]
    simp only [switched, storedBy, hstate]
    split_ifs
    · exact sendBuf_sendControl _ _
    · exact (List.append_nil _).symm
  · have hpops := (tcpProcess_pops tsk newIss reads hack).sendBuf
    have hreleased : releasedBy tsk (.deliver cb newIss reads) = released tsk cb.ack := if_pos hack
    rw [storedBy_deliver_of_ack tsk newIss reads hack, hreleased, List.append_nil, hpops,
      List.drop_left]

/-- What an event other than a round leaves and adds. -/
theorem sendBuf_sendStep {tsk tsk' : TcpSock} {e : SendEvent} (hstep : sendStep tsk e = some tsk')
    (he : e ≠ .scan) :
    tsk'.sendBuf = tsk.sendBuf.drop (releasedBy tsk e).length ++ storedBy tsk e := by
  cases e with
  | sendControl flags =>
    cases hstep
    exact sendBuf_sendControl tsk flags
  | sendData data =>
    cases hstep
    rfl
  | deliver cb newIss reads =>
    cases hstep
    exact sendBuf_deliver tsk cb newIss reads
  | scan => exact absurd rfl he
  | change tsk₁ =>
    simp only [sendStep] at hstep
    split_ifs at hstep with hsame
    cases hstep
    simp [releasedBy, storedBy, hsame.1]

theorem mem_storedBy {tsk : TcpSock} {e : SendEvent} {buf : SendBuffer}
    (h : buf ∈ storedBy tsk e) : buf.times = 1 ∧ buf.timeout = tcpRetransIntervalInitial := by
  have hcontrol {tsk : TcpSock} {flags : UInt8} (h : buf ∈ storedByControl tsk flags) :
      buf.times = 1 ∧ buf.timeout = tcpRetransIntervalInitial := by
    unfold storedByControl at h
    split_ifs at h
    · simp [List.mem_singleton.mp h]
    · simp at h
  cases e with
  | sendControl flags => exact hcontrol h
  | sendData data => simp [List.mem_singleton.mp h]
  | deliver cb newIss reads =>
    simp only [storedBy] at h
    split_ifs at h
    · exact hcontrol h
    · simp at h
  | scan => simp [storedBy] at h
  | change tsk' => simp [storedBy] at h

/-- The entries of the queue are the tracked ones, and their timers run as scheduled. -/
structure TimersRun (w : Timed) : Prop where
  tracks : w.tracked.map (·.buf) = w.tsk.sendBuf
  schedule : ∀ t ∈ w.tracked, OnSchedule t

theorem onSchedule_fresh {buf : SendBuffer}
    (h : buf.times = 1 ∧ buf.timeout = tcpRetransIntervalInitial) :
    OnSchedule (Tracked.fresh buf) := by
  constructor
  · constructor <;> simp [Tracked.fresh, phase, h, tcpRetransIntervalInitial, tcpTimerScanInterval]
  · simp [Tracked.fresh, ResendsAt]

theorem TimersRun.scan {w : Timed} (h : TimersRun w) :
    TimersRun ⟨tcpScanRetrans w.tsk, w.tracked.map Tracked.scan⟩ := by
  constructor
  · rw [tcpScanRetrans_eq, ← h.tracks, List.map_map, List.map_map]
    rfl
  · intro t ht
    obtain ⟨t', ht', rfl⟩ := List.mem_map.mp ht
    exact (h.schedule t' ht').scan

/-- An event leaves entries as they are, except for a round. -/
theorem TimersRun.other {w : Timed} (h : TimersRun w) {e : SendEvent} {tsk : TcpSock}
    (hstep : sendStep w.tsk e = some tsk) (he : e ≠ .scan) :
    TimersRun ⟨tsk, w.tracked.drop (releasedBy w.tsk e).length ++
      (storedBy w.tsk e).map Tracked.fresh⟩ := by
  constructor
  · rw [sendBuf_sendStep hstep he, ← h.tracks, List.map_append, List.map_drop, List.map_map]
    simp [Function.comp_def, Tracked.fresh]
  · intro t ht
    rcases List.mem_append.mp ht with hold | hnew
    · exact h.schedule t (List.mem_of_mem_drop hold)
    · obtain ⟨buf, hbuf, rfl⟩ := List.mem_map.mp hnew
      exact onSchedule_fresh (mem_storedBy hbuf)

theorem TimersRun.step {w w' : Timed} {e : SendEvent} (h : TimersRun w)
    (hstep : w.step e = some w') : TimersRun w' := by
  obtain ⟨tsk, hsend, rfl⟩ := Option.map_eq_some_iff.mp hstep
  cases e with
  | scan =>
    cases hsend
    exact h.scan
  | sendControl flags => exact h.other hsend (by simp)
  | sendData data => exact h.other hsend (by simp)
  | deliver cb newIss reads => exact h.other hsend (by simp)
  | change tsk' => exact h.other hsend (by simp)

/-- In every run, the timer of every entry that is still in the queue has run as scheduled,
and the packets that a round sends are those of the entries it counts as sent again. -/
theorem retransmission_timer_never_stalls {w : Timed}
    (h : Reaches Timed.step anyStep Timed.Empty w) :
    w.tracked.map (·.buf) = w.tsk.sendBuf ∧
    retransmitted w.tsk = (w.tracked.filter fun t => Resends t.buf).map (·.buf.packet) ∧
    ∀ t ∈ w.tracked, NeverStalls t := by
  have hrun : TimersRun w := by
    refine h.invariant TimersRun (fun w hw => ?_) fun w e w' hinv _ hstep => hinv.step hstep
    constructor <;> simp [hw.1, hw.2]
  refine ⟨hrun.tracks, ?_, fun t ht => (hrun.schedule t ht).neverStalls⟩
  rw [retransmitted_eq, ← hrun.tracks, List.filter_map, List.map_map]
  rfl

/-- A SYN that is not acknowledged for sixty rounds. -/
def unanswered : List SendEvent := .sendControl tcpSyn :: List.replicate 60 .scan

theorem unanswered_isSome :
    (exec Timed.step anyStep ⟨connecting.tsk, []⟩ unanswered).isSome := by
  decide +kernel

theorem retransmission_timer_unanswered : ∃ w : Timed,
    w.tracked.map (fun t => (t.scans, t.resent)) = [(60, [20, 60])] ∧
    w.tracked.map (·.buf) = w.tsk.sendBuf ∧
    retransmitted w.tsk = (w.tracked.filter fun t => Resends t.buf).map (·.buf.packet) ∧
    ∀ t ∈ w.tracked, NeverStalls t := by
  have hrun := Option.some_get unanswered_isSome
  refine ⟨_, ?_, retransmission_timer_never_stalls (.of_exec (.start ⟨rfl, rfl⟩) hrun.symm)⟩
  decide +kernel

end Runs

end NetworkLab.Tcp
