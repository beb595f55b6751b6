import NetworkLab.SendQueue

/-!
# Which packets move a connection forward

A SYN or FIN of one's own is acknowledged by the number after it. The switch over the
flags does not look at the number: any ACK that arrives in the right state counts. It is
the right number if the ACK releases all of `send_buf`, since the SYN or FIN is the last
entry there.
-/
namespace NetworkLab.Tcp
open GuardedRuns

section Advance

/-- The call completes the handshake or a step of the close. -/
def Progress (tsk : TcpSock) (run : Run) : Prop :=
  tsk.state = .synSent ∧ .wakeUp .connect ∈ run.actions ∨
  tsk.state = .synRecv ∧ run.tsk.state = .established ∨
  tsk.state = .finWait1 ∧ (run.tsk.state = .finWait2 ∨ run.tsk.state = .timeWait) ∨
  tsk.state = .lastAck ∧ run.tsk.state = .closed

instance (tsk : TcpSock) (run : Run) : Decidable (Progress tsk run) :=
  inferInstanceAs (Decidable (_ ∨ _))

/-- Flags on which the switch goes on from a state. -/
def Advances (state : TcpState) (flags : UInt8) : Prop :=
  match state with
  | .synSent => flags = tcpSyn ||| tcpAck
  | .synRecv => flags = tcpAck ∨ flags = tcpPsh ∨ flags = tcpPsh ||| tcpAck
  | .finWait1 => flags = tcpAck ∨ flags = tcpAck ||| tcpFin
  | .lastAck => flags = tcpAck
  | _ => False

instance (state : TcpState) (flags : UInt8) : Decidable (Advances state flags) := by
  unfold Advances
  cases state <;> infer_instance

theorem wakeConnect_mem_switchMarks (tsk : TcpSock) (cb : TcpCb) (newIss : UInt32) :
    .wakeUp .connect ∈ switchMarks tsk cb newIss ↔
      cb.flags = tcpSyn ||| tcpAck ∧ tsk.state = .synSent := by
  by_cases hsynack : cb.flags = tcpSyn ||| tcpAck
  · have hsyn : cb.flags ≠ tcpSyn := by rw [hsynack]; decide
    rw [switchMarks, if_neg hsyn, if_pos hsynack]
    split_ifs with hstate <;> simp [hsynack, hstate]
  · have hack : .wakeUp .connect ∉ ackMarks tsk := by
      unfold ackMarks
      split
      · simp
      · split_ifs <;> simp
      · simp
    refine ⟨fun h => ?_, fun h => absurd h.1 hsynack⟩
    rw [switchMarks, if_neg hsynack] at h
    split_ifs at h <;> first | exact absurd h hack | simp at h

theorem nextState_synRecv (flags : UInt8) : nextState .synRecv flags = .established ↔
    flags = tcpAck ∨ flags = tcpPsh ∨ flags = tcpPsh ||| tcpAck := by
  constructor
  · intro h
    by_contra hne
    rw [not_or] at hne
    simp only [nextState, if_neg hne.1, if_neg hne.2] at h
    split_ifs at h
  · rintro (rfl | rfl | rfl) <;> rfl

theorem nextState_finWait1 (flags : UInt8) :
    nextState .finWait1 flags = .finWait2 ∨ nextState .finWait1 flags = .timeWait ↔
      flags = tcpAck ∨ flags = tcpAck ||| tcpFin := by
  constructor
  · intro h
    by_contra hne
    rw [not_or] at hne
    have hstay : nextState .finWait1 flags = .finWait1 := by
      simp [nextState, hne.1, hne.2]
    rw [hstay] at h
    exact absurd h (by decide)
  · rintro (rfl | rfl)
    · exact .inl rfl
    · exact .inr rfl

theorem nextState_lastAck (flags : UInt8) :
    nextState .lastAck flags = .closed ↔ flags = tcpAck := by
  constructor
  · intro h
    by_contra hne
    simp only [nextState, if_neg hne] at h
    split_ifs at h
  · rintro rfl
    rfl

/-- A call moves the connection forward only where the flags fit the state. -/
theorem Progress.advances {tsk : TcpSock} {cb : TcpCb} {newIss : UInt32} {reads : List ℕ}
    (h : Progress tsk (tcpProcess tsk cb newIss reads).last) : Advances tsk.state cb.flags := by
  have hwake : .wakeUp .connect ∈ (tcpProcess tsk cb newIss reads).last.actions ↔
      (seen tsk cb reads).flags = tcpSyn ||| tcpAck ∧ tsk.state = .synSent := by
    rw [← mem_marks rfl, tcpProcess_marks, wakeConnect_mem_switchMarks,
      (updateRcvNxt_state tsk cb).1]
  unfold Progress at h
  rw [hwake, tcpProcess_state] at h
  obtain ⟨hstate, hflags, -⟩ | ⟨hstate, hnext⟩ | ⟨hstate, hnext⟩ | ⟨hstate, hnext⟩ := h <;>
    rw [hstate]
  · exact flags_of_seen hflags (by decide)
  · rw [hstate, nextState_synRecv] at hnext
    exact hnext.imp (flags_of_seen · (by decide)) (Or.imp (flags_of_seen · (by decide))
      (flags_of_seen · (by decide)))
  · rw [hstate, nextState_finWait1] at hnext
    exact hnext.imp (flags_of_seen · (by decide)) (flags_of_seen · (by decide))
  · rw [hstate, nextState_lastAck] at hnext
    exact flags_of_seen hnext (by decide)

end Advance

section Run

/-- A socket with the number after its last own SYN or FIN. `woken` is the signal to
`tcp_sock_connect`, and `log` has the ACK of every packet that moved the connection
forward beside the number it should have carried. -/
structure Opener where
  tsk : TcpSock
  mark : UInt32
  woken : Bool
  log : List (UInt32 × UInt32)

/-- What happens to one socket. `change` is whatever touches neither the state nor the
queue with its numbers: reads, waits, the rest of a call that was blocked. -/
inductive OpenEvent
  | connect (sip dip : UInt32) (sport dport : UInt16) (newIss : UInt32)
  | connected
  | listen
  | sendData (data : List UInt8)
  | close
  | deliver (cb : TcpCb) (newIss : UInt32) (reads : List ℕ)
  | scan
  | timewaitOver
  | change (tsk : TcpSock)

def Opener.step (s : Opener) : OpenEvent → Option Opener
  | .connect sip dip sport dport newIss =>
    let run := tcpSockConnect ⟨s.tsk, [], []⟩ sip dip sport dport newIss
    some { s with tsk := run.tsk, mark := run.tsk.sndNxt, woken := false }
  | .connected =>
    if s.woken then
      some { s with tsk := (tcpSockConnected ⟨s.tsk, [], []⟩).tsk, woken := false }
    else none
  | .listen => some { s with tsk := tcpSockListen s.tsk }
  | .sendData data => some { s with tsk := afterData s.tsk data }
  | .close =>
    let run := tcpSockClose ⟨s.tsk, [], []⟩
    some { s with
      tsk := run.tsk
      mark :=
        if s.tsk.state = .established ∨ s.tsk.state = .closeWait then run.tsk.sndNxt else s.mark }
  | .deliver cb newIss reads =>
    let run := (tcpProcess s.tsk cb newIss reads).last
    some {
      tsk := run.tsk
      mark :=
        if cb.flags = tcpFin ∧ s.tsk.state = .established then run.tsk.sndNxt else s.mark
      woken := s.woken || decide (.wakeUp .connect ∈ run.actions)
      log := s.log ++ if Progress s.tsk run then [(cb.ack, s.mark)] else [] }
  | .scan => some { s with tsk := tcpScanRetrans s.tsk }
  | .timewaitOver => some { s with tsk := { s.tsk with state := .closed } }
  | .change tsk =>
    if tsk.state = s.tsk.state ∧ tsk.sndNxt = s.tsk.sndNxt ∧ tsk.sendBuf = s.tsk.sendBuf ∧
      tsk.sndUna = s.tsk.sndUna then some { s with tsk := tsk } else none

/-- A new socket, or the child that answers a SYN. -/
inductive Opener.Start : Opener → Prop
  | alloc : Start ⟨allocTcpSock, 0, false, []⟩
  | child (parent : TcpSock) (cb : TcpCb) (newIss : UInt32) :
      Start ⟨afterControl (childSock parent cb newIss) (tcpSyn ||| tcpAck),
        (afterControl (childSock parent cb newIss) (tcpSyn ||| tcpAck)).sndNxt, false, []⟩

/-- The socket waits for the ACK of its own SYN or FIN. -/
def Awaits : TcpState → Prop
  | .synSent | .synRecv | .finWait1 | .lastAck => True
  | _ => False

instance : DecidablePred Awaits := fun state => by unfold Awaits; cases state <;> infer_instance

/-- The loop over `send_buf` reaches the end of the queue, and the ACK is in the window. -/
def ReleasesAll (tsk : TcpSock) (ack : UInt32) : Prop :=
  (∀ buf ∈ tsk.sendBuf, buf.seqEnd ≤ ack) ∧ (tsk.sendBuf = [] → tsk.sndUna ≤ ack) ∧
    ack ≤ tsk.sndNxt

instance (tsk : TcpSock) (ack : UInt32) : Decidable (ReleasesAll tsk ack) :=
  inferInstanceAs (Decidable (_ ∧ _ ∧ _))

/-- A packet whose flags fit the state releases all that is outstanding, and nothing is
written behind a SYN or FIN that is not acknowledged. -/
def InTurn (s : Opener) : OpenEvent → Prop
  | .deliver cb _ _ => Advances s.tsk.state cb.flags → ReleasesAll s.tsk cb.ack
  | .sendData _ => ¬Awaits s.tsk.state
  | _ => True

/-- Every step forward was on the ACK of the socket's own SYN or FIN. -/
def Acknowledged (s : Opener) : Prop := ∀ entry ∈ s.log, entry.1 = entry.2

end Run

section Queue

/-- The end of the last entry of `send_buf`, or of the last one that was released. -/
def pendingEnd (tsk : TcpSock) : UInt32 := (tsk.sendBuf.getLast?.map (·.seqEnd)).getD tsk.sndUna

theorem Pops.pendingEnd {tsk tsk' : TcpSock} {popped : List SendBuffer}
    (h : Pops tsk popped tsk') : pendingEnd tsk' = pendingEnd tsk := by
  simp only [Tcp.pendingEnd, h.sndUna, h.sendBuf, List.getLast?_append]
  cases tsk'.sendBuf.getLast? <;> rfl

/-- A SYN or FIN becomes the last entry, and ends at `snd_nxt`. -/
theorem pendingEnd_afterControl (tsk : TcpSock) {flags : UInt8}
    (h : flags &&& (tcpSyn ||| tcpFin) ≠ 0) :
    pendingEnd (afterControl tsk flags) = (afterControl tsk flags).sndNxt := by
  simp [afterControl, if_pos h, putSendbuf, pendingEnd]

theorem ReleasesAll.pendingEnd_le {tsk : TcpSock} {ack : UInt32} (h : ReleasesAll tsk ack) :
    pendingEnd tsk ≤ ack := by
  obtain ⟨hall, hnone, -⟩ := h
  unfold pendingEnd
  cases hlast : tsk.sendBuf.getLast? with
  | none => exact hnone (List.getLast?_eq_none_iff.mp hlast)
  | some buf => exact hall buf (List.mem_of_getLast? hlast)

end Queue

section Invariant

/-- While the socket waits, its SYN or FIN is the last that was sent and stored. -/
structure OpenerInv (s : Opener) : Prop where
  acknowledged : Acknowledged s
  sndNxt : Awaits s.tsk.state → s.tsk.sndNxt = s.mark
  pending : Awaits s.tsk.state → pendingEnd s.tsk = s.mark

theorem Advances.awaits {state : TcpState} {flags : UInt8} (h : Advances state flags) :
    Awaits state := by
  cases state with
  | synSent | synRecv | finWait1 | lastAck => trivial
  | closed | listen | established | closeWait | finWait2 | closing | timeWait => exact h.elim

/-- A socket begins to wait only where it answers a FIN with its own. -/
theorem awaits_of_nextState {state : TcpState} {flags : UInt8}
    (h : Awaits (nextState state flags)) (hfin : ¬(flags = tcpFin ∧ state = .established)) :
    Awaits state := by
  cases state with
  | synSent | synRecv | finWait1 | lastAck => trivial
  | established =>
    have hflags : flags ≠ tcpFin := fun heq => hfin ⟨heq, rfl⟩
    simp [nextState, hflags, Awaits] at h
  | finWait2 =>
    simp only [nextState] at h
    split_ifs at h <;> exact h.elim
  | closed | listen | closeWait | closing | timeWait => simp [nextState, Awaits] at h

/-- An ACK that releases all acknowledges the socket's own SYN or FIN. -/
theorem OpenerInv.ack_eq {s : Opener} (h : OpenerInv s) {ack : UInt32}
    (hwait : Awaits s.tsk.state) (hall : ReleasesAll s.tsk ack) : ack = s.mark := by
  have hle := hall.pendingEnd_le
  have hge := hall.2.2
  rw [h.pending hwait] at hle
  rw [h.sndNxt hwait] at hge
  exact UInt32.le_antisymm hge hle

theorem OpenerInv.of_same {s : Opener} (h : OpenerInv s) {tsk : TcpSock} (woken : Bool)
    (hstate : Awaits tsk.state → Awaits s.tsk.state) (hnxt : tsk.sndNxt = s.tsk.sndNxt)
    (hpend : pendingEnd tsk = pendingEnd s.tsk) : OpenerInv ⟨tsk, s.mark, woken, s.log⟩ where
  acknowledged := h.acknowledged
  sndNxt hwait := hnxt.trans (h.sndNxt (hstate hwait))
  pending hwait := hpend.trans (h.pending (hstate hwait))

/-- The socket that has just sent its SYN or FIN. -/
theorem openerInv_sent (tsk : TcpSock) (flags : UInt8)
    (hflags : flags &&& (tcpSyn ||| tcpFin) ≠ 0) (woken : Bool) {log : List (UInt32 × UInt32)}
    (hlog : ∀ entry ∈ log, entry.1 = entry.2) :
    OpenerInv ⟨afterControl tsk flags, (afterControl tsk flags).sndNxt, woken, log⟩ where
  acknowledged := hlog
  sndNxt _ := rfl
  pending _ := pendingEnd_afterControl tsk hflags

end Invariant

section Deliver

theorem Opener.log_deliver {s : Opener} (h : OpenerInv s) {cb : TcpCb} {newIss : UInt32}
    {reads : List ℕ} (hok : InTurn s (.deliver cb newIss reads)) :
    ∀ entry ∈ s.log ++ (if Progress s.tsk (tcpProcess s.tsk cb newIss reads).last then
      [(cb.ack, s.mark)] else []), entry.1 = entry.2 := by
  intro entry hmem
  rcases List.mem_append.mp hmem with hold | hnew
  · exact h.acknowledged entry hold
  · split_ifs at hnew with hprog
    · obtain rfl := List.mem_singleton.mp hnew
      exact h.ack_eq hprog.advances.awaits (hok hprog.advances)
    · cases hnew

/-- A packet other than the first FIN keeps `snd_nxt` and the end of the queue. -/
theorem tcpProcess_queue (tsk : TcpSock) (cb : TcpCb) (newIss : UInt32) (reads : List ℕ)
    (hfin : ¬(cb.flags = tcpFin ∧ tsk.state = .established)) :
    (tcpProcess tsk cb newIss reads).last.tsk.sndNxt = tsk.sndNxt ∧
      pendingEnd (tcpProcess tsk cb newIss reads).last.tsk = pendingEnd tsk := by
  by_cases hack : cb.flags &&& tcpAck = 0
  · obtain ⟨⟨_, _, _, _, hframe⟩, -⟩ := tcpProcess_switched tsk cb newIss reads
    obtain ⟨_, _, _, _, hrecv⟩ := receiveFrame_updateRcvNxt tsk cb
    have hstate : (updateRcvNxt tsk cb).state = tsk.state := by rw [hrecv]
    rw [entered_of_not_ack _ cb reads hack, seen_of_not_ack _ cb reads hack, switched, hstate,
      if_neg hfin, hrecv] at hframe
    rw [hframe]
    exact ⟨rfl, rfl⟩
  · have hpops := tcpProcess_pops tsk newIss reads hack
    exact ⟨hpops.sndNxt, hpops.pendingEnd⟩

/-- A FIN in `ESTABLISHED` is answered by one's own, which is the last entry then. -/
theorem tcpProcess_fin (tsk : TcpSock) {cb : TcpCb} (newIss : UInt32) (reads : List ℕ)
    (hfin : cb.flags = tcpFin ∧ tsk.state = .established) :
    pendingEnd (tcpProcess tsk cb newIss reads).last.tsk =
      (tcpProcess tsk cb newIss reads).last.tsk.sndNxt := by
  have hack : cb.flags &&& tcpAck = 0 := by rw [hfin.1]; decide
  obtain ⟨⟨_, _, _, _, hframe⟩, -⟩ := tcpProcess_switched tsk cb newIss reads
  obtain ⟨_, _, _, _, hrecv⟩ := receiveFrame_updateRcvNxt tsk cb
  have hstate : (updateRcvNxt tsk cb).state = tsk.state := by rw [hrecv]
  rw [entered_of_not_ack _ cb reads hack, seen_of_not_ack _ cb reads hack, switched, hstate,
    if_pos hfin] at hframe
  rw [hframe]
  exact pendingEnd_afterControl { updateRcvNxt tsk cb with state := .lastAck } (by decide)

theorem OpenerInv.deliver {s : Opener} (h : OpenerInv s) {cb : TcpCb} {newIss : UInt32}
    {reads : List ℕ} {t : Opener} (hok : InTurn s (.deliver cb newIss reads))
    (hstep : s.step (.deliver cb newIss reads) = some t) : OpenerInv t := by
  cases hstep
  have hlog := Opener.log_deliver h hok
  by_cases hfin : cb.flags = tcpFin ∧ s.tsk.state = .established
  · simp only [if_pos hfin]
    exact ⟨hlog, fun _ => rfl, fun _ => tcpProcess_fin s.tsk newIss reads hfin⟩
  · obtain ⟨hnxt, hpend⟩ := tcpProcess_queue s.tsk cb newIss reads hfin
    have hbefore (hwait : Awaits (tcpProcess s.tsk cb newIss reads).last.tsk.state) :
        Awaits s.tsk.state := by
      rw [tcpProcess_state] at hwait
      exact awaits_of_nextState hwait (by rwa [seen_eq_fin_iff])
    simp only [if_neg hfin]
    exact ⟨hlog, fun hwait => hnxt.trans (h.sndNxt (hbefore hwait)),
      fun hwait => hpend.trans (h.pending (hbefore hwait))⟩

end Deliver

section Runs

theorem scanEntries_state (tsk : TcpSock) (bufs : List SendBuffer) :
    (scanEntries tsk bufs).1.state = tsk.state ∧
      (scanEntries tsk bufs).1.hasParent = tsk.hasParent := by
  induction bufs generalizing tsk with
  | nil => exact ⟨rfl, rfl⟩
  | cons buf bufs ih =>
    simp only [scanEntries]
    split_ifs
    · exact ih (enterLoss tsk)
    · exact ih (enterLoss tsk)
    · exact ih tsk

theorem OpenerInv.close {s : Opener} (h : OpenerInv s) :
    OpenerInv { s with
      tsk := (tcpSockClose ⟨s.tsk, [], []⟩).tsk
      mark :=
        if s.tsk.state = .established ∨ s.tsk.state = .closeWait then
          (tcpSockClose ⟨s.tsk, [], []⟩).tsk.sndNxt
        else s.mark } := by
  unfold tcpSockClose
  cases hstate : s.tsk.state with
  | established =>
    exact openerInv_sent { s.tsk with state := .finWait1 } tcpFin (by decide) s.woken
      h.acknowledged
  | closeWait =>
    exact openerInv_sent { s.tsk with state := .lastAck } tcpFin (by decide) s.woken h.acknowledged
  | closed | listen | synRecv | synSent | finWait1 | finWait2 | closing | timeWait | lastAck =>
    exact h

end Runs

section Instance

instance (s : Opener) : (e : OpenEvent) → Decidable (InTurn s e)
  | .deliver cb _ _ =>
    inferInstanceAs (Decidable (Advances s.tsk.state cb.flags → ReleasesAll s.tsk cb.ack))
  | .sendData _ => inferInstanceAs (Decidable (¬Awaits s.tsk.state))
  | .connect .. | .connected | .listen | .close | .scan | .timewaitOver | .change _ =>
    isTrue trivial

end Instance

end NetworkLab.Tcp
