import Mathlib.Data.List.TakeWhile
import NetworkLab.SendQueue

/-!
# Retransmissions on ACKs

The third ACK that repeats `snd_una` starts fast recovery, and every new ACK before its end
sends the first entry of `send_buf` again. Neither asks whether there is an entry: the
first sends nothing then, the second reads through the list head.
-/
namespace NetworkLab.Tcp
open GuardedRuns

section Ack

/-- The third ACK that repeats `snd_una`. -/
def StartsRecovery (tsk : TcpSock) (ack : UInt32) : Prop :=
  ack = tsk.sndUna ∧ tsk.cgtState = .opn ∧ tsk.repAck + 1 > 2

/-- A new ACK before the end of recovery. -/
def InRecovery (tsk : TcpSock) (ack : UInt32) : Prop :=
  ack ≠ tsk.sndUna ∧ tsk.cgtState = .rcvr ∧ ¬lessOrEqual32b tsk.recoveryPoint ack

instance (tsk : TcpSock) (ack : UInt32) : Decidable (StartsRecovery tsk ack) :=
  inferInstanceAs (Decidable (_ ∧ _))

instance (tsk : TcpSock) (ack : UInt32) : Decidable (InRecovery tsk ack) :=
  inferInstanceAs (Decidable (_ ∧ _))

/-- What `retransmitFirst` does. -/
def resend : List SendBuffer → Action
  | buf :: _ => .ipSendPacket buf.packet
  | [] => .readListHead

/-- What the ACK sends again when these entries are left. -/
def resent (tsk : TcpSock) (ack : UInt32) (left : List SendBuffer) : List Action :=
  if StartsRecovery tsk ack then left.head?.toList.map fun buf => .ipSendPacket buf.packet
  else if InRecovery tsk ack then [resend left]
  else []

variable {run : Run} {ack : UInt32}

theorem ipSendPacket_mem_resent {tsk : TcpSock} {left : List SendBuffer} {packet : Segment}
    (h : .ipSendPacket packet ∈ resent tsk ack left) : ∃ buf ∈ left.head?, buf.packet = packet := by
  unfold resent at h
  split_ifs at h
  · simpa [eq_comm] using h
  · cases left with
    | nil => simp [resend] at h
    | cons buf left => exact ⟨buf, rfl, by simpa [resend, eq_comm] using h⟩
  · simp at h

theorem readListHead_mem_resent {tsk : TcpSock} {left : List SendBuffer} :
    .readListHead ∈ resent tsk ack left ↔ InRecovery tsk ack ∧ left = [] := by
  unfold resent
  split_ifs with hstart hin
  · have hin : ¬InRecovery tsk ack := fun h => h.1 hstart.1
    simp [hin]
  · cases left <;> simp [hin, resend]
  · simp [hin]

/-- The window makes no packet and wakes writers only. -/
theorem mem_tcpUpdateWindowSafe {run : Run} {cb : TcpCb} {a : Action} (ha : a ≠ .wakeUp .send) :
    a ∈ (tcpUpdateWindowSafe run cb).actions ↔ a ∈ run.actions := by
  simp only [tcpUpdateWindowSafe, tcpUpdateWindow]
  split_ifs <;> simp [Run.act, Run.update, ha]

theorem actions_retransmitFirst (run : Run) :
    (retransmitFirst run).actions = run.actions ++ [resend run.tsk.sendBuf] := by
  unfold retransmitFirst
  cases run.tsk.sendBuf <;> rfl

theorem actions_enterRecovery (run : Run) : (enterRecovery run).actions =
    run.actions ++ run.tsk.sendBuf.head?.toList.map fun buf => .ipSendPacket buf.packet := by
  simp only [enterRecovery, Run.update_tsk]
  cases hbuf : run.tsk.sendBuf <;> simp [Run.act, Run.update]

/-- An ACK that repeats `snd_una`. -/
theorem actions_ackRepeated (hnone : run.actions = []) :
    (ackRepeated run).actions = resent run.tsk run.tsk.sndUna run.tsk.sendBuf := by
  have hactions : run.countAck.actions = [] := hnone
  have hbuf : run.countAck.tsk.sendBuf = run.tsk.sendBuf := rfl
  unfold ackRepeated
  cases hstate : run.tsk.cgtState with
  | opn =>
    by_cases hrep : run.tsk.repAck + 1 > 2
    · have hstart : StartsRecovery run.tsk run.tsk.sndUna := ⟨rfl, hstate, hrep⟩
      have hsent := actions_enterRecovery run.countAck
      rw [hactions, hbuf] at hsent
      simp [hrep, hstart, resent, Run.update, hsent]
    · have hstart : ¬StartsRecovery run.tsk run.tsk.sndUna := fun h => hrep h.2.2
      simp [hrep, hstart, resent, InRecovery, hactions]
  | rcvr =>
    have hstart : ¬StartsRecovery run.tsk run.tsk.sndUna := by simp [StartsRecovery, hstate]
    simp [hstart, resent, InRecovery, Run.update, hactions]
  | loss =>
    have hstart : ¬StartsRecovery run.tsk run.tsk.sndUna := by simp [StartsRecovery, hstate]
    simp [hstart, resent, InRecovery, hactions]

theorem ackRepeated_started : (ackRepeated run).tsk.cgtState = .rcvr ↔
    run.tsk.cgtState = .rcvr ∨ StartsRecovery run.tsk run.tsk.sndUna := by
  rw [cgtState_ackRepeated, StartsRecovery]
  split_ifs with hstart
  · simp [hstart]
  · simp only [true_and, hstart, or_false]

theorem actions_leaveRecovery (run : Run) (ack : UInt32) :
    (leaveRecovery run ack).actions = run.actions ++
      if run.tsk.cgtState = .rcvr ∧ ¬lessOrEqual32b run.tsk.recoveryPoint ack then
        [resend run.tsk.sendBuf]
      else [] := by
  unfold leaveRecovery
  cases hstate : run.tsk.cgtState with
  | opn => simp
  | rcvr =>
    by_cases hend : lessOrEqual32b run.tsk.recoveryPoint ack
    · simp [hend, Run.update]
    · simp [hend, actions_retransmitFirst]
  | loss => by_cases hend : lessOrEqual32b run.tsk.recoveryPoint ack <;> simp [hend, Run.update]

/-- A new ACK, after which the loop has left its entries. -/
theorem ackNew_recovery (hack : ack ≠ run.tsk.sndUna) (hnone : run.actions = []) :
    (ackNew run ack).actions = resent run.tsk ack (ackNew run ack).tsk.sendBuf ∧
      ((ackNew run ack).tsk.cgtState = .rcvr → run.tsk.cgtState = .rcvr) := by
  have hstart : ¬StartsRecovery run.tsk ack := fun h => hack h.1
  let popped := run.update fun tsk => popAcked ack tsk.sendBuf { tsk with repAck := 0 }
  obtain ⟨hstate, hpoint⟩ : popped.tsk.cgtState = run.tsk.cgtState ∧
      popped.tsk.recoveryPoint = run.tsk.recoveryPoint :=
    cgtState_popAcked ack run.tsk.sendBuf { run.tsk with repAck := 0 }
  have hactions : popped.actions = [] := hnone
  have hleft : popped.tsk.sendBuf = (ackNew run ack).tsk.sendBuf :=
    (leaveRecovery_queue popped ack).sendBuf
  have hsent := actions_leaveRecovery popped ack
  have hend := cgtState_leaveRecovery popped ack
  rw [hactions, hstate, hpoint, hleft] at hsent
  rw [hstate] at hend
  constructor
  · rw [resent, if_neg hstart]
    simp only [InRecovery, hack, ne_eq, not_false_eq_true, true_and]
    exact hsent
  · intro h
    have h := hend.symm.trans h
    split_ifs at h
    exact h

/-- What is sent again and whether recovery is on after the ACK of a packet. -/
structure AckOutcome (tsk : TcpSock) (ack : UInt32) (left : List SendBuffer) (run : Run) :
    Prop where
  sent : ∀ a, a ≠ .wakeUp .send → (a ∈ run.actions ↔ a ∈ resent tsk ack left)
  started : tsk.cgtState ≠ .rcvr → (run.tsk.cgtState = .rcvr ↔ StartsRecovery tsk ack)

theorem countedAck_recovery (ack : UInt32) (hnone : run.actions = []) :
    AckOutcome run.tsk ack (countedAck run ack).tsk.sendBuf (countedAck run ack) := by
  unfold countedAck
  split_ifs with hack
  · constructor
    · intro a _
      rw [actions_ackRepeated hnone, hack, (ackRepeated_queue run).sendBuf]
      rfl
    · intro hne
      rw [ackRepeated_started, hack]
      simp [hne]
  · obtain ⟨hsent, hstate⟩ := ackNew_recovery hack hnone
    constructor
    · intro a _
      rw [← hsent]
    · exact fun hne => ⟨fun h => absurd (hstate h) hne, fun h => absurd h.1 hack⟩

/-- The window after it sends nothing again. -/
theorem processAck_recovery (cb : TcpCb) (hnone : run.actions = []) :
    AckOutcome run.tsk cb.ack (processAck run cb).tsk.sendBuf (processAck run cb) := by
  have hcounted := countedAck_recovery cb.ack hnone
  simp only [processAck]
  split_ifs
  · exact hcounted
  · have hbuf := (tcpUpdateWindowSafe_queue (countedAck run cb.ack) cb).sendBuf
    rw [List.nil_append] at hbuf
    constructor
    · intro a ha
      rw [mem_tcpUpdateWindowSafe ha, ← hbuf]
      exact hcounted.sent a ha
    · intro hne
      rw [cgtState_tcpUpdateWindowSafe]
      exact hcounted.started hne

end Ack

section Retransmission

/-- What `tcp_process` sends again is the first entry that is left, and recovery starts
only when there is one. `entered` is the run after the block for ACKs, which is where
packets are sent again. -/
structure PicksOutstanding (tsk : TcpSock) (cb : TcpCb) (newIss : UInt32) (reads : List ℕ) :
    Prop where
  started : tsk.cgtState ≠ .rcvr → (tcpProcess tsk cb newIss reads).last.tsk.cgtState = .rcvr →
    (tcpProcess tsk cb newIss reads).last.tsk.sendBuf ≠ []
  first : ∀ packet, .ipSendPacket packet ∈ (entered tsk cb reads).actions →
    ∃ buf ∈ (tcpProcess tsk cb newIss reads).last.tsk.sendBuf.head?, buf.packet = packet
  entry : .readListHead ∉ (entered tsk cb reads).actions

/-- Something is outstanding where the code takes it for granted. -/
structure DataLeft (tsk : TcpSock) (cb : TcpCb) : Prop where
  repeated : StartsRecovery tsk cb.ack → tsk.sendBuf ≠ []
  later : InRecovery tsk cb.ack → ∃ buf ∈ tsk.sendBuf, cb.ack < buf.seqEnd

variable {tsk : TcpSock} {cb : TcpCb} (newIss : UInt32) (reads : List ℕ)

/-- After the block for ACKs the switch over the flags leaves the queue and recovery alone. -/
theorem tcpProcess_recovery (hack : cb.flags &&& tcpAck ≠ 0) :
    (tcpProcess tsk cb newIss reads).last.tsk.cgtState = (entered tsk cb reads).tsk.cgtState ∧
      (tcpProcess tsk cb newIss reads).last.tsk.sendBuf = (entered tsk cb reads).tsk.sendBuf := by
  obtain ⟨⟨_, _, _, _, hframe⟩, -⟩ := tcpProcess_switched tsk cb newIss reads
  rw [hframe, switched_seen_of_ack tsk cb reads _ hack]
  exact ⟨rfl, rfl⟩

/-- The first statement changes nothing that the ACK asks for. -/
theorem entered_recovery (hack : cb.flags &&& tcpAck ≠ 0) :
    AckOutcome tsk cb.ack (entered tsk cb reads).tsk.sendBuf (entered tsk cb reads) ∧
      (entered tsk cb reads).tsk.sendBuf =
        if cb.ack = tsk.sndUna then tsk.sendBuf
        else tsk.sendBuf.dropWhile fun buf => decide (buf.seqEnd ≤ cb.ack) := by
  obtain ⟨nxt, wnd, rcvBuf, ofo, hrecv⟩ := receiveFrame_updateRcvNxt tsk cb
  rw [entered_of_ack tsk cb reads hack, hrecv]
  let run : Run :=
    ⟨{ tsk with rcvNxt := nxt, rcvWnd := wnd, rcvBuf := rcvBuf, rcvOfoBuf := ofo }, reads, []⟩
  have hnone : run.actions = [] := rfl
  have houtcome := processAck_recovery cb hnone
  refine ⟨⟨houtcome.sent, houtcome.started⟩, ?_⟩
  split_ifs with heq
  · have hpops := (processAck_pops run cb).sendBuf
    have hreleased : released run.tsk cb.ack = [] := if_pos heq
    rw [hreleased] at hpops
    exact hpops.symm
  · have hne : cb.ack ≠ run.tsk.sndUna := heq
    exact sendBuf_processAck hne

theorem dropWhile_ne_nil_iff {bufs : List SendBuffer} {ack : UInt32} :
    (bufs.dropWhile fun buf => decide (buf.seqEnd ≤ ack)) ≠ [] ↔
      ∃ buf ∈ bufs, ack < buf.seqEnd := by
  rw [ne_eq, List.dropWhile_eq_nil_iff]
  simp

/-- The ACK releases all there is, before the end of recovery: what is sent again is read
through the list head. -/
def CopiesHead (tsk : TcpSock) (cb : TcpCb) : Prop :=
  cb.flags &&& tcpAck ≠ 0 ∧ InRecovery tsk cb.ack ∧ ∀ buf ∈ tsk.sendBuf, buf.seqEnd ≤ cb.ack

instance (tsk : TcpSock) (cb : TcpCb) : Decidable (CopiesHead tsk cb) :=
  inferInstanceAs (Decidable (_ ∧ _ ∧ _))

theorem lost_iff : (entered tsk cb reads).Lost ↔ CopiesHead tsk cb := by
  by_cases hack : cb.flags &&& tcpAck = 0
  · exact iff_of_false (not_lost_of_not_ack tsk cb reads hack) fun h => h.1 hack
  obtain ⟨⟨hsent, -⟩, hleft⟩ := entered_recovery reads hack
  rw [Run.Lost, hsent _ (by simp), readListHead_mem_resent, CopiesHead, and_iff_right hack]
  apply and_congr_right
  intro hin
  rw [hleft, if_neg hin.1, List.dropWhile_eq_nil_iff]
  simp

/-- One packet with ACK. -/
theorem picksOutstanding_iff (hack : cb.flags &&& tcpAck ≠ 0) :
    PicksOutstanding tsk cb newIss reads ↔ DataLeft tsk cb := by
  obtain ⟨⟨hsent, hstarted⟩, hleft⟩ := entered_recovery reads hack
  obtain ⟨hstate, hbuf⟩ := tcpProcess_recovery newIss reads hack
  constructor
  · intro h
    constructor
    · intro hstart
      have hne : tsk.cgtState ≠ .rcvr := by simp [hstart.2.1]
      have hbufs := h.started hne (hstate.trans ((hstarted hne).mpr hstart))
      rwa [hbuf, hleft, if_pos hstart.1] at hbufs
    · intro hin
      rw [← dropWhile_ne_nil_iff]
      intro hnil
      rw [if_neg hin.1, hnil] at hleft
      apply h.entry
      rw [hsent _ (by simp), readListHead_mem_resent]
      exact ⟨hin, hleft⟩
  · intro h
    constructor
    · intro hne hrcvr
      rw [hstate] at hrcvr
      have hstart := (hstarted hne).mp hrcvr
      rw [hbuf, hleft, if_pos hstart.1]
      exact h.repeated hstart
    · intro packet hpacket
      rw [hbuf]
      exact ipSendPacket_mem_resent ((hsent _ (by simp)).mp hpacket)
    · rw [hsent _ (by simp), readListHead_mem_resent]
      rintro ⟨hin, hnil⟩
      rw [hleft, if_neg hin.1] at hnil
      exact dropWhile_ne_nil_iff.mpr (h.later hin) hnil

/-- What an event of a run has to do with retransmissions on ACKs. -/
def AckPicks (tsk : TcpSock) : SendEvent → Prop
  | .deliver cb newIss reads =>
    cb.flags &&& tcpAck ≠ 0 → PicksOutstanding tsk cb newIss reads
  | _ => True

def AckFindsData (tsk : TcpSock) : SendEvent → Prop
  | .deliver cb _ _ => cb.flags &&& tcpAck ≠ 0 → DataLeft tsk cb
  | _ => True

/-- In every run, every ACK picks outstanding data if and only if there is some whenever
the code takes it for granted. -/
theorem retransmissions_outstanding_iff (tsk : TcpSock) (es : List SendEvent) :
    Along sendStep AckPicks tsk es ↔ Along sendStep AckFindsData tsk es := by
  apply along_congr
  intro tsk e
  cases e with
  | deliver cb newIss reads =>
    exact forall_congr' fun hack => picksOutstanding_iff newIss reads hack
  | _ => exact Iff.rfl

/-- A packet of the peer that has nothing but its ACK. -/
def idleAck (ack : UInt32) : TcpCb := ⟨2, 1, 1024, 80, 501, 501, ack, 8192, tcpAck, [], 0⟩

/-- The SYN of an idle connection is acknowledged three times. -/
def idleAcks : List SendEvent :=
  [.sendControl tcpSyn,
    .deliver ⟨2, 1, 1024, 80, 500, 501, 101, 8192, tcpSyn ||| tcpAck, [], 0⟩ 0 [],
    .deliver (idleAck 101) 0 [], .deliver (idleAck 101) 0 []]

theorem idleAcks_isSome : (exec sendStep anyStep connecting.tsk idleAcks).isSome := by
  decide +kernel

/-- One more ACK starts recovery with nothing to send, and an old ACK after it reads
through the list head. -/
theorem idle_recovery_reads_listHead :
    ¬Along sendStep AckPicks connecting.tsk (idleAcks ++ [.deliver (idleAck 101) 0 []]) ∧
    ((exec sendStep anyStep connecting.tsk (idleAcks ++ [.deliver (idleAck 101) 0 []])).any
      fun tsk => tsk.sendBuf = [] ∧ tsk.cgtState = .rcvr ∧
        .readListHead ∈ (entered tsk (idleAck 100) []).actions) = true := by
  constructor
  · intro h
    have hack : (idleAck 101).flags &&& tcpAck ≠ 0 := by decide
    have hpicks := h.last (Option.some_get idleAcks_isSome).symm hack
    have hleft := (picksOutstanding_iff 0 [] hack).mp hpicks
    exact hleft.repeated (by decide +kernel) (by decide +kernel)
  · decide +kernel

end Retransmission

end NetworkLab.Tcp
