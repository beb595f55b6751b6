import NetworkLab.TcpRelease
import NetworkLab.Translation
import Mathlib.Tactic.Simps.Basic

/-!
# Moving a connection along the circle of sequence numbers

The numbers of the send space move by one constant and those of the receive space
by another. Tests with the wraparound macros and tests for equality do not notice;
the loop over `send_buf` and the handling of data compare with the plain order of
32-bit numbers, which the translation keeps only where it takes both sides across
`2 ^ 32` or neither.
-/
namespace NetworkLab.Tcp
open Outcomes Translation

/-- How far the numbers of the two spaces move. -/
structure Offset where
  send : UInt32
  recv : UInt32
  deriving DecidableEq

section Shift

variable (o : Offset)

@[simps] def Segment.shift (p : Segment) : Segment :=
  { p with seq := p.seq + o.send, ack := p.ack + o.recv }

@[simps] def SendBuffer.shift (b : SendBuffer) : SendBuffer :=
  { b with packet := b.packet.shift o, seqEnd := b.seqEnd + o.send }

@[simps] def OfoBuffer.shift (b : OfoBuffer) : OfoBuffer :=
  { b with seq := b.seq + o.recv, seqEnd := b.seqEnd + o.recv }

@[simps] def OfoList.shift (l : OfoList) : OfoList :=
  { l with entries := l.entries.map (·.shift o), hidden := l.hidden.map (·.shift o) }

@[simps] def TcpCb.shift (cb : TcpCb) : TcpCb :=
  { cb with ack := cb.ack + o.send, seq := cb.seq + o.recv, seqEnd := cb.seqEnd + o.recv }

@[simps] def TcpSock.shift (tsk : TcpSock) : TcpSock :=
  { tsk with
    sndUna := tsk.sndUna + o.send
    sndNxt := tsk.sndNxt + o.send
    recoveryPoint := tsk.recoveryPoint + o.send
    sendBuf := tsk.sendBuf.map (·.shift o)
    rcvNxt := tsk.rcvNxt + o.recv
    rcvOfoBuf := tsk.rcvOfoBuf.shift o }

def Action.shift : Action → Action
  | .ipSendPacket packet => .ipSendPacket (packet.shift o)
  | .spawnChild csk => .spawnChild (csk.shift o)
  | a => a

@[simps] def Run.shift (run : Run) : Run :=
  ⟨run.tsk.shift o, run.reads, run.actions.map (·.shift o)⟩

/-- The end of a computation after the move; `f` moves what it returns. -/
def shiftResult {α : Type} (f : α → α) : Except (Stop × Run) α → Except (Stop × Run) α
  | .ok a => .ok (f a)
  | .error (stop, run) => .error (stop, run.shift o)

abbrev Result.shift : Result → Result := shiftResult o (·.shift o)

end Shift

section Commute

variable (o : Offset) (run : Run) (tsk : TcpSock)

theorem shift_act (a : Action) : (run.act a).shift o = (run.shift o).act (a.shift o) := by
  simp [Run.shift, Run.act]

/-- An update that moves with the numbers of the socket moves with those of the run. -/
theorem update_shift {f g : TcpSock → TcpSock}
    (h : g (run.tsk.shift o) = (f run.tsk).shift o) :
    (run.shift o).update g = (run.update f).shift o := by
  simp only [Run.update, Run.shift, h]

theorem afterControl_shift (flags : UInt8) :
    afterControl (tsk.shift o) flags = (afterControl tsk flags).shift o := by
  have hnext : tsk.sndNxt + o.send + 1 = tsk.sndNxt + 1 + o.send := by grind
  unfold afterControl
  split_ifs
  · simp only [putSendbuf, TcpSock.shift, List.map_append, List.map_cons, List.map_nil,
      SendBuffer.shift, hnext]
    rfl
  · rfl

theorem tcpSendControlPacket_shift (flags : UInt8) :
    tcpSendControlPacket (run.shift o) flags = (tcpSendControlPacket run flags).shift o := by
  unfold tcpSendControlPacket
  rw [shift_act]
  simp only [Run.shift, afterControl_shift]
  rfl

theorem tcpCwndInc_shift : tcpCwndInc (tsk.shift o) = (tcpCwndInc tsk).shift o := by
  unfold tcpCwndInc
  simp only [TcpSock.shift_cgtState, TcpSock.shift_cwnd, TcpSock.shift_ssthresh,
    TcpSock.shift_cwndUnit]
  split_ifs <;> rfl

theorem tcpPopSendbuf_shift : tcpPopSendbuf (tsk.shift o) = (tcpPopSendbuf tsk).shift o := by
  simp only [tcpPopSendbuf, TcpSock.shift, List.map_tail]

theorem deflate_shift : deflate (tsk.shift o) = (deflate tsk).shift o := by
  unfold deflate
  simp only [TcpSock.shift_repAck, TcpSock.shift_cwnd]
  split_ifs <;> rfl

theorem retransmitFirst_shift :
    retransmitFirst (run.shift o) = (retransmitFirst run).shift o := by
  unfold retransmitFirst
  simp only [Run.shift_tsk, TcpSock.shift_sendBuf]
  cases run.tsk.sendBuf with
  | nil => exact (shift_act o run .readListHead).symm
  | cons buf bufs => exact (shift_act o run (.ipSendPacket buf.packet)).symm

theorem enterRecovery_shift : enterRecovery (run.shift o) = (enterRecovery run).shift o := by
  unfold enterRecovery
  rw [update_shift o run (f := fun tsk => { tsk with
    cgtState := .rcvr, ssthresh := (tsk.cwnd + 1) / 2, recoveryPoint := tsk.sndNxt }) rfl]
  generalize run.update _ = run
  simp only [Run.shift_tsk, TcpSock.shift_sendBuf]
  cases run.tsk.sendBuf with
  | nil => rfl
  | cons buf bufs => exact (shift_act o run (.ipSendPacket buf.packet)).symm

theorem ackRepeated_shift : ackRepeated (run.shift o) = (ackRepeated run).shift o := by
  have hcount : (run.shift o).countAck = run.countAck.shift o := rfl
  unfold ackRepeated
  simp only [Run.shift_tsk, TcpSock.shift_cgtState, TcpSock.shift_repAck, hcount]
  split
  · split_ifs
    · rw [enterRecovery_shift]
      exact update_shift o _ (deflate_shift o _)
    · rfl
  · exact update_shift o _ (deflate_shift o _)
  · rfl

theorem lessOrEqual32b_add (k a b : UInt32) :
    lessOrEqual32b (a + k) (b + k) = lessOrEqual32b a b := by
  simp only [lessOrEqual32b, sub_add_eq]

theorem tcpUpdateWindow_shift (rwnd : UInt32) :
    tcpUpdateWindow (run.shift o) rwnd = (tcpUpdateWindow run rwnd).shift o := by
  unfold tcpUpdateWindow
  rw [update_shift o run (f := fun tsk => { tsk with
    advWnd := rwnd.toUInt16
    sndWnd := usableWindow rwnd.toUInt16 tsk.cwnd }) rfl]
  simp only [Run.shift_tsk, TcpSock.shift_sndWnd]
  split_ifs
  · exact (shift_act o _ (.wakeUp .send)).symm
  · rfl

theorem tcpUpdateWindowSafe_shift (cb : TcpCb) :
    tcpUpdateWindowSafe (run.shift o) (cb.shift o) = (tcpUpdateWindowSafe run cb).shift o := by
  unfold tcpUpdateWindowSafe
  simp only [Run.shift_tsk, TcpSock.shift_sndUna, TcpSock.shift_sndNxt, TcpCb.shift_ack,
    TcpCb.shift_rwnd, lessOrEqual32b_add, tcpUpdateWindow_shift]
  split_ifs <;> rfl

theorem setState_shift (state : TcpState) :
    (run.shift o).setState state = (run.setState state).shift o := rfl

theorem processSynAck_shift : processSynAck (run.shift o) = (processSynAck run).shift o := by
  unfold processSynAck
  simp only [Run.shift_tsk, TcpSock.shift_state]
  split_ifs
  · exact (shift_act o run (.wakeUp .connect)).symm
  · rfl

theorem processPureAck_shift : processPureAck (run.shift o) = (processPureAck run).shift o := by
  unfold processPureAck
  simp only [Run.shift_tsk, TcpSock.shift_state, TcpSock.shift_cgtState, setState_shift]
  split
  · rw [← setState_shift, shift_act, shift_act]
    rfl
  · split_ifs
    · exact (shift_act o run (.wakeUp .send)).symm
    · rfl
  · rfl
  · rw [shift_act, TcpSock.shift_hasParent]
    split_ifs
    · rfl
    · rw [shift_act]
      rfl
  · rfl

theorem processAckFin_shift : processAckFin (run.shift o) = (processAckFin run).shift o := by
  unfold processAckFin
  simp only [Run.shift_tsk, TcpSock.shift_state, setState_shift, tcpSendControlPacket_shift]
  split_ifs
  · exact (shift_act o _ .setTimewaitTimer).symm
  · rfl

theorem processFin_shift : processFin (run.shift o) = (processFin run).shift o := by
  unfold processFin
  simp only [Run.shift_tsk, TcpSock.shift_state, setState_shift, tcpSendControlPacket_shift]
  split
  · exact (shift_act o _ .setTimewaitTimer).symm
  · exact (shift_act o _ .setTimewaitTimer).symm
  · rfl

end Commute

section Pop

variable (o : Offset)

/-- The comparisons with `ack` of the loop over `send_buf` come out alike. -/
def PopKeeps (ack : UInt32) (bufs : List SendBuffer) : Prop :=
  AlongWalk (fun buf => buf.seqEnd ≤ ack) (fun buf => Keeps o.send ack buf.seqEnd) bufs

theorem popAcked_shift {ack : UInt32} {bufs : List SendBuffer} (h : PopKeeps o ack bufs)
    (tsk : TcpSock) :
    popAcked (ack + o.send) (bufs.map (·.shift o)) (tsk.shift o) =
      (popAcked ack bufs tsk).shift o := by
  induction bufs generalizing tsk with
  | nil => rfl
  | cons buf bufs ih =>
    obtain ⟨hkeep, hrest⟩ := h
    simp only [popAcked, List.map_cons, SendBuffer.shift_seqEnd, gt_iff_lt, hkeep.lt_iff]
    split_ifs with hlt
    · rfl
    · rw [← ih (hrest (UInt32.not_lt.mp hlt)), ← tcpCwndInc_shift, ← tcpPopSendbuf_shift]
      rfl

/-- Where a comparison comes out differently, one run releases more than the other. -/
theorem popKeeps_of_length {ack : UInt32} {bufs : List SendBuffer}
    (h : ((bufs.map (·.shift o)).dropWhile fun buf =>
        decide (buf.seqEnd ≤ ack + o.send)).length =
      (bufs.dropWhile fun buf => decide (buf.seqEnd ≤ ack)).length) :
    PopKeeps o ack bufs := by
  induction bufs with
  | nil => exact trivial
  | cons buf bufs ih =>
    have hshifted := (List.dropWhile_sublist (l := bufs.map (·.shift o))
      fun b : SendBuffer => decide (b.seqEnd ≤ ack + o.send)).length_le
    have horig := (List.dropWhile_sublist (l := bufs)
      fun b : SendBuffer => decide (b.seqEnd ≤ ack)).length_le
    rw [List.length_map] at hshifted
    simp only [List.map_cons, List.dropWhile_cons, SendBuffer.shift_seqEnd,
      decide_eq_true_eq, ← UInt32.not_lt] at h hshifted horig ih
    have hkeep : Keeps o.send ack buf.seqEnd := by
      by_contra hkeep
      have hiff := lt_add_iff_not_of_not_keeps hkeep
      by_cases hlt : ack < buf.seqEnd
      · have hshift : ¬ack + o.send < buf.seqEnd + o.send := fun hlt' => hiff.mp hlt' hlt
        rw [if_pos hshift, if_neg (not_not.mpr hlt), List.length_cons] at h
        omega
      · have hshift : ack + o.send < buf.seqEnd + o.send := hiff.mpr hlt
        rw [if_neg (not_not.mpr hshift), if_pos hlt, List.length_cons, List.length_map] at h
        omega
    refine ⟨hkeep, fun hle => ih ?_⟩
    have hlt : ¬ack < buf.seqEnd := UInt32.not_lt.mpr hle
    have hshift : ¬ack + o.send < buf.seqEnd + o.send := hkeep.lt_iff.not.mpr hlt
    rw [if_pos hshift, if_pos hlt] at h
    exact h

theorem leaveRecovery_shift (run : Run) (ack : UInt32) :
    leaveRecovery (run.shift o) (ack + o.send) = (leaveRecovery run ack).shift o := by
  unfold leaveRecovery
  simp only [Run.shift_tsk, TcpSock.shift_cgtState, TcpSock.shift_recoveryPoint,
    lessOrEqual32b_add, retransmitFirst_shift]
  split
  · split_ifs <;> rfl
  · split_ifs <;> rfl
  · rfl

theorem ackNew_shift {run : Run} {ack : UInt32} (h : PopKeeps o ack run.tsk.sendBuf) :
    ackNew (run.shift o) (ack + o.send) = (ackNew run ack).shift o := by
  have hpop := popAcked_shift o h { run.tsk with repAck := 0 }
  unfold ackNew
  rw [← leaveRecovery_shift, ← update_shift]
  exact hpop

theorem countedAck_shift {run : Run} {ack : UInt32}
    (h : ack ≠ run.tsk.sndUna → PopKeeps o ack run.tsk.sendBuf) :
    countedAck (run.shift o) (ack + o.send) = (countedAck run ack).shift o := by
  unfold countedAck
  simp only [Run.shift_tsk, TcpSock.shift_sndUna, UInt32.add_left_inj]
  split_ifs with heq
  · exact ackRepeated_shift o run
  · exact ackNew_shift o (h heq)

/-- A retransmission through the list head has no numbers to move. -/
theorem lost_shift (run : Run) : (run.shift o).Lost ↔ run.Lost := by
  simp only [Run.Lost, Run.shift_actions, List.mem_map]
  constructor
  · rintro ⟨a, ha, heq⟩
    cases a with
    | readListHead => exact ha
    | _ => cases heq
  · exact fun h => ⟨.readListHead, h, rfl⟩

/-- What the ACK does moves with the numbers when the loop does not notice the move. -/
theorem processAck_shift {run : Run} {cb : TcpCb}
    (h : cb.ack ≠ run.tsk.sndUna → PopKeeps o cb.ack run.tsk.sendBuf) :
    processAck (run.shift o) (cb.shift o) = (processAck run cb).shift o := by
  simp only [processAck, TcpCb.shift_ack, countedAck_shift o h, lost_shift]
  split_ifs
  · rfl
  · exact tcpUpdateWindowSafe_shift o _ cb

/-- The length of `send_buf` tells whether the loop noticed the move. -/
theorem popKeeps_of_processAck {run : Run} {cb : TcpCb} (hne : cb.ack ≠ run.tsk.sndUna)
    (h : (processAck (run.shift o) (cb.shift o)).tsk.sendBuf.length =
      (processAck run cb).tsk.sendBuf.length) : PopKeeps o cb.ack run.tsk.sendBuf := by
  have hne' : (cb.shift o).ack ≠ (run.shift o).tsk.sndUna := by
    simpa [UInt32.add_left_inj] using hne
  rw [sendBuf_processAck hne, sendBuf_processAck hne'] at h
  exact popKeeps_of_length o h

end Pop

section Receive

/-- The part of a socket that the ACK leaves alone and the handling of data looks at. -/
def receiveSide (tsk : TcpSock) :=
  (tsk.rcvNxt, tsk.rcvOfoBuf, tsk.rcvBuf, tsk.readSleep, tsk.sendSleep)

/-- The congestion state after the ACK. -/
def cgtStateAfterAck (tsk : TcpSock) (ack : UInt32) : CgtState :=
  if ack = tsk.sndUna then
    if tsk.cgtState = .opn ∧ tsk.repAck + 1 > 2 then .rcvr else tsk.cgtState
  else if lessOrEqual32b tsk.recoveryPoint ack then .opn
  else tsk.cgtState

/-- The second state differs from the first in no part that the handling of data sees. -/
def SameReceive (run run' : Run) : Prop :=
  receiveSide run'.tsk = receiveSide run.tsk ∧ run'.reads = run.reads

theorem OnlySend.sameReceive {run run' : Run} (h : OnlySend run run') : SameReceive run run' := by
  obtain ⟨_, _, _, _, _, _, _, _, _, _, _, hsend⟩ := h.frame
  refine ⟨?_, h.reads⟩
  rw [hsend]
  rfl

/-- The ACK leaves the receive side alone; the congestion state is as above. -/
theorem processAck_receive (run : Run) (cb : TcpCb) : SameReceive run (processAck run cb) ∧
    (processAck run cb).tsk.cgtState = cgtStateAfterAck run.tsk cb.ack := by
  refine ⟨(onlySend_processAck run cb).sameReceive, ?_⟩
  have hsame : (processAck run cb).tsk.cgtState = (countedAck run cb.ack).tsk.cgtState := by
    simp only [processAck]
    split_ifs
    · rfl
    · exact cgtState_tcpUpdateWindowSafe _ cb
  rw [hsame, countedAck, cgtStateAfterAck]
  by_cases heq : cb.ack = run.tsk.sndUna
  · rw [if_pos heq, if_pos heq, cgtState_ackRepeated]
  · obtain ⟨hcgt, hpoint⟩ := cgtState_popAcked cb.ack run.tsk.sendBuf { run.tsk with repAck := 0 }
    rw [if_neg heq, if_neg heq, ackNew, cgtState_leaveRecovery, Run.update_tsk, hcgt, hpoint]

end Receive

end NetworkLab.Tcp
