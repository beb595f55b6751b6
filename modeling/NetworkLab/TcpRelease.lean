import NetworkLab.TcpFrame

/-!
# What an ACK releases

The loop over `send_buf` takes entries from its front and stops at the first that ends after the
ACK. Nothing else that the ACK does touches the queue, `inflight`, `snd_una` or `snd_nxt`.
-/
namespace NetworkLab.Tcp

section Pop

/-- Entries that an ACK releases: the loop stops at the first that ends after it in
the plain order of 32-bit numbers. -/
def released (tsk : TcpSock) (ack : UInt32) : List SendBuffer :=
  if ack = tsk.sndUna then [] else tsk.sendBuf.takeWhile fun buf => decide (buf.seqEnd ≤ ack)

/-- The entries `popped` leave the front of the queue. -/
structure Pops (tsk : TcpSock) (popped : List SendBuffer) (tsk' : TcpSock) : Prop where
  sendBuf : tsk.sendBuf = popped ++ tsk'.sendBuf
  inflight : tsk'.inflight = tsk.inflight - popped.length
  sndUna : tsk'.sndUna = (popped.getLast?.map SendBuffer.seqEnd).getD tsk.sndUna
  sndNxt : tsk'.sndNxt = tsk.sndNxt

theorem Pops.of_same {tsk tsk' : TcpSock} (hbuf : tsk'.sendBuf = tsk.sendBuf)
    (hflight : tsk'.inflight = tsk.inflight) (huna : tsk'.sndUna = tsk.sndUna)
    (hnxt : tsk'.sndNxt = tsk.sndNxt) : Pops tsk [] tsk' :=
  ⟨hbuf.symm, by simp [hflight], huna, hnxt⟩

theorem Pops.refl (tsk : TcpSock) : Pops tsk [] tsk := .of_same rfl rfl rfl rfl

theorem Pops.trans_same {tsk t t' : TcpSock} {popped : List SendBuffer} (h : Pops tsk popped t)
    (h' : Pops t [] t') : Pops tsk popped t' where
  sendBuf := by rw [h.sendBuf, h'.sendBuf, List.nil_append]
  inflight := by simp [h'.inflight, h.inflight]
  sndUna := h'.sndUna.trans h.sndUna
  sndNxt := h'.sndNxt.trans h.sndNxt

theorem tcpCwndInc_queue (tsk : TcpSock) : Pops tsk [] (tcpCwndInc tsk) := by
  unfold tcpCwndInc
  split_ifs <;> exact .of_same rfl rfl rfl rfl

/-- The release of one entry. -/
theorem pops_one {tsk : TcpSock} {buf : SendBuffer} {bufs : List SendBuffer}
    (h : tsk.sendBuf = buf :: bufs) :
    Pops tsk [buf] (tcpCwndInc (tcpPopSendbuf { tsk with sndUna := buf.seqEnd })) := by
  have hpop : Pops tsk [buf] (tcpPopSendbuf { tsk with sndUna := buf.seqEnd }) :=
    ⟨by simp only [tcpPopSendbuf, h, List.tail_cons, List.cons_append, List.nil_append],
      rfl, rfl, rfl⟩
  exact hpop.trans_same (tcpCwndInc_queue _)

theorem Pops.cons {tsk t t' : TcpSock} {buf : SendBuffer} {popped : List SendBuffer}
    (h : Pops tsk [buf] t) (h' : Pops t popped t') : Pops tsk (buf :: popped) t' where
  sendBuf := by rw [h.sendBuf, h'.sendBuf, List.cons_append, List.nil_append, List.cons_append]
  inflight := by
    rw [h'.inflight, h.inflight, List.length_singleton, List.length_cons]
    push_cast
    omega
  sndUna := by
    rw [h'.sndUna, h.sndUna, List.getLast?_singleton, List.getLast?_cons]
    cases popped.getLast? <;> rfl
  sndNxt := h'.sndNxt.trans h.sndNxt

theorem popAcked_pops (ack : UInt32) (bufs : List SendBuffer) {tsk : TcpSock}
    (h : tsk.sendBuf = bufs) :
    Pops tsk (bufs.takeWhile fun buf => decide (buf.seqEnd ≤ ack)) (popAcked ack bufs tsk) := by
  induction bufs generalizing tsk with
  | nil => exact .refl tsk
  | cons buf bufs ih =>
    simp only [popAcked]
    by_cases hle : buf.seqEnd ≤ ack
    · rw [List.takeWhile_cons_of_pos (by simpa using hle), if_neg (UInt32.not_lt.mpr hle)]
      have hone := pops_one h
      have hrest := hone.sendBuf.symm.trans h
      exact hone.cons (ih (List.append_cancel_left hrest))
    · rw [List.takeWhile_cons_of_neg (by simpa using hle), if_pos (UInt32.not_le.mp hle)]
      exact .refl tsk

theorem enterRecovery_queue (run : Run) : Pops run.tsk [] (enterRecovery run).tsk := by
  unfold enterRecovery
  simp only
  split <;> exact .of_same rfl rfl rfl rfl

theorem deflate_queue (tsk : TcpSock) : Pops tsk [] (deflate tsk) := by
  unfold deflate
  split_ifs <;> exact .of_same rfl rfl rfl rfl

theorem ackRepeated_queue (run : Run) : Pops run.tsk [] (ackRepeated run).tsk := by
  have hcount : Pops run.tsk [] run.countAck.tsk := .of_same rfl rfl rfl rfl
  unfold ackRepeated
  split
  · split_ifs
    · exact (hcount.trans_same (enterRecovery_queue _)).trans_same (deflate_queue _)
    · exact hcount
  · exact hcount.trans_same (deflate_queue _)
  · exact hcount

theorem leaveRecovery_queue (run : Run) (ack : UInt32) :
    Pops run.tsk [] (leaveRecovery run ack).tsk := by
  unfold leaveRecovery
  split
  · split_ifs
    · exact .of_same rfl rfl rfl rfl
    · rw [tsk_retransmitFirst]
      exact .refl _
  · split_ifs <;> exact .of_same rfl rfl rfl rfl
  · exact .refl _

theorem tcpUpdateWindowSafe_queue (run : Run) (cb : TcpCb) :
    Pops run.tsk [] (tcpUpdateWindowSafe run cb).tsk := by
  unfold tcpUpdateWindowSafe tcpUpdateWindow
  simp only
  split_ifs <;> exact .of_same rfl rfl rfl rfl

theorem ackNew_pops (run : Run) (ack : UInt32) :
    Pops run.tsk (run.tsk.sendBuf.takeWhile fun buf => decide (buf.seqEnd ≤ ack))
      (ackNew run ack).tsk := by
  have hbuf : { run.tsk with repAck := 0 }.sendBuf = run.tsk.sendBuf := rfl
  have hpop := popAcked_pops ack run.tsk.sendBuf hbuf
  exact Pops.trans_same ⟨hpop.sendBuf, hpop.inflight, hpop.sndUna, hpop.sndNxt⟩
    (leaveRecovery_queue
      (run.update fun tsk => popAcked ack tsk.sendBuf { tsk with repAck := 0 }) ack)

theorem countedAck_pops (run : Run) (ack : UInt32) :
    Pops run.tsk (released run.tsk ack) (countedAck run ack).tsk := by
  unfold countedAck released
  split_ifs
  · exact ackRepeated_queue run
  · exact ackNew_pops run ack

/-- The ACK removes the entries that it releases and no others. -/
theorem processAck_pops (run : Run) (cb : TcpCb) :
    Pops run.tsk (released run.tsk cb.ack) (processAck run cb).tsk := by
  have hcounted := countedAck_pops run cb.ack
  simp only [processAck]
  split_ifs
  · exact hcounted
  · exact hcounted.trans_same (tcpUpdateWindowSafe_queue _ cb)

/-- An ACK of something new leaves the entries from the first on that ends after it. -/
theorem sendBuf_processAck {run : Run} {cb : TcpCb} (hne : cb.ack ≠ run.tsk.sndUna) :
    (processAck run cb).tsk.sendBuf =
      run.tsk.sendBuf.dropWhile fun buf => decide (buf.seqEnd ≤ cb.ack) := by
  have hpops := (processAck_pops run cb).sendBuf
  rw [released, if_neg hne] at hpops
  have hsplit := run.tsk.sendBuf.takeWhile_append_dropWhile
    (p := fun buf => decide (buf.seqEnd ≤ cb.ack))
  exact (List.append_cancel_left (hsplit.trans hpops)).symm

/-- A packet with ACK removes from `send_buf` what the ACK releases, whether the call
returns or stops. -/
theorem tcpProcess_pops (tsk : TcpSock) {cb : TcpCb} (newIss : UInt32) (reads : List ℕ)
    (hack : cb.flags &&& tcpAck ≠ 0) :
    Pops tsk (released tsk cb.ack) (tcpProcess tsk cb newIss reads).last.tsk := by
  obtain ⟨⟨_, _, _, _, hframe⟩, -⟩ := tcpProcess_switched tsk cb newIss reads
  obtain ⟨_, _, _, _, hrecv⟩ := receiveFrame_updateRcvNxt tsk cb
  have hpops := processAck_pops ⟨updateRcvNxt tsk cb, reads, []⟩ cb
  rw [hframe, switched_seen_of_ack tsk cb reads _ hack, entered_of_ack tsk cb reads hack]
  simp only [hrecv] at hpops ⊢
  exact ⟨hpops.sendBuf, hpops.inflight, hpops.sndUna, hpops.sndNxt⟩

end Pop

section Congestion

theorem cgtState_popAcked (ack : UInt32) (bufs : List SendBuffer) (tsk : TcpSock) :
    (popAcked ack bufs tsk).cgtState = tsk.cgtState ∧
      (popAcked ack bufs tsk).recoveryPoint = tsk.recoveryPoint := by
  induction bufs generalizing tsk with
  | nil => exact ⟨rfl, rfl⟩
  | cons buf bufs ih =>
    simp only [popAcked]
    split_ifs
    · exact ⟨rfl, rfl⟩
    · obtain ⟨hcgt, hpoint⟩ := ih (tcpCwndInc (tcpPopSendbuf { tsk with sndUna := buf.seqEnd }))
      rw [hcgt, hpoint]
      unfold tcpCwndInc
      split_ifs <;> exact ⟨rfl, rfl⟩

theorem cgtState_tcpUpdateWindowSafe (run : Run) (cb : TcpCb) :
    (tcpUpdateWindowSafe run cb).tsk.cgtState = run.tsk.cgtState := by
  unfold tcpUpdateWindowSafe tcpUpdateWindow
  simp only
  split_ifs <;> rfl

theorem cgtState_deflate (tsk : TcpSock) : (deflate tsk).cgtState = tsk.cgtState := by
  unfold deflate
  split_ifs <;> rfl

theorem cgtState_enterRecovery (run : Run) : (enterRecovery run).tsk.cgtState = .rcvr := by
  unfold enterRecovery
  simp only
  split <;> rfl

theorem cgtState_ackRepeated (run : Run) : (ackRepeated run).tsk.cgtState =
    if run.tsk.cgtState = .opn ∧ run.tsk.repAck + 1 > 2 then .rcvr else run.tsk.cgtState := by
  unfold ackRepeated
  cases hstate : run.tsk.cgtState with
  | opn =>
    simp only [true_and]
    split_ifs
    · exact (cgtState_deflate _).trans (cgtState_enterRecovery _)
    · exact hstate
  | rcvr => exact (cgtState_deflate _).trans hstate
  | loss => exact hstate

theorem cgtState_leaveRecovery (run : Run) (ack : UInt32) : (leaveRecovery run ack).tsk.cgtState =
    if lessOrEqual32b run.tsk.recoveryPoint ack then .opn else run.tsk.cgtState := by
  unfold leaveRecovery
  cases hstate : run.tsk.cgtState with
  | opn => split_ifs <;> exact hstate
  | rcvr =>
    simp only
    split_ifs
    · rfl
    · rw [tsk_retransmitFirst, hstate]
  | loss =>
    simp only
    split_ifs
    · rfl
    · exact hstate

end Congestion

end NetworkLab.Tcp
