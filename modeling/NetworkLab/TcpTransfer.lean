import NetworkLab.TcpEndpoint

/-!
# Both directions of a connection over an unreliable network

A stream is on its way from one end to the other: the one keeps what the other may not have got,
and the other has received a prefix. Every event at one of the ends keeps both streams so.
-/
namespace NetworkLab.Tcp
open GuardedRuns Outcomes

section Receiving

variable {st : Stream} {shut : Prop} {e e' : EndState} {back new : List Segment} {p : Segment}

/-- An event in which the end gets nothing: what it sends or keeps it has kept before, or it is
without ACK. -/
structure Unmoved (e e' : EndState) (new : List Segment) : Prop where
  received : e'.received = e.received
  halted : e'.halted = e.halted
  rcvNxt : e'.tsk.rcvNxt = e.tsk.rcvNxt
  rcvOfoBuf : e'.tsk.rcvOfoBuf = e.tsk.rcvOfoBuf
  kept : ∀ buf ∈ e'.tsk.sendBuf,
    (∃ old ∈ e.tsk.sendBuf, old.packet = buf.packet) ∨ buf.packet.flags &&& tcpAck = 0
  sent : ∀ p ∈ new, (∃ old ∈ e.tsk.sendBuf, old.packet = p) ∨ p.flags &&& tcpAck = 0

theorem Sink.unmoved (h : Sink st shut e back) (hsame : Unmoved e e' new) :
    Sink st shut e' (back ++ new) := by
  refine ⟨hsame.received ▸ h.prefix_bytes, hsame.halted ▸ h.defined, fun hhalt => ?_,
    fun buf hbuf hack => ?_, fun p hp hack => ?_⟩
  · rw [hsame.received, hsame.rcvNxt, hsame.rcvOfoBuf]
    exact h.ready (hsame.halted ▸ hhalt)
  · rw [hsame.received]
    rcases hsame.kept buf hbuf with ⟨old, hold, heq⟩ | hnone
    · rw [← heq] at hack ⊢
      exact h.kept old hold hack
    · exact absurd hnone hack
  · rw [hsame.received]
    rcases List.mem_append.mp hp with hold | hnew
    · exact h.sent p hold hack
    · rcases hsame.sent p hnew with ⟨old, hold, heq⟩ | hnone
      · rw [← heq] at hack ⊢
        exact h.kept old hold hack
      · exact absurd hnone hack

theorem unmoved_write (e : EndState) (data : List UInt8) (history : List SendBuffer)
    (wrote : List (List UInt8)) :
    Unmoved e { e with tsk := afterData e.tsk data, history := history, wrote := wrote }
      [dataPacket e.tsk data] := by
  refine ⟨rfl, rfl, rfl, rfl, fun buf hbuf => ?_, fun p hp => .inr ?_⟩
  · rcases List.mem_append.mp hbuf with hold | hnew
    · exact .inl ⟨buf, hold, rfl⟩
    · rw [List.mem_singleton.mp hnew]
      exact .inr (show tcpPsh &&& tcpAck = 0 by decide)
  · rw [List.mem_singleton.mp hp]
    exact show tcpPsh &&& tcpAck = 0 by decide

/-- `tcp_sock_close` in the states in which it does something. -/
theorem tcpSockClose_open {tsk : TcpSock} (h : tsk.state = .established ∨ tsk.state = .closeWait) :
    ∃ state, Shut state ∧ tcpSockClose ⟨tsk, [], []⟩ =
      ⟨afterControl { tsk with state := state } tcpFin, [],
        [.ipSendPacket (controlPacket tsk tcpFin)]⟩ := by
  rcases h with h | h
  · refine ⟨.finWait1, .inl rfl, ?_⟩
    simp only [tcpSockClose, h]
    rfl
  · refine ⟨.lastAck, .inr (.inr (.inr (.inl rfl))), ?_⟩
    simp only [tcpSockClose, h]
    rfl

theorem tcpSockClose_shut {tsk : TcpSock}
    (h : ¬(tsk.state = .established ∨ tsk.state = .closeWait)) :
    tcpSockClose ⟨tsk, [], []⟩ = ⟨tsk, [], []⟩ := by
  rw [not_or] at h
  unfold tcpSockClose
  split
  next hstate => exact absurd hstate h.1
  next hstate => exact absurd hstate h.2
  next => rfl

theorem unmoved_close (e : EndState) (history : List SendBuffer) :
    Unmoved e { e with tsk := (tcpSockClose ⟨e.tsk, [], []⟩).tsk, history := history }
      (sentPackets (tcpSockClose ⟨e.tsk, [], []⟩).actions) := by
  by_cases hopen : e.tsk.state = .established ∨ e.tsk.state = .closeWait
  · obtain ⟨state, -, hclose⟩ := tcpSockClose_open hopen
    have hfin : (controlPacket e.tsk tcpFin).flags &&& tcpAck = 0 :=
      show tcpFin &&& tcpAck = 0 by decide
    rw [hclose]
    refine ⟨rfl, rfl, rfl, rfl, fun buf hbuf => ?_, fun p hp => .inr ?_⟩
    · rcases List.mem_append.mp hbuf with hold | hnew
      · exact .inl ⟨buf, hold, rfl⟩
      · rw [List.mem_singleton.mp hnew]
        exact .inr hfin
    · have hmem : Action.ipSendPacket p ∈ [Action.ipSendPacket (controlPacket e.tsk tcpFin)] :=
        mem_sentPackets.mp hp
      rw [Action.ipSendPacket.inj (List.mem_singleton.mp hmem)]
      exact hfin
  · rw [tcpSockClose_shut hopen]
    exact ⟨rfl, rfl, rfl, rfl, fun buf hbuf => .inl ⟨buf, hbuf, rfl⟩,
      fun p hp => absurd hp List.not_mem_nil⟩

theorem SendBuffer.packet_scan (buf : SendBuffer) :
    buf.scan.packet = buf.packet ∧ buf.scan.seqEnd = buf.seqEnd := by
  unfold SendBuffer.scan SendBuffer.restart
  split_ifs <;> exact ⟨rfl, rfl⟩

theorem enterLoss_iterate (tsk : TcpSock) (n : ℕ) : (enterLoss^[n] tsk).rcvNxt = tsk.rcvNxt ∧
    (enterLoss^[n] tsk).rcvOfoBuf = tsk.rcvOfoBuf ∧ (enterLoss^[n] tsk).state = tsk.state ∧
    (enterLoss^[n] tsk).sndNxt = tsk.sndNxt := by
  induction n with
  | zero => exact ⟨rfl, rfl, rfl, rfl⟩
  | succ n ih =>
    rw [Function.iterate_succ_apply']
    exact ih

theorem mem_retransmitted {tsk : TcpSock} (hp : p ∈ retransmitted tsk) :
    ∃ old ∈ tsk.sendBuf, old.packet = p := by
  rw [retransmitted_eq] at hp
  obtain ⟨old, hold, heq⟩ := List.mem_map.mp hp
  exact ⟨old, List.mem_of_mem_filter hold, heq⟩

theorem mem_scan {tsk : TcpSock} {buf : SendBuffer} (hbuf : buf ∈ (tcpScanRetrans tsk).sendBuf) :
    ∃ old ∈ tsk.sendBuf, old.packet = buf.packet := by
  rw [tcpScanRetrans_eq] at hbuf
  obtain ⟨old, hold, rfl⟩ := List.mem_map.mp hbuf
  exact ⟨old, hold, old.packet_scan.1.symm⟩

theorem unmoved_scan (e : EndState) :
    Unmoved e { e with tsk := tcpScanRetrans e.tsk } (retransmitted e.tsk) := by
  have hrest := enterLoss_iterate e.tsk (expired e.tsk.sendBuf)
  refine ⟨rfl, rfl, ?_, ?_, fun buf hbuf => .inl (mem_scan hbuf),
    fun p hp => .inl (mem_retransmitted hp)⟩
  · simp only [tcpScanRetrans_eq, hrest.1]
  · simp only [tcpScanRetrans_eq, hrest.2.1]

theorem unmoved_of_same {tsk : TcpSock} (hnxt : tsk.rcvNxt = e.tsk.rcvNxt)
    (hofo : tsk.rcvOfoBuf = e.tsk.rcvOfoBuf) (hbuf : tsk.sendBuf = e.tsk.sendBuf) :
    Unmoved e { e with tsk := tsk } [] :=
  ⟨rfl, rfl, hnxt, hofo, fun buf hmem => .inl ⟨buf, hbuf ▸ hmem, rfl⟩,
    fun _ hp => absurd hp List.not_mem_nil⟩

/-- A packet of the stream arrives. -/
theorem Sink.take (h : Sink st shut e back) {flags : UInt8} {r : Result}
    (ht : Taken st shut e flags r) (stored : List SendBuffer) :
    Sink st shut (e.after stored r) (back ++ sentPackets r.last.actions) := by
  obtain ⟨nxt, hemits, hcovered⟩ := ht.emits
  have hlen : e.received.length ≤ (e.received ++ written r.last.actions).length := by simp
  have hmax := ht.prefix_bytes.length_le
  have hack {q : Segment} (hq : Emitted e.tsk flags nxt q) (hflag : q.flags &&& tcpAck ≠ 0) :
      Covered st shut (e.received ++ written r.last.actions) q.ack := by
    cases hq with
    | kept buf hbuf hpacket =>
      rw [← hpacket] at hflag ⊢
      exact (h.kept buf hbuf hflag).grow hlen hmax
    | ack _ _ heq => exact heq ▸ hcovered
    | fin _ _ heq => exact heq ▸ hcovered
  refine ⟨ht.prefix_bytes, ht.defined, ht.ready, fun buf hbuf => hack (hemits.kept buf hbuf),
    fun q hq => ?_⟩
  rcases List.mem_append.mp hq with hold | hnew
  · exact fun hflag => (h.sent q hold hflag).grow hlen hmax
  · exact hack (hemits.sent q hnew)

end Receiving

section Sending

variable {st : Stream} {e e' : EndState} {out new : List Segment} {received : List UInt8}

theorem not_shut_established : ¬Shut .established := by simp [Shut]

theorem Source.open_or_shut (h : Source st e out) :
    e.tsk.state = .established ∨ Shut e.tsk.state := h.phase.imp And.left And.left

theorem Source.sndNxt_open (h : Source st e out) (hopen : e.tsk.state = .established) :
    e.tsk.sndNxt = st.pos st.total := by
  rcases h.phase with ⟨-, hnxt⟩ | ⟨hshut, -⟩
  · exact hnxt
  · rw [hopen] at hshut
    exact absurd hshut not_shut_established

theorem Source.ends_open (h : Source st e out) (hopen : e.tsk.state = .established) :
    e.history.map (·.seqEnd) =
      (List.range st.segs.length).map fun j => st.pos (st.bound (j + 1)) := by
  obtain ⟨fin, heq, rfl | ⟨hshut, -⟩⟩ := h.ends
  · rw [heq, List.append_nil]
  · rw [hopen] at hshut
    exact absurd hshut not_shut_established

/-- An event that stores nothing and sends what is kept, or ACKs. -/
theorem Source.resend (h : Source st e out) (hwrote : e'.wrote = e.wrote)
    (hhistory : e'.history = e.history) (hqueue : QueueInv ⟨e'.tsk, e'.history⟩)
    (hopen : e.tsk.state = .established → e'.tsk.state = .established)
    (hshut : Shut e.tsk.state → Shut e'.tsk.state) (hnxt : e'.tsk.sndNxt = e.tsk.sndNxt)
    (hkept : ∀ buf ∈ e'.tsk.sendBuf, ∃ old ∈ e.tsk.sendBuf, old.packet = buf.packet)
    (hsent : ∀ p ∈ new, (∃ old ∈ e.tsk.sendBuf, old.packet = p) ∨
      p.flags = tcpAck ∧ p.data = []) : Source st e' (out ++ new) := by
  refine ⟨h.segs.trans hwrote.symm, ?_, hqueue, ?_, fun buf hbuf => ?_, fun p hp => ?_⟩
  · rw [hnxt]
    exact h.phase.imp (And.imp_left hopen) (And.imp_left hshut)
  · obtain ⟨fin, heq, hfin⟩ := h.ends
    exact ⟨fin, hhistory ▸ heq, hfin.imp_right (And.imp_left hshut)⟩
  · obtain ⟨old, hold, heq⟩ := hkept buf hbuf
    exact heq ▸ (h.kept old hold).mono hshut
  · rcases List.mem_append.mp hp with hold | hnew
    · exact (h.sent p hold).mono hshut
    · rcases hsent p hnew with ⟨old, hold, heq⟩ | ⟨hflags, hdata⟩
      · exact heq ▸ (h.kept old hold).mono hshut
      · exact .ack hflags hdata

/-- A packet that is the FIN of the end. -/
structure IsFin (tsk : TcpSock) (p : Segment) : Prop where
  flags : p.flags = tcpFin ∨ p.flags = tcpAck ||| tcpFin
  seq : p.seq = tsk.sndNxt
  data : p.data = []

/-- An event that stores and sends the FIN. -/
theorem Source.finish (h : Source st e out) (hopen : e.tsk.state = .established)
    (hwrote : e'.wrote = e.wrote) {buf : SendBuffer} (hhistory : e'.history = e.history ++ [buf])
    (hqueue : QueueInv ⟨e'.tsk, e'.history⟩) (hshut : Shut e'.tsk.state)
    (hnxt : e'.tsk.sndNxt = e.tsk.sndNxt + 1) (hend : buf.seqEnd = e.tsk.sndNxt + 1)
    (hfin : IsFin e.tsk buf.packet) (hkept : ∀ b ∈ e'.tsk.sendBuf, b ∈ e.tsk.sendBuf ∨ b = buf)
    (hsent : ∀ p ∈ new, (∃ old ∈ e.tsk.sendBuf, old.packet = p) ∨
      p.flags = tcpAck ∧ p.data = [] ∨ IsFin e.tsk p) : Source st e' (out ++ new) := by
  have hlast : e.tsk.sndNxt + 1 = st.pos (st.total + 1) := by
    rw [h.sndNxt_open hopen]
    exact st.pos_add st.total 1
  have hof {p : Segment} (hp : IsFin e.tsk p) : OfStream st (Shut e'.tsk.state) p :=
    .fin hshut hp.flags (hp.seq.trans (h.sndNxt_open hopen)) hp.data
  refine ⟨h.segs.trans hwrote.symm, .inr ⟨hshut, hnxt.trans hlast⟩, hqueue,
    ⟨[st.pos (st.total + 1)], ?_, .inr ⟨hshut, rfl⟩⟩, fun b hb => ?_, fun p hp => ?_⟩
  · rw [hhistory, List.map_append, h.ends_open hopen, List.map_singleton, hend, hlast]
  · rcases hkept b hb with hold | rfl
    · exact (h.kept b hold).mono fun _ => hshut
    · exact hof hfin
  · rcases List.mem_append.mp hp with hold | hnew
    · exact (h.sent p hold).mono fun _ => hshut
    · rcases hsent p hnew with ⟨old, hmem, heq⟩ | ⟨hflags, hdata⟩ | hp
      · exact heq ▸ (h.kept old hmem).mono fun _ => hshut
      · exact .ack hflags hdata
      · exact hof hp

/-- A segment is written. -/
theorem Source.write (h : Source st e out) (hopen : e.tsk.state = .established)
    {data : List UInt8} (hmss : data.length ≤ mss)
    (hwrap : st.isn.toNat + st.total + data.length + 2 < 2 ^ 32) :
    Source (st.push data hmss hwrap)
      { e with
        tsk := afterData e.tsk data
        history := e.history ++ storedBy e.tsk (.sendData data)
        wrote := e.wrote ++ [data] } (out ++ [dataPacket e.tsk data]) := by
  have hshut : ¬Shut e.tsk.state := by
    rw [hopen]
    exact not_shut_established
  have hnxt := h.sndNxt_open hopen
  have hj : st.segs.length < (st.segs ++ [data]).length := by simp
  have hpacket : OfStream (st.push data hmss hwrap) (Shut e.tsk.state) (dataPacket e.tsk data) := by
    refine .data ⟨st.segs.length, hj⟩ rfl ?_ ?_
    · rw [Stream.push_bound le_rfl, st.bound_length, Stream.push_pos]
      exact hnxt
    · simp [dataPacket, Stream.payload]
  refine ⟨by rw [Stream.push_segs, h.segs], .inl ⟨hopen, ?_⟩, h.queue.data data, ⟨[], ?_, .inl rfl⟩,
    fun buf hbuf => ?_, fun p hp => ?_⟩
  · rw [Stream.push_pos, Stream.push_total, ← st.pos_add, ← hnxt]
    rfl
  · have hbounds : (List.range st.segs.length).map
        (fun j => (st.push data hmss hwrap).pos ((st.push data hmss hwrap).bound (j + 1))) =
        (List.range st.segs.length).map fun j => st.pos (st.bound (j + 1)) := by
      apply List.map_congr_left
      intro j hj
      rw [Stream.push_pos, Stream.push_bound (Nat.succ_le_of_lt (List.mem_range.mp hj))]
    have hall : (st.push data hmss hwrap).bound (st.segs.length + 1) = st.total + data.length := by
      have htotal := (st.push data hmss hwrap).bound_length
      rwa [Stream.push_segs, List.length_append, Stream.push_total] at htotal
    simp only [storedBy, List.map_append, h.ends_open hopen, Stream.push_segs, List.length_append,
      List.length_singleton, List.range_succ, hbounds, List.map_singleton, hall, List.append_nil]
    rw [Stream.push_pos, ← st.pos_add, ← hnxt]
  · rcases List.mem_append.mp hbuf with hold | hnew
    · exact (h.kept buf hold).push hshut
    · rw [List.mem_singleton.mp hnew]
      exact hpacket
  · rcases List.mem_append.mp hp with hold | hnew
    · exact (h.sent p hold).push hshut
    · rw [List.mem_singleton.mp hnew]
      exact hpacket

theorem Source.close (h : Source st e out) :
    Source st
      { e with
        tsk := (tcpSockClose ⟨e.tsk, [], []⟩).tsk
        history := e.history ++ storedByClose e.tsk }
      (out ++ sentPackets (tcpSockClose ⟨e.tsk, [], []⟩).actions) := by
  by_cases hclose : e.tsk.state = .established ∨ e.tsk.state = .closeWait
  · have hopen : e.tsk.state = .established :=
      h.open_or_shut.resolve_right fun hshut => by
        rcases hclose with hstate | hstate <;> rw [hstate] at hshut <;> simp [Shut] at hshut
    obtain ⟨state, hshut, heq⟩ := tcpSockClose_open hclose
    have hstored : storedByClose e.tsk = storedByControl e.tsk tcpFin := if_pos hclose
    have hqueue : QueueInv ⟨{ e.tsk with state := state }, e.history⟩ :=
      h.queue.of_same rfl rfl rfl rfl
    rw [heq, hstored]
    refine h.finish hopen rfl rfl (hqueue.control tcpFin) hshut rfl rfl ⟨.inl rfl, rfl, rfl⟩
      (fun b hb => ?_) (fun p hp => .inr (.inr ?_))
    · rcases List.mem_append.mp hb with hold | hnew
      · exact .inl hold
      · exact .inr (List.mem_singleton.mp hnew)
    · have hmem : Action.ipSendPacket p ∈ [Action.ipSendPacket (controlPacket e.tsk tcpFin)] :=
        mem_sentPackets.mp hp
      rw [Action.ipSendPacket.inj (List.mem_singleton.mp hmem)]
      exact ⟨.inl rfl, rfl, rfl⟩
  · have hstored : storedByClose e.tsk = [] := if_neg hclose
    rw [tcpSockClose_shut hclose, hstored]
    exact h.resend rfl (List.append_nil _)
      (by simpa using h.queue) id id rfl (fun buf hbuf => ⟨buf, hbuf, rfl⟩)
      (fun p hp => absurd hp List.not_mem_nil)

theorem Source.scan (h : Source st e out) :
    Source st { e with tsk := tcpScanRetrans e.tsk } (out ++ retransmitted e.tsk) := by
  have hrest := enterLoss_iterate e.tsk (expired e.tsk.sendBuf)
  have hstate : (tcpScanRetrans e.tsk).state = e.tsk.state := by
    simp only [tcpScanRetrans_eq, hrest.2.2.1]
  have hnxt : (tcpScanRetrans e.tsk).sndNxt = e.tsk.sndNxt := by
    simp only [tcpScanRetrans_eq, hrest.2.2.2]
  exact h.resend rfl rfl h.queue.scan hstate.trans (fun hshut => hstate ▸ hshut) hnxt
    (fun buf hbuf => mem_scan hbuf) (fun p hp => .inl (mem_retransmitted hp))

/-- An event that leaves the send side alone. -/
theorem Source.of_same (h : Source st e out) {tsk : TcpSock}
    (hbuf : tsk.sendBuf = e.tsk.sendBuf) (hflight : tsk.inflight = e.tsk.inflight)
    (huna : tsk.sndUna = e.tsk.sndUna) (hnxt : tsk.sndNxt = e.tsk.sndNxt)
    (hstate : tsk.state = e.tsk.state) : Source st { e with tsk := tsk } out := by
  have hqueue : QueueInv ⟨tsk, e.history⟩ := h.queue.of_same (by rw [hbuf]) hflight huna hnxt
  have hsame : Source st { e with tsk := tsk } (out ++ []) :=
    h.resend rfl rfl hqueue hstate.trans (fun hshut => hstate ▸ hshut) hnxt
      (fun buf hmem => ⟨buf, hbuf ▸ hmem, rfl⟩) (fun p hp => absurd hp List.not_mem_nil)
  rwa [List.append_nil] at hsame

theorem tcpProcess_sndNxt (tsk : TcpSock) (cb : TcpCb) (newIss : UInt32) (reads : List ℕ) :
    (tcpProcess tsk cb newIss reads).last.tsk.sndNxt =
      if cb.flags = tcpFin ∧ tsk.state = .established then tsk.sndNxt + 1 else tsk.sndNxt := by
  obtain ⟨⟨_, _, _, _, hframe⟩, -⟩ := tcpProcess_switched tsk cb newIss reads
  obtain ⟨hstate, -, hnxt, -⟩ := entered_fields tsk cb reads
  rw [hframe]
  simp only [switched, hstate, seen_eq_fin_iff]
  split_ifs
  · exact congrArg (· + 1) hnxt
  · exact hnxt

/-- A packet arrives. -/
theorem Source.deliver (h : Source st e out) (p : Segment) (id : UInt16) (newIss : UInt32)
    (reads : List ℕ) (hflags : p.flags = tcpPsh ∨ Closes p.flags)
    (hemits : ∃ nxt, Emits e.tsk p.flags nxt
      (tcpProcess e.tsk (arrival p id) newIss reads).last) :
    Source st
      (e.after (storedBy e.tsk (.deliver (arrival p id) newIss reads))
        (tcpProcess e.tsk (arrival p id) newIss reads))
      (out ++ sentPackets (tcpProcess e.tsk (arrival p id) newIss reads).last.actions) := by
  obtain ⟨nxt, hsent, -⟩ := hemits
  have hqueue := h.queue.deliver (arrival p id) newIss reads
  have hstate := tcpProcess_state e.tsk (arrival p id) newIss reads
  have hnxt := tcpProcess_sndNxt e.tsk (arrival p id) newIss reads
  have hcb : (arrival p id).flags = p.flags := rfl
  rw [hcb] at hnxt
  have hbufs := sendBuf_deliver e.tsk (arrival p id) newIss reads
  by_cases hfin : p.flags = tcpFin ∧ e.tsk.state = .established
  · have hstored : storedBy e.tsk (.deliver (arrival p id) newIss reads) =
        [⟨controlPacket (updateRcvNxt e.tsk (arrival p id)) (tcpAck ||| tcpFin), 54,
          (updateRcvNxt e.tsk (arrival p id)).sndNxt + 1, 1, tcpRetransIntervalInitial, 0⟩] := by
      simp only [storedBy, hcb, if_pos hfin]
      rfl
    have hsame : (updateRcvNxt e.tsk (arrival p id)).sndNxt = e.tsk.sndNxt := by
      obtain ⟨_, _, _, _, hrecv⟩ := receiveFrame_updateRcvNxt e.tsk (arrival p id)
      rw [hrecv]
    rw [hstored] at hqueue hbufs ⊢
    refine h.finish hfin.2 rfl rfl hqueue ?_ ?_ (congrArg (· + 1) hsame)
      ⟨.inr rfl, hsame, rfl⟩ (fun b hb => ?_) (fun q hq => ?_)
    · have hshut : (tcpProcess e.tsk (arrival p id) newIss reads).last.tsk.state = .lastAck := by
        rw [hstate, (seen_eq_fin_iff _ _ _).mpr hfin.1, hfin.2]
        rfl
      exact .inr (.inr (.inr (.inl hshut)))
    · rw [if_pos hfin] at hnxt
      exact hnxt
    · have hmem : b ∈ (tcpProcess e.tsk (arrival p id) newIss reads).last.tsk.sendBuf := hb
      rw [hbufs] at hmem
      exact (List.mem_append.mp hmem).imp List.mem_of_mem_drop List.mem_singleton.mp
    · cases hsent q hq with
      | kept old hmem heq => exact .inl ⟨old, hmem, heq⟩
      | ack hflag hdata => exact .inr (.inl ⟨hflag, hdata⟩)
      | fin _ _ heq => exact .inr (.inr (heq ▸ ⟨.inr rfl, rfl, rfl⟩))
  · have hstored : storedBy e.tsk (.deliver (arrival p id) newIss reads) = [] := if_neg hfin
    rw [hstored] at hqueue hbufs ⊢
    rw [if_neg hfin] at hnxt
    refine h.resend rfl (List.append_nil _) hqueue (fun hopen => ?_) (fun hshut => ?_) hnxt
      (fun b hb => ?_) (fun q hq => ?_)
    · have hnot : p.flags ≠ tcpFin := fun hflag => hfin ⟨hflag, hopen⟩
      apply hstate.trans
      rw [hopen]
      rcases seen_flags e.tsk (arrival p id) reads with hseen | hseen
      · rw [hseen, hcb]
        rcases hflags with hflag | hflag | hflag | hflag
        · rw [hflag]
          rfl
        · exact absurd hflag hnot
        · rw [hflag]
          rfl
        · rw [hflag]
          rfl
      · rw [hseen]
        rfl
    · exact hstate ▸ shut_nextState hshut _
    · have hmem : b ∈ (tcpProcess e.tsk (arrival p id) newIss reads).last.tsk.sendBuf := hb
      rw [hbufs, List.append_nil] at hmem
      exact ⟨b, List.mem_of_mem_drop hmem, rfl⟩
    · cases hsent q hq with
      | kept old hmem heq => exact .inl ⟨old, hmem, heq⟩
      | ack hflag hdata => exact .inr ⟨hflag, hdata⟩
      | fin hflag hopen => exact absurd ⟨hflag, hopen⟩ hfin

end Sending

section Flow

/-- A stream on its way from one end to the other. -/
structure Flow (st : Stream) (e peer : EndState) (out back : List Segment) : Prop where
  source : Source st e out
  sink : Sink st (Shut e.tsk.state) peer back
  acked : Acked st (Shut e.tsk.state) e.history e.tsk.sendBuf peer.received

variable {st : Stream} {e e' peer : EndState} {out back new : List Segment}

theorem Flow.write (h : Flow st e peer out back) (hopen : e.tsk.state = .established)
    {data : List UInt8} (hmss : data.length ≤ mss)
    (hwrap : e.tsk.sndNxt.toNat + data.length + 1 < 2 ^ 32) :
    ∃ st', Flow st'
      { e with
        tsk := afterData e.tsk data
        history := e.history ++ storedBy e.tsk (.sendData data)
        wrote := e.wrote ++ [data] } peer (out ++ [dataPacket e.tsk data]) back := by
  have hshut : ¬Shut e.tsk.state := by
    rw [hopen]
    exact not_shut_established
  have hroom : st.isn.toNat + st.total + data.length + 2 < 2 ^ 32 := by
    have hpos := st.toNat_pos (Nat.le_succ st.total)
    rw [← h.source.sndNxt_open hopen] at hpos
    omega
  refine ⟨st.push data hmss hroom, h.source.write hopen hmss hroom, h.sink.push hshut, ?_⟩
  have hnone : ∀ buf ∈ ([] : List SendBuffer),
      Covered (st.push data hmss hroom) (Shut e.tsk.state) peer.received buf.seqEnd :=
    fun buf hbuf => absurd hbuf List.not_mem_nil
  exact (h.acked.push hshut).next [] rfl hnone

theorem Flow.close (h : Flow st e peer out back) :
    Flow st
      { e with
        tsk := (tcpSockClose ⟨e.tsk, [], []⟩).tsk
        history := e.history ++ storedByClose e.tsk } peer
      (out ++ sentPackets (tcpSockClose ⟨e.tsk, [], []⟩).actions) back := by
  have hshut : Shut e.tsk.state → Shut (tcpSockClose ⟨e.tsk, [], []⟩).tsk.state := by
    intro hyes
    have hnot : ¬(e.tsk.state = .established ∨ e.tsk.state = .closeWait) := by
      rintro (hstate | hstate) <;> rw [hstate] at hyes <;> simp [Shut] at hyes
    rwa [tcpSockClose_shut hnot]
  have hbufs : (e.tsk.sendBuf ++ storedByClose e.tsk).map (·.seqEnd) =
      ([] : List SendBuffer).map (·.seqEnd) ++
        (tcpSockClose ⟨e.tsk, [], []⟩).tsk.sendBuf.map (·.seqEnd) := by
    by_cases hclose : e.tsk.state = .established ∨ e.tsk.state = .closeWait
    · obtain ⟨state, -, heq⟩ := tcpSockClose_open hclose
      have hstored : storedByClose e.tsk = storedByControl e.tsk tcpFin := if_pos hclose
      rw [heq, hstored]
      rfl
    · have hstored : storedByClose e.tsk = [] := if_neg hclose
      rw [tcpSockClose_shut hclose, hstored, List.append_nil]
      rfl
  exact ⟨h.source.close, h.sink.mono hshut,
    (h.acked.next [] hbufs (fun buf hbuf => absurd hbuf List.not_mem_nil)).mono hshut⟩

theorem Flow.scan (h : Flow st e peer out back) :
    Flow st { e with tsk := tcpScanRetrans e.tsk } peer (out ++ retransmitted e.tsk) back := by
  have hrest := enterLoss_iterate e.tsk (expired e.tsk.sendBuf)
  have hstate : (tcpScanRetrans e.tsk).state = e.tsk.state := by
    simp only [tcpScanRetrans_eq, hrest.2.2.1]
  have hends : (tcpScanRetrans e.tsk).sendBuf.map (·.seqEnd) = e.tsk.sendBuf.map (·.seqEnd) := by
    simp only [tcpScanRetrans_eq, List.map_map]
    exact List.map_congr_left fun buf _ => buf.packet_scan.2
  refine ⟨h.source.scan, h.sink.mono fun hshut => hstate ▸ hshut, ?_⟩
  obtain ⟨acked, heq, hcovered⟩ := h.acked
  refine ⟨acked, ?_, fun n hn => (hcovered n hn).mono fun hshut => hstate ▸ hshut⟩
  rw [heq]
  exact congrArg (acked ++ ·) hends.symm

theorem Flow.of_same (h : Flow st e peer out back) {tsk : TcpSock}
    (hbuf : tsk.sendBuf = e.tsk.sendBuf) (hflight : tsk.inflight = e.tsk.inflight)
    (huna : tsk.sndUna = e.tsk.sndUna) (hnxt : tsk.sndNxt = e.tsk.sndNxt)
    (hstate : tsk.state = e.tsk.state) : Flow st { e with tsk := tsk } peer out back := by
  have hshut : Shut e.tsk.state → Shut tsk.state := fun hyes => hstate ▸ hyes
  refine ⟨h.source.of_same hbuf hflight huna hnxt hstate, h.sink.mono hshut, ?_⟩
  have hacked := h.acked.mono hshut
  rw [← hbuf] at hacked
  exact hacked

/-- The sender of the stream gets a packet; an ACK is for what the other end has received. -/
theorem Flow.deliver (h : Flow st e peer out back) {p : Segment} (hp : p ∈ back) (id : UInt16)
    (newIss : UInt32) (reads : List ℕ) (hflags : p.flags = tcpPsh ∨ Closes p.flags)
    (hemits : ∃ nxt, Emits e.tsk p.flags nxt
      (tcpProcess e.tsk (arrival p id) newIss reads).last) :
    Flow st
      (e.after (storedBy e.tsk (.deliver (arrival p id) newIss reads))
        (tcpProcess e.tsk (arrival p id) newIss reads)) peer
      (out ++ sentPackets (tcpProcess e.tsk (arrival p id) newIss reads).last.actions) back := by
  have hstate := tcpProcess_state e.tsk (arrival p id) newIss reads
  have hshut : Shut e.tsk.state →
      Shut (tcpProcess e.tsk (arrival p id) newIss reads).last.tsk.state := by
    intro hyes
    rw [hstate]
    exact shut_nextState hyes _
  refine ⟨h.source.deliver p id newIss reads hflags hemits, h.sink.mono hshut,
    Acked.mono ?_ hshut⟩
  by_cases hack : (arrival p id).flags &&& tcpAck ≠ 0
  · have hpops := (tcpProcess_pops e.tsk newIss reads hack).sendBuf
    rw [storedBy_deliver_of_ack e.tsk newIss reads hack]
    refine h.acked.next (released e.tsk p.ack) ?_ fun buf hbuf => ?_
    · rw [List.append_nil, hpops, List.map_append]
      rfl
    · unfold released at hbuf
      split_ifs at hbuf
      · exact absurd hbuf List.not_mem_nil
      · exact (h.sink.sent p hp hack).of_le (by simpa using List.mem_takeWhile_imp hbuf)
  · have hnone : releasedBy e.tsk (.deliver (arrival p id) newIss reads) = [] := if_neg hack
    have hbufs := sendBuf_deliver e.tsk (arrival p id) newIss reads
    rw [hnone, List.length_nil, List.drop_zero] at hbufs
    refine h.acked.next [] ?_ fun buf hbuf => absurd hbuf List.not_mem_nil
    rw [← hbufs]
    rfl

/-- The receiver of the stream does something. -/
theorem Flow.receive (h : Flow st e peer out back) {peer' : EndState}
    (hsink : Sink st (Shut e.tsk.state) peer' (back ++ new))
    (hlen : peer.received.length ≤ peer'.received.length) :
    Flow st e peer' out (back ++ new) :=
  ⟨h.source, hsink, h.acked.grow hlen hsink.length_le⟩

/-- Where the end of a segment, or of the FIN after all of them, is covered, the segment has been
received. -/
theorem bound_le_of_covered {st : Stream} {shut : Prop} {received : List UInt8} {m : ℕ}
    {fin : List UInt32} {n : UInt32} (hmax : received.length ≤ st.total)
    (hfin : fin = [] ∨ fin = [st.pos (st.total + 1)])
    (hn : ((List.range st.segs.length).map (fun j => st.pos (st.bound (j + 1))) ++ fin)[m]? =
      some n) (hcovered : Covered st shut received n) : st.bound (m + 1) ≤ received.length := by
  have hbound := st.bound_le_total (m + 1)
  rcases hcovered with hle | ⟨-, hall, -⟩
  · by_cases hm : m < st.segs.length
    · rw [List.getElem?_append_left (by simpa using hm)] at hn
      have hend : st.pos (st.bound (m + 1)) = n := by simpa [hm] using hn
      rw [← hend, UInt32.le_iff_toNat_le, st.toNat_pos (by omega), st.toNat_pos (by omega)] at hle
      omega
    · rw [List.getElem?_append_right (by simpa using hm)] at hn
      have hmem := List.mem_of_getElem? hn
      rcases hfin with rfl | rfl
      · exact absurd hmem List.not_mem_nil
      · rw [List.mem_singleton.mp hmem, UInt32.le_iff_toNat_le, st.toNat_pos (by omega),
          st.toNat_pos (by omega)] at hle
        omega
  · omega

/-- The segments that are released have been received. -/
theorem Flow.released_received (h : Flow st e peer out back) :
    (e.wrote.take e.released).flatten <+: peer.received := by
  obtain ⟨acked, heq, hcovered⟩ := h.acked
  obtain ⟨fin, hends, hfin⟩ := h.source.ends
  have hcount : e.released = acked.length := by
    have hlen := congrArg List.length heq
    rw [List.length_append, List.length_map, List.length_map] at hlen
    unfold EndState.released
    omega
  have hbound : st.bound acked.length ≤ peer.received.length := by
    rcases List.eq_nil_or_concat acked with rfl | ⟨before, n, rfl⟩
    · simp [Stream.bound]
    · -- The number acknowledged last is the end of this segment or of the FIN.
      have hplace : ((List.range st.segs.length).map (fun j => st.pos (st.bound (j + 1))) ++
          fin)[before.length]? = some n := by
        rw [← hends, heq]
        simp
      have hlast := hcovered n (by simp)
      rw [List.concat_eq_append, List.length_append]
      exact bound_le_of_covered h.sink.length_le (hfin.imp_right And.right) hplace hlast
  rw [hcount, ← h.source.segs, ← st.take_bound,
    List.prefix_iff_eq_take.mp h.sink.prefix_bytes]
  exact List.take_prefix_take_left hbound

end Flow

section Runs

/-- Each end sends a stream to the other. -/
def Duplex.Flows (s : Duplex) : Prop :=
  ∀ x, ∃ st, Flow st (s.ends x) (s.ends x.other) (s.flight x) (s.flight x.other)

theorem Duplex.Opened.flows {s : Duplex} (h : s.Opened) : s.Flows := by
  intro x
  obtain ⟨hstate, hfresh, hhistory, hwrote, -, -, -, hpos, hlt⟩ := h.ends x
  obtain ⟨-, hfreshPeer, -, -, hreceived, hhalted, hofo, -, -⟩ := h.ends x.other
  have hnxt : (s.ends x).tsk.sndNxt - 1 + 1 + UInt32.ofNat 0 = (s.ends x).tsk.sndNxt := by
    have hzero : UInt32.ofNat 0 = 0 := rfl
    rw [hzero]
    grind
  have hisn : ((s.ends x).tsk.sndNxt - 1).toNat = (s.ends x).tsk.sndNxt.toNat - 1 := by
    have hone : (1 : UInt32).toNat = 1 := rfl
    rw [UInt32.toNat_sub_of_le]
    · rw [hone]
    · rw [UInt32.le_iff_toNat_le, hone]
      omega
  have hqueue : QueueInv ⟨(s.ends x).tsk, (s.ends x).history⟩ := by
    rw [hhistory]
    exact queueInv_fresh hfresh
  have hsent (y : Side) (p : Segment) (hp : p ∈ s.flight y) : False := by
    rw [h.flight y] at hp
    exact absurd hp List.not_mem_nil
  have hkept {e : EndState} (hfresh : Fresh e.tsk) (buf : SendBuffer)
      (hbuf : buf ∈ e.tsk.sendBuf) : False := by
    rw [hfresh.1] at hbuf
    exact absurd hbuf List.not_mem_nil
  refine ⟨⟨(s.ends x).tsk.sndNxt - 1, [], fun seg hseg => absurd hseg List.not_mem_nil, ?_⟩,
    ⟨hwrote.symm, .inl ⟨hstate, hnxt.symm⟩, hqueue, ⟨[], ?_, .inl rfl⟩,
      fun buf hbuf => (hkept hfresh buf hbuf).elim, fun p hp => (hsent x p hp).elim⟩,
    ⟨?_, ?_, fun _ => ⟨[], .inl ?_, hofo, ⟨.nil, by simp⟩⟩,
      fun buf hbuf => (hkept hfreshPeer buf hbuf).elim, fun p hp => (hsent x.other p hp).elim⟩,
    ⟨[], ?_, fun n hn => absurd hn List.not_mem_nil⟩⟩
  · rw [hisn]
    simp only [List.flatten_nil, List.length_nil]
    omega
  · rw [hhistory]
    rfl
  · rw [hreceived]
    exact List.nil_prefix
  · simp [hhalted]
  · rw [hreceived, h.agree x]
    exact hnxt.symm
  · rw [hhistory, hfresh.1]
    rfl

/-- Whatever one end does, both streams stay on their way. -/
theorem flow_step {st st' : Stream} {e peer e' : EndState} {out back new : List Segment}
    {ev : EndEvent} (hsend : Flow st e peer out back) (hrecv : Flow st' peer e back out)
    (harrives : Arrives back ev)
    (hwrite : ∀ data, ev = .write data →
      e.tsk.state = .established ∧ e.tsk.sndNxt.toNat + data.length + 1 < 2 ^ 32)
    (htimely : ∀ p id newIss reads, ev = .deliver p id newIss reads →
      if p.flags &&& tcpPsh = 0 then p.seq = e.tsk.rcvNxt
      else e.tsk.rcvNxt < p.seq →
        ∀ first ∈ e.tsk.rcvOfoBuf.entries.head?, first.seq ≤ p.seq)
    (hstep : e.step ev = some (e', new)) :
    (∃ st₁, Flow st₁ e' peer (out ++ new) back) ∧
      ∃ st₁, Flow st₁ peer e' back (out ++ new) := by
  have hunmoved (hsame : Unmoved e e' new) : ∃ st₁, Flow st₁ peer e' back (out ++ new) :=
    ⟨st', hrecv.receive (hrecv.sink.unmoved hsame) (by rw [hsame.received])⟩
  cases ev with
  | write data =>
    simp only [EndState.step] at hstep
    split_ifs at hstep with hmss
    obtain ⟨rfl, rfl⟩ := Prod.mk.inj (Option.some.inj hstep)
    obtain ⟨hopen, hwrap⟩ := hwrite data rfl
    exact ⟨hsend.write hopen hmss hwrap, hunmoved (unmoved_write e data _ _)⟩
  | close =>
    obtain ⟨rfl, rfl⟩ := Prod.mk.inj (Option.some.inj hstep)
    exact ⟨⟨st, hsend.close⟩, hunmoved (unmoved_close e _)⟩
  | scan =>
    obtain ⟨rfl, rfl⟩ := Prod.mk.inj (Option.some.inj hstep)
    exact ⟨⟨st, hsend.scan⟩, hunmoved (unmoved_scan e)⟩
  | read len =>
    obtain ⟨rfl, rfl⟩ := Prod.mk.inj (Option.some.inj hstep)
    have hflow : Flow st { e with tsk := e.tsk.read len } peer out back :=
      hsend.of_same rfl rfl rfl rfl rfl
    rw [List.append_nil] at hunmoved ⊢
    exact ⟨⟨st, hflow⟩, hunmoved (unmoved_of_same rfl rfl rfl)⟩
  | sleep readSleep sendSleep =>
    obtain ⟨rfl, rfl⟩ := Prod.mk.inj (Option.some.inj hstep)
    have hflow : Flow st { e with
        tsk := { e.tsk with readSleep := readSleep, sendSleep := sendSleep } } peer out back :=
      hsend.of_same rfl rfl rfl rfl rfl
    rw [List.append_nil] at hunmoved ⊢
    exact ⟨⟨st, hflow⟩, hunmoved (unmoved_of_same rfl rfl rfl)⟩
  | deliver p id newIss reads =>
    simp only [EndState.step] at hstep
    split_ifs at hstep with hcan
    obtain ⟨rfl, rfl⟩ := Prod.mk.inj (Option.some.inj hstep)
    have hp := hrecv.source.sent p harrives
    have htaken : Taken st' (Shut peer.tsk.state) e p.flags
        (tcpProcess e.tsk (arrival p id) newIss reads) := by
      have hseq := htimely p id newIss reads rfl
      split_ifs at hseq with hpsh
      · exact hrecv.sink.taken_control hcan hp hpsh hseq id newIss reads
      · exact hrecv.sink.taken_data hcan hp hpsh hseq id newIss reads
    have hflags : p.flags = tcpPsh ∨ Closes p.flags := by
      cases hp with
      | data j hflag => exact .inl hflag
      | ack hflag => exact .inr (.inr (.inl hflag))
      | fin _ hflag => exact .inr (hflag.elim .inl fun h => .inr (.inr h))
    have hemits := htaken.emits.imp fun nxt h => h.1
    refine ⟨⟨st, hsend.deliver harrives id newIss reads hflags hemits⟩,
      ⟨st', hrecv.receive (hrecv.sink.take htaken _) ?_⟩⟩
    simp [EndState.after]

theorem Duplex.Flows.step {s t : Duplex} {e : Side × EndEvent} (h : s.Flows) (hok : Timely s e)
    (hstep : s.step e = some t) : t.Flows := by
  obtain ⟨x, ev⟩ := e
  simp only [Duplex.step] at hstep
  split_ifs at hstep with harrives
  obtain ⟨r, hr, rfl⟩ := Option.map_eq_some_iff.mp hstep
  obtain ⟨st, hsend⟩ := h x
  obtain ⟨st', hrecv⟩ := h x.other
  rw [Side.other_other] at hrecv
  obtain ⟨hout, hin⟩ := flow_step hsend hrecv harrives
    (fun data heq => by
      subst heq
      exact hok)
    (fun p id newIss reads heq => by
      subst heq
      exact hok) hr
  intro y
  rcases Side.eq_or_other x y with rfl | rfl
  · simpa using hout
  · simpa using hin

/-- However packets are lost, repeated and reordered: what has come into an end's ring buffer is a
prefix of what the other end's application wrote, it has at least all segments that are no longer
kept for retransmission, and no call touches freed memory. -/
theorem transfer_reliable {s : Duplex} (h : Reaches Duplex.step Timely Duplex.Opened s) (x : Side) :
    (s.ends x.other).received <+: (s.ends x).wrote.flatten ∧
      ((s.ends x).wrote.take (s.ends x).released).flatten <+: (s.ends x.other).received ∧
      (s.ends x.other).halted ≠ some .undefined := by
  have hflows := h.invariant Duplex.Flows (fun s hs => hs.flows)
    fun s e t hs hok hstep => hs.step hok hstep
  obtain ⟨st, hflow⟩ := hflows x
  refine ⟨?_, hflow.released_received, hflow.sink.defined⟩
  rw [← hflow.source.segs]
  exact hflow.sink.prefix_bytes

end Runs

section Instance

instance (s : Duplex) : (e : Side × EndEvent) → Decidable (Timely s e)
  | (_, .write _) => inferInstanceAs (Decidable (_ ∧ _))
  | (x, .deliver p _ _ _) => inferInstanceAs (Decidable (
    if p.flags &&& tcpPsh = 0 then p.seq = (s.ends x).tsk.rcvNxt
    else (s.ends x).tsk.rcvNxt < p.seq →
      ∀ first ∈ (s.ends x).tsk.rcvOfoBuf.entries.head?, first.seq ≤ p.seq))
  | (_, .close) | (_, .scan) | (_, .read _) | (_, .sleep _ _) => isTrue trivial

def openedEnd (snd rcv : UInt32) : EndState where
  tsk := { allocTcpSock with state := .established, sndUna := snd, sndNxt := snd, rcvNxt := rcv }
  history := []
  wrote := []
  received := []
  halted := none

/-- The near end has `100` as its next number and the far end `500`. -/
def greeted : Duplex where
  ends x := if x = .near then openedEnd 100 500 else openedEnd 500 100
  flight _ := []

theorem greeted_opened : greeted.Opened := by
  have hends (snd rcv : UInt32) (hpos : 0 < snd.toNat) (hlt : snd.toNat + 1 < 2 ^ 32) :
      (openedEnd snd rcv).Opened := ⟨rfl, ⟨rfl, rfl⟩, rfl, rfl, rfl, rfl, rfl, hpos, hlt⟩
  refine ⟨fun x => ?_, fun x => ?_, fun _ => rfl⟩
  · cases x with
    | near => exact hends 100 500 (by decide) (by decide)
    | far => exact hends 500 100 (by decide) (by decide)
  · cases x <;> rfl

def dataOf (seq : UInt32) (data : List UInt8) : Segment :=
  ⟨0, 0, 0, 0, seq, 500, tcpPsh, 65535, data⟩

/-- The second of three segments arrives before the first, the ACK of the two releases them, the
third is lost and sent again when its timer runs out, and the FIN comes last. -/
def lossyEvents : List (Side × EndEvent) :=
  [(.near, .write [1, 2]), (.near, .write [3]), (.near, .write [4, 5]),
    (.far, .deliver (dataOf 102 [3]) 0 0 []), (.far, .deliver (dataOf 100 [1, 2]) 0 0 []),
    (.near, .deliver ⟨0, 0, 0, 0, 500, 103, tcpAck, 65532, []⟩ 0 0 [])] ++
  List.replicate 20 (.near, .scan) ++
  [(.far, .deliver (dataOf 103 [4, 5]) 0 0 []), (.near, .close),
    (.far, .deliver { dataOf 105 [] with flags := tcpFin } 0 0 [])]

theorem transfer_reliable_lossy : ∃ s, Reaches Duplex.step Timely Duplex.Opened s ∧
    ((s.ends .far).received = [1, 2, 3, 4, 5] ∧ (s.ends .near).released = 2 ∧
      (s.ends .far).tsk.state = .lastAck) ∧
    (s.ends .far).received <+: (s.ends .near).wrote.flatten ∧
      ((s.ends .near).wrote.take (s.ends .near).released).flatten <+: (s.ends .far).received ∧
      (s.ends .far).halted ≠ some .undefined := by
  have hrun : ∃ s, Reaches Duplex.step Timely Duplex.Opened s ∧
      ((s.ends .far).received = [1, 2, 3, 4, 5] ∧ (s.ends .near).released = 2 ∧
        (s.ends .far).tsk.state = .lastAck) :=
    exists_of_exec greeted_opened lossyEvents
      (fun s => (s.ends .far).received = [1, 2, 3, 4, 5] ∧ (s.ends .near).released = 2 ∧
        (s.ends .far).tsk.state = .lastAck) (by decide +kernel)
  obtain ⟨s, hs, hend⟩ := hrun
  exact ⟨s, hs, hend, transfer_reliable hs .near⟩

end Instance

end NetworkLab.Tcp
