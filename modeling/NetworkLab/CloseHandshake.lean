import NetworkLab.SendQueue

/-!
# Closing a connection from both ends

Two sockets are connected by a channel in each direction that loses nothing and keeps
the order. Each of them may be closed at any time, and the timer may send any segment of
`send_buf` again.
-/
namespace NetworkLab.Tcp
open GuardedRuns

section Sent

/-- The packets that a call sends, in order. -/
def sentPackets (actions : List Action) : List Segment :=
  actions.filterMap fun a => match a with
    | .ipSendPacket packet => some packet
    | _ => none

theorem mem_sentPackets {actions : List Action} {packet : Segment} :
    packet ∈ sentPackets actions ↔ .ipSendPacket packet ∈ actions := by
  unfold sentPackets
  rw [List.mem_filterMap]
  constructor
  · rintro ⟨a, ha, heq⟩
    cases a <;> simp at heq
    exact heq ▸ ha
  · exact fun h => ⟨_, h, rfl⟩

/-- What is queued and what has been sent both come from the entries `bufs`. -/
structure FromQueue (bufs : List SendBuffer) (run : Run) : Prop where
  queue : ∀ buf ∈ run.tsk.sendBuf, buf ∈ bufs
  sent : ∀ packet, .ipSendPacket packet ∈ run.actions → ∃ buf ∈ bufs, buf.packet = packet

variable {bufs : List SendBuffer} {run : Run}

theorem FromQueue.update (h : FromQueue bufs run) {f : TcpSock → TcpSock}
    (hf : ∀ buf ∈ (f run.tsk).sendBuf, buf ∈ run.tsk.sendBuf) : FromQueue bufs (run.update f) :=
  ⟨fun buf hbuf => h.queue buf (hf buf hbuf), h.sent⟩

theorem FromQueue.act (h : FromQueue bufs run) {a : Action}
    (ha : ∀ packet, a ≠ .ipSendPacket packet) : FromQueue bufs (run.act a) := by
  refine ⟨h.queue, fun packet hmem => h.sent packet ?_⟩
  rcases List.mem_append.mp hmem with hold | hnew
  · exact hold
  · exact absurd (List.mem_singleton.mp hnew).symm (ha packet)

theorem FromQueue.send (h : FromQueue bufs run) {buf : SendBuffer} {rest : List SendBuffer}
    (hbuf : run.tsk.sendBuf = buf :: rest) :
    FromQueue bufs (run.act (.ipSendPacket buf.packet)) := by
  refine ⟨h.queue, fun packet hmem => ?_⟩
  rcases List.mem_append.mp hmem with hold | hnew
  · exact h.sent packet hold
  · cases List.mem_singleton.mp hnew
    exact ⟨buf, h.queue buf (hbuf ▸ List.mem_cons_self), rfl⟩

theorem FromQueue.retransmitFirst (h : FromQueue bufs run) :
    FromQueue bufs (retransmitFirst run) := by
  unfold Tcp.retransmitFirst
  split
  next buf rest hbuf => exact h.send hbuf
  next => exact h.act nofun

theorem FromQueue.enterRecovery (h : FromQueue bufs run) : FromQueue bufs (enterRecovery run) := by
  have henter : FromQueue bufs (run.update fun tsk => { tsk with
      cgtState := .rcvr, ssthresh := (tsk.cwnd + 1) / 2, recoveryPoint := tsk.sndNxt }) :=
    h.update fun _ => id
  unfold Tcp.enterRecovery
  simp only
  split
  next buf rest hbuf => exact henter.send hbuf
  next => exact henter

theorem FromQueue.ackRepeated (h : FromQueue bufs run) : FromQueue bufs (ackRepeated run) := by
  have hcount : FromQueue bufs run.countAck := h.update fun _ => id
  have hdeflate {r : Run} (hr : FromQueue bufs r) : FromQueue bufs (r.update deflate) := by
    apply hr.update
    intro buf
    unfold deflate
    split_ifs <;> exact id
  unfold Tcp.ackRepeated
  split
  · split_ifs
    · exact hdeflate hcount.enterRecovery
    · exact hcount
  · exact hdeflate hcount
  · exact hcount

theorem FromQueue.leaveRecovery (h : FromQueue bufs run) (ack : UInt32) :
    FromQueue bufs (leaveRecovery run ack) := by
  have hopen : FromQueue bufs (run.update fun tsk => { tsk with cgtState := .opn }) :=
    h.update fun _ => id
  unfold Tcp.leaveRecovery
  split
  · split_ifs
    · exact hopen
    · exact h.retransmitFirst
  · split_ifs
    · exact hopen
    · exact h
  · exact h

theorem FromQueue.ackNew (h : FromQueue bufs run) (ack : UInt32) :
    FromQueue bufs (ackNew run ack) := by
  have hsame : { run.tsk with repAck := 0 }.sendBuf = run.tsk.sendBuf := rfl
  refine FromQueue.leaveRecovery (h.update fun buf hbuf => ?_) ack
  have hsplit := (popAcked_pops ack run.tsk.sendBuf hsame).sendBuf
  rw [hsame] at hsplit
  rw [hsplit]
  exact List.mem_append_right _ hbuf

theorem FromQueue.countedAck (h : FromQueue bufs run) (ack : UInt32) :
    FromQueue bufs (countedAck run ack) := by
  unfold Tcp.countedAck
  split_ifs
  · exact h.ackRepeated
  · exact h.ackNew ack

theorem FromQueue.processAck (h : FromQueue bufs run) (cb : TcpCb) :
    FromQueue bufs (processAck run cb) := by
  have hwindow {r : Run} (hr : FromQueue bufs r) : FromQueue bufs (tcpUpdateWindowSafe r cb) := by
    unfold tcpUpdateWindowSafe tcpUpdateWindow
    simp only
    split_ifs
    · exact (hr.update fun _ => id).act nofun
    · exact hr.update fun _ => id
    · exact hr
  simp only [Tcp.processAck]
  split_ifs
  · exact h.countedAck cb.ack
  · exact hwindow (h.countedAck cb.ack)

end Sent

section Answer

/-- Flags of the packet with which a socket answers a FIN. -/
def answer (state : TcpState) (flags : UInt8) : Option UInt8 :=
  if flags = tcpFin then
    match state with
    | .established => some (tcpAck ||| tcpFin)
    | .finWait2 => some tcpAck
    | _ => none
  else if flags = tcpAck ||| tcpFin ∧ state = .finWait1 then some tcpAck
  else none

/-- Flags of the packets of a close. -/
def Closes (flags : UInt8) : Prop := flags = tcpFin ∨ flags = tcpAck ∨ flags = tcpAck ||| tcpFin

/-- How a packet of a close is processed: the socket keeps entries of its queue and adds
one for its own FIN, and it sends entries again beside its answer. -/
structure Handled (tsk : TcpSock) (flags : UInt8) (run : Run) : Prop where
  state : run.tsk.state = nextState tsk.state flags
  queue : ∀ buf ∈ run.tsk.sendBuf, buf ∈ tsk.sendBuf ∨
    flags = tcpFin ∧ tsk.state = .established ∧ buf.packet.flags = tcpAck ||| tcpFin
  sent : ∀ packet ∈ sentPackets run.actions, (∃ buf ∈ tsk.sendBuf, buf.packet = packet) ∨
    some packet.flags = answer tsk.state flags
  answered : ∀ f ∈ answer tsk.state flags, ∃ packet ∈ sentPackets run.actions, packet.flags = f

theorem handled_of_fromQueue {tsk : TcpSock} {flags : UInt8} {run : Run}
    (h : FromQueue tsk.sendBuf run) (hstate : run.tsk.state = nextState tsk.state flags)
    (hnone : answer tsk.state flags = none) : Handled tsk flags run := by
  refine ⟨hstate, fun buf hbuf => .inl (h.queue buf hbuf), fun packet hmem => .inl ?_, ?_⟩
  · exact h.sent packet (mem_sentPackets.mp hmem)
  · rw [hnone]
    exact nofun

/-- The answer is sent last. -/
theorem handled_of_answer {tsk : TcpSock} {flags : UInt8} {run run' : Run} (packet : Segment)
    (h : FromQueue tsk.sendBuf run) (hstate : run'.tsk.state = nextState tsk.state flags)
    (hqueue : ∀ buf ∈ run'.tsk.sendBuf, buf ∈ run.tsk.sendBuf ∨
      flags = tcpFin ∧ tsk.state = .established ∧ buf.packet.flags = tcpAck ||| tcpFin)
    (hactions : run'.actions = run.actions ++ [.ipSendPacket packet, .setTimewaitTimer])
    (hanswer : answer tsk.state flags = some packet.flags) : Handled tsk flags run' := by
  refine ⟨hstate, fun buf hbuf => ?_, fun p hmem => ?_, fun f hf => ?_⟩
  · exact (hqueue buf hbuf).imp_left (h.queue buf)
  · rw [mem_sentPackets, hactions] at hmem
    rcases List.mem_append.mp hmem with hold | hnew
    · exact .inl (h.sent p hold)
    · obtain rfl : p = packet := by simpa using hnew
      exact .inr hanswer.symm
  · obtain rfl : packet.flags = f := Option.some.inj (hanswer.symm.trans hf)
    refine ⟨packet, mem_sentPackets.mpr ?_, rfl⟩
    rw [hactions]
    exact List.mem_append_right _ List.mem_cons_self

/-- The FIN of the peer is acknowledged, and the socket waits. -/
theorem handled_timeWait {tsk : TcpSock} {flags : UInt8} {run : Run}
    (h : FromQueue tsk.sendBuf run) (hnext : nextState tsk.state flags = .timeWait)
    (hanswer : answer tsk.state flags = some tcpAck) : Handled tsk flags
      ((tcpSendControlPacket (run.setState .timeWait) tcpAck).act .setTimewaitTimer) := by
  refine handled_of_answer (controlPacket (run.setState .timeWait).tsk tcpAck) h hnext.symm
    (fun buf hbuf => .inl hbuf) ?_ hanswer
  exact List.append_assoc _ _ _

theorem fromQueue_entered (tsk : TcpSock) (cb : TcpCb) (reads : List ℕ) :
    FromQueue tsk.sendBuf (entered tsk cb reads) := by
  have hstart : FromQueue tsk.sendBuf ⟨updateRcvNxt tsk cb, reads, []⟩ := by
    obtain ⟨_, _, _, _, hrecv⟩ := receiveFrame_updateRcvNxt tsk cb
    refine ⟨fun buf hbuf => ?_, nofun⟩
    rw [hrecv] at hbuf
    exact hbuf
  unfold entered
  simp only
  split_ifs
  · exact hstart.processAck cb
  · exact hstart

theorem handled_processFin {tsk : TcpSock} {run : Run} (h : FromQueue tsk.sendBuf run)
    (hstate : run.tsk.state = tsk.state) : Handled tsk tcpFin (processFin run) := by
  have hanswer (state : TcpState) : answer state tcpFin = match state with
      | .established => some (tcpAck ||| tcpFin)
      | .finWait2 => some tcpAck
      | _ => none := rfl
  unfold processFin
  rw [hstate]
  cases hs : tsk.state with
  | established =>
    refine handled_of_answer (controlPacket (run.setState .lastAck).tsk (tcpAck ||| tcpFin))
      h ?_ (fun buf hbuf => ?_) ?_ ?_
    · rw [hs]
      rfl
    · rcases List.mem_append.mp hbuf with hold | hnew
      · exact .inl hold
      · rw [List.mem_singleton.mp hnew]
        exact .inr ⟨rfl, hs, rfl⟩
    · exact List.append_assoc _ _ _
    · rw [hs]
      rfl
  | finWait2 =>
    refine handled_timeWait h ?_ ?_
    · rw [hs]
      rfl
    · rw [hs]
      rfl
  | closed | listen | synRecv | synSent | closeWait | lastAck | finWait1 | closing | timeWait =>
    refine handled_of_fromQueue h ?_ ?_
    · rw [hstate, hs]
      rfl
    · rw [hs]
      rfl

theorem handled_processAckFin {tsk : TcpSock} {run : Run} (h : FromQueue tsk.sendBuf run)
    (hstate : run.tsk.state = tsk.state) : Handled tsk (tcpAck ||| tcpFin) (processAckFin run) := by
  have hnext (state : TcpState) : nextState state (tcpAck ||| tcpFin) =
      if state = .finWait1 then .timeWait else state := rfl
  unfold processAckFin
  rw [hstate]
  by_cases hs : tsk.state = .finWait1
  · rw [if_pos hs]
    refine handled_timeWait h ?_ ?_
    · rw [hs]
      rfl
    · rw [hs]
      rfl
  · rw [if_neg hs]
    refine handled_of_fromQueue h ?_ ?_
    · rw [hstate, hnext, if_neg hs]
    · have hne : tcpAck ||| tcpFin ≠ tcpFin := by decide
      unfold answer
      rw [if_neg hne, if_neg fun hboth => hs hboth.2]

theorem handled_processPureAck {tsk : TcpSock} {run : Run} (h : FromQueue tsk.sendBuf run)
    (hstate : run.tsk.state = tsk.state) : Handled tsk tcpAck (processPureAck run) := by
  have hset {r : Run} (hr : FromQueue tsk.sendBuf r) (state : TcpState) :
      FromQueue tsk.sendBuf (r.setState state) := hr.update fun _ => id
  refine handled_of_fromQueue ?_ ?_ rfl
  · unfold processPureAck
    split
    · exact hset ((h.act (a := .acceptEnqueue) nofun).act (a := .wakeUp .parentAccept) nofun) _
    · split_ifs
      · exact h.act nofun
      · exact h
    · exact hset h _
    · simp only
      split_ifs
      · exact (hset h _).act nofun
      · exact ((hset h _).act (a := .bindUnhash) nofun).act nofun
    · exact h
  · rw [(processPureAck_marks run).1, hstate]

theorem not_lost_of_ok {tsk : TcpSock} {cb : TcpCb} {newIss : UInt32} {reads : List ℕ} {run : Run}
    (hrun : tcpProcess tsk cb newIss reads = .ok run) : ¬(entered tsk cb reads).Lost := by
  intro hlost
  rw [tcpProcess_of_lost tsk cb newIss reads hlost] at hrun
  cases hrun

/-- A call that returns has handled a packet of a close so. -/
theorem tcpProcess_handled {tsk : TcpSock} {cb : TcpCb} {newIss : UInt32} {reads : List ℕ}
    {run : Run} (h : Closes cb.flags) (hrun : tcpProcess tsk cb newIss reads = .ok run) :
    Handled tsk cb.flags run := by
  have hqueue := fromQueue_entered tsk cb reads
  have hstate := (entered_fields tsk cb reads).1
  rw [tcpProcess_of_not_lost tsk cb newIss reads (not_lost_of_ok hrun), processFlags] at hrun
  rcases h with h | h | h
  · rw [h] at hrun
    obtain rfl : processFin (entered tsk cb reads) = run := Except.ok.inj hrun
    exact h ▸ handled_processFin hqueue hstate
  · rw [h] at hrun
    obtain rfl : processPureAck (entered tsk cb reads) = run := Except.ok.inj hrun
    exact h ▸ handled_processPureAck hqueue hstate
  · rw [h] at hrun
    obtain rfl : processAckFin (entered tsk cb reads) = run := Except.ok.inj hrun
    exact h ▸ handled_processAckFin hqueue hstate

end Answer

section Link

/-- One of the two ends. -/
inductive Side
  | near
  | far
  deriving DecidableEq

def Side.other : Side → Side
  | .near => .far
  | .far => .near

@[simp] theorem Side.other_other (p : Side) : p.other.other = p := by cases p <;> rfl

@[simp] theorem Side.other_ne (p : Side) : p.other ≠ p := by cases p <;> decide

theorem Side.eq_or_other (p q : Side) : q = p ∨ q = p.other := by
  cases p <;> cases q <;> simp [Side.other]

/-- The IP header around a segment as `ip_init_hdr` fills it; the identification is a random
number. -/
def ipHdrOf (p : Segment) (id : UInt16) : IpHdr where
  version := 4
  ihl := 5
  tos := 0
  totLen := UInt16.ofNat (40 + p.data.length)
  id := id
  fragOff := 0x4000
  ttl := 64
  protocol := ipprotoTcp
  checksum := 0
  saddr := p.saddr
  daddr := p.daddr

/-- The TCP header of a segment as `tcp_init_hdr` fills it. -/
def tcpHdrOf (p : Segment) : TcpHdr where
  sport := p.sport
  dport := p.dport
  seq := p.seq
  ack := p.ack
  off := 5
  flags := p.flags
  rwnd := p.rwnd
  checksum := 0
  urp := 0

/-- What the receiver takes from the headers. -/
def arrival (p : Segment) (id : UInt16) : TcpCb := tcpCbInit (ipHdrOf p id) (tcpHdrOf p) p.data

/-- The two sockets, the packets under way from each side in order, and whether
`tcp_sock_close` has been called. -/
structure Link where
  sock : Side → TcpSock
  chan : Side → List Segment
  closing : Bool

inductive LinkEvent
  | close (p : Side)
  | deliver (p : Side) (id : UInt16) (newIss : UInt32) (reads : List ℕ)
  | retransmit (p : Side) (i : ℕ)

/-- The side has its socket changed and sends packets. -/
def Link.after (s : Link) (p : Side) (tsk : TcpSock) (packets : List Segment) : Link :=
  { s with
    sock := Function.update s.sock p tsk
    chan := Function.update s.chan p (s.chan p ++ packets) }

/-- The timer of one entry runs out; every third time the entry is not sent. -/
def timeoutEntry (tsk : TcpSock) (i : ℕ) (buf : SendBuffer) : TcpSock × List Segment :=
  ({ enterLoss tsk with sendBuf := tsk.sendBuf.set i buf.restart },
    if buf.times = 3 then [] else [buf.packet])

/-- `deliver` takes the packet that is first on its way to the side. A call that copies
through the list head of an empty `send_buf` has no defined result. -/
def Link.step (s : Link) : LinkEvent → Option Link
  | .close p =>
    let run := tcpSockClose ⟨s.sock p, [], []⟩
    some { s.after p run.tsk (sentPackets run.actions) with closing := true }
  | .deliver p id newIss reads =>
    match s.chan p.other with
    | [] => none
    | packet :: rest =>
      match tcpProcess (s.sock p) (arrival packet id) newIss reads with
      | .ok run =>
        some ({ s with chan := Function.update s.chan p.other rest }.after p run.tsk
          (sentPackets run.actions))
      | .error _ => none
  | .retransmit p i =>
    (s.sock p).sendBuf[i]?.map fun buf =>
      s.after p (timeoutEntry (s.sock p) i buf).1 (timeoutEntry (s.sock p) i buf).2

/-- Both ends are established and nothing is under way. -/
structure Connected (s : Link) : Prop where
  state : ∀ p, (s.sock p).state = .established
  sendBuf : ∀ p, (s.sock p).sendBuf = []
  chan : ∀ p, s.chan p = []
  closing : s.closing = false

/-- Nothing is under way, and no segment that is sent again changes a state. -/
structure Stalled (s : Link) : Prop where
  chan : ∀ p, s.chan p = []
  inert : ∀ p, ∀ buf ∈ (s.sock p).sendBuf, ∀ id newIss reads,
    (tcpProcess (s.sock p.other) (arrival buf.packet id) newIss reads).last.tsk.state =
      (s.sock p.other).state

/-- An established socket is not closed while the other end is in `FIN_WAIT_1`. -/
def OneSided (s : Link) : LinkEvent → Prop
  | .close p => (s.sock p).state = .established → (s.sock p.other).state ≠ .finWait1
  | _ => True

end Link

section Stages

/-- What is queued and under way once `tsk` has closed before `peer`: `out` goes to the
peer and `back` comes from it. -/
structure Traffic (tsk peer : TcpSock) (out back : List Segment) : Prop where
  queued : ∀ buf ∈ tsk.sendBuf, buf.packet.flags = tcpFin
  queuedPeer : ∀ buf ∈ peer.sendBuf, buf.packet.flags = tcpAck ||| tcpFin
  out : ∀ packet ∈ out, packet.flags = tcpFin ∨ packet.flags = tcpAck
  back : ∀ packet ∈ back, packet.flags = tcpAck ||| tcpFin

/-- How far the close has come. While it is not finished a packet is under way that takes
it to the next stage. -/
inductive Stage (tsk peer : TcpSock) (out back : List Segment) : Prop
  | opened : tsk.state = .finWait1 → peer.state = .established → peer.sendBuf = [] →
      out ≠ [] → (∀ packet ∈ out, packet.flags = tcpFin) → back = [] → Stage tsk peer out back
  | answered : tsk.state = .finWait1 → peer.state = .lastAck →
      (∀ packet ∈ out, packet.flags = tcpFin) → back ≠ [] → Stage tsk peer out back
  | confirmed : tsk.state = .timeWait → peer.state = .lastAck →
      (∃ packet ∈ out, packet.flags = tcpAck) → Stage tsk peer out back
  | finished : tsk.state = .timeWait → peer.state = .closed → Stage tsk peer out back

variable {tsk peer : TcpSock} {out back : List Segment} {packet : Segment} {run : Run}

/-- The side that closed first gets a packet. -/
theorem Traffic.receive (h : Traffic tsk peer out (packet :: back))
    (hrun : Handled tsk packet.flags run) :
    Traffic run.tsk peer (out ++ sentPackets run.actions) back := by
  have hflags := h.back packet List.mem_cons_self
  have hne : packet.flags ≠ tcpFin := by rw [hflags]; decide
  refine ⟨fun buf hbuf => ?_, h.queuedPeer, fun p hp => ?_,
    fun p hp => h.back p (List.mem_cons_of_mem _ hp)⟩
  · exact (hrun.queue buf hbuf).elim (h.queued buf) fun hfin => absurd hfin.1 hne
  · rcases List.mem_append.mp hp with hold | hnew
    · exact h.out p hold
    · rcases hrun.sent p hnew with ⟨buf, hbuf, rfl⟩ | hanswer
      · exact .inl (h.queued buf hbuf)
      · unfold answer at hanswer
        rw [if_neg hne] at hanswer
        split_ifs at hanswer
        exact .inr (Option.some.inj hanswer)

theorem Stage.receive (h : Stage tsk peer out (packet :: back))
    (hflags : packet.flags = tcpAck ||| tcpFin) (hrun : Handled tsk packet.flags run) :
    Stage run.tsk peer (out ++ sentPackets run.actions) back := by
  have hstate := hrun.state
  rw [hflags] at hstate
  cases h with
  | opened _ _ _ _ _ hback => cases hback
  | answered htsk hpeer =>
    rw [htsk] at hstate
    refine .confirmed hstate hpeer ?_
    obtain ⟨p, hp, hack⟩ := hrun.answered tcpAck (by rw [hflags, htsk]; rfl)
    exact ⟨p, List.mem_append_right _ hp, hack⟩
  | confirmed htsk hpeer hack =>
    rw [htsk] at hstate
    obtain ⟨p, hp, hflag⟩ := hack
    exact .confirmed hstate hpeer ⟨p, List.mem_append_left _ hp, hflag⟩
  | finished htsk hpeer =>
    rw [htsk] at hstate
    exact .finished hstate hpeer

/-- The other side gets a packet; it never waits in `FIN_WAIT_2`. -/
theorem Traffic.receivePeer (h : Traffic tsk peer (packet :: out) back)
    (hwait : peer.state ≠ .finWait2) (hrun : Handled peer packet.flags run) :
    Traffic tsk run.tsk out (back ++ sentPackets run.actions) := by
  have hflags := h.out packet List.mem_cons_self
  have hackfin : tcpAck ≠ tcpAck ||| tcpFin := by decide
  have hne : tcpAck ≠ tcpFin := by decide
  refine ⟨h.queued, fun buf hbuf => ?_, fun p hp => h.out p (List.mem_cons_of_mem _ hp),
    fun p hp => ?_⟩
  · exact (hrun.queue buf hbuf).elim (h.queuedPeer buf) fun hfin => hfin.2.2
  · rcases List.mem_append.mp hp with hold | hnew
    · exact h.back p hold
    · rcases hrun.sent p hnew with ⟨buf, hbuf, rfl⟩ | hanswer
      · exact h.queuedPeer buf hbuf
      · unfold answer at hanswer
        rcases hflags with hfin | hack
        · rw [if_pos hfin] at hanswer
          split at hanswer
          · exact Option.some.inj hanswer
          next hstate => exact absurd hstate hwait
          · cases hanswer
        · rw [hack, if_neg hne, if_neg fun hboth => hackfin hboth.1] at hanswer
          cases hanswer

theorem Stage.receivePeer (h : Stage tsk peer (packet :: out) back)
    (hflags : packet.flags = tcpFin ∨ packet.flags = tcpAck)
    (hrun : Handled peer packet.flags run) :
    Stage tsk run.tsk out (back ++ sentPackets run.actions) := by
  have hstate := hrun.state
  cases h with
  | opened htsk hpeer _ _ hout =>
    have hfin := hout packet List.mem_cons_self
    rw [hfin, hpeer] at hstate
    obtain ⟨p, hp, -⟩ := hrun.answered (tcpAck ||| tcpFin) (by rw [hfin, hpeer]; rfl)
    refine .answered htsk hstate (fun q hq => hout q (List.mem_cons_of_mem _ hq)) ?_
    exact List.ne_nil_of_mem (List.mem_append_right _ hp)
  | answered htsk hpeer hout hback =>
    have hfin := hout packet List.mem_cons_self
    rw [hfin, hpeer] at hstate
    exact .answered htsk hstate (fun q hq => hout q (List.mem_cons_of_mem _ hq))
      (List.append_ne_nil_of_left_ne_nil hback _)
  | confirmed htsk hpeer hack =>
    rw [hpeer] at hstate
    rcases hflags with hfin | hflag
    · rw [hfin] at hstate
      obtain ⟨p, hp, hpack⟩ := hack
      rcases List.mem_cons.mp hp with rfl | hrest
      · rw [hfin] at hpack
        exact absurd hpack (by decide)
      · exact .confirmed htsk hstate ⟨p, hrest, hpack⟩
    · rw [hflag] at hstate
      exact .finished htsk hstate
  | finished htsk hpeer =>
    rw [hpeer] at hstate
    refine .finished htsk (hstate.trans ?_)
    rcases hflags with hflag | hflag <;> rw [hflag] <;> rfl

/-- The timer of an entry changes neither the state nor a packet. -/
theorem timeoutEntry_keeps {i : ℕ} {buf : SendBuffer} (h : tsk.sendBuf[i]? = some buf) :
    (timeoutEntry tsk i buf).1.state = tsk.state ∧
      (∀ b ∈ (timeoutEntry tsk i buf).1.sendBuf, ∃ old ∈ tsk.sendBuf, old.packet = b.packet) ∧
      ∀ p ∈ (timeoutEntry tsk i buf).2, ∃ old ∈ tsk.sendBuf, old.packet = p := by
  have hmem := List.mem_of_getElem? h
  refine ⟨rfl, fun b hb => ?_, fun p hp => ?_⟩
  · rcases List.mem_or_eq_of_mem_set hb with hold | rfl
    · exact ⟨b, hold, rfl⟩
    · refine ⟨buf, hmem, ?_⟩
      unfold SendBuffer.restart
      split_ifs <;> rfl
  · simp only [timeoutEntry] at hp
    split_ifs at hp
    · cases hp
    · exact ⟨buf, hmem, (List.mem_singleton.mp hp).symm⟩

theorem Stage.timeout (h : Stage tsk peer out back) (ht : Traffic tsk peer out back) {i : ℕ}
    {buf : SendBuffer} (hbuf : tsk.sendBuf[i]? = some buf) :
    Traffic (timeoutEntry tsk i buf).1 peer (out ++ (timeoutEntry tsk i buf).2) back ∧
      Stage (timeoutEntry tsk i buf).1 peer (out ++ (timeoutEntry tsk i buf).2) back := by
  obtain ⟨hstate, hqueue, hsent⟩ := timeoutEntry_keeps hbuf
  have hfin : ∀ p ∈ (timeoutEntry tsk i buf).2, p.flags = tcpFin := by
    intro p hp
    obtain ⟨old, hold, rfl⟩ := hsent p hp
    exact ht.queued old hold
  have hboth (hout : ∀ p ∈ out, p.flags = tcpFin) :
      ∀ p ∈ out ++ (timeoutEntry tsk i buf).2, p.flags = tcpFin :=
    fun p hp => (List.mem_append.mp hp).elim (hout p) (hfin p)
  refine ⟨⟨fun b hb => ?_, ht.queuedPeer, fun p hp => ?_, ht.back⟩, ?_⟩
  · obtain ⟨old, hold, heq⟩ := hqueue b hb
    exact heq ▸ ht.queued old hold
  · exact (List.mem_append.mp hp).elim (ht.out p) fun hnew => .inl (hfin p hnew)
  · cases h with
    | opened htsk hpeer hnone hne hout hback =>
      exact .opened (hstate.trans htsk) hpeer hnone (List.append_ne_nil_of_left_ne_nil hne _)
        (hboth hout) hback
    | answered htsk hpeer hout hback => exact .answered (hstate.trans htsk) hpeer (hboth hout) hback
    | confirmed htsk hpeer hack =>
      obtain ⟨p, hp, hflag⟩ := hack
      exact .confirmed (hstate.trans htsk) hpeer ⟨p, List.mem_append_left _ hp, hflag⟩
    | finished htsk hpeer => exact .finished (hstate.trans htsk) hpeer

theorem Stage.timeoutPeer (h : Stage tsk peer out back) (ht : Traffic tsk peer out back) {i : ℕ}
    {buf : SendBuffer} (hbuf : peer.sendBuf[i]? = some buf) :
    Traffic tsk (timeoutEntry peer i buf).1 out (back ++ (timeoutEntry peer i buf).2) ∧
      Stage tsk (timeoutEntry peer i buf).1 out (back ++ (timeoutEntry peer i buf).2) := by
  obtain ⟨hstate, hqueue, hsent⟩ := timeoutEntry_keeps hbuf
  refine ⟨⟨ht.queued, fun b hb => ?_, ht.out, fun p hp => ?_⟩, ?_⟩
  · obtain ⟨old, hold, heq⟩ := hqueue b hb
    exact heq ▸ ht.queuedPeer old hold
  · rcases List.mem_append.mp hp with hold | hnew
    · exact ht.back p hold
    · obtain ⟨old, hold, rfl⟩ := hsent p hnew
      exact ht.queuedPeer old hold
  · cases h with
    | opened htsk hpeer hnone =>
      rw [hnone] at hbuf
      cases hbuf
    | answered htsk hpeer hout hback =>
      exact .answered htsk (hstate.trans hpeer) hout (List.append_ne_nil_of_left_ne_nil hback _)
    | confirmed htsk hpeer hack => exact .confirmed htsk (hstate.trans hpeer) hack
    | finished htsk hpeer => exact .finished htsk (hstate.trans hpeer)

end Stages

section Runs

/-- Nobody has closed, or one side has been the first. -/
inductive LinkInv (s : Link) : Prop
  | idle : Connected s → LinkInv s
  | begun (p : Side) : Traffic (s.sock p) (s.sock p.other) (s.chan p) (s.chan p.other) →
      Stage (s.sock p) (s.sock p.other) (s.chan p) (s.chan p.other) → LinkInv s

variable {s t : Link} {p : Side}

theorem deliver_cases {id : UInt16} {newIss : UInt32} {reads : List ℕ}
    (h : s.step (.deliver p id newIss reads) = some t) :
    ∃ packet rest run, s.chan p.other = packet :: rest ∧
      tcpProcess (s.sock p) (arrival packet id) newIss reads = .ok run ∧
      t.sock p = run.tsk ∧ t.sock p.other = s.sock p.other ∧
      t.chan p = s.chan p ++ sentPackets run.actions ∧ t.chan p.other = rest := by
  simp only [Link.step] at h
  split at h
  · cases h
  next packet rest hchan =>
    split at h
    next run hrun =>
      cases h
      refine ⟨packet, rest, run, hchan, hrun, ?_, ?_, ?_, ?_⟩
      · exact Function.update_self ..
      · exact Function.update_of_ne (Side.other_ne p) ..
      · simp only [Link.after, Function.update_self]
        rw [Function.update_of_ne (Side.other_ne p).symm]
      · simp only [Link.after]
        rw [Function.update_of_ne (Side.other_ne p), Function.update_self]
    · cases h

theorem retransmit_cases {i : ℕ} (h : s.step (.retransmit p i) = some t) :
    ∃ buf, (s.sock p).sendBuf[i]? = some buf ∧
      t.sock p = (timeoutEntry (s.sock p) i buf).1 ∧ t.sock p.other = s.sock p.other ∧
      t.chan p = s.chan p ++ (timeoutEntry (s.sock p) i buf).2 ∧
      t.chan p.other = s.chan p.other := by
  obtain ⟨buf, hbuf, rfl⟩ := Option.map_eq_some_iff.mp h
  exact ⟨buf, hbuf, Function.update_self .., Function.update_of_ne (Side.other_ne p) ..,
    Function.update_self .., Function.update_of_ne (Side.other_ne p) ..⟩

/-- A socket that is neither established nor told of the other's FIN ignores the close. -/
theorem close_ignored (hest : (s.sock p).state ≠ .established)
    (hwait : (s.sock p).state ≠ .closeWait) (h : s.step (.close p) = some t) :
    t.sock = s.sock ∧ t.chan = s.chan := by
  have hsame : tcpSockClose ⟨s.sock p, [], []⟩ = ⟨s.sock p, [], []⟩ := by
    unfold tcpSockClose
    split
    next hstate => exact absurd hstate hest
    next hstate => exact absurd hstate hwait
    next => rfl
  simp only [Link.step, hsame, Option.some.injEq] at h
  subst h
  refine ⟨Function.update_eq_self .., ?_⟩
  have hnone : s.chan p ++ sentPackets [] = s.chan p := List.append_nil _
  simp only [Link.after, hnone, Function.update_eq_self]

/-- An established socket sends a FIN when it is closed. -/
theorem close_cases (hest : (s.sock p).state = .established) (h : s.step (.close p) = some t) :
    t.sock p = afterControl { s.sock p with state := .finWait1 } tcpFin ∧
      t.sock p.other = s.sock p.other ∧
      t.chan p = s.chan p ++ [controlPacket { s.sock p with state := .finWait1 } tcpFin] ∧
      t.chan p.other = s.chan p.other := by
  have hrun : tcpSockClose ⟨s.sock p, [], []⟩ =
      tcpSendControlPacket (Run.setState ⟨s.sock p, [], []⟩ .finWait1) tcpFin := by
    simp only [tcpSockClose, hest]
  simp only [Link.step, hrun, Option.some.injEq] at h
  subst h
  exact ⟨Function.update_self .., Function.update_of_ne (Side.other_ne p) ..,
    Function.update_self .., Function.update_of_ne (Side.other_ne p) ..⟩

theorem close_idle (hs : Connected s) (h : s.step (.close p) = some t) : LinkInv t := by
  obtain ⟨hsock, hpeer, hout, hback⟩ := close_cases (hs.state p) h
  have hqueue : (t.sock p).sendBuf =
      [⟨controlPacket { s.sock p with state := .finWait1 } tcpFin, 54, (s.sock p).sndNxt + 1, 1,
        tcpRetransIntervalInitial, 0⟩] := by
    rw [hsock]
    exact congrArg (· ++ _) (hs.sendBuf p)
  have hnone : (t.sock p.other).sendBuf = [] := by rw [hpeer, hs.sendBuf]
  rw [hs.chan p, List.nil_append] at hout
  rw [hs.chan p.other] at hback
  have hfin : ∀ packet ∈ t.chan p, packet.flags = tcpFin := by
    intro packet hmem
    rw [hout] at hmem
    rw [List.mem_singleton.mp hmem]
    rfl
  refine .begun p ⟨fun buf hbuf => ?_, ?_, fun packet hmem => .inl (hfin packet hmem), ?_⟩
    (.opened ?_ ?_ hnone ?_ hfin hback)
  · rw [hqueue] at hbuf
    rw [List.mem_singleton.mp hbuf]
    rfl
  · rw [hnone]
    exact nofun
  · rw [hback]
    exact nofun
  · rw [hsock]
    rfl
  · rw [hpeer, hs.state]
  · rw [hout]
    exact List.cons_ne_nil _ _

theorem Stage.states {tsk peer : TcpSock} {out back : List Segment}
    (h : Stage tsk peer out back) :
    tsk.state ≠ .established ∧ tsk.state ≠ .closeWait ∧ peer.state ≠ .closeWait ∧
      peer.state ≠ .finWait2 ∧ (peer.state = .established → tsk.state = .finWait1) := by
  cases h with
  | opened htsk hpeer | answered htsk hpeer | confirmed htsk hpeer | finished htsk hpeer =>
    rw [htsk, hpeer]
    decide

/-- Every step takes the close from one stage to the same or the next. -/
theorem LinkInv.step {e : LinkEvent} (h : LinkInv s) (hok : OneSided s e)
    (hstep : s.step e = some t) : LinkInv t := by
  cases h with
  | idle hs =>
    cases e with
    | close p => exact close_idle hs hstep
    | deliver p id newIss reads =>
      obtain ⟨packet, rest, run, hchan, -⟩ := deliver_cases hstep
      rw [hs.chan] at hchan
      cases hchan
    | retransmit p i =>
      obtain ⟨buf, hbuf, -⟩ := retransmit_cases hstep
      rw [hs.sendBuf] at hbuf
      cases hbuf
  | begun p ht hs =>
    obtain ⟨hest, hwait, hwaitPeer, hwait2, hfirst⟩ := hs.states
    cases e with
    | close q =>
      have hignored : t.sock = s.sock ∧ t.chan = s.chan := by
        rcases p.eq_or_other q with rfl | rfl
        · exact close_ignored hest hwait hstep
        · refine close_ignored (fun hpeer => ?_) hwaitPeer hstep
          have hapart := hok hpeer
          rw [Side.other_other] at hapart
          exact hapart (hfirst hpeer)
      obtain ⟨hsock, hchan⟩ := hignored
      exact .begun p (by rw [hsock, hchan]; exact ht) (by rw [hsock, hchan]; exact hs)
    | deliver q id newIss reads =>
      obtain ⟨packet, rest, run, hchan, hrun, hsock, hother, hout, hrest⟩ := deliver_cases hstep
      rcases p.eq_or_other q with rfl | rfl
      · rw [hchan] at ht hs
        have hflags := ht.back packet List.mem_cons_self
        have hcloses : Closes (arrival packet id).flags := .inr (.inr hflags)
        have hhandled := tcpProcess_handled hcloses hrun
        refine .begun q ?_ ?_ <;> rw [hsock, hother, hout, hrest]
        · exact ht.receive hhandled
        · exact hs.receive hflags hhandled
      · rw [Side.other_other] at hchan hother hrest
        rw [hchan] at ht hs
        have hflags := ht.out packet List.mem_cons_self
        have hcloses : Closes (arrival packet id).flags := hflags.imp_right .inl
        have hhandled := tcpProcess_handled hcloses hrun
        refine .begun p ?_ ?_ <;> rw [hsock, hother, hout, hrest]
        · exact ht.receivePeer hwait2 hhandled
        · exact hs.receivePeer hflags hhandled
    | retransmit q i =>
      obtain ⟨buf, hbuf, hsock, hother, hout, hrest⟩ := retransmit_cases hstep
      rcases p.eq_or_other q with rfl | rfl
      · obtain ⟨ht', hs'⟩ := hs.timeout ht hbuf
        exact .begun q (by rw [hsock, hother, hout, hrest]; exact ht')
          (by rw [hsock, hother, hout, hrest]; exact hs')
      · rw [Side.other_other] at hother hrest
        obtain ⟨ht', hs'⟩ := hs.timeoutPeer ht hbuf
        exact .begun p (by rw [hsock, hother, hout, hrest]; exact ht')
          (by rw [hsock, hother, hout, hrest]; exact hs')

/-- Both ends wait in `FIN_WAIT_1`, and only FINs are queued or under way. -/
structure Crossed (s : Link) : Prop where
  state : ∀ p, (s.sock p).state = .finWait1
  queued : ∀ p, ∀ buf ∈ (s.sock p).sendBuf, buf.packet.flags = tcpFin
  chan : ∀ p, ∀ packet ∈ s.chan p, packet.flags = tcpFin

theorem tcpProcess_fin_finWait1 {tsk : TcpSock} (cb : TcpCb) (newIss : UInt32) (reads : List ℕ)
    (hstate : tsk.state = .finWait1) (hfin : cb.flags = tcpFin) :
    tcpProcess tsk cb newIss reads = .ok ⟨updateRcvNxt tsk cb, reads, []⟩ := by
  have hack : cb.flags &&& tcpAck = 0 := by rw [hfin]; decide
  have hsame := (updateRcvNxt_state tsk cb).1
  rw [hstate] at hsame
  have hnone : processFin ⟨updateRcvNxt tsk cb, reads, []⟩ = ⟨updateRcvNxt tsk cb, reads, []⟩ := by
    unfold processFin
    simp only [hsame]
  rw [tcpProcess_of_not_ack tsk cb newIss reads hack, processFlags, hfin]
  exact congrArg Except.ok hnone

/-- The packet of `p.other` that is first under way is taken and nothing else happens. -/
theorem Crossed.deliver (h : Crossed s) {packet : Segment} {rest : List Segment}
    (hchan : s.chan p.other = packet :: rest) :
    ∃ t, s.step (.deliver p 0 0 []) = some t ∧ Crossed t ∧ t.closing = s.closing ∧
      t.chan p = s.chan p ∧ t.chan p.other = rest := by
  have hfin := h.chan p.other packet (hchan ▸ List.mem_cons_self)
  have hrun := tcpProcess_fin_finWait1 (arrival packet 0) 0 [] (h.state p) hfin
  obtain ⟨t, hstep⟩ : ∃ t, s.step (.deliver p 0 0 []) = some t := by
    simp only [Link.step, hchan, hrun]
    exact ⟨_, rfl⟩
  obtain ⟨packet', rest', run, hchan', hrun', hsock, hother, hout, hrest⟩ := deliver_cases hstep
  obtain ⟨rfl, rfl⟩ := List.cons.inj (hchan.symm.trans hchan')
  obtain rfl := Except.ok.inj (hrun.symm.trans hrun')
  rw [show sentPackets (Run.actions ⟨_, [], []⟩) = [] from rfl, List.append_nil] at hout
  obtain ⟨_, _, _, _, hrecv⟩ := receiveFrame_updateRcvNxt (s.sock p) (arrival packet 0)
  refine ⟨t, hstep, ⟨fun q => ?_, fun q buf hbuf => ?_, fun q r hr => ?_⟩, ?_, hout, hrest⟩
  · rcases p.eq_or_other q with rfl | rfl
    · rw [hsock, hrecv]
      exact h.state q
    · rw [hother]
      exact h.state p.other
  · rcases p.eq_or_other q with rfl | rfl
    · rw [hsock, hrecv] at hbuf
      exact h.queued q buf hbuf
    · rw [hother] at hbuf
      exact h.queued p.other buf hbuf
  · rcases p.eq_or_other q with rfl | rfl
    · rw [hout] at hr
      exact h.chan q r hr
    · rw [hrest] at hr
      exact h.chan p.other r (hchan ▸ List.mem_cons_of_mem _ hr)
  · simp only [Link.step, hchan, hrun] at hstep
    cases hstep
    rfl

theorem Crossed.drain (h : Crossed s) (p : Side) : ∃ t, Reaches Link.step anyStep (· = s) t ∧
    Crossed t ∧ t.closing = s.closing ∧ t.chan p = s.chan p ∧ t.chan p.other = [] := by
  generalize hlen : s.chan p.other = packets
  induction packets generalizing s with
  | nil => exact ⟨s, .start rfl, h, rfl, rfl, hlen⟩
  | cons packet rest ih =>
    obtain ⟨t, hstep, ht, hclosing, hout, hrest⟩ := h.deliver hlen
    obtain ⟨u, hreach, hu, hclosing', hout', hnone⟩ := ih ht hrest
    have hfirst : Reaches Link.step anyStep (· = s) t := .next (.start rfl) trivial hstep
    exact ⟨u, hfirst.trans hreach, hu, hclosing'.trans hclosing, hout'.trans hout, hnone⟩

/-- Once both ends wait in `FIN_WAIT_1` they can get stuck there. -/
theorem Crossed.wedges (h : Crossed s) (hclosing : s.closing = true) :
    ∃ t, Reaches Link.step anyStep (· = s) t ∧ t.closing = true ∧ Stalled t ∧
      ∀ p, (t.sock p).state = .finWait1 := by
  obtain ⟨t, hst, ht, hclosing₁, -, hfar⟩ := h.drain .near
  obtain ⟨u, htu, hu, hclosing₂, hnear, hdone⟩ := ht.drain .far
  refine ⟨u, hst.trans htu, by rw [hclosing₂, hclosing₁, hclosing], ⟨fun p => ?_, ?_⟩, hu.state⟩
  · cases p with
    | near => exact hdone
    | far => exact hnear.trans hfar
  · intro p buf hbuf id newIss reads
    rw [tcpProcess_fin_finWait1 _ newIss reads (hu.state p.other) (hu.queued p buf hbuf)]
    exact (updateRcvNxt_state _ _).1

/-- The close of the second end while the first is in `FIN_WAIT_1`. -/
theorem LinkInv.crossed (h : LinkInv s) (hok : ¬OneSided s (.close p))
    (hstep : s.step (.close p) = some t) : Crossed t ∧ t.closing = true := by
  have hclosing : t.closing = true := by
    cases hstep
    rfl
  obtain ⟨hest, hpeer⟩ : (s.sock p).state = .established ∧ (s.sock p.other).state = .finWait1 := by
    simpa [OneSided] using hok
  obtain ⟨hsock, hother, hout, hback⟩ := close_cases hest hstep
  cases h with
  | idle hs =>
    rw [hs.state] at hpeer
    cases hpeer
  | begun q ht hs =>
    rcases q.eq_or_other p with rfl | rfl
    · exact absurd hest hs.states.1
    · rw [Side.other_other] at hpeer hother hback
      cases hs with
      | opened htsk _ hnone _ hfin hempty =>
        have hqueue : (t.sock q.other).sendBuf =
            [⟨controlPacket { s.sock q.other with state := .finWait1 } tcpFin, 54,
              (s.sock q.other).sndNxt + 1, 1, tcpRetransIntervalInitial, 0⟩] := by
          rw [hsock]
          exact congrArg (· ++ _) hnone
        refine ⟨⟨fun r => ?_, fun r buf hbuf => ?_, fun r packet hmem => ?_⟩, hclosing⟩
        all_goals rcases q.eq_or_other r with rfl | rfl
        · rw [hother, htsk]
        · rw [hsock]
          rfl
        · rw [hother] at hbuf
          exact ht.queued buf hbuf
        · rw [hqueue] at hbuf
          rw [List.mem_singleton.mp hbuf]
          rfl
        · rw [hback] at hmem
          exact hfin packet hmem
        · rw [hout, hempty] at hmem
          rw [List.mem_singleton.mp hmem]
          rfl
      | answered _ hpeer' | confirmed _ hpeer' | finished _ hpeer' =>
        rw [hest] at hpeer'
        cases hpeer'

/-- Unless both ends are closed at the same time, a close does not get stuck: where
nothing is under way and no retransmission helps, both ends are finished. A close of the
second end while the first is in `FIN_WAIT_1` can get both stuck. -/
theorem close_cannot_wedge {s : Link} (h : Reaches Link.step OneSided Connected s) :
    (s.closing = true → Stalled s →
      ∀ p, (s.sock p).state = .timeWait ∨ (s.sock p).state = .closed) ∧
    ∀ p t, ¬OneSided s (.close p) → s.step (.close p) = some t →
      ∃ u, Reaches Link.step anyStep (· = t) u ∧ u.closing = true ∧ Stalled u ∧
        ∀ q, (u.sock q).state = .finWait1 := by
  have hinv := h.invariant LinkInv (fun _ hs => .idle hs)
    fun _ _ _ hs hok hstep => hs.step hok hstep
  refine ⟨fun hclosing hquiet => ?_, fun p t hok hstep => ?_⟩
  · cases hinv with
    | idle hs =>
      rw [hs.closing] at hclosing
      cases hclosing
    | begun p _ hs =>
      cases hs with
      | opened _ _ _ hout => exact absurd (hquiet.chan p) hout
      | answered _ _ _ hback => exact absurd (hquiet.chan p.other) hback
      | confirmed _ _ hack =>
        obtain ⟨packet, hmem, -⟩ := hack
        rw [hquiet.chan p] at hmem
        cases hmem
      | finished htsk hpeer =>
        intro q
        rcases p.eq_or_other q with rfl | rfl
        · exact .inl htsk
        · exact .inr hpeer
  · obtain ⟨hcrossed, hclosing⟩ := hinv.crossed hok hstep
    exact hcrossed.wedges hclosing

end Runs

section Instance

instance (s : Link) : (e : LinkEvent) → Decidable (OneSided s e)
  | .close p =>
    inferInstanceAs
      (Decidable ((s.sock p).state = .established → (s.sock p.other).state ≠ .finWait1))
  | .deliver _ _ _ _ | .retransmit _ _ => isTrue trivial

/-- Two sockets connected to each other. -/
def pair : Link where
  sock
    | .near => { allocTcpSock with
        state := .established, sndUna := 100, sndNxt := 100, rcvNxt := 500 }
    | .far => { allocTcpSock with
        state := .established, sndUna := 500, sndNxt := 500, rcvNxt := 100 }
  chan _ := []
  closing := false

theorem connected_pair : Connected pair :=
  ⟨fun p => by cases p <;> rfl, fun p => by cases p <;> rfl, fun _ => rfl, rfl⟩

/-- One end closes; its FIN is sent again by the timer before the answer arrives. -/
def orderlyClose : List LinkEvent :=
  [.close .near, .retransmit .near 0, .deliver .far 7 0 [], .close .far, .deliver .far 8 0 [],
    .deliver .near 9 0 [], .deliver .far 10 0 []]

theorem orderlyClose_isSome : (exec Link.step OneSided pair orderlyClose).isSome := by
  decide +kernel

theorem close_cannot_wedge_orderlyClose : ∃ s : Link, s.closing = true ∧ Stalled s ∧
    ∀ p, (s.sock p).state = .timeWait ∨ (s.sock p).state = .closed := by
  obtain ⟨s, hrun⟩ := Option.isSome_iff_exists.mp orderlyClose_isSome
  have hseen : (exec Link.step OneSided pair orderlyClose).map
      (fun s => (s.closing, s.chan .near, s.chan .far, (s.sock .near).sendBuf,
        (s.sock .far).sendBuf)) = some (true, [], [], [], []) := by decide +kernel
  rw [hrun] at hseen
  simp only [Option.map_some, Option.some.injEq, Prod.mk.injEq] at hseen
  obtain ⟨hclosing, hnear, hfar, hqueue, hqueue'⟩ := hseen
  have hquiet : Stalled s := by
    refine ⟨fun p => ?_, fun p buf hbuf => ?_⟩
    · cases p with
      | near => exact hnear
      | far => exact hfar
    · cases p with
      | near =>
        rw [hqueue] at hbuf
        cases hbuf
      | far =>
        rw [hqueue'] at hbuf
        cases hbuf
  exact ⟨s, hclosing, hquiet,
    (close_cannot_wedge (.of_exec (.start connected_pair) hrun)).1 hclosing hquiet⟩

/-- Both ends are closed before either FIN arrives: they stay in `FIN_WAIT_1` for ever. -/
theorem simultaneous_close_wedges : ∃ s : Link, Reaches Link.step anyStep Connected s ∧
    s.closing = true ∧ Stalled s ∧
      ¬∀ p, (s.sock p).state = .timeWait ∨ (s.sock p).state = .closed := by
  obtain ⟨t, hrun⟩ : ∃ t, exec Link.step anyStep pair [.close .near, .close .far] = some t :=
    ⟨_, rfl⟩
  have hcrossed : Crossed t ∧ t.closing = true := by
    cases hrun
    refine ⟨⟨fun p => ?_, fun p buf hbuf => ?_, fun p packet hmem => ?_⟩, rfl⟩
    · cases p <;> rfl
    · cases p <;> rw [List.mem_singleton.mp hbuf] <;> rfl
    · cases p <;> rw [List.mem_singleton.mp hmem] <;> rfl
  obtain ⟨s, hreach, hclosing, hquiet, hstate⟩ := hcrossed.1.wedges hcrossed.2
  have ht : Reaches Link.step anyStep Connected t := .of_exec (.start connected_pair) hrun
  refine ⟨s, ht.trans hreach, hclosing, hquiet, fun h => ?_⟩
  have hnear := h .near
  rw [hstate] at hnear
  exact absurd hnear (by decide)

end Instance

end NetworkLab.Tcp
