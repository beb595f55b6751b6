import NetworkLab.Packet

/-!
# The TCP state machine of one socket

`tcp_process` of `tcp_in.c` with what it calls of `tcp_out.c` and `tcp_sock.c`. A
call changes the socket and does a list of actions, in order. While it waits for
space in the ring buffer the application reads; the bytes taken in each wait are
an argument, and a call that needs more waits than these is blocked. Emitted
packets are given by the fields that vary: lengths, constants and checksums
follow from them.
-/
namespace NetworkLab.Tcp

inductive TcpState
  | closed
  | listen
  | synRecv
  | synSent
  | established
  | closeWait
  | lastAck
  | finWait1
  | finWait2
  | closing
  | timeWait
  deriving DecidableEq

/-- `OPEN`, `RCVR` and `LOSS`. -/
inductive CgtState
  | opn
  | rcvr
  | loss
  deriving DecidableEq

/-- A packet handed to `ip_send_packet` or kept for retransmission. -/
structure Segment where
  saddr : UInt32
  daddr : UInt32
  sport : UInt16
  dport : UInt16
  seq : UInt32
  ack : UInt32
  flags : UInt8
  rwnd : UInt16
  data : List UInt8
  deriving DecidableEq

structure SendBuffer where
  packet : Segment
  len : ℤ
  seqEnd : UInt32
  times : ℤ
  timeout : ℤ
  retrans : ℤ
  deriving DecidableEq

structure OfoBuffer where
  seq : UInt32
  seqEnd : UInt32
  payload : List UInt8
  plLen : ℤ
  deriving DecidableEq

/-- `rcv_ofo_buf`. `entries` are what a traversal from the head visits. An entry
that is inserted before the first one is linked to a copy of the head on the
stack, so the head does not lead to it: it is in `hidden`. Deleting the first
entry then unlinks it from the hidden one and not from the head, which keeps
pointing to freed memory: `dangling`. -/
structure OfoList where
  entries : List OfoBuffer
  hidden : List OfoBuffer
  dangling : Bool
  deriving DecidableEq

structure TcpCb where
  saddr : UInt32
  daddr : UInt32
  sport : UInt16
  dport : UInt16
  seq : UInt32
  seqEnd : UInt32
  ack : UInt32
  rwnd : UInt32
  flags : UInt8
  payload : List UInt8
  plLen : ℤ
  deriving DecidableEq

/-- `tcp_cb_init`: the payload begins where the data offset of the header says. -/
def tcpCbInit (ip : IpHdr) (tcp : TcpHdr) (data : List UInt8) : TcpCb where
  saddr := ip.saddr
  daddr := ip.daddr
  sport := tcp.sport
  dport := tcp.dport
  seq := tcp.seq
  seqEnd := tcpSeqEnd ip tcp
  ack := tcp.ack
  rwnd := tcp.rwnd.toUInt32
  flags := tcp.flags
  payload := (tcpBytes tcp ++ data).drop (4 * tcp.off.toNat)
  plLen := ip.totLen.toNat - (ipHdrSize ip).toNat - 4 * tcp.off.toNat

/-- The fields of `struct tcp_sock` that processing uses. `rcvBuf` are the unread
bytes of the ring buffer; `readSleep` and `sendSleep` are the flags `sleep` of
`wait_read` and `wait_send`, set by threads that wait there. -/
structure TcpSock where
  skSip : UInt32
  skDip : UInt32
  skSport : UInt16
  skDport : UInt16
  hasParent : Bool
  state : TcpState
  iss : UInt32
  sndUna : UInt32
  sndNxt : UInt32
  rcvNxt : UInt32
  recoveryPoint : UInt32
  sndWnd : UInt32
  advWnd : UInt16
  rcvWnd : UInt16
  cwnd : UInt32
  cgtState : CgtState
  repAck : ℤ
  cwndUnit : UInt32
  ssthresh : UInt32
  inflight : ℤ
  sendBuf : List SendBuffer
  rcvOfoBuf : OfoList
  rcvBuf : List UInt8
  readSleep : Bool
  sendSleep : Bool
  deriving DecidableEq

inductive WaitName
  | connect
  | parentAccept
  | read
  | send
  deriving DecidableEq

/-- What a call does beside changing its socket. `readListHead` is a
retransmission through the list head of an empty `send_buf`: what it copies is
undefined, and the call ends there. -/
inductive Action
  | ipSendPacket (packet : Segment)
  | readListHead
  | wakeUp (wait : WaitName)
  | writeRingBuffer (data : List UInt8)
  | spawnChild (csk : TcpSock)
  | acceptEnqueue
  | setTimewaitTimer
  | bindUnhash
  | unhash
  deriving DecidableEq

/-- State of a call: the socket, the reads of the application still to come, and
the actions so far. -/
structure Run where
  tsk : TcpSock
  reads : List ℕ
  actions : List Action
  deriving DecidableEq

/-- Why a call does not return: it waits for space, an assertion failed, it reads
freed memory or copies a negative length, or it copies through the list head of
`send_buf`. -/
inductive Stop
  | blocked
  | aborted
  | undefined
  | listHead
  deriving DecidableEq

abbrev Result := Except (Stop × Run) Run

def Run.act (run : Run) (a : Action) : Run := { run with actions := run.actions ++ [a] }

def Run.update (run : Run) (f : TcpSock → TcpSock) : Run := { run with tsk := f run.tsk }

@[simp] theorem Run.update_tsk (run : Run) (f : TcpSock → TcpSock) :
    (run.update f).tsk = f run.tsk := rfl

@[simp] theorem Run.update_actions (run : Run) (f : TcpSock → TcpSock) :
    (run.update f).actions = run.actions := rfl

@[simp] theorem Run.act_actions (run : Run) (a : Action) :
    (run.act a).actions = run.actions ++ [a] := rfl

def Run.setState (run : Run) (state : TcpState) : Run :=
  run.update fun tsk => { tsk with state := state }

/-- The signed difference wraps. -/
def lessOrEqual32b (a b : UInt32) : Bool := decide ((a - b).toInt32 ≤ 0)

def lessThan32b (a b : UInt32) : Bool := decide ((a - b).toInt32 < 0)

def mss : ℕ := 1460
def tcpDefaultWindow : ℕ := 65535
def tcpRetransIntervalInitial : ℤ := 200000

/-- `ring_buffer_free`. -/
def TcpSock.ringBufferFree (tsk : TcpSock) : ℤ := tcpDefaultWindow - tsk.rcvBuf.length

section Output

/-- `put_sendbuf`. -/
def putSendbuf (tsk : TcpSock) (packet : Segment) (size : ℤ) : TcpSock :=
  { tsk with
    sendBuf := tsk.sendBuf ++ [⟨packet, size, tsk.sndNxt, 1, tcpRetransIntervalInitial, 0⟩]
    inflight := tsk.inflight + 1 }

/-- The packet that `tcp_send_control_packet` builds. -/
def controlPacket (tsk : TcpSock) (flags : UInt8) : Segment where
  saddr := tsk.skSip
  daddr := tsk.skDip
  sport := tsk.skSport
  dport := tsk.skDport
  seq := tsk.sndNxt
  ack := tsk.rcvNxt
  flags := flags
  rwnd := tsk.rcvWnd
  data := []

/-- The socket after `tcp_send_control_packet`; SYN and FIN take a sequence number
and are kept for retransmission. -/
def afterControl (tsk : TcpSock) (flags : UInt8) : TcpSock :=
  if flags &&& (tcpSyn ||| tcpFin) ≠ 0 then
    putSendbuf { tsk with sndNxt := tsk.sndNxt + 1 } (controlPacket tsk flags) 54
  else tsk

def tcpSendControlPacket (run : Run) (flags : UInt8) : Run :=
  Run.act { run with tsk := afterControl run.tsk flags }
    (.ipSendPacket (controlPacket run.tsk flags))

end Output

section Ack

def tcpCwndInc (tsk : TcpSock) : TcpSock :=
  if tsk.cgtState ≠ .opn then tsk
  else if tsk.cwnd < tsk.ssthresh then { tsk with cwnd := tsk.cwnd + 1 }
  else if tsk.cwndUnit + 1 ≥ tsk.cwnd then
    { tsk with cwndUnit := 0, cwnd := tsk.cwnd + 1 }
  else { tsk with cwndUnit := tsk.cwndUnit + 1 }

/-- `tcp_pop_sendbuf` of the first entry. -/
def tcpPopSendbuf (tsk : TcpSock) : TcpSock :=
  { tsk with sendBuf := tsk.sendBuf.tail, inflight := tsk.inflight - 1 }

/-- The loop over `send_buf`, which releases entries up to the first that ends
after `ack`. -/
def popAcked (ack : UInt32) : List SendBuffer → TcpSock → TcpSock
  | [], tsk => tsk
  | buf :: bufs, tsk =>
    if buf.seqEnd > ack then tsk
    else popAcked ack bufs (tcpCwndInc (tcpPopSendbuf { tsk with sndUna := buf.seqEnd }))

/-- Retransmit the entry that the loop variable of `send_buf` stands at, which is
the list head when there is none. -/
def retransmitFirst (run : Run) : Run :=
  match run.tsk.sendBuf with
  | buf :: _ => run.act (.ipSendPacket buf.packet)
  | [] => run.act .readListHead

def Run.countAck (run : Run) : Run :=
  run.update fun tsk => { tsk with repAck := tsk.repAck + 1 }

/-- The case `RCVR` for a repeated ACK. -/
def deflate (tsk : TcpSock) : TcpSock :=
  if tsk.repAck > 1 then
    { tsk with
      repAck := tsk.repAck - 2, cwnd := if tsk.cwnd - 1 < 1 then 1 else tsk.cwnd - 1 }
  else tsk

/-- Enter fast recovery, with a retransmission when there is something to send. -/
def enterRecovery (run : Run) : Run :=
  let run := run.update fun tsk =>
    { tsk with
      cgtState := .rcvr, ssthresh := (tsk.cwnd + 1) / 2, recoveryPoint := tsk.sndNxt }
  match run.tsk.sendBuf with
  | buf :: _ => run.act (.ipSendPacket buf.packet)
  | [] => run

/-- The ACK repeats `snd_una`; entering recovery falls through to the case `RCVR`. -/
def ackRepeated (run : Run) : Run :=
  match run.tsk.cgtState with
  | .opn =>
    if run.tsk.repAck + 1 > 2 then (enterRecovery run.countAck).update deflate
    else run.countAck
  | .rcvr => run.countAck.update deflate
  | .loss => run.countAck

/-- The second switch on the congestion state: recovery ends at `recovery_point`. -/
def leaveRecovery (run : Run) (ack : UInt32) : Run :=
  match run.tsk.cgtState with
  | .rcvr =>
    if lessOrEqual32b run.tsk.recoveryPoint ack then
      run.update fun tsk => { tsk with cgtState := .opn }
    else retransmitFirst run
  | .loss =>
    if lessOrEqual32b run.tsk.recoveryPoint ack then
      run.update fun tsk => { tsk with cgtState := .opn }
    else run
  | .opn => run

/-- The ACK differs from `snd_una`. -/
def ackNew (run : Run) (ack : UInt32) : Run :=
  leaveRecovery (run.update fun tsk => popAcked ack tsk.sendBuf { tsk with repAck := 0 }) ack

/-- The window that the peer and the congestion control leave; the product is a
`size_t`, which does not wrap. -/
def usableWindow (advWnd : UInt16) (cwnd : UInt32) : UInt32 :=
  UInt32.ofNat (min advWnd.toNat (cwnd.toNat * mss))

/-- `tcp_update_window`; the old window is kept in 16 bits. -/
def tcpUpdateWindow (run : Run) (rwnd : UInt32) : Run :=
  let oldSndWnd := run.tsk.sndWnd.toUInt16
  let run := run.update fun tsk =>
    { tsk with
      advWnd := rwnd.toUInt16
      sndWnd := usableWindow rwnd.toUInt16 tsk.cwnd }
  if oldSndWnd = 0 then run.act (.wakeUp .send) else run

def tcpUpdateWindowSafe (run : Run) (cb : TcpCb) : Run :=
  if lessOrEqual32b run.tsk.sndUna cb.ack && lessOrEqual32b cb.ack run.tsk.sndNxt then
    tcpUpdateWindow run cb.rwnd
  else run

/-- The call has copied through the list head, and ends. -/
def Run.Lost (run : Run) : Prop := .readListHead ∈ run.actions

instance (run : Run) : Decidable run.Lost := inferInstanceAs (Decidable (_ ∈ _))

def countedAck (run : Run) (ack : UInt32) : Run :=
  if ack = run.tsk.sndUna then ackRepeated run else ackNew run ack

/-- The block under `if ((cb->flags) & TCP_ACK)`. -/
def processAck (run : Run) (cb : TcpCb) : Run :=
  let run := countedAck run cb.ack
  if run.Lost then run else tcpUpdateWindowSafe run cb

end Ack

section Data

/-- The application reads at most `len` bytes. -/
def TcpSock.read (tsk : TcpSock) (len : ℕ) : TcpSock :=
  { tsk with
    rcvBuf := tsk.rcvBuf.drop len
    rcvWnd := tsk.rcvWnd + UInt16.ofNat (min tsk.rcvBuf.length len) }

/-- Wait until the ring buffer has space for `n` bytes. -/
def waitSpace (n : ℤ) (tsk : TcpSock) (actions : List Action) : List ℕ → Result
  | [] =>
    if tsk.ringBufferFree < n then
      .error (.blocked, ⟨tsk, [], actions ++ [.wakeUp .read]⟩)
    else .ok ⟨tsk, [], actions⟩
  | len :: reads =>
    if tsk.ringBufferFree < n then
      waitSpace n (tsk.read len) (actions ++ [.wakeUp .read]) reads
    else .ok ⟨tsk, len :: reads, actions⟩

/-- `write_ring_buffer` with its assertion, and the window after it. -/
def writeRingBuffer (run : Run) (data : List UInt8) (n : ℤ) : Result :=
  if n > 0 ∧ run.tsk.ringBufferFree ≥ n then
    let run := run.update fun tsk =>
      { tsk with
        rcvBuf := tsk.rcvBuf ++ data.take n.toNat
        rcvWnd := tsk.rcvWnd - UInt16.ofNat n.toNat }
    .ok (run.act (.writeRingBuffer (data.take n.toNat)))
  else .error (.aborted, run)

/-- Wait for space and store the data. -/
def storeData (run : Run) (data : List UInt8) (n : ℤ) : Result := do
  let run ← waitSpace n run.tsk run.actions run.reads
  writeRingBuffer run data n

/-- `list_delete_entry` of the first entry, which leaves the entries after it. -/
def OfoList.deleteFirst (l : OfoList) (rest : List OfoBuffer) : OfoList :=
  { l with entries := rest, dangling := l.dangling || !l.hidden.isEmpty }

/-- The loop over `rcv_ofo_buf`: entries are stored up to the first that begins
after `seqEnd`. The result is the new end. -/
def drainOfo : List OfoBuffer → UInt32 → Run → Except (Stop × Run) (UInt32 × Run)
  | [], seqEnd, run => .ok (seqEnd, run)
  | ofo :: rest, seqEnd, run =>
    if seqEnd < ofo.seq then .ok (seqEnd, run)
    else do
      let run ← storeData run ofo.payload ofo.plLen
      drainOfo rest ofo.seqEnd (run.update fun tsk =>
        { tsk with rcvOfoBuf := tsk.rcvOfoBuf.deleteFirst rest })

/-- Insertion behind the entries that begin earlier; a segment that is already
there is not stored. -/
def insertOfo (buf : OfoBuffer) : List OfoBuffer → List OfoBuffer
  | [] => [buf]
  | pos :: rest =>
    if buf.seq > pos.seq then pos :: insertOfo buf rest
    else if buf.seq = pos.seq then pos :: rest
    else buf :: pos :: rest

/-- The insertion of `write_ofo_buffer`. -/
def OfoList.insert (l : OfoList) (buf : OfoBuffer) : OfoList :=
  match l.entries with
  | [] => { l with entries := [buf] }
  | pos :: rest =>
    if buf.seq > pos.seq then { l with entries := pos :: insertOfo buf rest }
    else if buf.seq = pos.seq then l
    else { l with hidden := buf :: l.hidden }

def TcpCb.ofoBuffer (cb : TcpCb) : OfoBuffer :=
  ⟨cb.seq, cb.seqEnd, cb.payload.take cb.plLen.toNat, cb.plLen⟩

/-- `write_ofo_buffer`. The payload is copied before the list is searched: a negative
length is converted to `size_t`, and the copy goes beyond all memory. -/
def writeOfoBuffer (run : Run) (cb : TcpCb) : Result :=
  if cb.plLen < 0 ∨ run.tsk.rcvOfoBuf.dangling then .error (.undefined, run)
  else
    .ok (run.update fun tsk => { tsk with rcvOfoBuf := tsk.rcvOfoBuf.insert cb.ofoBuffer })

def Run.wakeIf (run : Run) (asleep : Bool) (wait : WaitName) : Run :=
  if asleep then run.act (.wakeUp wait) else run

/-- After data has been stored: wake the reader, acknowledge, wake the sender. -/
def finishData (run : Run) : Run :=
  let run := run.wakeIf run.tsk.readSleep .read
  let run := tcpSendControlPacket run tcpAck
  run.wakeIf (run.tsk.cgtState = .opn && run.tsk.sendSleep) .send

/-- A segment that begins at `rcv_nxt`: store it and what follows it. -/
def storeInOrder (run : Run) (cb : TcpCb) : Result := do
  let run ← storeData run cb.payload cb.plLen
  if run.tsk.rcvOfoBuf.dangling then .error (.undefined, run)
  else
    let r ← drainOfo run.tsk.rcvOfoBuf.entries cb.seqEnd run
    .ok (r.2.update fun tsk => { tsk with rcvNxt := r.1 })

/-- Data by its place: it is next, it comes later, or it has been received before. -/
def processData (run : Run) (cb : TcpCb) : Result :=
  if run.tsk.rcvNxt = cb.seq then finishData <$> storeInOrder run cb
  else if run.tsk.rcvNxt < cb.seq then finishData <$> writeOfoBuffer run cb
  else .ok (tcpSendControlPacket run tcpAck)

/-- The case `TCP_PSH`, with or without ACK. -/
def processPsh (run : Run) (cb : TcpCb) : Result :=
  processData (if run.tsk.state = .synRecv then run.setState .established else run) cb

end Data

section Control

/-- `alloc_tcp_sock`. -/
def allocTcpSock : TcpSock where
  skSip := 0
  skDip := 0
  skSport := 0
  skDport := 0
  hasParent := false
  state := .closed
  iss := 0
  sndUna := 0
  sndNxt := 0
  rcvNxt := 0
  recoveryPoint := 0
  sndWnd := 0
  advWnd := 0
  rcvWnd := UInt16.ofNat tcpDefaultWindow
  cwnd := 1
  cgtState := .opn
  repAck := 0
  cwndUnit := 0
  ssthresh := UInt32.ofNat (tcpDefaultWindow / mss)
  inflight := 0
  sendBuf := []
  rcvOfoBuf := ⟨[], [], false⟩
  rcvBuf := []
  readSleep := false
  sendSleep := false

/-- The child that a listening socket makes for a SYN, before it answers. -/
def childSock (tsk : TcpSock) (cb : TcpCb) (newIss : UInt32) : TcpSock :=
  { allocTcpSock with
    skSip := cb.daddr
    skDip := cb.saddr
    skDport := cb.sport
    skSport := cb.dport
    hasParent := true
    iss := newIss
    sndUna := tsk.sndUna
    rcvNxt := tsk.rcvNxt
    sndNxt := tsk.iss
    rcvWnd := tsk.rcvWnd
    state := .synRecv }

def processSyn (run : Run) (cb : TcpCb) (newIss : UInt32) : Run :=
  match run.tsk.state with
  | .listen =>
    let csk := childSock run.tsk cb newIss
    (run.act (.spawnChild (afterControl csk (tcpSyn ||| tcpAck)))).act
      (.ipSendPacket (controlPacket csk (tcpSyn ||| tcpAck)))
  | _ => run

def processSynAck (run : Run) : Run :=
  if run.tsk.state = .synSent then run.act (.wakeUp .connect) else run

/-- The case of a packet with the flag ACK alone. -/
def processPureAck (run : Run) : Run :=
  match run.tsk.state with
  | .synRecv => ((run.act .acceptEnqueue).act (.wakeUp .parentAccept)).setState .established
  | .established => if run.tsk.cgtState = .opn then run.act (.wakeUp .send) else run
  | .finWait1 => run.setState .finWait2
  | .lastAck =>
    let run := run.setState .closed
    (if run.tsk.hasParent then run else run.act .bindUnhash).act .unhash
  | _ => run

def processAckFin (run : Run) : Run :=
  if run.tsk.state = .finWait1 then
    (tcpSendControlPacket (run.setState .timeWait) tcpAck).act .setTimewaitTimer
  else run

def processFin (run : Run) : Run :=
  match run.tsk.state with
  | .established =>
    (tcpSendControlPacket (run.setState .lastAck) (tcpAck ||| tcpFin)).act .setTimewaitTimer
  | .finWait2 =>
    (tcpSendControlPacket (run.setState .timeWait) tcpAck).act .setTimewaitTimer
  | _ => run

end Control

/-- The switch over the flags. -/
def processFlags (run : Run) (cb : TcpCb) (newIss : UInt32) : Result :=
  if cb.flags = tcpSyn then .ok (processSyn run cb newIss)
  else if cb.flags = tcpSyn ||| tcpAck then .ok (processSynAck run)
  else if cb.flags = tcpAck then .ok (processPureAck run)
  else if cb.flags = tcpPsh ∨ cb.flags = tcpPsh ||| tcpAck then processPsh run cb
  else if cb.flags = tcpAck ||| tcpFin then .ok (processAckFin run)
  else if cb.flags = tcpFin then .ok (processFin run)
  else .ok run

/-- The first statement: every packet without PSH sets `rcv_nxt`. -/
def updateRcvNxt (tsk : TcpSock) (cb : TcpCb) : TcpSock :=
  if cb.flags &&& tcpPsh = 0 then { tsk with rcvNxt := cb.seqEnd } else tsk

/-- `tcp_process`; `newIss` is what `tcp_new_iss` returns and `reads` are the reads
of the application while the call waits. -/
def tcpProcess (tsk : TcpSock) (cb : TcpCb) (newIss : UInt32) (reads : List ℕ) : Result :=
  let run : Run := ⟨updateRcvNxt tsk cb, reads, []⟩
  let run := if cb.flags &&& tcpAck ≠ 0 then processAck run cb else run
  if run.Lost then .error (.listHead, run) else processFlags run cb newIss

end NetworkLab.Tcp
