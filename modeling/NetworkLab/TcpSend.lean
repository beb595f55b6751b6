import NetworkLab.TcpFrame

/-!
# Sending, the retransmission timer and closing

`tcp_send_packet` of `tcp_out.c`, the part of `tcp_scan_timer_list` about one socket,
and what `tcp_sock.c` does to a socket when it connects, closes or writes.
-/
namespace NetworkLab.Tcp

section Send

/-- The packet that `tcp_send_packet` builds around its payload. -/
def dataPacket (tsk : TcpSock) (data : List UInt8) : Segment :=
  { controlPacket tsk tcpPsh with data := data }

/-- The socket after `tcp_send_packet`. -/
def afterData (tsk : TcpSock) (data : List UInt8) : TcpSock :=
  putSendbuf
    { tsk with
      sndNxt := tsk.sndNxt + UInt32.ofNat data.length
      sndWnd := tsk.sndWnd - UInt32.ofNat data.length }
    (dataPacket tsk data) (54 + data.length)

def tcpSendPacket (run : Run) (data : List UInt8) : Run :=
  Run.act { run with tsk := afterData run.tsk data } (.ipSendPacket (dataPacket run.tsk data))

end Send

section Timer

def tcpTimerScanInterval : ℤ := 10000

/-- What a timeout does to the socket. -/
def enterLoss (tsk : TcpSock) : TcpSock :=
  { tsk with
    recoveryPoint := if tsk.cgtState ≠ .loss then tsk.sndNxt else tsk.recoveryPoint
    cgtState := .loss
    ssthresh := (tsk.cwnd + 1) / 2
    cwnd := 1
    sndWnd := UInt32.ofNat mss }

/-- The timer of an entry that runs out: after the third retransmission it starts anew
without sending. -/
def SendBuffer.restart (buf : SendBuffer) : SendBuffer :=
  if buf.times = 3 then { buf with times := 1, timeout := tcpRetransIntervalInitial }
  else
    { buf with
      times := buf.times + 1
      timeout :=
        if buf.times + 1 = 2 then 2 * tcpRetransIntervalInitial
        else 4 * tcpRetransIntervalInitial }

/-- The loop over `send_buf`: the socket, the entries and the packets sent again. -/
def scanEntries (tsk : TcpSock) : List SendBuffer → TcpSock × List SendBuffer × List Segment
  | [] => (tsk, [], [])
  | buf :: bufs =>
    let buf := { buf with timeout := buf.timeout - tcpTimerScanInterval }
    if buf.timeout = 0 then
      let r := scanEntries (enterLoss tsk) bufs
      (r.1, buf.restart :: r.2.1, if buf.times = 3 then r.2.2 else buf.packet :: r.2.2)
    else
      let r := scanEntries tsk bufs
      (r.1, buf :: r.2.1, r.2.2)

/-- One round of `tcp_scan_timer_list` for the retransmission timer of a socket. -/
def tcpScanRetrans (tsk : TcpSock) : TcpSock :=
  let r := scanEntries tsk tsk.sendBuf
  { r.1 with sendBuf := r.2.1 }

/-- The packets that the round sends. -/
def retransmitted (tsk : TcpSock) : List Segment := (scanEntries tsk tsk.sendBuf).2.2

end Timer

section Open

/-- `tcp_sock_connect` until it sleeps; the port is the one `tcp_get_port` finds. -/
def tcpSockConnect (run : Run) (sip dip : UInt32) (sport dport : UInt16) (newIss : UInt32) : Run :=
  tcpSendControlPacket
    (run.update fun tsk =>
      { tsk with
        skSip := sip, skDip := dip, skSport := sport, skDport := dport
        sndNxt := newIss, iss := newIss, state := .synSent })
    tcpSyn

/-- `tcp_sock_connect` after it has been woken. -/
def tcpSockConnected (run : Run) : Run :=
  tcpSendControlPacket (run.setState .established) tcpAck

/-- `tcp_sock_listen`, without the backlog and the table. -/
def tcpSockListen (tsk : TcpSock) : TcpSock := { tsk with state := .listen }

def tcpSockClose (run : Run) : Run :=
  match run.tsk.state with
  | .established => tcpSendControlPacket (run.setState .finWait1) tcpFin
  | .closeWait => tcpSendControlPacket (run.setState .lastAck) tcpFin
  | _ => run

end Open

end NetworkLab.Tcp
