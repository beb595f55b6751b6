import NetworkLab.CloseHandshake
import NetworkLab.RetransTimer
import NetworkLab.TcpStream
import Mathlib.Data.List.TakeWhile

/-!
# The ends of a connection over an unreliable network

Two established sockets exchange data. Every packet that one of them has sent may arrive at the
other at any time, any number of times, or never; applications write, read and close, and the
timer sends segments of `send_buf` again. Packets without data have to arrive in sequence, since
`tcp_process` sets `rcv_nxt` from each of them. Here is what an end sends and what it makes of a
packet of the other's stream.
-/
namespace NetworkLab.Tcp
open GuardedRuns Outcomes

section Model

/-- One end: its socket, the entries that `put_sendbuf` stored, the payloads that the application
wrote, the bytes that went into the ring buffer, and why the packet thread has stopped. -/
structure EndState where
  tsk : TcpSock
  history : List SendBuffer
  wrote : List (List UInt8)
  received : List UInt8
  halted : Option Stop

inductive EndEvent
  | write (data : List UInt8)
  | close
  | scan
  | read (len : ℕ)
  | sleep (readSleep sendSleep : Bool)
  | deliver (p : Segment) (id : UInt16) (newIss : UInt32) (reads : List ℕ)

/-- Why a call stopped. -/
def Result.stop : Result → Option Stop
  | .ok _ => none
  | .error (stop, _) => some stop

/-- An end after `tcp_process`, which may have stored entries. -/
def EndState.after (e : EndState) (stored : List SendBuffer) (r : Result) : EndState where
  tsk := r.last.tsk
  history := e.history ++ stored
  wrote := e.wrote
  received := e.received ++ written r.last.actions
  halted := r.stop

/-- `tcp_sock_close` sends a FIN in two states. -/
def storedByClose (tsk : TcpSock) : List SendBuffer :=
  if tsk.state = .established ∨ tsk.state = .closeWait then storedByControl tsk tcpFin else []

/-- What an event makes of an end, and the packets that it sends. `tcp_sock_write` sends payloads
of at most `MSS` bytes. -/
def EndState.step (e : EndState) : EndEvent → Option (EndState × List Segment)
  | .write data =>
    if data.length ≤ mss then
      some ({ e with
        tsk := afterData e.tsk data
        history := e.history ++ storedBy e.tsk (.sendData data)
        wrote := e.wrote ++ [data] }, [dataPacket e.tsk data])
    else none
  | .close =>
    let run := tcpSockClose ⟨e.tsk, [], []⟩
    some ({ e with tsk := run.tsk, history := e.history ++ storedByClose e.tsk },
      sentPackets run.actions)
  | .scan => some ({ e with tsk := tcpScanRetrans e.tsk }, retransmitted e.tsk)
  | .read len => some ({ e with tsk := e.tsk.read len }, [])
  | .sleep readSleep sendSleep =>
    some ({ e with tsk := { e.tsk with readSleep := readSleep, sendSleep := sendSleep } }, [])
  | .deliver p id newIss reads =>
    let r := tcpProcess e.tsk (arrival p id) newIss reads
    if e.halted = none then
      some (e.after (storedBy e.tsk (.deliver (arrival p id) newIss reads)) r,
        sentPackets r.last.actions)
    else none

/-- Both ends, and all packets that each of them has sent. -/
structure Duplex where
  ends : Side → EndState
  flight : Side → List Segment

/-- Only what the other end has sent arrives. -/
def Arrives (flight : List Segment) : EndEvent → Prop
  | .deliver p _ _ _ => p ∈ flight
  | _ => True

instance (flight : List Segment) : (e : EndEvent) → Decidable (Arrives flight e)
  | .deliver p _ _ _ => inferInstanceAs (Decidable (p ∈ flight))
  | .write _ | .close | .scan | .read _ | .sleep _ _ => isTrue trivial

def Duplex.step (s : Duplex) (e : Side × EndEvent) : Option Duplex :=
  if Arrives (s.flight e.1.other) e.2 then
    ((s.ends e.1).step e.2).map fun r =>
      ⟨Function.update s.ends e.1 r.1, Function.update s.flight e.1 (s.flight e.1 ++ r.2)⟩
  else none

/-- Applications write before the connection is closed, and less than the sequence numbers allow.
A packet without data arrives in sequence, and a segment that has to wait does not begin before
the first one that waits. -/
def Timely (s : Duplex) : Side × EndEvent → Prop
  | (x, .write data) => (s.ends x).tsk.state = .established ∧
    (s.ends x).tsk.sndNxt.toNat + data.length + 1 < 2 ^ 32
  | (x, .deliver p _ _ _) =>
    if p.flags &&& tcpPsh = 0 then p.seq = (s.ends x).tsk.rcvNxt
    else (s.ends x).tsk.rcvNxt < p.seq →
      ∀ first ∈ (s.ends x).tsk.rcvOfoBuf.entries.head?, first.seq ≤ p.seq
  | _ => True

/-- An end after the handshake. -/
structure EndState.Opened (e : EndState) : Prop where
  state : e.tsk.state = .established
  fresh : Fresh e.tsk
  history : e.history = []
  wrote : e.wrote = []
  received : e.received = []
  halted : e.halted = none
  rcvOfoBuf : e.tsk.rcvOfoBuf = ⟨[], [], false⟩
  sndNxt_pos : 0 < e.tsk.sndNxt.toNat
  sndNxt_lt : e.tsk.sndNxt.toNat + 1 < 2 ^ 32

/-- Both ends agree on where the streams begin. -/
structure Duplex.Opened (s : Duplex) : Prop where
  ends : ∀ x, (s.ends x).Opened
  agree : ∀ x, (s.ends x.other).tsk.rcvNxt = (s.ends x).tsk.sndNxt
  flight : ∀ x, s.flight x = []

/-- The segments that are no longer kept for retransmission. -/
def EndState.released (e : EndState) : ℕ := e.history.length - e.tsk.sendBuf.length

end Model

section Streams

theorem Stream.push_mss_bound (st : Stream) {data : List UInt8} (hmss : data.length ≤ mss) :
    ∀ seg ∈ st.segs ++ [data], seg.length ≤ mss := by
  intro seg hseg
  rcases List.mem_append.mp hseg with hold | hnew
  · exact st.mss_bound seg hold
  · rwa [List.mem_singleton.mp hnew]

theorem Stream.push_no_wrap (st : Stream) {data : List UInt8}
    (hwrap : st.isn.toNat + st.total + data.length + 2 < 2 ^ 32) :
    st.isn.toNat + (st.segs ++ [data]).flatten.length + 2 < 2 ^ 32 := by
  simp only [Stream.total] at hwrap
  simp only [List.flatten_append, List.length_append, List.flatten_singleton]
  omega

/-- The stream with one more segment. -/
def Stream.push (st : Stream) (data : List UInt8) (hmss : data.length ≤ mss)
    (hwrap : st.isn.toNat + st.total + data.length + 2 < 2 ^ 32) : Stream where
  isn := st.isn
  segs := st.segs ++ [data]
  mss_bound := st.push_mss_bound hmss
  no_wrap := st.push_no_wrap hwrap

variable {st : Stream} {data : List UInt8} {hmss : data.length ≤ mss}
  {hwrap : st.isn.toNat + st.total + data.length + 2 < 2 ^ 32}

@[simp] theorem Stream.push_segs : (st.push data hmss hwrap).segs = st.segs ++ [data] := rfl

@[simp] theorem Stream.push_pos (n : ℕ) : (st.push data hmss hwrap).pos n = st.pos n := rfl

@[simp] theorem Stream.push_total : (st.push data hmss hwrap).total = st.total + data.length := by
  simp [Stream.total]

theorem Stream.push_bound {i : ℕ} (hi : i ≤ st.segs.length) :
    (st.push data hmss hwrap).bound i = st.bound i := by
  simp [Stream.bound, List.take_append_of_le_length hi]

theorem Stream.bound_length (st : Stream) : st.bound st.segs.length = st.total := by
  simp [Stream.bound, Stream.total]

end Streams

section Invariants

/-- The socket has sent its FIN. -/
def Shut (state : TcpState) : Prop :=
  state = .finWait1 ∨ state = .finWait2 ∨ state = .timeWait ∨ state = .lastAck ∨ state = .closed

theorem shut_nextState {state : TcpState} (h : Shut state) (flags : UInt8) :
    Shut (nextState state flags) := by
  unfold nextState
  rcases h with rfl | rfl | rfl | rfl | rfl <;>
    simp only [reduceCtorEq, if_true, if_false] <;> split_ifs <;> simp [Shut]

/-- The packets of a stream: its segments, ACKs, and after a close the FIN. -/
inductive OfStream (st : Stream) (shut : Prop) (p : Segment) : Prop
  | data (j : Fin st.segs.length) (hflags : p.flags = tcpPsh) (hseq : p.seq = st.pos (st.bound j))
      (hdata : p.data = st.payload (.data j))
  | ack (hflags : p.flags = tcpAck) (hdata : p.data = [])
  | fin (hshut : shut) (hflags : p.flags = tcpFin ∨ p.flags = tcpAck ||| tcpFin)
      (hseq : p.seq = st.pos st.total) (hdata : p.data = [])

/-- Everything before this number has been received, the FIN included. -/
def Covered (st : Stream) (shut : Prop) (received : List UInt8) (n : UInt32) : Prop :=
  n ≤ st.pos received.length ∨ shut ∧ received.length = st.total ∧ n ≤ st.pos (st.total + 1)

/-- An end as the sender of a stream; `out` are the packets that it has sent. -/
structure Source (st : Stream) (e : EndState) (out : List Segment) : Prop where
  segs : st.segs = e.wrote
  phase : e.tsk.state = .established ∧ e.tsk.sndNxt = st.pos st.total ∨
    Shut e.tsk.state ∧ e.tsk.sndNxt = st.pos (st.total + 1)
  queue : QueueInv ⟨e.tsk, e.history⟩
  ends : ∃ fin, e.history.map (·.seqEnd) =
      (List.range st.segs.length).map (fun j => st.pos (st.bound (j + 1))) ++ fin ∧
    (fin = [] ∨ Shut e.tsk.state ∧ fin = [st.pos (st.total + 1)])
  kept : ∀ buf ∈ e.tsk.sendBuf, OfStream st (Shut e.tsk.state) buf.packet
  sent : ∀ p ∈ out, OfStream st (Shut e.tsk.state) p

/-- What the receiver has got is where `rcv_nxt` points, up to the FIN. -/
def UpTo (st : Stream) (shut : Prop) (received : List UInt8) (nxt : UInt32) : Prop :=
  nxt = st.pos received.length ∨
    shut ∧ received.length = st.total ∧ nxt = st.pos (st.total + 1)

/-- An end as the receiver of a stream; `back` are the packets that it has sent. -/
structure Sink (st : Stream) (shut : Prop) (e : EndState) (back : List Segment) : Prop where
  prefix_bytes : e.received <+: st.segs.flatten
  defined : e.halted ≠ some .undefined
  ready : e.halted = none → ∃ entries, UpTo st shut e.received e.tsk.rcvNxt ∧
    e.tsk.rcvOfoBuf = ⟨entries, [], false⟩ ∧ Waiting st (e.received.length + 1) entries
  kept : ∀ buf ∈ e.tsk.sendBuf, buf.packet.flags &&& tcpAck ≠ 0 →
    Covered st shut e.received buf.packet.ack
  sent : ∀ p ∈ back, p.flags &&& tcpAck ≠ 0 → Covered st shut e.received p.ack

/-- What the sender has released the receiver has got. -/
def Acked (st : Stream) (shut : Prop) (history bufs : List SendBuffer)
    (received : List UInt8) : Prop :=
  ∃ acked, history.map (·.seqEnd) = acked ++ bufs.map (·.seqEnd) ∧
    ∀ n ∈ acked, Covered st shut received n

end Invariants

section Growth

variable {st : Stream} {data : List UInt8} {hmss : data.length ≤ mss}
  {hwrap : st.isn.toNat + st.total + data.length + 2 < 2 ^ 32} {shut shut' : Prop}
  {received received' : List UInt8} {n : UInt32} {p : Segment} {e : EndState}
  {out : List Segment}

theorem OfStream.mono (h : OfStream st shut p) (hshut : shut → shut') : OfStream st shut' p := by
  cases h with
  | data j hflags hseq hdata => exact .data j hflags hseq hdata
  | ack hflags hdata => exact .ack hflags hdata
  | fin hyes hflags hseq hdata => exact .fin (hshut hyes) hflags hseq hdata

/-- As long as the connection is open the packets stay those of the stream. -/
theorem OfStream.push (h : OfStream st shut p) (hopen : ¬shut) :
    OfStream (st.push data hmss hwrap) shut p := by
  cases h with
  | data j hflags hseq hdata =>
    have hj : j.val < (st.segs ++ [data]).length := by simp
    refine .data ⟨j, hj⟩ hflags ?_ ?_
    · rw [Stream.push_pos, Stream.push_bound j.isLt.le, hseq]
    · rw [hdata]
      exact (List.getElem_append_left j.isLt).symm
  | ack hflags hdata => exact .ack hflags hdata
  | fin hyes => exact absurd hyes hopen

theorem Covered.mono (h : Covered st shut received n) (hshut : shut → shut') :
    Covered st shut' received n := by
  rcases h with hle | ⟨hyes, hlen, hle⟩
  · exact .inl hle
  · exact .inr ⟨hshut hyes, hlen, hle⟩

theorem Covered.push (h : Covered st shut received n) (hopen : ¬shut) :
    Covered (st.push data hmss hwrap) shut received n := by
  rcases h with hle | ⟨hyes, -⟩
  · exact .inl hle
  · exact absurd hyes hopen

theorem Covered.of_le {m : UInt32} (h : Covered st shut received n) (hle : m ≤ n) :
    Covered st shut received m := by
  rcases h with hn | ⟨hyes, hlen, hn⟩
  · exact .inl (UInt32.le_trans hle hn)
  · exact .inr ⟨hyes, hlen, UInt32.le_trans hle hn⟩

/-- What has been received stays received. -/
theorem Covered.grow (h : Covered st shut received n) (hlen : received.length ≤ received'.length)
    (hmax : received'.length ≤ st.total) : Covered st shut received' n := by
  rcases h with hle | ⟨hyes, hall, hle⟩
  · refine .inl (UInt32.le_trans hle ?_)
    rw [UInt32.le_iff_toNat_le, st.toNat_pos (by omega), st.toNat_pos (by omega)]
    omega
  · exact .inr ⟨hyes, by omega, hle⟩

theorem Waiting.push {m : ℕ} {entries : List OfoBuffer} (h : Waiting st m entries) :
    Waiting (st.push data hmss hwrap) m entries := by
  refine ⟨h.sorted, fun buf hbuf => ?_⟩
  obtain ⟨j, hj, rfl⟩ := h.segment buf hbuf
  have hlt : j.val < (st.segs ++ [data]).length := by simp
  refine ⟨⟨j, hlt⟩, ?_, ?_⟩
  · rwa [Stream.push_bound j.isLt.le]
  · simp only [Stream.ofo, Stream.push_pos, Stream.push_bound j.isLt.le,
      Stream.push_bound (Nat.succ_le_of_lt j.isLt), Stream.push_segs, Fin.getElem_fin,
      List.getElem_append_left j.isLt]

theorem Sink.length_le (h : Sink st shut e out) : e.received.length ≤ st.total :=
  h.prefix_bytes.length_le

theorem Sink.mono (h : Sink st shut e out) (hshut : shut → shut') : Sink st shut' e out := by
  refine ⟨h.prefix_bytes, h.defined, fun hhalt => ?_, fun buf hbuf hack => ?_,
    fun p hp hack => ?_⟩
  · obtain ⟨entries, hnxt, hofo, hwait⟩ := h.ready hhalt
    exact ⟨entries, hnxt.imp_right fun hend => ⟨hshut hend.1, hend.2⟩, hofo, hwait⟩
  · exact (h.kept buf hbuf hack).mono hshut
  · exact (h.sent p hp hack).mono hshut

theorem Sink.push (h : Sink st shut e out) (hopen : ¬shut) :
    Sink (st.push data hmss hwrap) shut e out := by
  refine ⟨?_, h.defined, fun hhalt => ?_, fun buf hbuf hack => ?_, fun p hp hack => ?_⟩
  · apply h.prefix_bytes.trans
    simp
  · obtain ⟨entries, hnxt, hofo, hwait⟩ := h.ready hhalt
    exact ⟨entries, .inl (hnxt.resolve_right fun hend => hopen hend.1), hofo, hwait.push⟩
  · exact (h.kept buf hbuf hack).push hopen
  · exact (h.sent p hp hack).push hopen

variable {history bufs bufs' added : List SendBuffer}

theorem Acked.mono (h : Acked st shut history bufs received) (hshut : shut → shut') :
    Acked st shut' history bufs received := by
  obtain ⟨acked, heq, hcovered⟩ := h
  exact ⟨acked, heq, fun n hn => (hcovered n hn).mono hshut⟩

theorem Acked.push (h : Acked st shut history bufs received) (hopen : ¬shut) :
    Acked (st.push data hmss hwrap) shut history bufs received := by
  obtain ⟨acked, heq, hcovered⟩ := h
  exact ⟨acked, heq, fun n hn => (hcovered n hn).push hopen⟩

theorem Acked.grow (h : Acked st shut history bufs received)
    (hlen : received.length ≤ received'.length) (hmax : received'.length ≤ st.total) :
    Acked st shut history bufs received' := by
  obtain ⟨acked, heq, hcovered⟩ := h
  exact ⟨acked, heq, fun n hn => (hcovered n hn).grow hlen hmax⟩

/-- Entries are stored, and those before an acknowledged number leave the queue. -/
theorem Acked.next (h : Acked st shut history bufs received) (popped : List SendBuffer)
    (hbufs : (bufs ++ added).map (·.seqEnd) = popped.map (·.seqEnd) ++ bufs'.map (·.seqEnd))
    (hpopped : ∀ buf ∈ popped, Covered st shut received buf.seqEnd) :
    Acked st shut (history ++ added) bufs' received := by
  obtain ⟨acked, heq, hcovered⟩ := h
  refine ⟨acked ++ popped.map (·.seqEnd), ?_, fun n hn => ?_⟩
  · rw [List.append_assoc, ← hbufs, List.map_append, List.map_append, heq, List.append_assoc]
  · rcases List.mem_append.mp hn with hold | hnew
    · exact hcovered n hold
    · obtain ⟨buf, hbuf, rfl⟩ := List.mem_map.mp hnew
      exact hpopped buf hbuf

end Growth

section Emission

variable {run : Run} {cb : TcpCb}

/-- The run has sent nothing. -/
def SentNone (run : Run) : Prop := sentPackets run.actions = []

theorem SentNone.act (h : SentNone run) {a : Action} (ha : ∀ p, a ≠ .ipSendPacket p) :
    SentNone (run.act a) := by
  unfold SentNone sentPackets at h ⊢
  cases a with
  | ipSendPacket p => exact absurd rfl (ha p)
  | _ => simpa using h

theorem waitSpace_sentNone (n : ℤ) {tsk : TcpSock} {actions : List Action} (reads : List ℕ)
    (h : SentNone ⟨tsk, reads, actions⟩) : EndsIn SentNone id (waitSpace n tsk actions reads) := by
  induction reads generalizing tsk actions with
  | nil =>
    simp only [waitSpace]
    split_ifs
    · exact h.act (a := .wakeUp .read) (fun p => Action.noConfusion)
    · exact h
  | cons len reads ih =>
    simp only [waitSpace]
    split_ifs
    · exact ih (h.act (a := .wakeUp .read) (fun p => Action.noConfusion))
    · exact h

theorem storeData_sentNone (h : SentNone run) (data : List UInt8) (n : ℤ) :
    EndsIn SentNone id (storeData run data n) := by
  unfold storeData
  apply Ends.bind (waitSpace_sentNone n run.reads h)
  intro a ha
  unfold writeRingBuffer
  split_ifs
  · have hupdate : SentNone (a.update fun tsk => { tsk with
        rcvBuf := tsk.rcvBuf ++ data.take n.toNat
        rcvWnd := tsk.rcvWnd - UInt16.ofNat n.toNat }) := ha
    exact hupdate.act (fun p => Action.noConfusion)
  · exact ha

theorem drainOfo_sentNone (entries : List OfoBuffer) (seqEnd : UInt32) (h : SentNone run) :
    EndsIn SentNone Prod.snd (drainOfo entries seqEnd run) := by
  induction entries generalizing seqEnd run with
  | nil => exact h
  | cons ofo rest ih =>
    simp only [drainOfo]
    split_ifs
    · exact h
    · exact Ends.bind (storeData_sentNone h ofo.payload ofo.plLen) fun a ha => ih ofo.seqEnd ha

theorem storeInOrder_sentNone (h : SentNone run) (cb : TcpCb) :
    EndsIn SentNone id (storeInOrder run cb) := by
  unfold storeInOrder
  apply Ends.bind (storeData_sentNone h cb.payload cb.plLen)
  intro a ha
  split_ifs
  · exact ha
  · exact Ends.bind (drainOfo_sentNone a.tsk.rcvOfoBuf.entries cb.seqEnd ha) fun r hr => hr

theorem writeOfoBuffer_sentNone (h : SentNone run) (cb : TcpCb) :
    EndsIn SentNone id (writeOfoBuffer run cb) := by
  unfold writeOfoBuffer
  split_ifs
  · exact h
  · exact h

/-- All that the run has sent are ACKs of what it has received. -/
def SendsAck (run : Run) : Prop :=
  ∀ p ∈ sentPackets run.actions, p = controlPacket run.tsk tcpAck

theorem mem_wakeIf {asleep : Bool} {wait : WaitName} {p : Segment}
    (h : p ∈ sentPackets (run.wakeIf asleep wait).actions) : p ∈ sentPackets run.actions := by
  rw [mem_sentPackets] at h ⊢
  unfold Run.wakeIf at h
  split_ifs at h
  · simpa using h
  · exact h

theorem SentNone.sendAck (h : SentNone run) : SendsAck (tcpSendControlPacket run tcpAck) := by
  intro p hp
  rw [mem_sentPackets] at hp
  rcases List.mem_append.mp hp with hold | hnew
  · rw [← mem_sentPackets, h] at hold
    cases hold
  · exact Action.ipSendPacket.inj (List.mem_singleton.mp hnew)

theorem SentNone.finishData (h : SentNone run) : SendsAck (finishData run) := by
  intro p hp
  have hwake : SentNone (run.wakeIf run.tsk.readSleep .read) := by
    apply List.eq_nil_iff_forall_not_mem.mpr
    intro q hq
    have hmem := mem_wakeIf hq
    rw [h] at hmem
    cases hmem
  have hack := hwake.sendAck p (mem_wakeIf hp)
  rw [tsk_finishData, hack, tsk_tcpSendControlPacket_ack, tsk_wakeIf]

/-- Data is answered by an ACK of all that has been received, or not at all. -/
theorem processPsh_sends (h : SentNone run) (cb : TcpCb) :
    Ends (processPsh run cb) SendsAck (fun e => SentNone e.2) := by
  have hdata (run : Run) (h : SentNone run) :
      Ends (processData run cb) SendsAck (fun e => SentNone e.2) := by
    unfold processData
    split_ifs
    · exact Ends.map (storeInOrder_sentNone h cb) fun a ha => SentNone.finishData ha
    · exact Ends.map (writeOfoBuffer_sentNone h cb) fun a ha => SentNone.finishData ha
    · exact h.sendAck
  unfold processPsh
  split_ifs
  · exact hdata _ h
  · exact hdata _ h

/-- What a call sends: entries that it kept, ACKs, and its own FIN for that of the peer. -/
inductive Emitted (tsk : TcpSock) (flags : UInt8) (nxt : UInt32) (p : Segment) : Prop
  | kept (buf : SendBuffer) (hbuf : buf ∈ tsk.sendBuf) (hpacket : buf.packet = p)
  | ack (hflags : p.flags = tcpAck) (hdata : p.data = []) (hack : p.ack = nxt)
  | fin (hflags : flags = tcpFin) (hstate : tsk.state = .established)
      (hpacket : p = controlPacket { tsk with rcvNxt := nxt } (tcpAck ||| tcpFin))

/-- Every packet that a run has sent and every one that it keeps. -/
structure Emits (tsk : TcpSock) (flags : UInt8) (nxt : UInt32) (run : Run) : Prop where
  sent : ∀ p ∈ sentPackets run.actions, Emitted tsk flags nxt p
  kept : ∀ buf ∈ run.tsk.sendBuf, Emitted tsk flags nxt buf.packet

variable {tsk : TcpSock} {flags : UInt8} {nxt : UInt32}

theorem emits_of_fromQueue (h : FromQueue tsk.sendBuf run) : Emits tsk flags nxt run := by
  refine ⟨fun p hp => ?_, fun buf hbuf => .kept buf (h.queue buf hbuf) rfl⟩
  obtain ⟨buf, hbuf, hpacket⟩ := h.sent p (mem_sentPackets.mp hp)
  exact .kept buf hbuf hpacket

theorem emits_timeWait (h : FromQueue tsk.sendBuf run) (hnxt : run.tsk.rcvNxt = nxt) :
    Emits tsk flags nxt
      ((tcpSendControlPacket (run.setState .timeWait) tcpAck).act .setTimewaitTimer) := by
  refine ⟨fun p hp => ?_, fun buf hbuf => .kept buf (h.queue buf hbuf) rfl⟩
  rw [mem_sentPackets] at hp
  rcases List.mem_append.mp hp with hfirst | htimer
  · rcases List.mem_append.mp hfirst with hold | hnew
    · obtain ⟨buf, hbuf, hpacket⟩ := h.sent p hold
      exact .kept buf hbuf hpacket
    · rw [Action.ipSendPacket.inj (List.mem_singleton.mp hnew)]
      exact .ack rfl rfl hnxt
  · exact absurd (List.mem_singleton.mp htimer) Action.noConfusion

theorem emits_processPureAck (h : FromQueue tsk.sendBuf run) :
    Emits tsk flags nxt (processPureAck run) := by
  have hset {r : Run} (hr : FromQueue tsk.sendBuf r) (state : TcpState) :
      FromQueue tsk.sendBuf (r.setState state) := hr.update fun _ => id
  apply emits_of_fromQueue
  unfold processPureAck
  split
  · exact hset ((h.act (a := .acceptEnqueue) (fun p => Action.noConfusion)).act
      (a := .wakeUp .parentAccept) (fun p => Action.noConfusion)) _
  · split_ifs
    · exact h.act (fun p => Action.noConfusion)
    · exact h
  · exact hset h _
  · simp only
    split_ifs
    · exact (hset h _).act (fun p => Action.noConfusion)
    · exact ((hset h _).act (a := .bindUnhash) (fun p => Action.noConfusion)).act
        (fun p => Action.noConfusion)
  · exact h

theorem emits_processAckFin (h : FromQueue tsk.sendBuf run) (hnxt : run.tsk.rcvNxt = nxt) :
    Emits tsk flags nxt (processAckFin run) := by
  unfold processAckFin
  split_ifs
  · exact emits_timeWait h hnxt
  · exact emits_of_fromQueue h

theorem emits_processFin (hflags : flags = tcpFin) (reads : List ℕ) :
    Emits tsk flags nxt (processFin ⟨{ tsk with rcvNxt := nxt }, reads, []⟩) := by
  have hstart : FromQueue tsk.sendBuf ⟨{ tsk with rcvNxt := nxt }, reads, []⟩ :=
    ⟨fun _ hbuf => hbuf, fun _ hp => absurd hp List.not_mem_nil⟩
  unfold processFin
  split
  next hstate =>
    have hown : Emitted tsk flags nxt
        (controlPacket { tsk with rcvNxt := nxt } (tcpAck ||| tcpFin)) := .fin hflags hstate rfl
    refine ⟨fun p hp => ?_, fun buf hbuf => ?_⟩
    · rw [mem_sentPackets] at hp
      rcases List.mem_cons.mp hp with hfin | htimer
      · rw [Action.ipSendPacket.inj hfin]
        exact hown
      · exact absurd (List.mem_singleton.mp htimer) Action.noConfusion
    · rcases List.mem_append.mp hbuf with hold | hnew
      · exact .kept buf hold rfl
      · rw [List.mem_singleton.mp hnew]
        exact hown
  next => exact emits_timeWait hstart rfl
  next => exact emits_of_fromQueue hstart

/-- A packet without data is processed to the end and sets `rcv_nxt` to its own, or the call
ends at the list head. -/
theorem tcpProcess_emits (tsk : TcpSock) (cb : TcpCb) (newIss : UInt32) (reads : List ℕ)
    (h : Closes cb.flags) :
    (∃ run, tcpProcess tsk cb newIss reads = .ok run ∧
      run.tsk.rcvNxt = cb.seqEnd ∧ run.tsk.rcvOfoBuf = tsk.rcvOfoBuf ∧
      written run.actions = [] ∧ Emits tsk cb.flags cb.seqEnd run) ∨
    ∃ run, tcpProcess tsk cb newIss reads = .error (.listHead, run) ∧
      written run.actions = [] ∧ ∀ nxt, Emits tsk cb.flags nxt run := by
  have hnone : cb.flags &&& tcpPsh = 0 := by
    rcases h with h | h | h <;> rw [h] <;> decide
  have hpsh : cb.flags ≠ tcpPsh ∧ cb.flags ≠ tcpPsh ||| tcpAck := by
    rcases h with h | h | h <;> rw [h] <;> decide
  have hqueue := fromQueue_entered tsk cb reads
  obtain ⟨run, hrun, hnxt, hofo, hwritten⟩ | ⟨run, hrun, hwritten⟩ :=
    tcpProcess_control tsk newIss reads hnone hpsh
  swap
  · have hlast := tcpProcess_last tsk cb newIss reads
    have hlost : (entered tsk cb reads).Lost := by
      by_contra hgo
      obtain ⟨run', hok, -⟩ := quiet_processFlags (entered tsk cb reads) newIss hpsh
      rw [tcpProcess_of_not_lost tsk cb newIss reads hgo, hok] at hrun
      cases hrun
    rw [tcpProcess_of_lost tsk cb newIss reads hlost] at hrun
    obtain ⟨-, rfl⟩ := Prod.mk.inj (Except.error.inj hrun)
    exact .inr ⟨_, tcpProcess_of_lost tsk cb newIss reads hlost, hwritten,
      fun nxt => emits_of_fromQueue hqueue⟩
  refine .inl ⟨run, hrun, hnxt, hofo, hwritten, ?_⟩
  have hupdate : updateRcvNxt tsk cb = { tsk with rcvNxt := cb.seqEnd } := if_pos hnone
  have henter : (entered tsk cb reads).tsk.rcvNxt = cb.seqEnd := by
    rw [(entered_receive tsk cb reads).2.2.2.1, hupdate]
  rw [tcpProcess_of_not_lost tsk cb newIss reads (not_lost_of_ok hrun)] at hrun
  rcases h with h | h | h
  · have hfin : processFlags (entered tsk cb reads) cb newIss =
        .ok (processFin (entered tsk cb reads)) := by rw [processFlags, h]; rfl
    have hplain : entered tsk cb reads = ⟨{ tsk with rcvNxt := cb.seqEnd }, reads, []⟩ := by
      rw [entered_of_not_ack tsk cb reads (by rw [h]; decide), hupdate]
    rw [hfin, hplain] at hrun
    rw [← Except.ok.inj hrun]
    exact emits_processFin h reads
  · have hack : processFlags (entered tsk cb reads) cb newIss =
        .ok (processPureAck (entered tsk cb reads)) := by rw [processFlags, h]; rfl
    rw [← Except.ok.inj (hack.symm.trans hrun)]
    exact emits_processPureAck hqueue
  · have hackfin : processFlags (entered tsk cb reads) cb newIss =
        .ok (processAckFin (entered tsk cb reads)) := by rw [processFlags, h]; rfl
    rw [← Except.ok.inj (hackfin.symm.trans hrun)]
    exact emits_processAckFin hqueue henter

end Emission

section Delivery

variable {st : Stream} {shut : Prop} {e : EndState} {back out : List Segment} {p : Segment}

/-- A packet without data ends where it begins, or one later. -/
theorem arrival_seqEnd (id : UInt16) (hdata : p.data = []) : (arrival p id).seqEnd =
    p.seq + if p.flags &&& (tcpSyn ||| tcpFin) ≠ 0 then 1 else 0 := by
  have hlen : (UInt16.ofNat (40 + 0)).toUInt32 - (4 * (5 : UInt8).toUInt16).toUInt32 -
      4 * (5 : UInt8).toUInt32 = 0 := by decide
  simp only [arrival, tcpCbInit, tcpSeqEnd, ipHdrOf, tcpHdrOf, ipHdrSize, hdata, List.length_nil,
    hlen, UInt32.add_zero]
  rfl

theorem arrival_data {j : Fin st.segs.length} (id : UInt16) (hflags : p.flags = tcpPsh)
    (hseq : p.seq = st.pos (st.bound j)) (hdata : p.data = st.payload (.data j)) :
    arrival p id = st.cb (.data j) (ipHdrOf p id) (tcpHdrOf p) := by
  simp only [arrival, Stream.cb, Stream.seq, Stream.flags, Stream.payload, ipHdrOf, tcpHdrOf,
    hflags, hseq, hdata]

theorem OfStream.closes (h : OfStream st shut p) (hpsh : p.flags &&& tcpPsh = 0) :
    Closes p.flags ∧ p.data = [] := by
  cases h with
  | data j hflags => exact absurd hpsh (by rw [hflags]; decide)
  | ack hflags hdata => exact ⟨.inr (.inl hflags), hdata⟩
  | fin _ hflags _ hdata => exact ⟨hflags.elim .inl fun h => .inr (.inr h), hdata⟩

theorem UpTo.covered {received : List UInt8} {nxt : UInt32} (h : UpTo st shut received nxt) :
    Covered st shut received nxt := by
  rcases h with rfl | ⟨hshut, hall, rfl⟩
  · exact .inl (UInt32.le_refl _)
  · exact .inr ⟨hshut, hall, UInt32.le_refl _⟩

/-- A packet without data that arrives in sequence leaves `rcv_nxt` where it is, or takes it over
the FIN. -/
theorem UpTo.control {received : List UInt8} {nxt : UInt32} (h : UpTo st shut received nxt)
    (hle : received.length ≤ st.total) (hp : OfStream st shut p) (hpsh : p.flags &&& tcpPsh = 0)
    (hseq : p.seq = nxt) (id : UInt16) : UpTo st shut received (arrival p id).seqEnd := by
  rw [arrival_seqEnd id (hp.closes hpsh).2]
  cases hp with
  | data j hflags => exact absurd hpsh (by rw [hflags]; decide)
  | ack hflags hdata =>
    have hnone : ¬p.flags &&& (tcpSyn ||| tcpFin) ≠ 0 := by rw [hflags]; decide
    rwa [if_neg hnone, UInt32.add_zero, hseq]
  | fin hshut hflags hend hdata =>
    have hone : p.flags &&& (tcpSyn ||| tcpFin) ≠ 0 := by
      rcases hflags with h | h <;> rw [h] <;> decide
    rw [if_pos hone, hend]
    rw [hend] at hseq
    have hall : received.length = st.total := by
      rcases h with hnxt | ⟨-, hall, -⟩
      · exact ((st.pos_eq_pos (by omega) (by omega)).mp (hseq.trans hnxt)).symm
      · exact hall
    exact .inr ⟨hshut, hall, st.pos_add st.total 1⟩

/-- How a packet of the stream is taken by the end that receives it. -/
structure Taken (st : Stream) (shut : Prop) (e : EndState) (flags : UInt8) (r : Result) : Prop where
  emits : ∃ nxt, Emits e.tsk flags nxt r.last ∧
    Covered st shut (e.received ++ written r.last.actions) nxt
  prefix_bytes : e.received ++ written r.last.actions <+: st.segs.flatten
  defined : r.stop ≠ some .undefined
  ready : r.stop = none → ∃ entries,
    UpTo st shut (e.received ++ written r.last.actions) r.last.tsk.rcvNxt ∧
      r.last.tsk.rcvOfoBuf = ⟨entries, [], false⟩ ∧
      Waiting st ((e.received ++ written r.last.actions).length + 1) entries

theorem Sink.taken_control (h : Sink st shut e back) (hhalt : e.halted = none)
    (hp : OfStream st shut p) (hpsh : p.flags &&& tcpPsh = 0) (hseq : p.seq = e.tsk.rcvNxt)
    (id : UInt16) (newIss : UInt32) (reads : List ℕ) :
    Taken st shut e p.flags (tcpProcess e.tsk (arrival p id) newIss reads) := by
  obtain ⟨entries, hupto, hlist, hwait⟩ := h.ready hhalt
  obtain ⟨run, hrun, hnxt, hofo, hnone, hemits⟩ | ⟨run, hrun, hnone, hemits⟩ :=
    tcpProcess_emits e.tsk (arrival p id) newIss reads (hp.closes hpsh).1
  swap
  · have hlast : Result.last (.error (.listHead, run)) = run := rfl
    rw [hrun]
    constructor
    · refine ⟨_, hemits e.tsk.rcvNxt, ?_⟩
      rw [hlast, hnone, List.append_nil]
      exact hupto.covered
    · rw [hlast, hnone, List.append_nil]
      exact h.prefix_bytes
    · simp [Result.stop]
    · simp [Result.stop]
  have hnext := UpTo.control hupto h.length_le hp hpsh hseq id
  have hlast : Result.last (.ok run) = run := rfl
  rw [hrun]
  constructor
  · refine ⟨_, hemits, ?_⟩
    rw [hlast, hnone, List.append_nil]
    exact hnext.covered
  · rw [hlast, hnone, List.append_nil]
    exact h.prefix_bytes
  · simp [Result.stop]
  · rw [hlast, hnone, List.append_nil, hnxt, hofo]
    exact fun _ => ⟨entries, hnext, hlist, hwait⟩

/-- What follows the segment in the list of those that wait begins at its end or later. -/
theorem Waiting.after_segment {entries : List OfoBuffer} {j : Fin st.segs.length}
    (h : Waiting st (st.bound j + 1) entries) : Waiting st (st.bound (j + 1)) entries := by
  refine ⟨h.sorted, fun buf hbuf => ?_⟩
  obtain ⟨k, hk, rfl⟩ := h.segment buf hbuf
  exact ⟨k, st.bound_mono (st.lt_of_bound_lt (by omega)), rfl⟩

/-- Data takes `rcv_nxt` to a place in the stream, if anywhere. -/
theorem processPsh_next {base : List UInt8} {run : Run} {n : ℕ} {entries : List OfoBuffer}
    {j : Fin st.segs.length} (ip : IpHdr) (tcp : TcpHdr) (hreach : Reached st base n run)
    (hnxt : run.tsk.rcvNxt = st.pos n ∨ run.tsk.rcvNxt = st.pos (st.total + 1))
    (hlist : run.tsk.rcvOfoBuf = ⟨entries, [], false⟩) (hwait : Waiting st (n + 1) entries) :
    Ends (processPsh run (st.cb (.data j) ip tcp))
      (fun r => r.tsk.rcvNxt = run.tsk.rcvNxt ∨ ∃ m ≤ st.total, r.tsk.rcvNxt = st.pos m)
      (Partial st base) := by
  have hbj := st.bound_le_total j
  have hn := hreach.le_total
  have hdata (run : Run) (hreach : Reached st base n run)
      (hnxt : run.tsk.rcvNxt = st.pos n ∨ run.tsk.rcvNxt = st.pos (st.total + 1))
      (hlist : run.tsk.rcvOfoBuf = ⟨entries, [], false⟩) :
      Ends (processData run (st.cb (.data j) ip tcp))
        (fun r => r.tsk.rcvNxt = run.tsk.rcvNxt ∨ ∃ m ≤ st.total, r.tsk.rcvNxt = st.pos m)
        (Partial st base) := by
    have hseq : (st.cb (.data j) ip tcp).seq = st.pos (st.bound j) := rfl
    have hend : (st.cb (.data j) ip tcp).seqEnd = st.pos (st.bound (j + 1)) :=
      congrArg OfoBuffer.seqEnd (cb_data_ofo j ip tcp)
    unfold processData
    rw [hseq]
    split_ifs with heq hlt
    · have hat : n = st.bound j := by
        rcases hnxt with h | h
        · exact (st.pos_eq_pos (by omega) (by omega)).mp (h.symm.trans heq)
        · have hno := (st.pos_eq_pos (by omega) (by omega)).mp (h.symm.trans heq)
          omega
      subst hat
      refine Ends.map ?_ fun r hr => by rwa [tsk_finishData]
      unfold storeInOrder
      rw [st.cb_payload, st.cb_plLen]
      apply (hreach.storeData_ends (j := j)).bind
      intro run' hs
      have hlist' : run'.tsk.rcvOfoBuf = ⟨entries, [], false⟩ := hs.2.1.trans hlist
      rw [hlist', hend, if_neg Bool.false_ne_true]
      have hdrain := drainOfo_ends entries (hreach.store hs) hwait.after_segment hlist'
      apply hdrain.bind
      intro r hr
      obtain ⟨m, rest, hm, hreach', -⟩ := hr
      exact .inr ⟨m, hreach'.le_total, hm⟩
    · unfold writeOfoBuffer
      rw [hlist, st.cb_plLen, if_neg (by simp)]
      exact .inl (by rw [tsk_finishData]; rfl)
    · exact .inl rfl
  unfold processPsh
  split_ifs
  · exact hdata _ (hreach.of_written rfl) hnxt hlist
  · exact hdata _ hreach hnxt hlist

/-- Data takes `rcv_nxt` to the end of what has been received, or leaves it behind the FIN. -/
theorem UpTo.data {received received' : List UInt8} {nxt nxt' : UInt32}
    (h : UpTo st shut received nxt) (hgrow : received.length ≤ received'.length)
    (hle : received'.length ≤ st.total)
    (hnxt : nxt' = st.pos received'.length ∨ nxt' = st.pos (st.total + 1))
    (hgo : nxt' = nxt ∨ ∃ m ≤ st.total, nxt' = st.pos m) : UpTo st shut received' nxt' := by
  rcases hnxt with hat | hfin
  · exact .inl hat
  · apply Or.inr
    rcases hgo with hsame | ⟨m, hm, hplace⟩
    · rcases h with hat | ⟨hshut, hwhole, -⟩
      · have hno := (st.pos_eq_pos (by omega) (by omega)).mp
          (hat.symm.trans (hsame.symm.trans hfin))
        omega
      · exact ⟨hshut, by omega, hfin⟩
    · have hno := (st.pos_eq_pos (by omega) (by omega)).mp (hplace.symm.trans hfin)
      omega

theorem Sink.taken_data (h : Sink st shut e back) (hhalt : e.halted = none)
    (hp : OfStream st shut p) (hpsh : ¬p.flags &&& tcpPsh = 0)
    (hfirst : e.tsk.rcvNxt < p.seq →
      ∀ first ∈ e.tsk.rcvOfoBuf.entries.head?, first.seq ≤ p.seq)
    (id : UInt16) (newIss : UInt32) (reads : List ℕ) :
    Taken st shut e p.flags (tcpProcess e.tsk (arrival p id) newIss reads) := by
  cases hp with
  | ack hflags => exact absurd (by rw [hflags]; decide) hpsh
  | fin _ hflags => exact absurd (by rcases hflags with h | h <;> rw [h] <;> decide) hpsh
  | data j hflags hseq hdata =>
    obtain ⟨entries, hupto, hlist, hwait⟩ := h.ready hhalt
    have hcb := arrival_data id hflags hseq hdata
    have hpshOnly : (arrival p id).flags = tcpPsh := hflags
    have hbuf : (tcpProcess e.tsk (arrival p id) newIss reads).last.tsk.sendBuf =
        e.tsk.sendBuf := by
      have hnone : ¬(arrival p id).flags &&& tcpAck ≠ 0 := by rw [hpshOnly]; decide
      have hfin : ¬((arrival p id).flags = tcpFin ∧ e.tsk.state = .established) := by
        rw [hpshOnly]
        exact fun hno => absurd hno.1 (by decide)
      rw [sendBuf_deliver, releasedBy, storedBy, if_neg hnone, if_neg hfin]
      simp
    have hreach : Reached st e.received e.received.length ⟨e.tsk, reads, []⟩ :=
      ⟨h.length_le, by
        rw [← List.prefix_iff_eq_take.mp h.prefix_bytes]
        exact List.append_nil _⟩
    have hnxt : e.tsk.rcvNxt = st.pos e.received.length ∨
        e.tsk.rcvNxt = st.pos (st.total + 1) := hupto.imp_right fun hend => hend.2.2
    rw [hlist, hseq] at hfirst
    have hends := processPsh_ends (ipHdrOf p id) (tcpHdrOf p) hreach hnxt hlist hwait hfirst
    have hnext := processPsh_next (j := j) (ipHdrOf p id) (tcpHdrOf p) hreach hnxt hlist hwait
    have hsilent : SentNone ⟨e.tsk, reads, []⟩ := rfl
    rw [← hcb] at hends hnext
    have hall := (hends.and hnext).and (processPsh_sends hsilent (arrival p id))
    have hcall : tcpProcess e.tsk (arrival p id) newIss reads =
        processPsh ⟨e.tsk, reads, []⟩ (arrival p id) := tcpProcess_data hpshOnly
    rw [← hcall] at hall
    have hkept (nxt : UInt32) (buf : SendBuffer)
        (hmem : buf ∈ (tcpProcess e.tsk (arrival p id) newIss reads).last.tsk.sendBuf) :
        Emitted e.tsk p.flags nxt buf.packet := .kept buf (hbuf ▸ hmem) rfl
    cases hr : tcpProcess e.tsk (arrival p id) newIss reads with
    | ok run =>
      rw [hr] at hall hkept
      obtain ⟨⟨⟨n, rest, hreach', hnxt', hofo, hwait'⟩, hgo⟩, hacks⟩ := hall
      have hlen : (e.received ++ written run.actions).length = n := by
        have hn := hreach'.le_total
        rw [hreach'.bytes, List.length_take]
        exact min_eq_left hn
      have hgrow : e.received.length ≤ (e.received ++ written run.actions).length := by simp
      have hupto' : UpTo st shut (e.received ++ written run.actions) run.tsk.rcvNxt :=
        hupto.data hgrow (hlen.trans_le hreach'.le_total) (by rwa [hlen]) hgo
      refine ⟨⟨run.tsk.rcvNxt, ⟨fun q hq => ?_, hkept _⟩, hupto'.covered⟩, hreach'.prefix_bytes,
        by simp [Result.stop], fun _ => ⟨rest, hupto', hofo, ?_⟩⟩
      · rw [hacks q hq]
        exact .ack rfl rfl rfl
      · have hlast : Result.last (.ok run) = run := rfl
        rw [hlast, hlen]
        exact hwait'
    | error r =>
      rw [hr] at hall hkept
      obtain ⟨⟨⟨hdefined, m, hreach'⟩, -⟩, hnone⟩ := hall
      have hlen : e.received.length ≤ (e.received ++ written r.2.actions).length := by simp
      refine ⟨⟨e.tsk.rcvNxt, ⟨fun q hq => ?_, hkept _⟩, ?_⟩, hreach'.prefix_bytes, ?_, ?_⟩
      · have hmem : q ∈ sentPackets r.2.actions := hq
        rw [hnone] at hmem
        cases hmem
      · exact hupto.covered.grow hlen hreach'.prefix_bytes.length_le
      · exact fun heq => hdefined (Option.some.inj heq)
      · exact fun heq => absurd heq (by simp [Result.stop])

end Delivery

end NetworkLab.Tcp
