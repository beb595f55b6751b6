import NetworkLab.GuardedRuns
import NetworkLab.TcpFrame

/-!
# The assertion of the ring buffer

`write_ring_buffer` asserts that it gets at least one byte and has space for all of them.
Space is waited for; the length comes from the headers of the packet and is not looked at.
-/
namespace NetworkLab.Tcp
open GuardedRuns Outcomes

section Receive

/-- `handle_tcp_packet` for a packet that the lookup leads to this socket; `none` where the
checksum is wrong. `data` of the packet is what the memory holds after the header, as far
as the length fields reach. -/
def handleTcpPacket (tsk : TcpSock) (p : Packet) (newIss : UInt32) (reads : List ℕ) :
    Option Result :=
  if tcpChecksum p ≠ p.tcp.checksum then none
  else some (tcpProcess tsk (tcpCbInit p.ip p.tcp p.data) newIss reads)

/-- A socket, and why the call that got its last packet has stopped, if it has. -/
structure Endpoint where
  tsk : TcpSock
  halted : Option Stop

/-- `change` is what anything else does to the socket. -/
inductive EndpointEvent
  | receive (p : Packet) (newIss : UInt32) (reads : List ℕ)
  | change (tsk : TcpSock)

def Endpoint.after (s : Endpoint) : Option Result → Endpoint
  | none => s
  | some (.ok run) => ⟨run.tsk, none⟩
  | some (.error (stop, run)) => ⟨run.tsk, some stop⟩

/-- Only `tcp_process` changes `rcv_ofo_buf`. -/
def Endpoint.step (s : Endpoint) : EndpointEvent → Option Endpoint
  | .receive p newIss reads =>
    if s.halted = none then some (s.after (handleTcpPacket s.tsk p newIss reads)) else none
  | .change tsk =>
    if s.halted = none ∧ tsk.rcvOfoBuf = s.tsk.rcvOfoBuf then some ⟨tsk, none⟩ else none

/-- A socket as `alloc_tcp_sock` leaves its `rcv_ofo_buf`. -/
def Endpoint.Opened (s : Endpoint) : Prop := s.halted = none ∧ s.tsk.rcvOfoBuf = ⟨[], [], false⟩

/-- A packet with PSH that is not from before `rcv_nxt` has data. -/
def HasData (tsk : TcpSock) (cb : TcpCb) : Prop :=
  IsData cb → tsk.rcvNxt ≤ cb.seq → 0 < cb.plLen

instance (tsk : TcpSock) (cb : TcpCb) : Decidable (HasData tsk cb) :=
  inferInstanceAs (Decidable (_ → _))

def EventHasData (s : Endpoint) : EndpointEvent → Prop
  | .receive p _ _ => tcpChecksum p = p.tcp.checksum → HasData s.tsk (tcpCbInit p.ip p.tcp p.data)
  | .change _ => True

end Receive

section Assertion

/-- The segments that came out of order have data. -/
def OfoHasData (tsk : TcpSock) : Prop := ∀ ofo ∈ tsk.rcvOfoBuf.entries, 0 < ofo.plLen

/-- The call does not fail the assertion, and returns with `post`. -/
def Asserted {α : Type} (r : Except (Stop × Run) α) (post : α → Prop) : Prop :=
  Ends r post fun e => e.1 ≠ .aborted

/-- After the wait there is space. -/
theorem waitSpace_asserted (n : ℤ) (tsk : TcpSock) (actions : List Action) (reads : List ℕ) :
    Asserted (waitSpace n tsk actions reads) fun run =>
      n ≤ run.tsk.ringBufferFree ∧ run.tsk.rcvOfoBuf = tsk.rcvOfoBuf := by
  induction reads generalizing tsk actions with
  | nil =>
    simp only [waitSpace]
    split_ifs with hfull
    · simp [Asserted]
    · simpa [Asserted] using hfull
  | cons len reads ih =>
    simp only [waitSpace]
    split_ifs with hfull
    · exact ih (tsk.read len) (actions ++ [.wakeUp .read])
    · simpa [Asserted] using hfull

theorem storeData_asserted (run : Run) (data : List UInt8) {n : ℤ} (hn : 0 < n) :
    Asserted (storeData run data n) fun run' => run'.tsk.rcvOfoBuf = run.tsk.rcvOfoBuf := by
  apply (waitSpace_asserted n run.tsk run.actions run.reads).bind
  rintro run' ⟨hfree, hofo⟩
  have hfit : n > 0 ∧ run'.tsk.ringBufferFree ≥ n := ⟨hn, hfree⟩
  rw [writeRingBuffer, if_pos hfit]
  exact hofo

/-- Each entry has data when it is stored. -/
theorem drainOfo_asserted (entries : List OfoBuffer) (seqEnd : UInt32) {run : Run}
    (hentries : run.tsk.rcvOfoBuf.entries = entries) (hdata : OfoHasData run.tsk) :
    Asserted (drainOfo entries seqEnd run) fun r => OfoHasData r.2.tsk := by
  induction entries generalizing seqEnd run with
  | nil => exact hdata
  | cons ofo rest ih =>
    have hmem : ∀ b ∈ ofo :: rest, 0 < b.plLen := hentries ▸ hdata
    simp only [drainOfo]
    split_ifs
    · exact hdata
    · apply (storeData_asserted run ofo.payload (hmem ofo List.mem_cons_self)).bind
      intro run' _
      apply ih ofo.seqEnd rfl
      intro b hb
      exact hmem b (List.mem_cons_of_mem ofo hb)

theorem storeInOrder_asserted {run : Run} {cb : TcpCb} (hlen : 0 < cb.plLen)
    (hdata : OfoHasData run.tsk) :
    Asserted (storeInOrder run cb) fun run' => OfoHasData run'.tsk := by
  apply (storeData_asserted run cb.payload hlen).bind
  intro run' hofo
  have hdata' : OfoHasData run'.tsk := by
    rw [OfoHasData, hofo]
    exact hdata
  split_ifs
  · simp
  · exact (drainOfo_asserted run'.tsk.rcvOfoBuf.entries cb.seqEnd rfl hdata').bind fun r hr => hr

theorem writeOfoBuffer_asserted {run : Run} {cb : TcpCb} (hlen : 0 < cb.plLen)
    (hdata : OfoHasData run.tsk) :
    Asserted (writeOfoBuffer run cb) fun run' => OfoHasData run'.tsk := by
  unfold writeOfoBuffer
  split_ifs
  · simp [Asserted]
  · intro ofo hofo
    rcases mem_insert hofo with rfl | hmem
    · exact hlen
    · exact hdata ofo hmem

theorem processData_asserted {run : Run} {cb : TcpCb}
    (hlen : run.tsk.rcvNxt ≤ cb.seq → 0 < cb.plLen) (hdata : OfoHasData run.tsk) :
    Asserted (processData run cb) fun run' => OfoHasData run'.tsk := by
  have hfinish (run' : Run) (h : OfoHasData run'.tsk) : OfoHasData (finishData run').tsk := by
    rwa [tsk_finishData]
  unfold processData
  split_ifs with hseq hlt
  · exact (storeInOrder_asserted (hlen (hseq ▸ UInt32.le_refl _)) hdata).map hfinish
  · exact (writeOfoBuffer_asserted (hlen (UInt32.le_of_lt hlt)) hdata).map hfinish
  · exact hdata

/-- A packet fails no assertion. -/
theorem tcpProcess_asserted {tsk : TcpSock} {cb : TcpCb} (newIss : UInt32) (reads : List ℕ)
    (hcb : HasData tsk cb) (hdata : OfoHasData tsk) :
    Asserted (tcpProcess tsk cb newIss reads) fun run => OfoHasData run.tsk := by
  obtain ⟨-, -, hofo, -⟩ := entered_receive tsk cb reads
  have hentered : OfoHasData (entered tsk cb reads).tsk := by
    rw [OfoHasData, hofo]
    exact hdata
  by_cases hlost : (entered tsk cb reads).Lost
  · rw [tcpProcess_of_lost tsk cb newIss reads hlost]
    simp [Asserted]
  rw [tcpProcess_of_not_lost tsk cb newIss reads hlost]
  by_cases hpsh : IsData cb
  · have hlen : (entered tsk cb reads).tsk.rcvNxt ≤ cb.seq → 0 < cb.plLen := by
      rw [entered_rcvNxt_of_data tsk cb reads hpsh]
      exact hcb hpsh
    rw [processFlags_data _ newIss hpsh, processPsh]
    split_ifs <;> exact processData_asserted hlen hentered
  · obtain ⟨run', hrun, htsk, -⟩ := processFlags_control (entered tsk cb reads) newIss hpsh
    obtain ⟨-, -, -, hofo'⟩ := switched_receive (entered tsk cb reads).tsk cb.flags
    rw [hrun]
    show OfoHasData run'.tsk
    rw [OfoHasData, htsk, hofo']
    exact hentered

end Assertion

section Runs

/-- The invariant of a run whose packets have data. -/
def Endpoint.Asserted (s : Endpoint) : Prop :=
  s.halted ≠ some .aborted ∧ (s.halted = none → OfoHasData s.tsk)

theorem Endpoint.Asserted.step {s t : Endpoint} {e : EndpointEvent} (h : s.Asserted)
    (hdata : EventHasData s e) (hstep : s.step e = some t) : t.Asserted := by
  cases e with
  | receive p newIss reads =>
    simp only [Endpoint.step] at hstep
    split_ifs at hstep with hrunning
    cases hstep
    unfold handleTcpPacket
    split_ifs with hsum
    · exact h
    · have hends := tcpProcess_asserted newIss reads (hdata (not_not.mp hsum)) (h.2 hrunning)
      cases hr : tcpProcess s.tsk (tcpCbInit p.ip p.tcp p.data) newIss reads with
      | ok run =>
        rw [hr] at hends
        exact ⟨by simp [Endpoint.after], fun _ => hends⟩
      | error e =>
        rw [hr] at hends
        exact ⟨fun haborted => hends (Option.some.inj haborted), by simp [Endpoint.after]⟩
  | change tsk =>
    simp only [Endpoint.step] at hstep
    split_ifs at hstep with hsame
    cases hstep
    refine ⟨by simp, fun _ => ?_⟩
    rw [OfoHasData, hsame.2]
    exact h.2 hsame.1

/-- Whatever packets arrive, the assertion holds as long as each with PSH that is not from
before `rcv_nxt` has data. -/
theorem ring_assertion_holds {s : Endpoint}
    (h : Reaches Endpoint.step EventHasData Endpoint.Opened s) : s.halted ≠ some .aborted := by
  have hinv : s.Asserted := by
    refine h.invariant Endpoint.Asserted (fun s hs => ?_) fun s e t hinv hok hstep =>
      hinv.step hok hstep
    refine ⟨by simp [hs.1], fun _ => ?_⟩
    simp [OfoHasData, hs.2]
  exact hinv.1

/-- A packet with PSH and its checksums. -/
def pushed (data : List UInt8) : Packet :=
  setChecksums ⟨[], ⟨4, 5, 0, 40 + UInt16.ofNat data.length, 0, 0, 64, ipprotoTcp, 0, 2, 1⟩, [],
    ⟨1024, 80, 501, 101, 5, tcpPsh ||| tcpAck, 8192, 0, 0⟩, data⟩

theorem tcpChecksum_pushed (data : List UInt8) :
    tcpChecksum (pushed data) = (pushed data).tcp.checksum := rfl

def idleEnd : Endpoint := ⟨{ allocTcpSock with state := .established, rcvNxt := 501 }, none⟩

theorem step_pushed (data : List UInt8) : idleEnd.step (.receive (pushed data) 0 []) =
    some (idleEnd.after (some (tcpProcess idleEnd.tsk
      (tcpCbInit (pushed data).ip (pushed data).tcp (pushed data).data) 0 []))) := by
  simp [Endpoint.step, handleTcpPacket, tcpChecksum_pushed, idleEnd]

theorem ring_assertion_holds_pushed : ∃ s : Endpoint,
    s.tsk.rcvBuf = [65, 66] ∧ s.halted ≠ some .aborted := by
  have hdata : EventHasData idleEnd (.receive (pushed [65, 66]) 0 []) :=
    fun _ _ _ => show (0 : ℤ) < 2 by decide
  refine ⟨_, ?_, ring_assertion_holds (.next (.start ⟨rfl, rfl⟩) hdata (step_pushed [65, 66]))⟩
  decide +kernel

/-- A packet with PSH and no data. -/
theorem ring_assertion_fails : ∃ s : Endpoint,
    Reaches Endpoint.step anyStep Endpoint.Opened s ∧ s.halted = some .aborted := by
  refine ⟨_, .next (.start ⟨rfl, rfl⟩) trivial (step_pushed []), ?_⟩
  decide +kernel

end Runs

end NetworkLab.Tcp
