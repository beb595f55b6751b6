import NetworkLab.AckRecovery

/-!
# Segments from outside the receive window

`is_tcp_seq_valid` says which packets the receive window admits; `tcp_process` never
asks it. What a packet that it would reject does to the receive side of a
synchronized socket depends on its flags.
-/
namespace NetworkLab.Tcp
open Outcomes

section Window

/-- `ESTABLISHED` or later. -/
def Synchronized (state : TcpState) : Prop :=
  state ≠ .closed ∧ state ≠ .listen ∧ state ≠ .synRecv ∧ state ≠ .synSent

instance (state : TcpState) : Decidable (Synchronized state) :=
  inferInstanceAs (Decidable (_ ∧ _))

def isTcpSeqValid (tsk : TcpSock) (cb : TcpCb) : Bool :=
  let rcvEnd := tsk.rcvNxt + UInt32.ofNat (max tsk.rcvWnd.toNat 1)
  lessThan32b cb.seq rcvEnd && lessOrEqual32b tsk.rcvNxt cb.seqEnd

theorem toInt_sub_add (a : UInt32) {k : ℕ} (hk : k < 2 ^ 31) :
    (a - (a + UInt32.ofNat k)).toInt32.toInt = -k := by
  have hneg : a - (a + UInt32.ofNat k) = -UInt32.ofNat k := by grind
  have hsize : (Int32.size : ℤ) = 2 ^ 32 := rfl
  have hsmall : (k : ℤ).bmod Int32.size = k := Int.bmod_eq_of_le (by omega) (by omega)
  rw [hneg, UInt32.toInt32_neg, UInt32.toInt32_ofNat', Int32.toInt_neg, Int32.toInt_ofNat', hsmall]
  exact Int.bmod_eq_of_le (by omega) (by omega)

theorem lessOrEqual32b_ahead (a : UInt32) {k : ℕ} (hk : k < 2 ^ 31) :
    lessOrEqual32b a (a + UInt32.ofNat k) = true := by
  simp only [lessOrEqual32b, decide_eq_true_eq, Int32.le_iff_toInt_le, toInt_sub_add a hk]
  simp

theorem lessThan32b_ahead (a : UInt32) {k : ℕ} (hpos : 0 < k) (hk : k < 2 ^ 31) :
    lessThan32b a (a + UInt32.ofNat k) = true := by
  simp only [lessThan32b, decide_eq_true_eq, Int32.lt_iff_toInt_lt, toInt_sub_add a hk]
  simp only [Int32.toInt_zero]
  omega

end Window

section Length

/-- Number of the byte after a segment of length `n`. -/
theorem seqEnd_of_plLen {ip : IpHdr} {tcp : TcpHdr} {data : List UInt8} {n : ℕ}
    (hlen : (tcpCbInit ip tcp data).plLen = n)
    (hflags : tcp.flags &&& (tcpSyn ||| tcpFin) = 0) :
    (tcpCbInit ip tcp data).seqEnd = (tcpCbInit ip tcp data).seq + UInt32.ofNat n := by
  simp only [tcpCbInit] at hlen
  have htot := ip.totLen.toNat_lt
  have hoff := tcp.off.toNat_lt
  have hsum : ip.totLen.toUInt32 =
      (ipHdrSize ip).toUInt32 + 4 * tcp.off.toUInt32 + UInt32.ofNat n := by
    apply UInt32.toNat_inj.mp
    have hhdr := (ipHdrSize ip).toNat_lt
    have hfour : (4 : UInt32).toNat = 4 := rfl
    simp only [UInt16.toNat_toUInt32, UInt32.toNat_add, UInt32.toNat_mul, UInt8.toNat_toUInt32,
      UInt32.toNat_ofNat', hfour]
    omega
  simp only [tcpCbInit, tcpSeqEnd, hsum, hflags]
  grind

theorem plLen_lt (ip : IpHdr) (tcp : TcpHdr) (data : List UInt8) :
    (tcpCbInit ip tcp data).plLen < 2 ^ 16 := by
  have htot := ip.totLen.toNat_lt
  simp only [tcpCbInit]
  omega

/-- A segment that begins at `rcv_nxt` is inside the window unless its length is negative. -/
theorem plLen_neg_of_invalid {tsk : TcpSock} {ip : IpHdr} {tcp : TcpHdr} {data : List UInt8}
    (hseq : tsk.rcvNxt = (tcpCbInit ip tcp data).seq)
    (hflags : tcp.flags &&& (tcpSyn ||| tcpFin) = 0)
    (h : isTcpSeqValid tsk (tcpCbInit ip tcp data) = false) :
    (tcpCbInit ip tcp data).plLen < 0 := by
  by_contra hge
  obtain ⟨n, hlen⟩ := Int.eq_ofNat_of_zero_le (Int.not_lt.mp hge)
  have hsmall := plLen_lt ip tcp data
  have hwnd := tsk.rcvWnd.toNat_lt
  have hend := lessOrEqual32b_ahead tsk.rcvNxt (k := n) (by omega)
  have hbegin := lessThan32b_ahead tsk.rcvNxt (k := max tsk.rcvWnd.toNat 1) (by omega) (by omega)
  simp only [isTcpSeqValid, seqEnd_of_plLen hlen hflags, ← hseq, hend, hbegin] at h
  exact absurd h (by decide)

end Length

section Inert

/-- The receive side is as before, and the call has returned. -/
def Inert (tsk : TcpSock) (r : Result) : Prop :=
  ∃ run, r = .ok run ∧ run.tsk.rcvNxt = tsk.rcvNxt ∧ run.tsk.rcvWnd = tsk.rcvWnd ∧
    run.tsk.rcvBuf = tsk.rcvBuf ∧ run.tsk.rcvOfoBuf = tsk.rcvOfoBuf ∧ run.tsk.state = tsk.state

/-- The packet is none that moves the state. -/
structure Quiescent (state : TcpState) (flags : UInt8) : Prop where
  ack : flags = tcpAck → state ≠ .finWait1 ∧ state ≠ .lastAck
  ackFin : flags = tcpAck ||| tcpFin → state ≠ .finWait1
  fin : flags = tcpFin → state ≠ .established ∧ state ≠ .finWait2

/-- The walk of `write_ofo_buffer` meets an entry that begins where the segment does. -/
def AlreadyStored (entries : List OfoBuffer) (seq : UInt32) : Prop :=
  ∃ pos ∈ (entries.dropWhile fun pos => decide (pos.seq < seq)).head?, pos.seq = seq

/-- The packets that the switch over the flags does nothing with. -/
def Idle (tsk : TcpSock) (cb : TcpCb) : Prop :=
  if cb.flags &&& tcpPsh = 0 then cb.seqEnd = tsk.rcvNxt ∧ Quiescent tsk.state cb.flags
  else IsData cb → tsk.rcvNxt ≠ cb.seq ∧ (tsk.rcvNxt < cb.seq →
    0 ≤ cb.plLen ∧ tsk.rcvOfoBuf.dangling = false ∧
      AlreadyStored tsk.rcvOfoBuf.entries cb.seq)

/-- The packets that do no harm although no test has rejected them. -/
def Harmless (tsk : TcpSock) (cb : TcpCb) : Prop := ¬CopiesHead tsk cb ∧ Idle tsk cb

theorem nextState_eq_iff {state : TcpState} {flags : UInt8} (hsync : Synchronized state) :
    nextState state flags = state ↔ Quiescent state flags := by
  obtain ⟨hclosed, hlisten, hrecv, hsent⟩ := hsync
  constructor
  · intro h
    refine ⟨?_, ?_, ?_⟩
    · rintro rfl
      constructor <;> rintro rfl <;> exact absurd h (by decide)
    · rintro rfl rfl
      exact absurd h (by decide)
    · rintro rfl
      constructor <;> rintro rfl <;> exact absurd h (by decide)
  · intro h
    unfold nextState
    split_ifs with hack hdata hackfin hwait hfin
    · obtain ⟨hwait, hlast⟩ := h.ack hack
      cases state <;> first | rfl | contradiction
    · rfl
    · exact absurd hwait (h.ackFin hackfin)
    · rfl
    · obtain ⟨hest, hwait⟩ := h.fin hfin
      cases state <;> first | rfl | contradiction
    · rfl

theorem insertOfo_eq_iff (buf : OfoBuffer) (entries : List OfoBuffer) :
    insertOfo buf entries = entries ↔ AlreadyStored entries buf.seq := by
  induction entries with
  | nil => simp [insertOfo, AlreadyStored]
  | cons pos rest ih =>
    unfold insertOfo AlreadyStored
    by_cases hlt : pos.seq < buf.seq
    · rw [if_pos hlt, List.dropWhile_cons_of_pos (by simpa using hlt), List.cons.injEq, ih]
      exact ⟨fun h => h.2, fun h => ⟨rfl, h⟩⟩
    · rw [if_neg hlt, List.dropWhile_cons_of_neg (by simpa using hlt)]
      by_cases heq : buf.seq = pos.seq
      · rw [if_pos heq]
        exact ⟨fun _ => ⟨pos, rfl, heq.symm⟩, fun _ => rfl⟩
      · rw [if_neg heq]
        refine ⟨fun h => ?_, ?_⟩
        · have hlen := congrArg List.length h
          simp at hlen
        · rintro ⟨first, hfirst, hseq⟩
          obtain rfl : pos = first := by simpa using hfirst
          exact absurd hseq.symm heq

theorem insert_eq_iff (l : OfoList) (buf : OfoBuffer) :
    l.insert buf = l ↔ AlreadyStored l.entries buf.seq := by
  obtain ⟨entries, hidden, dangling⟩ := l
  cases entries with
  | nil => simp [OfoList.insert, AlreadyStored]
  | cons pos rest =>
    have hwalk := insertOfo_eq_iff buf (pos :: rest)
    unfold insertOfo at hwalk
    rw [← hwalk]
    have hcons : OfoList.insert ⟨pos :: rest, hidden, dangling⟩ buf =
        if buf.seq > pos.seq then ⟨pos :: insertOfo buf rest, hidden, dangling⟩
        else if buf.seq = pos.seq then ⟨pos :: rest, hidden, dangling⟩
        else ⟨pos :: rest, buf :: hidden, dangling⟩ := rfl
    rw [hcons]
    split_ifs with hgt heq
    · exact ⟨congrArg OfoList.entries, congrArg (OfoList.mk · hidden dangling)⟩
    · exact ⟨fun _ => rfl, fun _ => rfl⟩
    · refine ⟨fun h => ?_, fun h => ?_⟩
      · have hlen := congrArg (·.hidden.length) h
        simp at hlen
      · have hlen := congrArg List.length h
        simp at hlen

/-- A segment of negative length stops at the assertion of `write_ring_buffer`. -/
theorem storeInOrder_of_neg {run : Run} {cb : TcpCb} (hneg : cb.plLen < 0) (a : Run) :
    storeInOrder run cb ≠ .ok a := by
  have hstore (r : Run) : storeData run cb.payload cb.plLen ≠ .ok r := by
    unfold storeData
    cases waitSpace cb.plLen run.tsk run.actions run.reads with
    | ok w =>
      have hwrite : writeRingBuffer w cb.payload cb.plLen = .error (.aborted, w) :=
        if_neg fun h => by omega
      intro h
      cases hwrite.symm.trans h
    | error e =>
      intro h
      cases h
  intro h
  unfold storeInOrder at h
  cases hr : storeData run cb.payload cb.plLen with
  | ok r => exact hstore r hr
  | error e =>
    rw [hr] at h
    cases h

theorem entered_of_psh (tsk : TcpSock) {cb : TcpCb} (reads : List ℕ)
    (hpsh : cb.flags &&& tcpPsh ≠ 0) : SendFrame tsk (entered tsk cb reads).tsk := by
  have h := (onlySend_entered tsk cb reads).frame
  rwa [show updateRcvNxt tsk cb = tsk from if_neg hpsh] at h

/-- Data at a synchronized socket. -/
theorem processFlags_data_sync {tsk : TcpSock} {cb : TcpCb} (newIss : UInt32) (reads : List ℕ)
    (hsync : Synchronized tsk.state) (hdata : IsData cb) :
    processFlags (entered tsk cb reads) cb newIss = processData (entered tsk cb reads) cb := by
  rw [processFlags_data _ newIss hdata, processPsh, (entered_fields tsk cb reads).1,
    if_neg hsync.2.2.1]

theorem inert_data_iff {tsk : TcpSock} {ip : IpHdr} {tcp : TcpHdr} {data : List UInt8}
    (newIss : UInt32) (reads : List ℕ) (hsync : Synchronized tsk.state)
    (hdata : IsData (tcpCbInit ip tcp data))
    (hbad : isTcpSeqValid tsk (tcpCbInit ip tcp data) = false) :
    Inert tsk (processFlags (entered tsk (tcpCbInit ip tcp data) reads)
        (tcpCbInit ip tcp data) newIss) ↔
      Idle tsk (tcpCbInit ip tcp data) := by
  have hflags : tcp.flags &&& (tcpSyn ||| tcpFin) = 0 := by
    rcases hdata with h | h <;> simp only [tcpCbInit] at h <;> rw [h] <;> decide
  have hneg (hseq : tsk.rcvNxt = (tcpCbInit ip tcp data).seq) :=
    plLen_neg_of_invalid hseq hflags hbad
  generalize tcpCbInit ip tcp data = cb at *
  have hpsh : cb.flags &&& tcpPsh ≠ 0 := by
    rcases hdata with h | h <;> rw [h] <;> decide
  obtain ⟨_, _, _, _, _, _, _, _, _, _, _, hsend⟩ := entered_of_psh tsk reads hpsh
  rw [processFlags_data_sync newIss reads hsync hdata, Idle, if_neg hpsh]
  unfold processData
  simp only [hsend, hdata, true_implies]
  split_ifs with hseq hlt
  · refine ⟨fun h => ?_, fun h => absurd hseq h.1⟩
    obtain ⟨run, hrun, -⟩ := h
    cases hr : storeInOrder (entered tsk cb reads) cb with
    | ok a => exact absurd hr (storeInOrder_of_neg (hneg hseq) a)
    | error e =>
      rw [hr] at hrun
      cases hrun
  · simp only [ne_eq, hseq, not_false_eq_true, true_and, hlt, true_implies]
    have hstored : tsk.rcvOfoBuf.insert cb.ofoBuffer = tsk.rcvOfoBuf ↔
        AlreadyStored tsk.rcvOfoBuf.entries cb.seq := insert_eq_iff _ cb.ofoBuffer
    rw [← hstored]
    have hofo : (entered tsk cb reads).tsk.rcvOfoBuf = tsk.rcvOfoBuf := by rw [hsend]
    unfold writeOfoBuffer
    rw [hofo]
    split_ifs with hstop
    · refine ⟨?_, fun h => ?_⟩
      · rintro ⟨run, hrun, -⟩
        cases hrun
      · rcases hstop with hlen | hdangling
        · exact absurd h.1 (not_le.mpr hlen)
        · simp [hdangling] at h
    · rw [not_or, not_lt, Bool.not_eq_true] at hstop
      constructor
      · rintro ⟨run, hrun, -, -, -, hsame, -⟩
        cases hrun
        rw [tsk_finishData, Run.update_tsk, hsend] at hsame
        exact ⟨hstop.1, hstop.2, hsame⟩
      · intro h
        refine ⟨_, rfl, ?_⟩
        rw [tsk_finishData, Run.update_tsk, hsend]
        exact ⟨rfl, rfl, rfl, h.2.2, rfl⟩
  · refine ⟨fun _ => ⟨hseq, fun h => absurd h hlt⟩, fun _ => ⟨_, rfl, ?_⟩⟩
    rw [tsk_tcpSendControlPacket_ack, hsend]
    exact ⟨rfl, rfl, rfl, rfl, rfl⟩

theorem inert_control_iff {tsk : TcpSock} {cb : TcpCb} (newIss : UInt32) (reads : List ℕ)
    (hsync : Synchronized tsk.state) (hdata : ¬IsData cb) :
    Inert tsk (processFlags (entered tsk cb reads) cb newIss) ↔ Idle tsk cb := by
  obtain ⟨run, hrun, hframe, -⟩ := processFlags_control (entered tsk cb reads) newIss hdata
  obtain ⟨hnxt, hwnd, hbuf, hofo⟩ := switched_receive (entered tsk cb reads).tsk cb.flags
  have hstate := (switched_state (entered tsk cb reads).tsk cb.flags).trans
    (congrArg (nextState · cb.flags) (entered_fields tsk cb reads).1)
  obtain ⟨_, _, _, _, _, _, _, _, _, _, _, hsend⟩ := (onlySend_entered tsk cb reads).frame
  rw [← hframe, hsend] at hnxt hwnd hbuf hofo
  rw [← hframe] at hstate
  rw [hrun, Idle]
  by_cases hpsh : cb.flags &&& tcpPsh = 0
  · have hupdate : updateRcvNxt tsk cb = { tsk with rcvNxt := cb.seqEnd } := if_pos hpsh
    rw [hupdate] at hnxt hwnd hbuf hofo
    rw [if_pos hpsh, ← nextState_eq_iff hsync, ← hstate]
    constructor
    · rintro ⟨_, heq, hsame, -, -, -, hkeep⟩
      cases heq
      exact ⟨hnxt.symm.trans hsame, hkeep⟩
    · rintro ⟨hsame, hkeep⟩
      exact ⟨run, rfl, hnxt.trans hsame, hwnd, hbuf, hofo, hkeep⟩
  · have hupdate : updateRcvNxt tsk cb = tsk := if_neg hpsh
    rw [hupdate] at hnxt hwnd hbuf hofo
    rw [if_neg hpsh]
    refine ⟨fun _ h => absurd h hdata, fun _ => ⟨run, rfl, hnxt, hwnd, hbuf, hofo, ?_⟩⟩
    rw [hstate, nextState_eq_iff hsync]
    refine ⟨?_, ?_, ?_⟩ <;> intro h <;> rw [h] at hpsh <;> exact absurd (by decide) hpsh

/-- A packet that the window would reject leaves the receive side of a synchronized
socket alone exactly when it is harmless. -/
theorem inert_iff (tsk : TcpSock) (ip : IpHdr) (tcp : TcpHdr) (data : List UInt8)
    (newIss : UInt32) (reads : List ℕ) (hsync : Synchronized tsk.state)
    (hbad : isTcpSeqValid tsk (tcpCbInit ip tcp data) = false) :
    Inert tsk (tcpProcess tsk (tcpCbInit ip tcp data) newIss reads) ↔
      Harmless tsk (tcpCbInit ip tcp data) := by
  rw [Harmless, ← lost_iff reads]
  by_cases hlost : (entered tsk (tcpCbInit ip tcp data) reads).Lost
  · rw [tcpProcess_of_lost _ _ _ _ hlost]
    refine ⟨?_, fun h => absurd hlost h.1⟩
    rintro ⟨run, hrun, -⟩
    cases hrun
  rw [tcpProcess_of_not_lost _ _ _ _ hlost, and_iff_right hlost]
  by_cases hdata : IsData (tcpCbInit ip tcp data)
  · exact inert_data_iff newIss reads hsync hdata hbad
  · exact inert_control_iff newIss reads hsync hdata

/-- Far outside the window: an ACK without data, and a segment that has been received. -/
def atThousand : TcpSock := { allocTcpSock with state := .established, rcvNxt := 1000 }

def blindIp : IpHdr := ⟨4, 5, 0, 40, 0, 0, 64, ipprotoTcp, 0, 1, 2⟩
def blindAck : TcpHdr := ⟨80, 1024, 500000, 0, 5, tcpAck, 8192, 0, 0⟩

theorem inert_old_segment :
    Inert atThousand (tcpProcess atThousand
      (tcpCbInit { blindIp with totLen := 43 }
        { blindAck with seq := 900, flags := tcpPsh } [1, 2, 3]) 0 []) := by
  refine (inert_iff _ _ _ _ 0 [] (by decide) (by decide)).mpr ⟨by decide, ?_⟩
  exact fun _ => ⟨by decide, fun h => absurd h (by decide)⟩

/-- `rcv_nxt` jumps to the number that the packet carries. -/
theorem blind_ack_moves_rcvNxt : Synchronized atThousand.state ∧
    isTcpSeqValid atThousand (tcpCbInit blindIp blindAck []) = false ∧
    ¬Inert atThousand (tcpProcess atThousand (tcpCbInit blindIp blindAck []) 0 []) := by
  refine ⟨by decide, by decide, ?_⟩
  rintro ⟨run, hrun, hnxt, -⟩
  have hmoved : (tcpProcess atThousand (tcpCbInit blindIp blindAck []) 0 []).last.tsk.rcvNxt =
      500000 := by
    decide +kernel
  rw [hrun] at hmoved
  have hjump : run.tsk.rcvNxt = 500000 := hmoved
  rw [hjump] at hnxt
  exact absurd hnxt (by decide)

end Inert

end NetworkLab.Tcp
