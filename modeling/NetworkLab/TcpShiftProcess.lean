import NetworkLab.AckRecovery
import NetworkLab.TcpShiftData

/-!
# When the processing of a packet moves along with the sequence numbers

The ACK is handled first. Whether its loop over `send_buf` noticed the move shows in
the length of that list at the end, because a packet with ACK adds nothing to it.
The other phases are settled from the state that the ACK leaves.
-/
namespace NetworkLab.Tcp
open Outcomes Translation

variable (o : Offset)

section Flags

variable {o}

theorem childSock_shift (hsend : o.send = 0) (tsk : TcpSock) (cb : TcpCb) (newIss : UInt32) :
    childSock (tsk.shift o) (cb.shift o) newIss = (childSock tsk cb newIss).shift o := by
  simp [childSock, allocTcpSock, TcpSock.shift, TcpCb.shift, OfoList.shift, hsend]

/-- The child takes the unmoved number of the listening socket as its next one. -/
theorem processSyn_shift_iff (run : Run) (cb : TcpCb) (newIss : UInt32) :
    processSyn (run.shift o) (cb.shift o) newIss = (processSyn run cb newIss).shift o ↔
      (run.tsk.state = .listen → o.send = 0) := by
  unfold processSyn
  simp only [Run.shift_tsk, TcpSock.shift_state]
  split
  · simp only [shift_act]
    constructor
    · intro h _
      have hlast := congrArg (fun run => run.actions.getLast?) h
      simp only [Run.act_actions, List.getLast?_concat, Option.some.injEq] at hlast
      have hpacket := congrArg Segment.seq (Action.ipSendPacket.inj hlast)
      change run.tsk.iss = run.tsk.iss + o.send at hpacket
      grind
    · intro hsend
      rw [childSock_shift (hsend ‹_›), afterControl_shift]
      rfl
  · next hstate => exact ⟨fun _ h => absurd h hstate, fun _ => rfl⟩

theorem processFlags_shift_iff (run : Run) (cb : TcpCb) (newIss : UInt32) :
    processFlags (run.shift o) (cb.shift o) newIss = (processFlags run cb newIss).shift o ↔
      (cb.flags = tcpSyn → run.tsk.state = .listen → o.send = 0) ∧
        (IsData cb → DataKeeps o run cb) := by
  have hok (run run' : Run) : (Except.ok run : Result) = Result.shift o (.ok run') ↔
      run = run'.shift o := ⟨Except.ok.inj, congrArg Except.ok⟩
  unfold processFlags
  simp only [TcpCb.shift_flags]
  by_cases hsyn : cb.flags = tcpSyn
  · have hdata : ¬IsData cb := by
      rw [IsData, hsyn]
      decide
    rw [if_pos hsyn, if_pos hsyn, hok, processSyn_shift_iff]
    exact ⟨fun h => ⟨fun _ => h, fun h' => absurd h' hdata⟩, fun h => h.1 hsyn⟩
  rw [if_neg hsyn, if_neg hsyn]
  by_cases hdata : IsData cb
  · have hflags : cb.flags = tcpPsh ∨ cb.flags = tcpPsh ||| tcpAck := hdata
    have hsynack : ¬cb.flags = tcpSyn ||| tcpAck := by
      rcases hdata with h | h <;> rw [h] <;> decide
    have hack : ¬cb.flags = tcpAck := by
      rcases hdata with h | h <;> rw [h] <;> decide
    rw [if_neg hsynack, if_neg hsynack, if_neg hack, if_neg hack, if_pos hflags, if_pos hflags,
      processPsh_shift_iff]
    exact ⟨fun h => ⟨fun h' => absurd h' hsyn, fun _ => h⟩, fun h => h.2 hdata⟩
  · refine ⟨fun _ => ⟨fun h => absurd h hsyn, fun h => absurd h hdata⟩, fun _ => ?_⟩
    have hflags : ¬(cb.flags = tcpPsh ∨ cb.flags = tcpPsh ||| tcpAck) := hdata
    simp only [if_neg hflags]
    split_ifs
    · exact (hok _ _).mpr (processSynAck_shift o run)
    · exact (hok _ _).mpr (processPureAck_shift o run)
    · exact (hok _ _).mpr (processAckFin_shift o run)
    · exact (hok _ _).mpr (processFin_shift o run)
    · rfl

end Flags

section Queue

/-- Entries of `send_buf` when the call ends. -/
def queued : Result → ℕ
  | .ok run => run.tsk.sendBuf.length
  | .error (_, run) => run.tsk.sendBuf.length

theorem queued_shift (r : Result) : queued (r.shift o) = queued r := by
  cases r with
  | ok run => exact List.length_map _
  | error e => exact List.length_map _

/-- A packet with ACK adds nothing to `send_buf`: what is left of it was left by the ACK. -/
theorem queued_processFlags {cb : TcpCb} (hack : cb.flags &&& tcpAck ≠ 0) (run : Run)
    (newIss : UInt32) : queued (processFlags run cb newIss) = run.tsk.sendBuf.length := by
  have hlast (r : Result) : queued r = r.last.tsk.sendBuf.length := by
    cases r with
    | ok run => rfl
    | error e => rfl
  obtain ⟨⟨_, _, _, _, hframe⟩, -⟩ := (processFlags_switched run cb newIss).last
  rw [hlast, hframe, switched_of_ack hack]

theorem queued_tcpProcess {cb : TcpCb} (hack : cb.flags &&& tcpAck ≠ 0) (tsk : TcpSock)
    (newIss : UInt32) (reads : List ℕ) : queued (tcpProcess tsk cb newIss reads) =
      (entered tsk cb reads).tsk.sendBuf.length := by
  by_cases hlost : (entered tsk cb reads).Lost
  · rw [tcpProcess_of_lost tsk cb newIss reads hlost, queued]
  · rw [tcpProcess_of_not_lost tsk cb newIss reads hlost, queued_processFlags hack]

end Queue

section Main

/-- The socket that the data meets; an ACK in the same packet has changed its
congestion state. -/
def atData (tsk : TcpSock) (cb : TcpCb) : TcpSock :=
  { tsk with
    cgtState :=
      if cb.flags &&& tcpAck ≠ 0 then cgtStateAfterAck tsk cb.ack else tsk.cgtState }

/-- Where `tcp_process` does not notice the move: the loop over `send_buf` and the
handling of data, if the call gets so far, compare alike, and no socket is made for a
SYN from a number that has not moved. -/
structure ShiftKeeps (tsk : TcpSock) (cb : TcpCb) (reads : List ℕ) : Prop where
  ack : cb.flags &&& tcpAck ≠ 0 → cb.ack ≠ tsk.sndUna → PopKeeps o cb.ack tsk.sendBuf
  syn : cb.flags = tcpSyn → tsk.state = .listen → o.send = 0
  data : ¬CopiesHead tsk cb → IsData cb → DataKeeps o ⟨atData tsk cb, reads, []⟩ cb

variable {o}

theorem updateRcvNxt_shift (tsk : TcpSock) (cb : TcpCb) :
    updateRcvNxt (tsk.shift o) (cb.shift o) = (updateRcvNxt tsk cb).shift o := by
  unfold updateRcvNxt
  simp only [TcpCb.shift_flags]
  split_ifs <;> rfl

theorem updateRcvNxt_fields (tsk : TcpSock) (cb : TcpCb) :
    (updateRcvNxt tsk cb).sendBuf = tsk.sendBuf ∧ (updateRcvNxt tsk cb).sndUna = tsk.sndUna ∧
      (updateRcvNxt tsk cb).state = tsk.state := by
  unfold updateRcvNxt
  split_ifs <;> exact ⟨rfl, rfl, rfl⟩

theorem start_shift (tsk : TcpSock) (cb : TcpCb) (reads : List ℕ) :
    (⟨updateRcvNxt (tsk.shift o) (cb.shift o), reads, []⟩ : Run) =
      Run.shift o ⟨updateRcvNxt tsk cb, reads, []⟩ := by
  rw [updateRcvNxt_shift]
  rfl

theorem entered_shift {tsk : TcpSock} {cb : TcpCb} (reads : List ℕ)
    (h : cb.flags &&& tcpAck ≠ 0 → cb.ack ≠ tsk.sndUna → PopKeeps o cb.ack tsk.sendBuf) :
    entered (tsk.shift o) (cb.shift o) reads = (entered tsk cb reads).shift o := by
  obtain ⟨hbuf, huna, -⟩ := updateRcvNxt_fields tsk cb
  unfold entered
  simp only [start_shift, TcpCb.shift_flags]
  split_ifs with hack
  · apply processAck_shift
    rw [hbuf, huna]
    exact h hack
  · rfl

theorem popKeeps_of_entered {tsk : TcpSock} {cb : TcpCb} {reads : List ℕ}
    (hack : cb.flags &&& tcpAck ≠ 0) (hne : cb.ack ≠ tsk.sndUna)
    (h : (entered (tsk.shift o) (cb.shift o) reads).tsk.sendBuf.length =
      (entered tsk cb reads).tsk.sendBuf.length) : PopKeeps o cb.ack tsk.sendBuf := by
  obtain ⟨hbuf, huna, -⟩ := updateRcvNxt_fields tsk cb
  have hack' : (cb.shift o).flags &&& tcpAck ≠ 0 := hack
  simp only [entered, start_shift, if_pos hack, if_pos hack'] at h
  rw [← hbuf]
  rw [← huna] at hne
  exact popKeeps_of_processAck o hne h

theorem entered_data {tsk : TcpSock} {cb : TcpCb} (reads : List ℕ) (hdata : IsData cb) :
    SameReceive ⟨atData tsk cb, reads, []⟩ (entered tsk cb reads) ∧
      (entered tsk cb reads).tsk.cgtState = (atData tsk cb).cgtState := by
  have hupdate : updateRcvNxt tsk cb = tsk := by
    apply if_neg
    rcases hdata with h | h <;> rw [h] <;> decide
  unfold entered atData
  simp only [hupdate]
  split_ifs
  · obtain ⟨⟨hside, hreads⟩, hcgt⟩ := processAck_receive ⟨tsk, reads, []⟩ cb
    exact ⟨⟨hside, hreads⟩, hcgt⟩
  · exact ⟨⟨rfl, rfl⟩, rfl⟩

theorem entered_syn {tsk : TcpSock} {cb : TcpCb} (reads : List ℕ) (hsyn : cb.flags = tcpSyn) :
    (entered tsk cb reads).tsk.state = tsk.state := by
  have hack : ¬cb.flags &&& tcpAck ≠ 0 := by
    rw [hsyn]
    decide
  unfold entered
  simp only [if_neg hack]
  exact (updateRcvNxt_fields tsk cb).2.2

/-- Processing the moved packet in the moved socket is processing and then moving,
exactly when the comparisons in the plain order come out alike. -/
theorem tcpProcess_shift_iff (o : Offset) (tsk : TcpSock) (cb : TcpCb) (newIss : UInt32)
    (reads : List ℕ) :
    tcpProcess (tsk.shift o) (cb.shift o) newIss reads =
        (tcpProcess tsk cb newIss reads).shift o ↔ ShiftKeeps o tsk cb reads := by
  have hflags (hgo : ¬CopiesHead tsk cb) (hpop : cb.flags &&& tcpAck ≠ 0 →
      cb.ack ≠ tsk.sndUna → PopKeeps o cb.ack tsk.sendBuf) :
      tcpProcess (tsk.shift o) (cb.shift o) newIss reads =
          (tcpProcess tsk cb newIss reads).shift o ↔
        (cb.flags = tcpSyn → tsk.state = .listen → o.send = 0) ∧
          (IsData cb → DataKeeps o ⟨atData tsk cb, reads, []⟩ cb) := by
    have hlost : ¬(entered tsk cb reads).Lost := (lost_iff reads).not.mpr hgo
    have hlost' : ¬(entered (tsk.shift o) (cb.shift o) reads).Lost := by
      rwa [entered_shift reads hpop, lost_shift]
    rw [tcpProcess_of_not_lost _ _ _ _ hlost, tcpProcess_of_not_lost _ _ _ _ hlost',
      entered_shift reads hpop, processFlags_shift_iff]
    refine and_congr (forall_congr' fun hsyn => ?_) (forall_congr' fun hdata => ?_)
    · rw [entered_syn reads hsyn]
    · obtain ⟨⟨hside, hreads⟩, hcgt⟩ := entered_data reads hdata
      exact ⟨fun h => h.congr ⟨hside.symm, hreads.symm⟩ hcgt.symm,
        fun h => h.congr ⟨hside, hreads⟩ hcgt⟩
  constructor
  · intro h
    have hpop (hack : cb.flags &&& tcpAck ≠ 0) (hne : cb.ack ≠ tsk.sndUna) :
        PopKeeps o cb.ack tsk.sendBuf := by
      have hack' : (cb.shift o).flags &&& tcpAck ≠ 0 := hack
      have hlen := congrArg queued h
      rw [queued_shift, queued_tcpProcess hack, queued_tcpProcess hack'] at hlen
      exact popKeeps_of_entered hack hne hlen
    refine ⟨hpop, fun hsyn => ?_, fun hgo => ((hflags hgo hpop).mp h).2⟩
    have hgo : ¬CopiesHead tsk cb := fun hcopies => hcopies.1 (by rw [hsyn]; decide)
    exact ((hflags hgo hpop).mp h).1 hsyn
  · intro h
    by_cases hgo : CopiesHead tsk cb
    · have hlost : (entered tsk cb reads).Lost := (lost_iff reads).mpr hgo
      have hlost' : (entered (tsk.shift o) (cb.shift o) reads).Lost := by
        rwa [entered_shift reads h.ack, lost_shift]
      rw [tcpProcess_of_lost _ _ _ _ hlost, tcpProcess_of_lost _ _ _ _ hlost',
        entered_shift reads h.ack]
      rfl
    · exact (hflags hgo h.ack).mpr ⟨h.syn, h.data hgo⟩

end Main

section Instance

/-- An established socket that waits for byte 100. -/
def waiting100 : TcpSock :=
  { allocTcpSock with state := .established, rcvNxt := 100 }

/-- A segment of two bytes that begins at 200. -/
def segment200 : TcpCb := ⟨1, 2, 80, 1024, 200, 202, 0, 8192, tcpPsh, [7, 8], 2⟩

/-- The move takes 200 across `2 ^ 32` and 100 not. -/
def across : Offset := ⟨0, 0xffffff6a⟩

/-- The segment is kept for later in the first run and dropped in the second. -/
theorem early_segment_dropped :
    (segment200.seqEnd - waiting100.rcvNxt).toNat < 2 ^ 31 ∧
      (∃ run, tcpProcess waiting100 segment200 0 [] = .ok run ∧
        run.tsk.rcvOfoBuf.entries = [segment200.ofoBuffer]) ∧
      (∃ run, tcpProcess (waiting100.shift across) (segment200.shift across) 0 [] = .ok run ∧
        run.tsk.rcvOfoBuf.entries = []) ∧
      tcpProcess (waiting100.shift across) (segment200.shift across) 0 [] ≠
        (tcpProcess waiting100 segment200 0 []).shift across := by
  have hkept : sizes (tcpProcess waiting100 segment200 0 []) = some (1, 0, 1) := by
    decide +kernel
  have hdropped : sizes (tcpProcess (waiting100.shift across) (segment200.shift across) 0 []) =
      some (0, 0, 1) := by
    decide +kernel
  refine ⟨by decide, ⟨_, rfl, rfl⟩, ⟨_, rfl, rfl⟩, fun h => ?_⟩
  have hsizes := congrArg sizes h
  rw [sizes_shift, hkept, hdropped] at hsizes
  exact absurd hsizes (by decide)

end Instance

end NetworkLab.Tcp
