import NetworkLab.AckRecovery

/-!
# What a listening socket passes on to its children

A child copies `snd_una`, `iss` and `rcv_wnd` from the listening socket. Packets that
reach the listening socket without being a SYN should leave no trace in these.
-/
namespace NetworkLab.Tcp
open GuardedRuns Outcomes

section Offspring

/-- The sockets that a call makes. -/
def spawned (actions : List Action) : List TcpSock :=
  actions.filterMap fun a => match a with
    | .spawnChild csk => some csk
    | _ => none

/-- Two listening sockets have the same children. -/
structure SameOffspring (tsk tsk' : TcpSock) : Prop where
  listen : tsk'.state = tsk.state
  sndUna : tsk'.sndUna = tsk.sndUna
  iss : tsk'.iss = tsk.iss
  rcvWnd : tsk'.rcvWnd = tsk.rcvWnd

theorem SameOffspring.refl (tsk : TcpSock) : SameOffspring tsk tsk := ⟨rfl, rfl, rfl, rfl⟩

theorem SameOffspring.trans {t₁ t₂ t₃ : TcpSock} (h₁ : SameOffspring t₁ t₂)
    (h₂ : SameOffspring t₂ t₃) : SameOffspring t₁ t₃ :=
  ⟨h₂.listen.trans h₁.listen, h₂.sndUna.trans h₁.sndUna, h₂.iss.trans h₁.iss,
    h₂.rcvWnd.trans h₁.rcvWnd⟩

/-- A SYN makes one child, which depends on the listening socket in nothing else. -/
theorem tcpProcess_syn {tsk : TcpSock} {cb : TcpCb} (newIss : UInt32) (reads : List ℕ)
    (hsyn : cb.flags = tcpSyn) (hlisten : tsk.state = .listen) :
    spawned (tcpProcess tsk cb newIss reads).last.actions =
      [afterControl (childSock { tsk with rcvNxt := cb.seqEnd } cb newIss)
        (tcpSyn ||| tcpAck)] := by
  have hack : cb.flags &&& tcpAck = 0 := by rw [hsyn]; decide
  have hpsh : cb.flags &&& tcpPsh = 0 := by rw [hsyn]; decide
  have hupdate : updateRcvNxt tsk cb = { tsk with rcvNxt := cb.seqEnd } := if_pos hpsh
  rw [tcpProcess_of_not_ack tsk cb newIss reads hack, hupdate, processFlags, if_pos hsyn,
    processSyn]
  simp only [hlisten]
  rfl

theorem childSock_congr {tsk tsk' : TcpSock} (h : SameOffspring tsk tsk') (cb : TcpCb)
    (newIss nxt : UInt32) : childSock { tsk' with rcvNxt := nxt } cb newIss =
      childSock { tsk with rcvNxt := nxt } cb newIss := by
  simp only [childSock, h.sndUna, h.iss, h.rcvWnd]

end Offspring

section Stray

/-- A packet that is no SYN arrives at a listening socket; the next one is looked at
when the call has returned. -/
def strayStep (tsk : TcpSock) (p : TcpCb × UInt32 × List ℕ) : Option TcpSock :=
  if p.1.flags = tcpSyn then none
  else match tcpProcess tsk p.1 p.2.1 p.2.2 with
    | .ok run => some run.tsk
    | .error _ => none

/-- Data that is not for the ring buffer, and can be copied if it is kept for later. -/
def Apart (tsk : TcpSock) (cb : TcpCb) : Prop :=
  cb.seq ≠ tsk.rcvNxt ∧
    (tsk.rcvNxt < cb.seq → 0 ≤ cb.plLen ∧ tsk.rcvOfoBuf.dangling = false)

/-- The packet is no data that begins at `rcv_nxt` or cannot be copied, and its ACK
releases nothing and sends nothing through the list head. -/
def Traceless (tsk : TcpSock) (p : TcpCb × UInt32 × List ℕ) : Prop :=
  (IsData p.1 → Apart tsk p.1) ∧ ¬CopiesHead tsk p.1 ∧
    (p.1.flags &&& tcpAck ≠ 0 → p.1.ack ≠ tsk.sndUna →
      ∀ first ∈ tsk.sendBuf.head?, p.1.ack < first.seqEnd)

/-- Data that does not begin at `rcv_nxt` is not stored in the ring buffer. -/
theorem processData_rcvWnd {run : Run} {cb : TcpCb} (hseq : cb.seq ≠ run.tsk.rcvNxt) :
    EndsIn (fun r => r.tsk.rcvWnd = run.tsk.rcvWnd) id (processData run cb) := by
  unfold processData
  rw [if_neg (Ne.symm hseq)]
  split_ifs
  · have hwrite : EndsIn (fun r => r.tsk.rcvWnd = run.tsk.rcvWnd) id (writeOfoBuffer run cb) := by
      unfold writeOfoBuffer
      split_ifs <;> exact rfl
    exact Ends.map hwrite fun a ha => (congrArg TcpSock.rcvWnd (tsk_finishData a)).trans ha
  · exact rfl

theorem tcpProcess_rcvWnd {tsk : TcpSock} {cb : TcpCb} (newIss : UInt32) (reads : List ℕ)
    (hdata : IsData cb → cb.seq ≠ tsk.rcvNxt) :
    (tcpProcess tsk cb newIss reads).last.tsk.rcvWnd = tsk.rcvWnd := by
  have hwnd := (entered_receive tsk cb reads).1
  by_cases hlost : (entered tsk cb reads).Lost
  · rw [tcpProcess_of_lost tsk cb newIss reads hlost]
    exact hwnd
  rw [tcpProcess_of_not_lost tsk cb newIss reads hlost]
  by_cases hpsh : IsData cb
  · have hseq := hdata hpsh
    rw [← entered_rcvNxt_of_data tsk cb reads hpsh] at hseq
    rw [processFlags_data _ newIss hpsh, processPsh, ← hwnd]
    split_ifs
    · have hset : cb.seq ≠ ((entered tsk cb reads).setState .established).tsk.rcvNxt := hseq
      exact (processData_rcvWnd hset).last
    · exact (processData_rcvWnd hseq).last
  · obtain ⟨run, hrun, hframe, -⟩ := processFlags_control (entered tsk cb reads) newIss hpsh
    rw [hrun]
    exact (congrArg TcpSock.rcvWnd hframe).trans ((switched_receive _ _).2.1.trans hwnd)

/-- A step that leaves no trace. -/
theorem tcpProcess_sameOffspring {tsk : TcpSock} {cb : TcpCb} (newIss : UInt32) (reads : List ℕ)
    (hlisten : tsk.state = .listen) (h : Traceless tsk (cb, newIss, reads)) :
    SameOffspring tsk (tcpProcess tsk cb newIss reads).last.tsk := by
  obtain ⟨hdata, hcopies, hack⟩ := h
  obtain ⟨⟨_, _, _, _, hframe⟩, -⟩ := tcpProcess_switched tsk cb newIss reads
  rw [seen_of_not_lost tsk cb reads ((lost_iff reads).not.mpr hcopies)] at hframe
  have hfin : ¬(cb.flags = tcpFin ∧ (entered tsk cb reads).tsk.state = .established) := by
    rw [(entered_fields tsk cb reads).1, hlisten]
    exact fun h => absurd h.2 (by decide)
  have hstate (flags : UInt8) : nextState .listen flags = .listen := by simp [nextState]
  refine ⟨?_, ?_, ?_, tcpProcess_rcvWnd newIss reads fun h => (hdata h).1⟩
  · rw [tcpProcess_state, hlisten, hstate]
  · by_cases hflag : cb.flags &&& tcpAck = 0
    · obtain ⟨_, _, _, _, hrecv⟩ := receiveFrame_updateRcvNxt tsk cb
      rw [hframe, switched, if_neg hfin, entered_of_not_ack tsk cb reads hflag, hrecv]
    · have hpops := tcpProcess_pops tsk newIss reads hflag
      rw [(released_eq_nil_iff tsk cb.ack).mpr (hack hflag)] at hpops
      exact hpops.sndUna
  · rw [hframe, switched, if_neg hfin]
    exact (entered_receive tsk cb reads).2.2.2.2

/-- A call for such a packet returns. -/
theorem tcpProcess_returns {tsk : TcpSock} {cb : TcpCb} (newIss : UInt32) (reads : List ℕ)
    (hlisten : tsk.state = .listen) (h : Traceless tsk (cb, newIss, reads)) :
    ∃ run, tcpProcess tsk cb newIss reads = .ok run := by
  obtain ⟨hdata, hcopies, -⟩ := h
  rw [tcpProcess_of_not_lost tsk cb newIss reads ((lost_iff reads).not.mpr hcopies)]
  by_cases hpsh : IsData cb
  · obtain ⟨hseq, hlater⟩ := hdata hpsh
    have hnxt := entered_rcvNxt_of_data tsk cb reads hpsh
    have hofo := (entered_receive tsk cb reads).2.2.1
    have hstate : (entered tsk cb reads).tsk.state ≠ .synRecv := by
      rw [(entered_fields tsk cb reads).1, hlisten]
      decide
    rw [processFlags_data _ newIss hpsh, processPsh, if_neg hstate, processData, hnxt,
      if_neg (Ne.symm hseq)]
    split_ifs with hlt
    · obtain ⟨hlen, hdangling⟩ := hlater hlt
      have hdefined : ¬(cb.plLen < 0 ∨ tsk.rcvOfoBuf.dangling = true) := by
        simp [hdangling, hlen]
      rw [writeOfoBuffer, hofo, if_neg hdefined]
      exact ⟨_, rfl⟩
    · exact ⟨_, rfl⟩
  · obtain ⟨run, hrun, -⟩ := processFlags_control (entered tsk cb reads) newIss hpsh
    exact ⟨run, hrun⟩

/-- Packets that leave no trace are processed to the end, and whatever arrived of them
before, the same SYN makes the same child. -/
theorem listener_noninterference {tsk t₁ t₂ : TcpSock} (hlisten : tsk.state = .listen)
    (h₁ : Reaches strayStep Traceless (· = tsk) t₁) (h₂ : Reaches strayStep Traceless (· = tsk) t₂)
    (syn : TcpCb) (hsyn : syn.flags = tcpSyn) (newIss : UInt32) (reads reads' : List ℕ) :
    (∀ p, p.1.flags ≠ tcpSyn → Traceless t₁ p → (strayStep t₁ p).isSome) ∧
    ∃ csk, spawned (tcpProcess t₁ syn newIss reads).last.actions = [csk] ∧
      spawned (tcpProcess t₂ syn newIss reads').last.actions = [csk] := by
  have hsame {t : TcpSock} (h : Reaches strayStep Traceless (· = tsk) t) : SameOffspring tsk t := by
    refine h.invariant (SameOffspring tsk) (fun s hs => hs ▸ .refl tsk)
      fun s e t hinv hok hstep => ?_
    unfold strayStep at hstep
    split_ifs at hstep
    have hnext := tcpProcess_sameOffspring e.2.1 e.2.2 (hinv.listen.trans hlisten) hok
    cases hr : tcpProcess s e.1 e.2.1 e.2.2 with
    | ok run =>
      rw [hr] at hstep hnext
      cases hstep
      exact hinv.trans hnext
    | error stop =>
      rw [hr] at hstep
      cases hstep
  refine ⟨fun p hflags hp => ?_, _, ?_,
    tcpProcess_syn newIss reads' hsyn ((hsame h₂).listen.trans hlisten)⟩
  · obtain ⟨run, hrun⟩ :=
      tcpProcess_returns p.2.1 p.2.2 ((hsame h₁).listen.trans hlisten) hp
    simp [strayStep, hflags, hrun]
  rw [tcpProcess_syn newIss reads hsyn ((hsame h₁).listen.trans hlisten),
    childSock_congr (hsame h₁), childSock_congr (hsame h₂)]

instance (tsk : TcpSock) (cb : TcpCb) : Decidable (Apart tsk cb) :=
  inferInstanceAs (Decidable (_ ∧ _))

instance (tsk : TcpSock) (p : TcpCb × UInt32 × List ℕ) : Decidable (Traceless tsk p) :=
  inferInstanceAs (Decidable (_ ∧ _ ∧ _))

def listening : TcpSock := tcpSockListen { allocTcpSock with skSport := 80 }

/-- A packet for port 80, by its flags, its number and its payload. -/
def forPort80 (flags : UInt8) (seq : UInt32) (payload : List UInt8) : TcpCb :=
  ⟨2, 1, 1024, 80, seq, seq + UInt32.ofNat payload.length, 9, 8192, flags, payload, payload.length⟩

def synPort80 : TcpCb := { forPort80 tcpSyn 500 [] with seqEnd := 501 }

/-- A stray ACK, and data from beyond what the ACK ends with. -/
def strays : List (TcpCb × UInt32 × List ℕ) :=
  [(forPort80 tcpAck 40 [], 0, []), (forPort80 tcpPsh 70 [1, 2, 3], 0, [])]

theorem strays_isSome : (exec strayStep Traceless listening strays).isSome := by
  decide +kernel

theorem listener_noninterference_strays : ∃ tsk csk,
    tsk.rcvNxt = 40 ∧ spawned (tcpProcess tsk synPort80 7 []).last.actions = [csk] ∧
      spawned (tcpProcess listening synPort80 7 []).last.actions = [csk] := by
  have hrun := Option.some_get strays_isSome
  obtain ⟨-, csk, h₁, h₂⟩ := listener_noninterference rfl (.of_exec (.start rfl) hrun.symm)
    (.start rfl) synPort80 rfl 7 [] []
  refine ⟨_, csk, ?_, h₁, h₂⟩
  decide +kernel

/-- Data that begins where the stray ACK ended takes window from every later child. -/
def stored : List (TcpCb × UInt32 × List ℕ) :=
  [(forPort80 tcpAck 40 [], 0, []), (forPort80 tcpPsh 40 [1, 2, 3], 0, [])]

theorem stored_isSome : (exec strayStep anyStep listening stored).isSome := by
  decide +kernel

theorem stray_data_shrinks_child : ∃ tsk, Reaches strayStep anyStep (· = listening) tsk ∧
    (spawned (tcpProcess tsk synPort80 7 []).last.actions).map (·.rcvWnd) = [65532] ∧
    (spawned (tcpProcess listening synPort80 7 []).last.actions).map (·.rcvWnd) = [65535] := by
  have hrun := Option.some_get stored_isSome
  refine ⟨_, .of_exec (.start rfl) hrun.symm, ?_, ?_⟩
  · decide +kernel
  · decide +kernel

end Stray

end NetworkLab.Tcp
