import NetworkLab.Outcomes
import NetworkLab.TcpProcess

/-!
# What processing a packet leaves alone

A call ends in a socket whether it returns or stops. The ACK touches the send side
only, data touches the receive side only, and the switch over the flags does
nothing else but change the state and, for a FIN, send one. The actions by which a
call concerns other sockets, the tables or a thread that waits for a connection are
determined by the state and the flags.
-/
namespace NetworkLab.Tcp
open Outcomes

section Runs

/-- Actions that concern this connection only. -/
def Action.quiet : Action → Bool
  | .ipSendPacket _ => true
  | .readListHead => true
  | .wakeUp .read => true
  | .wakeUp .send => true
  | .writeRingBuffer _ => true
  | _ => false

/-- The other actions of a run. -/
def Run.marks (run : Run) : List Action := run.actions.filter fun a => !a.quiet

theorem mem_marks {run : Run} {a : Action} (h : a.quiet = false) :
    a ∈ run.marks ↔ a ∈ run.actions := by
  simp [Run.marks, h]

theorem marks_act (run : Run) {a : Action} (h : a.quiet = true) :
    (run.act a).marks = run.marks := by
  simp [Run.marks, Run.act, h]

theorem marks_act_of_not (run : Run) {a : Action} (h : a.quiet = false) :
    (run.act a).marks = run.marks ++ [a] := by
  simp [Run.marks, Run.act, h]

/-- `P` holds where the computation ends, whether it returns or stops. -/
def EndsIn {α : Type} (P : Run → Prop) (f : α → Run) (r : Except (Stop × Run) α) : Prop :=
  Ends r (fun a => P (f a)) (fun e => P e.2)

/-- The run in which a call ends. -/
def Result.last : Result → Run
  | .ok run => run
  | .error (_, run) => run

theorem EndsIn.last {P : Run → Prop} {r : Result} (h : EndsIn P id r) : P r.last := by
  cases r with
  | ok a => exact h
  | error e => exact h

end Runs

section Ack

/-- The second socket differs from the first in nothing but what an ACK changes. -/
def SendFrame (tsk tsk' : TcpSock) : Prop :=
  ∃ una point wnd adv cwnd cgt rep unit thresh inflight bufs,
    tsk' = { tsk with
      sndUna := una, recoveryPoint := point, sndWnd := wnd, advWnd := adv, cwnd := cwnd,
      cgtState := cgt, repAck := rep, cwndUnit := unit, ssthresh := thresh,
      inflight := inflight, sendBuf := bufs }

theorem SendFrame.refl (tsk : TcpSock) : SendFrame tsk tsk :=
  ⟨_, _, _, _, _, _, _, _, _, _, _, rfl⟩

theorem SendFrame.trans {t₁ t₂ t₃ : TcpSock} (h₁ : SendFrame t₁ t₂) (h₂ : SendFrame t₂ t₃) :
    SendFrame t₁ t₃ := by
  obtain ⟨_, _, _, _, _, _, _, _, _, _, _, rfl⟩ := h₁
  obtain ⟨_, _, _, _, _, _, _, _, _, _, _, rfl⟩ := h₂
  exact ⟨_, _, _, _, _, _, _, _, _, _, _, rfl⟩

/-- What an ACK does beside changes of the send side. -/
def Action.sending : Action → Bool
  | .ipSendPacket _ => true
  | .readListHead => true
  | .wakeUp .send => true
  | _ => false

theorem quiet_of_sending {a : Action} (h : a.sending = true) : a.quiet = true := by
  cases a with
  | ipSendPacket packet => rfl
  | readListHead => rfl
  | wakeUp wait =>
    cases wait with
    | send => rfl
    | _ => cases h
  | _ => cases h

theorem sendFrame_tcpCwndInc (tsk : TcpSock) : SendFrame tsk (tcpCwndInc tsk) := by
  unfold tcpCwndInc
  split_ifs <;> exact ⟨_, _, _, _, _, _, _, _, _, _, _, rfl⟩

theorem sendFrame_popAcked (ack : UInt32) (bufs : List SendBuffer) (tsk : TcpSock) :
    SendFrame tsk (popAcked ack bufs tsk) := by
  induction bufs generalizing tsk with
  | nil => exact .refl tsk
  | cons buf bufs ih =>
    simp only [popAcked]
    split_ifs
    · exact .refl tsk
    · have hpop : SendFrame tsk (tcpPopSendbuf { tsk with sndUna := buf.seqEnd }) :=
        ⟨_, _, _, _, _, _, _, _, _, _, _, rfl⟩
      exact (hpop.trans (sendFrame_tcpCwndInc _)).trans (ih _)

theorem sendFrame_deflate (tsk : TcpSock) : SendFrame tsk (deflate tsk) := by
  unfold deflate
  split_ifs <;> exact ⟨_, _, _, _, _, _, _, _, _, _, _, rfl⟩

theorem tsk_retransmitFirst (run : Run) : (retransmitFirst run).tsk = run.tsk := by
  unfold retransmitFirst
  split <;> rfl

/-- A property of runs that every step of the handling of an ACK keeps. -/
structure KeptByAck (P : Run → Prop) : Prop where
  act : ∀ (run : Run) {a : Action}, a.sending = true → P run → P (run.act a)
  update : ∀ (run : Run) (f : TcpSock → TcpSock), SendFrame run.tsk (f run.tsk) → P run →
    P (run.update f)

variable {P : Run → Prop}

theorem KeptByAck.retransmitFirst (hP : KeptByAck P) {run : Run} (h : P run) :
    P (retransmitFirst run) := by
  unfold Tcp.retransmitFirst
  split <;> exact hP.act run rfl h

theorem KeptByAck.enterRecovery (hP : KeptByAck P) {run : Run} (h : P run) :
    P (enterRecovery run) := by
  have henter := hP.update run (fun tsk => { tsk with
    cgtState := .rcvr, ssthresh := (tsk.cwnd + 1) / 2, recoveryPoint := tsk.sndNxt })
    ⟨_, _, _, _, _, _, _, _, _, _, _, rfl⟩ h
  unfold Tcp.enterRecovery
  simp only
  split
  · exact hP.act _ rfl henter
  · exact henter

theorem KeptByAck.ackRepeated (hP : KeptByAck P) {run : Run} (h : P run) :
    P (ackRepeated run) := by
  have hcount : P run.countAck := hP.update run _ ⟨_, _, _, _, _, _, _, _, _, _, _, rfl⟩ h
  have hdeflate {run : Run} (h : P run) : P (run.update deflate) :=
    hP.update run deflate (sendFrame_deflate run.tsk) h
  unfold Tcp.ackRepeated
  split
  · split_ifs
    · exact hdeflate (hP.enterRecovery hcount)
    · exact hcount
  · exact hdeflate hcount
  · exact hcount

theorem KeptByAck.leaveRecovery (hP : KeptByAck P) {run : Run} (ack : UInt32) (h : P run) :
    P (leaveRecovery run ack) := by
  have hopen : P (run.update fun tsk => { tsk with cgtState := .opn }) :=
    hP.update run _ ⟨_, _, _, _, _, _, _, _, _, _, _, rfl⟩ h
  unfold Tcp.leaveRecovery
  split
  · split_ifs
    · exact hopen
    · exact hP.retransmitFirst h
  · split_ifs
    · exact hopen
    · exact h
  · exact h

theorem KeptByAck.ackNew (hP : KeptByAck P) {run : Run} (ack : UInt32) (h : P run) :
    P (ackNew run ack) := by
  have hrep : SendFrame run.tsk { run.tsk with repAck := 0 } :=
    ⟨_, _, _, _, _, _, _, _, _, _, _, rfl⟩
  have hpop := hP.update run (fun tsk => popAcked ack tsk.sendBuf { tsk with repAck := 0 })
    (hrep.trans (sendFrame_popAcked ack run.tsk.sendBuf _)) h
  exact hP.leaveRecovery ack hpop

theorem KeptByAck.countedAck (hP : KeptByAck P) {run : Run} (ack : UInt32) (h : P run) :
    P (countedAck run ack) := by
  unfold Tcp.countedAck
  split_ifs
  · exact hP.ackRepeated h
  · exact hP.ackNew ack h

theorem KeptByAck.tcpUpdateWindowSafe (hP : KeptByAck P) {run : Run} (cb : TcpCb) (h : P run) :
    P (tcpUpdateWindowSafe run cb) := by
  have hupdate : P (run.update fun tsk => { tsk with
      advWnd := cb.rwnd.toUInt16
      sndWnd := usableWindow cb.rwnd.toUInt16 tsk.cwnd }) :=
    hP.update run _ ⟨_, _, _, _, _, _, _, _, _, _, _, rfl⟩ h
  unfold Tcp.tcpUpdateWindowSafe tcpUpdateWindow
  simp only
  split_ifs
  · exact hP.act _ rfl hupdate
  · exact hupdate
  · exact h

theorem KeptByAck.processAck (hP : KeptByAck P) {run : Run} (cb : TcpCb) (h : P run) :
    P (processAck run cb) := by
  have hack := hP.countedAck cb.ack h
  simp only [Tcp.processAck]
  split_ifs
  · exact hack
  · exact hP.tcpUpdateWindowSafe cb hack

structure OnlySend (run run' : Run) : Prop where
  frame : SendFrame run.tsk run'.tsk
  marks : run'.marks = run.marks
  reads : run'.reads = run.reads

theorem OnlySend.refl (run : Run) : OnlySend run run := ⟨.refl _, rfl, rfl⟩

theorem keptByAck_onlySend (run : Run) : KeptByAck (OnlySend run) where
  act run' _ ha h := ⟨h.frame, (marks_act run' (quiet_of_sending ha)).trans h.marks, h.reads⟩
  update _ _ hf h := ⟨h.frame.trans hf, h.marks, h.reads⟩

/-- The ACK changes nothing but the send side. -/
theorem onlySend_processAck (run : Run) (cb : TcpCb) : OnlySend run (processAck run cb) :=
  (keptByAck_onlySend run).processAck cb (.refl run)

end Ack

section Data

theorem mem_insertOfo {buf ofo : OfoBuffer} {entries : List OfoBuffer}
    (h : ofo ∈ insertOfo buf entries) : ofo = buf ∨ ofo ∈ entries := by
  induction entries with
  | nil => exact .inl (List.mem_singleton.mp h)
  | cons pos rest ih =>
    simp only [insertOfo] at h
    split_ifs at h
    · rcases List.mem_cons.mp h with rfl | hrest
      · exact .inr List.mem_cons_self
      · exact (ih hrest).imp_right (List.mem_cons_of_mem pos)
    · exact .inr h
    · exact List.mem_cons.mp h

theorem mem_insert {buf ofo : OfoBuffer} {l : OfoList} (h : ofo ∈ (l.insert buf).entries) :
    ofo = buf ∨ ofo ∈ l.entries := by
  unfold OfoList.insert at h
  split at h
  · exact .inl (List.mem_singleton.mp h)
  next pos rest hentries =>
    rw [hentries]
    split_ifs at h
    · rcases List.mem_cons.mp h with rfl | hrest
      · exact .inr List.mem_cons_self
      · exact (mem_insertOfo hrest).imp_right (List.mem_cons_of_mem pos)
    · exact .inr (hentries ▸ h)
    · exact .inr (hentries ▸ h)

/-- A property of runs that waiting for space and storing data keep. `Q` is what is known
of the data. -/
structure KeptByStore (Q : List UInt8 → ℤ → Prop) (P : Run → Prop) : Prop where
  act : ∀ (run : Run) {a : Action}, a.quiet = true → P run → P (run.act a)
  take : ∀ (run : Run) (reads : List ℕ), P run → P { run with reads := reads }
  read : ∀ (run : Run) (len : ℕ), P run → P (run.update (·.read len))
  write : ∀ (run : Run) (data : List UInt8) (n : ℤ), Q data n → 0 < n →
    n ≤ run.tsk.ringBufferFree → P run → P (run.update fun tsk => { tsk with
      rcvBuf := tsk.rcvBuf ++ data.take n.toNat
      rcvWnd := tsk.rcvWnd - UInt16.ofNat n.toNat })

/-- A property of runs that every step of the handling of data keeps. -/
structure KeptByData (Q : List UInt8 → ℤ → Prop) (P : Run → Prop) : Prop
    extends KeptByStore Q P where
  delete : ∀ (run : Run) (ofo : OfoBuffer) (rest : List OfoBuffer),
    run.tsk.rcvOfoBuf.entries = ofo :: rest → P run → P (run.update fun tsk =>
      { tsk with rcvOfoBuf := tsk.rcvOfoBuf.deleteFirst rest })
  insert : ∀ (run : Run) (buf : OfoBuffer), Q buf.payload buf.plLen → P run →
    P (run.update fun tsk => { tsk with rcvOfoBuf := tsk.rcvOfoBuf.insert buf })
  stored : ∀ (run : Run) (ofo : OfoBuffer), ofo ∈ run.tsk.rcvOfoBuf.entries → P run →
    Q ofo.payload ofo.plLen
  nxt : ∀ (run : Run) (nxt : UInt32), P run →
    P (run.update fun tsk => { tsk with rcvNxt := nxt })

variable {Q : List UInt8 → ℤ → Prop} {P : Run → Prop}

theorem KeptByStore.waitSpace (hP : KeptByStore Q P) {n : ℤ} {tsk : TcpSock}
    {actions : List Action} {reads : List ℕ} (h : P ⟨tsk, reads, actions⟩) :
    EndsIn P id (waitSpace n tsk actions reads) := by
  induction reads generalizing tsk actions with
  | nil =>
    simp only [Tcp.waitSpace]
    split_ifs
    · exact hP.act _ rfl h
    · exact h
  | cons len reads ih =>
    simp only [Tcp.waitSpace]
    split_ifs
    · exact ih (hP.act _ rfl (hP.read _ len (hP.take _ reads h)))
    · exact h

theorem KeptByStore.storeData (hP : KeptByStore Q P) {run : Run} {data : List UInt8} {n : ℤ}
    (hdata : Q data n) (h : P run) : EndsIn P id (storeData run data n) := by
  unfold Tcp.storeData
  apply Ends.bind (hP.waitSpace h)
  intro a ha
  unfold writeRingBuffer
  split_ifs with hfit
  · exact hP.act _ rfl (hP.write a data n hdata hfit.1 hfit.2 ha)
  · exact ha

/-- Waiting and storing leave the segments alone that came out of order. -/
theorem KeptByStore.ofo (hP : KeptByStore Q P) (l : OfoList) :
    KeptByStore Q fun run => P run ∧ run.tsk.rcvOfoBuf = l where
  act run _ ha h := ⟨hP.act run ha h.1, h.2⟩
  take run reads h := ⟨hP.take run reads h.1, h.2⟩
  read run len h := ⟨hP.read run len h.1, h.2⟩
  write run data n hdata hn hfit h := ⟨hP.write run data n hdata hn hfit h.1, h.2⟩

theorem KeptByData.drainOfo (hP : KeptByData Q P) (entries : List OfoBuffer) (seqEnd : UInt32)
    {run : Run} (hentries : run.tsk.rcvOfoBuf.entries = entries) (h : P run) :
    EndsIn P Prod.snd (drainOfo entries seqEnd run) := by
  induction entries generalizing seqEnd run with
  | nil => exact h
  | cons ofo rest ih =>
    simp only [Tcp.drainOfo]
    split_ifs
    · exact h
    · have hdata := hP.stored run ofo (by rw [hentries]; exact List.mem_cons_self) h
      have hstore := (hP.ofo run.tsk.rcvOfoBuf).storeData hdata ⟨h, rfl⟩
      cases hr : storeData run ofo.payload ofo.plLen with
      | error e =>
        rw [hr] at hstore
        exact hstore.1
      | ok a =>
        rw [hr] at hstore
        have hsame : a.tsk.rcvOfoBuf = run.tsk.rcvOfoBuf := hstore.2
        exact ih ofo.seqEnd rfl (hP.delete a ofo rest (by rw [hsame, hentries]) hstore.1)

theorem KeptByData.storeInOrder (hP : KeptByData Q P) {run : Run} (cb : TcpCb)
    (hdata : Q cb.payload cb.plLen) (h : P run) : EndsIn P id (storeInOrder run cb) := by
  unfold Tcp.storeInOrder
  apply Ends.bind (hP.storeData hdata h)
  intro a ha
  split_ifs
  · exact ha
  · exact Ends.bind (hP.drainOfo a.tsk.rcvOfoBuf.entries cb.seqEnd rfl ha)
      fun r hr => hP.nxt _ r.1 hr

theorem KeptByData.writeOfoBuffer (hP : KeptByData Q P) {run : Run} (cb : TcpCb)
    (hdata : Q cb.ofoBuffer.payload cb.ofoBuffer.plLen) (h : P run) :
    EndsIn P id (writeOfoBuffer run cb) := by
  unfold Tcp.writeOfoBuffer
  split_ifs
  · exact h
  · exact hP.insert run cb.ofoBuffer hdata h

theorem tsk_tcpSendControlPacket_ack (run : Run) :
    (tcpSendControlPacket run tcpAck).tsk = run.tsk := rfl

theorem tsk_wakeIf (run : Run) (asleep : Bool) (wait : WaitName) :
    (run.wakeIf asleep wait).tsk = run.tsk := by
  unfold Run.wakeIf
  split_ifs <;> rfl

theorem tsk_finishData (run : Run) : (finishData run).tsk = run.tsk := by
  unfold finishData
  simp only [tsk_wakeIf, tsk_tcpSendControlPacket_ack]

theorem KeptByStore.wakeIf (hP : KeptByStore Q P) {run : Run} (asleep : Bool) {wait : WaitName}
    (hwait : (Action.wakeUp wait).quiet = true) (h : P run) : P (run.wakeIf asleep wait) := by
  unfold Run.wakeIf
  split_ifs
  · exact hP.act run hwait h
  · exact h

theorem KeptByStore.sendAck (hP : KeptByStore Q P) {run : Run} (h : P run) :
    P (tcpSendControlPacket run tcpAck) :=
  hP.act run (a := .ipSendPacket (controlPacket run.tsk tcpAck)) rfl h

theorem KeptByStore.finishData (hP : KeptByStore Q P) {run : Run} (h : P run) :
    P (finishData run) :=
  hP.wakeIf _ rfl (hP.sendAck (hP.wakeIf _ rfl h))

theorem KeptByData.processData (hP : KeptByData Q P) {run : Run} (cb : TcpCb)
    (hdata : Q cb.payload cb.plLen) (hcopy : Q cb.ofoBuffer.payload cb.ofoBuffer.plLen)
    (h : P run) : EndsIn P id (processData run cb) := by
  unfold Tcp.processData
  split_ifs
  · exact Ends.map (hP.storeInOrder cb hdata h) fun _ ha => hP.finishData ha
  · exact Ends.map (hP.writeOfoBuffer cb hcopy h) fun _ ha => hP.finishData ha
  · exact hP.sendAck h

/-- The second socket differs from the first in nothing but the receive side. -/
def ReceiveFrame (tsk tsk' : TcpSock) : Prop :=
  ∃ nxt wnd buf ofo,
    tsk' = { tsk with rcvNxt := nxt, rcvWnd := wnd, rcvBuf := buf, rcvOfoBuf := ofo }

theorem ReceiveFrame.refl (tsk : TcpSock) : ReceiveFrame tsk tsk := ⟨_, _, _, _, rfl⟩

theorem ReceiveFrame.trans {t₁ t₂ t₃ : TcpSock} (h₁ : ReceiveFrame t₁ t₂)
    (h₂ : ReceiveFrame t₂ t₃) : ReceiveFrame t₁ t₃ := by
  obtain ⟨_, _, _, _, rfl⟩ := h₁
  obtain ⟨_, _, _, _, rfl⟩ := h₂
  exact ⟨_, _, _, _, rfl⟩

theorem keptByData_receiveFrame (tsk : TcpSock) (marks : List Action) :
    KeptByData (fun _ _ => True) fun run => ReceiveFrame tsk run.tsk ∧ run.marks = marks where
  act run _ ha h := ⟨h.1, (marks_act run ha).trans h.2⟩
  take _ _ h := h
  read _ _ h := ⟨h.1.trans ⟨_, _, _, _, rfl⟩, h.2⟩
  write _ _ _ _ _ _ h := ⟨h.1.trans ⟨_, _, _, _, rfl⟩, h.2⟩
  delete _ _ _ _ h := ⟨h.1.trans ⟨_, _, _, _, rfl⟩, h.2⟩
  insert _ _ _ h := ⟨h.1.trans ⟨_, _, _, _, rfl⟩, h.2⟩
  stored _ _ _ _ := trivial
  nxt _ _ h := ⟨h.1.trans ⟨_, _, _, _, rfl⟩, h.2⟩

end Data

section Switch

/-- The case of data for a packet with PSH. -/
def IsData (cb : TcpCb) : Prop := cb.flags = tcpPsh ∨ cb.flags = tcpPsh ||| tcpAck

instance (cb : TcpCb) : Decidable (IsData cb) := inferInstanceAs (Decidable (_ ∨ _))

/-- The state after a packet. -/
def nextState (state : TcpState) (flags : UInt8) : TcpState :=
  if flags = tcpAck then
    match state with
    | .synRecv => .established
    | .finWait1 => .finWait2
    | .lastAck => .closed
    | _ => state
  else if flags = tcpPsh ∨ flags = tcpPsh ||| tcpAck then
    if state = .synRecv then .established else state
  else if flags = tcpAck ||| tcpFin then
    if state = .finWait1 then .timeWait else state
  else if flags = tcpFin then
    match state with
    | .established => .lastAck
    | .finWait2 => .timeWait
    | _ => state
  else state

theorem nextState_data {flags : UInt8} (h : flags = tcpPsh ∨ flags = tcpPsh ||| tcpAck)
    (state : TcpState) :
    nextState state flags = if state = .synRecv then .established else state := by
  rcases h with rfl | rfl <;> rfl

/-- The socket after the switch, up to what data changes. -/
def switched (tsk : TcpSock) (flags : UInt8) : TcpSock :=
  if flags = tcpFin ∧ tsk.state = .established then
    afterControl { tsk with state := .lastAck } (tcpAck ||| tcpFin)
  else { tsk with state := nextState tsk.state flags }

theorem switched_receive (tsk : TcpSock) (flags : UInt8) :
    (switched tsk flags).rcvNxt = tsk.rcvNxt ∧ (switched tsk flags).rcvWnd = tsk.rcvWnd ∧
      (switched tsk flags).rcvBuf = tsk.rcvBuf ∧
        (switched tsk flags).rcvOfoBuf = tsk.rcvOfoBuf := by
  unfold switched afterControl
  split_ifs <;> exact ⟨rfl, rfl, rfl, rfl⟩

theorem switched_of_ack {tsk : TcpSock} {flags : UInt8} (hack : flags &&& tcpAck ≠ 0) :
    switched tsk flags = { tsk with state := nextState tsk.state flags } := by
  apply if_neg
  intro h
  rw [h.1] at hack
  exact absurd (by decide) hack

/-- What a pure ACK does beside waking writers. -/
def ackMarks (tsk : TcpSock) : List Action :=
  match tsk.state with
  | .synRecv => [.acceptEnqueue, .wakeUp .parentAccept]
  | .lastAck => if tsk.hasParent then [.unhash] else [.bindUnhash, .unhash]
  | _ => []

/-- What the switch does beside sending packets and waking readers and writers. -/
def switchMarks (tsk : TcpSock) (cb : TcpCb) (newIss : UInt32) : List Action :=
  if cb.flags = tcpSyn then
    if tsk.state = .listen then
      [.spawnChild (afterControl (childSock tsk cb newIss) (tcpSyn ||| tcpAck))]
    else []
  else if cb.flags = tcpSyn ||| tcpAck then
    if tsk.state = .synSent then [.wakeUp .connect] else []
  else if cb.flags = tcpAck then ackMarks tsk
  else if cb.flags = tcpAck ||| tcpFin then
    if tsk.state = .finWait1 then [.setTimewaitTimer] else []
  else if cb.flags = tcpFin then
    if tsk.state = .established ∨ tsk.state = .finWait2 then [.setTimewaitTimer] else []
  else []

/-- How the switch ends: the state, the receive side and the actions. -/
structure Switched (run : Run) (cb : TcpCb) (newIss : UInt32) (run' : Run) : Prop where
  frame : ReceiveFrame (switched run.tsk cb.flags) run'.tsk
  marks : run'.marks = run.marks ++ switchMarks run.tsk cb newIss

section Cases

variable (run : Run)

theorem withState_self {tsk : TcpSock} {state : TcpState} (h : tsk.state = state) :
    { tsk with state := state } = tsk := by
  rw [← h]

theorem marks_setState (state : TcpState) : (run.setState state).marks = run.marks := rfl

theorem processSyn_marks (cb : TcpCb) (newIss : UInt32) :
    (processSyn run cb newIss).tsk = run.tsk ∧ (processSyn run cb newIss).marks = run.marks ++
      if run.tsk.state = .listen then
        [.spawnChild (afterControl (childSock run.tsk cb newIss) (tcpSyn ||| tcpAck))]
      else [] := by
  unfold processSyn
  split
  next hstate =>
    rw [if_pos hstate]
    exact ⟨rfl, (marks_act _ rfl).trans (marks_act_of_not run rfl)⟩
  next hstate =>
    rw [if_neg hstate, List.append_nil]
    exact ⟨rfl, rfl⟩

theorem processSynAck_marks : (processSynAck run).tsk = run.tsk ∧
    (processSynAck run).marks = run.marks ++
      if run.tsk.state = .synSent then [.wakeUp .connect] else [] := by
  unfold processSynAck
  split_ifs
  · exact ⟨rfl, marks_act_of_not run rfl⟩
  · exact ⟨rfl, (List.append_nil _).symm⟩

theorem processPureAck_marks : (processPureAck run).tsk =
      { run.tsk with state := nextState run.tsk.state tcpAck } ∧
    (processPureAck run).marks = run.marks ++ ackMarks run.tsk := by
  unfold processPureAck ackMarks
  cases hstate : run.tsk.state with
  | synRecv =>
    refine ⟨rfl, ?_⟩
    rw [marks_setState, marks_act_of_not _ rfl, marks_act_of_not _ rfl, List.append_assoc]
    rfl
  | established =>
    simp only [List.append_nil]
    split_ifs
    · exact ⟨(withState_self hstate).symm, marks_act run rfl⟩
    · exact ⟨(withState_self hstate).symm, rfl⟩
  | finWait1 => exact ⟨rfl, (List.append_nil _).symm⟩
  | lastAck =>
    have hparent : (run.setState .closed).tsk.hasParent = run.tsk.hasParent := rfl
    simp only [hparent]
    split_ifs
    · exact ⟨rfl, marks_act_of_not _ rfl⟩
    · refine ⟨rfl, ?_⟩
      rw [marks_act_of_not _ rfl, marks_act_of_not _ rfl, List.append_assoc]
      rfl
  | closed | listen | synSent | closeWait | finWait2 | closing | timeWait =>
    exact ⟨(withState_self hstate).symm, (List.append_nil _).symm⟩

theorem processAckFin_marks : (processAckFin run).tsk =
      { run.tsk with state := nextState run.tsk.state (tcpAck ||| tcpFin) } ∧
    (processAckFin run).marks = run.marks ++
      if run.tsk.state = .finWait1 then [.setTimewaitTimer] else [] := by
  have hnext (state : TcpState) : nextState state (tcpAck ||| tcpFin) =
      if state = .finWait1 then .timeWait else state := rfl
  unfold processAckFin
  rw [hnext]
  split_ifs
  · refine ⟨rfl, (marks_act_of_not _ rfl).trans ?_⟩
    exact congrArg (· ++ _) (marks_act (run.setState .timeWait) rfl)
  · exact ⟨(withState_self rfl).symm, (List.append_nil _).symm⟩

theorem processFin_marks : (processFin run).tsk = switched run.tsk tcpFin ∧
    (processFin run).marks = run.marks ++
      if run.tsk.state = .established ∨ run.tsk.state = .finWait2 then [.setTimewaitTimer]
      else [] := by
  have hsend (run : Run) (flags : UInt8) :
      ((tcpSendControlPacket run flags).act .setTimewaitTimer).marks =
        run.marks ++ [.setTimewaitTimer] := by
    rw [marks_act_of_not _ rfl]
    exact congrArg (· ++ _) (marks_act { run with tsk := afterControl run.tsk flags } rfl)
  unfold processFin switched
  cases hstate : run.tsk.state with
  | established => exact ⟨rfl, hsend _ _⟩
  | finWait2 => exact ⟨rfl, hsend _ _⟩
  | closed | listen | synRecv | synSent | closeWait | lastAck | finWait1 | closing | timeWait =>
    exact ⟨(withState_self hstate).symm, (List.append_nil _).symm⟩

end Cases

/-- Every case but that of data returns and leaves the receive side alone. -/
theorem processFlags_control (run : Run) {cb : TcpCb} (newIss : UInt32) (hdata : ¬IsData cb) :
    ∃ run', processFlags run cb newIss = .ok run' ∧ run'.tsk = switched run.tsk cb.flags ∧
      run'.marks = run.marks ++ switchMarks run.tsk cb newIss := by
  have hstay (hfin : cb.flags ≠ tcpFin) : switched run.tsk cb.flags =
      { run.tsk with state := nextState run.tsk.state cb.flags } :=
    if_neg fun h => hfin h.1
  unfold processFlags
  split_ifs with hsyn hsynack hack hpsh hackfin hfin
  · obtain ⟨htsk, hmarks⟩ := processSyn_marks run cb newIss
    refine ⟨_, rfl, ?_, by rw [hmarks, switchMarks, if_pos hsyn]⟩
    rw [htsk, hstay (by rw [hsyn]; decide), hsyn]
    exact (withState_self rfl).symm
  · obtain ⟨htsk, hmarks⟩ := processSynAck_marks run
    refine ⟨_, rfl, ?_, by rw [hmarks, switchMarks, if_neg hsyn, if_pos hsynack]⟩
    rw [htsk, hstay (by rw [hsynack]; decide), hsynack]
    exact (withState_self rfl).symm
  · obtain ⟨htsk, hmarks⟩ := processPureAck_marks run
    refine ⟨_, rfl, ?_, by
      rw [hmarks, switchMarks, if_neg hsyn, if_neg hsynack, if_pos hack]⟩
    rw [htsk, hstay (by rw [hack]; decide), hack]
  · exact absurd hpsh hdata
  · obtain ⟨htsk, hmarks⟩ := processAckFin_marks run
    refine ⟨_, rfl, ?_, by
      rw [hmarks, switchMarks, if_neg hsyn, if_neg hsynack, if_neg hack, if_pos hackfin]⟩
    rw [htsk, hstay (by rw [hackfin]; decide), hackfin]
  · obtain ⟨htsk, hmarks⟩ := processFin_marks run
    refine ⟨_, rfl, by rw [htsk, hfin], ?_⟩
    rw [hmarks, switchMarks, if_neg hsyn, if_neg hsynack, if_neg hack, if_neg hackfin, if_pos hfin]
  · refine ⟨_, rfl, ?_, ?_⟩
    · have hnext : nextState run.tsk.state cb.flags = run.tsk.state := by
        simp only [nextState, if_neg hack, if_neg hpsh, if_neg hackfin, if_neg hfin]
      rw [hstay hfin, hnext]
    · rw [switchMarks, if_neg hsyn, if_neg hsynack, if_neg hack, if_neg hackfin, if_neg hfin,
        List.append_nil]

theorem processFlags_data (run : Run) {cb : TcpCb} (newIss : UInt32) (hdata : IsData cb) :
    processFlags run cb newIss = processPsh run cb := by
  unfold processFlags
  rcases hdata with h | h <;> rw [h] <;> rfl

theorem switched_data (tsk : TcpSock) {cb : TcpCb} (hdata : IsData cb) :
    switched tsk cb.flags =
      if tsk.state = .synRecv then { tsk with state := .established } else tsk := by
  have hfin : ¬(cb.flags = tcpFin ∧ tsk.state = .established) := by
    rintro ⟨hfin, -⟩
    rcases hdata with h | h <;> rw [hfin] at h <;> exact absurd h (by decide)
  rw [switched, if_neg hfin, nextState_data hdata]
  split_ifs
  · rfl
  · exact withState_self rfl

theorem switchMarks_data (tsk : TcpSock) {cb : TcpCb} (newIss : UInt32) (hdata : IsData cb) :
    switchMarks tsk cb newIss = [] := by
  rcases hdata with h | h <;> simp only [switchMarks, h] <;> rfl

/-- The switch changes the state and the receive side, whether it returns or stops. -/
theorem processFlags_switched (run : Run) (cb : TcpCb) (newIss : UInt32) :
    EndsIn (Switched run cb newIss) id (processFlags run cb newIss) := by
  by_cases hdata : IsData cb
  · have hkept := keptByData_receiveFrame (switched run.tsk cb.flags)
      (run.marks ++ switchMarks run.tsk cb newIss)
    rw [processFlags_data run newIss hdata, processPsh]
    have hstart : ReceiveFrame (switched run.tsk cb.flags)
          (if run.tsk.state = .synRecv then run.setState .established else run).tsk ∧
        (if run.tsk.state = .synRecv then run.setState .established else run).marks =
          run.marks ++ switchMarks run.tsk cb newIss := by
      rw [switched_data run.tsk hdata, switchMarks_data run.tsk newIss hdata, List.append_nil]
      split_ifs <;> exact ⟨.refl _, rfl⟩
    have hends := hkept.processData cb trivial trivial hstart
    cases hr : processData _ cb with
    | ok a =>
      rw [hr] at hends
      exact ⟨hends.1, hends.2⟩
    | error e =>
      rw [hr] at hends
      exact ⟨hends.1, hends.2⟩
  · obtain ⟨run', hrun, hframe, hmarks⟩ := processFlags_control run newIss hdata
    rw [hrun]
    exact ⟨hframe ▸ .refl _, hmarks⟩

end Switch

section Process

variable (tsk : TcpSock) (cb : TcpCb) (newIss : UInt32) (reads : List ℕ)

/-- The run at the switch over the flags. -/
def entered (tsk : TcpSock) (cb : TcpCb) (reads : List ℕ) : Run :=
  let run : Run := ⟨updateRcvNxt tsk cb, reads, []⟩
  if cb.flags &&& tcpAck ≠ 0 then processAck run cb else run

theorem tcpProcess_of_lost (hlost : (entered tsk cb reads).Lost) :
    tcpProcess tsk cb newIss reads = .error (.listHead, entered tsk cb reads) := if_pos hlost

theorem tcpProcess_of_not_lost (hgo : ¬(entered tsk cb reads).Lost) :
    tcpProcess tsk cb newIss reads = processFlags (entered tsk cb reads) cb newIss := if_neg hgo

/-- The packet as the switch sees it; a call that has ended before sees no flags. -/
def seen (tsk : TcpSock) (cb : TcpCb) (reads : List ℕ) : TcpCb :=
  if (entered tsk cb reads).Lost then { cb with flags := 0 } else cb

theorem seen_flags : (seen tsk cb reads).flags = cb.flags ∨ (seen tsk cb reads).flags = 0 := by
  unfold seen
  split_ifs
  · exact .inr rfl
  · exact .inl rfl

variable {tsk cb reads} in
theorem flags_of_seen {flags : UInt8} (h : (seen tsk cb reads).flags = flags)
    (hne : flags ≠ 0) : cb.flags = flags := by
  rcases seen_flags tsk cb reads with hsame | hnone
  · exact hsame.symm.trans h
  · exact absurd (h.symm.trans hnone) hne

variable {tsk cb reads} in
theorem isData_of_seen (h : IsData (seen tsk cb reads)) : IsData cb :=
  h.imp (flags_of_seen · (by decide)) (flags_of_seen · (by decide))

theorem seen_of_not_lost (hgo : ¬(entered tsk cb reads).Lost) : seen tsk cb reads = cb :=
  if_neg hgo

/-- Wherever a call ends, the switch has done what the flags it saw ask for. -/
theorem tcpProcess_last : (tcpProcess tsk cb newIss reads).last =
    (processFlags (entered tsk cb reads) (seen tsk cb reads) newIss).last := by
  by_cases hlost : (entered tsk cb reads).Lost
  · rw [tcpProcess_of_lost tsk cb newIss reads hlost, seen, if_pos hlost]
    rfl
  · rw [tcpProcess_of_not_lost tsk cb newIss reads hlost, seen, if_neg hlost]

theorem receiveFrame_updateRcvNxt : ReceiveFrame tsk (updateRcvNxt tsk cb) := by
  unfold updateRcvNxt
  split_ifs
  · exact ⟨_, _, _, _, rfl⟩
  · exact .refl tsk

theorem entered_of_ack (hack : cb.flags &&& tcpAck ≠ 0) :
    entered tsk cb reads = processAck ⟨updateRcvNxt tsk cb, reads, []⟩ cb := if_pos hack

theorem entered_of_not_ack (hack : cb.flags &&& tcpAck = 0) :
    entered tsk cb reads = ⟨updateRcvNxt tsk cb, reads, []⟩ := if_neg (not_not_intro hack)

theorem not_lost_of_not_ack (hack : cb.flags &&& tcpAck = 0) : ¬(entered tsk cb reads).Lost := by
  rw [entered_of_not_ack tsk cb reads hack]
  exact List.not_mem_nil

/-- Without ACK nothing happens before the switch. -/
theorem tcpProcess_of_not_ack (hack : cb.flags &&& tcpAck = 0) :
    tcpProcess tsk cb newIss reads =
      processFlags ⟨updateRcvNxt tsk cb, reads, []⟩ cb newIss := by
  rw [tcpProcess_of_not_lost tsk cb newIss reads (not_lost_of_not_ack tsk cb reads hack),
    entered_of_not_ack tsk cb reads hack]

theorem onlySend_entered : OnlySend ⟨updateRcvNxt tsk cb, reads, []⟩ (entered tsk cb reads) := by
  unfold entered
  simp only
  split_ifs
  · exact onlySend_processAck _ cb
  · exact .refl _

/-- The fields that neither the first statement nor the ACK changes. -/
theorem entered_fields : (entered tsk cb reads).tsk.state = tsk.state ∧
    (entered tsk cb reads).tsk.hasParent = tsk.hasParent ∧
    (entered tsk cb reads).tsk.sndNxt = tsk.sndNxt ∧ (entered tsk cb reads).marks = [] := by
  obtain ⟨⟨_, _, _, _, _, _, _, _, _, _, _, hsend⟩, hmarks, -⟩ := onlySend_entered tsk cb reads
  obtain ⟨_, _, _, _, hrecv⟩ := receiveFrame_updateRcvNxt tsk cb
  rw [hsend, hrecv, hmarks]
  exact ⟨rfl, rfl, rfl, rfl⟩

theorem entered_receive : (entered tsk cb reads).tsk.rcvWnd = tsk.rcvWnd ∧
    (entered tsk cb reads).tsk.rcvBuf = tsk.rcvBuf ∧
    (entered tsk cb reads).tsk.rcvOfoBuf = tsk.rcvOfoBuf ∧
    (entered tsk cb reads).tsk.rcvNxt = (updateRcvNxt tsk cb).rcvNxt ∧
    (entered tsk cb reads).tsk.iss = tsk.iss := by
  obtain ⟨_, _, _, _, _, _, _, _, _, _, _, hsend⟩ := (onlySend_entered tsk cb reads).frame
  rw [hsend]
  unfold updateRcvNxt
  split_ifs <;> exact ⟨rfl, rfl, rfl, rfl, rfl⟩

theorem entered_rcvNxt_of_data (hdata : IsData cb) :
    (entered tsk cb reads).tsk.rcvNxt = tsk.rcvNxt := by
  have hpsh : cb.flags &&& tcpPsh ≠ 0 := by
    rcases hdata with h | h <;> rw [h] <;> decide
  have hupdate : updateRcvNxt tsk cb = tsk := if_neg hpsh
  rw [(entered_receive tsk cb reads).2.2.2.1, hupdate]

theorem switched_seen_of_ack (t : TcpSock) (hack : cb.flags &&& tcpAck ≠ 0) :
    switched t (seen tsk cb reads).flags =
      { t with state := nextState t.state (seen tsk cb reads).flags } := by
  rcases seen_flags tsk cb reads with h | h
  · exact switched_of_ack (by rwa [h])
  · rw [h]
    exact if_neg fun hfin => absurd hfin.1 (by decide)

theorem seen_of_not_ack (hack : cb.flags &&& tcpAck = 0) : seen tsk cb reads = cb :=
  seen_of_not_lost tsk cb reads (not_lost_of_not_ack tsk cb reads hack)

/-- A FIN without ACK reaches the switch. -/
theorem seen_eq_fin_iff : (seen tsk cb reads).flags = tcpFin ↔ cb.flags = tcpFin := by
  refine ⟨fun h => flags_of_seen h (by decide), fun h => ?_⟩
  rw [seen_of_not_ack tsk cb reads (by rw [h]; decide), h]

theorem switched_state (tsk : TcpSock) (flags : UInt8) :
    (switched tsk flags).state = nextState tsk.state flags := by
  unfold switched
  split_ifs with h
  · rw [h.1, h.2]
    rfl
  · rfl

theorem tcpProcess_switched : Switched (entered tsk cb reads) (seen tsk cb reads) newIss
    (tcpProcess tsk cb newIss reads).last := by
  rw [tcpProcess_last]
  exact (processFlags_switched (entered tsk cb reads) (seen tsk cb reads) newIss).last

theorem tcpProcess_state : (tcpProcess tsk cb newIss reads).last.tsk.state =
    nextState tsk.state (seen tsk cb reads).flags := by
  obtain ⟨⟨_, _, _, _, hframe⟩, -⟩ := tcpProcess_switched tsk cb newIss reads
  rw [hframe]
  exact (switched_state _ _).trans (congrArg (nextState · _) (entered_fields tsk cb reads).1)

theorem updateRcvNxt_state : (updateRcvNxt tsk cb).state = tsk.state ∧
    (updateRcvNxt tsk cb).hasParent = tsk.hasParent := by
  obtain ⟨_, _, _, _, hrecv⟩ := receiveFrame_updateRcvNxt tsk cb
  rw [hrecv]
  exact ⟨rfl, rfl⟩

theorem tcpProcess_marks : (tcpProcess tsk cb newIss reads).last.marks =
    switchMarks (updateRcvNxt tsk cb) (seen tsk cb reads) newIss := by
  obtain ⟨hstate, hparent, -, hnone⟩ := entered_fields tsk cb reads
  have hupdate := updateRcvNxt_state tsk cb
  rw [(tcpProcess_switched tsk cb newIss reads).marks, hnone, List.nil_append]
  by_cases hsyn : (seen tsk cb reads).flags = tcpSyn
  · have hflags := flags_of_seen hsyn (by decide)
    rw [entered_of_not_ack tsk cb reads (by rw [hflags]; decide)]
  · simp only [switchMarks, if_neg hsyn, ackMarks, hstate, hparent, hupdate]

end Process

end NetworkLab.Tcp
