import NetworkLab.SendQueue

/-!
# The peer's window and `tcp_sock_write`

`tcp_sock_write` sends a segment and waits afterwards until `snd_wnd` covers `MSS` bytes
for each segment in flight. Acknowledgements and timeouts set the window while it waits,
and between one segment and the next.
-/
namespace NetworkLab.Tcp
open GuardedRuns SlidingWindow

section Write

/-- `strlen` of the memory from the buffer on. -/
def strlen (buf : List UInt8) : ℕ := (buf.takeWhile (· ≠ 0)).length

/-- A call of `tcp_sock_write` that has not returned; `waiting` is set in the inner loop. -/
structure WriteCall where
  buf : List UInt8
  len : ℕ
  sent : ℕ
  waiting : Bool

/-- The payload of the next segment. -/
def WriteCall.payload (c : WriteCall) : List UInt8 :=
  let validLen := min c.len (strlen c.buf) - c.sent
  (c.buf.drop c.sent).take (min mss validLen)

/-- The conversion to `size_t`. -/
def toSizeT (n : ℤ) : ℤ := n % 2 ^ 64

/-- The test of the inner loop; the product is a `size_t`. -/
def MustWait (tsk : TcpSock) : Prop := tsk.sndWnd.toNat < toSizeT (mss * tsk.inflight)

instance (tsk : TcpSock) : Decidable (MustWait tsk) := inferInstanceAs (Decidable (_ < _))

/-- The bytes that are sent and not acknowledged. -/
def unackedBytes (tsk : TcpSock) : ℕ := (tsk.sendBuf.map (·.packet.data.length)).sum

/-- A segment that `tcp_sock_write` has sent: its length, the bytes not acknowledged after
it, the window the peer advertised last, and `snd_wnd` before and after it. -/
structure Emission where
  bytes : ℕ
  unacked : ℕ
  advWnd : UInt16
  before : UInt32
  after : UInt32
  deriving DecidableEq

/-- The segment is inside the peer's window, and `snd_wnd` has not wrapped. -/
def Emission.Respects (em : Emission) : Prop :=
  em.unacked ≤ em.advWnd.toNat ∧ em.after.toNat + em.bytes = em.before.toNat

instance (em : Emission) : Decidable em.Respects := inferInstanceAs (Decidable (_ ∧ _))

/-- A socket with its send queue, the call that writes to it, the segments sent by such
calls, and the bytes of those that were sent since the last ACK or timeout. -/
structure Writer where
  sender : Sender
  call : Option WriteCall
  emitted : List Emission
  since : ℕ

/-- `write` begins a call, `emit` sends its next segment, `proceed` leaves the inner loop
and `finish` is the return. `event` is anything else that happens to the socket. -/
inductive WriteEvent
  | write (buf : List UInt8) (len : ℕ)
  | emit
  | proceed
  | finish
  | event (e : SendEvent)

def emission (tsk : TcpSock) (data : List UInt8) : Emission where
  bytes := data.length
  unacked := unackedBytes (afterData tsk data)
  advWnd := (afterData tsk data).advWnd
  before := tsk.sndWnd
  after := (afterData tsk data).sndWnd

/-- Data are sent by calls only, and only ACKs and timeouts set the windows. -/
def Elsewhere (tsk : TcpSock) : SendEvent → Prop
  | .sendData _ => False
  | .change tsk' => tsk'.sndWnd = tsk.sndWnd ∧ tsk'.advWnd = tsk.advWnd
  | _ => True

instance (tsk : TcpSock) : (e : SendEvent) → Decidable (Elsewhere tsk e)
  | .sendData _ => isFalse id
  | .change tsk' =>
    inferInstanceAs (Decidable (tsk'.sndWnd = tsk.sndWnd ∧ tsk'.advWnd = tsk.advWnd))
  | .sendControl _ | .deliver _ _ _ | .scan => isTrue trivial

/-- The timer of an entry runs out in the next round. -/
def TimesOut (tsk : TcpSock) : Prop := ∃ buf ∈ tsk.sendBuf, buf.timeout = tcpTimerScanInterval

instance (tsk : TcpSock) : Decidable (TimesOut tsk) :=
  inferInstanceAs (Decidable (∃ buf ∈ tsk.sendBuf, _))

/-- An ACK or a timeout, which are what sets the window. -/
def MaySetWindow (tsk : TcpSock) : SendEvent → Prop
  | .deliver cb _ _ => cb.flags &&& tcpAck ≠ 0
  | .scan => TimesOut tsk
  | _ => False

instance (tsk : TcpSock) : (e : SendEvent) → Decidable (MaySetWindow tsk e)
  | .deliver cb _ _ => inferInstanceAs (Decidable (cb.flags &&& tcpAck ≠ 0))
  | .scan => inferInstanceAs (Decidable (TimesOut tsk))
  | .sendData _ | .sendControl _ | .change _ => isFalse id

def Writer.step (w : Writer) : WriteEvent → Option Writer
  | .write buf len =>
    if w.call.isNone then some { w with call := some ⟨buf, len, 0, false⟩ } else none
  | .emit => w.call.bind fun c =>
    if c.waiting = false ∧ c.sent < c.len then
      (w.sender.step (.sendData c.payload)).map fun sender =>
        ⟨sender, some { c with sent := c.sent + c.payload.length, waiting := true },
          w.emitted ++ [emission w.sender.tsk c.payload], w.since + c.payload.length⟩
    else none
  | .proceed => w.call.bind fun c =>
    if c.waiting = true ∧ ¬MustWait w.sender.tsk then
      some { w with call := some { c with waiting := false } }
    else none
  | .finish => w.call.bind fun c =>
    if c.waiting = false ∧ c.len ≤ c.sent then some { w with call := none } else none
  | .event e =>
    if Elsewhere w.sender.tsk e then
      (w.sender.step e).map fun sender =>
        { w with
          sender := sender
          since := if MaySetWindow w.sender.tsk e then 0 else w.since }
    else none

/-- Nothing has been sent, no call is running and no window has been set. -/
structure Unused (w : Writer) : Prop where
  fresh : Fresh w.sender.tsk
  sndWnd : w.sender.tsk.sndWnd = 0
  history : w.sender.history = []
  call : w.call = none
  emitted : w.emitted = []
  since : w.since = 0

/-- The test of the inner loop, made before a segment of `n` bytes is sent: it counts the
segment, unless as many bytes have been sent since the window was set. -/
def Tested (tsk : TcpSock) (since n : ℕ) : Prop :=
  mss * (tsk.inflight + 1) ≤ tsk.sndWnd.toNat ∨
    0 < tsk.inflight ∧ mss * tsk.inflight ≤ tsk.sndWnd.toNat ∧ n ≤ since

instance (tsk : TcpSock) (since n : ℕ) : Decidable (Tested tsk since n) :=
  inferInstanceAs (Decidable (_ ∨ _ ∧ _ ∧ _))

/-- A segment is sent only after the test, and a timer runs out only while the peer has
room for the segment that a timeout allows. -/
def SendsInTime (w : Writer) : WriteEvent → Prop
  | .emit => ∀ c ∈ w.call, Tested w.sender.tsk w.since c.payload.length
  | .event .scan => TimesOut w.sender.tsk → mss ≤ w.sender.tsk.advWnd.toNat
  | _ => True

end Write

section Bounds

theorem payload_length_le (c : WriteCall) : c.payload.length ≤ mss := by
  unfold WriteCall.payload
  exact (List.length_take_le _ _).trans (min_le_left _ _)

/-- Every segment that has been stored is of at most `MSS` bytes. -/
def Segmented (history : List SendBuffer) : Prop := ∀ buf ∈ history, buf.packet.data.length ≤ mss

theorem unackedBytes_afterData (tsk : TcpSock) (data : List UInt8) :
    unackedBytes (afterData tsk data) = unackedBytes tsk + data.length := by
  simp [unackedBytes, afterData, putSendbuf, dataPacket]

theorem mem_sendBuf_le {s : Sender} (h : QueueInv s) (hseg : Segmented s.history)
    {buf : SendBuffer} (hbuf : buf ∈ s.tsk.sendBuf) : buf.packet.data.length ≤ mss := by
  obtain ⟨popped, htail, -⟩ := h.sound.tail
  simp only [Sender.window] at htail
  have hstored : buf.stored ∈ s.history.map (·.stored) := by
    rw [htail]
    exact List.mem_append_right _ (List.mem_map_of_mem hbuf)
  obtain ⟨old, hold, heq⟩ := List.mem_map.mp hstored
  have hpacket : old.packet = buf.packet := congrArg Prod.fst heq
  exact hpacket ▸ hseg old hold

/-- `MSS * inflight` bounds what is not acknowledged. -/
theorem unackedBytes_le {s : Sender} (h : QueueInv s) (hseg : Segmented s.history) :
    (unackedBytes s.tsk : ℤ) ≤ mss * s.tsk.inflight := by
  have hsum : unackedBytes s.tsk ≤ s.tsk.sendBuf.length * mss := by
    have hle := List.sum_le_card_nsmul (s.tsk.sendBuf.map (·.packet.data.length)) mss
      (by simpa using fun buf hbuf => mem_sendBuf_le h hseg hbuf)
    simpa [unackedBytes] using hle
  rw [h.inflight]
  push_cast [mul_comm] at hsum ⊢
  exact_mod_cast hsum

/-- What an emission does, in terms of the socket before it. -/
theorem emission_respects_iff (tsk : TcpSock) {data : List UInt8} (hdata : data.length ≤ mss) :
    (emission tsk data).Respects ↔
      unackedBytes tsk + data.length ≤ tsk.advWnd.toNat ∧ data.length ≤ tsk.sndWnd.toNat := by
  have hnat : (UInt32.ofNat data.length).toNat = data.length := by
    rw [UInt32.toNat_ofNat', Nat.mod_eq_of_lt]
    unfold mss at hdata
    omega
  have hbound := tsk.sndWnd.toNat_lt
  have hsub : (tsk.sndWnd - UInt32.ofNat data.length).toNat + data.length = tsk.sndWnd.toNat ↔
      data.length ≤ tsk.sndWnd.toNat := by
    rw [UInt32.toNat_sub, hnat]
    omega
  exact and_congr (by rw [emission, unackedBytes_afterData]; rfl) hsub

end Bounds

section Windows

/-- The two windows of the send side. -/
def TcpSock.windows (tsk : TcpSock) : UInt32 × UInt16 := (tsk.sndWnd, tsk.advWnd)

theorem windows_tcpCwndInc (tsk : TcpSock) : (tcpCwndInc tsk).windows = tsk.windows := by
  unfold tcpCwndInc
  split_ifs <;> rfl

theorem windows_popAcked (ack : UInt32) (bufs : List SendBuffer) (tsk : TcpSock) :
    (popAcked ack bufs tsk).windows = tsk.windows := by
  induction bufs generalizing tsk with
  | nil => rfl
  | cons buf bufs ih =>
    simp only [popAcked]
    split_ifs
    · rfl
    · rw [ih, windows_tcpCwndInc]
      rfl

theorem windows_ackRepeated (run : Run) : (ackRepeated run).tsk.windows = run.tsk.windows := by
  have hdeflate (tsk : TcpSock) : (deflate tsk).windows = tsk.windows := by
    unfold deflate
    split_ifs <;> rfl
  have henter (run : Run) : (enterRecovery run).tsk.windows = run.tsk.windows := by
    unfold enterRecovery
    simp only
    split <;> rfl
  unfold ackRepeated
  split
  · split_ifs
    · exact (hdeflate _).trans (henter _)
    · rfl
  · exact hdeflate _
  · rfl

theorem windows_leaveRecovery (run : Run) (ack : UInt32) :
    (leaveRecovery run ack).tsk.windows = run.tsk.windows := by
  unfold leaveRecovery
  split
  · split_ifs
    · rfl
    · rw [tsk_retransmitFirst]
  · split_ifs <;> rfl
  · rfl

theorem windows_countedAck (run : Run) (ack : UInt32) :
    (countedAck run ack).tsk.windows = run.tsk.windows := by
  unfold countedAck
  split_ifs
  · exact windows_ackRepeated run
  · rw [ackNew, windows_leaveRecovery, Run.update_tsk]
    exact windows_popAcked ack run.tsk.sendBuf { run.tsk with repAck := 0 }

theorem usableWindow_le (advWnd : UInt16) (cwnd : UInt32) :
    (usableWindow advWnd cwnd).toNat ≤ advWnd.toNat := by
  have hadv := advWnd.toNat_lt
  rw [usableWindow, UInt32.toNat_ofNat', Nat.mod_eq_of_lt (by omega)]
  exact min_le_left _ _

/-- The ACK leaves both windows as they are, or sets one inside the other. -/
theorem windows_processAck (run : Run) (cb : TcpCb) :
    (processAck run cb).tsk.windows = run.tsk.windows ∨
      (processAck run cb).tsk.sndWnd.toNat ≤ (processAck run cb).tsk.advWnd.toNat := by
  have hcounted := windows_countedAck run cb.ack
  simp only [processAck, tcpUpdateWindowSafe, tcpUpdateWindow]
  split_ifs
  · exact .inl hcounted
  · exact .inr (usableWindow_le _ _)
  · exact .inr (usableWindow_le _ _)
  · exact .inl hcounted

/-- A packet sets the window by its ACK only. -/
theorem windows_tcpProcess (tsk : TcpSock) (cb : TcpCb) (newIss : UInt32) (reads : List ℕ) :
    (tcpProcess tsk cb newIss reads).last.tsk.windows = tsk.windows ∨
      cb.flags &&& tcpAck ≠ 0 ∧ (tcpProcess tsk cb newIss reads).last.tsk.sndWnd.toNat ≤
        (tcpProcess tsk cb newIss reads).last.tsk.advWnd.toNat := by
  obtain ⟨⟨_, _, _, _, hframe⟩, -⟩ := tcpProcess_switched tsk cb newIss reads
  have hlast : (tcpProcess tsk cb newIss reads).last.tsk.windows =
      (entered tsk cb reads).tsk.windows := by
    rw [hframe]
    unfold switched afterControl
    split_ifs <;> rfl
  have hupdate : (updateRcvNxt tsk cb).windows = tsk.windows := by
    unfold updateRcvNxt
    split_ifs <;> rfl
  by_cases hack : cb.flags &&& tcpAck = 0
  · rw [hlast, entered_of_not_ack tsk cb reads hack]
    exact .inl hupdate
  · obtain ⟨hsnd, hadv⟩ := Prod.mk.inj hlast
    rw [hlast, hsnd, hadv, entered_of_ack tsk cb reads hack]
    exact (windows_processAck ⟨updateRcvNxt tsk cb, reads, []⟩ cb).imp (·.trans hupdate)
      fun hle => ⟨hack, hle⟩

/-- A round of the timer sets the window to one segment when a timer runs out. -/
theorem windows_scanEntries (tsk : TcpSock) (bufs : List SendBuffer) :
    (scanEntries tsk bufs).1.windows =
      if ∃ buf ∈ bufs, buf.timeout = tcpTimerScanInterval then (UInt32.ofNat mss, tsk.advWnd)
      else tsk.windows := by
  induction bufs generalizing tsk with
  | nil => simp [scanEntries]
  | cons buf bufs ih =>
    have hloss : (enterLoss tsk).windows = (UInt32.ofNat mss, tsk.advWnd) := rfl
    simp only [scanEntries, List.exists_mem_cons_iff, sub_eq_zero]
    by_cases hout : buf.timeout = tcpTimerScanInterval
    · simp only [hout, if_true, true_or]
      rw [ih, hloss]
      split_ifs <;> rfl
    · simp only [hout, if_false, false_or]
      exact ih tsk

theorem windows_tcpScanRetrans (tsk : TcpSock) : (tcpScanRetrans tsk).windows =
    if TimesOut tsk then (UInt32.ofNat mss, tsk.advWnd) else tsk.windows :=
  windows_scanEntries tsk tsk.sendBuf

end Windows

section Runs

/-- What has been sent since the window was set fits into the peer's window beside what
is left of it. -/
structure WriterInv (w : Writer) : Prop where
  queue : QueueInv w.sender
  segmented : Segmented w.sender.history
  window : w.sender.tsk.sndWnd.toNat + w.since ≤ w.sender.tsk.advWnd.toNat
  respected : ∀ em ∈ w.emitted, em.Respects

theorem segmented_append {history : List SendBuffer} (h : Segmented history) {tsk : TcpSock}
    {e : SendEvent} (he : ∀ data, e = .sendData data → data.length ≤ mss) :
    Segmented (history ++ storedBy tsk e) := by
  have hcontrol (tsk : TcpSock) (flags : UInt8) : Segmented (storedByControl tsk flags) := by
    intro buf hbuf
    unfold storedByControl at hbuf
    split_ifs at hbuf
    · rw [List.mem_singleton.mp hbuf]
      exact Nat.zero_le _
    · cases hbuf
  intro buf hbuf
  rcases List.mem_append.mp hbuf with hold | hnew
  · exact h buf hold
  · cases e with
    | sendControl flags => exact hcontrol tsk flags buf hnew
    | sendData data =>
      rw [List.mem_singleton.mp hnew]
      exact he data rfl
    | deliver cb newIss reads =>
      simp only [storedBy] at hnew
      split_ifs at hnew
      · exact hcontrol _ _ buf hnew
      · cases hnew
    | scan => cases hnew
    | change tsk' => cases hnew

theorem sender_step_history {s t : Sender} {e : SendEvent} (hstep : s.step e = some t) :
    t.history = s.history ++ storedBy s.tsk e := by
  obtain ⟨tsk, -, rfl⟩ := Option.map_eq_some_iff.mp hstep
  rfl

/-- A segment that is sent after the test is inside the window. -/
theorem Tested.respects {w : Writer} (h : WriterInv w) {data : List UInt8}
    (hdata : data.length ≤ mss) (htest : Tested w.sender.tsk w.since data.length) :
    (emission w.sender.tsk data).Respects := by
  have hle := unackedBytes_le h.queue h.segmented
  have hwindow := h.window
  have hflight : 0 ≤ w.sender.tsk.inflight := by
    rw [h.queue.inflight]
    exact Int.natCast_nonneg _
  rw [emission_respects_iff _ hdata]
  unfold mss at hle hdata
  rcases htest with hcounted | ⟨hpos, hcovers, hsince⟩
  · unfold mss at hcounted
    constructor <;> omega
  · unfold mss at hcovers
    constructor <;> omega

theorem WriterInv.emit {w : Writer} (h : WriterInv w) {data : List UInt8} {sender : Sender}
    (hdata : data.length ≤ mss) (htest : Tested w.sender.tsk w.since data.length)
    (hsend : w.sender.step (.sendData data) = some sender) (call : Option WriteCall) :
    WriterInv ⟨sender, call, w.emitted ++ [emission w.sender.tsk data],
      w.since + data.length⟩ := by
  have hrespects := htest.respects h hdata
  have hafter : sender.tsk = afterData w.sender.tsk data := by
    obtain ⟨tsk, hstep, rfl⟩ := Option.map_eq_some_iff.mp hsend
    exact (Option.some.inj hstep).symm
  refine ⟨h.queue.step hsend, ?_, ?_, fun em hem => ?_⟩
  · rw [sender_step_history hsend]
    apply segmented_append h.segmented
    intro data' hdata'
    cases hdata'
    exact hdata
  · have hspent : (afterData w.sender.tsk data).sndWnd.toNat + data.length =
        w.sender.tsk.sndWnd.toNat := hrespects.2
    have hadv : (afterData w.sender.tsk data).advWnd = w.sender.tsk.advWnd := rfl
    have hwindow := h.window
    simp only [hafter, hadv]
    omega
  · rcases List.mem_append.mp hem with hold | hnew
    · exact h.respected em hold
    · rw [List.mem_singleton.mp hnew]
      exact hrespects

/-- Another event leaves both windows alone, or sets one inside the other. -/
theorem WriterInv.event {w : Writer} (h : WriterInv w) {e : SendEvent} {sender : Sender}
    (hok : SendsInTime w (.event e)) (helse : Elsewhere w.sender.tsk e)
    (hsend : w.sender.step e = some sender) :
    sender.tsk.sndWnd.toNat + (if MaySetWindow w.sender.tsk e then 0 else w.since) ≤
      sender.tsk.advWnd.toNat := by
  obtain ⟨tsk, hstep, rfl⟩ := Option.map_eq_some_iff.mp hsend
  have hsame (hwindows : tsk.windows = w.sender.tsk.windows) :
      tsk.sndWnd.toNat + (if MaySetWindow w.sender.tsk e then 0 else w.since) ≤
        tsk.advWnd.toNat := by
    obtain ⟨hsnd, hadv⟩ := Prod.mk.inj hwindows
    have hwindow := h.window
    rw [hsnd, hadv]
    split_ifs <;> omega
  cases e with
  | sendControl flags =>
    obtain rfl := Option.some.inj hstep
    apply hsame
    unfold afterControl
    split_ifs <;> rfl
  | sendData data => exact absurd helse id
  | deliver cb newIss reads =>
    obtain rfl := Option.some.inj hstep
    rcases windows_tcpProcess w.sender.tsk cb newIss reads with hkept | ⟨hack, hle⟩
    · exact hsame hkept
    · have hset : MaySetWindow w.sender.tsk (.deliver cb newIss reads) := hack
      rwa [if_pos hset]
  | scan =>
    obtain rfl := Option.some.inj hstep
    have hwindows := windows_tcpScanRetrans w.sender.tsk
    by_cases hout : TimesOut w.sender.tsk
    · rw [if_pos hout] at hwindows
      obtain ⟨hsnd, hadv⟩ := Prod.mk.inj hwindows
      have hset : MaySetWindow w.sender.tsk .scan := hout
      rw [if_pos hset, hsnd, hadv]
      exact hok hout
    · rw [if_neg hout] at hwindows
      exact hsame hwindows
  | change tsk' =>
    simp only [sendStep] at hstep
    split_ifs at hstep
    obtain rfl := Option.some.inj hstep
    exact hsame (Prod.ext helse.1 helse.2)

theorem writer_step {w w' : Writer} {e : WriteEvent} (h : WriterInv w) (hok : SendsInTime w e)
    (hstep : w.step e = some w') : WriterInv w' := by
  cases e with
  | write buf len =>
    simp only [Writer.step] at hstep
    split_ifs at hstep
    cases hstep
    exact ⟨h.queue, h.segmented, h.window, h.respected⟩
  | emit =>
    obtain ⟨c, hc, hemit⟩ := Option.bind_eq_some_iff.mp hstep
    split_ifs at hemit
    obtain ⟨sender, hsend, rfl⟩ := Option.map_eq_some_iff.mp hemit
    exact h.emit (payload_length_le c) (hok c hc) hsend _
  | proceed =>
    obtain ⟨c, -, hgo⟩ := Option.bind_eq_some_iff.mp hstep
    split_ifs at hgo
    cases hgo
    exact ⟨h.queue, h.segmented, h.window, h.respected⟩
  | finish =>
    obtain ⟨c, -, hdone⟩ := Option.bind_eq_some_iff.mp hstep
    split_ifs at hdone
    cases hdone
    exact ⟨h.queue, h.segmented, h.window, h.respected⟩
  | event e =>
    by_cases helse : Elsewhere w.sender.tsk e
    swap
    · simp [Writer.step, helse] at hstep
    rw [Writer.step, if_pos helse] at hstep
    obtain ⟨sender, hsend, rfl⟩ := Option.map_eq_some_iff.mp hstep
    refine ⟨h.queue.step hsend, ?_, h.event hok helse hsend, h.respected⟩
    rw [sender_step_history hsend]
    apply segmented_append h.segmented
    intro data hdata
    rw [hdata] at helse
    exact absurd helse id

theorem Unused.inv {w : Writer} (h : Unused w) : WriterInv w := by
  obtain ⟨⟨tsk, history⟩, call, emitted, since⟩ := w
  obtain ⟨hfresh, hsnd, rfl, -, rfl, rfl⟩ := h
  refine ⟨queueInv_fresh hfresh, by simp [Segmented], ?_, by simp⟩
  simp only at hsnd
  simp [hsnd]

/-- In every run that tests before it sends, all segments are inside the peer's window.
Where the window has just been set to the whole window of the peer and full segments are
in flight, the next full segment is inside it only if it passes the test. -/
theorem window_respected {w : Writer} (h : Reaches Writer.step SendsInTime Unused w) :
    (∀ em ∈ w.emitted, em.Respects) ∧
      ∀ c w', w.call = some c → w.step .emit = some w' → c.payload.length = mss →
        (∀ buf ∈ w.sender.tsk.sendBuf, buf.packet.data.length = mss) → w.since = 0 →
        w.sender.tsk.sndWnd.toNat = w.sender.tsk.advWnd.toNat →
          ((∀ em ∈ w'.emitted, em.Respects) ↔ SendsInTime w .emit) := by
  have hinv : WriterInv w :=
    h.invariant WriterInv (fun _ hw => hw.inv) fun _ _ _ hw hok hstep => writer_step hw hok hstep
  refine ⟨hinv.respected, fun c w' hc hstep hsize hfull _ hwhole => ⟨fun hall c' hc' => ?_,
    fun hok => (writer_step hinv hok hstep).respected⟩⟩
  obtain rfl : c = c' := Option.some.inj (hc.symm.trans hc')
  obtain ⟨c', hc', hemit⟩ := Option.bind_eq_some_iff.mp hstep
  obtain rfl : c = c' := Option.some.inj (hc.symm.trans hc')
  split_ifs at hemit
  obtain ⟨sender, hsend, rfl⟩ := Option.map_eq_some_iff.mp hemit
  have hlast := hall (emission w.sender.tsk c.payload) List.mem_concat_self
  obtain ⟨hadv, -⟩ := (emission_respects_iff _ (payload_length_le c)).mp hlast
  have hbytes : unackedBytes w.sender.tsk = w.sender.tsk.sendBuf.length * mss := by
    have hmap : w.sender.tsk.sendBuf.map (·.packet.data.length) =
        w.sender.tsk.sendBuf.map fun _ => mss := List.map_congr_left hfull
    rw [unackedBytes, hmap, List.map_const', List.sum_replicate, smul_eq_mul]
  left
  rw [hinv.queue.inflight, hwhole]
  rw [hbytes, hsize] at hadv
  push_cast [mul_comm] at hadv ⊢
  linarith

end Runs

section Instance

instance (w : Writer) : (e : WriteEvent) → Decidable (SendsInTime w e)
  | .emit =>
    inferInstanceAs (Decidable (∀ c ∈ w.call, Tested w.sender.tsk w.since c.payload.length))
  | .event .scan =>
    inferInstanceAs (Decidable (TimesOut w.sender.tsk → mss ≤ w.sender.tsk.advWnd.toNat))
  | .write _ _ | .proceed | .finish | .event (.sendControl _) | .event (.sendData _)
  | .event (.deliver _ _ _) | .event (.change _) => isTrue trivial

/-- A socket that has a number for its first segment. -/
def dialing : Writer :=
  ⟨⟨{ allocTcpSock with state := .synSent, iss := 100, sndNxt := 100 }, []⟩, none, [], 0⟩

theorem unused_dialing : Unused dialing := ⟨⟨rfl, rfl⟩, rfl, rfl, rfl, rfl, rfl⟩

/-- The handshake with a peer that advertises a window, and a call that writes three bytes. -/
def writesThree (rwnd : UInt32) : List WriteEvent :=
  [.event (.sendControl tcpSyn),
    .event (.deliver ⟨2, 1, 1024, 80, 500, 501, 101, rwnd, tcpSyn ||| tcpAck, [], 0⟩ 0 []),
    .write [65, 66, 67, 0] 3, .emit]

/-- A second call that writes two bytes more, before the first three are acknowledged. -/
def writesTwice : List WriteEvent :=
  writesThree 8192 ++ [.proceed, .finish, .write [68, 69, 0] 2, .emit]

theorem writesTwice_isSome : (exec Writer.step SendsInTime dialing writesTwice).isSome := by
  decide +kernel

theorem window_respected_writesTwice : ∃ w : Writer,
    w.emitted = [⟨3, 3, 8192, 2920, 2917⟩, ⟨2, 5, 8192, 2917, 2915⟩] ∧
      ∀ em ∈ w.emitted, em.Respects := by
  obtain ⟨w, hrun⟩ := Option.isSome_iff_exists.mp writesTwice_isSome
  have hemitted : (exec Writer.step SendsInTime dialing writesTwice).map (·.emitted) =
      some [⟨3, 3, 8192, 2920, 2917⟩, ⟨2, 5, 8192, 2917, 2915⟩] := by decide +kernel
  rw [hrun] at hemitted
  exact ⟨w, Option.some.inj hemitted,
    (window_respected (.of_exec (.start unused_dialing) hrun)).1⟩

/-- The peer has advertised no space, and the three bytes are sent: `snd_wnd` wraps. -/
theorem zero_window_overrun : ∃ w : Writer, Reaches Writer.step anyStep Unused w ∧
    w.emitted = [⟨3, 3, 0, 0, 4294967293⟩] ∧ ¬∀ em ∈ w.emitted, em.Respects := by
  have hemitted : (exec Writer.step anyStep dialing (writesThree 0)).map (·.emitted) =
      some [⟨3, 3, 0, 0, 4294967293⟩] := by decide +kernel
  obtain ⟨w, hrun, hw⟩ := Option.map_eq_some_iff.mp hemitted
  refine ⟨w, .of_exec (.start unused_dialing) hrun, hw, fun h => ?_⟩
  rw [hw] at h
  exact absurd (h _ (List.mem_singleton_self _)) (by decide)

end Instance

end NetworkLab.Tcp
