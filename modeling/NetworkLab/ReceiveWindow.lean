import NetworkLab.GuardedRuns
import NetworkLab.RingBuffer
import NetworkLab.TcpFrame

/-!
# The advertised window of a receiving socket

`rcv_wnd` counts in 16 bits what `ring_buffer_free` computes from the indices of the ring
buffer. Packets and reads change both. The socket is seen between the calls and where a
call waits for space or stops, which is when the lock of the ring buffer is free.
-/
namespace NetworkLab.Tcp
open GuardedRuns Outcomes Relation

section Receiver

/-- A receiving socket; `halted` is set where a call has not returned. -/
structure Receiver where
  tsk : TcpSock
  halted : Bool

/-- `change` is what anything else does to the socket. -/
inductive ReceiveEvent
  | deliver (cb : TcpCb) (newIss : UInt32) (reads : List ℕ)
  | read (len : ℕ)
  | change (tsk : TcpSock)

/-- A packet is delivered with the payload that its length announces: the copy of a longer
one would leave the packet. A read of an empty buffer waits. -/
def Receiver.step (s : Receiver) : ReceiveEvent → Option Receiver
  | .deliver cb newIss reads =>
    if s.halted = false ∧ cb.plLen ≤ cb.payload.length then
      match tcpProcess s.tsk cb newIss reads with
      | .ok run => some ⟨run.tsk, false⟩
      | .error (_, run) => some ⟨run.tsk, true⟩
    else none
  | .read len =>
    if s.halted = false ∧ s.tsk.rcvBuf ≠ [] then some ⟨s.tsk.read len, false⟩ else none
  | .change tsk =>
    if s.halted = false ∧ tsk.rcvWnd = s.tsk.rcvWnd ∧ tsk.rcvBuf = s.tsk.rcvBuf ∧
        tsk.rcvOfoBuf = s.tsk.rcvOfoBuf then some ⟨tsk, false⟩
    else none

/-- The receive side of a socket as `alloc_tcp_sock` leaves it. -/
structure Allocated (s : Receiver) : Prop where
  wnd : s.tsk.rcvWnd = UInt16.ofNat tcpDefaultWindow
  buf : s.tsk.rcvBuf = []
  ofo : s.tsk.rcvOfoBuf = ⟨[], [], false⟩

end Receiver

section Ring

/-- A read or a write of the ring buffer with what it does to the window. Neither the sum
nor the difference leaves the 16 bits. -/
inductive ExactStep : RingBuffer UInt8 × UInt16 → RingBuffer UInt8 × UInt16 → Prop
  | read (ring : RingBuffer UInt8) (wnd : UInt16) (len : ℕ) :
      wnd.toNat + (ring.read len).1.length < 2 ^ 16 →
      ExactStep (ring, wnd) ((ring.read len).2, wnd + UInt16.ofNat (ring.read len).1.length)
  | write (ring : RingBuffer UInt8) (wnd : UInt16) (data : List UInt8)
      (h : data.length ≤ ring.free) : data.length ≤ wnd.toNat →
      ExactStep (ring, wnd) (ring.write data h, wnd - UInt16.ofNat data.length)

/-- The ring buffer behind a socket: it holds the unread bytes, the window is its free
space, and both come from the buffer allocated for the default window. -/
structure Backs (ring : RingBuffer UInt8) (tsk : TcpSock) : Prop where
  exact : ReflTransGen ExactStep
    (RingBuffer.alloc tcpDefaultWindow 0, UInt16.ofNat tcpDefaultWindow) (ring, tsk.rcvWnd)
  size : ring.size = tcpDefaultWindow + 1
  contents : ring.contents = tsk.rcvBuf
  free : tsk.rcvWnd.toNat = ring.free

variable {ring : RingBuffer UInt8} {tsk : TcpSock}

theorem free_of_contents (hsize : ring.size = tcpDefaultWindow + 1)
    (hcontents : ring.contents = tsk.rcvBuf) : (ring.free : ℤ) = tsk.ringBufferFree := by
  have hused := ring.length_contents
  have hfree := ring.used_add_free
  rw [hcontents] at hused
  unfold TcpSock.ringBufferFree
  omega

theorem Backs.read (h : Backs ring tsk) (len : ℕ) : Backs (ring.read len).2 (tsk.read len) := by
  obtain ⟨htake, hdrop⟩ := ring.contents_read len
  have hlen : (ring.read len).1.length = min tsk.rcvBuf.length len := by
    rw [htake, h.contents, List.length_take, min_comm]
  have hfree := ring.used_add_free
  have hfree' := (ring.read len).2.used_add_free
  have hsize : (ring.read len).2.size = ring.size := rfl
  have hused := ring.used_read len
  have hlength := ring.length_contents
  rw [h.contents] at hlength
  have hwnd := h.free
  have hring := h.size
  unfold tcpDefaultWindow at hring
  have hfits : tsk.rcvWnd.toNat + (ring.read len).1.length < 2 ^ 16 := by omega
  have hsum : (tsk.read len).rcvWnd.toNat = tsk.rcvWnd.toNat + (ring.read len).1.length := by
    rw [hlen] at hfits ⊢
    simp only [TcpSock.read, UInt16.toNat_add, UInt16.toNat_ofNat']
    rw [Nat.mod_eq_of_lt (a := min _ _) (by omega), Nat.mod_eq_of_lt hfits]
  refine ⟨h.exact.tail ?_, hsize.trans h.size, ?_, ?_⟩
  · have hread := ExactStep.read ring tsk.rcvWnd len hfits
    rw [hlen] at hread
    exact hread
  · rw [hdrop, h.contents]
    rfl
  · omega

theorem Backs.write (h : Backs ring tsk) {data : List UInt8} {n : ℤ} (hdata : n ≤ data.length)
    (hn : 0 < n) (hfit : n ≤ tsk.ringBufferFree) :
    ∃ ring', Backs ring' { tsk with
      rcvBuf := tsk.rcvBuf ++ data.take n.toNat
      rcvWnd := tsk.rcvWnd - UInt16.ofNat n.toNat } := by
  have hlen : (data.take n.toNat).length = n.toNat := List.length_take_of_le (by omega)
  rw [← free_of_contents h.size h.contents] at hfit
  have hring : (data.take n.toNat).length ≤ ring.free := by omega
  have hfree := ring.used_add_free
  have hfree' := (ring.write _ hring).used_add_free
  have hsize : (ring.write _ hring).size = ring.size := rfl
  have hused := ring.used_write hring
  have hwnd := h.free
  have hbound := tsk.rcvWnd.toNat_lt
  have hdiff : (tsk.rcvWnd - UInt16.ofNat n.toNat).toNat = tsk.rcvWnd.toNat - n.toNat := by
    have hnat : (UInt16.ofNat n.toNat).toNat = n.toNat := by
      rw [UInt16.toNat_ofNat', Nat.mod_eq_of_lt (by omega)]
    rw [UInt16.toNat_sub_of_le _ _ (by rw [UInt16.le_iff_toNat_le, hnat]; omega), hnat]
  refine ⟨ring.write _ hring, h.exact.tail ?_, hsize.trans h.size, ?_, ?_⟩
  · have hwrite := ExactStep.write ring tsk.rcvWnd _ hring (by omega)
    rw [hlen] at hwrite
    exact hwrite
  · rw [ring.contents_write hring, h.contents]
  · simp only [hdiff]
    omega

end Ring

section Invariant

/-- The payload is as long as its length says. -/
def Whole (data : List UInt8) (n : ℤ) : Prop := n ≤ data.length

/-- A ring buffer is behind the socket, and the segments that wait are whole. -/
structure Backed (tsk : TcpSock) : Prop where
  ring : ∃ ring, Backs ring tsk
  ofo : ∀ ofo ∈ tsk.rcvOfoBuf.entries, Whole ofo.payload ofo.plLen

theorem Backed.of_eq {tsk tsk' : TcpSock} (h : Backed tsk) (hwnd : tsk'.rcvWnd = tsk.rcvWnd)
    (hbuf : tsk'.rcvBuf = tsk.rcvBuf) (hofo : tsk'.rcvOfoBuf = tsk.rcvOfoBuf) : Backed tsk' := by
  obtain ⟨ring, hring⟩ := h.ring
  refine ⟨⟨ring, hwnd ▸ hring.exact, hring.size, hbuf ▸ hring.contents, hwnd ▸ hring.free⟩, ?_⟩
  rw [hofo]
  exact h.ofo

theorem keptByData_backed : KeptByData Whole fun run => Backed run.tsk where
  act _ _ _ h := h
  take _ _ h := h
  read run len h := by
    obtain ⟨ring, hring⟩ := h.ring
    exact ⟨⟨_, hring.read len⟩, h.ofo⟩
  write run data n hdata hn hfit h := by
    obtain ⟨ring, hring⟩ := h.ring
    exact ⟨hring.write hdata hn hfit, h.ofo⟩
  delete run ofo rest hentries h := by
    obtain ⟨ring, hring⟩ := h.ring
    refine ⟨⟨ring, hring.exact, hring.size, hring.contents, hring.free⟩, fun ofo' hofo => ?_⟩
    exact h.ofo ofo' (hentries ▸ List.mem_cons_of_mem ofo hofo)
  insert run buf hbuf h := by
    obtain ⟨ring, hring⟩ := h.ring
    refine ⟨⟨ring, hring.exact, hring.size, hring.contents, hring.free⟩, fun ofo hofo => ?_⟩
    rcases mem_insert hofo with rfl | hmem
    · exact hbuf
    · exact h.ofo ofo hmem
  stored run ofo hofo h := h.ofo ofo hofo
  nxt run nxt h := h.of_eq rfl rfl rfl

theorem whole_ofoBuffer {cb : TcpCb} (h : Whole cb.payload cb.plLen) :
    Whole cb.ofoBuffer.payload cb.ofoBuffer.plLen := by
  simp only [Whole, TcpCb.ofoBuffer, List.length_take] at h ⊢
  omega

/-- A packet keeps the window equal to the free space, whether the call returns or stops. -/
theorem backed_tcpProcess {tsk : TcpSock} (h : Backed tsk) {cb : TcpCb}
    (hwhole : Whole cb.payload cb.plLen) (newIss : UInt32) (reads : List ℕ) :
    Backed (tcpProcess tsk cb newIss reads).last.tsk := by
  obtain ⟨hwnd, hbuf, hofo, -⟩ := entered_receive tsk cb reads
  have hentered : Backed (entered tsk cb reads).tsk := h.of_eq hwnd hbuf hofo
  by_cases hlost : (entered tsk cb reads).Lost
  · rw [tcpProcess_of_lost tsk cb newIss reads hlost]
    exact hentered
  rw [tcpProcess_of_not_lost tsk cb newIss reads hlost]
  by_cases hdata : IsData cb
  · rw [processFlags_data _ newIss hdata, processPsh]
    refine (keptByData_backed.processData cb hwhole (whole_ofoBuffer hwhole) ?_).last
    split_ifs
    · exact hentered.of_eq rfl rfl rfl
    · exact hentered
  · obtain ⟨run', hrun, htsk, -⟩ := processFlags_control (entered tsk cb reads) newIss hdata
    obtain ⟨-, hwnd', hbuf', hofo'⟩ := switched_receive (entered tsk cb reads).tsk cb.flags
    rw [hrun]
    refine hentered.of_eq ?_ ?_ ?_
    · rw [← hwnd', ← htsk]
      rfl
    · rw [← hbuf', ← htsk]
      rfl
    · rw [← hofo', ← htsk]
      rfl

theorem backed_start {s : Receiver} (h : Allocated s) : Backed s.tsk := by
  refine ⟨⟨RingBuffer.alloc tcpDefaultWindow 0, ?_, rfl, ?_, ?_⟩, ?_⟩
  · rw [h.wnd]
  · rw [h.buf]
    exact RingBuffer.contents_alloc _ _
  · rw [h.wnd]
    rfl
  · rw [h.ofo]
    exact nofun

theorem backed_step {s t : Receiver} {e : ReceiveEvent} (h : Backed s.tsk)
    (hstep : s.step e = some t) : Backed t.tsk := by
  cases e with
  | deliver cb newIss reads =>
    simp only [Receiver.step] at hstep
    split_ifs at hstep with hwhole
    have hlast := backed_tcpProcess h hwhole.2 newIss reads
    cases hr : tcpProcess s.tsk cb newIss reads with
    | ok run =>
      rw [hr] at hstep hlast
      cases hstep
      exact hlast
    | error e =>
      rw [hr] at hstep hlast
      cases hstep
      exact hlast
  | read len =>
    simp only [Receiver.step] at hstep
    split_ifs at hstep
    cases hstep
    obtain ⟨ring, hring⟩ := h.ring
    exact ⟨⟨_, hring.read len⟩, h.ofo⟩
  | change tsk =>
    simp only [Receiver.step] at hstep
    split_ifs at hstep with hsame
    cases hstep
    exact h.of_eq hsame.2.1 hsame.2.2.1 hsame.2.2.2

end Invariant

/-- The window is the free space of the ring buffer, whatever packets and reads came in
whatever order, and no addition and no subtraction on the way has wrapped. -/
theorem rcvWnd_eq_free {s : Receiver} (h : Reaches Receiver.step anyStep Allocated s) :
    (∃ ring, Backs ring s.tsk) ∧
      ∀ ring : RingBuffer UInt8, ring.size = tcpDefaultWindow + 1 →
        ring.contents = s.tsk.rcvBuf → s.tsk.rcvWnd.toNat = ring.free := by
  have hbacked := h.invariant (fun s => Backed s.tsk) (fun _ => backed_start)
    fun _ _ _ hs _ hstep => backed_step hs hstep
  refine ⟨hbacked.ring, fun ring hsize hcontents => ?_⟩
  obtain ⟨ring', hring'⟩ := hbacked.ring
  have hfree := free_of_contents hsize hcontents
  have hfree' := free_of_contents hring'.size hring'.contents
  have hwnd := hring'.free
  omega

section Instance

/-- A connection on a socket just allocated. -/
def receiving : Receiver := ⟨{ allocTcpSock with state := .established }, false⟩

/-- A segment of three bytes comes before the one that precedes it, and both are read. -/
def lateFirst : List ReceiveEvent :=
  [.deliver ⟨0, 0, 0, 0, 2, 5, 0, 100, tcpPsh, [3, 4, 5], 3⟩ 0 [],
    .deliver ⟨0, 0, 0, 0, 0, 2, 0, 100, tcpPsh, [1, 2], 2⟩ 0 [], .read 4]

theorem lateFirst_isSome : (exec Receiver.step anyStep receiving lateFirst).isSome := by
  decide +kernel

theorem rcvWnd_eq_free_lateFirst : ∃ s : Receiver,
    s.tsk.rcvBuf = [5] ∧ s.tsk.rcvWnd.toNat = tcpDefaultWindow - 1 ∧
      (∃ ring, Backs ring s.tsk) ∧
      ∀ ring : RingBuffer UInt8, ring.size = tcpDefaultWindow + 1 →
        ring.contents = s.tsk.rcvBuf → s.tsk.rcvWnd.toNat = ring.free := by
  obtain ⟨s, hrun⟩ := Option.isSome_iff_exists.mp lateFirst_isSome
  have hseen : (exec Receiver.step anyStep receiving lateFirst).map
      (fun s => (s.tsk.rcvBuf, s.tsk.rcvWnd.toNat)) = some ([5], tcpDefaultWindow - 1) := by
    decide +kernel
  rw [hrun] at hseen
  obtain ⟨hbuf, hwnd⟩ := Prod.mk.inj (Option.some.inj hseen)
  exact ⟨s, hbuf, hwnd, rcvWnd_eq_free (.of_exec (.start ⟨rfl, rfl, rfl⟩) hrun)⟩

end Instance

end NetworkLab.Tcp
