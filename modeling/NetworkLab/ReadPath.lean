import NetworkLab.GuardedRuns
import NetworkLab.SynchWait

/-!
# The receive path between the packet thread and a reading thread

The packet thread runs the PSH case of `tcp_process` and waits on `wait_recv`
for space in the ring buffer; the application thread calls `tcp_sock_read` in a
loop, waits on `wait_read` for data, and waits for the flag `wait_recv->sleep`
to be clear before it wakes the packet thread. Steps are single accesses to a
lock, to an event, or to a `sleep` flag that is read without its lock.
-/
namespace NetworkLab.ReadPath
open GuardedRuns

/-- `TCP_DEFAULT_WINDOW`, the argument of `alloc_ring_buffer`. -/
def tcpDefaultWindow : ℕ := 65535

/-- `rcv_buf->size`; one byte of the buffer is never used. -/
def rcvBufSize : ℕ := tcpDefaultWindow + 1

def ringBufferFree (used : ℕ) : ℕ := rcvBufSize - used - 1

inductive Thread
  | packet
  | reader
  deriving DecidableEq

/-- What the sequence number of a PSH segment decides: data in order, with the
lengths of the stored segments that it releases; a segment beyond a gap, which
is stored; or an old one. -/
inductive Segment
  | inOrder (plLen : ℕ) (ofo : List ℕ)
  | ahead
  | old
  deriving DecidableEq

/-- Positions of the packet thread. A list holds the lengths still to be written. -/
inductive PacketPc
  | idle
  | lock (segment : Segment)
  | space (sizes : List ℕ)
  | wakeRead (sizes : List ℕ)
  | release (sizes : List ℕ)
  | sleep (sizes : List ℕ) (pc : SleepPc)
  | relock (sizes : List ℕ)
  | unlock (stored : Bool)
  | checkRead
  | wakeReader
  deriving DecidableEq

/-- Positions of the reading thread; `len` is the argument of the current call. -/
inductive ReaderPc
  | idle
  | lock (len : ℕ)
  | test (len : ℕ)
  | release (len : ℕ)
  | sleep (len : ℕ) (pc : SleepPc)
  | unlock
  | spin
  | wake
  deriving DecidableEq

/-- The shared fields of the socket and the positions of the two threads. -/
structure Conn where
  rcvBufLock : Bool
  used : ℕ
  rcvWnd : UInt16
  waitRecv : SynchWait Thread
  waitRead : SynchWait Thread
  packet : PacketPc
  reader : ReaderPc
  deriving DecidableEq

/-- The fields as `alloc_tcp_sock` leaves them, both threads outside. -/
def Conn.initial : Conn where
  rcvBufLock := false
  used := 0
  rcvWnd := 65535
  waitRecv := .waitInit
  waitRead := .waitInit
  packet := .idle
  reader := .idle

/-- A step of the PSH case of `tcp_process`. -/
def stepPacket (s : Conn) : Option Conn :=
  match s.packet with
  | .idle => none
  | .lock segment =>
    if s.rcvBufLock then none
    else some { s with
      rcvBufLock := true
      packet := match segment with
        | .inOrder plLen ofo => .space (plLen :: ofo)
        | .ahead => .unlock true
        | .old => .unlock false }
  | .space [] => some { s with packet := .unlock true }
  | .space (n :: sizes) =>
    if ringBufferFree s.used < n then some { s with packet := .wakeRead (n :: sizes) }
    -- the assertion of `write_ring_buffer` ends the process
    else if n = 0 then none
    else some { s with
      used := s.used + n, rcvWnd := s.rcvWnd - UInt16.ofNat n, packet := .space sizes }
  | .wakeRead sizes =>
    (s.waitRead.wakeUp .reader).map fun w => { s with waitRead := w, packet := .release sizes }
  | .release sizes => some { s with rcvBufLock := false, packet := .sleep sizes .lock }
  | .sleep sizes pc =>
    (s.waitRecv.sleepOn .packet pc).map fun r =>
      { s with
        waitRecv := r.2
        packet := match r.1 with
          | some pc => .sleep sizes pc
          | none => .relock sizes }
  | .relock sizes =>
    if s.rcvBufLock then none else some { s with rcvBufLock := true, packet := .space sizes }
  | .unlock stored =>
    some { s with rcvBufLock := false, packet := if stored then .checkRead else .idle }
  | .checkRead => some { s with packet := if s.waitRead.sleep then .wakeReader else .idle }
  | .wakeReader =>
    (s.waitRead.wakeUp .reader).map fun w => { s with waitRead := w, packet := .idle }

/-- A step of `tcp_sock_read`. -/
def stepReader (s : Conn) : Option Conn :=
  match s.reader with
  | .idle => none
  | .lock len =>
    if s.rcvBufLock then none else some { s with rcvBufLock := true, reader := .test len }
  | .test len =>
    if s.used = 0 then some { s with reader := .release len }
    else some { s with
      used := s.used - min s.used len
      rcvWnd := s.rcvWnd + UInt16.ofNat (min s.used len)
      reader := .unlock }
  | .release len => some { s with rcvBufLock := false, reader := .sleep len .lock }
  | .sleep len pc =>
    (s.waitRead.sleepOn .reader pc).map fun r =>
      { s with
        waitRead := r.2
        reader := match r.1 with
          | some pc => .sleep len pc
          | none => .lock len }
  | .unlock => some { s with rcvBufLock := false, reader := .spin }
  -- one iteration of the busy-wait
  | .spin => some { s with reader := if s.waitRecv.sleep then .spin else .wake }
  | .wake =>
    (s.waitRecv.wakeUp .packet).map fun w => { s with waitRecv := w, reader := .idle }

inductive Event
  | receive (segment : Segment)
  | read (len : ℕ)
  | run (thread : Thread)
  deriving DecidableEq

/-- A segment arrives, a call of `tcp_sock_read` starts, or a thread takes a step. -/
def step (s : Conn) : Event → Option Conn
  | .receive segment =>
    if s.packet = .idle then some { s with packet := .lock segment } else none
  | .read len => if s.reader = .idle then some { s with reader := .lock len } else none
  | .run .packet => stepPacket s
  | .run .reader => stepReader s

/-- The packet thread is inside `pthread_cond_wait` and not signalled. -/
def PacketBlocked (s : Conn) : Prop := Thread.packet ∈ s.waitRecv.blocked

/-- The reader spins on the flag, or is inside `pthread_cond_wait` and not signalled. -/
def ReaderWaits (s : Conn) : Prop :=
  s.reader = .spin ∧ s.waitRecv.sleep = true ∨ Thread.reader ∈ s.waitRead.blocked

/-- Both threads wait, and whatever happens next both still wait. -/
def Stuck (s : Conn) : Prop :=
  ∀ t, Reaches step anyStep (fun u => u = s) t → PacketBlocked t ∧ ReaderWaits t

/-- The step takes the packet thread into `pthread_cond_wait`. -/
def entersWait (s : Conn) : Event → Bool
  | .run .packet =>
    match s.packet with
    | .sleep _ .test => !s.waitRecv.notified
    | _ => false
  | _ => false

/-- The packet thread goes to wait only when the reader has seen the flag clear
and has not yet called `wake_up`. -/
def WakeUpPending (s : Conn) (e : Event) : Prop := entersWait s e = true → s.reader = .wake

instance (s : Conn) (e : Event) : Decidable (WakeUpPending s e) :=
  inferInstanceAs (Decidable (_ → _))

end NetworkLab.ReadPath
