import NetworkLab.ReadPath

/-!
# When the two threads of the receive path wait for each other

Once the packet thread is inside `pthread_cond_wait` its flag stays set until
it is signalled, so a reader that has not yet passed the busy-wait on the flag
never passes it, and nobody else signals. The only harmless moment to go to
wait is between the reader's busy-wait and its `wake_up`.
-/
namespace NetworkLab.ReadPath
open GuardedRuns

/-- Position inside `sleep_on(wait_recv)`. -/
def PacketPc.sleepPos : PacketPc → Option SleepPc
  | .sleep _ pc => some pc
  | _ => none

/-- The packet thread holds `rcv_buf->lock`. -/
def PacketPc.holds : PacketPc → Bool
  | .space _ | .wakeRead _ | .release _ | .unlock _ => true
  | _ => false

/-- Position inside `sleep_on(wait_read)`. -/
def ReaderPc.sleepPos : ReaderPc → Option SleepPc
  | .sleep _ pc => some pc
  | _ => none

/-- The reader holds `rcv_buf->lock`. -/
def ReaderPc.holds : ReaderPc → Bool
  | .test _ | .release _ | .unlock => true
  | _ => false

/-- Locks and events agree with the positions of the threads. -/
structure Consistent (s : Conn) : Prop where
  recv : s.waitRecv.Serves .packet s.packet.sleepPos
  read : s.waitRead.Serves .reader s.reader.sleepPos
  lock : s.rcvBufLock = (s.packet.holds || s.reader.holds)
  excl : (s.packet.holds && s.reader.holds) = false

theorem consistent_initial : Consistent .initial :=
  ⟨SynchWait.serves_waitInit _, SynchWait.serves_waitInit _, rfl, rfl⟩

theorem Consistent.stepPacket {s t : Conn} (h : Consistent s) (hs : stepPacket s = some t) :
    Consistent t := by
  obtain ⟨hrecv, hread, hlock, hexcl⟩ := h
  obtain ⟨lock, used, wnd, waitRecv, waitRead, packet, reader⟩ := s
  cases packet with
  | idle => cases hs
  | lock segment =>
    cases lock with
    | true => cases hs
    | false =>
      cases hs
      have hfree : reader.holds = false := by simpa [PacketPc.holds] using hlock.symm
      cases segment <;> exact ⟨hrecv, hread, by simp [PacketPc.holds], by simp [hfree]⟩
  | space sizes =>
    cases sizes with
    | nil =>
      cases hs
      exact ⟨hrecv, hread, hlock, hexcl⟩
    | cons n sizes =>
      simp only [ReadPath.stepPacket] at hs
      split_ifs at hs <;> cases hs <;> exact ⟨hrecv, hread, hlock, hexcl⟩
  | wakeRead sizes =>
    obtain ⟨w, hw, rfl⟩ := Option.map_eq_some_iff.mp hs
    exact ⟨hrecv, (hread.wakeUp hw).1, hlock, hexcl⟩
  | release sizes =>
    cases hs
    have hfree : reader.holds = false := by simpa [PacketPc.holds] using hexcl
    exact ⟨hrecv, hread, by simp [PacketPc.holds, hfree], rfl⟩
  | sleep sizes pc =>
    obtain ⟨⟨pos, w⟩, hw, rfl⟩ := Option.map_eq_some_iff.mp hs
    have hserves := SynchWait.Serves.sleepOn hrecv hw
    cases pos <;> exact ⟨hserves, hread, hlock, hexcl⟩
  | relock sizes =>
    cases lock with
    | true => cases hs
    | false =>
      cases hs
      have hfree : reader.holds = false := by simpa [PacketPc.holds] using hlock.symm
      exact ⟨hrecv, hread, by simp [PacketPc.holds], by simp [hfree]⟩
  | unlock stored =>
    cases hs
    have hfree : reader.holds = false := by simpa [PacketPc.holds] using hexcl
    cases stored <;> exact ⟨hrecv, hread, by simp [PacketPc.holds, hfree], rfl⟩
  | checkRead =>
    cases hs
    cases hsleep : waitRead.sleep <;> exact ⟨hrecv, hread, hlock, hexcl⟩
  | wakeReader =>
    obtain ⟨w, hw, rfl⟩ := Option.map_eq_some_iff.mp hs
    exact ⟨hrecv, (hread.wakeUp hw).1, hlock, hexcl⟩

theorem Consistent.stepReader {s t : Conn} (h : Consistent s) (hs : stepReader s = some t) :
    Consistent t := by
  obtain ⟨hrecv, hread, hlock, hexcl⟩ := h
  obtain ⟨lock, used, wnd, waitRecv, waitRead, packet, reader⟩ := s
  cases reader with
  | idle => cases hs
  | lock len =>
    cases lock with
    | true => cases hs
    | false =>
      cases hs
      have hfree : packet.holds = false := by simpa [ReaderPc.holds] using hlock.symm
      exact ⟨hrecv, hread, by simp [ReaderPc.holds], by simp [hfree]⟩
  | test len =>
    simp only [ReadPath.stepReader] at hs
    split_ifs at hs <;> cases hs <;> exact ⟨hrecv, hread, hlock, hexcl⟩
  | release len =>
    cases hs
    have hfree : packet.holds = false := by simpa [ReaderPc.holds] using hexcl
    exact ⟨hrecv, hread, by simp [ReaderPc.holds, hfree], by simp [hfree]⟩
  | sleep len pc =>
    obtain ⟨⟨pos, w⟩, hw, rfl⟩ := Option.map_eq_some_iff.mp hs
    have hserves := SynchWait.Serves.sleepOn hread hw
    cases pos <;> exact ⟨hrecv, hserves, hlock, hexcl⟩
  | unlock =>
    cases hs
    have hfree : packet.holds = false := by simpa [ReaderPc.holds] using hexcl
    exact ⟨hrecv, hread, by simp [ReaderPc.holds, hfree], by simp [hfree]⟩
  | spin =>
    cases hs
    cases hsleep : waitRecv.sleep <;> exact ⟨hrecv, hread, hlock, hexcl⟩
  | wake =>
    obtain ⟨w, hw, rfl⟩ := Option.map_eq_some_iff.mp hs
    exact ⟨(hrecv.wakeUp hw).1, hread, hlock, hexcl⟩

theorem Consistent.step {s t : Conn} {e : Event} (h : Consistent s) (hs : step s e = some t) :
    Consistent t := by
  cases e with
  | receive segment =>
    simp only [ReadPath.step] at hs
    split_ifs at hs with hidle
    cases hs
    obtain ⟨hrecv, hread, hlock, hexcl⟩ := h
    rw [hidle] at hrecv hlock
    exact ⟨hrecv, hread, hlock, rfl⟩
  | read len =>
    simp only [ReadPath.step] at hs
    split_ifs at hs with hidle
    cases hs
    obtain ⟨hrecv, hread, hlock, hexcl⟩ := h
    rw [hidle] at hread hlock hexcl
    exact ⟨hrecv, hread, hlock, hexcl⟩
  | run thread =>
    cases thread with
    | packet => exact h.stepPacket hs
    | reader => exact h.stepReader hs

theorem Reaches.consistent {ok : Conn → Event → Prop} {init : Conn → Prop} {s : Conn}
    (h : Reaches step ok init s) (hinit : ∀ s, init s → Consistent s) : Consistent s :=
  h.invariant Consistent hinit (fun _ _ _ hc _ hs => hc.step hs)

/-- The packet thread waits for a `wake_up` that the reader is not about to make. -/
structure Parked (s : Conn) : Prop where
  consistent : Consistent s
  blocked : PacketBlocked s
  away : s.reader ≠ .wake

/-- A blocked packet thread takes no step. -/
theorem Consistent.stepPacket_blocked {s : Conn} (h : Consistent s) (hb : PacketBlocked s) :
    ∃ sizes, s.packet = .sleep sizes .wait ∧ ReadPath.stepPacket s = none := by
  have hpos := (h.recv.blocked hb).1
  have hnone := h.recv.sleepOn_blocked hb
  cases hp : s.packet with
  | sleep sizes pc =>
    rw [hp] at hpos
    obtain rfl : pc = .wait := by simpa [PacketPc.sleepPos] using hpos
    exact ⟨sizes, rfl, by simp [ReadPath.stepPacket, hp, hnone]⟩
  | _ => simp [hp, PacketPc.sleepPos] at hpos

/-- Only `wake_up` of the reader touches `wait_recv`, and it is reached only
through a clear flag. -/
theorem stepReader_waitRecv {s t : Conn} (hs : stepReader s = some t) (haway : s.reader ≠ .wake) :
    t.waitRecv = s.waitRecv ∧ (s.waitRecv.sleep = true → t.reader ≠ .wake) := by
  cases hr : s.reader with
  | wake => exact absurd hr haway
  | idle => simp [stepReader, hr] at hs
  | sleep len pc =>
    simp only [stepReader, hr, Option.map_eq_some_iff] at hs
    obtain ⟨⟨pos, w⟩, -, rfl⟩ := hs
    cases pos <;> simp
  | _ =>
    simp only [stepReader, hr] at hs
    first
      | (split_ifs at hs <;> cases hs <;> simp_all)
      | (cases hs; simp)

theorem Parked.step {s t : Conn} {e : Event} (h : Parked s) (hs : step s e = some t) :
    Parked t := by
  have hcons := h.consistent.step hs
  obtain ⟨sizes, hpc, hnone⟩ := h.consistent.stepPacket_blocked h.blocked
  have hsleep := (h.consistent.recv.blocked h.blocked).2.1
  cases e with
  | receive segment => simp [ReadPath.step, hpc] at hs
  | read len =>
    simp only [ReadPath.step] at hs
    split_ifs at hs
    cases hs
    exact ⟨hcons, h.blocked, by simp⟩
  | run thread =>
    cases thread with
    | packet => simp [ReadPath.step, hnone] at hs
    | reader =>
      obtain ⟨hwait, haway⟩ := stepReader_waitRecv hs h.away
      exact ⟨hcons, by simpa [PacketBlocked, hwait] using h.blocked, haway hsleep⟩

/-- A reader that waits while the packet thread is parked goes on waiting. -/
theorem Parked.readerWaits_step {s t : Conn} {e : Event} (h : Parked s) (hw : ReaderWaits s)
    (hs : ReadPath.step s e = some t) : ReaderWaits t := by
  obtain ⟨sizes, hpc, hnone⟩ := h.consistent.stepPacket_blocked h.blocked
  have hstays : ReadPath.stepReader s = some s ∨ ReadPath.stepReader s = none := by
    rcases hw with ⟨hr, hsleep⟩ | hb
    · left
      have hself : { s with reader := .spin } = s := by rw [← hr]
      simp only [stepReader, hr, hsleep, if_true, hself]
    · right
      have hpos := (h.consistent.read.blocked hb).1
      have hstep := h.consistent.read.sleepOn_blocked hb
      cases hr : s.reader with
      | sleep len pc =>
        rw [hr] at hpos
        obtain rfl : pc = .wait := by simpa [ReaderPc.sleepPos] using hpos
        simp [stepReader, hr, hstep]
      | _ => simp [hr, ReaderPc.sleepPos] at hpos
  have hbusy : s.reader ≠ .idle := by
    rintro hr
    rcases hw with ⟨hspin, -⟩ | hb
    · simp [hr] at hspin
    · have hpos := (h.consistent.read.blocked hb).1
      simp [hr, ReaderPc.sleepPos] at hpos
  cases e with
  | receive segment => simp [ReadPath.step, hpc] at hs
  | read len => simp [ReadPath.step, hbusy] at hs
  | run thread =>
    cases thread with
    | packet => simp [ReadPath.step, hnone] at hs
    | reader =>
      rcases hstays with hstay | hstay
      · have ht : s = t := by simpa [ReadPath.step, hstay] using hs
        exact ht ▸ hw
      · simp [ReadPath.step, hstay] at hs

theorem Parked.stuck {s : Conn} (h : Parked s) (hw : ReaderWaits s) : Stuck s := by
  intro t ht
  have hinv := ht.invariant (fun u => Parked u ∧ ReaderWaits u)
    (fun u hu => hu ▸ ⟨h, hw⟩)
    (fun u e v hu _ hs => ⟨hu.1.step hs, hu.1.readerWaits_step hu.2 hs⟩)
  exact ⟨hinv.1.blocked, hinv.2⟩

/-- How far the reader is from waiting. A notification that is already there, or
a signal on its way, lets it go round the loop once more. -/
def rank (s : Conn) : ℕ :=
  (match s.reader with
    | .idle => 9
    | .lock _ => 8
    | .test _ => 7
    | .release _ => 6
    | .sleep _ .lock => 5
    | .sleep _ .test => 4
    | .unlock => 1
    | .sleep _ .wait | .spin | .wake => 0)
  + if s.waitRead.notified || !s.waitRead.signalled.isEmpty then 10 else 0

/-- While the packet thread is parked the reader can come closer to waiting. -/
theorem Parked.progress {s : Conn} (h : Parked s) (hw : ¬ ReaderWaits s) :
    ∃ e t, WakeUpPending s e ∧ ReadPath.step s e = some t ∧ rank t < rank s := by
  obtain ⟨sizes, hpc, -⟩ := h.consistent.stepPacket_blocked h.blocked
  have hsleep := (h.consistent.recv.blocked h.blocked).2.1
  have haway := h.away
  obtain ⟨-, hread, hlock, -⟩ := h.consistent
  obtain ⟨lock, used, wnd, waitRecv, ⟨rlock, notified, dead, sleep, blocked, signalled⟩,
    packet, reader⟩ := s
  obtain rfl : packet = .sleep sizes .wait := hpc
  cases reader with
  | idle => exact ⟨.read 0, _, nofun, rfl, Nat.add_lt_add_right (by decide : 8 < 9) _⟩
  | lock len =>
    obtain rfl : lock = false := hlock
    exact ⟨.run .reader, _, nofun, rfl, Nat.add_lt_add_right (by decide : 7 < 8) _⟩
  | test len =>
    cases used with
    | zero => exact ⟨.run .reader, _, nofun, rfl, Nat.add_lt_add_right (by decide : 6 < 7) _⟩
    | succ n => exact ⟨.run .reader, _, nofun, rfl, Nat.add_lt_add_right (by decide : 1 < 7) _⟩
  | release len => exact ⟨.run .reader, _, nofun, rfl, Nat.add_lt_add_right (by decide : 5 < 6) _⟩
  | unlock => exact ⟨.run .reader, _, nofun, rfl, Nat.add_lt_add_right (by decide : 0 < 1) _⟩
  | spin => exact absurd (.inl ⟨rfl, hsleep⟩) hw
  | wake => exact absurd rfl haway
  | sleep len pc =>
    cases pc with
    | lock =>
      obtain ⟨rfl, rfl, -⟩ := hread
      exact ⟨.run .reader, _, nofun, rfl, Nat.add_lt_add_right (by decide : 4 < 5) _⟩
    | test =>
      obtain ⟨-, -, -, -, rfl⟩ := hread
      cases notified with
      | true => exact ⟨.run .reader, _, nofun, rfl, by simp [rank]⟩
      | false => exact ⟨.run .reader, _, nofun, rfl, by simp [rank]⟩
    | wait =>
      obtain ⟨rfl, -, -, ⟨-, rfl, -⟩ | ⟨-, rfl⟩⟩ := hread
      · exact absurd (.inr (by simp)) hw
      · exact ⟨.run .reader, _, nofun, rfl, by simp [rank]⟩

/-- From a state with a parked packet thread a stuck state can be reached. -/
theorem Parked.reaches_stuck {s : Conn} (h : Parked s) :
    ∃ t, Reaches ReadPath.step WakeUpPending (fun u => u = s) t ∧ Stuck t := by
  induction hn : rank s using Nat.strongRecOn generalizing s with
  | _ n ih =>
    by_cases hw : ReaderWaits s
    · exact ⟨s, .start rfl, h.stuck hw⟩
    · obtain ⟨e, t, hok, hs, hlt⟩ := h.progress hw
      obtain ⟨u, hu, hstuck⟩ := ih (rank t) (hn ▸ hlt) (h.step hs) rfl
      have hst : Reaches ReadPath.step WakeUpPending (fun v => v = s) t :=
        .next (.start rfl) hok hs
      exact ⟨u, hst.trans hu, hstuck⟩

/-- A step that goes to wait without a pending `wake_up` parks the packet thread. -/
theorem Consistent.parked_of_unpaired {s t : Conn} {e : Event} (h : Consistent s)
    (hs : ReadPath.step s e = some t) (hok : ¬ WakeUpPending s e) : Parked t := by
  have hcons := h.step hs
  simp only [WakeUpPending, Classical.not_imp] at hok
  obtain ⟨henter, haway⟩ := hok
  unfold entersWait at henter
  split at henter
  next =>
    split at henter
    next sizes hpc =>
      have hn : s.waitRecv.notified = false := by simpa using henter
      have ht : t = { s with
          waitRecv := { s.waitRecv with
            lock := false, blocked := .packet :: s.waitRecv.blocked }
          packet := .sleep sizes .wait } := by
        simpa [ReadPath.step, ReadPath.stepPacket, hpc, SynchWait.sleepOn, hn] using hs.symm
      subst ht
      exact ⟨hcons, List.mem_cons_self, haway⟩
    next => cases henter
  next => cases henter

/-- The packet thread becomes blocked only by entering the wait. -/
theorem stepPacket_entersWait {s t : Conn} (hs : stepPacket s = some t) :
    t.reader = s.reader ∧
      (t.waitRecv.blocked = s.waitRecv.blocked ∨ entersWait s (.run .packet) = true) := by
  cases hp : s.packet with
  | sleep sizes pc =>
    simp only [stepPacket, hp, Option.map_eq_some_iff] at hs
    obtain ⟨⟨pos, w⟩, hw, rfl⟩ := hs
    refine ⟨rfl, ?_⟩
    cases pc with
    | lock =>
      left
      simp only [SynchWait.sleepOn] at hw
      split_ifs at hw <;> cases hw <;> rfl
    | test =>
      cases hn : s.waitRecv.notified with
      | true =>
        left
        simp only [SynchWait.sleepOn, hn, if_true] at hw
        cases hw
        rfl
      | false =>
        right
        simp [entersWait, hp, hn]
    | wait =>
      left
      simp only [SynchWait.sleepOn] at hw
      split_ifs at hw
      cases hw
      rfl
  | idle => simp [stepPacket, hp] at hs
  | wakeRead sizes =>
    simp only [stepPacket, hp, Option.map_eq_some_iff] at hs
    obtain ⟨w, -, rfl⟩ := hs
    exact ⟨rfl, .inl rfl⟩
  | wakeReader =>
    simp only [stepPacket, hp, Option.map_eq_some_iff] at hs
    obtain ⟨w, -, rfl⟩ := hs
    exact ⟨rfl, .inl rfl⟩
  | space sizes =>
    cases sizes with
    | nil =>
      simp only [stepPacket, hp, Option.some.injEq] at hs
      subst hs
      exact ⟨rfl, .inl rfl⟩
    | cons n sizes =>
      simp only [stepPacket, hp] at hs
      split_ifs at hs <;> cases hs <;> exact ⟨rfl, .inl rfl⟩
  | _ =>
    simp only [stepPacket, hp] at hs
    first
      | (split_ifs at hs <;> cases hs <;> exact ⟨rfl, .inl rfl⟩)
      | (cases hs; exact ⟨rfl, .inl rfl⟩)

/-- As long as every wait finds its `wake_up` pending, a blocked packet thread
is about to be released. -/
theorem Consistent.wake_of_blocked_step {s t : Conn} {e : Event} (h : Consistent s)
    (hw : PacketBlocked s → s.reader = .wake) (hok : WakeUpPending s e)
    (hs : ReadPath.step s e = some t) : PacketBlocked t → t.reader = .wake := by
  intro hb
  cases e with
  | receive segment =>
    simp only [ReadPath.step] at hs
    split_ifs at hs
    cases hs
    exact hw hb
  | read len =>
    simp only [ReadPath.step] at hs
    split_ifs at hs with hidle
    cases hs
    exact absurd (hidle.symm.trans (hw hb)) (by decide)
  | run thread =>
    cases thread with
    | packet =>
      obtain ⟨hr, hsame | henter⟩ := stepPacket_entersWait hs
      · exact hr.trans (hw (by simpa [PacketBlocked, hsame] using hb))
      · exact hr.trans (hok henter)
    | reader =>
      by_cases hr : s.reader = .wake
      · simp only [ReadPath.step, ReadPath.stepReader, hr, Option.map_eq_some_iff] at hs
        obtain ⟨w, hwake, rfl⟩ := hs
        exact absurd hb (h.recv.wakeUp hwake).2
      · have hsame := (stepReader_waitRecv hs hr).1
        exact absurd (hw (by simpa [PacketBlocked, hsame] using hb)) hr

/-- A reader about to call `wake_up` does not wait. -/
theorem Consistent.not_readerWaits {s : Conn} (h : Consistent s) (hr : s.reader = .wake) :
    ¬ ReaderWaits s := by
  rintro (⟨hspin, -⟩ | hb)
  · rw [hr] at hspin
    cases hspin
  · have hpos := (h.read.blocked hb).1
    rw [hr] at hpos
    cases hpos

/-- In a run whose waits all find their `wake_up` pending no state is stuck. -/
theorem not_stuck_of_reaches {s : Conn}
    (hs : Reaches step WakeUpPending (fun u => u = Conn.initial) s) : ¬ Stuck s := by
  intro hstuck
  have hinv := hs.invariant
    (fun u => Consistent u ∧ (PacketBlocked u → u.reader = .wake))
    (fun u hu => by
      subst hu
      exact ⟨consistent_initial, fun hb => absurd hb List.not_mem_nil⟩)
    (fun u e v hu hok hstep =>
      ⟨hu.1.step hstep, hu.1.wake_of_blocked_step hu.2 hok hstep⟩)
  obtain ⟨hb, hwaits⟩ := hstuck s (.start rfl)
  exact hinv.1.not_readerWaits (hinv.2 hb) hwaits

/-- Such a run is never stuck, and its next step leads on to a stuck state exactly
when the packet thread goes to wait without a pending `wake_up`. -/
theorem never_stuck_iff_wakeUpPending {s : Conn}
    (hs : Reaches step WakeUpPending (fun u => u = Conn.initial) s) :
    ¬ Stuck s ∧ ∀ e t, step s e = some t →
      ((∃ u, Reaches step WakeUpPending (fun v => v = t) u ∧ Stuck u) ↔
        ¬ WakeUpPending s e) := by
  refine ⟨not_stuck_of_reaches hs, fun e t hstep => ⟨?_, fun hok => ?_⟩⟩
  · rintro ⟨u, hu, hstuck⟩ hok
    exact not_stuck_of_reaches ((hs.next hok hstep).trans hu) hstuck
  · have hcons := Reaches.consistent hs (fun s hs => hs ▸ consistent_initial)
    exact (hcons.parked_of_unpaired hstep hok).reaches_stuck

section Instance

/-- Forty-four full segments, stored in order one after the other, leave less
than one segment of space. -/
def fill : List Event :=
  (List.replicate 44 (.receive (.inOrder 1460 []) :: List.replicate 5 (.run .packet))).flatten

/-- Another full segment arrives and the packet thread goes up to its wait. -/
def wantSpace : List Event := .receive (.inOrder 1460 []) :: List.replicate 5 (.run .packet)

/-- The reader takes a little and passes the busy-wait. -/
def readLittle : List Event := .read 100 :: List.replicate 4 (.run .reader)

/-- The packet thread is at its wait, with the given space used and reader. -/
def waiting (used : ℕ) (rcvWnd : UInt16) (pc : SleepPc) (reader : ReaderPc) : Conn where
  rcvBufLock := false
  used := used
  rcvWnd := rcvWnd
  waitRecv := ⟨pc = .test, false, false, true, if pc = .wait then [.packet] else [], []⟩
  waitRead := ⟨false, true, false, false, [], []⟩
  packet := .sleep [1460] pc
  reader := reader

theorem never_stuck_iff_wakeUpPending_full :
    ¬ Stuck (waiting 64140 1395 .wait .wake) ∧
      ∃ u, Reaches step WakeUpPending (fun v => v = waiting 64240 1295 .wait .idle) u ∧
        Stuck u := by
  have hpaired : exec step WakeUpPending .initial
      (fill ++ readLittle ++ wantSpace ++ [.run .packet]) =
      some (waiting 64140 1395 .wait .wake) := by decide +kernel
  have hwant : exec step WakeUpPending .initial (fill ++ wantSpace) =
      some (waiting 64240 1295 .test .idle) := by decide +kernel
  constructor
  · exact (never_stuck_iff_wakeUpPending (.of_exec (.start rfl) hpaired)).1
  · exact ((never_stuck_iff_wakeUpPending (.of_exec (.start rfl) hwant)).2 (.run .packet) _
      (by decide)).mpr (by decide)

/-- The packet thread waits for space, then the reader reads everything. -/
def readAll : List Event :=
  fill ++ wantSpace ++ .run .packet :: .read 65535 :: List.replicate 4 (.run .reader)

/-- The reader has emptied the buffer and both threads wait for ever. -/
theorem readAll_stuck : ∃ s, Reaches step anyStep (fun u => u = Conn.initial) s ∧
    s.used = 0 ∧ Stuck s := by
  have hexec : exec step anyStep .initial readAll = some (waiting 0 65535 .wait .spin) := by
    decide +kernel
  have hs : Reaches step anyStep (fun u => u = Conn.initial) _ := .of_exec (.start rfl) hexec
  have hcons := Reaches.consistent hs (fun s hs => hs ▸ consistent_initial)
  have hparked : Parked (waiting 0 65535 .wait .spin) :=
    ⟨hcons, List.mem_singleton.mpr rfl, by decide⟩
  exact ⟨_, hs, rfl, hparked.stuck (.inl ⟨rfl, rfl⟩)⟩

end Instance

end NetworkLab.ReadPath
